import OpticC.Lib.Interleaving
import Mathlib.Data.List.Basic

/-! `compile_all`: the tasks that compile the source files of a build, each with the paths of its
intermediate files, and the cache that they share. -/

namespace OpticC.Build.Parallel

open Interleaving

/-- The contents of a file. -/
abbrev Content := List UInt8

section Paths

/-- The part of a file name in front of its last dot, unless that is empty. -/
def fileStem {α : Type} [DecidableEq α] (dot : α) (name : List α) : List α :=
  let before := (name.reverse.dropWhile (· ≠ dot)).tail.reverse
  if before = [] then name else before

/-- The name of a file in bytes; it is not empty. -/
abbrev FileName := { name : List UInt8 // name ≠ [] }

inductive Component
  | rootDir
  | curDir
  | parentDir
  | normal (name : FileName)
  deriving DecidableEq

abbrev Path := List Component

/-- `Path::file_name` -/
def fileName (path : Path) : Option FileName :=
  match path.getLast? with
  | some (.normal name) => some name
  | _ => none

/-- `source.file_stem().and_then(|s| s.to_str()).unwrap_or("unknown")` -/
def stemOf (source : Path) : List Char :=
  let stem := (fileName source).map fun name => fileStem 46 name.val
  ((stem.bind fun s => String.fromUTF8? ⟨s.toArray⟩).map String.toList).getD "unknown".toList

/-- A file of the temporary directory, by its name. -/
abbrev TempFile := List Char

def llPath (source : Path) : TempFile := stemOf source ++ ".ll".toList

def objPath (source : Path) : TempFile := stemOf source ++ ".o".toList

/-- `obj_path.with_extension("s")` -/
def asmPath (source : Path) : TempFile := fileStem '.' (objPath source) ++ ".s".toList

/-- The paths that the compilation of a source reads and writes. -/
def intermediates (source : Path) : List TempFile :=
  [llPath source, objPath source, asmPath source]

end Paths

/-- The tools of a build and the flags that matter to its files. -/
structure Toolchain (Key : Type) where
  /-- `build_cache_key`; `none` is a source that cannot be read. -/
  key : Path → Option Key
  /-- `compile_to_ir_artifacts` -/
  ir : Path → Option Content
  llcObj : Content → Option Content
  llcAsm : Content → Option Content
  /-- `rewrite_return_thunks_for_kernel` -/
  rewrite : Content → Content
  assemble : Content → Option Content
  returnThunkExtern : Bool

variable {Key : Type} [DecidableEq Key] (T : Toolchain Key)

/-- The object compiled from a source. -/
def Toolchain.objectOf (source : Path) : Option Content :=
  (T.ir source).bind fun ir =>
    if T.returnThunkExtern then (T.llcAsm ir).bind fun asm => T.assemble (T.rewrite asm)
    else T.llcObj ir

/-- The temporary directory and the cache. -/
structure Disk (Key : Type) where
  files : TempFile → Option Content
  cache : Key → Option Content

namespace Disk

variable (d : Disk Key)

def write (path : TempFile) (content : Content) : Disk Key :=
  { d with files := Function.update d.files path (some content) }

def remove (path : TempFile) : Disk Key :=
  { d with files := Function.update d.files path none }

def cacheWrite (key : Key) (content : Content) : Disk Key :=
  { d with cache := Function.update d.cache key (some content) }

end Disk

/-- Where `compile_file_to_object_impl` is. Files are opened and filled in two steps, and a tool
reads its input before it writes its output. -/
inductive Point (Key : Type)
  | start
  | restoring (key : Key)
  | compiling (key : Key)
  | writingIr (key : Key) (ir : Content)
  | startingLlc (key : Key)
  | finishingLlc (key : Key) (output : Option Content)
  | readingAsm (key : Key)
  | rewriting (key : Key) (asm : Content)
  | startingCc (key : Key)
  | finishingCc (key : Key) (output : Option Content)
  | removingAsm (key : Key) (success : Bool)
  | removingIr (key : Key) (success : Bool)
  | openingCached (key : Key)
  | storing (key : Key)
  | done
  | failed

/-- One step of the task of a source. -/
def step (source : Path) (d : Disk Key) : Point Key → Option (Point Key × Disk Key)
  | .start =>
    match T.key source with
    | none => some (.failed, d)
    | some key => some (if (d.cache key).isSome then .restoring key else .compiling key, d)
  | .restoring key =>
    match d.cache key with
    | none => some (.failed, d)
    | some object => some (.done, d.write (objPath source) object)
  | .compiling key =>
    match T.ir source with
    | none => some (.failed, d)
    | some ir => some (.writingIr key ir, d.write (llPath source) [])
  | .writingIr key ir => some (.startingLlc key, d.write (llPath source) ir)
  | .startingLlc key =>
    let llc := if T.returnThunkExtern then T.llcAsm else T.llcObj
    some (.finishingLlc key ((d.files (llPath source)).bind llc), d)
  | .finishingLlc key output =>
    match output with
    | none => some (.removingIr key false, d)
    | some content =>
      if T.returnThunkExtern then some (.readingAsm key, d.write (asmPath source) content)
      else some (.removingIr key true, d.write (objPath source) content)
  | .readingAsm key =>
    match d.files (asmPath source) with
    | none => some (.failed, d)
    | some asm => some (.rewriting key (T.rewrite asm), d)
  | .rewriting key asm => some (.startingCc key, d.write (asmPath source) asm)
  | .startingCc key => some (.finishingCc key ((d.files (asmPath source)).bind T.assemble), d)
  | .finishingCc key output =>
    match output with
    | none => some (.removingAsm key false, d)
    | some content => some (.removingAsm key true, d.write (objPath source) content)
  | .removingAsm key success => some (.removingIr key success, d.remove (asmPath source))
  | .removingIr key success =>
    some (if success then .openingCached key else .failed, d.remove (llPath source))
  | .openingCached key =>
    match d.files (objPath source) with
    | none => some (.failed, d)
    | some _ => some (.storing key, d.cacheWrite key [])
  | .storing key =>
    match d.files (objPath source) with
    | none => some (.failed, d)
    | some object => some (.done, d.cacheWrite key object)
  | .done => none
  | .failed => none

/-- The tasks of `compile_all`, one for each source file. -/
def tasks (sources : List Path) : Tasks (Fin sources.length) (Point Key) (Disk Key) :=
  fun i point d => step T (sources.get i) d point

def start (sources : List Path) (d : Disk Key) :
    State (Fin sources.length) (Point Key) (Disk Key) :=
  ⟨fun _ => .start, d⟩

/-- The state after the tasks took turns in this order. -/
def compileAll (sources : List Path) (d : Disk Key) (schedule : List (Fin sources.length)) :
    State (Fin sources.length) (Point Key) (Disk Key) :=
  run (tasks T sources) (start sources d) schedule

/-- `object_files` when all tasks are done without an error. -/
def objectFiles (sources : List Path)
    (st : State (Fin sources.length) (Point Key) (Disk Key)) : Option (List TempFile) :=
  (List.finRange sources.length).mapM fun i =>
    match st.locals i with
    | .done => some (objPath (sources.get i))
    | _ => none

end OpticC.Build.Parallel
