import OpticC.Frontend.IncludeFiles
import OpticC.Lib.MakeRules

/-! `write_depfile` writes a rule for `make` behind a build. Its prerequisites are the sources of the
command line; what `resolve_include_file` reads for them is found here along the loops of the
preprocessor. -/

namespace OpticC.DepFiles

open Preprocessor MakeRules

section Reads

variable {σ Hash : Type} [DecidableEq Hash]

/-- `#include "path"`, as opposed to `#include <path>` -/
def isQuoted (after : List PpToken) : Bool :=
  (skipWhitespace after).head?.any fun t => t.text != "<"

/-- From `s` on, the loop comes to an `#include` of `path` with the preprocessor in the state `unit`. -/
inductive Includes (S : Services σ) (file : String) :
    Scanner σ → List PpToken → PpState σ → String → Bool → Prop
  | here {s s₁ : Scanner σ} {t : PpToken} {rest after rest' : List PpToken} {path : String} :
    isDirectiveStart (t :: rest) = true → flushPending S file s = .ok s₁ →
    parseDirectiveName rest = ("include", after) → s₁.active = true →
    parseIncludePath file after = .ok (path, rest') →
    Includes S file s (t :: rest) s₁.doc.unit path (isQuoted after)
  | later {s s₁ : Scanner σ} {t : PpToken} {rest rest' : List PpToken} {unit : PpState σ}
      {path : String} {quoted : Bool} :
    round S file s t rest = (s₁, .ok rest') → Includes S file s₁ rest' unit path quoted →
    Includes S file s (t :: rest) unit path quoted

variable (env : IncludeEnv Hash)

/-- The file that `resolve_include_file` reads, under the name it is found by, and its text. -/
def readsFile (unit : PpState (IncludeState Hash)) (path file : String) : Option (String × String) :=
  if path ∈ unit.files.includeStack then none
  else match env.findFile path file with
    | none => none
    | some full =>
      if (env.canonicalize full).getD full ∈ unit.files.includeStack then none
      else (env.read full).toOption.map fun content => (full, content)

/-- The loop on the text of a file, from its first token on. -/
def IncludesIn (depth : ℕ) (entered : PpState (IncludeState Hash)) (file text : String)
    (unit : PpState (IncludeState Hash)) (path : String) (quoted : Bool) : Prop :=
  Includes (env.services (resolveIncludeFile env depth)) file ⟨⟨entered, []⟩, [], [], []⟩
    (tokenizePpSource env.classes text.toList 1 1) unit path quoted

/-- An `#include` reads the header `header` through a quoted include: its own file, or in the text
of its file. -/
inductive HeaderRead : ℕ → PpState (IncludeState Hash) → String → String → Bool → String → Prop
  | opened {depth : ℕ} {unit : PpState (IncludeState Hash)} {path file full content : String} :
    readsFile env unit path file = some (full, content) → HeaderRead depth unit path file true full
  | nested {depth : ℕ} {unit unit' : PpState (IncludeState Hash)}
      {path path' file full content header : String} {quoted quoted' : Bool} :
    readsFile env unit path file = some (full, content) →
    env.computeHash content ∉ unit.files.hashes →
    IncludesIn env depth (env.enter unit ((env.canonicalize full).getD full) content)
      ((env.canonicalize full).getD full) content unit' path' quoted' →
    HeaderRead depth unit' path' ((env.canonicalize full).getD full) quoted' header →
    HeaderRead (depth + 1) unit path file quoted header

variable {env}

/-- A file that is read is new to the preprocessor, and then it is entered, or its text has been
seen before. -/
theorem resolveIncludeFile_of_readsFile (depth : ℕ) {unit : PpState (IncludeState Hash)}
    {path file full content : String} (h : readsFile env unit path file = some (full, content)) :
    resolveIncludeFile env depth unit path file =
      if env.computeHash content ∈ unit.files.hashes then (unit, .ok none)
      else resolveEntered env depth unit ((env.canonicalize full).getD full) content := by
  unfold readsFile at h
  split_ifs at h with hstack
  cases hfind : env.findFile path file with
  | none =>
    rw [hfind] at h
    cases h
  | some found =>
    rw [hfind] at h
    simp only at h
    split_ifs at h with hresolved
    cases hread : env.read found with
    | error e =>
      rw [hread] at h
      cases h
    | ok text =>
      rw [hread] at h
      cases h
      rw [resolveIncludeFile, if_neg hstack, hfind]
      simp only [if_neg hresolved, hread]
      split_ifs
      · rfl
      · cases depth with
        | zero => rfl
        | succ depth => rfl

/-- A header that is read is there. -/
theorem HeaderRead.exists_content {depth : ℕ} {unit : PpState (IncludeState Hash)}
    {path file header : String} {quoted : Bool}
    (h : HeaderRead env depth unit path file quoted header) :
    ∃ content, env.read header = .ok content := by
  induction h with
  | opened hreads =>
    rename_i full content
    unfold readsFile at hreads
    split_ifs at hreads
    split at hreads
    · cases hreads
    · rename_i found _
      split_ifs at hreads
      cases hread : env.read found with
      | error e =>
        rw [hread] at hreads
        cases hreads
      | ok text =>
        rw [hread] at hreads
        cases hreads
        exact ⟨_, hread⟩
  | nested _ _ _ _ ih => exact ih

end Reads

section Driver

/-- The fields of `DirectDriverInvocation` that the rule depends on. -/
structure Invocation where
  sourceFiles : List String
  forceIncludes : List String
  output : String
  depTarget : Option String
  depPhony : Bool

/-- The preprocessor of a build, with what `resolve_force_include_path` looks at. -/
structure Driver (Hash : Type) extends IncludeEnv Hash where
  isAbsolute : String → Bool
  currentDir : Option String
  configPaths : List String
  /-- The state of the preprocessor before a source, with the macros of the command line -/
  initial : PpState (IncludeState Hash)

variable {Hash : Type} [DecidableEq Hash] (D : Driver Hash)

def resolveForceIncludePath (input header : String) : String :=
  if D.isAbsolute header then header
  else
    let bases := D.currentDir.toList ++ (D.parent input).toList ++ D.configPaths
    ((bases.map fun base => D.join base header).find? D.pathExists).getD header

/-- The text that is preprocessed for a source: each force-include is a line in front of it. -/
def prefixedSource (inv : Invocation) (input text : String) : String :=
  String.join (inv.forceIncludes.map fun header =>
    "#include \"" ++ resolveForceIncludePath D input header ++ "\"\n") ++ text

/-- `process_source` begins with a source. -/
def Driver.started (input : String) : PpState (IncludeState Hash) :=
  { D.initial with
    files := { D.initial.files with
      currentFile := input
      includeStack := D.initial.files.includeStack ++ [input] } }

/-- The build of the invocation reads a header through a quoted include or a force-include. -/
def Invocation.Reads (inv : Invocation) (depth : ℕ) (header : String) : Prop :=
  ∃ input ∈ inv.sourceFiles, ∃ text, D.read input = .ok text ∧ ∃ unit path quoted,
    IncludesIn D.toIncludeEnv depth (D.started input) input (prefixedSource D inv input text) unit
      path quoted ∧
    HeaderRead D.toIncludeEnv depth unit path input quoted header

/-- `write_depfile`, the content of the file -/
def writeDepfile (target : String) (sourceFiles : List String) (depPhony : Bool) : List Char :=
  let deps := [' '].intercalate (sourceFiles.map String.toList)
  let rule := target.toList ++ ':' :: ' ' :: deps ++ ['\n']
  if depPhony then rule ++ sourceFiles.flatMap fun source => source.toList ++ [':', '\n'] else rule

/-- What `execute_direct_driver` writes when the build has succeeded. -/
def Invocation.depfile (inv : Invocation) : List Char :=
  writeDepfile (inv.depTarget.getD inv.output) inv.sourceFiles inv.depPhony

/-- The prerequisites that `make` reads in the rule are the sources and the headers. -/
def Complete (inv : Invocation) (depth : ℕ) : Prop :=
  ∃ text names others,
    inv.depfile = (inv.depTarget.getD inv.output).toList ++ ':' :: ' ' :: text ∧
    prerequisites text = some names ∧
    names.Perm ((inv.sourceFiles ++ others).map String.toList) ∧
    ∀ header, header ∈ inv.sourceFiles ++ others ↔
      header ∈ inv.sourceFiles ∨ inv.Reads D depth header

/-- The text of the rule behind its colon. -/
theorem depfile_eq (inv : Invocation) : ∃ tail, inv.depfile =
    (inv.depTarget.getD inv.output).toList ++ ':' :: ' ' ::
      ([' '].intercalate (inv.sourceFiles.map String.toList) ++ '\n' :: tail) := by
  unfold Invocation.depfile writeDepfile
  split_ifs
  · exact ⟨inv.sourceFiles.flatMap fun source => source.toList ++ [':', '\n'], by simp⟩
  · exact ⟨[], by simp⟩

variable {D} {inv : Invocation} {depth : ℕ}

theorem plain_of_complete (h : Complete D inv depth) :
    (∀ source ∈ inv.sourceFiles, PlainName source.toList) ∧
      ∀ header, inv.Reads D depth header → header ∈ inv.sourceFiles := by
  obtain ⟨text, names, others, htext, hnames, hperm, hall⟩ := h
  obtain ⟨tail, htail⟩ := depfile_eq inv
  rw [htail] at htext
  have htext' := List.append_cancel_left htext
  simp only [List.cons.injEq, true_and] at htext'
  rw [← htext'] at hnames
  rw [List.map_append] at hperm
  obtain ⟨hothers, hplain⟩ := plain_of_prerequisites hnames hperm
  refine ⟨fun source hs => hplain _ (List.mem_map_of_mem hs), fun header hread => ?_⟩
  have hmem := (hall header).2 (.inr hread)
  rw [List.map_eq_nil_iff.1 hothers, List.append_nil] at hmem
  exact hmem

theorem complete_of_plain (hplain : ∀ source ∈ inv.sourceFiles, PlainName source.toList)
    (hreads : ∀ header, inv.Reads D depth header → header ∈ inv.sourceFiles) :
    Complete D inv depth := by
  obtain ⟨tail, htail⟩ := depfile_eq inv
  refine ⟨_, _, [], htail, prerequisites_of_plain ?_ tail, ?_, fun header => ?_⟩
  · intro n hn
    obtain ⟨source, hs, rfl⟩ := List.mem_map.1 hn
    exact hplain source hs
  · rw [List.append_nil]
  · rw [List.append_nil]
    exact ⟨.inl, fun h => h.elim id (hreads header)⟩

/-- `optic_c -MD main.c`, where each text is `#include "h"` -/
def mainAndHeader : Driver String :=
  { oneHeader "#include \"h\"\n" with
    isAbsolute := fun _ => false
    currentDir := none
    configPaths := []
    initial := ⟨[], [], [], [], true, ⟨[], "", []⟩⟩ }

def onlyMain : Invocation := ⟨["main.c"], [], "main.o", none, false⟩

end Driver

end OpticC.DepFiles
