import OpticC.Frontend.ResolveIncludes
import OpticC.Frontend.Tokenizer

/-! `resolve_include_file`: the search for the file of an `#include`, what is recorded before its
text is processed, and what an error leaves behind. The files that can be read and the
evaluation of macros and conditions are given. -/

namespace OpticC.Preprocessor

/-- The fields that `#include` works on. `hashes` are the file hashes in the database. -/
structure IncludeState (Hash : Type) where
  includeStack : List String
  currentFile : String
  hashes : List Hash
  deriving DecidableEq

/-- The file system, the search paths and the rest of the preprocessor. -/
structure IncludeEnv (Hash : Type) where
  classes : CharClasses
  expand : MacroTable → List Token → Except Fault (List Token)
  condition : PpState (IncludeState Hash) → String → List PpToken →
    Except PreprocessorError (BitVec 64 × ℕ)
  includePaths : List String
  parent : String → Option String
  join : String → String → String
  pathExists : String → Bool
  canonicalize : String → Option String
  /-- `fs::read_to_string`; an error is its text. -/
  read : String → Except String String
  computeHash : String → Hash

section Resolve

variable {Hash : Type} [DecidableEq Hash] (env : IncludeEnv Hash)

/-- The first path of the search at which there is a file. -/
def IncludeEnv.findFile (path currentFile : String) : Option String :=
  let searchPaths := (env.parent currentFile).toList ++ env.includePaths
  (searchPaths.map fun dir => env.join dir path).find? env.pathExists

/-- The file of an `#include` is found and read. -/
def IncludeEnv.Opens (path currentFile : String) : Prop :=
  ∃ full content, env.findFile path currentFile = some full ∧ env.read full = .ok content

/-- The preprocessor around a file, given what `#include` does in it. -/
def IncludeEnv.services
    (resolve : PpState (IncludeState Hash) → String → String →
      PpState (IncludeState Hash) × Except PreprocessorError (Option (List Token))) :
    Services (IncludeState Hash) :=
  ⟨env.expand, env.condition, resolve⟩

/-- What is recorded before the text of a file is processed. -/
def IncludeEnv.enter (unit : PpState (IncludeState Hash)) (resolvedPath content : String) :
    PpState (IncludeState Hash) :=
  { unit with files :=
    { includeStack := unit.files.includeStack ++ [resolvedPath]
      currentFile := resolvedPath
      hashes := env.computeHash content :: unit.files.hashes } }

/-- The text of a file is processed; on an error the function returns at once. -/
def IncludeEnv.processFile
    (resolve : PpState (IncludeState Hash) → String → String →
      PpState (IncludeState Hash) × Except PreprocessorError (Option (List Token)))
    (entered : PpState (IncludeState Hash)) (resolvedPath content : String) :
    PpState (IncludeState Hash) × Except PreprocessorError (Option (List Token)) :=
  match resolveIncludes (env.services resolve) resolvedPath entered
      (tokenizePpSource env.classes content.toList 1 1) with
  | (doc, .error (e, _)) => (doc.unit, .error e)
  | (doc, .ok _) =>
    ({ doc.unit with files := { doc.unit.files with
        includeStack := doc.unit.files.includeStack.dropLast } },
      .ok (some doc.result))

/-- `resolve_include_file`; files can be nested `depth` times in the one it reads. -/
def resolveIncludeFile : ℕ → PpState (IncludeState Hash) → String → String →
    PpState (IncludeState Hash) × Except PreprocessorError (Option (List Token))
  | depth, unit, path, currentFile =>
    if path ∈ unit.files.includeStack then (unit, .ok none)
    else
      match env.findFile path currentFile with
      | none => (unit, .error (.includeError currentFile ("file not found: " ++ path)))
      | some fullPath =>
        let resolvedPath := (env.canonicalize fullPath).getD fullPath
        if resolvedPath ∈ unit.files.includeStack then (unit, .ok none)
        else
          match env.read fullPath with
          | .error e => (unit, .error (.includeError path e))
          | .ok content =>
            if env.computeHash content ∈ unit.files.hashes then (unit, .ok none)
            else
              match depth with
              | 0 => (env.enter unit resolvedPath content, .error (.fault .outOfFuel))
              | depth + 1 =>
                env.processFile (resolveIncludeFile depth) (env.enter unit resolvedPath content)
                  resolvedPath content

/-- `process_source` -/
def processSource (depth : ℕ) (unit : PpState (IncludeState Hash)) (source fileName : String) :
    PpState (IncludeState Hash) × Except PreprocessorError (List Token) :=
  let started : PpState (IncludeState Hash) :=
    { unit with files := { unit.files with
        currentFile := fileName, includeStack := unit.files.includeStack ++ [fileName] } }
  match resolveIncludes (env.services (resolveIncludeFile env depth)) fileName started
      (tokenizePpSource env.classes source.toList 1 1) with
  | (doc, .error (e, _)) => (doc.unit, .error e)
  | (doc, .ok _) =>
    ({ doc.unit with files := { doc.unit.files with
        includeStack := doc.unit.files.includeStack.dropLast } }, .ok doc.result)

end Resolve

section Files

/-! What the loop does to the files is what its `#include` directives do. -/

variable {σ : Type} {S : Services σ} {R : σ → σ → Prop} (file : String)

/-- `#include` moves the files along a relation. -/
def Services.Moves (S : Services σ) (R : σ → σ → Prop) : Prop :=
  ∀ unit path file, R unit.files (S.resolveIncludeFile unit path file).1.files

theorem performInclude_files (hrefl : ∀ x, R x x) (hS : S.Moves R) (d : Doc σ)
    (after : List PpToken) : R d.unit.files (performInclude S file d after).1.unit.files := by
  unfold performInclude
  split
  · exact hrefl _
  · rename_i path rest _
    have hmove := hS d.unit path file
    split
    · rename_i heq
      rwa [heq] at hmove
    · rename_i heq
      rwa [heq] at hmove
    · rename_i heq
      rw [heq] at hmove
      split_ifs
      · exact hmove
      · exact hmove

theorem perform_files (hrefl : ∀ x, R x x) (hS : S.Moves R) (p : Plain) (d : Doc σ)
    (after : List PpToken) : R d.unit.files (perform S file p d after).1.unit.files := by
  cases p with
  | includeFile => exact performInclude_files file hrefl hS d after
  | define =>
    simp only [perform]
    split
    · exact hrefl _
    · exact hrefl _
  | undef => exact hrefl _
  | pragma => exact hrefl _
  | error => exact hrefl _
  | warning => exact hrefl _
  | other => exact hrefl _

variable {file} in
theorem flushPending_files {s s' : Scanner σ} (h : flushPending S file s = .ok s') :
    s'.doc.unit.files = s.doc.unit.files := by
  unfold flushPending emit at h
  split_ifs at h
  · cases h
    rfl
  · cases hx : S.expand s.doc.unit.macros (ppTokensToTokens s.pending file) with
    | error f =>
      rw [hx] at h
      cases h
    | ok tokens =>
      rw [hx] at h
      cases h
      rfl

theorem directiveRound_files (hrefl : ∀ x, R x x) (hS : S.Moves R) (s : Scanner σ) (d : Directive)
    (here after : List PpToken) :
    R s.doc.unit.files (directiveRound S file s d here after).1.doc.unit.files := by
  cases d with
  | plain p =>
    simp only [directiveRound]
    split_ifs
    · exact perform_files file hrefl hS p s.doc after
    · exact hrefl _
  | ifdef =>
    simp only [directiveRound]
    split <;> exact hrefl _
  | ifndef =>
    simp only [directiveRound]
    split <;> exact hrefl _
  | ifExpr =>
    simp only [directiveRound]
    split_ifs
    · split <;> exact hrefl _
    · exact hrefl _
  | elif =>
    simp only [directiveRound]
    split
    · exact hrefl _
    · split_ifs
      · exact hrefl _
      · split
        · exact hrefl _
        · dsimp only
          split_ifs <;> exact hrefl _
      · exact hrefl _
  | elseGroup =>
    simp only [directiveRound]
    split
    · exact hrefl _
    · split_ifs <;> exact hrefl _
  | endif =>
    simp only [directiveRound]
    split <;> exact hrefl _

theorem round_files (hrefl : ∀ x, R x x) (hS : S.Moves R) (s : Scanner σ) (t : PpToken)
    (rest : List PpToken) : R s.doc.unit.files (round S file s t rest).1.doc.unit.files := by
  unfold round
  split_ifs
  · cases hflush : flushPending S file s with
    | error f => exact hrefl _
    | ok s' =>
      have hmove := directiveRound_files file hrefl hS s'
        (Directive.ofName (parseDirectiveName rest).1) (t :: rest) (parseDirectiveName rest).2
      rw [flushPending_files hflush] at hmove
      exact hmove
  · exact hrefl _
  · exact hrefl _

/-- The run of the loop moves the files along the relation. -/
theorem loop_files (hrefl : ∀ x, R x x) (htrans : ∀ x y z, R x y → R y z → R x z)
    (hS : S.Moves R) (s : Scanner σ) (tokens : List PpToken) :
    R s.doc.unit.files (loop S file s tokens).1.unit.files := by
  fun_induction loop S file s tokens with
  | case1 s f hflush => exact hrefl _
  | case2 s s' hflush hopen =>
    rw [flushPending_files hflush]
    exact hrefl _
  | case3 s s' hflush hopen =>
    rw [flushPending_files hflush]
    exact hrefl _
  | case4 s t rest s' e hround =>
    have hmove := round_files file hrefl hS s t rest
    rwa [hround] at hmove
  | case5 s t rest s' rest' hround ih =>
    have hmove := round_files file hrefl hS s t rest
    rw [hround] at hmove
    exact htrans _ _ _ hmove ih

end Files

section Traces

variable {Hash : Type} [DecidableEq Hash] (env : IncludeEnv Hash)

/-- No recorded hash is dropped. -/
def Records (x y : IncludeState Hash) : Prop := x.hashes ⊆ y.hashes

omit [DecidableEq Hash] in
theorem Records.refl (x : IncludeState Hash) : Records x x := List.Subset.refl _

omit [DecidableEq Hash] in
theorem Records.trans (x y z : IncludeState Hash) (h : Records x y) (h' : Records y z) :
    Records x z := List.Subset.trans h h'

variable {env}

omit [DecidableEq Hash] in
theorem processFile_records
    {resolve : PpState (IncludeState Hash) → String → String →
      PpState (IncludeState Hash) × Except PreprocessorError (Option (List Token))}
    (hresolve : (env.services resolve).Moves Records) (unit : PpState (IncludeState Hash))
    (resolvedPath content : String) :
    Records unit.files (env.processFile resolve unit resolvedPath content).1.files := by
  have hloop := loop_files resolvedPath Records.refl Records.trans hresolve
    ⟨⟨unit, []⟩, [], [], []⟩ (tokenizePpSource env.classes content.toList 1 1)
  unfold IncludeEnv.processFile resolveIncludes
  split
  · rename_i heq
    rwa [heq] at hloop
  · rename_i heq
    rwa [heq] at hloop

/-- What follows when an `#include` enters a file. -/
def resolveEntered (env : IncludeEnv Hash) (depth : ℕ) (unit : PpState (IncludeState Hash))
    (resolvedPath content : String) :
    PpState (IncludeState Hash) × Except PreprocessorError (Option (List Token)) :=
  match depth with
  | 0 => (env.enter unit resolvedPath content, .error (.fault .outOfFuel))
  | depth + 1 => env.processFile (resolveIncludeFile env depth)
      (env.enter unit resolvedPath content) resolvedPath content

/-- What an `#include` can do: nothing, an error of the search, or it enters a new file. -/
theorem resolveIncludeFile_cases (env : IncludeEnv Hash) (depth : ℕ) (unit : PpState (IncludeState Hash))
    (path file : String) :
    resolveIncludeFile env depth unit path file = (unit, .ok none) ∨
    (¬ env.Opens path file ∧
      ∃ e, resolveIncludeFile env depth unit path file = (unit, .error e)) ∨
    ∃ resolvedPath content, env.Opens path file ∧ env.computeHash content ∉ unit.files.hashes ∧
      resolveIncludeFile env depth unit path file =
        resolveEntered env depth unit resolvedPath content := by
  rw [resolveIncludeFile]
  by_cases hpath : path ∈ unit.files.includeStack
  · rw [if_pos hpath]
    exact .inl rfl
  rw [if_neg hpath]
  cases hfind : env.findFile path file with
  | none =>
    right; left
    refine ⟨?_, _, rfl⟩
    rintro ⟨full, content, hfull, -⟩
    rw [hfind] at hfull
    cases hfull
  | some full =>
    simp only
    by_cases hresolved : (env.canonicalize full).getD full ∈ unit.files.includeStack
    · rw [if_pos hresolved]
      exact .inl rfl
    rw [if_neg hresolved]
    cases hread : env.read full with
    | error e =>
      right; left
      refine ⟨?_, _, rfl⟩
      rintro ⟨full', content, hfull, hcontent⟩
      obtain rfl := Option.some.inj (hfind.symm.trans hfull)
      rw [hread] at hcontent
      cases hcontent
    | ok content =>
      simp only
      by_cases hhash : env.computeHash content ∈ unit.files.hashes
      · rw [if_pos hhash]
        exact .inl rfl
      · rw [if_neg hhash]
        right; right
        refine ⟨(env.canonicalize full).getD full, content, ⟨full, content, hfind, hread⟩, hhash, ?_⟩
        cases depth with
        | zero => rfl
        | succ depth => rfl

theorem resolveIncludeFile_records (depth : ℕ) :
    (env.services (resolveIncludeFile env depth)).Moves Records := by
  induction depth with
  | zero =>
    intro unit path file
    obtain h | ⟨-, e, h⟩ | ⟨resolvedPath, content, -, -, h⟩ :=
      resolveIncludeFile_cases env 0 unit path file
    · simp only [IncludeEnv.services, h]
      exact Records.refl _
    · simp only [IncludeEnv.services, h]
      exact Records.refl _
    · simp only [IncludeEnv.services, h]
      exact List.subset_cons_self _ _
  | succ depth ih =>
    intro unit path file
    obtain h | ⟨-, e, h⟩ | ⟨resolvedPath, content, -, -, h⟩ :=
      resolveIncludeFile_cases env (depth + 1) unit path file
    · simp only [IncludeEnv.services, h]
      exact Records.refl _
    · simp only [IncludeEnv.services, h]
      exact Records.refl _
    · have hmove := processFile_records ih (env.enter unit resolvedPath content) resolvedPath content
      simp only [IncludeEnv.services, h]
      exact Records.trans _ _ _ (List.subset_cons_self _ _) hmove

/-- A file that is entered is recorded, however its processing ends. -/
theorem mem_hashes_resolveEntered (env : IncludeEnv Hash) (depth : ℕ)
    (unit : PpState (IncludeState Hash)) (resolvedPath content : String) :
    env.computeHash content ∈
      (resolveEntered env depth unit resolvedPath content).1.files.hashes := by
  have hentered : env.computeHash content ∈ (env.enter unit resolvedPath content).files.hashes :=
    List.mem_cons_self
  cases depth with
  | zero => exact hentered
  | succ depth =>
    exact processFile_records (resolveIncludeFile_records depth) _ resolvedPath content hentered

/-- A failed `#include` leaves no trace just when its file is not found or cannot be read. -/
theorem resolveIncludeFile_error_iff (env : IncludeEnv Hash) (depth : ℕ)
    (unit : PpState (IncludeState Hash)) (path file : String) (e : PreprocessorError)
    (h : (resolveIncludeFile env depth unit path file).2 = .error e) :
    (resolveIncludeFile env depth unit path file).1.files = unit.files ↔
      ¬ env.Opens path file := by
  obtain hnone | ⟨hclosed, e', herror⟩ | ⟨resolvedPath, content, hopens, hnew, hentered⟩ :=
    resolveIncludeFile_cases env depth unit path file
  · rw [hnone] at h
    cases h
  · rw [herror]
    exact ⟨fun _ => hclosed, fun _ => rfl⟩
  · constructor
    · intro hsame
      have hrecorded := mem_hashes_resolveEntered env depth unit resolvedPath content
      rw [← hentered, hsame] at hrecorded
      exact absurd hrecorded hnew
    · intro hclosed
      exact absurd hopens hclosed

end Traces

section Examples

/-- One directory with the file `h`; a hash is the text itself. -/
def oneHeader (content : String) : IncludeEnv String where
  classes := ⟨Char.isAlpha, Char.isDigit⟩
  expand _ tokens := .ok tokens
  condition _ _ _ := .error (.conditionalError "")
  includePaths := ["/d"]
  parent _ := none
  join dir path := dir ++ "/" ++ path
  pathExists path := path == "/d/h"
  canonicalize := some
  read _ := .ok content
  computeHash := id

def freshUnit : PpState (IncludeState String) :=
  ⟨[], [], [], [], true, ⟨["main.c"], "main.c", []⟩⟩

/-- `g` is not found, so nothing is left behind. -/
theorem traceless_missing :
    (resolveIncludeFile (oneHeader "") 1 freshUnit "g" "main.c").1.files = freshUnit.files ↔
      ¬ (oneHeader "").Opens "g" "main.c" :=
  resolveIncludeFile_error_iff (oneHeader "") 1 freshUnit "g" "main.c"
    (.includeError "main.c" "file not found: g") (by decide)

/-- The text of `h` fails. Its include is skipped with a warning, but the file stays recorded, on
the stack and current, and the second include of it does nothing. -/
theorem not_traceless_endif :
    (resolveIncludeFile (oneHeader "#endif\n") 1 freshUnit "h" "main.c").2 =
      .error (.conditionalError "#endif without #if") ∧
    (resolveIncludeFile (oneHeader "#endif\n") 1 freshUnit "h" "main.c").1.files =
      ⟨["main.c", "/d/h"], "/d/h", ["#endif\n"]⟩ ∧
    (processSource (oneHeader "#endif\n") 1 freshUnit "#include \"h\"\n#include \"h\"\n"
      "main.c").1.warnings = ["include skipped: h (conditional error: #endif without #if)"] := by
  refine ⟨?_, ?_, ?_⟩
  · decide +kernel
  · decide +kernel
  · decide +kernel

end Examples

end OpticC.Preprocessor
