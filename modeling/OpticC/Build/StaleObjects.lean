import OpticC.Build.ObjectCache

/-! Runs of edits and builds over one cache. The key tells two builds apart by their texts and
switches; where the build that stored an object has its path, its named files and macros and
its headers in common with the one that restores it, the object is that of a fresh
compilation. -/

namespace OpticC.Build.Cache

section Build

variable {Object Hash : Type} [DecidableEq Hash] (C : Compiler Object) (sha : String → Hash)

theorem compileSourceToObject_eq {s : State Object Hash} {r : Request} {i : Input}
    (hi : inputOf C s.files r = some i) :
    compileSourceToObject C sha s r =
      ((Memo.lookup (buildCacheKey sha) C.compile s.cache i).1,
        { s with cache := (Memo.lookup (buildCacheKey sha) C.compile s.cache i).2 }) := by
  simp only [compileSourceToObject, hi, Memo.lookup, restoreCachedObject, storeCachedObject]
  cases s.cache (buildCacheKey sha i) with
  | some object => rfl
  | none => cases C.compile i <;> rfl

/-- The inputs of the builds of a run whose source can be read. -/
def inputs (files : FileSystem) : List Action → List Input
  | [] => []
  | .edit path text :: rest => inputs (Function.update files path text) rest
  | .build r :: rest => (inputOf C files r).toList ++ inputs files rest

theorem act_cache (s : State Object Hash) (a : Action) (rest : List Action) :
    Memo.fill (buildCacheKey sha) C.compile s.cache (inputs C s.files (a :: rest)) =
      Memo.fill (buildCacheKey sha) C.compile (act C sha s a).cache
        (inputs C (act C sha s a).files rest) := by
  cases a with
  | edit path text => rfl
  | build r =>
    cases hi : inputOf C s.files r with
    | none => simp only [inputs, act, compileSourceToObject, hi, Option.toList, List.nil_append]
    | some i =>
      simp only [inputs, act, compileSourceToObject_eq C sha hi, hi, Option.toList,
        List.singleton_append, Memo.fill, List.foldl_cons]

theorem run_cache (s : State Object Hash) (actions : List Action) :
    (actions.foldl (act C sha) s).cache =
      Memo.fill (buildCacheKey sha) C.compile s.cache (inputs C s.files actions) := by
  induction actions generalizing s with
  | nil => rfl
  | cons a rest ih => rw [List.foldl_cons, ih, act_cache C sha s a rest]

/-- The builds that share the source path, the flags that name files and macros, and what
their included files hold. -/
structure Alike (i j : Input) : Prop where
  source : i.request.source = j.request.source
  includePaths : i.request.includePaths = j.request.includePaths
  forceIncludes : i.request.forceIncludes = j.request.forceIncludes
  defines : i.request.defines.entries = j.request.defines.entries
  included : i.included = j.included

omit [DecidableEq Hash] in
theorem Alike.eq_of_key {i j : Input} (h : Alike i j) (hsha : Function.Injective sha)
    (hkey : buildCacheKey sha i = buildCacheKey sha j) : i = j := by
  obtain ⟨htext, -, hlevel, hnostdinc, hthunk⟩ := (buildCacheKey_eq_iff sha hsha i j).1 hkey
  obtain ⟨hsource, hpaths, hforce, hdefines, hincluded⟩ := h
  obtain ⟨text, ⟨source, paths, force, ⟨entries, _⟩, level, nostdinc, thunk⟩, included⟩ := i
  obtain ⟨text', ⟨source', paths', force', ⟨entries', _⟩, level', nostdinc', thunk'⟩, included'⟩ := j
  simp only at *
  subst_vars
  rfl

/-- A build that finds an object under its key is alike the build that stored it. -/
def StoredAlike (files : FileSystem) (earlier : List Action) (r : Request) : Prop :=
  ∀ i stored, inputOf C (stateAfter C sha files earlier).files r = some i →
    Memo.origin (buildCacheKey sha) C.compile (inputs C files earlier) (buildCacheKey sha i) =
      some stored → Alike stored i

theorem freshCompilation_eq {files : FileSystem} {r : Request} {i : Input}
    (hi : inputOf C files r = some i) : freshCompilation C sha files r = C.compile i := by
  rw [freshCompilation, compileSourceToObject_eq C sha hi]
  exact Memo.lookup_of_none rfl

theorem cacheSound_of_storedAlike (hsha : Function.Injective sha) (files : FileSystem)
    (actions : List Action)
    (halike : ∀ earlier r later, actions = earlier ++ .build r :: later →
      StoredAlike C sha files earlier r) : CacheSound C sha files actions := by
  intro earlier r later object hsplit hrestored
  obtain ⟨i, hi, hobject⟩ := Option.bind_eq_some_iff.1 hrestored
  rw [restoreCachedObject, stateAfter, run_cache] at hobject
  obtain ⟨stored, horigin, hkey, hcompiled⟩ := Memo.origin_of_fill hobject
  have hsame : stored = i :=
    (halike earlier r later hsplit i stored hi horigin).eq_of_key sha hsha hkey
  rw [freshCompilation_eq C sha hi, ← hsame]
  exact hcompiled

end Build
/-- A compiler that puts the text of the source behind that of the header `h.h`. -/
def pasting : Compiler String where
  included files _ := ((files "h.h").map fun text => ("h.h", text)).toList
  compile i := .ok (String.join (i.included.map Prod.snd) ++ i.text)
  readError _ := "No such file or directory"

def plainRequest (source : String) : Request :=
  ⟨source, [], [], ⟨[], noEntries_sorted⟩, 0, false, false⟩

def exampleFiles : FileSystem := fun path =>
  if path = "a.c" then some "int a = N;" else if path = "h.h" then some "#define N 1\n" else none

def exampleInput : Input := ⟨"int a = N;", plainRequest "a.c", [("h.h", "#define N 1\n")]⟩

theorem cacheSound_unrelatedEdit : CacheSound pasting id exampleFiles
    [.build (plainRequest "a.c"), .edit "b.c" none, .build (plainRequest "a.c")] := by
  refine cacheSound_of_storedAlike pasting id Function.injective_id exampleFiles _ ?_
  intro earlier r later hsplit i stored hi horigin
  rcases earlier with _ | ⟨a, _ | ⟨b, _ | ⟨c, rest⟩⟩⟩
  · cases horigin
  · cases hsplit
  · cases hsplit
    have hi' : exampleInput = i := Option.some.inj hi
    subst hi'
    rw [show Memo.origin (buildCacheKey id) pasting.compile (inputs pasting exampleFiles
      [.build (plainRequest "a.c"), .edit "b.c" none]) (buildCacheKey id exampleInput) =
        some exampleInput by
      rw [Memo.origin, show inputs pasting exampleFiles _ = [exampleInput] from rfl]
      simp [pasting, Except.toOption]] at horigin
    cases horigin
    exact ⟨rfl, rfl, rfl, rfl, rfl⟩
  · simp at hsplit

/-- The header changes between two builds, and the second one still restores the object. -/
theorem not_cacheSound_headerEdit : Function.Injective (id : String → String) ∧
    ¬ CacheSound pasting id exampleFiles [.build (plainRequest "a.c"),
      .edit "h.h" (some "#define N 2\n"), .build (plainRequest "a.c")] := by
  refine ⟨Function.injective_id, fun hsound => ?_⟩
  have hstale := hsound [.build (plainRequest "a.c"), .edit "h.h" (some "#define N 2\n")]
    (plainRequest "a.c") [] "#define N 1\nint a = N;" rfl (by decide)
  revert hstale
  decide

end OpticC.Build.Cache
