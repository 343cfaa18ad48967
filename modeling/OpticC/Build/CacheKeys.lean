import OpticC.Build.ObjectCache

/-! What a cache key tells apart. The flags are hashed with nothing between them, so two lists
that are written as the same text have one key. The text of the flags of an invocation can be
cut in one way only when there is at most one that names a file or a macro, and when the text
of that one writes no other. -/

namespace OpticC.Build.Cache

section Definitions

variable {Hash : Type} (sha : String → Hash)

/-- No other source and list of flags have the same key. -/
def OwnKey (source : String) (flags : List String) : Prop :=
  ∀ source' flags', CacheKey.new sha source' flags' = CacheKey.new sha source flags →
    source' = source ∧ flags' = flags

/-- What the flags of two invocations are made of. -/
structure SameFlags (r s : Request) : Prop where
  includePaths : r.includePaths = s.includePaths
  forceIncludes : r.forceIncludes = s.forceIncludes
  defines : r.defines.entries = s.defines.entries
  optimization : r.optimization = s.optimization
  nostdinc : r.nostdinc = s.nostdinc
  returnThunkExtern : r.returnThunkExtern = s.returnThunkExtern

/-- No invocation with another source text or other flags has the same key. -/
def ToldApart (i : Input) : Prop :=
  ∀ j, buildCacheKey sha j = buildCacheKey sha i → j.text = i.text ∧ SameFlags j.request i.request

def forceChars : List Char := ['-', 'i', 'n', 'c', 'l', 'u', 'd', 'e']

/-- A define stands somewhere in the text. -/
def WritesDefine (text : List Char) : Prop :=
  ∃ front name value, text = front ++ '-' :: 'D' :: (name ++ '=' :: value)

/-- At most one include path, forced include or define, which writes no other one. -/
def Undivided : List String → List String → List (String × String) → Prop
  | [], [], [] => True
  | [path], [], [] => ¬ ['-', 'I'] <:+: path.toList ∧ ¬ forceChars <:+: path.toList ∧
      ¬ WritesDefine path.toList
  | [], [path], [] => ¬ forceChars <:+: path.toList ∧ ¬ WritesDefine path.toList
  | [], [], [(name, value)] => '=' ∉ name.toList ∧ '=' ∉ value.toList
  | _, _, _ => False

def Request.Undivided (r : Request) : Prop :=
  Cache.Undivided r.includePaths r.forceIncludes r.defines.entries

end Definitions

section Texts

/-- The text of the flags that name files and macros. -/
def namedText (includePaths forceIncludes : List String) (defines : List (String × String)) :
    List Char :=
  includePaths.flatMap (fun path => '-' :: 'I' :: path.toList) ++
    (forceIncludes.flatMap (fun path => forceChars ++ path.toList) ++
      defines.flatMap fun entry => '-' :: 'D' :: (entry.1.toList ++ '=' :: entry.2.toList))

theorem toList_namedFlags (r : Request) : (String.join r.namedFlags).toList =
    namedText r.includePaths r.forceIncludes r.defines.entries := by
  have hI : "-I".toList = ['-', 'I'] := by decide
  have hD : "-D".toList = ['-', 'D'] := by decide
  have heq : "=".toList = ['='] := by decide
  have hinclude : "-include".toList = forceChars := by decide
  simp only [String.toList_join, Request.namedFlags, List.flatMap_append, List.flatMap_map,
    String.toList_append, hI, hD, heq, hinclude, namedText, List.append_assoc, List.cons_append,
    List.nil_append]

variable {includePaths forceIncludes : List String} {defines : List (String × String)}
  {path : String} {entry : String × String}

theorem namedText_nil : namedText [] [] [] = [] := rfl

theorem namedText_include : namedText (path :: includePaths) forceIncludes defines =
    '-' :: 'I' :: (path.toList ++ namedText includePaths forceIncludes defines) := by
  simp [namedText]

theorem namedText_force : namedText [] (path :: forceIncludes) defines =
    forceChars ++ (path.toList ++ namedText [] forceIncludes defines) := by
  simp [namedText]

theorem namedText_define : namedText [] [] (entry :: defines) =
    '-' :: 'D' :: (entry.1.toList ++ '=' :: (entry.2.toList ++ namedText [] [] defines)) := by
  simp [namedText]

/-- What the text behind `front` writes. -/
theorem namedText_writes (front : List Char) (includePaths forceIncludes : List String)
    (defines : List (String × String)) :
    (includePaths = [] ∧ forceIncludes = [] ∧ defines = []) ∨
      (includePaths ≠ [] ∧
        ['-', 'I'] <:+: front ++ namedText includePaths forceIncludes defines) ∨
      forceChars <:+: front ++ namedText includePaths forceIncludes defines ∨
      WritesDefine (front ++ namedText includePaths forceIncludes defines) := by
  cases includePaths with
  | cons path includePaths =>
    exact .inr (.inl ⟨List.cons_ne_nil _ _, front,
      path.toList ++ namedText includePaths forceIncludes defines, by rw [namedText_include]; simp⟩)
  | nil =>
    cases forceIncludes with
    | cons path forceIncludes =>
      exact .inr (.inr (.inl ⟨front,
        path.toList ++ namedText [] forceIncludes defines, by rw [namedText_force]; simp⟩))
    | nil =>
      cases defines with
      | cons entry defines =>
        exact .inr (.inr (.inr ⟨front, _, _, by rw [namedText_define]⟩))
      | nil => exact .inl ⟨rfl, rfl, rfl⟩

end Texts

section Unique

variable {includePaths forceIncludes : List String} {defines : List (String × String)}
  {path name value : String}

theorem unique_nil (h : namedText includePaths forceIncludes defines = []) :
    includePaths = [] ∧ forceIncludes = [] ∧ defines = [] := by
  cases includePaths with
  | cons => rw [namedText_include] at h; cases h
  | nil =>
    cases forceIncludes with
    | cons => rw [namedText_force] at h; cases h
    | nil =>
      cases defines with
      | cons => rw [namedText_define] at h; cases h
      | nil => exact ⟨rfl, rfl, rfl⟩

theorem unique_include (hinclude : ¬ ['-', 'I'] <:+: path.toList)
    (hforce : ¬ forceChars <:+: path.toList) (hdefine : ¬ WritesDefine path.toList)
    (h : namedText includePaths forceIncludes defines = namedText [path] [] []) :
    includePaths = [path] ∧ forceIncludes = [] ∧ defines = [] := by
  rw [namedText_include, namedText_nil, List.append_nil] at h
  cases includePaths with
  | cons other includePaths =>
    rw [namedText_include, List.cons_inj_right, List.cons_inj_right] at h
    rcases namedText_writes other.toList includePaths forceIncludes defines with
      ⟨rfl, rfl, rfl⟩ | hwrites
    · rw [namedText_nil, List.append_nil] at h
      exact ⟨by rw [String.toList_inj.1 h], rfl, rfl⟩
    · rw [h] at hwrites
      exact (hwrites.elim (fun hw => hinclude hw.2) fun hw => hw.elim hforce hdefine).elim
  | nil =>
    cases forceIncludes with
    | cons => rw [namedText_force] at h; cases h
    | nil =>
      cases defines with
      | cons => rw [namedText_define] at h; cases h
      | nil => cases h

theorem unique_force (hforce : ¬ forceChars <:+: path.toList) (hdefine : ¬ WritesDefine path.toList)
    (h : namedText includePaths forceIncludes defines = namedText [] [path] []) :
    includePaths = [] ∧ forceIncludes = [path] ∧ defines = [] := by
  rw [namedText_force, namedText_nil, List.append_nil] at h
  cases includePaths with
  | cons => rw [namedText_include] at h; cases h
  | nil =>
    cases forceIncludes with
    | cons other forceIncludes =>
      rw [namedText_force, List.append_cancel_left_eq] at h
      rcases namedText_writes other.toList [] forceIncludes defines with
        ⟨-, rfl, rfl⟩ | hwrites
      · rw [namedText_nil, List.append_nil] at h
        exact ⟨rfl, by rw [String.toList_inj.1 h], rfl⟩
      · rw [h] at hwrites
        exact (hwrites.elim (fun hw => hw.1 rfl) fun hw => hw.elim hforce hdefine).elim
    | nil =>
      cases defines with
      | cons => rw [namedText_define] at h; cases h
      | nil => cases h

/-- There is one `=` only, so what stands behind it is the value. -/
theorem unique_define (hname : '=' ∉ name.toList) (hvalue : '=' ∉ value.toList)
    (h : namedText includePaths forceIncludes defines = namedText [] [] [(name, value)]) :
    includePaths = [] ∧ forceIncludes = [] ∧ defines = [(name, value)] := by
  rw [namedText_define, namedText_nil, List.append_nil] at h
  cases includePaths with
  | cons => rw [namedText_include] at h; cases h
  | nil =>
    cases forceIncludes with
    | cons => rw [namedText_force] at h; cases h
    | nil =>
      cases defines with
      | nil => cases h
      | cons entry defines =>
        rw [namedText_define, List.cons_inj_right, List.cons_inj_right] at h
        obtain ⟨hfirst, -, hsecond⟩ := (List.append_cons_inj_of_notMem hname hvalue).1 h.symm
        cases defines with
        | cons next defines =>
          rw [hsecond, namedText_define] at hvalue
          simp at hvalue
        | nil =>
          rw [namedText_nil, List.append_nil] at hsecond
          rw [String.toList_inj.1 hfirst, String.toList_inj.1 hsecond]
          exact ⟨rfl, rfl, rfl⟩

theorem unique_of_undivided {I F I' F' : List String} {D D' : List (String × String)}
    (h : Undivided I F D) (htext : namedText I' F' D' = namedText I F D) :
    I' = I ∧ F' = F ∧ D' = D := by
  unfold Undivided at h
  split at h
  · exact unique_nil htext
  · exact unique_include h.1 h.2.1 h.2.2 htext
  · exact unique_force h.1 h.2 htext
  · exact unique_define h.1 h.2 htext
  · exact h.elim

end Unique

section Divided

/-! Two flags are written as one, or one as two. -/

/-- Another invocation of the same text. -/
def Ambiguous (I F : List String) (D : List (String × String)) : Prop :=
  ∃ I' F' D', (D'.Pairwise fun a b => a.1 < b.1) ∧ namedText I' F' D' = namedText I F D ∧
    ¬ (I' = I ∧ F' = F ∧ D' = D)

/-- What a path is called that takes in the text behind it. -/
def joined (path : String) (text : List Char) : String := String.ofList (path.toList ++ text)

@[simp] theorem toList_joined (path : String) (text : List Char) :
    (joined path text).toList = path.toList ++ text := String.toList_ofList

variable {I F : List String} {D : List (String × String)} {path next : String}
  {entry : String × String}

theorem ambiguous_include_include (hD : D.Pairwise fun a b => a.1 < b.1) :
    Ambiguous (path :: next :: I) F D :=
  ⟨joined path ('-' :: 'I' :: next.toList) :: I, F, D, hD, by simp [namedText],
    fun h => by simpa using congrArg List.length h.1⟩

theorem ambiguous_include_force (hD : D.Pairwise fun a b => a.1 < b.1) :
    Ambiguous [path] (next :: F) D :=
  ⟨[joined path (forceChars ++ next.toList)], F, D, hD, by simp [namedText],
    fun h => by simpa using congrArg List.length h.2.1⟩

theorem ambiguous_include_define (hD : (entry :: D).Pairwise fun a b => a.1 < b.1) :
    Ambiguous [path] [] (entry :: D) :=
  ⟨[joined path ('-' :: 'D' :: (entry.1.toList ++ '=' :: entry.2.toList))], [], D, hD.of_cons,
    by simp [namedText], fun h => by simpa using congrArg List.length h.2.2⟩

theorem ambiguous_force_force (hD : D.Pairwise fun a b => a.1 < b.1) :
    Ambiguous [] (path :: next :: F) D :=
  ⟨[], joined path (forceChars ++ next.toList) :: F, D, hD, by simp [namedText],
    fun h => by simpa using congrArg List.length h.2.1⟩

theorem ambiguous_force_define (hD : (entry :: D).Pairwise fun a b => a.1 < b.1) :
    Ambiguous [] [path] (entry :: D) :=
  ⟨[], [joined path ('-' :: 'D' :: (entry.1.toList ++ '=' :: entry.2.toList))], D, hD.of_cons,
    by simp [namedText], fun h => by simpa using congrArg List.length h.2.2⟩

theorem ambiguous_define_define {second : String × String}
    (hD : (entry :: second :: D).Pairwise fun a b => a.1 < b.1) :
    Ambiguous [] [] (entry :: second :: D) := by
  refine ⟨[], [], (entry.1, joined entry.2 ('-' :: 'D' :: (second.1.toList ++ '=' ::
    second.2.toList))) :: D, ?_, by simp [namedText], fun h => by
      simpa using congrArg List.length h.2.2⟩
  rw [List.pairwise_cons, List.pairwise_cons] at hD
  exact List.pairwise_cons.2 ⟨fun e he => hD.1 e (List.mem_cons_of_mem _ he), hD.2.2⟩

theorem ambiguous_of_writes_include (h : ['-', 'I'] <:+: path.toList) : Ambiguous [path] [] [] := by
  obtain ⟨front, rest, hpath⟩ := h
  refine ⟨[String.ofList front, String.ofList rest], [], [], .nil, ?_, fun h => ?_⟩
  · simp [namedText, ← hpath]
  · simpa using congrArg List.length h.1

theorem ambiguous_of_writes_force (h : forceChars <:+: path.toList) :
    Ambiguous [path] [] [] ∧ Ambiguous [] [path] [] := by
  obtain ⟨front, rest, hpath⟩ := h
  constructor
  · refine ⟨[String.ofList front], [String.ofList rest], [], .nil, ?_, fun h => ?_⟩
    · simp [namedText, ← hpath]
    · simpa using congrArg List.length h.2.1
  · refine ⟨[], [String.ofList front, String.ofList rest], [], .nil, ?_, fun h => ?_⟩
    · simp [namedText, ← hpath]
    · simpa using congrArg List.length h.2.1

theorem ambiguous_of_writesDefine (h : WritesDefine path.toList) :
    Ambiguous [path] [] [] ∧ Ambiguous [] [path] [] := by
  obtain ⟨front, name, value, hpath⟩ := h
  constructor
  · refine ⟨[String.ofList front], [], [(String.ofList name, String.ofList value)],
      List.pairwise_singleton _ _, ?_, fun h => ?_⟩
    · simp [namedText, hpath]
    · simpa using congrArg List.length h.2.2
  · refine ⟨[], [String.ofList front], [(String.ofList name, String.ofList value)],
      List.pairwise_singleton _ _, ?_, fun h => ?_⟩
    · simp [namedText, hpath]
    · simpa using congrArg List.length h.2.2

/-- With two `=` either can end the name. -/
theorem ambiguous_define {name value : String} (h : '=' ∈ name.toList ∨ '=' ∈ value.toList) :
    Ambiguous [] [] [(name, value)] := by
  rcases h with h | h
  · obtain ⟨front, rest, hname⟩ := List.mem_iff_append.1 h
    refine ⟨[], [], [(String.ofList front, joined (String.ofList rest) ('=' :: value.toList))],
      List.pairwise_singleton _ _, by simp [namedText, hname], fun h => ?_⟩
    have hfront := congrArg String.toList (congrArg Prod.fst (List.cons.inj h.2.2).1)
    rw [hname, String.toList_ofList] at hfront
    simpa using congrArg List.length hfront
  · obtain ⟨front, rest, hvalue⟩ := List.mem_iff_append.1 h
    refine ⟨[], [], [(joined name ('=' :: front), String.ofList rest)],
      List.pairwise_singleton _ _, by simp [namedText, hvalue], fun h => ?_⟩
    have hrest := congrArg String.toList (congrArg Prod.fst (List.cons.inj h.2.2).1)
    rw [toList_joined] at hrest
    simpa using congrArg List.length hrest

theorem ambiguous_of_not_undivided (hD : D.Pairwise fun a b => a.1 < b.1)
    (h : ¬ Undivided I F D) : Ambiguous I F D := by
  match I, F, D with
  | [], [], [] => exact absurd trivial h
  | path :: next :: I, F, D => exact ambiguous_include_include hD
  | [path], next :: F, D => exact ambiguous_include_force hD
  | [path], [], entry :: D => exact ambiguous_include_define hD
  | [path], [], [] =>
    rw [Undivided, not_and_or, not_and_or, not_not, not_not, not_not] at h
    rcases h with h | h | h
    · exact ambiguous_of_writes_include h
    · exact (ambiguous_of_writes_force h).1
    · exact (ambiguous_of_writesDefine h).1
  | [], path :: next :: F, D => exact ambiguous_force_force hD
  | [], [path], entry :: D => exact ambiguous_force_define hD
  | [], [path], [] =>
    rw [Undivided, not_and_or, not_not, not_not] at h
    rcases h with h | h
    · exact (ambiguous_of_writes_force h).2
    · exact (ambiguous_of_writesDefine h).2
  | [], [], entry :: second :: D => exact ambiguous_define_define hD
  | [], [], [(name, value)] =>
    rw [Undivided, not_and_or, not_not, not_not] at h
    exact ambiguous_define h

end Divided

section Main

variable {Hash : Type} (sha : String → Hash)

/-- Nobody has a key of their own: an empty flag adds nothing to the text. -/
theorem not_ownKey (source : String) (flags : List String) : ¬ OwnKey sha source flags := by
  intro h
  have hkey : CacheKey.new sha source (flags ++ [""]) = CacheKey.new sha source flags := by
    rw [CacheKey.new, CacheKey.new, String.join_append]
    simp
  simpa using congrArg List.length (h source (flags ++ [""]) hkey).2

theorem toldApart_iff (hsha : Function.Injective sha) (i : Input) :
    ToldApart sha i ↔ i.request.Undivided := by
  constructor
  · intro h
    by_contra hdivided
    obtain ⟨I, F, D, hD, htext, hne⟩ :=
      ambiguous_of_not_undivided i.request.defines.sorted hdivided
    have hkey := (buildCacheKey_eq_iff sha hsha
      ⟨i.text, ⟨i.request.source, I, F, ⟨D, hD⟩, i.request.optimization, i.request.nostdinc,
        i.request.returnThunkExtern⟩, i.included⟩ i).2
      ⟨rfl, String.toList_inj.1 (by rw [toList_namedFlags, toList_namedFlags]; exact htext), rfl,
        rfl, rfl⟩
    obtain ⟨-, hsame⟩ := h _ hkey
    exact hne ⟨hsame.includePaths, hsame.forceIncludes, hsame.defines⟩
  · intro h j hkey
    obtain ⟨htext, hnamed, hlevel, hnostdinc, hthunk⟩ := (buildCacheKey_eq_iff sha hsha j i).1 hkey
    have hflags := String.toList_inj.2 hnamed
    rw [toList_namedFlags, toList_namedFlags] at hflags
    obtain ⟨hI, hF, hD⟩ := unique_of_undivided h hflags
    exact ⟨htext, hI, hF, hD, hlevel, hnostdinc, hthunk⟩

/-- `CacheKey::new` never tells all lists of flags apart, `build_cache_key` the invocations
with at most one flag that names something. -/
theorem cacheKeys_apart_iff (hsha : Function.Injective sha) :
    (∀ source flags, ¬ OwnKey sha source flags) ∧
      ∀ i : Input, ToldApart sha i ↔ i.request.Undivided :=
  ⟨not_ownKey sha, toldApart_iff sha hsha⟩

/-- `-I include` alone -/
def oneInclude : Input := ⟨"int x;", ⟨"a.c", ["include"], [], ⟨[], noEntries_sorted⟩, 2, false, false⟩, []⟩

theorem toldApart_oneInclude : ToldApart id oneInclude := by
  have hdash : '-' ∉ "include".toList := by decide
  refine ((cacheKeys_apart_iff id Function.injective_id).2 oneInclude).2
    ⟨fun h => hdash (h.subset (by decide)), fun h => hdash (h.subset (by decide)), ?_⟩
  rintro ⟨front, name, value, htext⟩
  rw [htext] at hdash
  simp at hdash

/-- `-I a -I b`, and one directory of the name `a-Ib`. -/
theorem not_toldApart_twoIncludes :
    Function.Injective (id : String → String) ∧
    CacheKey.new id "int x;" ["-Ia", "-Ib"] = CacheKey.new id "int x;" ["-Ia-Ib"] ∧
    ¬ ToldApart id ⟨"int x;", ⟨"a.c", ["a", "b"], [], ⟨[], .nil⟩, 2, false, false⟩, []⟩ := by
  refine ⟨Function.injective_id, by decide, fun h => ?_⟩
  have hsame := h ⟨"int x;", ⟨"a.c", ["a-Ib"], [], ⟨[], .nil⟩, 2, false, false⟩, []⟩
    ((buildCacheKey_eq_iff id Function.injective_id _ _).2 ⟨rfl, by decide, rfl, rfl, rfl⟩)
  exact absurd hsame.2.includePaths (by decide)

end Main

end OpticC.Build.Cache
