import OpticC.Build.CompileAll
import Mathlib.Data.List.FinRange

/-! A build keeps its sources apart when their file stems differ: whatever the order of the
tasks, each object file then holds the object of its source. -/

namespace OpticC.Build.Parallel

open Interleaving

variable {Key : Type} {T : Toolchain Key}

section Names

theorem fileStem_append {stem : List Char} {dot c : Char} (hc : c ≠ dot) (hne : stem ≠ []) :
    fileStem dot (stem ++ [dot, c]) = stem := by
  have hrev : (stem ++ [dot, c]).reverse = c :: dot :: stem.reverse := by simp
  have hbefore : (((stem ++ [dot, c]).reverse.dropWhile (· ≠ dot)).tail).reverse = stem := by
    rw [hrev, List.dropWhile_cons_of_pos (by simpa using hc),
      List.dropWhile_cons_of_neg (by simp), List.tail_cons, List.reverse_reverse]
  simp only [fileStem, hbefore, if_neg hne]

theorem fileStem_ne_nil {α : Type} [DecidableEq α] {dot : α} {name : List α} (h : name ≠ []) :
    fileStem dot name ≠ [] := by
  simp only [fileStem]
  split_ifs with hbefore
  · exact h
  · exact hbefore

theorem toByteArray_of_fromUTF8? {bytes : List UInt8} {s : String}
    (h : String.fromUTF8? ⟨bytes.toArray⟩ = some s) : s.toByteArray.data.toList = bytes := by
  unfold String.fromUTF8? at h
  split at h
  · rw [← Option.some.inj h]
    rfl
  · cases h

theorem stemOf_ne_nil (source : Path) : stemOf source ≠ [] := by
  unfold stemOf
  cases hname : fileName source with
  | none => decide
  | some name =>
    have hbytes : fileStem 46 name.val ≠ [] := fileStem_ne_nil name.property
    simp only [Option.map_some, Option.bind_some]
    cases hutf : String.fromUTF8? ⟨(fileStem 46 name.val).toArray⟩ with
    | none => decide
    | some s =>
      intro hnil
      have hs := toByteArray_of_fromUTF8? hutf
      rw [Option.map_some, Option.getD_some, String.toList_eq_nil_iff] at hnil
      rw [hnil] at hs
      exact hbytes hs.symm

theorem asmPath_eq (source : Path) : asmPath source = stemOf source ++ ".s".toList := by
  have hstem : fileStem '.' (stemOf source ++ ['.', 'o']) = stemOf source :=
    fileStem_append (by decide) (stemOf_ne_nil source)
  exact congrArg (· ++ ".s".toList) hstem

theorem mem_intermediates {source : Path} {path : TempFile} :
    path ∈ intermediates source ↔ ∃ ext : List Char,
      (ext = ".ll".toList ∨ ext = ".o".toList ∨ ext = ".s".toList) ∧
        path = stemOf source ++ ext := by
  simp only [intermediates, asmPath_eq, llPath, objPath, List.mem_cons, List.not_mem_nil, or_false]
  constructor
  · rintro (rfl | rfl | rfl)
    · exact ⟨_, .inl rfl, rfl⟩
    · exact ⟨_, .inr (.inl rfl), rfl⟩
    · exact ⟨_, .inr (.inr rfl), rfl⟩
  · rintro ⟨ext, rfl | rfl | rfl, rfl⟩
    · exact .inl rfl
    · exact .inr (.inl rfl)
    · exact .inr (.inr rfl)

/-- The names of two sources meet just when the stems are the same. -/
theorem disjoint_intermediates {s t : Path} :
    (∀ path ∈ intermediates s, path ∉ intermediates t) ↔ stemOf s ≠ stemOf t := by
  constructor
  · intro h heq
    have hll : llPath s ∈ intermediates s := List.mem_cons_self
    apply h _ hll
    rw [llPath, heq]
    exact List.mem_cons_self
  · intro hne path hs ht
    rw [mem_intermediates] at hs ht
    obtain ⟨ext, hext, rfl⟩ := hs
    obtain ⟨ext', hext', heq⟩ := ht
    have hlast := congrArg List.getLast? heq
    rcases hext with rfl | rfl | rfl <;> rcases hext' with rfl | rfl | rfl <;>
      first
      | exact hne (List.append_cancel_right heq)
      | simp at hlast

end Names

section Tasks

/-- The object of the source is in its object file. -/
def Produced (T : Toolchain Key) (source : Path) (d : Disk Key) : Prop :=
  ∃ object, T.objectOf source = some object ∧ d.files (objPath source) = some object

/-- The task compiles under a key that was not in the cache at the start of the build. -/
structure Compiles (T : Toolchain Key) (cache : Key → Option Content) (source : Path) (key : Key)
    (P : Prop) : Prop where
  keyed : T.key source = some key
  uncached : cache key = none
  known : P

/-- The assertion of the task of a source; `cache` is the cache at the start of the build. -/
def Asserts (T : Toolchain Key) (cache : Key → Option Content) (source : Path) (d : Disk Key) :
    Point Key → Prop
  | .start => ∀ key, T.key source = some key → d.cache key = cache key
  | .restoring key => T.key source = some key ∧ (cache key).isSome ∧ d.cache key = cache key
  | .compiling key => Compiles T cache source key True
  | .writingIr key ir => Compiles T cache source key (T.ir source = some ir)
  | .startingLlc key => Compiles T cache source key
      (∃ ir, T.ir source = some ir ∧ d.files (llPath source) = some ir)
  | .finishingLlc key output => Compiles T cache source key
      (output = (T.ir source).bind (if T.returnThunkExtern then T.llcAsm else T.llcObj))
  | .readingAsm key => Compiles T cache source key (T.returnThunkExtern = true ∧
      ∃ asm, (T.ir source).bind T.llcAsm = some asm ∧ d.files (asmPath source) = some asm)
  | .rewriting key asm => Compiles T cache source key (T.returnThunkExtern = true ∧
      ((T.ir source).bind T.llcAsm).map T.rewrite = some asm)
  | .startingCc key => Compiles T cache source key (T.returnThunkExtern = true ∧
      ∃ asm, ((T.ir source).bind T.llcAsm).map T.rewrite = some asm ∧
        d.files (asmPath source) = some asm)
  | .finishingCc key output => Compiles T cache source key (output = T.objectOf source)
  | .removingAsm key success => Compiles T cache source key (success = true → Produced T source d)
  | .removingIr key success => Compiles T cache source key (success = true → Produced T source d)
  | .openingCached key => Compiles T cache source key (Produced T source d)
  | .storing key => Compiles T cache source key (Produced T source d)
  | .done => Produced T source d
  | .failed => True

/-- The disk is the same where the task of a source looks. -/
structure Agrees (T : Toolchain Key) (source : Path) (d d' : Disk Key) : Prop where
  files : ∀ path ∈ intermediates source, d'.files path = d.files path
  cache : ∀ key, T.key source = some key → d'.cache key = d.cache key

variable {cache : Key → Option Content} {source : Path} {d d' : Disk Key}

theorem Agrees.produced (h : Agrees T source d d') (hp : Produced T source d) :
    Produced T source d' := by
  obtain ⟨object, hobject, hfile⟩ := hp
  refine ⟨object, hobject, (h.files _ ?_).trans hfile⟩
  exact List.mem_cons_of_mem _ List.mem_cons_self

/-- An assertion depends on what its task looks at only. -/
theorem Asserts.of_agrees {point : Point Key} (h : Asserts T cache source d point)
    (hagrees : Agrees T source d d') : Asserts T cache source d' point := by
  have hll : d'.files (llPath source) = d.files (llPath source) :=
    hagrees.files _ List.mem_cons_self
  have hasm : d'.files (asmPath source) = d.files (asmPath source) :=
    hagrees.files _ (List.mem_cons_of_mem _ (List.mem_cons_of_mem _ List.mem_cons_self))
  cases point with
  | start => exact fun key hkey => (hagrees.cache key hkey).trans (h key hkey)
  | restoring key => exact ⟨h.1, h.2.1, (hagrees.cache key h.1).trans h.2.2⟩
  | startingLlc key =>
    obtain ⟨hkey, hcache, ir, hir, hfile⟩ := h
    exact ⟨hkey, hcache, ir, hir, hll.trans hfile⟩
  | readingAsm key =>
    obtain ⟨hkey, hcache, hthunk, asm, hllc, hfile⟩ := h
    exact ⟨hkey, hcache, hthunk, asm, hllc, hasm.trans hfile⟩
  | startingCc key =>
    obtain ⟨hkey, hcache, hthunk, asm, hllc, hfile⟩ := h
    exact ⟨hkey, hcache, hthunk, asm, hllc, hasm.trans hfile⟩
  | removingAsm key success => exact ⟨h.keyed, h.uncached, fun hs => hagrees.produced (h.known hs)⟩
  | removingIr key success => exact ⟨h.keyed, h.uncached, fun hs => hagrees.produced (h.known hs)⟩
  | openingCached key => exact ⟨h.keyed, h.uncached, hagrees.produced h.known⟩
  | storing key => exact ⟨h.keyed, h.uncached, hagrees.produced h.known⟩
  | done => exact hagrees.produced h
  | compiling key => exact h
  | writingIr key ir => exact h
  | finishingLlc key output => exact h
  | rewriting key asm => exact h
  | finishingCc key output => exact h
  | failed => exact h

variable [DecidableEq Key]

/-- The turns of a task keep its assertion, when the objects cached at the start are right. -/
theorem Asserts.step (hsound : ∀ key object, T.key source = some key → cache key = some object →
    T.objectOf source = some object) {point point' : Point Key}
    (h : Asserts T cache source d point) (hstep : step T source d point = some (point', d')) :
    Asserts T cache source d' point' := by
  have hwrite : ∀ path content, (d.write path content).files path = some content :=
    fun path content => Function.update_self ..
  have hobjNe : objPath source ≠ llPath source := fun heq =>
    absurd (List.append_cancel_left heq) (by decide)
  have hobjNe' : objPath source ≠ asmPath source := fun heq =>
    absurd (List.append_cancel_left (heq.trans (asmPath_eq source))) (by decide)
  cases point with
  | start =>
    simp only [Parallel.step] at hstep
    split at hstep
    · cases hstep
      trivial
    · rename_i key hkey
      have hsame := h key hkey
      cases hstep
      cases hcache : cache key with
      | none =>
        rw [hcache] at hsame
        rw [hsame]
        exact ⟨hkey, hcache, trivial⟩
      | some object =>
        rw [hcache] at hsame
        rw [hsame]
        exact ⟨hkey, by rw [hcache]; rfl, hsame.trans hcache.symm⟩
  | restoring key =>
    obtain ⟨hkey, hsome, hsame⟩ := h
    obtain ⟨object, hobject⟩ := Option.isSome_iff_exists.1 hsome
    simp only [Parallel.step, hsame, hobject] at hstep
    cases hstep
    exact ⟨object, hsound key object hkey hobject, hwrite _ _⟩
  | compiling key =>
    simp only [Parallel.step] at hstep
    split at hstep
    · cases hstep
      trivial
    · rename_i ir hir
      cases hstep
      exact ⟨h.keyed, h.uncached, hir⟩
  | writingIr key ir =>
    cases hstep
    exact ⟨h.keyed, h.uncached, ir, h.known, hwrite _ _⟩
  | startingLlc key =>
    obtain ⟨hkey, hcache, ir, hir, hfile⟩ := h
    cases hstep
    refine ⟨hkey, hcache, ?_⟩
    rw [hfile, hir]
  | finishingLlc key output =>
    obtain ⟨hkey, hcache, rfl⟩ := h
    simp only [Parallel.step] at hstep
    split at hstep
    · cases hstep
      exact ⟨hkey, hcache, fun hs => absurd hs (by decide)⟩
    · rename_i content hcontent
      split_ifs at hstep with hthunk
      · cases hstep
        rw [if_pos hthunk] at hcontent
        exact ⟨hkey, hcache, hthunk, content, hcontent, hwrite _ _⟩
      · cases hstep
        rw [if_neg hthunk] at hcontent
        refine ⟨hkey, hcache, fun _ => ⟨content, ?_, hwrite _ _⟩⟩
        simp only [Toolchain.objectOf, if_neg hthunk]
        exact hcontent
  | readingAsm key =>
    obtain ⟨hkey, hcache, hthunk, asm, hllc, hfile⟩ := h
    simp only [Parallel.step, hfile] at hstep
    cases hstep
    exact ⟨hkey, hcache, hthunk, by rw [hllc]; rfl⟩
  | rewriting key asm =>
    cases hstep
    exact ⟨h.keyed, h.uncached, h.known.1, asm, h.known.2, hwrite _ _⟩
  | startingCc key =>
    obtain ⟨hkey, hcache, hthunk, asm, hllc, hfile⟩ := h
    cases hstep
    refine ⟨hkey, hcache, ?_⟩
    obtain ⟨plain, hplain, rfl⟩ := Option.map_eq_some_iff.1 hllc
    obtain ⟨ir, hir, hasm⟩ := Option.bind_eq_some_iff.1 hplain
    simp only [hfile, Toolchain.objectOf, hthunk, hir, hasm, Option.bind_some, if_true]
  | finishingCc key output =>
    obtain ⟨hkey, hcache, rfl⟩ := h
    simp only [Parallel.step] at hstep
    split at hstep
    · cases hstep
      exact ⟨hkey, hcache, fun hs => absurd hs (by decide)⟩
    · rename_i content hcontent
      cases hstep
      exact ⟨hkey, hcache, fun _ => ⟨content, hcontent, hwrite _ _⟩⟩
  | removingAsm key success =>
    cases hstep
    refine ⟨h.keyed, h.uncached, fun hs => ?_⟩
    obtain ⟨object, hobject, hfile⟩ := h.known hs
    exact ⟨object, hobject, (Function.update_of_ne hobjNe' ..).trans hfile⟩
  | removingIr key success =>
    cases hstep
    cases success with
    | false => trivial
    | true =>
      obtain ⟨object, hobject, hfile⟩ := h.known rfl
      exact ⟨h.keyed, h.uncached, object, hobject, (Function.update_of_ne hobjNe ..).trans hfile⟩
  | openingCached key =>
    obtain ⟨hkey, hcache, object, hobject, hfile⟩ := h
    simp only [Parallel.step, hfile] at hstep
    cases hstep
    exact ⟨hkey, hcache, object, hobject, hfile⟩
  | storing key =>
    obtain ⟨hkey, hcache, object, hobject, hfile⟩ := h
    simp only [Parallel.step, hfile] at hstep
    cases hstep
    exact ⟨object, hobject, hfile⟩
  | done => cases hstep
  | failed => cases hstep

/-- What one step can do to the disk: nothing, one change of an intermediate file of the source,
or one write to the cache at the end. -/
theorem step_cases {point point' : Point Key} (hstep : step T source d point = some (point', d')) :
    d' = d ∨
    (∃ path ∈ intermediates source, ∃ content,
      d' = { d with files := Function.update d.files path content }) ∨
    ∃ key content, (point = .openingCached key ∨ point = .storing key) ∧
      d' = d.cacheWrite key content := by
  have hll : llPath source ∈ intermediates source := List.mem_cons_self
  have hobj : objPath source ∈ intermediates source := List.mem_cons_of_mem _ List.mem_cons_self
  have hasm : asmPath source ∈ intermediates source :=
    List.mem_cons_of_mem _ (List.mem_cons_of_mem _ List.mem_cons_self)
  unfold step at hstep
  cases point with
  | writingIr key ir =>
    cases hstep
    exact .inr (.inl ⟨_, hll, some ir, rfl⟩)
  | rewriting key asm =>
    cases hstep
    exact .inr (.inl ⟨_, hasm, some asm, rfl⟩)
  | removingAsm key success =>
    cases hstep
    exact .inr (.inl ⟨_, hasm, none, rfl⟩)
  | removingIr key success =>
    cases hstep
    exact .inr (.inl ⟨_, hll, none, rfl⟩)
  | compiling key =>
    simp only at hstep
    split at hstep <;> cases hstep
    · exact .inl rfl
    · exact .inr (.inl ⟨_, hll, some [], rfl⟩)
  | restoring key =>
    simp only at hstep
    split at hstep <;> cases hstep
    · exact .inl rfl
    · exact .inr (.inl ⟨_, hobj, some _, rfl⟩)
  | finishingLlc key output =>
    simp only at hstep
    split at hstep
    · cases hstep
      exact .inl rfl
    · split_ifs at hstep <;> cases hstep
      · exact .inr (.inl ⟨_, hasm, some _, rfl⟩)
      · exact .inr (.inl ⟨_, hobj, some _, rfl⟩)
  | finishingCc key output =>
    simp only at hstep
    split at hstep <;> cases hstep
    · exact .inl rfl
    · exact .inr (.inl ⟨_, hobj, some _, rfl⟩)
  | openingCached key =>
    simp only at hstep
    split at hstep <;> cases hstep
    · exact .inl rfl
    · exact .inr (.inr ⟨key, [], .inl rfl, rfl⟩)
  | storing key =>
    simp only at hstep
    split at hstep <;> cases hstep
    · exact .inl rfl
    · exact .inr (.inr ⟨key, _, .inr rfl, rfl⟩)
  | start =>
    simp only at hstep
    split at hstep <;> cases hstep <;> exact .inl rfl
  | readingAsm key =>
    simp only at hstep
    split at hstep <;> cases hstep <;> exact .inl rfl
  | startingLlc key =>
    cases hstep
    exact .inl rfl
  | startingCc key =>
    cases hstep
    exact .inl rfl
  | done => cases hstep
  | failed => cases hstep

/-- A task changes its own intermediate files only. -/
theorem step_files {point point' : Point Key} (hstep : step T source d point = some (point', d'))
    {path : TempFile} (hpath : path ∉ intermediates source) : d'.files path = d.files path := by
  obtain rfl | ⟨own, hown, content, rfl⟩ | ⟨key, content, -, rfl⟩ := step_cases hstep
  · rfl
  · apply Function.update_of_ne
    rintro rfl
    exact hpath hown
  · rfl

/-- A task writes to the cache under its own key, and only when nothing was there at the start. -/
theorem step_cache {point point' : Point Key} (h : Asserts T cache source d point)
    (hstep : step T source d point = some (point', d')) {key : Key}
    (hkey : T.key source = some key → cache key ≠ none) : d'.cache key = d.cache key := by
  obtain rfl | ⟨own, hown, content, rfl⟩ | ⟨own, content, hpoint, rfl⟩ := step_cases hstep
  · rfl
  · rfl
  · have howns : T.key source = some own ∧ cache own = none := by
      rcases hpoint with rfl | rfl
      · exact ⟨h.keyed, h.uncached⟩
      · exact ⟨h.keyed, h.uncached⟩
    apply Function.update_of_ne
    rintro rfl
    exact hkey howns.1 howns.2

end Tasks

/-- What keeps the sources of a build apart: their stems differ, no two of them would enter the
same key into the cache, and what is cached for them at the start is right. -/
structure Separate (T : Toolchain Key) (cache : Key → Option Content) (sources : List Path) :
    Prop where
  stems : (sources.map stemOf).Nodup
  keys : ∀ i j : Fin sources.length, i ≠ j → ∀ key, T.key (sources.get i) = some key →
    T.key (sources.get j) = some key → cache key ≠ none
  cached : ∀ source ∈ sources, ∀ key object, T.key source = some key →
    cache key = some object → T.objectOf source = some object

/-- No two sources share an intermediate path. -/
def PathsApart (sources : List Path) : Prop :=
  ∀ i j : Fin sources.length, i ≠ j →
    ∀ path ∈ intermediates (sources.get i), path ∉ intermediates (sources.get j)

theorem pathsApart_iff (sources : List Path) : PathsApart sources ↔ (sources.map stemOf).Nodup := by
  rw [List.Nodup, List.pairwise_map, List.pairwise_iff_getElem]
  constructor
  · intro h i j hi hj hij
    apply disjoint_intermediates.1
    exact h ⟨i, hi⟩ ⟨j, hj⟩ (Fin.ne_of_lt hij)
  · intro h i j hij
    apply disjoint_intermediates.2
    rcases Fin.lt_or_lt_of_ne hij with hlt | hlt
    · exact h i j i.isLt j.isLt hlt
    · exact (h j i j.isLt i.isLt hlt).symm

section Build

variable [DecidableEq Key] {sources : List Path} {d : Disk Key}

theorem compileAll_asserts (h : Separate T d.cache sources) (schedule : List (Fin sources.length))
    (i : Fin sources.length) :
    Asserts T d.cache (sources.get i) (compileAll T sources d schedule).shared
      ((compileAll T sources d schedule).locals i) := by
  have hapart := (pathsApart_iff sources).2 h.stems
  refine run_keeps (I := fun i point disk => Asserts T d.cache (sources.get i) disk point) ?_ ?_ ?_
    schedule i
  · intro i point disk point' disk' hi hstep
    exact hi.step (h.cached _ (List.get_mem sources i)) hstep
  · intro i j point point₂ disk point' disk' hij hi hj hstep
    refine hi.of_agrees ⟨fun path hpath => ?_, fun key hkey => ?_⟩
    · exact step_files hstep (hapart i j hij path hpath)
    · exact step_cache hj hstep (h.keys i j hij key hkey)
  · exact fun i key _ => rfl

theorem forall₂_of_mapM {α β : Type} {f : α → Option β} {xs : List α} {ys : List β}
    (h : xs.mapM f = some ys) : List.Forall₂ (fun y x => f x = some y) ys xs := by
  induction xs generalizing ys with
  | nil =>
    rw [List.mapM_nil] at h
    obtain rfl := Option.some.inj h
    exact .nil
  | cons x xs ih =>
    rw [List.mapM_cons] at h
    obtain ⟨y, hy, h⟩ := Option.bind_eq_some_iff.1 h
    obtain ⟨ys', hys, h⟩ := Option.bind_eq_some_iff.1 h
    obtain rfl := Option.some.inj h
    exact .cons hy (ih hys)

/-- A task that is done has produced its object. -/
theorem produced_of_done (h : Separate T d.cache sources) (schedule : List (Fin sources.length))
    {i : Fin sources.length} (hdone : (compileAll T sources d schedule).locals i = .done) :
    Produced T (sources.get i) (compileAll T sources d schedule).shared := by
  have hassert := compileAll_asserts h schedule i
  rw [hdone] at hassert
  exact hassert

/-- Each object file holds the object of its source, whatever the order of the tasks, when their
sources are separate; the paths are apart just when the stems differ. -/
theorem compileAll_keepsApart (T : Toolchain Key) (sources : List Path) (d : Disk Key) :
    (PathsApart sources ↔ (sources.map stemOf).Nodup) ∧
      (Separate T d.cache sources → ∀ schedule objects,
        objectFiles sources (compileAll T sources d schedule) = some objects →
          List.Forall₂ (fun object source =>
            (compileAll T sources d schedule).shared.files object = T.objectOf source ∧
              (T.objectOf source).isSome) objects sources) := by
  refine ⟨pathsApart_iff sources, fun h schedule objects hobjects => ?_⟩
  have hall := forall₂_of_mapM hobjects
  have hsources : sources = (List.finRange sources.length).map sources.get :=
    (List.map_get_finRange sources).symm
  conv in List.Forall₂ _ _ _ => arg 3; rw [hsources]
  rw [List.forall₂_map_right_iff]
  refine hall.imp fun object i hi => ?_
  split at hi
  · rename_i hdone
    obtain rfl := Option.some.inj hi
    obtain ⟨content, hcontent, hfile⟩ := produced_of_done h schedule hdone
    exact ⟨hfile.trans hcontent.symm, by rw [hcontent]; rfl⟩
  · cases hi

end Build

section Examples

/-- The source `dir/name.c`. -/
def sourceIn (dir name : UInt8) : Path :=
  [.normal ⟨[dir], List.cons_ne_nil _ _⟩, .normal ⟨[name, 46, 99], List.cons_ne_nil _ _⟩]

/-- The IR of a source is the bytes of its path, and the object is the IR. -/
def copying : Toolchain Path where
  key := some
  ir source := some (source.flatMap fun c => match c with
    | .normal name => name.val
    | _ => [])
  llcObj := some
  llcAsm := some
  rewrite := id
  assemble := some
  returnThunkExtern := false

def emptyDisk : Disk Path := ⟨fun _ => none, fun _ => none⟩

/-- `a/x.c` and `a/y.c` -/
def twoNames : List Path := [sourceIn 97 120, sourceIn 97 121]

theorem separate_twoNames : Separate copying emptyDisk.cache twoNames := by
  refine ⟨by decide, fun i j hij key hi hj => ?_, fun source hs key object hk hc => ?_⟩
  · have heq : twoNames.get i = twoNames.get j := Option.some.inj (hi.trans hj.symm)
    have hnodup : twoNames.Nodup := by decide
    exact absurd (List.nodup_iff_injective_get.1 hnodup heq) hij
  · cases hc

/-- The two tasks in turns. -/
def inTurns : List (Fin twoNames.length) :=
  (List.replicate 8 [⟨0, by decide⟩, ⟨1, by decide⟩]).flatten

theorem keepsApart_twoNames :
    PathsApart twoNames ∧ ∃ objects,
      objectFiles twoNames (compileAll copying twoNames emptyDisk inTurns) = some objects ∧
      List.Forall₂ (fun object source =>
        (compileAll copying twoNames emptyDisk inTurns).shared.files object =
          copying.objectOf source ∧ (copying.objectOf source).isSome) objects twoNames := by
  have hseparate := separate_twoNames
  refine ⟨(compileAll_keepsApart copying twoNames emptyDisk).1.2 hseparate.stems,
    [objPath (sourceIn 97 120), objPath (sourceIn 97 121)], by decide, ?_⟩
  exact (compileAll_keepsApart copying twoNames emptyDisk).2 hseparate _ _ (by decide)

/-- `a/x.c` and `b/x.c` -/
def twoDirs : List Path := [sourceIn 97 120, sourceIn 98 120]

/-- The first task, then the second. -/
def oneByOne : List (Fin twoDirs.length) :=
  List.replicate 8 ⟨0, by decide⟩ ++ List.replicate 8 ⟨1, by decide⟩

/-- Both sources have the object file `x.o`: compiled one after the other, both succeed, and the
object of the first one is lost. -/
theorem not_keepsApart_twoDirs :
    twoDirs.Nodup ∧ ¬ PathsApart twoDirs ∧
      objectFiles twoDirs (compileAll copying twoDirs emptyDisk oneByOne) =
        some ["x.o".toList, "x.o".toList] ∧
      (compileAll copying twoDirs emptyDisk oneByOne).shared.files "x.o".toList =
        copying.objectOf (sourceIn 98 120) ∧
      copying.objectOf (sourceIn 98 120) ≠ copying.objectOf (sourceIn 97 120) := by
  refine ⟨by decide, fun h => ?_, by decide, by decide, by decide⟩
  exact absurd ((pathsApart_iff twoDirs).1 h) (by decide)

end Examples

end OpticC.Build.Parallel
