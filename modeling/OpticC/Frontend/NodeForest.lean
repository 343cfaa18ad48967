import OpticC.Frontend.StatementExprs
import OpticC.Lib.LinkedForest
import Mathlib.Data.List.Perm.Subperm

/-! The nodes of the arena as a forest. A call of the parser adds trees of its own to it: a
statement about a call names the roots it holds, and the list it is linking together. -/

namespace OpticC.NodeForest

open LinkedForest Relation

inductive Link where
  | child | next
  deriving DecidableEq, Repr

/-- Where a link of a node leads. An assembly statement keeps its template, a string, where
others keep their first child. -/
def CAstNode.link (n : CAstNode) : Link → ℕ
  | .child => if n.kind = 207 then 0 else n.firstChild
  | .next => n.nextSibling

/-- The links of the nodes from `lo` on. -/
def links (lo : ℕ) (a : Arena) : Heap ℕ Link := fun off s =>
  if off < lo then none
  else (a.get off).bind fun n => if CAstNode.link n s = 0 then none else some (CAstNode.link n s)

theorem links_eq_some {lo : ℕ} {a : Arena} {off t : ℕ} {s : Link} :
    links lo a off s = some t ↔
      lo ≤ off ∧ ∃ n, a.get off = some n ∧ CAstNode.link n s = t ∧ t ≠ 0 := by
  unfold links
  constructor
  · intro h
    split at h
    · cases h
    · rename_i hlo
      refine ⟨Nat.le_of_not_lt hlo, ?_⟩
      cases hn : a.get off with
      | none =>
        rw [hn] at h
        cases h
      | some n =>
        rw [hn, Option.bind_some] at h
        split at h
        · cases h
        · cases h
          exact ⟨n, rfl, rfl, by assumption⟩
  · rintro ⟨hlo, n, hn, rfl, ht⟩
    rw [if_neg (Nat.not_lt.2 hlo), hn, Option.bind_some, if_neg ht]

theorem lt_of_get {a : Arena} {off : ℕ} {n : CAstNode} (h : a.get off = some n) :
    0 < off ∧ off < a.nodeAllocated := by
  unfold Arena.get at h
  split at h
  · cases h
  · omega

theorem exists_get {a : Arena} {off : ℕ} (h : 0 < off) (h' : off < a.nodeAllocated) :
    ∃ n, a.get off = some n := ⟨a.nodes off, by unfold Arena.get; rw [if_neg (by omega)]⟩

/-- The old nodes are as they were, the links of the new ones stay among them, and the new nodes
form a forest. -/
structure Grown (a₀ a : Arena) : Prop where
  extends_ : a₀.Extends a
  inside : ∀ {off s t}, links a₀.nodeAllocated a off s = some t →
    a₀.nodeAllocated ≤ t ∧ t < a.nodeAllocated
  forest : IsForest (links a₀.nodeAllocated a)

theorem links_old {a₀ a : Arena} (h : a.nodeAllocated ≤ a₀.nodeAllocated) (off : ℕ) (s : Link) :
    links a₀.nodeAllocated a off s = none := by
  cases hl : links a₀.nodeAllocated a off s with
  | none => rfl
  | some t =>
    obtain ⟨hlo, n, hn, -⟩ := links_eq_some.1 hl
    have := lt_of_get hn
    omega

theorem Grown.refl (a : Arena) : Grown a a := by
  have hnone := links_old (Nat.le_refl a.nodeAllocated)
  refine ⟨Arena.Extends.refl a, fun h => ?_, IsForest.empty hnone⟩
  rw [hnone] at h
  cases h

section Compose

variable {a₀ a a' : Arena}

/-- The links of a node that was there are what they were. -/
theorem links_of_lt (h : a.Extends a') {lo off : ℕ} (hoff : off < a.nodeAllocated) (s : Link) :
    links lo a' off s = links lo a off s := by
  unfold links
  split
  · rfl
  · by_cases hpos : off = 0
    · subst hpos
      simp [Arena.get]
    · obtain ⟨n, hn⟩ := exists_get (Nat.pos_of_ne_zero hpos) hoff
      rw [hn, h.nodes off n hn]

theorem links_mono (h : a.Extends a') {lo off t : ℕ} {s : Link} (hl : links lo a off s = some t) :
    links lo a' off s = some t := by
  obtain ⟨-, n, hn, -⟩ := links_eq_some.1 hl
  rw [links_of_lt h (lt_of_get hn).2, hl]

/-- The links of a new node do not depend on what counts as new. -/
theorem links_of_le {lo lo' off : ℕ} (h : lo ≤ off) (h' : lo' ≤ off) (s : Link) :
    links lo a off s = links lo' a off s := by
  unfold links
  rw [if_neg (Nat.not_lt.2 h), if_neg (Nat.not_lt.2 h')]

theorem Grown.links_cases (h : Grown a₀ a) (h' : Grown a a') {off t : ℕ} {s : Link}
    (hl : links a₀.nodeAllocated a' off s = some t) :
    off < a.nodeAllocated ∧ links a₀.nodeAllocated a off s = some t ∧ t < a.nodeAllocated ∨
      a.nodeAllocated ≤ off ∧ links a.nodeAllocated a' off s = some t ∧ a.nodeAllocated ≤ t := by
  rcases Nat.lt_or_ge off a.nodeAllocated with hlt | hge
  · rw [links_of_lt h'.extends_ hlt] at hl
    exact .inl ⟨hlt, hl, (h.inside hl).2⟩
  · rw [links_of_le (links_eq_some.1 hl).1 hge] at hl
    exact .inr ⟨hge, hl, (h'.inside hl).1⟩

theorem Grown.trans (h : Grown a₀ a) (h' : Grown a a') : Grown a₀ a' := by
  have hle := h'.extends_.allocated
  have hle₀ := h.extends_.allocated
  refine ⟨h.extends_.trans h'.extends_, fun {off s t} hl => ?_, ?_⟩
  · rcases h.links_cases h' hl with ⟨-, hold, -⟩ | ⟨-, hnew, -⟩
    · have := h.inside hold
      omega
    · have := h'.inside hnew
      omega
  · refine IsForest.union (fun off => off < a.nodeAllocated) h.forest h'.forest ?_ ?_
    · intro off s t hP hl
      rcases h.links_cases h' hl with ⟨-, hold, ht⟩ | ⟨hge, -, -⟩
      · exact ⟨hold, ht⟩
      · omega
    · intro off s t hP hl
      rcases h.links_cases h' hl with ⟨hlt, -, -⟩ | ⟨-, hnew, ht⟩
      · exact absurd hlt hP
      · exact ⟨hnew, by omega⟩

end Compose

/-- `NULL`, or a new node that nothing is linked to. -/
def Root (a₀ a : Arena) (r : ℕ) : Prop :=
  r = 0 ∨ a₀.nodeAllocated ≤ r ∧ r < a.nodeAllocated ∧ IsRoot (links a₀.nodeAllocated a) r

/-- The nodes of a call so far, with the roots it holds and the list it links together, from its
first node to its last one. -/
structure Owns (a₀ a : Arena) (chain : ℕ × ℕ) (roots : List ℕ) : Prop where
  grown : Grown a₀ a
  root : ∀ r ∈ chain.1 :: roots, Root a₀ a r
  distinct : (chain.1 :: roots).Pairwise fun r r' => r ≠ 0 → r ≠ r'
  tail : chain.1 = 0 ∨ Reaches (links a₀.nodeAllocated a) chain.1 chain.2

namespace Owns

variable {a₀ a a' : Arena} {chain : ℕ × ℕ} {roots : List ℕ} {r x d : ℕ}

theorem start (h : Grown a₀ a) : Owns a₀ a (0, 0) [] :=
  ⟨h, fun _ hr => .inl (List.mem_singleton.1 hr), List.pairwise_singleton _ _, .inl rfl⟩

theorem null (h : Owns a₀ a chain roots) : Owns a₀ a chain (0 :: roots) := by
  refine ⟨h.grown, ?_, ?_, h.tail⟩
  · intro y hy
    simp only [List.mem_cons] at hy
    rcases hy with rfl | rfl | hy
    · exact h.root _ List.mem_cons_self
    · exact .inl rfl
    · exact h.root y (List.mem_cons_of_mem _ hy)
  · obtain ⟨hfirst, hrest⟩ := List.pairwise_cons.1 h.distinct
    refine List.pairwise_cons.2 ⟨?_, List.pairwise_cons.2 ⟨fun _ _ hz => absurd rfl hz, hrest⟩⟩
    intro r hr hne
    rcases List.mem_cons.1 hr with rfl | hr
    · exact hne
    · exact hfirst r hr hne

theorem perm (h : Owns a₀ a chain roots) {roots' : List ℕ} (hp : roots'.Subperm roots) :
    Owns a₀ a chain roots' := by
  refine ⟨h.grown, fun r hr => ?_, ?_, h.tail⟩
  · rcases List.mem_cons.1 hr with rfl | hr
    · exact h.root _ List.mem_cons_self
    · exact h.root r (List.mem_cons_of_mem _ (hp.subset hr))
  · obtain ⟨hfirst, hrest⟩ := List.pairwise_cons.1 h.distinct
    obtain ⟨l, hl, hsub⟩ := hp
    have hsymm : ∀ {x y : ℕ}, (x ≠ 0 → x ≠ y) → y ≠ 0 → y ≠ x := fun h hy hxy =>
      h (hxy ▸ hy) hxy.symm
    exact List.pairwise_cons.2 ⟨fun r hr => hfirst r (hsub.subset (hl.symm.subset hr)),
      (List.Perm.pairwise_iff hsymm hl).1 (hrest.sublist hsub)⟩

theorem swap {y : ℕ} (h : Owns a₀ a chain (x :: y :: roots)) : Owns a₀ a chain (y :: x :: roots) :=
  h.perm (List.Perm.swap x y roots).subperm

theorem drop (h : Owns a₀ a chain (x :: roots)) : Owns a₀ a chain roots :=
  h.perm (List.sublist_cons_self x roots).subperm

theorem dropSecond {y : ℕ} (h : Owns a₀ a chain (x :: y :: roots)) : Owns a₀ a chain (x :: roots) :=
  h.swap.drop

/-- The list is finished, and its first node is a root like the others. -/
theorem close (h : Owns a₀ a chain roots) : Owns a₀ a (0, 0) (chain.1 :: roots) := by
  refine ⟨h.grown, fun r hr => ?_, ?_, .inl rfl⟩
  · rcases List.mem_cons.1 hr with rfl | hr
    · exact .inl rfl
    · exact h.root r hr
  · exact List.pairwise_cons.2 ⟨fun _ _ hz => absurd rfl hz, h.distinct⟩

/-- A list goes on from a root, at any node below it. -/
theorem open_ (h : Owns a₀ a (0, 0) (x :: roots)) {last : ℕ}
    (hlast : x = 0 ∨ Reaches (links a₀.nodeAllocated a) x last) :
    Owns a₀ a (x, last) roots := by
  refine ⟨h.grown, fun r hr => h.root r (List.mem_cons_of_mem _ hr), ?_, hlast⟩
  exact (List.pairwise_cons.1 h.distinct).2

theorem of_null (h : Owns a₀ a chain roots) : Owns a₀ a (0, 0) roots :=
  h.close.drop

/-- Different roots are not below each other. -/
theorem apart (h : Owns a₀ a chain (x :: r :: roots)) (hx : x ≠ 0) :
    ¬Reaches (links a₀.nodeAllocated a) x r ∨ r = 0 := by
  by_cases hr : r = 0
  · exact .inr hr
  · refine .inl fun hreach => ?_
    have hdistinct := (List.pairwise_cons.1 (List.pairwise_cons.1 h.distinct).2).1 r (by simp) hx
    obtain hz | ⟨-, -, hrootx⟩ := h.root x (by simp)
    · exact hx hz
    obtain hz | ⟨-, -, hrootr⟩ := h.root r (by simp)
    · exact hr hz
    exact hdistinct (h.grown.forest.root_unique hrootx hrootr hreach .refl)

/-- What is below one root is not below another one. -/
theorem apart_of_reaches (h : Owns a₀ a chain (x :: roots)) (hx : x ≠ 0) {last : ℕ}
    (hr : Reaches (links a₀.nodeAllocated a) r last)
    (hxr : ¬Reaches (links a₀.nodeAllocated a) x r) :
    ¬Reaches (links a₀.nodeAllocated a) x last := by
  intro hreach
  obtain hz | ⟨-, -, hroot⟩ := h.root x (by simp)
  · exact hx hz
  clear hx
  induction hr with
  | refl => exact hxr hreach
  | tail hpath hstep ih =>
    cases hreach with
    | refl => exact hroot.not_step _ hstep
    | tail hpath' hstep' =>
      obtain ⟨s, hs⟩ := hstep
      obtain ⟨t, ht⟩ := hstep'
      obtain ⟨rfl, -⟩ := h.grown.forest.owner hs ht
      exact ih hpath'

/-- A call, by what it does to the arena that it finds. -/
theorem call (h : Owns a₀ a chain roots) (h' : Owns a a' (0, 0) [r]) :
    Owns a₀ a' chain (r :: roots) := by
  have hgrown := h.grown.trans h'.grown
  have hle := h'.grown.extends_.allocated
  have hle₀ := h.grown.extends_.allocated
  -- a root of before is one still
  have hkept : ∀ y, Root a₀ a y → Root a₀ a' y := by
    rintro y (rfl | ⟨hlo, hlt, hroot⟩)
    · exact .inl rfl
    · refine .inr ⟨hlo, Nat.lt_of_lt_of_le hlt hle, fun z s hz => ?_⟩
      rcases h.grown.links_cases h'.grown hz with ⟨-, hold, -⟩ | ⟨-, -, hge⟩
      · exact hroot z s hold
      · omega
  have hnew : Root a₀ a' r := by
    obtain rfl | ⟨hlo, hlt, hroot⟩ := h'.root r (by simp)
    · exact .inl rfl
    · refine .inr ⟨by omega, hlt, fun z s hz => ?_⟩
      rcases h.grown.links_cases h'.grown hz with ⟨-, -, hlt'⟩ | ⟨-, hz', -⟩
      · omega
      · exact hroot z s hz'
  have hne : ∀ y ∈ chain.1 :: roots, y ≠ 0 → y ≠ r := by
    rintro y hy hy0 rfl
    obtain hz | ⟨-, hlt, -⟩ := h.root y hy
    · exact hy0 hz
    · obtain hz | ⟨hlo, -, -⟩ := h'.root y (by simp)
      · exact hy0 hz
      · omega
  refine ⟨hgrown, fun y hy => ?_, ?_, ?_⟩
  · simp only [List.mem_cons] at hy
    rcases hy with rfl | rfl | hy
    · exact hkept _ (h.root _ List.mem_cons_self)
    · exact hnew
    · exact hkept y (h.root y (List.mem_cons_of_mem _ hy))
  · obtain ⟨hfirst, hrest⟩ := List.pairwise_cons.1 h.distinct
    refine List.pairwise_cons.2 ⟨fun y hy hz => ?_, List.pairwise_cons.2 ⟨fun y hy hz => ?_, hrest⟩⟩
    · rcases List.mem_cons.1 hy with rfl | hy
      · exact hne _ List.mem_cons_self hz
      · exact hfirst y hy hz
    · rintro rfl
      exact hne r (List.mem_cons_of_mem _ hy) hz rfl
  · exact h.tail.imp id (Reaches.mono fun _ _ _ => links_mono h'.grown.extends_)

theorem quiet (h : Owns a₀ a chain roots) (h' : Grown a a') : Owns a₀ a' chain roots :=
  (h.call (start h').null).drop

section Put

variable {n : CAstNode}

theorem put_fst (n : CAstNode) (h : a.nodeAllocated < a.nodeCapacity) :
    (a.put n).1 = a.nodeAllocated := by
  simp only [Arena.put, Arena.alloc, if_neg (Nat.not_le.2 h), Option.getD_some]

theorem get_put_old (n : CAstNode) {off : ℕ} (hoff : off ≠ a.nodeAllocated) :
    (a.put n).2.get off = a.get off := by
  rcases Nat.lt_or_ge a.nodeAllocated a.nodeCapacity with hlt | hge
  · unfold Arena.put Arena.alloc Arena.get
    simp only [if_neg (Nat.not_le.2 hlt), Option.getD_some, if_neg hoff]
    split_ifs <;> first | rfl | omega
  · rw [put_of_full n hge]

/-- A new node takes two roots, one below it and one beside it. -/
theorem put {y : ℕ} (h : Owns a₀ a chain (x :: y :: roots))
    (hchild : CAstNode.link n .child = 0 ∨ CAstNode.link n .child = x)
    (hnext : n.nextSibling = 0 ∨ n.nextSibling = y) :
    Owns a₀ (a.put n).2 chain ((a.put n).1 :: roots) := by
  rcases Nat.lt_or_ge a.nodeAllocated a.nodeCapacity with hlt | hfull
  swap
  · rw [put_of_full n hfull]
    exact h.drop.drop.null
  have hle := h.grown.extends_.allocated
  have hext := extends_put a n
  have hcount := put_nodeAllocated n hlt
  have hget : (a.put n).2.get a.nodeAllocated = some n := by
    rw [← put_fst n hlt]
    exact Arena.get_alloc (put_of_lt n hlt)
  have hxy := (List.pairwise_cons.1 (List.pairwise_cons.1 h.distinct).2).1
  -- the links of the new node
  have hlink : ∀ {s t}, links a₀.nodeAllocated (a.put n).2 a.nodeAllocated s = some t →
      s = .child ∧ t = x ∧ t ≠ 0 ∨ s = .next ∧ t = y ∧ t ≠ 0 := by
    intro s t hl
    obtain ⟨-, m, hm, rfl, ht⟩ := links_eq_some.1 hl
    rw [hget] at hm
    cases hm
    cases s with
    | child => exact .inl ⟨rfl, hchild.resolve_left ht, ht⟩
    | next => exact .inr ⟨rfl, hnext.resolve_left ht, ht⟩
  have hold : ∀ {off s t}, off ≠ a.nodeAllocated →
      links a₀.nodeAllocated (a.put n).2 off s = some t →
      links a₀.nodeAllocated a off s = some t := by
    intro off s t hne hl
    obtain ⟨hlo, m, hm, hs⟩ := links_eq_some.1 hl
    rw [get_put_old n hne] at hm
    exact links_eq_some.2 ⟨hlo, m, hm, hs⟩
  have hnew : IsRoot (links a₀.nodeAllocated a) a.nodeAllocated := by
    intro z s hz
    exact Nat.lt_irrefl _ (h.grown.inside hz).2
  have htaken : ∀ {t}, t = x ∨ t = y → t ≠ 0 → a₀.nodeAllocated ≤ t ∧ t < a.nodeAllocated ∧
      IsRoot (links a₀.nodeAllocated a) t := by
    rintro t (rfl | rfl) ht
    · exact (h.root t (by simp)).resolve_left ht
    · exact (h.root t (by simp)).resolve_left ht
  have hedge : ∀ off s t, links a₀.nodeAllocated (a.put n).2 off s = some t →
      off ≠ a.nodeAllocated ∧ links a₀.nodeAllocated a off s = some t ∨
        off = a.nodeAllocated ∧ IsRoot (links a₀.nodeAllocated a) t ∧ t ≠ a.nodeAllocated := by
    intro off s t hl
    by_cases hoff : off = a.nodeAllocated
    · subst hoff
      have ht : (t = x ∨ t = y) ∧ t ≠ 0 := by
        rcases hlink hl with ⟨-, ht, hz⟩ | ⟨-, ht, hz⟩
        · exact ⟨.inl ht, hz⟩
        · exact ⟨.inr ht, hz⟩
      obtain ⟨-, htlt, hroot⟩ := htaken ht.1 ht.2
      exact .inr ⟨rfl, hroot, by omega⟩
    · exact .inl ⟨hoff, hold hoff hl⟩
  have hkept : ∀ r ∈ chain.1 :: roots, Root a₀ (a.put n).2 r := by
    intro r hr
    have hr' : r ∈ chain.1 :: x :: y :: roots := by
      rcases List.mem_cons.1 hr with rfl | hr
      · exact List.mem_cons_self
      · exact List.mem_cons_of_mem _ (List.mem_cons_of_mem _ (List.mem_cons_of_mem _ hr))
    obtain rfl | ⟨hlo, hrlt, hroot⟩ := h.root r hr'
    · exact .inl rfl
    · refine .inr ⟨hlo, by omega, fun z s hz => ?_⟩
      by_cases hzn : z = a.nodeAllocated
      · subst hzn
        have hdx := (List.pairwise_cons.1 h.distinct).1
        have hdy := (List.pairwise_cons.1 (List.pairwise_cons.1
          (List.pairwise_cons.1 h.distinct).2).2).1
        rcases hlink hz with ⟨-, rfl, hz⟩ | ⟨-, rfl, hz⟩
        · rcases List.mem_cons.1 hr with rfl | hr
          · exact hdx _ (by simp) hz rfl
          · exact hxy r (by simp [hr]) hz rfl
        · rcases List.mem_cons.1 hr with rfl | hr
          · exact hdx _ (by simp) hz rfl
          · exact hdy r hr hz rfl
      · exact hroot z s (hold hzn hz)
  refine ⟨⟨h.grown.extends_.trans hext, fun {off s t} hl => ?_, ?_⟩, ?_, ?_, ?_⟩
  · by_cases hoff : off = a.nodeAllocated
    · subst hoff
      rcases hlink hl with ⟨-, ht, hz⟩ | ⟨-, ht, hz⟩
      · have := htaken (.inl ht) hz
        omega
      · have := htaken (.inr ht) hz
        omega
    · have := h.grown.inside (hold hoff hl)
      omega
  · refine h.grown.forest.insert hnew hedge ?_
    intro s t z hs ht
    rcases hlink hs with ⟨rfl, rfl, hz⟩ | ⟨rfl, rfl, hz⟩
    · rcases hlink ht with ⟨rfl, -, -⟩ | ⟨-, hzy, -⟩
      · rfl
      · exact absurd hzy (hxy y (by simp) hz)
    · rcases hlink ht with ⟨-, hzx, -⟩ | ⟨rfl, -, -⟩
      · exact absurd hzx.symm (hxy z (by simp) (hzx ▸ hz))
      · rfl
  · intro r hr
    simp only [List.mem_cons] at hr
    rcases hr with rfl | rfl | hr
    · exact hkept _ List.mem_cons_self
    · rw [put_fst n hlt]
      refine .inr ⟨hle, by omega, fun z s hz => ?_⟩
      rcases hedge z s _ hz with ⟨-, hz'⟩ | ⟨-, -, hne⟩
      · exact hnew z s hz'
      · exact hne rfl
    · exact hkept r (List.mem_cons_of_mem _ hr)
  · obtain ⟨hfirst, hrest⟩ := List.pairwise_cons.1 h.distinct
    have hlt' : ∀ r ∈ chain.1 :: x :: y :: roots, r ≠ 0 → r < a.nodeAllocated := fun r hr hz =>
      ((h.root r hr).resolve_left hz).2.1
    refine List.pairwise_cons.2 ⟨fun r hr hz => ?_, List.pairwise_cons.2 ⟨fun r hr _ => ?_,
      (List.pairwise_cons.1 (List.pairwise_cons.1 hrest).2).2⟩⟩
    · rcases List.mem_cons.1 hr with rfl | hr
      · have := hlt' chain.1 List.mem_cons_self hz
        rw [put_fst n hlt]
        omega
      · exact hfirst r (by simp [hr]) hz
    · rw [put_fst n hlt]
      rintro rfl
      have := hlt' a.nodeAllocated (by simp [hr]) (by have := a.nodeAllocated_pos; omega)
      omega
  · exact h.tail.imp id (Reaches.mono fun _ _ _ => links_mono hext)

end Put

section Relink

variable {f : CAstNode → CAstNode} {u : Link}

/-- A write to one link of a new node leaves the old nodes as they were. -/
theorem extends_modify (h : a₀.Extends a) (hd : d = 0 ∨ a₀.nodeAllocated ≤ d) :
    a₀.Extends (a.modify d f) := by
  unfold Arena.modify
  split
  · exact h
  · refine ⟨h.allocated, fun off n hget => ?_, fun off s hs => ?_⟩
    · have hne : off ≠ d := by
        have := lt_of_get hget
        omega
      have hkept := h.nodes off n hget
      unfold Arena.get at hkept ⊢
      simp only [if_neg hne]
      exact hkept
    · have hheld := h.strings off s hs
      exact ⟨hheld.1, hheld.2, hheld.3, hheld.4, hheld.5, hheld.6⟩

theorem modify_nodeAllocated (a : Arena) (d : ℕ) (f : CAstNode → CAstNode) :
    (a.modify d f).nodeAllocated = a.nodeAllocated := by
  unfold Arena.modify
  split <;> rfl

/-- The link `u` of the node `d` is set to `x`. -/
structure Sets (f : CAstNode → CAstNode) (u : Link) (x : ℕ) : Prop where
  same : ∀ n, CAstNode.link (f n) u = 0 ∨ CAstNode.link (f n) u = x
  other : ∀ n s, s ≠ u → CAstNode.link (f n) s = CAstNode.link n s

theorem sets_next (x : ℕ) : Sets (fun n => { n with nextSibling := x }) .next x := by
  refine ⟨fun n => .inr rfl, fun n s hs => ?_⟩
  cases s with
  | child => rfl
  | next => exact absurd rfl hs

theorem sets_child (x : ℕ) : Sets (fun n => { n with firstChild := x }) .child x := by
  refine ⟨fun n => ?_, fun n s hs => ?_⟩
  · show (if n.kind = 207 then 0 else x) = 0 ∨ (if n.kind = 207 then 0 else x) = x
    split_ifs
    · exact .inl rfl
    · exact .inr rfl
  · cases s with
    | child => exact absurd rfl hs
    | next => rfl

theorem links_modify (hf : Sets f u x) {lo off t : ℕ} {s : Link}
    (hl : links lo (a.modify d f) off s = some t) :
    links lo a off s = some t ∨ off = d ∧ s = u ∧ t = x := by
  obtain ⟨hlo, n, hn, hs, ht⟩ := links_eq_some.1 hl
  by_cases hoff : off = d
  · subst hoff
    obtain ⟨m, hm⟩ := exists_get (a := a) (lt_of_get hn).1
      (by rw [← modify_nodeAllocated a off f]; exact (lt_of_get hn).2)
    rw [StatementExpr.get_modify_self f hm] at hn
    cases hn
    by_cases hsu : s = u
    · subst hsu
      refine .inr ⟨rfl, rfl, ?_⟩
      rcases hf.same m with h0 | hx
      · exact absurd (hs.symm.trans h0) ht
      · exact hs.symm.trans hx
    · rw [hf.other m s hsu] at hs
      exact .inl (links_eq_some.2 ⟨hlo, m, hm, hs, ht⟩)
  · rw [StatementExpr.get_modify_of_ne f hoff] at hn
    exact .inl (links_eq_some.2 ⟨hlo, n, hn, hs, ht⟩)

theorem links_modify_of_ne {lo off : ℕ} (hoff : off ≠ d) :
    links lo (a.modify d f) off = links lo a off := by
  funext s
  unfold links
  rw [StatementExpr.get_modify_of_ne f hoff]

theorem modify_null (f : CAstNode → CAstNode) : a.modify 0 f = a := by
  unfold Arena.modify
  rw [if_pos (.inl rfl)]

theorem New.of_root {y : ℕ} (h : Root a₀ a y) : y = 0 ∨ a₀.nodeAllocated ≤ y :=
  h.imp id fun h => h.1

theorem New.of_reaches (hg : Grown a₀ a) {y z : ℕ} (hy : y = 0 ∨ a₀.nodeAllocated ≤ y)
    (h : Reaches (links a₀.nodeAllocated a) y z) : z = 0 ∨ a₀.nodeAllocated ≤ z := by
  induction h with
  | refl => exact hy
  | tail _ hstep =>
    obtain ⟨s, hs⟩ := hstep
    exact .inr (hg.inside hs).1

/-- A root is linked below or beside a node of another tree, in place of what was there. -/
theorem relink (h : Owns a₀ a chain (x :: roots)) (hf : Sets f u x)
    (hd : d = 0 ∨ a₀.nodeAllocated ≤ d)
    (hx : x ≠ 0 → ¬Reaches (links a₀.nodeAllocated a) x d) :
    Grown a₀ (a.modify d f) ∧ (∀ r ∈ chain.1 :: roots, Root a₀ (a.modify d f) r) := by
  have hcount := modify_nodeAllocated a d f
  by_cases hx0 : x = 0
  · -- nothing is linked
    subst hx0
    have hsub : ∀ off s t, links a₀.nodeAllocated (a.modify d f) off s = some t →
        links a₀.nodeAllocated a off s = some t := by
      intro off s t hl
      rcases links_modify hf hl with hold | ⟨-, -, ht⟩
      · exact hold
      · obtain ⟨-, _, -, -, hne⟩ := links_eq_some.1 hl
        exact absurd ht hne
    refine ⟨⟨extends_modify h.grown.extends_ hd, fun hl => ?_, h.grown.forest.sub hsub⟩, ?_⟩
    · rw [hcount]
      exact h.grown.inside (hsub _ _ _ hl)
    · intro r hr
      have hr' : r ∈ chain.1 :: 0 :: roots := by
        rcases List.mem_cons.1 hr with rfl | hr
        · exact List.mem_cons_self
        · exact List.mem_cons_of_mem _ (List.mem_cons_of_mem _ hr)
      obtain rfl | ⟨hlo, hlt, hroot⟩ := h.root r hr'
      · exact .inl rfl
      · exact .inr ⟨hlo, by rw [hcount]; exact hlt, fun z s hz => hroot z s (hsub _ _ _ hz)⟩
  · obtain hz | ⟨hxlo, hxlt, hxroot⟩ := h.root x (by simp)
    · exact absurd hz hx0
    have hedge : ∀ off s t, links a₀.nodeAllocated (a.modify d f) off s = some t →
        links a₀.nodeAllocated a off s = some t ∨ off = d ∧ s = u ∧ t = x :=
      fun off s t hl => links_modify hf hl
    refine ⟨⟨extends_modify h.grown.extends_ hd, fun hl => ?_,
      h.grown.forest.graft hxroot (hx hx0) hedge⟩, ?_⟩
    · rw [hcount]
      rcases hedge _ _ _ hl with hold | ⟨-, -, rfl⟩
      · exact h.grown.inside hold
      · exact ⟨hxlo, hxlt⟩
    · intro r hr
      have hr' : r ∈ chain.1 :: x :: roots := by
        rcases List.mem_cons.1 hr with rfl | hr
        · exact List.mem_cons_self
        · exact List.mem_cons_of_mem _ (List.mem_cons_of_mem _ hr)
      obtain rfl | ⟨hlo, hlt, hroot⟩ := h.root r hr'
      · exact .inl rfl
      · refine .inr ⟨hlo, by rw [hcount]; exact hlt, hroot.graft hedge ?_⟩
        rintro rfl
        have hp := List.pairwise_cons.1 h.distinct
        rcases List.mem_cons.1 hr with hr1 | hr
        · exact hp.1 r (by simp) (hr1 ▸ hx0) hr1.symm
        · exact (List.pairwise_cons.1 hp.2).1 r hr hx0 rfl

theorem distinct_drop (h : Owns a₀ a chain (x :: roots)) :
    (chain.1 :: roots).Pairwise fun r r' => r ≠ 0 → r ≠ r' := by
  obtain ⟨hfirst, hrest⟩ := List.pairwise_cons.1 h.distinct
  exact List.pairwise_cons.2 ⟨fun r hr => hfirst r (by simp [hr]), (List.pairwise_cons.1 hrest).2⟩

/-- The same, when the node is not below the list either. -/
theorem link (h : Owns a₀ a chain (x :: roots)) (hf : Sets f u x)
    (hd : d = 0 ∨ a₀.nodeAllocated ≤ d) (hx : x ≠ 0 → ¬Reaches (links a₀.nodeAllocated a) x d)
    (hchain : chain.1 ≠ 0 → ¬Reaches (links a₀.nodeAllocated a) chain.1 d) :
    Owns a₀ (a.modify d f) chain roots := by
  obtain ⟨first, last⟩ := chain
  obtain ⟨hgrown, hroots⟩ := h.relink hf hd hx
  refine ⟨hgrown, hroots, h.distinct_drop, ?_⟩
  by_cases hc : first = 0
  · exact .inl hc
  · right
    exact Reaches.of_avoids (fun off hoff => links_modify_of_ne hoff) (hchain hc)
      (h.tail.resolve_left hc)

/-- The last node of the list gets a next one. -/
theorem append (h : Owns a₀ a chain (x :: roots)) (hc : chain.1 ≠ 0) (hx : x ≠ 0)
    (hf : Sets f .next x) (hset : ∀ n, CAstNode.link (f n) .next = x) :
    Owns a₀ (a.modify chain.2 f) (chain.1, x) roots := by
  obtain ⟨first, last⟩ := chain
  have hpath := h.tail.resolve_left hc
  have hroot := h.root first List.mem_cons_self
  have hlast := New.of_reaches h.grown (New.of_root hroot) hpath
  have hnot : ¬Reaches (links a₀.nodeAllocated a) x first :=
    (h.close.swap.apart hx).resolve_right hc
  have hnot' : x ≠ 0 → ¬Reaches (links a₀.nodeAllocated a) x last :=
    fun hx => h.apart_of_reaches hx hpath hnot
  obtain ⟨hgrown, hroots⟩ := h.relink hf hlast hnot'
  refine ⟨hgrown, hroots, h.distinct_drop, .inr ?_⟩
  have hagree : Reaches (links a₀.nodeAllocated (a.modify last f)) first last :=
    Reaches.of_agree h.grown.forest (fun off hoff => links_modify_of_ne hoff) hpath
  refine hagree.tail ⟨.next, ?_⟩
  -- the last node is one of the arena
  have hin : 0 < last ∧ last < a.nodeAllocated := by
    obtain hz | ⟨hlo, hlt, -⟩ := hroot
    · exact absurd hz hc
    · have hpos := a₀.nodeAllocated_pos
      cases hpath with
      | refl => omega
      | tail _ hstep =>
        obtain ⟨s, hs⟩ := hstep
        have := h.grown.inside hs
        omega
  obtain ⟨n, hn⟩ := exists_get hin.1 hin.2
  have hge : a₀.nodeAllocated ≤ last := hlast.resolve_left (by omega)
  exact links_eq_some.2 ⟨hge, f n, StatementExpr.get_modify_self f hn, hset n, hx⟩

end Relink

end Owns

end OpticC.NodeForest
