import Mathlib.Algebra.Ring.Int.Defs
import Mathlib.Algebra.Ring.Nat
import Mathlib.Data.Nat.Notation
import Mathlib.Logic.Relation

/-! Cells with slots, each slot empty or pointing to a cell. The cells form a forest when no cell
is pointed to from two slots and no path leads back to where it started. Linking a root into a
slot keeps that, whatever the slot held, unless the slot is below that root. -/

namespace LinkedForest

open Relation

variable {α σ : Type}

/-- The cell that a slot of a cell points to. -/
abbrev Heap (α σ : Type) := α → σ → Option α

def Step (L : Heap α σ) (x y : α) : Prop := ∃ s, L x s = some y

abbrev Reaches (L : Heap α σ) : α → α → Prop := ReflTransGen (Step L)

def IsRoot (L : Heap α σ) (r : α) : Prop := ∀ x s, L x s ≠ some r

structure IsForest (L : Heap α σ) : Prop where
  owner : ∀ {x y s t z}, L x s = some z → L y t = some z → x = y ∧ s = t
  acyclic : ∀ x, ¬TransGen (Step L) x x

variable {L L' : Heap α σ} {r d : α}

theorem IsRoot.not_step (h : IsRoot L r) (x : α) : ¬Step L x r := by
  rintro ⟨s, hs⟩
  exact h x s hs

theorem Step.mono (hsub : ∀ x s y, L x s = some y → L' x s = some y) (x y : α)
    (h : Step L x y) : Step L' x y := by
  obtain ⟨s, hs⟩ := h
  exact ⟨s, hsub x s y hs⟩

theorem Reaches.mono {x y : α} (hsub : ∀ x s y, L x s = some y → L' x s = some y)
    (h : Reaches L x y) : Reaches L' x y := h.lift id (Step.mono hsub)

/-- A cell is below one root only. -/
theorem IsForest.root_unique (hL : IsForest L) {r' x : α} (hr : IsRoot L r) (hr' : IsRoot L r')
    (h : Reaches L r x) (h' : Reaches L r' x) : r = r' := by
  induction h with
  | refl =>
    cases h' with
    | refl => rfl
    | tail _ hstep => exact absurd hstep (hr.not_step _)
  | tail _ hstep ih =>
    cases h' with
    | refl => exact absurd hstep (hr'.not_step _)
    | tail hpath hstep' =>
      obtain ⟨s, hs⟩ := hstep
      obtain ⟨t, ht⟩ := hstep'
      obtain ⟨rfl, -⟩ := hL.owner hs ht
      exact ih hpath

theorem IsForest.empty (hL : ∀ x s, L x s = none) : IsForest L := by
  have hstep : ∀ x y, ¬Step L x y := by
    rintro x y ⟨s, hs⟩
    rw [hL] at hs
    cases hs
  refine ⟨fun hx => ?_, fun x hx => ?_⟩
  · rw [hL] at hx
    cases hx
  · cases hx with
    | single h => exact hstep _ _ h
    | tail _ h => exact hstep _ _ h

theorem IsForest.sub (hL : IsForest L) (hsub : ∀ x s y, L' x s = some y → L x s = some y) :
    IsForest L' :=
  ⟨fun hx hy => hL.owner (hsub _ _ _ hx) (hsub _ _ _ hy),
    fun x hx => hL.acyclic x (hx.lift id (Step.mono hsub))⟩

/-- Two forests next to each other. -/
theorem IsForest.union {L₁ L₂ : Heap α σ} (P : α → Prop) (h₁ : IsForest L₁) (h₂ : IsForest L₂)
    (hin : ∀ x s y, P x → L x s = some y → L₁ x s = some y ∧ P y)
    (hout : ∀ x s y, ¬P x → L x s = some y → L₂ x s = some y ∧ ¬P y) : IsForest L := by
  refine ⟨?_, ?_⟩
  · intro x y s t z hx hy
    by_cases hPx : P x
    · obtain ⟨hx, hPz⟩ := hin _ _ _ hPx hx
      have hPy : P y := by
        by_contra hPy
        exact (hout _ _ _ hPy hy).2 hPz
      exact h₁.owner hx (hin _ _ _ hPy hy).1
    · obtain ⟨hx, hPz⟩ := hout _ _ _ hPx hx
      have hPy : ¬P y := fun hPy => hPz (hin _ _ _ hPy hy).2
      exact h₂.owner hx (hout _ _ _ hPy hy).1
  · intro x hx
    -- a path stays on the side where it starts
    have hside : ∀ y, TransGen (Step L) x y →
        (P x → P y ∧ TransGen (Step L₁) x y) ∧ (¬P x → ¬P y ∧ TransGen (Step L₂) x y) := by
      intro y hy
      induction hy with
      | single hstep =>
        obtain ⟨s, hs⟩ := hstep
        exact ⟨fun hP => ⟨(hin _ _ _ hP hs).2, .single ⟨s, (hin _ _ _ hP hs).1⟩⟩,
          fun hP => ⟨(hout _ _ _ hP hs).2, .single ⟨s, (hout _ _ _ hP hs).1⟩⟩⟩
      | tail _ hstep ih =>
        obtain ⟨s, hs⟩ := hstep
        refine ⟨fun hP => ?_, fun hP => ?_⟩
        · obtain ⟨hPb, hpath⟩ := ih.1 hP
          exact ⟨(hin _ _ _ hPb hs).2, hpath.tail ⟨s, (hin _ _ _ hPb hs).1⟩⟩
        · obtain ⟨hPb, hpath⟩ := ih.2 hP
          exact ⟨(hout _ _ _ hPb hs).2, hpath.tail ⟨s, (hout _ _ _ hPb hs).1⟩⟩
    by_cases hP : P x
    · exact h₁.acyclic x ((hside x hx).1 hP).2
    · exact h₂.acyclic x ((hside x hx).2 hP).2

section Graft

variable {u : σ} (hr : IsRoot L r) (hd : ¬Reaches L r d)
  (hedge : ∀ x s y, L' x s = some y → L x s = some y ∨ x = d ∧ s = u ∧ y = r)

include hd hedge in
/-- A path of the new links is one of the old links, or goes through the new link once. -/
theorem transGen_graft {x y : α} (h : TransGen (Step L') x y) :
    TransGen (Step L) x y ∨ Reaches L x d ∧ Reaches L r y := by
  induction h with
  | single hstep =>
    obtain ⟨s, hs⟩ := hstep
    obtain hs | ⟨rfl, -, rfl⟩ := hedge _ _ _ hs
    · exact .inl (.single ⟨s, hs⟩)
    · exact .inr ⟨.refl, .refl⟩
  | tail _ hstep ih =>
    obtain ⟨s, hs⟩ := hstep
    obtain hs | ⟨rfl, -, rfl⟩ := hedge _ _ _ hs
    · exact ih.imp (·.tail ⟨s, hs⟩) fun h => ⟨h.1, h.2.tail ⟨s, hs⟩⟩
    · obtain h | h := ih
      · exact .inr ⟨h.to_reflTransGen, .refl⟩
      · exact absurd h.2 hd

include hr hd hedge in
/-- A slot of `d` is pointed to the root `r`, which is not above `d`. -/
theorem IsForest.graft (hL : IsForest L) : IsForest L' := by
  refine ⟨fun {x y s t z} hx hy => ?_, fun x hx => ?_⟩
  · obtain hx | ⟨rfl, rfl, rfl⟩ := hedge _ _ _ hx
    · obtain hy | ⟨rfl, rfl, rfl⟩ := hedge _ _ _ hy
      · exact hL.owner hx hy
      · exact absurd hx (hr _ _)
    · obtain hy | ⟨rfl, rfl, -⟩ := hedge _ _ _ hy
      · exact absurd hy (hr _ _)
      · exact ⟨rfl, rfl⟩
  · obtain h | ⟨hxd, hrx⟩ := transGen_graft hd hedge hx
    · exact hL.acyclic x h
    · exact hd (hrx.trans hxd)

include hedge in
theorem IsRoot.graft {x : α} (hx : IsRoot L x) (hne : x ≠ r) : IsRoot L' x := by
  intro y s hy
  obtain hy | ⟨-, -, rfl⟩ := hedge _ _ _ hy
  · exact hx y s hy
  · exact hne rfl

end Graft

/-- A path to `d` does not use the slots of `d`. -/
theorem Reaches.of_agree (hL : IsForest L) (hagree : ∀ x ≠ d, L' x = L x) {x : α}
    (h : Reaches L x d) : Reaches L' x d := by
  induction h using ReflTransGen.head_induction_on with
  | refl => exact .refl
  | head hstep hpath ih =>
    rename_i b c
    have hne : b ≠ d := by
      rintro rfl
      exact hL.acyclic _ (TransGen.head' hstep hpath)
    obtain ⟨s, hs⟩ := hstep
    exact ih.head ⟨s, by rw [hagree b hne]; exact hs⟩

/-- Nor does a path from where `d` cannot be reached. -/
theorem Reaches.of_avoids (hagree : ∀ x ≠ d, L' x = L x) {y : α} (hd : ¬Reaches L r d)
    (h : Reaches L r y) : Reaches L' r y := by
  induction h with
  | refl => exact .refl
  | tail hpath hstep ih =>
    obtain ⟨s, hs⟩ := hstep
    refine ih.tail ⟨s, ?_⟩
    rw [hagree]
    · exact hs
    · rintro rfl
      exact hd hpath

/-- A new cell whose slots point to different roots. -/
theorem IsForest.insert (hL : IsForest L) (hr : IsRoot L r)
    (hedge : ∀ x s y, L' x s = some y → x ≠ r ∧ L x s = some y ∨ x = r ∧ IsRoot L y ∧ y ≠ r)
    (hdistinct : ∀ s t y, L' r s = some y → L' r t = some y → s = t) : IsForest L' := by
  refine ⟨fun {x y s t z} hx hy => ?_, fun x hx => ?_⟩
  · obtain ⟨-, hx'⟩ | ⟨rfl, hroot, -⟩ := hedge _ _ _ hx
    · obtain ⟨-, hy'⟩ | ⟨rfl, hroot, -⟩ := hedge _ _ _ hy
      · exact hL.owner hx' hy'
      · exact absurd hx' (hroot _ _)
    · obtain ⟨-, hy'⟩ | ⟨rfl, -, -⟩ := hedge _ _ _ hy
      · exact absurd hy' (hroot _ _)
      · exact ⟨rfl, hdistinct _ _ _ hx hy⟩
  · have hnew : ∀ y, TransGen (Step L') x y → y ≠ r ∧ (x ≠ r → TransGen (Step L) x y) := by
      intro y hy
      induction hy with
      | single hstep =>
        obtain ⟨s, hs⟩ := hstep
        obtain ⟨hne, hs'⟩ | ⟨hxr, -, hy⟩ := hedge _ _ _ hs
        · refine ⟨?_, fun _ => .single ⟨s, hs'⟩⟩
          rintro rfl
          exact hr _ _ hs'
        · exact ⟨hy, fun hne => absurd hxr hne⟩
      | tail _ hstep ih =>
        obtain ⟨s, hs⟩ := hstep
        obtain ⟨-, hs'⟩ | ⟨hb, -, -⟩ := hedge _ _ _ hs
        · refine ⟨?_, fun hne => (ih.2 hne).tail ⟨s, hs'⟩⟩
          rintro rfl
          exact hr _ _ hs'
        · exact absurd hb ih.1
    obtain ⟨hne, hpath⟩ := hnew x hx
    exact hL.acyclic x (hpath hne)

end LinkedForest
