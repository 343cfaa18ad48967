import Mathlib.Algebra.Ring.Int.Defs
import Mathlib.Algebra.Ring.Nat
import Mathlib.Data.List.Basic

/-! Grouping a chain of operands joined by binary operators. A tree groups to the
left when the root is always the last operator of the lowest precedence, and to the
right when it is always the first. Each chain has one tree of either kind, and the
two are the same tree exactly when the chain has no tie. -/

namespace Grouping

variable {α β : Type*}

inductive OpTree (α β : Type*) where
  | leaf (x : β)
  | node (op : α) (left right : OpTree α β)

namespace OpTree

def first : OpTree α β → β
  | leaf x => x
  | node _ l _ => l.first

/-- The operators from left to right, each with the operand after it. -/
def rest : OpTree α β → List (α × β)
  | leaf _ => []
  | node op l r => l.rest ++ (op, r.first) :: r.rest

def map {γ δ : Type*} (f : α → γ) (g : β → δ) : OpTree α β → OpTree γ δ
  | leaf x => leaf (g x)
  | node op l r => node (f op) (l.map f g) (r.map f g)

theorem rest_map {γ δ : Type*} (f : α → γ) (g : β → δ) (t : OpTree α β) :
    (t.map f g).rest.length = t.rest.length := by
  induction t with
  | leaf x => rfl
  | node op l r ihl ihr => simp [map, rest, ihl, ihr]

/-- Two trees of one chain that have the same shape are the same tree. -/
theorem eq_of_map_eq {γ δ : Type*} (f : α → γ) (g : β → δ) {t u : OpTree α β}
    (hm : t.map f g = u.map f g) (hf : t.first = u.first) (hr : t.rest = u.rest) : t = u := by
  induction t generalizing u with
  | leaf x =>
    cases u with
    | leaf y => exact congrArg leaf hf
    | node => simp [map] at hm
  | node op l r ihl ihr =>
    cases u with
    | leaf => simp [map] at hm
    | node op' l' r' =>
      simp only [map, node.injEq] at hm
      have hlen : l.rest.length = l'.rest.length := by
        rw [← rest_map f g l, ← rest_map f g l', hm.2.1]
      obtain ⟨h1, h2⟩ := List.append_inj hr hlen
      simp only [List.cons.injEq, Prod.mk.injEq] at h2
      rw [ihl hm.2.1 hf h1, ihr hm.2.2 h2.1.2 h2.2, h2.1.1]

end OpTree

open OpTree

section Precedence

variable (prec : α → ℕ)

/-- Every operator is the last one of the lowest precedence in its subtree. -/
inductive LeftGrouped : OpTree α β → Prop
  | leaf (x : β) : LeftGrouped (leaf x)
  | node (op : α) (l r : OpTree α β) : LeftGrouped l → LeftGrouped r →
      (∀ q ∈ l.rest, prec op ≤ prec q.1) → (∀ q ∈ r.rest, prec op < prec q.1) →
      LeftGrouped (node op l r)

/-- Every operator is the first one of the lowest precedence in its subtree. -/
inductive RightGrouped : OpTree α β → Prop
  | leaf (x : β) : RightGrouped (leaf x)
  | node (op : α) (l r : OpTree α β) : RightGrouped l → RightGrouped r →
      (∀ q ∈ l.rest, prec op < prec q.1) → (∀ q ∈ r.rest, prec op ≤ prec q.1) →
      RightGrouped (node op l r)

/-- Between two operators of one precedence there is always one of a lower precedence. -/
def NoTie (chain : List (α × β)) : Prop :=
  ∀ a p b q c, chain = a ++ p :: (b ++ q :: c) → prec p.1 = prec q.1 →
    ∃ r ∈ b, prec r.1 < prec p.1

theorem NoTie.left {a b : List (α × β)} (h : NoTie prec (a ++ b)) : NoTie prec a := by
  rintro x p y q z rfl heq
  exact h x p y q (z ++ b) (by simp) heq

theorem NoTie.right {a b : List (α × β)} (h : NoTie prec (a ++ b)) : NoTie prec b := by
  rintro x p y q z rfl heq
  exact h (a ++ x) p y q z (by simp) heq

theorem noTie_nil : NoTie prec ([] : List (α × β)) := by
  intro a p b q c h
  simp at h

theorem noTie_of_pairwise {l : List (α × β)} (h : l.Pairwise fun p q => prec p.1 ≠ prec q.1) :
    NoTie prec l := by
  rintro a p b q c rfl heq
  have hpair := (List.pairwise_cons.1 (List.pairwise_append.1 h).2.1).1 q (by simp)
  exact absurd heq hpair

/-- Two chains without ties stay so around an operator below all of theirs. -/
theorem NoTie.join {a b : List (α × β)} {o : α × β} (ha : NoTie prec a) (hb : NoTie prec b)
    (hao : ∀ q ∈ a, prec o.1 < prec q.1) (hbo : ∀ q ∈ b, prec o.1 < prec q.1) :
    NoTie prec (a ++ o :: b) := by
  intro x p y q z h heq
  rcases List.append_eq_append_iff.1 h with ⟨m, rfl, hm⟩ | ⟨m, rfl, hm⟩
  · -- the pair starts at `o` or after it
    rcases m with _ | ⟨o', m⟩
    · obtain ⟨rfl, rfl⟩ := List.cons.inj hm
      have := hbo q (by simp)
      omega
    · obtain ⟨-, rfl⟩ := List.cons.inj hm
      exact hb m p y q z rfl heq
  · -- the pair starts before `o`
    rcases m with _ | ⟨p', m⟩
    · obtain ⟨rfl, rfl⟩ := List.cons.inj hm
      have := hbo q (by simp)
      omega
    · rw [List.cons_append] at hm
      obtain ⟨rfl, hrest⟩ := List.cons.inj hm
      have hp := hao p (by simp)
      rcases List.append_eq_append_iff.1 hrest with ⟨k, rfl, hk⟩ | ⟨k, rfl, hk⟩
      · rcases k with _ | ⟨q', k⟩
        · obtain ⟨rfl, -⟩ := List.cons.inj hk
          omega
        · obtain ⟨rfl, -⟩ := List.cons.inj hk
          exact ha x p y q k (by simp) heq
      · rcases k with _ | ⟨o', k⟩
        · obtain ⟨rfl, -⟩ := List.cons.inj hk
          omega
        · obtain ⟨rfl, -⟩ := List.cons.inj hk
          exact ⟨o, by simp, hp⟩

theorem RightGrouped.leftGrouped_iff {t : OpTree α β} (h : RightGrouped prec t) :
    LeftGrouped prec t ↔ NoTie prec t.rest := by
  induction h with
  | leaf x => exact ⟨fun _ => noTie_nil prec, fun _ => .leaf x⟩
  | node op l r hl hr hlt hle ihl ihr =>
    constructor
    · intro h
      cases h with
      | node _ _ _ hl' hr' _ hgt => exact (ihl.1 hl').join prec (ihr.1 hr') hlt hgt
    · intro h
      have hright : NoTie prec ((op, r.first) :: r.rest) := h.right prec
      have hnil : NoTie prec r.rest := hright.right prec (a := [(op, r.first)])
      refine .node op l r (ihl.2 (h.left prec)) (ihr.2 hnil) (fun q hq => Nat.le_of_lt (hlt q hq))
        fun q hq => Nat.lt_of_le_of_ne (hle q hq) fun heq => ?_
      -- an operator of the same precedence on the right is a tie with the root
      obtain ⟨b, c, hbc⟩ := List.append_of_mem hq
      obtain ⟨s, hs, hlow⟩ := hright [] (op, r.first) b q c (by rw [hbc]; rfl) heq
      have := hle s (by rw [hbc]; exact List.mem_append_left _ hs)
      simp only at hlow
      omega

end Precedence

end Grouping
