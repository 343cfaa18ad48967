import Mathlib.Algebra.Ring.Int.Defs
import Mathlib.Algebra.Ring.Nat
import Mathlib.Data.Nat.Notation
import Mathlib.Data.List.Basic
import Mathlib.Tactic.SplitIfs

/-! Lists with brackets and separators. A list splits at the separators outside of all
brackets. -/

namespace BracketedLists

/-- What opens a bracket, what closes one, and what separates. -/
structure Marks (α : Type*) where
  isOpen : α → Bool
  isClose : α → Bool
  isSep : α → Bool

variable {α : Type*}

/-- The brackets that are open behind an element. -/
def Marks.depth (m : Marks α) (x : α) (depth : ℕ) : ℕ :=
  if m.isOpen x then depth + 1 else if m.isClose x then depth - 1 else depth

/-- Every bracket is closed, and none that was not opened; `depth` are open in front. -/
def Balanced (m : Marks α) : ℕ → List α → Prop
  | depth, [] => depth = 0
  | depth, x :: rest =>
    (m.isClose x = true → m.isOpen x = false → 0 < depth) ∧ Balanced m (m.depth x depth) rest

instance decidableBalanced (m : Marks α) :
    (depth : ℕ) → (l : List α) → Decidable (Balanced m depth l)
  | depth, [] => inferInstanceAs (Decidable (depth = 0))
  | depth, x :: rest =>
    have := decidableBalanced m (m.depth x depth) rest
    inferInstanceAs (Decidable (_ ∧ _))

/-- The list behind `front`, the first piece longer by it. -/
def lengthen (front : List α) : List (List α) → List (List α)
  | [] => [front]
  | piece :: pieces => (front ++ piece) :: pieces

/-- The pieces between the separators outside of brackets. -/
def pieces (m : Marks α) : ℕ → List α → List (List α)
  | _, [] => [[]]
  | depth, x :: rest =>
    if m.isSep x ∧ depth = 0 then [] :: pieces m depth rest
    else lengthen [x] (pieces m (m.depth x depth) rest)

/-- The pieces, joined by single separators, are the list. -/
inductive JoinedBy (sep : α → Prop) : List (List α) → List α → Prop
  | none : JoinedBy sep [] []
  | one (piece : List α) : JoinedBy sep [piece] piece
  | more {piece next rest : List α} {more : List (List α)} {x : α} :
      sep x → JoinedBy sep (next :: more) rest →
      JoinedBy sep (piece :: next :: more) (piece ++ x :: rest)

/-- What stands behind the first `n` separators outside of brackets. -/
def behindSeps (m : Marks α) : ℕ → ℕ → List α → List α
  | 0, _, l => l
  | _ + 1, _, [] => []
  | n + 1, depth, x :: rest =>
    if m.isSep x ∧ depth = 0 then behindSeps m n depth rest
    else behindSeps m (n + 1) (m.depth x depth) rest

section Pieces

variable (m : Marks α)

theorem lengthen_ne_nil (front : List α) (ps : List (List α)) : lengthen front ps ≠ [] := by
  cases ps <;> exact List.cons_ne_nil _ _

theorem pieces_ne_nil (depth : ℕ) (l : List α) : pieces m depth l ≠ [] := by
  cases l with
  | nil => exact List.cons_ne_nil _ _
  | cons x rest =>
    rw [pieces]
    split_ifs
    · exact List.cons_ne_nil _ _
    · exact lengthen_ne_nil _ _

theorem lengthen_nil {ps : List (List α)} (h : ps ≠ []) : lengthen [] ps = ps := by
  cases ps with
  | nil => exact absurd rfl h
  | cons piece ps => rfl

theorem lengthen_lengthen (a b : List α) (ps : List (List α)) :
    lengthen a (lengthen b ps) = lengthen (a ++ b) ps := by
  cases ps with
  | nil => rfl
  | cons piece ps => rw [lengthen, lengthen, lengthen, List.append_assoc]

theorem length_lengthen (front : List α) {ps : List (List α)} (h : ps ≠ []) :
    (lengthen front ps).length = ps.length := by
  cases ps with
  | nil => exact absurd rfl h
  | cons piece ps => rfl

theorem JoinedBy.lengthen {sep : α → Prop} {ps : List (List α)} {l : List α}
    (h : JoinedBy sep ps l) (front : List α) : JoinedBy sep (lengthen front ps) (front ++ l) := by
  cases h with
  | none =>
    rw [List.append_nil]
    exact .one front
  | one piece => exact .one _
  | more hx hrest =>
    rw [← List.append_assoc]
    exact .more hx hrest

/-- The pieces join up to the list. -/
theorem joinedBy_pieces (depth : ℕ) (l : List α) :
    JoinedBy (fun x => m.isSep x = true) (pieces m depth l) l := by
  induction l generalizing depth with
  | nil => exact .one []
  | cons x rest ih =>
    rw [pieces]
    split_ifs with hsep
    · have hrest := ih depth
      cases hps : pieces m depth rest with
      | nil => exact absurd hps (pieces_ne_nil m depth rest)
      | cons piece ps =>
        rw [hps] at hrest
        exact @JoinedBy.more _ _ [] _ _ _ _ hsep.1 hrest
    · exact (ih _).lengthen [x]

/-- A list is as long as its pieces and the separators between them. -/
theorem JoinedBy.length_eq {sep : α → Prop} {ps : List (List α)} {l : List α}
    (h : JoinedBy sep ps l) (hne : ps ≠ []) :
    l.length + 1 = (ps.map List.length).sum + ps.length := by
  induction h with
  | none => exact absurd rfl hne
  | one piece => simp
  | more hx hrest ih =>
    have hlength := ih (List.cons_ne_nil _ _)
    simp only [List.length_append, List.length_cons, List.map_cons, List.sum_cons] at hlength ⊢
    omega

/-- The pieces behind the first ones are those of what stands behind the separators. -/
theorem pieces_behindSeps (n depth : ℕ) (l : List α) (h : n < (pieces m depth l).length)
    (hn : 0 < n) : pieces m 0 (behindSeps m n depth l) = (pieces m depth l).drop n := by
  induction l generalizing n depth with
  | nil =>
    simp only [pieces, List.length_singleton] at h
    omega
  | cons x rest ih =>
    obtain ⟨n, rfl⟩ : ∃ k, n = k + 1 := ⟨n - 1, by omega⟩
    rw [pieces] at h ⊢
    rw [behindSeps]
    split_ifs at h ⊢ with hsep
    · rw [List.length_cons] at h
      rw [List.drop_succ_cons]
      cases n with
      | zero =>
        rw [behindSeps, List.drop_zero, hsep.2]
      | succ n => exact ih (n + 1) depth (Nat.lt_of_succ_lt_succ h) (Nat.succ_pos n)
    · have hne := pieces_ne_nil m (m.depth x depth) rest
      rw [length_lengthen [x] hne] at h
      rw [ih (n + 1) _ h (Nat.succ_pos n)]
      cases hps : pieces m (m.depth x depth) rest with
      | nil => exact absurd hps hne
      | cons piece ps => rfl

/-- There is nothing behind more separators than there are. -/
theorem behindSeps_eq_nil (n depth : ℕ) (l : List α) (h : (pieces m depth l).length ≤ n) :
    behindSeps m n depth l = [] := by
  induction l generalizing n depth with
  | nil =>
    cases n with
    | zero => exact absurd h (Nat.not_succ_le_zero 0)
    | succ n => rfl
  | cons x rest ih =>
    cases n with
    | zero =>
      have hpos := List.length_pos_iff.2 (pieces_ne_nil m depth (x :: rest))
      omega
    | succ n =>
      rw [pieces] at h
      rw [behindSeps]
      split_ifs at h ⊢ with hsep
      · exact ih n depth (Nat.le_of_succ_le_succ h)
      · rw [length_lengthen [x] (pieces_ne_nil m _ rest)] at h
        exact ih (n + 1) _ h

theorem joinedBy_drop (n : ℕ) (l : List α) :
    JoinedBy (fun x => m.isSep x = true) ((pieces m 0 l).drop n) (behindSeps m n 0 l) := by
  by_cases hlt : n < (pieces m 0 l).length
  · cases n with
    | zero =>
      rw [List.drop_zero, behindSeps]
      exact joinedBy_pieces m 0 l
    | succ n =>
      rw [← pieces_behindSeps m (n + 1) 0 l hlt (Nat.succ_pos n)]
      exact joinedBy_pieces m 0 _
  · have hle := Nat.le_of_not_lt hlt
    rw [List.drop_eq_nil_of_le hle, behindSeps_eq_nil m n 0 l hle]
    exact .none

theorem behindSeps_suffix (n depth : ℕ) (l : List α) : behindSeps m n depth l <:+ l := by
  induction l generalizing n depth with
  | nil => cases n <;> exact List.suffix_refl _
  | cons x rest ih =>
    cases n with
    | zero => exact List.suffix_refl _
    | succ n =>
      rw [behindSeps]
      split_ifs
      · exact (ih n depth).trans (List.suffix_cons x rest)
      · exact (ih (n + 1) _).trans (List.suffix_cons x rest)

end Pieces

section Maps

variable {β : Type*} {sep : α → Prop} {sep' : β → Prop} {ps : List (List α)} {l : List α}

theorem JoinedBy.imp {sep₂ : α → Prop} (h : JoinedBy sep ps l)
    (himp : ∀ x ∈ l, sep x → sep₂ x) : JoinedBy sep₂ ps l := by
  induction h with
  | none => exact .none
  | one piece => exact .one piece
  | @more piece next rest more x hx hrest ih =>
    rw [List.forall_mem_append, List.forall_mem_cons] at himp
    exact .more (himp.2.1 hx) (ih himp.2.2)

/-- Joined lists stay joined when every element becomes some elements, a separator one of them. -/
theorem JoinedBy.flatMap (h : JoinedBy sep ps l) (f : α → List β)
    (hf : ∀ x, sep x → ∃ y, f x = [y] ∧ sep' y) :
    JoinedBy sep' (ps.map (List.flatMap f)) (l.flatMap f) := by
  induction h with
  | none => exact .none
  | one piece => exact .one _
  | @more piece next rest more x hx hrest ih =>
    obtain ⟨y, hy, hsep⟩ := hf x hx
    rw [List.flatMap_append, List.flatMap_cons, hy]
    exact .more hsep ih

/-- A list whose last piece is empty is not joined by the pieces without it. -/
theorem JoinedBy.not_dropLast {emit : List α → List β} {t : List β}
    (h : JoinedBy sep' (ps.map emit) t) (hlast : ps.getLast? = some []) (hemit : emit [] = [])
    (htwo : 2 ≤ ps.length) : ¬ JoinedBy sep' (ps.dropLast.map emit) t := by
  intro hdrop
  obtain ⟨front, rfl⟩ := List.getLast?_eq_some_iff.1 hlast
  rw [List.length_append, List.length_singleton] at htwo
  have hne : front.map emit ≠ [] := by
    rw [ne_eq, List.map_eq_nil_iff]
    rintro rfl
    rw [List.length_nil] at htwo
    exact absurd htwo (by decide)
  rw [List.dropLast_concat] at hdrop
  have hlong := h.length_eq (by simp)
  have hshort := hdrop.length_eq hne
  simp only [List.map_append, List.map_singleton, List.sum_append, List.sum_singleton, hemit,
    List.length_nil, List.length_append, List.length_singleton] at hlong
  omega

end Maps

end BracketedLists
