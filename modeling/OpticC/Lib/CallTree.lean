import Mathlib.Algebra.Ring.Int.Defs
import Mathlib.Algebra.Ring.Nat
import Mathlib.Data.Nat.Notation
import Mathlib.Data.List.Count

/-! A recursive procedure seen through its calls. Each state makes a finite list of
labelled calls, and the procedure returns when no chain of nested calls is endless:
it is enough that each call has a label that no chain repeats without bound or
lowers a rank. -/

namespace CallTree

variable {σ ι : Type*} (calls : σ → List (ι × σ))

/-- A chain of nested calls, with their labels. -/
inductive Path : σ → List ι → σ → Prop
  | nil (s : σ) : Path s [] s
  | cons {s t u : σ} {l : ι} {ls : List ι} : (l, t) ∈ calls s → Path t ls u → Path s (l :: ls) u

/-- Every chain of nested calls from the state is shorter than the bound. -/
def DepthBelow : ℕ → σ → Prop
  | 0, _ => False
  | n + 1, s => ∀ c ∈ calls s, DepthBelow n c.2

theorem DepthBelow.length_lt {n : ℕ} {s t : σ} {ls : List ι} (h : DepthBelow calls n s)
    (hp : Path calls s ls t) : ls.length < n := by
  induction hp generalizing n with
  | nil s =>
    cases n with
    | zero => exact h.elim
    | succ n => exact Nat.succ_pos n
  | cons hmem _ ih =>
    cases n with
    | zero => exact h.elim
    | succ n => exact Nat.succ_lt_succ (ih (h _ hmem))

section Budget

variable [BEq ι]

/-- What is left of the budget of each label after a call. -/
def spend (b : ι → ℕ) (l : ι) : ι → ℕ := fun k => if k == l then b k - 1 else b k

theorem sum_spend_le (b : ι → ℕ) (l : ι) (labels : List ι) :
    (labels.map (spend b l)).sum ≤ (labels.map b).sum := by
  induction labels with
  | nil => simp
  | cons k labels ih =>
    have : spend b l k ≤ b k := by
      unfold spend
      split_ifs <;> omega
    simp only [List.map_cons, List.sum_cons]
    omega

variable [LawfulBEq ι]

theorem sum_spend_lt {b : ι → ℕ} {l : ι} {labels : List ι} (hl : l ∈ labels) (hb : 0 < b l) :
    (labels.map (spend b l)).sum < (labels.map b).sum := by
  induction labels with
  | nil => cases hl
  | cons k labels ih =>
    simp only [List.map_cons, List.sum_cons]
    rcases List.mem_cons.1 hl with rfl | hl
    · have hle := sum_spend_le b l labels
      have : spend b l l = b l - 1 := if_pos (beq_self_eq_true l)
      omega
    · have : spend b l k ≤ b k := by
        unfold spend
        split_ifs <;> omega
      have := ih hl
      omega

variable {calls} {labels : List ι} {rank : σ → ℕ} {top : ℕ}

/-- The depth is bounded by the budget of the labels and, between two of their calls,
by the rank. -/
theorem depthBelow_of_budget (htop : ∀ s, rank s ≤ top)
    (hcall : ∀ s, ∀ c ∈ calls s, c.1 ∈ labels ∨ rank c.2 < rank s) (m : ℕ) :
    ∀ (s : σ) (b : ι → ℕ), (labels.map b).sum * (top + 1) + rank s ≤ m →
      (∀ ls t, Path calls s ls t → ∀ l ∈ labels, ls.count l ≤ b l) →
      DepthBelow calls (m + 1) s := by
  induction m with
  | zero =>
    intro s b hm hb c hc
    rcases hcall s c hc with hl | hlt
    · have hone := hb [c.1] c.2 (.cons hc (.nil _)) c.1 hl
      rw [List.count_singleton_self] at hone
      have hmul := Nat.mul_le_mul_right (top + 1) (Nat.succ_le_of_lt (sum_spend_lt hl hone))
      rw [Nat.succ_mul] at hmul
      omega
    · omega
  | succ m ih =>
    intro s b hm hb c hc
    rcases hcall s c hc with hl | hlt
    · have hone := hb [c.1] c.2 (.cons hc (.nil _)) c.1 hl
      rw [List.count_singleton_self] at hone
      refine ih c.2 (spend b c.1) ?_ fun ls t hp l hlm => ?_
      · have hmul := Nat.mul_le_mul_right (top + 1) (Nat.succ_le_of_lt (sum_spend_lt hl hone))
        rw [Nat.succ_mul] at hmul
        have := htop c.2
        omega
      · have hcount := hb (c.1 :: ls) t (.cons hc hp) l hlm
        rw [List.count_cons] at hcount
        unfold spend
        by_cases hlc : l = c.1
        · simp only [hlc, beq_self_eq_true, if_true] at hcount ⊢
          omega
        · rw [if_neg (by simpa using hlc)]
          omega
    · refine ih c.2 b (by omega) fun ls t hp l hlm => ?_
      have hcount := hb (c.1 :: ls) t (.cons hc hp) l hlm
      rw [List.count_cons] at hcount
      omega

end Budget

section Procedure

variable {calls} {returns : ℕ → σ → Prop} {fine : σ → Prop}

/-- A procedure that returns at depth `n + 1` when its own work is fine and all its calls
return at depth `n`. -/
theorem returns_iff (h0 : ∀ s, ¬returns 0 s)
    (hsucc : ∀ n s, returns (n + 1) s ↔ fine s ∧ ∀ c ∈ calls s, returns n c.2) (n : ℕ) (s : σ) :
    returns n s ↔ DepthBelow calls n s ∧ ∀ ls t, Path calls s ls t → fine t := by
  induction n generalizing s with
  | zero => exact ⟨fun h => (h0 s h).elim, fun h => h.1.elim⟩
  | succ n ih =>
    rw [hsucc]
    constructor
    · intro h
      refine ⟨fun c hc => ((ih c.2).1 (h.2 c hc)).1, fun ls t hp => ?_⟩
      cases hp with
      | nil => exact h.1
      | cons hmem hp => exact ((ih _).1 (h.2 _ hmem)).2 _ t hp
    · intro h
      refine ⟨h.2 [] s (.nil s), fun c hc => (ih c.2).2 ⟨h.1 c hc, fun ls t hp => ?_⟩⟩
      exact h.2 (c.1 :: ls) t (.cons hc hp)

variable [BEq ι] [LawfulBEq ι] {labels : List ι} {rank : σ → ℕ} {top : ℕ}

/-- The procedure returns exactly when no label repeats without bound in its chains of
nested calls and every state in them is fine. -/
theorem exists_returns_iff (htop : ∀ s, rank s ≤ top)
    (hcall : ∀ s, ∀ c ∈ calls s, c.1 ∈ labels ∨ rank c.2 < rank s) (h0 : ∀ s, ¬returns 0 s)
    (hsucc : ∀ n s, returns (n + 1) s ↔ fine s ∧ ∀ c ∈ calls s, returns n c.2) (s : σ) :
    (∃ n, returns n s) ↔
      (∃ bound, ∀ ls t, Path calls s ls t → ∀ l ∈ labels, ls.count l ≤ bound) ∧
        ∀ ls t, Path calls s ls t → fine t := by
  constructor
  · rintro ⟨n, hn⟩
    obtain ⟨hdepth, hfine⟩ := (returns_iff h0 hsucc n s).1 hn
    refine ⟨⟨n, fun ls t hp l _ => ?_⟩, hfine⟩
    exact Nat.le_trans List.count_le_length (Nat.le_of_lt (hdepth.length_lt calls hp))
  · rintro ⟨⟨bound, hbound⟩, hfine⟩
    exact ⟨_, (returns_iff h0 hsucc _ s).2
      ⟨depthBelow_of_budget htop hcall _ s (fun _ => bound) (Nat.le_refl _) hbound, hfine⟩⟩

end Procedure

end CallTree
