import Mathlib.Algebra.Ring.Int.Defs
import Mathlib.Algebra.Ring.Nat
import Mathlib.Data.Nat.Notation
import Mathlib.Tactic.Common

/-! Recursions over a table of entries that refer to earlier ones only, each level of the recursion
spending one of a fuel. More fuel than the index of the entry is always enough. -/

namespace IndexedRecursion

variable {β : Type*} {f : ℕ → ℕ → Option β} {N : ℕ}

/-- What a call returns is decided by what it finds at smaller indices. -/
def Local (f : ℕ → ℕ → Option β) (N : ℕ) : Prop :=
  ∀ i < N, ∀ m n, (∀ c < i, f m c = f n c) → f (m + 1) i = f (n + 1) i

/-- A call returns if the calls at smaller indices do. -/
def Total (f : ℕ → ℕ → Option β) (N : ℕ) : Prop :=
  ∀ i < N, ∀ n, (∀ c < i, (f n c).isSome) → (f (n + 1) i).isSome

theorem Local.stable (h : Local f N) {i : ℕ} (hi : i < N) {n : ℕ} (hn : i < n) :
    f n i = f (i + 1) i := by
  induction i using Nat.strongRecOn generalizing n with
  | ind i ih =>
    obtain ⟨n, rfl⟩ : ∃ m, n = m + 1 := ⟨n - 1, by omega⟩
    apply h i hi
    intro c hc
    have hsmall : c < N := Nat.lt_trans hc hi
    exact (ih c hc hsmall (by omega)).trans (ih c hc hsmall hc).symm

theorem Total.isSome (h : Total f N) {i : ℕ} (hi : i < N) {n : ℕ} (hn : i < n) : (f n i).isSome := by
  induction n generalizing i with
  | zero => exact absurd hn (Nat.not_lt_zero i)
  | succ n ih =>
    apply h i hi
    intro c hc
    exact ih (Nat.lt_trans hc hi) (by omega)

/-- With enough fuel there is one result. -/
theorem exists_result (hlocal : Local f N) (htotal : Total f N) {i : ℕ} (hi : i < N) :
    ∃ b, ∀ n > i, f n i = some b := by
  obtain ⟨b, hb⟩ := Option.isSome_iff_exists.1 (htotal.isSome hi (Nat.lt_succ_self i))
  exact ⟨b, fun n hn => (hlocal.stable hi hn).trans hb⟩

end IndexedRecursion
