import Mathlib.Algebra.Ring.Int.Defs
import Mathlib.Algebra.Ring.Nat
import Mathlib.Tactic.Common

/-! Computations with a state and errors, ordered by where they return: a larger one returns at
least where the smaller one does, and the same. -/

namespace Approximation

variable {ε σ α β : Type}

def Below (m m' : EStateM ε σ α) : Prop := ∀ s r s', m s = .ok r s' → m' s = .ok r s'

variable {m m' : EStateM ε σ α} {f f' : α → EStateM ε σ β}

theorem Below.refl (m : EStateM ε σ α) : Below m m := fun _ _ _ h => h

theorem Below.bind (h : Below m m') (hf : ∀ a, Below (f a) (f' a)) :
    Below (m >>= f) (m' >>= f') := by
  intro s r s' hrun
  simp only [Bind.bind, EStateM.bind] at hrun ⊢
  cases hm : m s with
  | error e s₁ =>
    rw [hm] at hrun
    cases hrun
  | ok a s₁ =>
    rw [hm] at hrun
    rw [h s a s₁ hm]
    exact hf a s₁ r s' hrun

/-- Behind the same computation. -/
theorem Below.after (m : EStateM ε σ α) (hf : ∀ a, Below (f a) (f' a)) :
    Below (m >>= f) (m >>= f') := (Below.refl m).bind hf

theorem Below.throw (e : ε) (m : EStateM ε σ α) : Below (throw e) m := by
  intro s r s' hrun
  cases hrun

end Approximation
