import OpticC.Frontend.IfMacros
import OpticC.Frontend.IfSteps

/-! Arithmetic overflow in `#if` lines. Sums, differences, products and shifts wrap; the
quotient of the least value by -1 does not, and neither does its negation in a build that checks
overflow. -/

namespace OpticC.Preprocessor

open Enumerators (UnaryOp BinaryOp)
open Scripts

section Overflow

variable {o : OverflowChecks} {env : IfEnv}

/-- The result of the step does not fit, in an operation that does not wrap. -/
def IfStep.Overflows (o : OverflowChecks) : IfStep → Prop
  | binary op l r => (op = .div ∨ op = .rem) ∧ l.eval = BitVec.intMin 64 ∧ r.eval = -1
  | minus e => o = .on ∧ e.eval = BitVec.intMin 64
  | expand _ _ _ => False

theorem divide_overflow_iff (x y : BitVec 64) (message : String) (quotient : BitVec 64) :
    divide x y message quotient = .error (.fault .overflow) ↔ x = BitVec.intMin 64 ∧ y = -1 := by
  unfold divide
  by_cases hzero : y = 0
  · rw [if_pos hzero]
    refine iff_of_false nofun fun h => ?_
    rw [hzero] at h
    exact absurd h.2 (by decide)
  · rw [if_neg hzero]
    by_cases hmin : x = BitVec.intMin 64 ∧ y = -1
    · simp [hmin]
    · simp

theorem ifOp_overflow_iff (op : BinaryOp) (x y : BitVec 64) :
    ifOp op x y = .error (.fault .overflow) ↔
      (op = .div ∨ op = .rem) ∧ x = BitVec.intMin 64 ∧ y = -1 := by
  cases op with
  | div => exact (divide_overflow_iff x y _ _).trans (by simp)
  | rem => exact (divide_overflow_iff x y _ _).trans (by simp)
  | add | sub | mul | eq | ne | lt | gt | le | ge | land | lor | and | or | xor | shl | shr =>
    simp [ifOp]

/-- An expansion runs out of fuel or lacks an argument, and nothing else. -/
theorem Invocation.expansion_error {i : Invocation} {e : Fault} (h : i.expansion env = .error e) :
    e = .outOfFuel ∨ e = .indexOutOfBounds := by
  cases i with
  | objectLike replacement => exact (expand_fault h).imp_right And.left
  | functionLike params isVariadic variadicParam args replacement =>
    rw [Invocation.expansion] at h
    cases hsub : expandFunctionMacroTokens env.chars params isVariadic variadicParam args
        replacement [] with
    | error f =>
      rw [hsub] at h
      cases h
      exact .inr ((expandFunctionMacroTokens_error_iff _ _ e).1 hsub).1
    | ok substituted =>
      rw [hsub] at h
      exact (expand_fault h).imp_right And.left

theorem IfStep.perform_overflow_iff (x : IfStep) :
    x.perform o env = .error (.fault .overflow) ↔ x.Overflows o := by
  cases x with
  | binary op l r => exact map_eq_error_iff.trans (ifOp_overflow_iff op _ _)
  | minus e =>
    refine map_eq_error_iff.trans ?_
    unfold negate IfStep.Overflows
    split_ifs with h <;> simp [h]
  | expand within name i =>
    refine iff_of_false (fun h => ?_) id
    rw [IfStep.perform] at h
    cases hexp : i.expansion env with
    | ok tokens =>
      rw [hexp] at h
      cases h
    | error e =>
      rw [hexp] at h
      rcases Invocation.expansion_error hexp with rfl | rfl <;> cases h

/-- The evaluation of a line does not overflow exactly if it comes to no division of the least
value by -1 and, where the build checks, to no minus in front of the least value. -/
theorem evalIfLineIn_overflow_iff (o : OverflowChecks) (env : IfEnv) (fuel : ℕ)
    (line : List PpToken) :
    evalIfLineIn o env fuel line ≠ .error (.fault .overflow) ↔
      ∀ x ∈ reached (IfStep.perform o env) (evalIfLineSteps env fuel line), ¬x.Overflows o := by
  rw [ne_eq, evalIfLineIn_error_iff, run_error_iff]
  constructor
  · intro h x hx hover
    exact h (.inl ⟨x, hx, x.perform_overflow_iff.2 hover⟩)
  · rintro h (⟨x, hx, herr⟩ | hend)
    · exact h x hx (x.perform_overflow_iff.1 herr)
    · cases (evalIfLineSteps_computes o env fuel line).fault _ hend

end Overflow

section Quotient

/-- `(1 << 63) / -1` -/
def leastByMinusOne : List PpToken :=
  [signPiece "(", numberPiece "1", signPiece "<<", numberPiece "63", signPiece ")", signPiece "/",
    signPiece "-", numberPiece "1"]

theorem not_evalIfLineIn_leastByMinusOne :
    ¬∀ (o : OverflowChecks) (env : IfEnv) (fuel : ℕ) (line : List PpToken),
      evalIfLineIn o env fuel line ≠ .error (.fault .overflow) := fun h =>
  h .off emptyEnv 4 leastByMinusOne rfl

/-- `-(1 << 63)` -/
example : evalIfLineIn .on emptyEnv 4 (leastByMinusOne[6] :: leastByMinusOne.take 5) =
    .error (.fault .overflow) := rfl

end Quotient

end OpticC.Preprocessor
