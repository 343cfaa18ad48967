import Mathlib.Algebra.Ring.Int.Defs
import Mathlib.Algebra.Ring.Nat
import Mathlib.Data.Nat.Notation
import Mathlib.Data.Int.Notation
import Mathlib.Tactic.SplitIfs

/-! The integer types of C: their values and the conversion to them. -/

namespace OpticC

theorem eight_pos : 0 < 8 := by decide

theorem sixteen_pos : 0 < 16 := by decide

theorem thirtyTwo_pos : 0 < 32 := by decide

theorem sixtyFour_pos : 0 < 64 := by decide

/-- An integer type of C. -/
structure IntType where
  signed : Bool
  width : ℕ
  width_pos : 0 < width
  deriving DecidableEq

/-- The value of an integer converted to the type. -/
def IntType.convert (t : IntType) (v : ℤ) : ℤ :=
  if t.signed then (v + 2 ^ (t.width - 1)) % 2 ^ t.width - 2 ^ (t.width - 1) else v % 2 ^ t.width

/-- The values of the type. -/
def IntType.Holds (t : IntType) (v : ℤ) : Prop :=
  if t.signed then -2 ^ (t.width - 1) ≤ v ∧ v < 2 ^ (t.width - 1) else 0 ≤ v ∧ v < 2 ^ t.width

instance (t : IntType) (v : ℤ) : Decidable (t.Holds v) := by
  unfold IntType.Holds
  infer_instance

namespace IntType

theorem two_pow_width (t : IntType) :
    (2 : ℤ) ^ t.width = 2 ^ (t.width - 1) + 2 ^ (t.width - 1) := by
  have hsucc : t.width = t.width - 1 + 1 := (Nat.sub_add_cancel t.width_pos).symm
  have hpow : (2 : ℤ) ^ (t.width - 1 + 1) = 2 ^ (t.width - 1) * 2 := Int.pow_succ 2 _
  rw [← hsucc] at hpow
  omega

/-- Conversion keeps the values of the type. -/
theorem convert_of_holds {t : IntType} {v : ℤ} (hv : t.Holds v) : t.convert v = v := by
  have hpow := t.two_pow_width
  unfold Holds at hv
  unfold convert
  split_ifs at hv ⊢ with hs
  · rw [Int.emod_eq_of_lt (by omega) (by omega)]
    omega
  · exact Int.emod_eq_of_lt hv.1 hv.2

theorem convert_congr {t : IntType} {v w : ℤ} (h : v % 2 ^ t.width = w % 2 ^ t.width) :
    t.convert v = t.convert w := by
  unfold convert
  split_ifs
  · rw [Int.add_emod_eq_add_emod_right _ h]
  · exact h

theorem convert_emod (t : IntType) (v : ℤ) : t.convert v % 2 ^ t.width = v % 2 ^ t.width := by
  unfold convert
  split_ifs
  · rw [Int.sub_emod, Int.emod_emod_of_dvd _ (Int.dvd_refl _), ← Int.sub_emod, Int.add_sub_cancel]
  · exact Int.emod_emod_of_dvd v (Int.dvd_refl _)

/-- Two values of a type that are congruent are equal. -/
theorem eq_of_emod_eq {t : IntType} {v w : ℤ} (hv : t.Holds v) (hw : t.Holds w)
    (h : v % 2 ^ t.width = w % 2 ^ t.width) : v = w := by
  rw [← convert_of_holds hv, convert_congr h, convert_of_holds hw]

theorem Holds.between {t : IntType} {u v w : ℤ} (hu : t.Holds u) (hw : t.Holds w) (huv : u ≤ v)
    (hvw : v ≤ w) : t.Holds v := by
  unfold Holds at hu hw ⊢
  split_ifs at hu hw ⊢ <;> omega

/-- The values of `t` are values of `u`. -/
structure Embeds (t u : IntType) : Prop where
  width_le : t.width ≤ u.width
  holds : ∀ v, t.Holds v → u.Holds v

end IntType

end OpticC
