import OpticC.Backend.DeclaredTypes
import OpticC.Backend.LlvmInt

/-! Conversions of integers. A cast lowers its operand only; a store and a return extend by
the sign bit, an argument by zeros, whatever the type of the expression is. -/

namespace OpticC

/-- Where a value is converted to a declared type. -/
inductive ConversionContext where
  | cast
  /-- An assignment to an object that is declared so. -/
  | assign (form : DeclaredAs)
  | argument
  | return_
  deriving DecidableEq, Repr

namespace ConversionContext

/-- The width of the LLVM value behind the conversion, with `w` the one in front of it. -/
def width (d : DeclaredType) (w : ℕ) : ConversionContext → ℕ
  | cast => w
  | assign form => d.width form
  | argument => d.width .parameter
  | return_ => d.width .result

/-- What the emitted instructions make of the value of the expression. -/
def deliver (d : DeclaredType) (x : LlvmInt) : ConversionContext → LlvmInt
  | cast => x
  | assign form => x.intCast (d.width form) (d.width_pos form)
  | argument => x.zextOrTrunc (d.width .parameter) (d.width_pos .parameter)
  | return_ => x.intCast (d.width .result) (d.width_pos .result)

/-- The number that the target keeps the low bits of: an expression of the value `v` in `w`
bits, extended by the sign bit or by zeros. -/
def number (w : ℕ) (v : ℤ) : ConversionContext → ℤ
  | cast => v
  | assign _ => Int.bmod v (2 ^ w)
  | argument => v % 2 ^ w
  | return_ => Int.bmod v (2 ^ w)

end ConversionContext

open ConversionContext LlvmInt

/-- The context gives the object, parameter or result C's conversion of the value that `x`
stands for as an expression of the type `s`. -/
def Delivers (s : CIntType) (d : DeclaredType) (x : LlvmInt) (c : ConversionContext) : Prop :=
  (c.deliver d x).read d.type.signed = d.type.convert (x.read s.signed)

/-- C's value fits in the LLVM type of the target and is congruent to the extended one. -/
def ConversionFits (d : DeclaredType) (w : ℕ) (v : ℤ) (c : ConversionContext) : Prop :=
  InReach d.type.signed (c.width d w) (d.type.convert v) ∧
    c.number w v % 2 ^ c.width d w = d.type.convert v % 2 ^ c.width d w

instance (d : DeclaredType) (w : ℕ) (v : ℤ) (c : ConversionContext) :
    Decidable (ConversionFits d w v c) := by
  unfold ConversionFits
  infer_instance

theorem delivers_iff (s : CIntType) (d : DeclaredType) (x : LlvmInt) (c : ConversionContext) :
    Delivers s d x c ↔ ConversionFits d x.width (x.read s.signed) c := by
  unfold Delivers ConversionFits
  cases c with
  | cast =>
    have hx : ofInt x.width x.width_pos (x.read s.signed) = x := by
      obtain ⟨w, hw, bits⟩ := x
      unfold ofInt LlvmInt.read
      split_ifs
      · rw [BitVec.ofInt_toInt]
      · rw [BitVec.ofInt_natCast, BitVec.ofNat_toNat, BitVec.setWidth_eq]
    have h := @read_ofInt_iff d.type.signed _ x.width_pos (x.read s.signed)
      (d.type.convert (x.read s.signed))
    rwa [hx] at h
  | assign form =>
    simp only [deliver, number, ConversionContext.width, intCast_eq, read_ofInt_iff,
      toInt_eq_bmod s.signed x]
  | argument =>
    simp only [deliver, number, ConversionContext.width, zextOrTrunc_eq, read_ofInt_iff,
      toNat_eq_emod s.signed x]
  | return_ =>
    simp only [deliver, number, ConversionContext.width, intCast_eq, read_ofInt_iff,
      toInt_eq_bmod s.signed x]

section OwnWidth

/-! Where the LLVM type of the target has the width of its C type. -/

variable {d : DeclaredType} {t : IntType} {w : ℕ} {v : ℤ}

theorem inReach_convert (hwidth : 1 < t.width) (v : ℤ) :
    InReach t.signed t.width (t.convert v) := by
  have hpow := t.two_pow_width
  have hpos : (0 : ℤ) < 2 ^ t.width := Int.pow_pos (by decide)
  unfold InReach IntType.convert
  by_cases hs : t.signed = true
  · have h1 := Int.emod_nonneg (v + 2 ^ (t.width - 1)) (Int.ne_of_gt hpos)
    have h2 := Int.emod_lt_of_pos (v + 2 ^ (t.width - 1)) hpos
    rw [if_pos ⟨hs, by omega⟩, if_pos hs]
    omega
  · rw [if_neg (fun h => hs h.1), if_neg hs]
    exact ⟨Int.emod_nonneg _ (Int.ne_of_gt hpos), Int.emod_lt_of_pos _ hpos⟩

/-- Numbers that differ by `2 ^ w` are not congruent modulo a greater power. -/
theorem not_congruent_of_lt {w u : ℕ} (h : w < u) (v : ℤ) : (v + 2 ^ w) % 2 ^ u ≠ v % 2 ^ u := by
  intro heq
  have hlt : (2 : ℤ) ^ w < 2 ^ u := Int.pow_lt_pow_of_lt (by decide) h
  have hpos : (0 : ℤ) < 2 ^ w := Int.pow_pos (by decide)
  rw [Int.emod_eq_emod_iff_emod_sub_eq_zero, show v + 2 ^ w - v = 2 ^ w by omega,
    Int.emod_eq_of_lt (by omega) hlt] at heq
  omega

/-- Cut to fewer bits, it does not matter how a value was extended. -/
theorem emod_emod_of_le {w u : ℕ} (h : u ≤ w) (v : ℤ) : v % 2 ^ w % 2 ^ u = v % 2 ^ u :=
  Int.emod_emod_of_dvd v ⟨2 ^ (w - u), by rw [← Int.pow_add, Nat.add_sub_cancel' h]⟩

/-- An argument is converted as in C when it is cut, or not negative. -/
theorem conversionFits_argument_iff (ht : d.type = .int t) (hw : d.width .parameter = t.width)
    (hwidth : 1 < t.width) {signed : Bool} (hpos : 0 < w) (hv : InReach signed w v) :
    ConversionFits d w v .argument ↔ t.width ≤ w ∨ 0 ≤ v := by
  have hreach := inReach_convert hwidth v
  unfold ConversionFits
  simp only [ConversionContext.width, number, ht, hw, CIntType.signed, CIntType.convert, hreach,
    true_and, IntType.convert_emod]
  by_cases hle : t.width ≤ w
  · simp only [hle, true_or, iff_true]
    exact emod_emod_of_le hle v
  · simp only [hle, false_or]
    have hhalf := IntType.two_pow_width ⟨true, w, hpos⟩
    simp only at hhalf
    unfold InReach at hv
    rcases Int.lt_or_le v 0 with hneg | hneg
    · have hmod : v % 2 ^ w = v + 2 ^ w := by
        rw [← Int.add_mul_emod_self_left v (2 ^ w) 1, Int.mul_one]
        exact Int.emod_eq_of_lt (by split_ifs at hv <;> omega) (by omega)
      rw [hmod]
      exact iff_of_false (not_congruent_of_lt (by omega) v) (by omega)
    · have hlt : v < 2 ^ w := by split_ifs at hv <;> omega
      rw [Int.emod_eq_of_lt hneg hlt]
      exact iff_of_true rfl hneg

/-- An assigned value is converted as in C when it is cut, or its top bit is not set unless it
is negative. -/
theorem conversionFits_assign_iff {form : DeclaredAs} (ht : d.type = .int t)
    (hw : d.width form = t.width) (hwidth : 1 < t.width) {signed : Bool} (hpos : 0 < w)
    (hv : InReach signed w v) :
    ConversionFits d w v (.assign form) ↔ t.width ≤ w ∨ v < 2 ^ (w - 1) := by
  have hreach := inReach_convert hwidth v
  have hhalf := IntType.two_pow_width ⟨true, w, hpos⟩
  simp only at hhalf
  unfold ConversionFits
  simp only [ConversionContext.width, number, ht, hw, CIntType.signed, CIntType.convert, hreach,
    true_and, IntType.convert_emod]
  by_cases hle : t.width ≤ w
  · simp only [hle, true_or, iff_true]
    rw [← emod_emod_of_le hle (Int.bmod v (2 ^ w)), ← emod_emod_of_le hle v, ← cast_two_pow w,
      Int.bmod_emod]
  · simp only [hle, false_or]
    unfold InReach at hv
    rcases Int.lt_or_le v (2 ^ (w - 1)) with hlt | hlt
    · have hmod : Int.bmod v (2 ^ w) = v := by
        apply Int.bmod_eq_of_le_mul_two <;> rw [cast_two_pow] <;> split_ifs at hv <;> omega
      rw [hmod]
      exact iff_of_true rfl hlt
    · have hmod : Int.bmod v (2 ^ w) + 2 ^ w = v := by
        have hred : Int.bmod (v - 2 ^ w) (2 ^ w) = v - 2 ^ w := by
          apply Int.bmod_eq_of_le_mul_two <;> rw [cast_two_pow] <;> split_ifs at hv <;> omega
        have hsub : Int.bmod (v - 2 ^ w) (2 ^ w) = Int.bmod v (2 ^ w) := by
          rw [← cast_two_pow, Int.sub_eq_add_neg]
          exact Int.add_neg_bmod_self v (2 ^ w)
        omega
      have hne := not_congruent_of_lt (Nat.lt_of_not_le hle) (Int.bmod v (2 ^ w))
      rw [hmod] at hne
      exact iff_of_false hne.symm (by omega)

end OwnWidth

/-- A parameter of type `long`. -/
def longType : DeclaredType := ⟨[.long], .int ⟨true, 64, sixtyFour_pos⟩, by decide⟩

end OpticC
