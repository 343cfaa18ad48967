import OpticC.IntType
import Mathlib.Data.Int.Notation

/-! LLVM integers: a width and its bits. Read as a value of a C type, an `i1` is 0 or 1 and
any other width is taken as the signedness of the type says. -/

namespace OpticC

structure LlvmInt where
  width : ℕ
  width_pos : 0 < width
  bits : BitVec width

/-- The numbers that `width` bits can stand for. -/
def InReach (signed : Bool) (width : ℕ) (v : ℤ) : Prop :=
  if signed ∧ width ≠ 1 then -2 ^ (width - 1) ≤ v ∧ v < 2 ^ (width - 1)
  else 0 ≤ v ∧ v < 2 ^ width

instance (signed : Bool) (width : ℕ) (v : ℤ) : Decidable (InReach signed width v) := by
  unfold InReach
  infer_instance

namespace LlvmInt

def ofInt (width : ℕ) (h : 0 < width) (z : ℤ) : LlvmInt := ⟨width, h, BitVec.ofInt width z⟩

/-- The number that the value stands for in C. -/
def read (signed : Bool) (x : LlvmInt) : ℤ :=
  if signed ∧ x.width ≠ 1 then x.bits.toInt else x.bits.toNat

/-- `LLVMBuildIntCast`, which is signed. -/
def intCast (x : LlvmInt) (width : ℕ) (h : 0 < width) : LlvmInt :=
  if x.width < width then ⟨width, h, x.bits.signExtend width⟩ else ⟨width, h, x.bits.setWidth width⟩

/-- `zext` or `trunc`. -/
def zextOrTrunc (x : LlvmInt) (width : ℕ) (h : 0 < width) : LlvmInt := ⟨width, h, x.bits.setWidth width⟩

theorem intCast_eq (x : LlvmInt) (width : ℕ) (h : 0 < width) :
    x.intCast width h = ofInt width h x.bits.toInt := by
  unfold intCast
  split
  · rfl
  · rename_i hw
    rw [← BitVec.signExtend_eq_setWidth_of_le _ (Nat.le_of_not_lt hw)]
    rfl

theorem zextOrTrunc_eq (x : LlvmInt) (width : ℕ) (h : 0 < width) :
    x.zextOrTrunc width h = ofInt width h x.bits.toNat := by
  unfold zextOrTrunc ofInt
  rw [BitVec.ofInt_natCast, BitVec.ofNat_toNat]

theorem cast_two_pow (n : ℕ) : ((2 ^ n : ℕ) : ℤ) = 2 ^ n := Int.natCast_pow 2 n

theorem inReach_read (signed : Bool) (x : LlvmInt) : InReach signed x.width (x.read signed) := by
  have hlt := x.bits.isLt
  have hpow := cast_two_pow x.width
  unfold InReach read
  split_ifs with hs
  · exact ⟨BitVec.le_toInt x.bits, BitVec.toInt_lt⟩
  · omega

theorem read_of_nonneg {signed : Bool} {x : LlvmInt} (h : 0 ≤ x.read signed) :
    x.read signed = x.bits.toNat := by
  unfold read at h ⊢
  have hlt := x.bits.isLt
  have hcond := BitVec.toInt_eq_toNat_cond x.bits
  split_ifs at h hcond ⊢ <;> omega

/-- The bits as a number, whatever the signedness, up to a multiple of `2 ^ width`. -/
theorem read_emod (signed : Bool) (x : LlvmInt) :
    x.read signed % 2 ^ x.width = x.bits.toNat % 2 ^ x.width := by
  unfold read
  split_ifs with hs
  · rw [BitVec.toInt_eq_toNat_bmod, ← cast_two_pow, Int.bmod_emod]
  · rfl

/-- Numbers in reach are determined by their residue. -/
theorem eq_of_emod {signed : Bool} {width : ℕ} (h : 0 < width) {v w : ℤ}
    (hv : InReach signed width v) (hw : InReach signed width w)
    (hvw : v % 2 ^ width = w % 2 ^ width) : v = w := by
  have hpow := IntType.two_pow_width ⟨signed, width, h⟩
  simp only at hpow
  unfold InReach at hv hw
  split_ifs at hv hw with hs
  · have hshift : (v + 2 ^ (width - 1)) % 2 ^ width = (w + 2 ^ (width - 1)) % 2 ^ width :=
      Int.add_emod_eq_add_emod_right _ hvw
    rw [Int.emod_eq_of_lt (by omega) (by omega), Int.emod_eq_of_lt (by omega) (by omega)] at hshift
    omega
  · rwa [Int.emod_eq_of_lt hv.1 hv.2, Int.emod_eq_of_lt hw.1 hw.2] at hvw

theorem toNat_ofInt_emod (width : ℕ) (z : ℤ) :
    ((BitVec.ofInt width z).toNat : ℤ) % 2 ^ width = z % 2 ^ width := by
  have hpos : (0 : ℤ) < 2 ^ width := Int.pow_pos (by decide)
  rw [BitVec.toNat_ofInt, cast_two_pow, Int.toNat_of_nonneg (Int.emod_nonneg _ (by omega)),
    Int.emod_emod_of_dvd _ (Int.dvd_refl _)]

/-- An LLVM integer made from `z` stands for `v` when `v` is in reach and congruent to `z`. -/
theorem read_ofInt_iff {signed : Bool} {width : ℕ} (h : 0 < width) (z v : ℤ) :
    (ofInt width h z).read signed = v ↔ InReach signed width v ∧ z % 2 ^ width = v % 2 ^ width := by
  have hread := read_emod signed (ofInt width h z)
  have hz := toNat_ofInt_emod width z
  have hreach := inReach_read signed (ofInt width h z)
  constructor
  · rintro rfl
    exact ⟨hreach, (hread.trans hz).symm⟩
  · rintro ⟨hv, hzv⟩
    exact eq_of_emod h hreach hv ((hread.trans hz).trans hzv)

/-- The signed number of the bits, from the number that the value stands for. -/
theorem toInt_eq_bmod (signed : Bool) (x : LlvmInt) :
    x.bits.toInt = Int.bmod (x.read signed) (2 ^ x.width) := by
  have h := read_emod signed x
  rw [BitVec.toInt_eq_toNat_bmod, ← Int.emod_bmod, ← Int.emod_bmod (x.read signed), cast_two_pow, h]

/-- The unsigned number of the bits. -/
theorem toNat_eq_emod (signed : Bool) (x : LlvmInt) :
    (x.bits.toNat : ℤ) = x.read signed % 2 ^ x.width := by
  have hlt := x.bits.isLt
  have hpow := cast_two_pow x.width
  rw [read_emod, Int.emod_eq_of_lt (by omega) (by omega)]

end LlvmInt

end OpticC
