import OpticC.Backend.LlvmInt
import OpticC.Lib.ByteMemory
import Mathlib.Algebra.Order.Group.Nat

/-! `__builtin_add_overflow`, `__builtin_sub_overflow` and `__builtin_mul_overflow`: the
operation is done at the greater width of the two operands, stored as it is, and the flag is a
constant. -/

namespace OpticC.OverflowBuiltin

open ByteMemory

inductive Builtin where
  | add | sub | mul
  deriving DecidableEq, Repr

/-- The precise result. -/
def Builtin.result : Builtin → ℤ → ℤ → ℤ
  | add, a, b => a + b
  | sub, a, b => a - b
  | mul, a, b => a * b

/-- `build_int_add`, `build_int_sub` and `build_int_mul`. -/
def Builtin.build {w : ℕ} : Builtin → BitVec w → BitVec w → BitVec w
  | add, a, b => a + b
  | sub, a, b => a - b
  | mul, a, b => a * b

/-- A lowered argument. -/
inductive ArgValue where
  | int (x : LlvmInt)
  | pointer (address : ℕ)
  | float

/-- Coerce a and b to same width. -/
def coerce (a b : LlvmInt) : (w : ℕ) × BitVec w × BitVec w :=
  if h : a.width = b.width then ⟨b.width, a.bits.cast h, b.bits⟩
  else if a.width < b.width then ⟨b.width, a.bits.signExtend b.width, b.bits⟩
  else ⟨a.width, a.bits, b.bits.signExtend a.width⟩

theorem toInt_cast {v w : ℕ} (h : v = w) (x : BitVec v) : (x.cast h).toInt = x.toInt := by
  subst h
  rfl

/-- `build_store` of an integer. -/
def buildStore {w : ℕ} (m : Memory) (address : ℕ) (x : BitVec w) : Memory :=
  write m address (leBytes ((w + 7) / 8) x.toNat)

/-- The arm of `lower_builtin_call`: the value of the call and the memory behind it. -/
def lowerOverflowBuiltin (op : Builtin) (args : List ArgValue) (m : Memory) : BitVec 32 × Memory :=
  match args with
  | .int a :: .int b :: .pointer address :: _ =>
    let coerced := coerce a b
    (0, buildStore m address (op.build coerced.2.1 coerced.2.2))
  | _ => (0, m)

theorem coerce_spec (a b : LlvmInt) : (coerce a b).1 = max a.width b.width ∧
    (coerce a b).2.1.toInt = a.bits.toInt ∧ (coerce a b).2.2.toInt = b.bits.toInt := by
  by_cases heq : a.width = b.width
  · have hcoerce : coerce a b = ⟨b.width, a.bits.cast heq, b.bits⟩ := dif_pos heq
    rw [hcoerce]
    exact ⟨by dsimp only; omega, toInt_cast heq a.bits, rfl⟩
  · by_cases hlt : a.width < b.width
    · have hcoerce : coerce a b = ⟨b.width, a.bits.signExtend b.width, b.bits⟩ :=
        (dif_neg heq).trans (if_pos hlt)
      rw [hcoerce]
      exact ⟨(Nat.max_eq_right (Nat.le_of_lt hlt)).symm,
        BitVec.toInt_signExtend_of_le (Nat.le_of_lt hlt), rfl⟩
    · have hle : b.width ≤ a.width := Nat.le_of_not_lt hlt
      have hcoerce : coerce a b = ⟨a.width, a.bits, b.bits.signExtend a.width⟩ :=
        (dif_neg heq).trans (if_neg hlt)
      rw [hcoerce]
      exact ⟨(Nat.max_eq_left hle).symm, rfl, BitVec.toInt_signExtend_of_le hle⟩

/-- The operation is the precise one up to a multiple of `2 ^ w`. -/
theorem toNat_build (op : Builtin) {w : ℕ} (x y : BitVec w) :
    ((op.build x y).toNat : ℤ) = op.result x.toInt y.toInt % 2 ^ w := by
  have hmod : ∀ z : BitVec w, (z.toNat : ℤ) = z.toInt % 2 ^ w := by
    intro z
    have hlt := z.isLt
    have hpow := LlvmInt.cast_two_pow w
    rw [BitVec.toInt_eq_toNat_bmod, ← hpow, Int.bmod_emod, Int.emod_eq_of_lt (by omega) (by omega)]
  have hbmod : ∀ v : ℤ, Int.bmod v (2 ^ w) % 2 ^ w = v % 2 ^ w := by
    intro v
    rw [← LlvmInt.cast_two_pow, Int.bmod_emod]
  rw [hmod]
  cases op with
  | add => rw [Builtin.build, BitVec.toInt_add, hbmod, Builtin.result]
  | sub => rw [Builtin.build, BitVec.toInt_sub, hbmod, Builtin.result]
  | mul => rw [Builtin.build, BitVec.toInt_mul, hbmod, Builtin.result]

section Checked

/-- The type of `*res`; no pointer to `_Bool` is taken. -/
structure ResultType where
  signed : Bool
  bytes : ℕ
  bytes_pos : 0 < bytes

def ResultType.type (t : ResultType) : IntType :=
  ⟨t.signed, 8 * t.bytes, Nat.mul_pos (by decide) t.bytes_pos⟩

/-- An operand: its signedness in C and its LLVM value. -/
structure Operand where
  signed : Bool
  value : LlvmInt

def Operand.number (x : Operand) : ℤ := x.value.read x.signed

/-- The call stores the precise result reduced to the bytes of `*res`, and nothing else, and
yields whether it is not a value of the type, in any memory. -/
def Checked (op : Builtin) (a b : Operand) (t : ResultType) (address : ℕ) : Prop :=
  ∀ m, lowerOverflowBuiltin op [.int a.value, .int b.value, .pointer address] m =
    (if t.type.Holds (op.result a.number b.number) then 0 else 1,
      write m address
        (leBytes t.bytes (op.result a.number b.number % 2 ^ t.type.width).toNat))

/-- No overflow, the greater operand is as wide as `*res`, and the sign extension of the other
operand does not matter. -/
structure Fits (op : Builtin) (a b : Operand) (t : ResultType) : Prop where
  holds : t.type.Holds (op.result a.number b.number)
  bytes : (max a.value.width b.value.width + 7) / 8 = t.bytes
  congruent : op.result a.value.bits.toInt b.value.bits.toInt % 2 ^ max a.value.width b.value.width =
    op.result a.number b.number % 2 ^ t.type.width

/-- Stored bytes are those of the result when they are as many and stand for its residue. -/
theorem leBytes_eq_iff {w : ℕ} (stored : BitVec w) (v : ℤ) (t : ResultType) :
    leBytes ((w + 7) / 8) stored.toNat = leBytes t.bytes (v % 2 ^ t.type.width).toNat ↔
      (w + 7) / 8 = t.bytes ∧ (stored.toNat : ℤ) = v % 2 ^ t.type.width := by
  have hpow : (2 : ℤ) ^ t.type.width = ((256 ^ t.bytes : ℕ) : ℤ) := by
    rw [← LlvmInt.cast_two_pow, ResultType.type, Nat.pow_mul]
  have hpos : (0 : ℤ) < 2 ^ t.type.width := Int.pow_pos (by decide)
  have hnonneg := Int.emod_nonneg v (Int.ne_of_gt hpos)
  have hlt := Int.emod_lt_of_pos v hpos
  constructor
  · intro h
    have hbytes : (w + 7) / 8 = t.bytes := by simpa using congrArg List.length h
    refine ⟨hbytes, ?_⟩
    rw [hbytes, leBytes_inj] at h
    have hstored : stored.toNat < 256 ^ t.bytes := by
      refine Nat.lt_of_lt_of_le stored.isLt ?_
      rw [show 256 = 2 ^ 8 by rfl, ← Nat.pow_mul]
      exact Nat.pow_le_pow_right (by decide) (by omega)
    rw [Nat.mod_eq_of_lt hstored, Nat.mod_eq_of_lt (by omega)] at h
    omega
  · rintro ⟨hbytes, hstored⟩
    rw [hbytes, ← hstored, Int.toNat_natCast]

theorem stored_eq_iff (op : Builtin) (a b : Operand) (t : ResultType) :
    leBytes (((coerce a.value b.value).1 + 7) / 8)
        (op.build (coerce a.value b.value).2.1 (coerce a.value b.value).2.2).toNat =
      leBytes t.bytes (op.result a.number b.number % 2 ^ t.type.width).toNat ↔
    (max a.value.width b.value.width + 7) / 8 = t.bytes ∧
      op.result a.value.bits.toInt b.value.bits.toInt % 2 ^ max a.value.width b.value.width =
        op.result a.number b.number % 2 ^ t.type.width := by
  obtain ⟨hwidth, ha, hb⟩ := coerce_spec a.value b.value
  rw [leBytes_eq_iff, toNat_build, ha, hb, hwidth]

/-- Two `int`s and an `int`, without overflow. -/
example : Checked .sub ⟨true, ⟨32, by decide, 5⟩⟩ ⟨true, ⟨32, by decide, 7⟩⟩
    ⟨true, 4, by decide⟩ 0 :=
  fun _ => rfl

end Checked

end OpticC.OverflowBuiltin
