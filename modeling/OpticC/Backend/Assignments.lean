import OpticC.Backend.IntegerExpressions
import OpticC.Backend.OverflowBuiltins

/-! Assignments to variables, elements and members: what the emitted instructions do to the bytes
of memory. A bit-field is announced by a flag, which `lower_member_access_ptr` sets beside the
pointer to its storage unit and the reader or writer takes. -/

namespace OpticC.Assignment

open ByteMemory IntegerExpr
open OverflowBuiltin (buildStore)

/-- The types of what is loaded and stored. -/
inductive AccessType where
  | int (width : ℕ) (width_pos : 0 < width)
  | ptr

inductive Value where
  | int (x : LlvmInt)
  | ptr (address : BitVec 64)

/-- No code is emitted, or the emitted code is undefined. -/
inductive Failure where
  | refused
  | undefined
  deriving DecidableEq, Repr

structure State where
  memory : Memory
  lastBitfieldAccess : Option (ℕ × ℕ)

/-- What an expression does when it is run. -/
abbrev Run := State → Except Failure (Value × State)

section Memories

/-- `build_load` of an integer. -/
def buildLoad (w : ℕ) (m : Memory) (address : ℕ) : BitVec w :=
  BitVec.ofNat w (u32Value (read m address ((w + 7) / 8)))

def load (m : Memory) (address : ℕ) : AccessType → Value
  | .int w h => .int ⟨w, h, buildLoad w m address⟩
  | .ptr => .ptr (buildLoad 64 m address)

def store (m : Memory) (address : ℕ) : Value → Memory
  | .int x => buildStore m address x.bits
  | .ptr a => buildStore m address a

/-- A stored integer is loaded again. -/
theorem buildLoad_buildStore {w : ℕ} (m : Memory) (address : ℕ) (x : BitVec w) :
    buildLoad w (buildStore m address x) address = x := by
  have hlength := leBytes_length ((w + 7) / 8) x.toNat
  have hread := read_write m address (leBytes ((w + 7) / 8) x.toNat)
  rw [hlength] at hread
  have hpow : 2 ^ w ≤ 256 ^ ((w + 7) / 8) := by
    rw [show 256 = 2 ^ 8 from rfl, ← Nat.pow_mul]
    exact Nat.pow_le_pow_right (by decide) (by omega)
  have hlt : x.toNat < 256 ^ ((w + 7) / 8) := Nat.lt_of_lt_of_le x.isLt hpow
  rw [buildLoad, buildStore, hread, u32Value_leBytes, Nat.mod_eq_of_lt hlt, BitVec.ofNat_toNat,
    BitVec.setWidth_eq]

end Memories

section Operators

def int64 (b : BitVec 64) : LlvmInt := ⟨64, sixtyFour_pos, b⟩

/-- A division without a value: by zero, or of the least number by -1. -/
def divides (o : Operands) : Bool :=
  !(o.rhs.toInt == 0 || o.lhs.toInt == -2 ^ (o.width - 1) && o.rhs.toInt == -1)

/-- The last `match` of `apply_assignment_op`. -/
def assignInt (opCode : ℕ) (lhs rhs : LlvmInt) : Except Failure Value :=
  let o := coerce lhs rhs
  let result (x : BitVec o.width) : Except Failure Value := .ok (.int ⟨o.width, o.width_pos, x⟩)
  match opCode with
  | 1 => result (o.lhs + o.rhs)
  | 2 => result (o.lhs - o.rhs)
  | 3 => result (o.lhs * o.rhs)
  | 4 => if divides o then result (o.lhs.sdiv o.rhs) else .error .undefined
  | 5 => if divides o then result (o.lhs.srem o.rhs) else .error .undefined
  | 14 => result (o.lhs &&& o.rhs)
  | 15 => result (o.lhs ||| o.rhs)
  | 16 => result (o.lhs ^^^ o.rhs)
  | 17 => if o.rhs.toNat < o.width then result (o.lhs <<< o.rhs.toNat) else .error .undefined
  | 18 => if o.rhs.toNat < o.width then result (o.lhs >>> o.rhs.toNat) else .error .undefined
  | _ => .error .refused

/-- `apply_assignment_op`. The index of `getelementptr` is signed, and the element is a byte. -/
def applyAssignmentOp (opCode : ℕ) (lhs rhs : Value) : Except Failure Value :=
  if opCode = 19 then .ok rhs
  else match lhs, rhs with
    | .ptr p, .int x =>
      if opCode = 1 then .ok (.ptr (p + x.bits.signExtend 64))
      else if opCode = 2 then .ok (.ptr (p + (-x.bits).signExtend 64))
      else assignInt opCode (int64 p) x
    | .ptr p, .ptr q =>
      if opCode = 1 ∨ opCode = 2 then .ok (.int (int64 (p - q)))
      else assignInt opCode (int64 p) (int64 q)
    | .int x, .ptr q => assignInt opCode x (int64 q)
    | .int x, .int y => assignInt opCode x y

/-- `ptrtoint`, or the extension to 64 bits by zeros. -/
def toInt64 : Value → BitVec 64
  | .int x => x.bits.setWidth 64
  | .ptr p => p

/-- `lower_binop` on two values. -/
def lowerBinop (data : ℕ) (lhs rhs : Value) : Except Failure Value :=
  match lhs, rhs with
  | .int x, .int y =>
    if 1 ≤ data ∧ data ≤ 19 then
      match IntegerExpr.lowerBinop data (coerce x y) with
      | some z => .ok (.int z)
      | none => .error .undefined
    else .error .refused
  | a, b =>
    let l := toInt64 a
    let r := toInt64 b
    match data with
    | 1 => .ok (.int (int64 (l + r)))
    | 2 => .ok (.int (int64 (l - r)))
    | 6 => .ok (.int (icmp (l == r)))
    | 7 => .ok (.int (icmp (l != r)))
    | 8 => .ok (.int (icmp (l.ult r)))
    | 9 => .ok (.int (icmp (r.ult l)))
    | 10 => .ok (.int (icmp (l.ule r)))
    | 11 => .ok (.int (icmp (r.ule l)))
    | _ => .error .refused

end Operators

section Lvalues

inductive LvalueKind where
  | ident | element | member
  deriving DecidableEq, Repr

/-- An lvalue without side effects: where its pointer points in a memory, the type that goes with
the pointer, and what is left in the flag. -/
structure Lvalue where
  kind : LvalueKind
  address : Memory → ℕ
  type : AccessType
  bitfield : Option (ℕ × ℕ)
  bitfield_member : bitfield ≠ none → kind = .member ∧ ∃ w h, type = .int w h

def lowerLvaluePtr (a : Lvalue) (s : State) : ℕ × State :=
  (a.address s.memory, { s with lastBitfieldAccess := a.bitfield })

/-- `self.last_bitfield_access.take()` -/
def takeBitfield (s : State) : Option (ℕ × ℕ) × State :=
  (s.lastBitfieldAccess, { s with lastBitfieldAccess := none })

/-- `(1u64 << bit_width) - 1`; a shift by 64 wraps around. -/
def fieldMask (bitWidth : ℕ) : BitVec 64 := (1#64 <<< (bitWidth % 64)) - 1

/-- The field in a storage unit: no bit of it is taken for a sign. -/
def readField {w : ℕ} (unit : BitVec w) (field : ℕ × ℕ) : BitVec w :=
  (if field.1 > 0 then unit >>> field.1 else unit) &&& (fieldMask field.2).setWidth w

/-- The bits that are put into the field. -/
def maskedNew {w : ℕ} (new : BitVec w) (field : ℕ × ℕ) : BitVec w :=
  new &&& (fieldMask field.2).setWidth w

/-- The storage unit with a new field. -/
def insertField {w : ℕ} (unit new : BitVec w) (field : ℕ × ℕ) : BitVec w :=
  let positionedMask := fieldMask field.2 <<< (field.1 % 64)
  let cleared := unit &&& (~~~positionedMask).setWidth w
  let masked := maskedNew new field
  cleared ||| (if field.1 > 0 then masked <<< field.1 else masked)

/-- `zext_or_bit_cast` to the type of the unit: a wider value has no such conversion. -/
def toUnit (w : ℕ) : Value → Except Failure (BitVec w)
  | .int x => if x.width ≤ w then .ok (x.bits.setWidth w) else .error .refused
  | .ptr _ => .ok 0

/-- `lower_ident`, `lower_array_index` or `lower_member_access`. -/
def readLvalue (a : Lvalue) (s : State) : Except Failure (Value × State) :=
  match a.kind with
  | .ident => .ok (load s.memory (a.address s.memory) a.type, s)
  | .element => .ok (load s.memory (a.address s.memory) a.type, { s with lastBitfieldAccess := a.bitfield })
  | .member =>
    let (address, s) := lowerLvaluePtr a s
    let (bitfield, s) := takeBitfield s
    match bitfield, a.type with
    | some field, .int w h =>
      .ok (.int ⟨w, h, readField (buildLoad w s.memory address) field⟩, s)
    | some _, .ptr => .error .refused
    | none, type => .ok (load s.memory address type, s)

/-- The conversion in front of the store. -/
def convertFor : AccessType → Value → Value
  | .int w h, .int x => .int (x.intCast w h)
  | .ptr, .int x => .ptr (x.bits.setWidth 64)
  | _, v => v

def typesCompatible : AccessType → Value → Bool
  | .int _ _, .int _ | .ptr, .ptr _ => true
  | _, _ => false

/-- The right side of `=`, or what a compound operator makes of it and the current value. -/
def newValue (data : ℕ) (current rhs : Value) : Except Failure Value :=
  if data = 19 then .ok rhs else applyAssignmentOp data current rhs

/-- The store behind `value_to_store`, and the load of the result. -/
def storeValue (address : ℕ) (type : AccessType) (m : Memory) (v : Value) : Value × Memory :=
  let value := convertFor type v
  let m := if typesCompatible type value then store m address value else m
  (load m address type, m)

/-- `lower_assign_expr`; the right side is run first. -/
def lowerAssignExpr (data : ℕ) (a : Lvalue) (rhs : Run) : Run := fun s => do
  let (rhsVal, s) ← rhs s
  let (address, s) := lowerLvaluePtr a s
  let (bitfield, s) := takeBitfield s
  match bitfield, a.type with
  | some field, .int w h =>
    let unit := buildLoad w s.memory address
    let newVal ← newValue data (.int ⟨w, h, readField unit field⟩) rhsVal
    let new ← toUnit w newVal
    .ok (.int ⟨w, h, maskedNew new field⟩,
      { s with memory := buildStore s.memory address (insertField unit new field) })
  | some _, .ptr => .error .refused
  | none, type =>
    let value ← newValue data (load s.memory address type) rhsVal
    let (result, memory) := storeValue address type s.memory value
    .ok (result, { s with memory })

/-- `++` and `--` in `lower_unop`; a pointer that is no variable moves by a byte. The flag stays. -/
def lowerIncDec (data : ℕ) (a : Lvalue) : Run := fun s =>
  let (address, s) := lowerLvaluePtr a s
  let updated : Value :=
    match load s.memory address a.type with
    | .int x => .int ⟨x.width, x.width_pos, if data = 6 then x.bits + 1 else x.bits - 1⟩
    | .ptr p => .ptr (if data = 6 then p + 1 else p - 1)
  .ok (updated, { s with memory := store s.memory address updated })

end Lvalues

section Masks

variable {w : ℕ} {field : ℕ × ℕ}

theorem getLsbD_fieldMask {bw : ℕ} (hbw : bw < 64) (i : ℕ) :
    (fieldMask bw).getLsbD i = decide (i < bw) := by
  have hpow : 2 ^ bw < 2 ^ 64 := Nat.pow_lt_pow_right (by decide) hbw
  have hone : 0 < 2 ^ bw := Nat.two_pow_pos bw
  have hshift : (1#64 <<< bw).toNat = 2 ^ bw := by
    rw [BitVec.toNat_shiftLeft, BitVec.toNat_ofNat, Nat.mod_eq_of_lt (show 1 < 2 ^ 64 by decide),
      Nat.shiftLeft_eq, Nat.one_mul, Nat.mod_eq_of_lt hpow]
  have hnat : (fieldMask bw).toNat = 2 ^ bw - 1 := by
    have h1 : (1 : BitVec 64).toNat = 1 := rfl
    rw [fieldMask, Nat.mod_eq_of_lt hbw, BitVec.toNat_sub, hshift, h1]
    omega
  rw [← BitVec.testBit_toNat, hnat, Nat.testBit_two_pow_sub_one]

/-- The field lies in a unit of at most 64 bits, and its mask is no shift by 64. -/
structure FieldFits (w : ℕ) (field : ℕ × ℕ) : Prop where
  unit : w ≤ 64
  pos : 0 < field.2
  le : field.1 + field.2 ≤ w
  lt : field.2 < 64

theorem getLsbD_maskedNew (h : FieldFits w field) (new : BitVec w) (i : ℕ) :
    (maskedNew new field).getLsbD i = (decide (i < field.2) && new.getLsbD i) := by
  have hle := h.le
  rw [maskedNew, BitVec.getLsbD_and, BitVec.getLsbD_setWidth, getLsbD_fieldMask h.lt]
  by_cases hi : i < w
  · simp [hi, Bool.and_comm]
  · simp [hi, BitVec.getLsbD_of_ge new i (by omega)]

theorem readField_eq (h : FieldFits w field) (unit : BitVec w) :
    readField unit field = (unit.extractLsb' field.1 field.2).setWidth w := by
  have hle := h.le
  have hshift : (if field.1 > 0 then unit >>> field.1 else unit) = unit >>> field.1 := by
    split
    · rfl
    · have hzero : field.1 = 0 := by omega
      rw [hzero, BitVec.ushiftRight_zero]
  apply BitVec.eq_of_getLsbD_eq
  intro i hi
  have hmask := getLsbD_maskedNew h (unit >>> field.1) i
  rw [readField, hshift]
  rw [maskedNew] at hmask
  rw [hmask, BitVec.getLsbD_setWidth, BitVec.getLsbD_extractLsb', BitVec.getLsbD_ushiftRight]
  simp [hi]

/-- The bits of the unit with a new field. -/
theorem getLsbD_insertField (h : FieldFits w field) (unit new : BitVec w) (i : ℕ) :
    (insertField unit new field).getLsbD i =
      if field.1 ≤ i ∧ i < field.1 + field.2 then new.getLsbD (i - field.1)
      else unit.getLsbD i := by
  have hle := h.le
  have hunit := h.unit
  have hpos := h.pos
  have hlt := h.lt
  have hmod : field.1 % 64 = field.1 := Nat.mod_eq_of_lt (by omega)
  have hshift : (if field.1 > 0 then maskedNew new field <<< field.1 else maskedNew new field) =
      maskedNew new field <<< field.1 := by
    split
    · rfl
    · have hzero : field.1 = 0 := by omega
      rw [hzero, BitVec.shiftLeft_zero]
  unfold insertField
  simp only [hshift, hmod, BitVec.getLsbD_or, BitVec.getLsbD_and, BitVec.getLsbD_setWidth,
    BitVec.getLsbD_not, BitVec.getLsbD_shiftLeft, getLsbD_fieldMask hlt, getLsbD_maskedNew h]
  by_cases hi : i < w
  · by_cases hin : field.1 ≤ i ∧ i < field.1 + field.2
    · have h1 : ¬i < field.1 := by omega
      have h2 : i - field.1 < field.2 := by omega
      have h3 : i < 64 := by omega
      simp [hi, hin, h1, h2, h3]
    · by_cases h1 : i < field.1
      · have h3 : i < 64 := by omega
        simp [hi, hin, h1, h3]
      · have h2 : ¬i - field.1 < field.2 := by omega
        have h3 : i < 64 := by omega
        simp [hi, hin, h1, h2, h3]
  · have hnew : unit.getLsbD i = false := BitVec.getLsbD_of_ge unit i (by omega)
    rw [if_neg (by omega), hnew]
    simp [hi]

/-- The new field is read from the unit. -/
theorem extract_insertField (h : FieldFits w field) (unit new : BitVec w) :
    (insertField unit new field).extractLsb' field.1 field.2 = new.setWidth field.2 := by
  apply BitVec.eq_of_getLsbD_eq
  intro i hi
  rw [BitVec.getLsbD_extractLsb', getLsbD_insertField h, BitVec.getLsbD_setWidth,
    if_pos ⟨by omega, by omega⟩, Nat.add_sub_cancel_left]

/-- A field beside the new one keeps its bits. -/
theorem extract_insertField_other (h : FieldFits w field) (unit new : BitVec w) {other : ℕ × ℕ}
    (hother : other.1 + other.2 ≤ field.1 ∨ field.1 + field.2 ≤ other.1) :
    (insertField unit new field).extractLsb' other.1 other.2 =
      unit.extractLsb' other.1 other.2 := by
  apply BitVec.eq_of_getLsbD_eq
  intro i hi
  rw [BitVec.getLsbD_extractLsb', BitVec.getLsbD_extractLsb', getLsbD_insertField h,
    if_neg (by omega)]

end Masks

end OpticC.Assignment
