import OpticC.Backend.Conversions
import OpticC.Frontend.Enumerators

/-! Integer expressions. C reads the operands at their types, promotes them and converts them
to a common type; the lowering knows the widths of the two LLVM operands and takes both as
signed. -/

namespace OpticC.IntegerExpr

open Enumerators LlvmInt

/-- The binary operators without side effects and without `&&` and `||`. -/
inductive Operator where
  | add | sub | mul | div | rem | eq | ne | lt | gt | le | ge | and | or | xor | shl | shr
  deriving DecidableEq, Repr

namespace Operator

/-- `node.data` of the operator. -/
def data : Operator → ℕ
  | add => 1
  | sub => 2
  | mul => 3
  | div => 4
  | rem => 5
  | eq => 6
  | ne => 7
  | lt => 8
  | gt => 9
  | le => 10
  | ge => 11
  | and => 14
  | or => 15
  | xor => 16
  | shl => 17
  | shr => 18

def meaning : Operator → BinaryOp
  | add => .add
  | sub => .sub
  | mul => .mul
  | div => .div
  | rem => .rem
  | eq => .eq
  | ne => .ne
  | lt => .lt
  | gt => .gt
  | le => .le
  | ge => .ge
  | and => .and
  | or => .or
  | xor => .xor
  | shl => .shl
  | shr => .shr

def isComparison : Operator → Bool
  | eq | ne | lt | gt | le | ge => true
  | _ => false

end Operator

/-- `node.data` of a unary operator. -/
def unaryData : UnaryOp → ℕ
  | .plus => 0
  | .minus => 1
  | .not => 2
  | .bitNot => 3

/-- A constant has the data of its node and its value in C. -/
inductive IntExpr where
  | object (name : String)
  | intConst (data : ℕ) (value : ℤ)
  | charConst (data : ℕ) (value : ℤ)
  | unary (op : UnaryOp) (e : IntExpr)
  | binary (op : Operator) (l r : IntExpr)

theorem cType_int : OpticC.cType [.int] = some (.int int) := by decide

theorem block_ne_result : DeclaredAs.block ≠ .result := by decide

/-- A declared object of an integer type and its value. -/
structure Object where
  specs : List TypeSpecifier
  type : IntType
  named : OpticC.cType specs = some (.int type)
  form : DeclaredAs
  form_ne : form ≠ .result
  value : ℤ
  holds : type.Holds value

abbrev Store := String → Object

section Instructions

/-- Two operands of one width. -/
structure Operands where
  width : ℕ
  width_pos : 0 < width
  lhs : BitVec width
  rhs : BitVec width

/-- The narrower operand is extended by its sign. -/
def coerce (l r : LlvmInt) : Operands :=
  if h : l.width = r.width then ⟨r.width, r.width_pos, l.bits.cast h, r.bits⟩
  else if l.width < r.width then ⟨r.width, r.width_pos, l.bits.signExtend r.width, r.bits⟩
  else ⟨l.width, l.width_pos, l.bits, r.bits.signExtend l.width⟩

/-- An `i1`. -/
def icmp (b : Bool) : LlvmInt := ⟨1, by decide, BitVec.ofBool b⟩

/-- The integer arm of `lower_binop`, by `node.data`; `none` when there is no such operator,
the instruction is undefined or its result poison. -/
def lowerBinop (data : ℕ) (o : Operands) : Option LlvmInt :=
  match data with
  | 1 => some ⟨o.width, o.width_pos, o.lhs + o.rhs⟩
  | 2 => some ⟨o.width, o.width_pos, o.lhs - o.rhs⟩
  | 3 => some ⟨o.width, o.width_pos, o.lhs * o.rhs⟩
  | 4 =>
    if o.rhs.toInt = 0 ∨ (o.lhs.toInt = -2 ^ (o.width - 1) ∧ o.rhs.toInt = -1) then none
    else some ⟨o.width, o.width_pos, o.lhs.sdiv o.rhs⟩
  | 5 =>
    if o.rhs.toInt = 0 ∨ (o.lhs.toInt = -2 ^ (o.width - 1) ∧ o.rhs.toInt = -1) then none
    else some ⟨o.width, o.width_pos, o.lhs.srem o.rhs⟩
  | 6 => some (icmp (o.lhs == o.rhs))
  | 7 => some (icmp (o.lhs != o.rhs))
  | 8 => some (icmp (o.lhs.slt o.rhs))
  | 9 => some (icmp (o.rhs.slt o.lhs))
  | 10 => some (icmp (o.lhs.sle o.rhs))
  | 11 => some (icmp (o.rhs.sle o.lhs))
  | 12 | 14 => some ⟨o.width, o.width_pos, o.lhs &&& o.rhs⟩
  | 13 | 15 => some ⟨o.width, o.width_pos, o.lhs ||| o.rhs⟩
  | 16 => some ⟨o.width, o.width_pos, o.lhs ^^^ o.rhs⟩
  | 17 =>
    if o.rhs.toNat < o.width then some ⟨o.width, o.width_pos, o.lhs <<< o.rhs.toNat⟩ else none
  -- the shift is logical
  | 18 =>
    if o.rhs.toNat < o.width then some ⟨o.width, o.width_pos, o.lhs >>> o.rhs.toNat⟩ else none
  | 19 => some ⟨o.width, o.width_pos, o.rhs⟩
  | _ => none

/-- `lower_unop` on an integer, for the operators that do not take an address. -/
def lowerUnop (data : ℕ) (x : LlvmInt) : Option LlvmInt :=
  match data with
  | 1 => some ⟨x.width, x.width_pos, -x.bits⟩
  | 2 => some (icmp (x.bits == 0))
  | 3 => some ⟨x.width, x.width_pos, ~~~x.bits⟩
  -- an integer is not dereferenced
  | 5 => some x
  | _ => none

end Instructions

variable (store : Store)

/-- `lower_expr`. An object of the LLVM width holds the value as far as it has bits for it. -/
def lowerExpr : IntExpr → Option LlvmInt
  | .object name =>
    let o := store name
    some (ofInt (llvmWidth o.form o.specs) (llvmWidth_pos o.form o.specs) o.value)
  | .intConst data _ => some (ofInt 32 thirtyTwo_pos data)
  | .charConst data _ => some (ofInt 8 eight_pos data)
  | .unary op e => (lowerExpr e).bind (lowerUnop (unaryData op))
  | .binary op l r =>
    (lowerExpr l).bind fun x => (lowerExpr r).bind fun y => lowerBinop op.data (coerce x y)

/-- The value in C, at the type of the expression. -/
def cValue : IntExpr → Option CValue
  | .object name => some ⟨(store name).type, (store name).value⟩
  | .intConst _ value | .charConst _ value =>
    if int.Holds value then some ⟨int, value⟩ else none
  | .unary op e => (cValue e).bind (cUnary op)
  | .binary op l r => (cValue l).bind fun a => (cValue r).bind (cBinary op.meaning a)

def subexpressions : IntExpr → List IntExpr
  | .unary op e => .unary op e :: subexpressions e
  | .binary op l r => .binary op l r :: (subexpressions l ++ subexpressions r)
  | e => [e]

/-- Where C defines a value, the emitted instructions compute it. -/
def ValueRight (e : IntExpr) : Prop :=
  ∀ c, cValue store e = some c → ∃ x, lowerExpr store e = some x ∧ x.read c.type.signed = c.value

/-- An expression has C's value, in all its parts. -/
def LowersRight (e : IntExpr) : Prop := ∀ e' ∈ subexpressions e, ValueRight store e'

section Condition

/-- The width of the LLVM value. -/
def width : IntExpr → ℕ
  | .object name => llvmWidth (store name).form (store name).specs
  | .intConst _ _ => 32
  | .charConst _ _ => 8
  | .unary op e => if op = .not then 1 else width e
  | .binary op l r => if op.isComparison then 1 else max (width l) (width r)

/-- The number that the instruction for the operator makes of a signed one. There is no
instruction for the unary `+`. -/
def unaryNumber (op : UnaryOp) (x : ℤ) : Option ℤ :=
  match op with
  | .plus => none
  | .minus => some (-x)
  | .not => some (boolValue (x = 0))
  | .bitNot => some (-x - 1)

/-- The number that the instruction for the operator makes of two signed ones of the width. -/
def binaryNumber (op : Operator) (w : ℕ) (x y : ℤ) : Option ℤ :=
  match op with
  | .add => some (x + y)
  | .sub => some (x - y)
  | .mul => some (x * y)
  | .div => if y = 0 ∨ (x = -2 ^ (w - 1) ∧ y = -1) then none else some (x.tdiv y)
  | .rem => if y = 0 ∨ (x = -2 ^ (w - 1) ∧ y = -1) then none else some (x.tmod y)
  | .eq => some (boolValue (x = y))
  | .ne => some (boolValue (x ≠ y))
  | .lt => some (boolValue (x < y))
  | .gt => some (boolValue (x > y))
  | .le => some (boolValue (x ≤ y))
  | .ge => some (boolValue (x ≥ y))
  | .and => some (bitwise w (· &&& ·) x y)
  | .or => some (bitwise w (· ||| ·) x y)
  | .xor => some (bitwise w (· ^^^ ·) x y)
  | .shl => if y % 2 ^ w < w then some (x * 2 ^ (y % 2 ^ w).toNat) else none
  | .shr => if y % 2 ^ w < w then some (x % 2 ^ w / 2 ^ (y % 2 ^ w).toNat) else none

/-- The value has room in the width, and the number agrees with it there. -/
def Fits (c : CValue) (w : ℕ) (number : Option ℤ) : Prop :=
  InReach c.type.signed w c.value ∧ ∃ k ∈ number, k % 2 ^ w = c.value % 2 ^ w

/-- At each operator, C's value fits in the LLVM width, and the instruction gives it for the
operands extended by their signs. -/
def AllFit : IntExpr → Prop
  | .object name => ∀ c ∈ cValue store (.object name),
    Fits c (width store (.object name)) (some (store name).value)
  | .intConst data value => ∀ c ∈ cValue store (.intConst data value), Fits c 32 (some data)
  | .charConst data value => ∀ c ∈ cValue store (.charConst data value), Fits c 8 (some data)
  | .unary op e => AllFit e ∧ ∀ a ∈ cValue store e, ∀ c ∈ cUnary op a,
    Fits c (width store (.unary op e))
      (unaryNumber op (Int.bmod a.value (2 ^ width store e)))
  | .binary op l r => (AllFit l ∧ AllFit r) ∧ ∀ a ∈ cValue store l, ∀ b ∈ cValue store r,
    ∀ c ∈ cBinary op.meaning a b,
      Fits c (width store (.binary op l r))
        (binaryNumber op (max (width store l) (width store r))
          (Int.bmod a.value (2 ^ width store l)) (Int.bmod b.value (2 ^ width store r)))

end Condition

section Numbers

theorem coerce_eq (l r : LlvmInt) :
    (coerce l r).width = max l.width r.width ∧
      (coerce l r).lhs.toInt = l.bits.toInt ∧ (coerce l r).rhs.toInt = r.bits.toInt := by
  obtain ⟨w, hw, x⟩ := l
  obtain ⟨u, hu, y⟩ := r
  rcases Nat.lt_trichotomy w u with hlt | rfl | hgt
  · have hc : coerce ⟨w, hw, x⟩ ⟨u, hu, y⟩ = ⟨u, hu, x.signExtend u, y⟩ := by
      simp [coerce, hlt, Nat.ne_of_lt hlt]
    rw [hc]
    exact ⟨(Nat.max_eq_right (Nat.le_of_lt hlt)).symm,
      BitVec.toInt_signExtend_of_le (Nat.le_of_lt hlt), rfl⟩
  · have hc : coerce ⟨w, hw, x⟩ ⟨w, hu, y⟩ = ⟨w, hu, x, y⟩ := by
      simp [coerce]
    rw [hc]
    exact ⟨(Nat.max_self w).symm, rfl, rfl⟩
  · have hc : coerce ⟨w, hw, x⟩ ⟨u, hu, y⟩ = ⟨w, hw, x, y.signExtend w⟩ := by
      simp [coerce, Nat.lt_asymm hgt, Nat.ne_of_gt hgt]
    rw [hc]
    exact ⟨(Nat.max_eq_left (Nat.le_of_lt hgt)).symm, rfl,
      BitVec.toInt_signExtend_of_le (Nat.le_of_lt hgt)⟩

theorem icmp_eq {b : Bool} {P : Prop} [Decidable P] (h : b = true ↔ P) :
    icmp b = ofInt 1 (by decide) (boolValue P) := by
  unfold icmp ofInt boolValue
  by_cases hP : P
  · simp [h.2 hP, hP]
  · simp [hP, Bool.eq_false_iff.2 fun hb => hP (h.1 hb)]

theorem ofInt_toInt {w : ℕ} (hw : 0 < w) (x : BitVec w) : ofInt w hw x.toInt = ⟨w, hw, x⟩ := by
  unfold ofInt
  rw [BitVec.ofInt_toInt]

theorem mk_eq_ofInt {w : ℕ} (hw : 0 < w) {x : BitVec w} {k : ℤ}
    (h : x.toInt = Int.bmod k (2 ^ w)) : (⟨w, hw, x⟩ : LlvmInt) = ofInt w hw k := by
  unfold ofInt
  rw [← BitVec.toInt_ofInt] at h
  rw [BitVec.eq_of_toInt_eq h]

theorem mk_eq_bitwise {w : ℕ} (hw : 0 < w) (x y : BitVec w)
    (op : BitVec w → BitVec w → BitVec w) :
    (⟨w, hw, op x y⟩ : LlvmInt) = ofInt w hw (bitwise w op x.toInt y.toInt) := by
  unfold ofInt bitwise
  rw [BitVec.ofInt_toInt, BitVec.ofInt_toInt, BitVec.ofInt_toInt]

theorem toInt_emod {w : ℕ} (x : BitVec w) : x.toInt % 2 ^ w = x.toNat := by
  have hlt := x.isLt
  have hpow := cast_two_pow w
  rw [BitVec.toInt_eq_toNat_bmod, ← hpow, Int.bmod_emod, Int.emod_eq_of_lt (by omega) (by omega)]

/-- What an instruction makes of bits is the number that it makes of signed integers. -/
theorem lowerUnop_eq (op : UnaryOp) (x : LlvmInt) :
    lowerUnop (unaryData op) x = (unaryNumber op x.bits.toInt).map
      (if op = .not then ofInt 1 (by decide) else ofInt x.width x.width_pos) := by
  cases op with
  | plus => rfl
  | minus => exact congrArg some (mk_eq_ofInt _ BitVec.toInt_neg)
  | not =>
    refine congrArg some (icmp_eq ?_)
    rw [beq_iff_eq, ← BitVec.toInt_inj]
    simp
  | bitNot =>
    refine congrArg some (mk_eq_ofInt _ ?_)
    have hneg : ~~~x.bits = BitVec.ofInt x.width (-x.bits.toInt) - 1#x.width := by
      rw [BitVec.ofInt_neg, BitVec.ofInt_toInt, BitVec.neg_eq_not_add, BitVec.add_sub_cancel]
    have hone : (1#x.width) = BitVec.ofInt x.width 1 := rfl
    rw [hneg, hone, BitVec.toInt_sub, BitVec.toInt_ofInt, BitVec.toInt_ofInt, Int.bmod_sub_bmod,
      Int.sub_bmod_bmod]

theorem lowerBinop_eq (op : Operator) (o : Operands) :
    lowerBinop op.data o = (binaryNumber op o.width o.lhs.toInt o.rhs.toInt).map
      (if op.isComparison then ofInt 1 (by decide) else ofInt o.width o.width_pos) := by
  cases op with
  | add => exact congrArg some (mk_eq_ofInt _ (BitVec.toInt_add _ _))
  | sub => exact congrArg some (mk_eq_ofInt _ BitVec.toInt_sub)
  | mul => exact congrArg some (mk_eq_ofInt _ (BitVec.toInt_mul _ _))
  | div =>
    by_cases h : o.rhs.toInt = 0 ∨ (o.lhs.toInt = -2 ^ (o.width - 1) ∧ o.rhs.toInt = -1)
    · simp [lowerBinop, Operator.data, binaryNumber, h]
    · simp only [lowerBinop, Operator.data, binaryNumber, h, if_neg, not_false_eq_true]
      exact congrArg some (mk_eq_ofInt _ (BitVec.toInt_sdiv _ _))
  | rem =>
    by_cases h : o.rhs.toInt = 0 ∨ (o.lhs.toInt = -2 ^ (o.width - 1) ∧ o.rhs.toInt = -1)
    · simp [lowerBinop, Operator.data, binaryNumber, h]
    · simp only [lowerBinop, Operator.data, binaryNumber, h, if_neg, not_false_eq_true]
      rw [← BitVec.toInt_srem]
      exact congrArg some (ofInt_toInt _ _).symm
  | eq => exact congrArg some (icmp_eq (by rw [beq_iff_eq, ← BitVec.toInt_inj]))
  | ne => exact congrArg some (icmp_eq (by rw [bne_iff_ne, Ne, ← BitVec.toInt_inj]))
  | lt => exact congrArg some (icmp_eq BitVec.slt_iff_toInt_lt)
  | gt => exact congrArg some (icmp_eq BitVec.slt_iff_toInt_lt)
  | le => exact congrArg some (icmp_eq BitVec.sle_iff_toInt_le)
  | ge => exact congrArg some (icmp_eq BitVec.sle_iff_toInt_le)
  | and => exact congrArg some (mk_eq_bitwise _ _ _ (· &&& ·))
  | or => exact congrArg some (mk_eq_bitwise _ _ _ (· ||| ·))
  | xor => exact congrArg some (mk_eq_bitwise _ _ _ (· ^^^ ·))
  | shl =>
    by_cases h : o.rhs.toNat < o.width
    · simp only [lowerBinop, Operator.data, binaryNumber, toInt_emod, Int.ofNat_lt, h, if_pos]
      refine congrArg some (mk_eq_ofInt _ ?_)
      rw [BitVec.toInt_shiftLeft, Int.toNat_natCast, BitVec.toInt_eq_toNat_bmod o.lhs,
        Nat.shiftLeft_eq, Int.natCast_mul, Int.natCast_pow, Int.bmod_mul_bmod]
      rfl
    · simp [lowerBinop, Operator.data, binaryNumber, toInt_emod, h]
  | shr =>
    by_cases h : o.rhs.toNat < o.width
    · simp only [lowerBinop, Operator.data, binaryNumber, toInt_emod, Int.ofNat_lt, h, if_pos]
      refine congrArg some (mk_eq_ofInt _ ?_)
      rw [BitVec.toInt_eq_toNat_bmod, BitVec.toNat_ushiftRight, Nat.shiftRight_eq_div_pow,
        Int.toNat_natCast, Int.natCast_ediv, Int.natCast_pow]
      rfl
    · simp [lowerBinop, Operator.data, binaryNumber, toInt_emod, h]

end Numbers

variable {store}

section Parts

theorem mem_subexpressions (e : IntExpr) : e ∈ subexpressions e := by
  cases e <;> simp [subexpressions]

theorem LowersRight.valueRight {e : IntExpr} (h : LowersRight store e) : ValueRight store e :=
  h e (mem_subexpressions e)

theorem lowersRight_unary (op : UnaryOp) (e : IntExpr) :
    LowersRight store (.unary op e) ↔
      LowersRight store e ∧ ValueRight store (.unary op e) := by
  unfold LowersRight
  simp only [subexpressions, List.mem_cons, forall_eq_or_imp]
  exact and_comm

theorem lowersRight_binary (op : Operator) (l r : IntExpr) :
    LowersRight store (.binary op l r) ↔
      (LowersRight store l ∧ LowersRight store r) ∧ ValueRight store (.binary op l r) := by
  unfold LowersRight
  simp only [subexpressions, List.mem_cons, List.mem_append, or_imp, forall_and, forall_eq]
  exact and_comm

/-- The width of the LLVM value does not depend on what is stored. -/
theorem width_lowerExpr {e : IntExpr} {x : LlvmInt} (h : lowerExpr store e = some x) :
    x.width = width store e := by
  induction e generalizing x with
  | object name =>
    obtain rfl := Option.some.inj h
    rfl
  | intConst data value =>
    obtain rfl := Option.some.inj h
    rfl
  | charConst data value =>
    obtain rfl := Option.some.inj h
    rfl
  | unary op e ih =>
    obtain ⟨y, hy, hx⟩ := Option.bind_eq_some_iff.1 h
    rw [lowerUnop_eq, Option.map_eq_some_iff] at hx
    obtain ⟨k, -, rfl⟩ := hx
    unfold width
    split_ifs
    · rfl
    · show y.width = _
      exact ih hy
  | binary op l r ihl ihr =>
    obtain ⟨y, hy, h'⟩ := Option.bind_eq_some_iff.1 h
    obtain ⟨z, hz, hx⟩ := Option.bind_eq_some_iff.1 h'
    rw [lowerBinop_eq, Option.map_eq_some_iff] at hx
    obtain ⟨k, -, rfl⟩ := hx
    unfold width
    split_ifs
    · rfl
    · rw [← ihl hy, ← ihr hz]
      exact (coerce_eq y z).1

end Parts

/-- An instruction whose result is made from a number gives C's value when the value fits. -/
theorem reads_iff_fits (c : CValue) {w : ℕ} (hw : 0 < w) (number : Option ℤ) :
    (∃ x, number.map (ofInt w hw) = some x ∧ x.read c.type.signed = c.value) ↔
      Fits c w number := by
  unfold Fits
  cases number with
  | none => simp
  | some k => simp [read_ofInt_iff]

/-- The signed number of a value, from C's. -/
theorem toInt_of_read {e : IntExpr} {a : CValue} {x : LlvmInt} (hx : lowerExpr store e = some x)
    (hread : x.read a.type.signed = a.value) :
    x.bits.toInt = Int.bmod a.value (2 ^ width store e) := by
  rw [toInt_eq_bmod a.type.signed x, hread, width_lowerExpr hx]

theorem valueRight_unary {op : UnaryOp} {e : IntExpr} (he : ValueRight store e) :
    ValueRight store (.unary op e) ↔ ∀ a ∈ cValue store e, ∀ c ∈ cUnary op a,
      Fits c (width store (.unary op e))
        (unaryNumber op (Int.bmod a.value (2 ^ width store e))) := by
  have hnode : ∀ a ∈ cValue store e, ∀ c,
      (∃ x, lowerExpr store (.unary op e) = some x ∧ x.read c.type.signed = c.value) ↔
        Fits c (width store (.unary op e))
          (unaryNumber op (Int.bmod a.value (2 ^ width store e))) := by
    intro a ha c
    obtain ⟨x, hx, hread⟩ := he a ha
    rw [← toInt_of_read hx hread]
    rw [lowerExpr, width, hx, Option.bind_some, lowerUnop_eq, ← width_lowerExpr hx]
    split_ifs
    · exact reads_iff_fits c _ _
    · exact reads_iff_fits c _ _
  constructor
  · intro h a ha c hc
    refine (hnode a ha c).1 (h c ?_)
    exact Option.bind_eq_some_iff.2 ⟨a, ha, hc⟩
  · intro h c hc
    obtain ⟨a, ha, hac⟩ := Option.bind_eq_some_iff.1 hc
    exact (hnode a ha c).2 (h a ha c hac)

theorem valueRight_binary {op : Operator} {l r : IntExpr} (hl : ValueRight store l)
    (hr : ValueRight store r) :
    ValueRight store (.binary op l r) ↔ ∀ a ∈ cValue store l, ∀ b ∈ cValue store r,
      ∀ c ∈ cBinary op.meaning a b,
        Fits c (width store (.binary op l r))
          (binaryNumber op (max (width store l) (width store r))
            (Int.bmod a.value (2 ^ width store l)) (Int.bmod b.value (2 ^ width store r))) := by
  have hnode : ∀ a ∈ cValue store l, ∀ b ∈ cValue store r, ∀ c,
      (∃ x, lowerExpr store (.binary op l r) = some x ∧ x.read c.type.signed = c.value) ↔
        Fits c (width store (.binary op l r))
          (binaryNumber op (max (width store l) (width store r))
            (Int.bmod a.value (2 ^ width store l)) (Int.bmod b.value (2 ^ width store r))) := by
    intro a ha b hb c
    obtain ⟨x, hx, hreadx⟩ := hl a ha
    obtain ⟨y, hy, hready⟩ := hr b hb
    obtain ⟨hwidth, hlhs, hrhs⟩ := coerce_eq x y
    rw [← toInt_of_read hx hreadx, ← toInt_of_read hy hready, ← hlhs, ← hrhs]
    rw [lowerExpr, width, hx, Option.bind_some, hy, Option.bind_some, lowerBinop_eq,
      ← width_lowerExpr hx, ← width_lowerExpr hy, ← hwidth]
    split_ifs
    · exact reads_iff_fits c _ _
    · exact reads_iff_fits c _ _
  constructor
  · intro h a ha b hb c hc
    refine (hnode a ha b hb c).1 (h c ?_)
    exact Option.bind_eq_some_iff.2 ⟨a, ha, Option.bind_eq_some_iff.2 ⟨b, hb, hc⟩⟩
  · intro h c hc
    obtain ⟨a, ha, hac⟩ := Option.bind_eq_some_iff.1 hc
    obtain ⟨b, hb, hbc⟩ := Option.bind_eq_some_iff.1 hac
    exact (hnode a ha b hb c).2 (h a ha b hb c hbc)

/-- An object or a constant is made from its number. -/
theorem lowersRight_leaf {e : IntExpr} {w : ℕ} {hw : 0 < w} {k : ℤ} (hleaf : subexpressions e = [e])
    (he : lowerExpr store e = some (ofInt w hw k)) :
    LowersRight store e ↔ ∀ c ∈ cValue store e, Fits c w (some k) := by
  unfold LowersRight ValueRight
  simp only [hleaf, List.mem_singleton, forall_eq, he]
  exact forall₂_congr fun c _ => reads_iff_fits c hw (some k)

/-- An object of type `int` with the value -8. -/
def minusEight : Object :=
  ⟨[.int], int, cType_int, .block, block_ne_result, -8, by decide⟩

section PlainInt

/-! Expressions of `int` objects and constants. Their parts have 32 bits, and but for the
shift to the right the instructions are those of `int`. -/

/-- The operators on `int` that the lowering has an instruction for. -/
def Operator.isPlain (op : Operator) : Bool := !op.isComparison && op != .shr

def PlainInt (store : Store) : IntExpr → Prop
  | .object name => (store name).type = int ∧ width store (.object name) = 32
  | .intConst data value => value = data
  | .charConst _ _ => False
  | .unary op e => (op = .minus ∨ op = .bitNot) ∧ PlainInt store e
  | .binary op l r => op.isPlain ∧ PlainInt store l ∧ PlainInt store r

theorem PlainInt.width_eq {e : IntExpr} (h : PlainInt store e) : width store e = 32 := by
  induction e with
  | object name => exact h.2
  | intConst data value => rfl
  | charConst data value => exact h.elim
  | unary op e ih =>
    obtain ⟨rfl | rfl, he⟩ := h
    · exact ih he
    · exact ih he
  | binary op l r ihl ihr =>
    obtain ⟨hop, hl, hr⟩ := h
    have hcomp : op.isComparison = false := by
      revert hop
      cases op <;> simp [Operator.isPlain, Operator.isComparison]
    rw [width, hcomp, ihl hl, ihr hr]
    rfl

theorem bmod_of_holds {v : ℤ} (h : int.Holds v) : Int.bmod v (2 ^ 32) = v := by
  unfold IntType.Holds int at h
  apply Int.bmod_eq_of_le_mul_two <;> simp at h ⊢ <;> omega

theorem fits_of_holds {v k : ℤ} (h : int.Holds v) (hk : k % 2 ^ 32 = v % 2 ^ 32) :
    Fits ⟨int, v⟩ 32 (some k) := by
  refine ⟨?_, k, rfl, hk⟩
  unfold IntType.Holds int at h
  unfold InReach int
  simpa using h

/-- A result of type `int` is one of its values. -/
theorem eq_of_inType {v : ℤ} {c : CValue} (h : inType int v = some c) :
    int.Holds v ∧ c = ⟨int, v⟩ := by
  have hsigned : int.signed = true := rfl
  unfold inType at h
  rw [if_pos hsigned] at h
  by_cases hv : int.Holds v
  · rw [if_pos hv] at h
    exact ⟨hv, (Option.some.inj h).symm⟩
  · rw [if_neg hv] at h
    cases h

theorem holds_convert (v : ℤ) : int.Holds (int.convert v) := by
  unfold IntType.Holds IntType.convert int
  simp only [if_true]
  omega

theorem cUnary_plain {op : UnaryOp} {a : ℤ} {c : CValue} (hop : op = .minus ∨ op = .bitNot)
    (ha : int.Holds a) (h : cUnary op ⟨int, a⟩ = some c) :
    c.type = int ∧ int.Holds c.value ∧ Fits c 32 (unaryNumber op (Int.bmod a (2 ^ 32))) := by
  rw [bmod_of_holds ha]
  obtain rfl | rfl := hop
  · obtain ⟨hv, rfl⟩ := eq_of_inType h
    exact ⟨rfl, hv, fits_of_holds hv rfl⟩
  · obtain ⟨hv, rfl⟩ := eq_of_inType h
    exact ⟨rfl, hv, fits_of_holds hv rfl⟩

theorem not_overflow {a b : ℤ} (hzero : b ≠ 0) (h : int.Holds (a.tdiv b)) :
    ¬(b = 0 ∨ (a = -2 ^ (32 - 1) ∧ b = -1)) := by
  rintro (hb | ⟨rfl, rfl⟩)
  · exact hzero hb
  · exact absurd h (by decide)

theorem cBinary_plain {op : Operator} {a b : ℤ} {c : CValue} (hop : op.isPlain)
    (ha : int.Holds a) (hb : int.Holds b) (h : cBinary op.meaning ⟨int, a⟩ ⟨int, b⟩ = some c) :
    c.type = int ∧ int.Holds c.value ∧
      Fits c 32 (binaryNumber op 32 (Int.bmod a (2 ^ 32)) (Int.bmod b (2 ^ 32))) := by
  rw [bmod_of_holds ha, bmod_of_holds hb]
  have husual : usual int int = int := by decide
  have hpromote : promote int = int := by decide
  have hbitwise : ∀ v, some (⟨int, int.convert v⟩ : CValue) = some c →
      c.type = int ∧ int.Holds c.value ∧ Fits c 32 (some v) := by
    intro v hv
    obtain rfl := Option.some.inj hv
    exact ⟨rfl, holds_convert v, fits_of_holds (holds_convert v) (IntType.convert_emod int v).symm⟩
  simp only [cBinary, husual, hpromote, IntType.convert_of_holds ha, IntType.convert_of_holds hb] at h
  cases op with
  | add =>
    obtain ⟨hv, rfl⟩ := eq_of_inType h
    exact ⟨rfl, hv, fits_of_holds hv rfl⟩
  | sub =>
    obtain ⟨hv, rfl⟩ := eq_of_inType h
    exact ⟨rfl, hv, fits_of_holds hv rfl⟩
  | mul =>
    obtain ⟨hv, rfl⟩ := eq_of_inType h
    exact ⟨rfl, hv, fits_of_holds hv rfl⟩
  | div =>
    simp only [Operator.meaning] at h
    by_cases hzero : b = 0
    · simp [hzero] at h
    · rw [if_neg hzero] at h
      obtain ⟨hv, rfl⟩ := eq_of_inType h
      rw [binaryNumber, if_neg (not_overflow hzero hv)]
      exact ⟨rfl, hv, fits_of_holds hv rfl⟩
  | rem =>
    simp only [Operator.meaning] at h
    by_cases hzero : b = 0
    · simp [hzero] at h
    · rw [if_neg hzero] at h
      by_cases hquot : int.Holds (a.tdiv b)
      · rw [if_pos hquot] at h
        obtain ⟨hv, rfl⟩ := eq_of_inType h
        rw [binaryNumber, if_neg (not_overflow hzero hquot)]
        exact ⟨rfl, hv, fits_of_holds hv rfl⟩
      · rw [if_neg hquot] at h
        cases h
  | and => exact hbitwise _ h
  | or => exact hbitwise _ h
  | xor => exact hbitwise _ h
  | shl =>
    simp only [Operator.meaning] at h
    by_cases hcount : b < 0 ∨ (int.width : ℤ) ≤ b ∨ (int.signed ∧ a < 0)
    · rw [if_pos hcount] at h
      cases h
    · rw [if_neg hcount] at h
      obtain ⟨hv, rfl⟩ := eq_of_inType h
      have hwidth : (int.width : ℤ) = 32 := rfl
      have hmod : b % 2 ^ 32 = b := by omega
      rw [binaryNumber, hmod, if_pos (by omega)]
      exact ⟨rfl, hv, fits_of_holds hv rfl⟩
  | eq => cases hop
  | ne => cases hop
  | lt => cases hop
  | gt => cases hop
  | le => cases hop
  | ge => cases hop
  | shr => cases hop

theorem eq_of_constant {data : ℕ} {value : ℤ} {c : CValue}
    (h : cValue store (.intConst data value) = some c) : int.Holds value ∧ c = ⟨int, value⟩ := by
  unfold cValue at h
  split_ifs at h with hv
  exact ⟨hv, (Option.some.inj h).symm⟩

theorem cValue_plain {e : IntExpr} (h : PlainInt store e) :
    ∀ c ∈ cValue store e, c.type = int ∧ int.Holds c.value := by
  induction e with
  | object name =>
    intro c hc
    obtain rfl := Option.some.inj hc
    exact ⟨h.1, h.1 ▸ (store name).holds⟩
  | intConst data value =>
    intro c hc
    obtain ⟨hv, rfl⟩ := eq_of_constant hc
    exact ⟨rfl, hv⟩
  | charConst data value => exact h.elim
  | unary op e ih =>
    intro c hc
    obtain ⟨⟨t, a⟩, ha, hac⟩ := Option.bind_eq_some_iff.1 hc
    obtain ⟨rfl, hv⟩ := ih h.2 _ ha
    obtain ⟨htype, hvalue, -⟩ := cUnary_plain h.1 hv hac
    exact ⟨htype, hvalue⟩
  | binary op l r ihl ihr =>
    intro c hc
    obtain ⟨⟨s, a⟩, ha, hac⟩ := Option.bind_eq_some_iff.1 hc
    obtain ⟨⟨t, b⟩, hb, habc⟩ := Option.bind_eq_some_iff.1 hac
    obtain ⟨rfl, hva⟩ := ihl h.2.1 _ ha
    obtain ⟨rfl, hvb⟩ := ihr h.2.2 _ hb
    obtain ⟨htype, hvalue, -⟩ := cBinary_plain h.1 hva hvb habc
    exact ⟨htype, hvalue⟩

/-- The lowering computes what C does for expressions of `int` objects and constants. -/
theorem allFit_of_plainInt {e : IntExpr} (h : PlainInt store e) : AllFit store e := by
  induction e with
  | object name =>
    intro c hc
    obtain rfl := Option.some.inj hc
    have hv : int.Holds (store name).value := h.1 ▸ (store name).holds
    rw [h.2, h.1]
    exact fits_of_holds hv rfl
  | intConst data value =>
    intro c hc
    obtain ⟨hv, rfl⟩ := eq_of_constant hc
    exact fits_of_holds hv (congrArg (· % 2 ^ 32) h.symm)
  | charConst data value => exact h.elim
  | unary op e ih =>
    refine ⟨ih h.2, ?_⟩
    rintro ⟨t, a⟩ ha c hc
    obtain ⟨rfl, hv⟩ := cValue_plain h.2 _ ha
    rw [h.width_eq, h.2.width_eq]
    exact (cUnary_plain h.1 hv hc).2.2
  | binary op l r ihl ihr =>
    refine ⟨⟨ihl h.2.1, ihr h.2.2⟩, ?_⟩
    rintro ⟨s, a⟩ ha ⟨t, b⟩ hb c hc
    obtain ⟨rfl, hva⟩ := cValue_plain h.2.1 _ ha
    obtain ⟨rfl, hvb⟩ := cValue_plain h.2.2 _ hb
    rw [h.width_eq, h.2.1.width_eq, h.2.2.width_eq]
    exact (cBinary_plain h.1 hva hvb hc).2.2

end PlainInt

end OpticC.IntegerExpr
