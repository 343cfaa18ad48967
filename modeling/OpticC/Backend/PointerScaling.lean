import OpticC.Backend.IntegerExpressions
import OpticC.Backend.NameTables

/-! Pointer arithmetic. Pointers of LLVM do not say what they point to, and each form of
access takes the size of an element from somewhere else: a table, the name of the variable,
or a fixed type. -/

namespace OpticC.Pointers

open LlvmInt

/-- The tables that element types are taken from, and the sizes of records. -/
structure Context where
  tables : NameTables
  structTagTypes : String → Option ℕ
  structSize : ℕ → ℕ

/-- The size in bytes. -/
def Context.size (C : Context) : LlvmType → ℕ
  | .int width => (width + 7) / 8
  | .float => 4
  | .double => 8
  | .ptr => 8
  | .array len elem => len * C.size elem
  | .struct id => C.structSize id

structure Place where
  addr : BitVec 64
  type : LlvmType
  deriving DecidableEq

structure Access where
  place : Place
  store : Bool
  deriving DecidableEq

/-- The pointers in memory, by their address, and what was read and written. -/
structure State where
  cells : BitVec 64 → BitVec 64
  accesses : List Access

/-- `read` is what a load gives that is not of a pointer. -/
inductive Value where
  | int (x : LlvmInt)
  | ptr (addr : BitVec 64)
  | read (place : Place)

/-- A declared pointer: a variable, or a member of one, which has no name in the tables. -/
structure PointerVar where
  name : Option String
  storage : BitVec 64

def PointerVar.place (p : PointerVar) : Place := ⟨p.storage, .ptr⟩

inductive Node where
  | pointer (p : PointerVar)
  | integer (x : LlvmInt)
  | binop (data : ℕ) (l r : Node)
  | deref (e : Node)
  | index (base i : Node)
  | assign (data : ℕ) (l r : Node)
  | preInc (e : Node)

/-- Instructions in front of a result. An error emits no more of them. -/
abbrev Emit := StateT State Option

section Instructions

def load (place : Place) : Emit Value := do
  modify fun s => { s with accesses := s.accesses ++ [⟨place, false⟩] }
  match place.type with
  | .ptr => return .ptr ((← get).cells place.addr)
  | _ => return .read place

def store (place : Place) (v : Value) : Emit Unit :=
  modify fun s =>
    { cells := match v with
        | .ptr a => Function.update s.cells place.addr a
        | _ => s.cells
      accesses := s.accesses ++ [⟨place, true⟩] }

/-- `getelementptr` with one index, which is taken as signed. -/
def gep (C : Context) (elem : LlvmType) (base : BitVec 64) (index : LlvmInt) : BitVec 64 :=
  base + BitVec.ofInt 64 (index.bits.toInt * C.size elem)

/-- `ptrtoint`, or the extension to 64 bits by zeros. -/
def toInt64 : Value → Option (BitVec 64)
  | .ptr a => some a
  | .int x => some (x.bits.setWidth 64)
  | .read _ => none

def int64 (b : BitVec 64) : LlvmInt := ⟨64, sixtyFour_pos, b⟩

/-- `lower_binop` on two values. -/
def lowerBinop (data : ℕ) : Value → Value → Option Value
  | .int x, .int y => (IntegerExpr.lowerBinop data (IntegerExpr.coerce x y)).map .int
  | a, b => do
    let lhs ← toInt64 a
    let rhs ← toInt64 b
    match data with
    | 1 => some (.int (int64 (lhs + rhs)))
    | 2 => some (.int (int64 (lhs - rhs)))
    | 6 => some (.int (IntegerExpr.icmp (lhs == rhs)))
    | 7 => some (.int (IntegerExpr.icmp (lhs != rhs)))
    | 8 => some (.int (IntegerExpr.icmp (lhs.ult rhs)))
    | 9 => some (.int (IntegerExpr.icmp (rhs.ult lhs)))
    | 10 => some (.int (IntegerExpr.icmp (lhs.ule rhs)))
    | 11 => some (.int (IntegerExpr.icmp (rhs.ule lhs)))
    | _ => none

/-- The operators that `apply_assignment_op` knows for integers. -/
def isAssignmentOp (data : ℕ) : Bool := 1 ≤ data && data ≤ 5 || 14 ≤ data && data ≤ 18

def assignInts (data : ℕ) (x y : LlvmInt) : Option Value :=
  if isAssignmentOp data then
    (IntegerExpr.lowerBinop data (IntegerExpr.coerce x y)).map .int
  else none

/-- `apply_assignment_op`. A pointer is moved by bytes. -/
def applyAssignmentOp (C : Context) (data : ℕ) (lhs rhs : Value) : Option Value :=
  if data = 19 then some rhs
  else match lhs, rhs with
    | .ptr a, .int x =>
      if data = 1 then some (.ptr (gep C (.int 8) a x))
      else if data = 2 then some (.ptr (gep C (.int 8) a ⟨x.width, x.width_pos, -x.bits⟩))
      else assignInts data (int64 a) x
    | .ptr a, .ptr b =>
      if data = 1 ∨ data = 2 then some (.int (int64 (a - b)))
      else assignInts data (int64 a) (int64 b)
    | .int x, .ptr b => assignInts data x (int64 b)
    | .int x, .int y => assignInts data x y
    | _, _ => none

/-- The conversion in front of the store of an assignment. -/
def convertFor : LlvmType → Value → Value
  | .int w, .int x => if h : 0 < w then .int (x.intCast w h) else .int x
  | .ptr, .int x => .ptr (x.bits.setWidth 64)
  | _, v => v

/-- `types_compatible` -/
def typesCompatible : LlvmType → Value → Bool
  | .int _, .int _ | .ptr, .ptr _ => true
  | .int _, .read ⟨_, .int _⟩ => true
  | .float, .read ⟨_, .float⟩ | .float, .read ⟨_, .double⟩ => true
  | .double, .read ⟨_, .float⟩ | .double, .read ⟨_, .double⟩ => true
  | .struct _, .read ⟨_, .struct _⟩ | .array _ _, .read ⟨_, .array _ _⟩ => true
  | _, _ => false

end Instructions

section ElementTypes

def startsWith (name : String) (s : String) : Bool := s.toList.isPrefixOf name.toList

/-- The element type of `p[i]`. -/
def indexType (C : Context) : Node → LlvmType
  | .pointer ⟨some name, _⟩ =>
    match C.tables.pointerStructTypes name with
    | some id => .struct id
    | none => if startsWith name "pp" || startsWith name "pz" then .ptr else .int 8
  | _ => .int 32

/-- The type that `*p` reads. -/
def derefType (C : Context) : Node → LlvmType
  | .pointer ⟨some name, _⟩ =>
    match C.tables.pointerStructTypes name with
    | some id => .struct id
    | none =>
      if startsWith name "pp" || startsWith name "pz" then .ptr
      else if C.tables.bytePointerVars name || startsWith name "z" then .int 8
      else .int 32
  | _ => .int 32

/-- The type that `++p` steps over. -/
def stepType (C : Context) : Node → LlvmType
  | .pointer ⟨some name, _⟩ =>
    match C.tables.pointerStructTypes name with
    | some id => .struct id
    | none => (((C.tables.varStructTag name).bind C.structTagTypes).map LlvmType.struct).getD (.int 8)
  | _ => .int 8

end ElementTypes

variable (C : Context)

/-- `lower_array_element_ptr`, with what the lowering of its parts emits. -/
def lowerArrayElementPtr (base : Node) (index : Emit (Option Value))
    (baseLvalue : Emit (Option Place)) (baseValue : Emit (Option Value)) :
    Emit (Option Place) := do
  match ← index with
  | some (.int x) =>
    match ← baseLvalue with
    | some ⟨a, .array _ elem⟩ => return some ⟨gep C elem a x, elem⟩
    | _ =>
      match ← baseValue with
      | some (.ptr a) => return some ⟨gep C (indexType C base) a x, indexType C base⟩
      | _ => return none
  | _ => return none

mutual

def lowerExpr : Node → Emit (Option Value)
  | .pointer p => return some (← load p.place)
  | .integer x => return some (.int x)
  | .binop data l r => do
    let some a ← lowerExpr l | failure
    let some b ← lowerExpr r | failure
    let v ← lowerBinop data a b
    return some v
  | .deref e => do
    let some a ← lowerExpr e | failure
    match a with
    | .ptr addr => return some (← load ⟨addr, derefType C e⟩)
    -- the operand itself
    | _ => return some a
  | .index base i => do
    match ← lowerArrayElementPtr C base (lowerExpr i) (lowerLvaluePtr base) (lowerExpr base) with
    | some place => return some (← load place)
    | none => return none
  | .assign data l r => do
    match ← lowerExpr r with
    | none => return none
    | some rhs =>
      match ← lowerLvaluePtr l with
      -- nothing is stored
      | none => return some rhs
      | some place =>
        let v ← if data = 19 then pure rhs else do
          let current ← load place
          applyAssignmentOp C data current rhs
        let v := convertFor place.type v
        if typesCompatible place.type v then store place v
        return some (← load place)
  | .preInc e => do
    let some place ← lowerLvaluePtr e | failure
    match ← load place with
    | .ptr a =>
      let new := Value.ptr (gep C (stepType C e) a (int64 1))
      store place new
      return some new
    | .int x =>
      let new := Value.int ⟨x.width, x.width_pos, x.bits + 1⟩
      store place new
      return some new
    | .read _ => failure

def lowerLvaluePtr : Node → Emit (Option Place)
  | .pointer p => return some p.place
  | .deref e => do
    match ← lowerExpr e with
    | some (.ptr a) => return some ⟨a, .ptr⟩
    | _ => return none
  | .index base i =>
    lowerArrayElementPtr C base (lowerExpr i) (lowerLvaluePtr base) (lowerExpr base)
  | _ => return none

end

/-- What a pointer is declared to point to. -/
inductive Pointee where
  | integer (t : IntType)
  | pointer
  | record (id : ℕ)
  deriving DecidableEq

def Context.sizeof : Pointee → ℕ
  | .integer t => t.width / 8
  | .pointer => 8
  | .record id => C.structSize id

section Property

variable (s : State) (p : PointerVar) (elem : Pointee) (t : IntType) (x : LlvmInt)

/-- The address of the element with the index that `x` has at the type `t`. -/
def elementAddr : BitVec 64 :=
  s.cells p.storage + BitVec.ofInt 64 (x.read t.signed * C.sizeof elem)

/-- The expression denotes the element. -/
def Denotes (e : Node) : Prop :=
  ∃ place s', (lowerLvaluePtr C e).run s = some (some place, s') ∧
    place.addr = elementAddr C s p elem t x ∧ C.size place.type = C.sizeof elem

/-- Its value is read from the element. -/
def Reads (e : Node) : Prop :=
  ∃ v s' place, (lowerExpr C e).run s = some (some v, s') ∧
    place.addr = elementAddr C s p elem t x ∧ C.size place.type = C.sizeof elem ∧
      s'.accesses = s.accesses ++ [⟨p.place, false⟩, ⟨place, false⟩]

/-- An assignment to it writes the element and nothing else. -/
def Writes (e : Node) : Prop :=
  ∀ y, ∃ v s' place, (lowerExpr C (.assign 19 e (.integer y))).run s = some (some v, s') ∧
    place.addr = elementAddr C s p elem t x ∧ C.size place.type = C.sizeof elem ∧
      s'.accesses.filter (·.store) = s.accesses.filter (·.store) ++ [⟨place, true⟩]

/-- `++p`, so often. -/
def increments (n : ℕ) : Emit Unit :=
  match n with
  | 0 => return ()
  | n + 1 => do
    increments n
    let _ ← lowerExpr C (.preInc (.pointer p))

/-- The forms of pointer arithmetic go by the size of the elements. -/
structure Scales : Prop where
  index : Denotes C s p elem t x (.index (.pointer p) (.integer x)) ∧
    Reads C s p elem t x (.index (.pointer p) (.integer x)) ∧
    Writes C s p elem t x (.index (.pointer p) (.integer x))
  deref : Denotes C s p elem t x (.deref (.binop 1 (.pointer p) (.integer x))) ∧
    Reads C s p elem t x (.deref (.binop 1 (.pointer p) (.integer x))) ∧
    Writes C s p elem t x (.deref (.binop 1 (.pointer p) (.integer x)))
  compound : ∃ v s', (lowerExpr C (.assign 1 (.pointer p) (.integer x))).run s = some (v, s') ∧
    s'.cells p.storage = elementAddr C s p elem t x
  repeated : ∀ n : ℕ, x.read t.signed = n → ∃ s', (increments C p n).run s = some ((), s') ∧
    s'.cells p.storage = elementAddr C s p elem t x
  difference : ∃ v s', (lowerExpr C
      (.binop 2 (.binop 1 (.pointer p) (.integer x)) (.pointer p))).run s = some (some (.int v), s') ∧
    v.read true = x.read t.signed

end Property

section Lowered

variable {C} {s : State} {p : PointerVar} {elem : Pointee} {t : IntType} {x : LlvmInt}

/-- Behind a load. -/
def State.loads (s : State) (place : Place) : State :=
  { s with accesses := s.accesses ++ [⟨place, false⟩] }

theorem run_pointer : (lowerExpr C (.pointer p)).run s =
    some (some (.ptr (s.cells p.storage)), s.loads p.place) := rfl

/-- The sum of a pointer and an integer is an integer. -/
theorem run_sum : (lowerExpr C (.binop 1 (.pointer p) (.integer x))).run s =
    some (some (.int (int64 (s.cells p.storage + x.bits.setWidth 64))), s.loads p.place) := rfl

theorem lvalue_deref_sum :
    (lowerLvaluePtr C (.deref (.binop 1 (.pointer p) (.integer x)))).run s =
      some (none, s.loads p.place) := rfl

theorem lvalue_index : (lowerLvaluePtr C (.index (.pointer p) (.integer x))).run s =
    some (some ⟨gep C (indexType C (.pointer p)) (s.cells p.storage) x, indexType C (.pointer p)⟩,
      s.loads p.place) := rfl

/-- `*(p + i)` is no place. -/
theorem not_denotes_deref_sum :
    ¬Denotes C s p elem t x (.deref (.binop 1 (.pointer p) (.integer x))) := by
  rintro ⟨place, s', hrun, -⟩
  rw [lvalue_deref_sum] at hrun
  cases hrun

/-- Only the pointer is read for the value of `*(p + i)`. -/
theorem not_reads_deref_sum :
    ¬Reads C s p elem t x (.deref (.binop 1 (.pointer p) (.integer x))) := by
  rintro ⟨v, s', place, hrun, -, -, haccesses⟩
  have hderef : (lowerExpr C (.deref (.binop 1 (.pointer p) (.integer x)))).run s =
      some (some (.int (int64 (s.cells p.storage + x.bits.setWidth 64))), s.loads p.place) := rfl
  rw [hderef] at hrun
  obtain ⟨-, rfl⟩ := Prod.mk.inj (Option.some.inj hrun)
  have hlength := congrArg List.length haccesses
  simp [State.loads] at hlength

/-- An assignment to `*(p + i)` stores nothing. -/
theorem not_writes_deref_sum :
    ¬Writes C s p elem t x (.deref (.binop 1 (.pointer p) (.integer x))) := by
  intro h
  obtain ⟨v, s', place, hrun, -, -, haccesses⟩ := h x
  have hassign : (lowerExpr C (.assign 19 (.deref (.binop 1 (.pointer p) (.integer x)))
      (.integer x))).run s = some (some (.int x), s.loads p.place) := rfl
  rw [hassign] at hrun
  obtain ⟨-, rfl⟩ := Prod.mk.inj (Option.some.inj hrun)
  have hlength := congrArg List.length haccesses
  simp [State.loads] at hlength

end Lowered

section OtherForms

/-! The forms that do denote something, each with the size that it goes by. -/

variable {C} {s : State} {p : PointerVar} {elem : Pointee} {t : IntType} {x : LlvmInt}

/-- Numbers that 64 bits can stand for are determined by these. -/
theorem ofInt_inj {i j : ℤ} (hi : -2 ^ 63 ≤ i ∧ i < 2 ^ 63) (hj : -2 ^ 63 ≤ j ∧ j < 2 ^ 63)
    (h : BitVec.ofInt 64 i = BitVec.ofInt 64 j) : i = j := by
  have htoInt := congrArg BitVec.toInt h
  rwa [BitVec.toInt_ofInt_eq_self (by decide) hi.1 hi.2,
    BitVec.toInt_ofInt_eq_self (by decide) hj.1 hj.2] at htoInt

/-- `p[i]` denotes the element when the guessed type has the size of it. -/
theorem denotes_index_iff (hx : x.bits.toInt = x.read t.signed) :
    Denotes C s p elem t x (.index (.pointer p) (.integer x)) ↔
      C.size (indexType C (.pointer p)) = C.sizeof elem := by
  constructor
  · rintro ⟨place, s', hrun, -, hsize⟩
    rw [lvalue_index] at hrun
    obtain ⟨hplace, -⟩ := Prod.mk.inj (Option.some.inj hrun)
    obtain rfl := Option.some.inj hplace
    exact hsize
  · intro hsize
    refine ⟨_, _, lvalue_index, ?_, hsize⟩
    unfold gep elementAddr
    rw [hx, hsize]

theorem run_compound : (lowerExpr C (.assign 1 (.pointer p) (.integer x))).run s =
    some (some (.ptr (gep C (.int 8) (s.cells p.storage) x)),
      { cells := Function.update s.cells p.storage (gep C (.int 8) (s.cells p.storage) x)
        accesses := s.accesses ++ [⟨p.place, false⟩] ++ [⟨p.place, true⟩] ++
          [⟨p.place, false⟩] }) := by
  show some (some (Value.ptr (Function.update s.cells p.storage _ p.storage)), _) = _
  rw [Function.update_self]
  rfl

theorem run_preInc : (lowerExpr C (.preInc (.pointer p))).run s =
    some (some (.ptr (gep C (stepType C (.pointer p)) (s.cells p.storage) (int64 1))),
      { cells := Function.update s.cells p.storage
          (gep C (stepType C (.pointer p)) (s.cells p.storage) (int64 1))
        accesses := s.accesses ++ [⟨p.place, false⟩] ++ [⟨p.place, true⟩] }) := rfl

theorem run_increments (n : ℕ) : ∃ s', (increments C p n).run s = some ((), s') ∧
    s'.cells p.storage = s.cells p.storage +
      BitVec.ofInt 64 (n * C.size (stepType C (.pointer p))) := by
  induction n with
  | zero =>
    refine ⟨s, rfl, ?_⟩
    simp
  | succ n ih =>
    obtain ⟨s', hrun, hcell⟩ := ih
    refine ⟨⟨Function.update s'.cells p.storage
      (gep C (stepType C (.pointer p)) (s'.cells p.storage) (int64 1)),
      s'.accesses ++ [⟨p.place, false⟩] ++ [⟨p.place, true⟩]⟩, ?_, ?_⟩
    · unfold increments
      rw [StateT.run_bind, hrun]
      rfl
    · have hone : (int64 1).bits.toInt = 1 := by decide
      show Function.update s'.cells p.storage _ p.storage = _
      rw [Function.update_self, gep, hcell, hone, BitVec.add_assoc, ← BitVec.ofInt_add,
        ← Int.add_mul]
      rfl

/-- Only one result and one state are left. -/
theorem exists_run_iff {α : Type} {m : Emit α} {v : α} {s' : State} (h : m.run s = some (v, s'))
    (P : α → State → Prop) : (∃ w r, m.run s = some (w, r) ∧ P w r) ↔ P v s' := by
  constructor
  · rintro ⟨w, r, hrun, hP⟩
    rw [h] at hrun
    obtain ⟨rfl, rfl⟩ := Prod.mk.inj (Option.some.inj hrun)
    exact hP
  · intro hP
    exact ⟨v, s', h, hP⟩

/-- `p += i` moves by `i` bytes: right for `i` elements when there are none, or they are bytes. -/
theorem compound_iff (hx : x.bits.toInt = x.read t.signed) (hsize : 0 < C.sizeof elem)
    (hlow : -2 ^ 63 ≤ x.read t.signed * C.sizeof elem)
    (hhigh : x.read t.signed * C.sizeof elem < 2 ^ 63) :
    (∃ v s', (lowerExpr C (.assign 1 (.pointer p) (.integer x))).run s = some (v, s') ∧
      s'.cells p.storage = elementAddr C s p elem t x) ↔
      x.read t.signed = 0 ∨ C.sizeof elem = 1 := by
  refine (exists_run_iff run_compound
    fun _ s' => s'.cells p.storage = elementAddr C s p elem t x).trans ?_
  have hbyte : C.size (.int 8) = 1 := rfl
  obtain ⟨i, hi⟩ : ∃ i, i = x.read t.signed := ⟨_, rfl⟩
  obtain ⟨n, hn⟩ : ∃ n : ℤ, n = C.sizeof elem := ⟨_, rfl⟩
  simp only [Function.update_self, gep, elementAddr, hx, hbyte, ← hi, ← hn, Int.natCast_one,
    Int.mul_one, BitVec.add_right_inj] at hlow hhigh ⊢
  obtain ⟨m, rfl⟩ : ∃ m, n = 1 + m := ⟨n - 1, by omega⟩
  have hm : 0 ≤ m := by omega
  rw [Int.mul_add, Int.mul_one] at hlow hhigh ⊢
  constructor
  · intro h
    have hbound : -2 ^ 63 ≤ i ∧ i < 2 ^ 63 := by
      rcases Int.le_total 0 i with hle | hle
      · have hnonneg : 0 ≤ i * m := Int.mul_nonneg hle hm
        omega
      · have hnonpos : i * m ≤ 0 := Int.mul_nonpos_of_nonpos_of_nonneg hle hm
        omega
    have heq : i = i + i * m := ofInt_inj hbound ⟨hlow, hhigh⟩ h
    rcases Int.mul_eq_zero.1 (show i * m = 0 by omega) with hzero | hone
    · exact Or.inl hzero
    · exact Or.inr (by omega)
  · rintro (rfl | hone)
    · rw [Int.zero_mul, Int.add_zero]
    · obtain rfl : m = 0 := by omega
      rw [Int.mul_zero, Int.add_zero]

/-- So many `++p` move by the size that the step is taken to have. -/
theorem repeated_iff
    (hhigh : x.read t.signed * C.sizeof elem < 2 ^ 63)
    (hstep : x.read t.signed * C.size (stepType C (.pointer p)) < 2 ^ 63) :
    (∀ n : ℕ, x.read t.signed = n → ∃ s', (increments C p n).run s = some ((), s') ∧
      s'.cells p.storage = elementAddr C s p elem t x) ↔
      x.read t.signed ≤ 0 ∨ C.size (stepType C (.pointer p)) = C.sizeof elem := by
  have hcells : ∀ n : ℕ, (∃ s', (increments C p n).run s = some ((), s') ∧
      s'.cells p.storage = elementAddr C s p elem t x) ↔
      BitVec.ofInt 64 (n * C.size (stepType C (.pointer p))) =
        BitVec.ofInt 64 (x.read t.signed * C.sizeof elem) := by
    intro n
    obtain ⟨s', hrun, hcell⟩ := run_increments (C := C) (s := s) (p := p) n
    constructor
    · rintro ⟨r, hr, haddr⟩
      rw [hrun] at hr
      obtain ⟨-, rfl⟩ := Prod.mk.inj (Option.some.inj hr)
      rw [hcell] at haddr
      exact (BitVec.add_right_inj _).1 haddr
    · intro h
      exact ⟨s', hrun, by rw [hcell, h, elementAddr]⟩
  simp only [hcells]
  constructor
  · intro h
    by_cases hle : x.read t.signed ≤ 0
    · exact Or.inl hle
    · right
      have hlt : 0 < x.read t.signed := by omega
      obtain ⟨n, hn⟩ := Int.eq_ofNat_of_zero_le (Int.le_of_lt hlt)
      have hmul := h n hn
      rw [hn] at hmul hhigh hstep hlt
      have hsteps : (0 : ℤ) ≤ n * C.size (stepType C (.pointer p)) :=
        Int.mul_nonneg (by omega) (by omega)
      have helems : (0 : ℤ) ≤ n * C.sizeof elem := Int.mul_nonneg (by omega) (by omega)
      have heq := ofInt_inj ⟨by omega, hstep⟩ ⟨by omega, hhigh⟩ hmul
      have hcancel := Int.eq_of_mul_eq_mul_left (by omega) heq
      omega
  · rintro (hle | hsize) n hn
    · obtain rfl : n = 0 := by omega
      rw [hn]
      simp
    · rw [hn, hsize]

/-- The difference is the index when it is not negative, or has 64 bits already. -/
theorem difference_iff (hwidth : x.width < 64) :
    (∃ v s', (lowerExpr C (.binop 2 (.binop 1 (.pointer p) (.integer x)) (.pointer p))).run s =
      some (some (.int v), s') ∧ v.read true = x.read t.signed) ↔ 0 ≤ x.read t.signed := by
  have hrun : (lowerExpr C (.binop 2 (.binop 1 (.pointer p) (.integer x)) (.pointer p))).run s =
      some (some (.int (int64 (s.cells p.storage + x.bits.setWidth 64 - s.cells p.storage))),
        (s.loads p.place).loads p.place) := rfl
  have hread : (int64 (s.cells p.storage + x.bits.setWidth 64 - s.cells p.storage)).read true =
      x.bits.toNat := by
    rw [BitVec.add_comm, BitVec.add_sub_cancel]
    have hlt := x.bits.isLt
    have hpow : 2 ^ x.width ≤ 2 ^ 63 := Nat.pow_le_pow_right (by decide) (by omega)
    show ((x.bits.setWidth 64).toInt : ℤ) = _
    rw [BitVec.toInt_setWidth]
    apply Int.bmod_eq_of_le_mul_two <;> omega
  constructor
  · rintro ⟨v, s', hv, heq⟩
    rw [hrun] at hv
    obtain ⟨hv, -⟩ := Prod.mk.inj (Option.some.inj hv)
    obtain rfl := Value.int.inj (Option.some.inj hv)
    omega
  · intro hpos
    have hreach := inReach_read t.signed x
    have hnat := toNat_eq_emod t.signed x
    have hlt : x.read t.signed < 2 ^ x.width := by
      have hhalf := IntType.two_pow_width ⟨true, x.width, x.width_pos⟩
      simp only at hhalf
      unfold InReach at hreach
      split_ifs at hreach <;> omega
    rw [Int.emod_eq_of_lt hpos hlt] at hnat
    exact ⟨_, _, hrun, hread.trans hnat⟩

end OtherForms

/-- The forms do not go by the size of the elements together, for any pointer and any index:
`*(p + i)` is never the element. -/
theorem not_scales (s : State) (p : PointerVar) (elem : Pointee) (t : IntType) (x : LlvmInt) :
    ¬Scales C s p elem t x := fun h => not_denotes_deref_sum h.deref.1

/-- A variable `p`, and nothing known of what it points to. -/
def plainContext : Context where
  tables :=
    { variables_ := fun name => if name = "p" then some ⟨4096, .ptr, none⟩ else none
      globalVariables := fun _ => none
      structFields := fun _ => none
      pointerStructTypes := fun _ => none
      bytePointerVars := fun _ => false
      varStructTag := fun _ => none
      globalStructTags := fun _ => none
      scopeStack := [] }
  structTagTypes := fun _ => none
  structSize := fun _ => 0

/-- For `int *p` and the index 1, `p[1]` is a byte at `p + 1`, and `*(p + 1)` nothing. -/
theorem not_scales_intPointer :
    ¬Scales plainContext ⟨fun _ => 8192, []⟩ ⟨some "p", 4096⟩ (.integer Enumerators.int)
      Enumerators.int (ofInt 32 (by decide) 1) := by
  intro h
  obtain ⟨place, s', hrun, -, hsize⟩ := h.index.1
  rw [lvalue_index] at hrun
  obtain ⟨hplace, -⟩ := Prod.mk.inj (Option.some.inj hrun)
  obtain rfl := Option.some.inj hplace
  exact absurd hsize (by decide)

end OpticC.Pointers
