import OpticC.IntType
import Mathlib.Data.Int.Notation
import Mathlib.Logic.Function.Basic
import Mathlib.Data.List.Induction

/-! Enumerators. C gives each a value in a scope. The parser keeps the values in one flat
table, which array bounds and bit-field widths are read with; expressions of function bodies
are lowered without it. -/

namespace OpticC.Enumerators

inductive UnaryOp where
  | plus | minus | not | bitNot
  deriving DecidableEq, Repr

inductive BinaryOp where
  | add | sub | mul | div | rem | eq | ne | lt | gt | le | ge | land | lor | and | or | xor | shl | shr
  deriving DecidableEq, Repr

/-- An integer constant expression. `other` is a form that the parser does not evaluate, a
character or a `sizeof`, with its value in C. -/
inductive ConstExpr where
  | literal (value : ℕ) (type : IntType)
  | name (n : String)
  | unary (op : UnaryOp) (e : ConstExpr)
  | binary (op : BinaryOp) (l r : ConstExpr)
  | cond (c a b : ConstExpr)
  | cast (type : IntType) (e : ConstExpr)
  | other (type : IntType) (value : ℤ)

def boolValue (b : Bool) : ℤ := if b then 1 else 0

section Parser

def i64 (v : ℤ) : ℤ := Int.bmod v (2 ^ 64)

def bitwise (width : ℕ) (op : BitVec width → BitVec width → BitVec width) (a b : ℤ) : ℤ :=
  (op (BitVec.ofInt width a) (BitVec.ofInt width b)).toInt

def shiftCount (rhs : ℤ) : ℕ := (max rhs 0).toNat % 64

def evalUnary : UnaryOp → ℤ → ℤ
  | .plus, v => v
  -- the operand itself, not its negation
  | .minus, v => v
  | .not, v => if v = 0 then 1 else 0
  | .bitNot, v => -v - 1

/-- `none` when the division overflows. -/
def evalBinary : BinaryOp → ℤ → ℤ → Option ℤ
  | .add, a, b => some (i64 (a + b))
  | .sub, a, b => some (i64 (a - b))
  | .mul, a, b => some (i64 (a * b))
  | .div, a, b => if b = 0 then some 0 else if a = -2 ^ 63 ∧ b = -1 then none else some (a.tdiv b)
  | .rem, a, b => if b = 0 then some 0 else if a = -2 ^ 63 ∧ b = -1 then none else some (a.tmod b)
  | .eq, a, b => some (boolValue (a = b))
  | .ne, a, b => some (boolValue (a ≠ b))
  | .lt, a, b => some (boolValue (a < b))
  | .gt, a, b => some (boolValue (a > b))
  | .le, a, b => some (boolValue (a ≤ b))
  | .ge, a, b => some (boolValue (a ≥ b))
  | .land, a, b => some (boolValue (a ≠ 0 ∧ b ≠ 0))
  | .lor, a, b => some (boolValue (a ≠ 0 ∨ b ≠ 0))
  | .and, a, b => some (bitwise 64 (· &&& ·) a b)
  | .or, a, b => some (bitwise 64 (· ||| ·) a b)
  | .xor, a, b => some (bitwise 64 (· ^^^ ·) a b)
  | .shl, a, b => some (i64 (a * 2 ^ shiftCount b))
  | .shr, a, b => some (a / 2 ^ shiftCount b)

/-- `eval_constant_i64`. -/
def evalConstant (constantInts : String → Option ℤ) : ConstExpr → Option ℤ
  | .literal value _ => some (if value < 2 ^ 32 then value else 0)
  | .name n => constantInts n
  | .unary op e => (evalConstant constantInts e).map (evalUnary op)
  | .binary op l r =>
    (evalConstant constantInts l).bind fun a =>
      (evalConstant constantInts r).bind fun b => evalBinary op a b
  | .cond c a b =>
    (evalConstant constantInts c).bind fun v =>
      if v ≠ 0 then evalConstant constantInts a else evalConstant constantInts b
  | .cast _ e => evalConstant constantInts e
  | .other _ _ => none

/-- `next` is `next_enum_value`. -/
structure Table where
  constantInts : String → Option ℤ
  next : ℤ

def Table.valueOf (T : Table) (value : Option ConstExpr) (first : Bool) : ℤ :=
  match value with
  | some e => (evalConstant T.constantInts e).getD 0
  | none => if first then 0 else T.next

def Table.define (T : Table) (name : String) (value : Option ConstExpr) (first : Bool) : Table where
  constantInts := Function.update T.constantInts name (some (T.valueOf value first))
  next := i64 (T.valueOf value first + 1)

end Parser

section Meaning

structure CValue where
  type : IntType
  value : ℤ

def int : IntType := ⟨true, 32, thirtyTwo_pos⟩

/-- A result of the type; `none` on signed overflow. -/
def inType (t : IntType) (v : ℤ) : Option CValue :=
  if t.signed then if t.Holds v then some ⟨t, v⟩ else none else some ⟨t, t.convert v⟩

def promote (t : IntType) : IntType := if t.width < int.width then int else t

/-- The usual arithmetic conversions. -/
def usual (s t : IntType) : IntType :=
  let s := promote s
  let t := promote t
  if s.width < t.width then t else if t.width < s.width then s else if s.signed then t else s

def cUnary (op : UnaryOp) (a : CValue) : Option CValue :=
  let t := promote a.type
  match op with
  | .plus => some ⟨t, a.value⟩
  | .minus => inType t (-a.value)
  | .not => some ⟨int, boolValue (a.value = 0)⟩
  | .bitNot => inType t (-a.value - 1)

def cBinary (op : BinaryOp) (a b : CValue) : Option CValue :=
  let t := usual a.type b.type
  let x := t.convert a.value
  let y := t.convert b.value
  let s := promote a.type
  match op with
  | .add => inType t (x + y)
  | .sub => inType t (x - y)
  | .mul => inType t (x * y)
  | .div => if y = 0 then none else inType t (x.tdiv y)
  | .rem => if y = 0 then none else if t.Holds (x.tdiv y) then inType t (x.tmod y) else none
  | .eq => some ⟨int, boolValue (x = y)⟩
  | .ne => some ⟨int, boolValue (x ≠ y)⟩
  | .lt => some ⟨int, boolValue (x < y)⟩
  | .gt => some ⟨int, boolValue (x > y)⟩
  | .le => some ⟨int, boolValue (x ≤ y)⟩
  | .ge => some ⟨int, boolValue (x ≥ y)⟩
  | .land => some ⟨int, boolValue (a.value ≠ 0 ∧ b.value ≠ 0)⟩
  | .lor => some ⟨int, boolValue (a.value ≠ 0 ∨ b.value ≠ 0)⟩
  | .and => some ⟨t, t.convert (bitwise t.width (· &&& ·) x y)⟩
  | .or => some ⟨t, t.convert (bitwise t.width (· ||| ·) x y)⟩
  | .xor => some ⟨t, t.convert (bitwise t.width (· ^^^ ·) x y)⟩
  | .shl =>
    if b.value < 0 ∨ (s.width : ℤ) ≤ b.value ∨ (s.signed ∧ a.value < 0) then none
    else inType s (a.value * 2 ^ b.value.toNat)
  | .shr =>
    if b.value < 0 ∨ (s.width : ℤ) ≤ b.value then none else some ⟨s, a.value / 2 ^ b.value.toNat⟩

/-- The type of a constant expression. Enumerators are of type `int`. -/
def cType : ConstExpr → IntType
  | .literal _ type => type
  | .name _ => int
  | .unary .not _ => int
  | .unary _ e => promote (cType e)
  | .binary op l r =>
    match op with
    | .eq | .ne | .lt | .gt | .le | .ge | .land | .lor => int
    | .shl | .shr => promote (cType l)
    | _ => usual (cType l) (cType r)
  | .cond _ a b => usual (cType a) (cType b)
  | .cast type _ => type
  | .other type _ => type

/-- The value of a constant expression; `none` when C gives it none. -/
def cEval (env : String → Option ℤ) : ConstExpr → Option CValue
  | .literal value type => if type.Holds value then some ⟨type, value⟩ else none
  | .name n => (env n).map fun v => ⟨int, v⟩
  | .unary op e => (cEval env e).bind (cUnary op)
  | .binary op l r =>
    (cEval env l).bind fun a =>
      if op = .land ∧ a.value = 0 then some ⟨int, 0⟩
      else if op = .lor ∧ a.value ≠ 0 then some ⟨int, 1⟩
      else (cEval env r).bind fun b => cBinary op a b
  | .cond c a b =>
    (cEval env c).bind fun v =>
      (if v.value ≠ 0 then cEval env a else cEval env b).map fun w =>
        ⟨usual (cType a) (cType b), (usual (cType a) (cType b)).convert w.value⟩
  | .cast type e => (cEval env e).map fun v => ⟨type, type.convert v.value⟩
  | .other type value => some ⟨type, value⟩

/-- The values of enumerators are those of `int`. -/
def fitsInt (v : ℤ) : Option ℤ := if int.Holds v then some v else none

end Meaning

/-- Where an expression stands that consists of the name alone, parentheses, casts and the
left parts of a comma apart. -/
inductive Position where
  | arrayBound
  | bitFieldWidth
  | caseLabel
  | returned
  | staticInitializer
  | loopCondition
  /-- An expression statement, or the left of a comma. -/
  | discarded
  | assigned
  | argument
  | initializer
  | operand
  deriving DecidableEq, Repr

namespace Position

/-- The parser evaluates the expression. -/
def evaluated : Position → Bool
  | arrayBound | bitFieldWidth => true
  | _ => false

/-- What becomes of an expression without a value is right for the value `v`: a label, a
returned value and the parts of a static object are zero, a loop without a condition goes
on; an operator, an assignment, an argument or an initializer is dropped. -/
def missing : Position → ℤ → Bool
  | caseLabel, v | returned, v | staticInitializer, v => v = 0
  | loopCondition, v => v ≠ 0
  | discarded, _ => true
  | _, _ => false

end Position

/-- `bound` says that the tables that the lowering looks into at the position hold the name:
as a variable or a function that the enumerator hides. -/
structure Use where
  position : Position
  name : String
  bound : Bool
  deriving DecidableEq, Repr

/-- What a translation unit says about names: enumerators defined together, any other
declaration of a name, a use of a name, a block. -/
inductive Item where
  | enum (enumerators : List (String × Option ConstExpr))
  | declare (name : String)
  | use (u : Use)
  | block (items : List Item)

/-- The definitions and uses in the order of the text. `meaning` is the value of the name
where it stands for an enumerator. -/
inductive Event where
  | define (name : String) (value : Option ConstExpr) (first : Bool)
  | use (u : Use) (meaning : Option ℤ)

section Scopes

abbrev Env := String → Option ℤ

/-- `next` is the value of an enumerator without its own. -/
def defineAll (env : Env) (next : Option ℤ) (first : Bool) :
    List (String × Option ConstExpr) → List Event × Env
  | [] => ([], env)
  | (name, value) :: rest =>
    let v := match value with
      | some e => (cEval env e).bind fun c => fitsInt c.value
      | none => next
    let (events, env') :=
      defineAll (Function.update env name v) (v.bind fun v => fitsInt (v + 1)) false rest
    (.define name value first :: events, env')

mutual

def itemEvents (env : Env) : Item → List Event × Env
  | .enum enumerators => defineAll env (some 0) true enumerators
  | .declare name => ([], Function.update env name none)
  | .use u => ([.use u (env u.name)], env)
  | .block items => ((itemsEvents env items).1, env)

def itemsEvents (env : Env) : List Item → List Event × Env
  | [] => ([], env)
  | item :: rest =>
    let (events, env') := itemEvents env item
    let (events', env'') := itemsEvents env' rest
    (events ++ events', env'')

end

def events (unit : List Item) : List Event := (itemsEvents (fun _ => none) unit).1

end Scopes

section Uses

def Table.step (T : Table) : Event → Table
  | .define name value first => T.define name value first
  | .use _ _ => T

def tableAfter (before : List Event) : Table := before.foldl Table.step ⟨fun _ => none, 0⟩

/-- The use stands for the value: the parser reads it from its table, or the lowering finds
no value for the name and does what is right for this one. -/
def Contributes (T : Table) (u : Use) (v : ℤ) : Prop :=
  if u.position.evaluated then T.constantInts u.name = some v
  else if u.bound then u.position = .discarded
  else u.position.missing v = true

/-- Every use of an enumerator contributes the value that C assigns to it. -/
def Constants (unit : List Item) : Prop :=
  ∀ before u v after, events unit = before ++ .use u (some v) :: after →
    Contributes (tableAfter before) u v

def Event.Defines (name : String) : Event → Prop
  | .define n _ _ => n = name
  | .use _ _ => False

/-- The last definition of the name in the text, in whatever scope, is read as the value. -/
def LastReadAs (before : List Event) (name : String) (v : ℤ) : Prop :=
  ∃ earlier value first between, before = earlier ++ .define name value first :: between ∧
    (∀ e ∈ between, ¬e.Defines name) ∧ (tableAfter earlier).valueOf value first = v

theorem tableAfter_append (before : List Event) (e : Event) :
    tableAfter (before ++ [e]) = (tableAfter before).step e := by
  unfold tableAfter
  rw [List.foldl_append]
  rfl

theorem append_singleton_eq {before earlier between : List Event} {e d : Event}
    (h : before ++ [e] = earlier ++ d :: between) :
    (before = earlier ∧ e = d ∧ between = []) ∨
      ∃ between', between = between' ++ [e] ∧ before = earlier ++ d :: between' := by
  rcases List.eq_nil_or_concat between with rfl | ⟨between', last, rfl⟩
  · obtain ⟨hb, he⟩ := List.append_inj' h rfl
    exact Or.inl ⟨hb, List.singleton_inj.1 he, rfl⟩
  · rw [List.concat_eq_append, ← List.cons_append, ← List.append_assoc] at h
    obtain ⟨hb, he⟩ := List.append_inj' h rfl
    obtain rfl := List.singleton_inj.1 he
    exact Or.inr ⟨between', List.concat_eq_append, hb⟩

/-- An event that defines another name leaves the last definition. -/
theorem lastReadAs_append {before : List Event} {e : Event} {name : String} {v : ℤ}
    (he : ¬e.Defines name) : LastReadAs (before ++ [e]) name v ↔ LastReadAs before name v := by
  constructor
  · rintro ⟨earlier, value, first, between, h, hbetween, hv⟩
    rcases append_singleton_eq h with ⟨-, rfl, -⟩ | ⟨between', rfl, hb⟩
    · exact absurd rfl he
    · exact ⟨earlier, value, first, between', hb,
        fun d hd => hbetween d (List.mem_append_left _ hd), hv⟩
  · rintro ⟨earlier, value, first, between, rfl, hbetween, hv⟩
    refine ⟨earlier, value, first, between ++ [e], by simp, ?_, hv⟩
    intro d hd
    rcases List.mem_append.1 hd with hd | hd
    · exact hbetween d hd
    · rw [List.mem_singleton.1 hd]
      exact he

theorem lastReadAs_define {before : List Event} {name : String} {value : Option ConstExpr}
    {first : Bool} {v : ℤ} :
    LastReadAs (before ++ [.define name value first]) name v ↔
      (tableAfter before).valueOf value first = v := by
  constructor
  · rintro ⟨earlier, value', first', between, h, hbetween, hv⟩
    rcases append_singleton_eq h with ⟨rfl, he, -⟩ | ⟨between', rfl, -⟩
    · cases he
      exact hv
    · exact absurd rfl (hbetween _ (List.mem_append_right _ List.mem_cons_self))
  · intro hv
    exact ⟨before, value, first, [], rfl, fun _ h => absurd h List.not_mem_nil, hv⟩

/-- The table holds what the last definition in the text was read as. -/
theorem constantInts_eq_some {before : List Event} {name : String} {v : ℤ} :
    (tableAfter before).constantInts name = some v ↔ LastReadAs before name v := by
  induction before using List.reverseRecOn with
  | nil =>
    constructor
    · intro h
      cases h
    · rintro ⟨earlier, value, first, between, h, -⟩
      simp at h
  | append_singleton before e ih =>
    rw [tableAfter_append]
    cases e with
    | define n value first =>
      by_cases hn : n = name
      · subst hn
        rw [lastReadAs_define]
        simp [Table.step, Table.define]
      · rw [@lastReadAs_append before (.define n value first) name v hn, ← ih]
        simp [Table.step, Table.define, Function.update_of_ne (Ne.symm hn)]
    | use u meaning =>
      rw [@lastReadAs_append before (.use u meaning) name v id, ← ih]
      rfl

/-- `enum { A = 5 }; int f(void) { return A; }` -/
def returnsEnumerator : List Item :=
  [.enum [("A", some (.literal 5 int))], .block [.use ⟨.returned, "A", false⟩]]

end Uses

end OpticC.Enumerators
