import OpticC.Backend.IntegerExpressions

/-! The stores and calls of an expression. C evaluates the right operand of `&&` and `||` and
the arms of `?:` only when it needs them; the lowering emits the instructions of all operands
one after the other, and has one node for the two forms of `++` and `--`. -/

namespace OpticC.SideEffects

open Enumerators LlvmInt IntegerExpr

/-- An integer type with the specifiers that it is written with. -/
structure Decl where
  specs : List TypeSpecifier
  type : IntType
  named : OpticC.cType specs = some (.int type)

def Decl.width (d : Decl) (form : DeclaredAs) : ℕ := llvmWidth form d.specs

theorem Decl.width_pos (d : Decl) (form : DeclaredAs) : 0 < d.width form := llvmWidth_pos form d.specs

structure Variable where
  decl : Decl
  form : DeclaredAs
  form_ne : form ≠ .result

def Variable.width (v : Variable) : ℕ := v.decl.width v.form

theorem Variable.width_pos (v : Variable) : 0 < v.width := v.decl.width_pos v.form

structure Function where
  params : List Decl
  result : Decl

/-- `callee` is what a call of a function makes of the variables, and the value it returns. The
names that `lower_call_expr` knows itself (`va_start`, `__sync_…`, `__builtin_expect`) are not
among the functions. -/
structure Program where
  vars : String → Variable
  functions : String → Function
  callee : String → List ℤ → (String → ℤ) → (String → ℤ) × ℤ
  returns : ∀ f args mem, (functions f).result.type.Holds (callee f args mem).2

inductive Event where
  | store (name : String) (value : ℤ)
  | call (f : String) (args : List ℤ)
  deriving DecidableEq, Repr

/-- The variables, and the stores and calls so far. -/
structure State where
  mem : String → ℤ
  events : List Event

mutual

/-- `incDec` is `++` or, with `dec`, `--`. -/
inductive Expr where
  | var (x : String)
  | intConst (data : ℕ) (value : ℤ)
  | unary (op : UnaryOp) (e : Expr)
  | binary (op : Operator) (l r : Expr)
  | logAnd (l r : Expr)
  | logOr (l r : Expr)
  | cond (c t e : Expr)
  | comma (l r : Expr)
  | assign (op : Option Operator) (x : String) (e : Expr)
  | incDec (dec isPostfix : Bool) (x : String)
  | call (f : String) (args : Args)

inductive Args where
  | nil
  | cons (e : Expr) (rest : Args)

end

variable (P : Program)

namespace State

/-- A store and its event. -/
def put (s : State) (x : String) (v : ℤ) : State :=
  { mem := Function.update s.mem x v, events := s.events ++ [.store x v] }

/-- Behind a call. -/
def after (s : State) (f : String) (args : List ℤ) : State :=
  { mem := (P.callee f args s.mem).1, events := s.events ++ [.call f args] }

end State

section Lowering

/-- A load. -/
def load (x : String) (s : State) : LlvmInt :=
  ofInt (P.vars x).width (P.vars x).width_pos (s.mem x)

/-- The number that the bits stand for in the variable. -/
def held (x : String) (v : LlvmInt) : ℤ := v.read (P.vars x).decl.type.signed

/-- The arguments as the parameters get them: extended by zeros or cut, and zeros for those
that are missing. -/
def coerceArgs : List Decl → List LlvmInt → Option (List ℤ)
  | [], [] => some []
  | [], _ :: _ => none
  | d :: ds, args =>
    let arg := (args.head?).getD (ofInt 32 thirtyTwo_pos 0)
    (coerceArgs ds args.tail).map fun rest =>
      (arg.zextOrTrunc (d.width .parameter) (d.width_pos .parameter)).read d.type.signed :: rest

/-- The value in front of the store: `apply_assignment_op` when there is an operator. -/
def lowerAssigned (op : Option Operator) (x : String) (y : LlvmInt) (s : State) : Option LlvmInt :=
  match op with
  | none => some y
  | some op => if op.isComparison then none else lowerBinop op.data (coerce (load P x s) y)

/-- `coerce_to_bool` -/
def truth (x : LlvmInt) : Bool := x.bits != 0

mutual

/-- `lower_expr`, with what the emitted instructions do. -/
def lowerExpr : Expr → State → Option (LlvmInt × State)
  | .var x, s => some (load P x s, s)
  | .intConst data _, s => some (ofInt 32 thirtyTwo_pos data, s)
  | .unary op e, s => do
    let (x, s) ← lowerExpr e s
    let v ← lowerUnop (unaryData op) x
    return (v, s)
  | .binary op l r, s => do
    let (x, s) ← lowerExpr l s
    let (y, s) ← lowerExpr r s
    let v ← lowerBinop op.data (coerce x y)
    return (v, s)
  -- `&&` and `||` are operators of `lower_binop`
  | .logAnd l r, s => do
    let (x, s) ← lowerExpr l s
    let (y, s) ← lowerExpr r s
    let v ← lowerBinop 12 (coerce x y)
    return (v, s)
  | .logOr l r, s => do
    let (x, s) ← lowerExpr l s
    let (y, s) ← lowerExpr r s
    let v ← lowerBinop 13 (coerce x y)
    return (v, s)
  | .cond c t e, s => do
    let (x, s) ← lowerExpr c s
    let (y, s) ← lowerExpr t s
    let (z, s) ← lowerExpr e s
    return (if y.width = z.width then if truth x then y else z else y, s)
  | .comma l r, s => do
    let (_, s) ← lowerExpr l s
    lowerExpr r s
  | .assign op x e, s => do
    let (y, s) ← lowerExpr e s
    let v ← lowerAssigned P op x y s
    let s := s.put x (held P x (v.intCast (P.vars x).width (P.vars x).width_pos))
    return (load P x s, s)
  -- the node is the same for both forms
  | .incDec dec _ x, s =>
    let current := load P x s
    let updated : LlvmInt :=
      ⟨current.width, current.width_pos, if dec then current.bits - 1 else current.bits + 1⟩
    some (updated, s.put x (held P x updated))
  | .call f args, s => do
    let (xs, s) ← lowerArgs args s
    let args ← coerceArgs (P.functions f).params xs
    let result := (P.functions f).result
    return (ofInt (result.width .result) (result.width_pos .result) (P.callee f args s.mem).2,
      s.after P f args)

def lowerArgs : Args → State → Option (List LlvmInt × State)
  | .nil, s => some ([], s)
  | .cons e rest, s => do
    let (x, s) ← lowerExpr e s
    let (xs, s) ← lowerArgs rest s
    return (x :: xs, s)

end

end Lowering

section Meaning

/-- The type of the expression. -/
def typeOf : Expr → IntType
  | .var x => (P.vars x).decl.type
  | .intConst _ _ => int
  | .unary op e => if op = .not then int else promote (typeOf e)
  | .binary op l r =>
    if op.isComparison then int
    else if op = .shl ∨ op = .shr then promote (typeOf l)
    else usual (typeOf l) (typeOf r)
  | .logAnd _ _ => int
  | .logOr _ _ => int
  | .cond _ t e => usual (typeOf t) (typeOf e)
  | .comma _ r => typeOf r
  | .assign _ x _ => (P.vars x).decl.type
  | .incDec _ _ x => (P.vars x).decl.type
  | .call f _ => (P.functions f).result.type

/-- The value of a variable; none when it holds no value of its type. -/
def cLoad (x : String) (s : State) : Option CValue :=
  let t := (P.vars x).decl.type
  if t.Holds (s.mem x) then some ⟨t, s.mem x⟩ else none

/-- The value in front of the conversion of an assignment. -/
def assigned (op : Option Operator) (x : String) (b : CValue) (s : State) : Option CValue :=
  match op with
  | none => some b
  | some op => if op.isComparison then none else (cLoad P x s).bind fun a => cBinary op.meaning a b

/-- The arguments converted to the types of the parameters. -/
def convertArgs : List Decl → List CValue → Option (List ℤ)
  | [], [] => some []
  | d :: ds, v :: vs => (convertArgs ds vs).map (d.type.convert v.value :: ·)
  | _, _ => none

mutual

/-- The evaluation in C, operands and arguments from left to right. -/
def cEval : Expr → State → Option (CValue × State)
  | .var x, s => (cLoad P x s).map (·, s)
  | .intConst _ value, s => if int.Holds value then some (⟨int, value⟩, s) else none
  | .unary op e, s => do
    let (a, s) ← cEval e s
    let c ← cUnary op a
    return (c, s)
  | .binary op l r, s => do
    let (a, s) ← cEval l s
    let (b, s) ← cEval r s
    let c ← cBinary op.meaning a b
    return (c, s)
  | .logAnd l r, s => do
    let (a, s) ← cEval l s
    if a.value = 0 then return (⟨int, 0⟩, s)
    else
      let (b, s) ← cEval r s
      return (⟨int, boolValue (b.value ≠ 0)⟩, s)
  | .logOr l r, s => do
    let (a, s) ← cEval l s
    if a.value ≠ 0 then return (⟨int, 1⟩, s)
    else
      let (b, s) ← cEval r s
      return (⟨int, boolValue (b.value ≠ 0)⟩, s)
  | .cond c t e, s => do
    let (a, s) ← cEval c s
    let (v, s) ← (if a.value ≠ 0 then cEval t s else cEval e s)
    let type := usual (typeOf P t) (typeOf P e)
    return (⟨type, type.convert v.value⟩, s)
  | .comma l r, s => do
    let (_, s) ← cEval l s
    cEval r s
  | .assign op x e, s => do
    let (b, s) ← cEval e s
    let c ← assigned P op x b s
    let t := (P.vars x).decl.type
    return (⟨t, t.convert c.value⟩, s.put x (t.convert c.value))
  | .incDec dec isPostfix x, s => do
    let a ← cLoad P x s
    let c ← cBinary (if dec then .sub else .add) a ⟨int, 1⟩
    let new : CValue := ⟨a.type, a.type.convert c.value⟩
    return (if isPostfix then a else new, s.put x new.value)
  | .call f args, s => do
    let (vs, s) ← cArgs args s
    let args ← convertArgs (P.functions f).params vs
    return (⟨(P.functions f).result.type, (P.callee f args s.mem).2⟩, s.after P f args)

def cArgs : Args → State → Option (List CValue × State)
  | .nil, s => some ([], s)
  | .cons e rest, s => do
    let (v, s) ← cEval e s
    let (vs, s) ← cArgs rest s
    return (v :: vs, s)

end

end Meaning

/-- Where C defines the evaluation, the emitted instructions end in the same state, by the
same stores and calls, and with C's value when it is wanted. -/
def Right (wanted : Bool) (e : Expr) (s : State) : Prop :=
  ∀ c s', cEval P e s = some (c, s') → ∃ x, lowerExpr P e s = some (x, s') ∧
    (wanted → x.read c.type.signed = c.value)

mutual

/-- What holds of an expression and of all that C evaluates for it. The left of a comma is not
wanted for its value. -/
def Everywhere (Q : Bool → Expr → State → Prop) : Bool → Expr → State → Prop
  | w, .var x, s => Q w (.var x) s
  | w, .intConst data value, s => Q w (.intConst data value) s
  | w, .unary op e, s => Everywhere Q true e s ∧ Q w (.unary op e) s
  | w, .binary op l r, s =>
    (Everywhere Q true l s ∧ ∀ a s1, cEval P l s = some (a, s1) → Everywhere Q true r s1) ∧
      Q w (.binary op l r) s
  | w, .logAnd l r, s =>
    (Everywhere Q true l s ∧
      ∀ a s1, cEval P l s = some (a, s1) → a.value ≠ 0 → Everywhere Q true r s1) ∧
      Q w (.logAnd l r) s
  | w, .logOr l r, s =>
    (Everywhere Q true l s ∧
      ∀ a s1, cEval P l s = some (a, s1) → a.value = 0 → Everywhere Q true r s1) ∧
      Q w (.logOr l r) s
  | w, .cond c t e, s =>
    (Everywhere Q true c s ∧ ∀ a s1, cEval P c s = some (a, s1) →
      (a.value ≠ 0 → Everywhere Q w t s1) ∧ (a.value = 0 → Everywhere Q w e s1)) ∧
      Q w (.cond c t e) s
  | w, .comma l r, s =>
    (Everywhere Q false l s ∧ ∀ a s1, cEval P l s = some (a, s1) → Everywhere Q w r s1) ∧
      Q w (.comma l r) s
  | w, .assign op x e, s => Everywhere Q true e s ∧ Q w (.assign op x e) s
  | w, .incDec dec isPostfix x, s => Q w (.incDec dec isPostfix x) s
  | w, .call f args, s => EverywhereArgs Q args s ∧ Q w (.call f args) s

def EverywhereArgs (Q : Bool → Expr → State → Prop) : Args → State → Prop
  | .nil, _ => True
  | .cons e rest, s =>
    Everywhere Q true e s ∧ ∀ a s1, cEval P e s = some (a, s1) → EverywhereArgs Q rest s1

end

end OpticC.SideEffects
