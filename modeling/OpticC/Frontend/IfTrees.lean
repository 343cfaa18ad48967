import OpticC.Frontend.IfExpression
import OpticC.Frontend.IntegerConstants
import OpticC.Frontend.Enumerators

/-! Expressions of `#if` lines over integer constants, with the tokens they are written with
and their value in C. -/

namespace OpticC.Preprocessor

open Enumerators (UnaryOp BinaryOp)

/-- A token of the expression and the whitespace in front of it. -/
structure Mark (kind : PpTokenKind) (text : String) where
  gap : List PpToken
  token : PpToken
  gap_kind : ∀ t ∈ gap, t.kind = .whitespace
  token_kind : token.kind = kind
  token_text : token.text = text

def Mark.tokens {kind : PpTokenKind} {text : String} (m : Mark kind text) : List PpToken :=
  m.gap ++ [m.token]

def unaryText : UnaryOp → String
  | .plus => "+"
  | .minus => "-"
  | .not => "!"
  | .bitNot => "~"

def binaryText : BinaryOp → String
  | .add => "+"
  | .sub => "-"
  | .mul => "*"
  | .div => "/"
  | .rem => "%"
  | .eq => "=="
  | .ne => "!="
  | .lt => "<"
  | .gt => ">"
  | .le => "<="
  | .ge => ">="
  | .land => "&&"
  | .lor => "||"
  | .and => "&"
  | .or => "|"
  | .xor => "^"
  | .shl => "<<"
  | .shr => ">>"

/-- The precedence of an operator, from `||` up to `*`. -/
def binaryPrecedence : BinaryOp → ℕ
  | .lor => 1
  | .land => 2
  | .or => 3
  | .xor => 4
  | .and => 5
  | .eq | .ne => 6
  | .lt | .gt | .le | .ge => 7
  | .shl | .shr => 8
  | .add | .sub => 9
  | .mul | .div | .rem => 10

inductive IfTree where
  | literal (k : IntConstant) (m : Mark .number (String.ofList k.text))
  | paren (opening : Mark .punctuator "(") (e : IfTree) (closing : Mark .punctuator ")")
  | unary (op : UnaryOp) (m : Mark .punctuator (unaryText op)) (e : IfTree)
  | binary (op : BinaryOp) (l : IfTree) (m : Mark .punctuator (binaryText op)) (r : IfTree)
  | cond (c : IfTree) (question : Mark .punctuator "?") (x : IfTree)
      (colon : Mark .punctuator ":") (y : IfTree)

namespace IfTree

def tokens : IfTree → List PpToken
  | literal _ m => m.tokens
  | paren opening e closing => opening.tokens ++ (e.tokens ++ closing.tokens)
  | unary _ m e => m.tokens ++ e.tokens
  | binary _ l m r => l.tokens ++ (m.tokens ++ r.tokens)
  | cond c question x colon y =>
    c.tokens ++ (question.tokens ++ (x.tokens ++ (colon.tokens ++ y.tokens)))

def size : IfTree → ℕ
  | literal _ _ => 1
  | paren _ e _ => e.size + 1
  | unary _ _ e => e.size + 1
  | binary _ l _ r => l.size + r.size + 1
  | cond c _ x _ y => c.size + x.size + y.size + 1

/-- The level of the grammar that the tree belongs to; 0 is a conditional. -/
def level : IfTree → ℕ
  | literal _ _ => 12
  | paren _ _ _ => 12
  | unary _ _ _ => 11
  | binary op _ _ _ => binaryPrecedence op
  | cond _ _ _ _ _ => 0

/-- The grammar of C: binary operators associate to the left. -/
def Grammatical : IfTree → Prop
  | literal _ _ => True
  | paren _ e _ => e.Grammatical
  | unary _ _ e => e.Grammatical ∧ 11 ≤ e.level
  | binary op l _ r =>
    l.Grammatical ∧ r.Grammatical ∧ binaryPrecedence op ≤ l.level ∧ binaryPrecedence op < r.level
  | cond c _ x _ y => c.Grammatical ∧ x.Grammatical ∧ y.Grammatical ∧ 1 ≤ c.level

/-- No `==` or `!=` has another one for its left operand, and no comparison a comparison. -/
def Unchained : IfTree → Prop
  | literal _ _ => True
  | paren _ e _ => e.Unchained
  | unary _ _ e => e.Unchained
  | binary op l _ r =>
    l.Unchained ∧ r.Unchained ∧
      (binaryPrecedence op = 6 ∨ binaryPrecedence op = 7 → l.level ≠ binaryPrecedence op)
  | cond c _ x _ y => c.Unchained ∧ x.Unchained ∧ y.Unchained

end IfTree

section Values

/-- A suffix U, or a value that only the unsigned type holds. -/
def HasUnsignedType (k : IntConstant) : Prop :=
  'u' ∈ k.suffix ∨ 'U' ∈ k.suffix ∨ 2 ^ 63 ≤ k.value

instance (k : IntConstant) : Decidable (HasUnsignedType k) :=
  inferInstanceAs (Decidable (_ ∨ _ ∨ _))

/-- The value of a constant, `none` when no type holds it. -/
def literalValue (k : IntConstant) : Option (BitVec 64) :=
  if 2 ^ 64 ≤ k.value ∨
      (2 ^ 63 ≤ k.value ∧ k.base = .decimal ∧ 'u' ∉ k.suffix ∧ 'U' ∉ k.suffix) then none
  else some (BitVec.ofNat 64 k.value)

/-- Whether the type is `uintmax_t`; the results of comparisons and logical operators are
signed, and other operators convert to the unsigned type of either operand. -/
def IfTree.isUnsigned : IfTree → Bool
  | literal k _ => decide (HasUnsignedType k)
  | paren _ e _ => e.isUnsigned
  | unary op _ e => op != .not && e.isUnsigned
  | binary op l _ r =>
    match op with
    | .eq | .ne | .lt | .gt | .le | .ge | .land | .lor => false
    | .shl | .shr => l.isUnsigned
    | _ => l.isUnsigned || r.isUnsigned
  | cond _ _ x _ y => x.isUnsigned || y.isUnsigned

def ifUnary : UnaryOp → BitVec 64 → BitVec 64
  | .plus, v => v
  | .minus, v => -v
  | .not, v => flag (v == 0)
  | .bitNot, v => ~~~v

/-- The operators of C in wrapping 64-bit arithmetic; `ul` and `ur` tell the operands that are
unsigned. A zero divisor and a count outside the width give no value. -/
def cBinary (op : BinaryOp) (ul ur : Bool) (x y : BitVec 64) : Option (BitVec 64) :=
  let unsigned := ul || ur
  match op with
  | .add => some (x + y)
  | .sub => some (x - y)
  | .mul => some (x * y)
  | .div => if y = 0 then none else some (if unsigned then x.udiv y else x.sdiv y)
  | .rem => if y = 0 then none else some (if unsigned then x.umod y else x.srem y)
  | .eq => some (flag (x == y))
  | .ne => some (flag (x != y))
  | .lt => some (flag (if unsigned then x.ult y else x.slt y))
  | .gt => some (flag (if unsigned then y.ult x else y.slt x))
  | .le => some (flag (if unsigned then x.ule y else x.sle y))
  | .ge => some (flag (if unsigned then y.ule x else y.sle x))
  | .land => some (flag (x != 0 && y != 0))
  | .lor => some (flag (x != 0 || y != 0))
  | .and => some (x &&& y)
  | .or => some (x ||| y)
  | .xor => some (x ^^^ y)
  | .shl => if 64 ≤ y.toNat then none else some (x <<< y.toNat)
  | .shr =>
    if 64 ≤ y.toNat then none
    else some (if ul then x >>> y.toNat else x.sshiftRight y.toNat)

/-- The value of an expression in C. -/
def IfTree.cValue : IfTree → Option (BitVec 64)
  | literal k _ => literalValue k
  | paren _ e _ => e.cValue
  | unary op _ e => e.cValue.map (ifUnary op)
  | binary op l _ r =>
    l.cValue.bind fun x =>
      if op = .land ∧ x = 0 then some 0
      else if op = .lor ∧ x ≠ 0 then some 1
      else r.cValue.bind fun y => cBinary op l.isUnsigned r.isUnsigned x y
  | cond c _ x _ y => c.cValue.bind fun v => if v ≠ 0 then x.cValue else y.cValue

/-- The operators of the evaluator, as its tables have them. -/
def ifOp : BinaryOp → IfOp
  | .add => fun x y => .ok (x + y)
  | .sub => fun x y => .ok (x - y)
  | .mul => fun x y => .ok (x * y)
  | .div => fun x y => divide x y "division by zero in #if expression" (x.sdiv y)
  | .rem => fun x y => divide x y "modulo by zero in #if expression" (x.srem y)
  | .eq => fun x y => .ok (flag (x == y))
  | .ne => fun x y => .ok (flag (x != y))
  | .lt => fun x y => .ok (flag (x.slt y))
  | .gt => fun x y => .ok (flag (y.slt x))
  | .le => fun x y => .ok (flag (x.sle y))
  | .ge => fun x y => .ok (flag (y.sle x))
  | .land => fun x y => .ok (flag (x != 0 && y != 0))
  | .lor => fun x y => .ok (flag (x != 0 || y != 0))
  | .and => fun x y => .ok (x &&& y)
  | .or => fun x y => .ok (x ||| y)
  | .xor => fun x y => .ok (x ^^^ y)
  | .shl => fun x y => .ok (x <<< (y.toNat % 64))
  | .shr => fun x y => .ok (x.sshiftRight (y.toNat % 64))

/-- The value when every operand is computed, in signed arithmetic. -/
def IfTree.computed : IfTree → Except PreprocessorError (BitVec 64)
  | literal k _ => .ok (if k.value < 2 ^ 63 then BitVec.ofNat 64 k.value else 0)
  | paren _ e _ => e.computed
  | unary op _ e => e.computed.map (ifUnary op)
  | binary op l _ r => l.computed.bind fun x => r.computed.bind fun y => ifOp op x y
  | cond c _ x _ y =>
    c.computed.bind fun v => x.computed.bind fun a => y.computed.bind fun b =>
      .ok (if v != 0 then a else b)

end Values

end OpticC.Preprocessor
