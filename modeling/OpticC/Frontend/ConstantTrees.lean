import OpticC.Backend.RecordTypes
import OpticC.Frontend.Enumerators
import OpticC.Frontend.ExprTree

/-! Constant expressions as the parser leaves them in the arena, and the two evaluators that
walk its nodes, the parser's and the backend's. -/

namespace OpticC.Constants

open Enumerators (UnaryOp BinaryOp)

/-- A constant expression over integer constants. -/
inductive ConstTree where
  | constant (value : ℕ)
  | unary (op : UnaryOp) (e : ConstTree)
  | binary (op : BinaryOp) (l r : ConstTree)
  | cond (c a b : ConstTree)
  | comma (l r : ConstTree)
  deriving DecidableEq

section Parser

def unaryCode : UnaryOp → ℕ
  | .plus => 0
  | .minus => 1
  | .not => 2
  | .bitNot => 3

def binaryCode : BinaryOp → ℕ
  | .add => 1
  | .sub => 2
  | .mul => 3
  | .div => 4
  | .rem => 5
  | .eq => 6
  | .ne => 7
  | .lt => 8
  | .gt => 9
  | .le => 10
  | .ge => 11
  | .land => 12
  | .lor => 13
  | .and => 14
  | .or => 15
  | .xor => 16
  | .shl => 17
  | .shr => 18

/-- The nodes below `off` are those of the tree. -/
inductive TreeAt (a : Arena) : ℕ → ConstTree → Prop
  | constant {off : ℕ} {n : CAstNode} : a.get off = some n → n.kind = 61 →
      TreeAt a off (.constant n.data)
  | unary {off : ℕ} {n : CAstNode} {op : UnaryOp} {e : ConstTree} : a.get off = some n →
      n.kind = 65 → n.data = unaryCode op → TreeAt a n.firstChild e → TreeAt a off (.unary op e)
  | binary {off : ℕ} {n w : CAstNode} {op : BinaryOp} {l r : ConstTree} : a.get off = some n →
      n.kind = 64 → n.data = binaryCode op → a.get n.firstChild = some w → w.kind = 0 →
      TreeAt a w.firstChild l → TreeAt a w.nextSibling r → TreeAt a off (.binary op l r)
  | cond {off : ℕ} {n w : CAstNode} {c x y : ConstTree} : a.get off = some n → n.kind = 66 →
      TreeAt a n.firstChild c → a.get n.nextSibling = some w → TreeAt a w.firstChild x →
      TreeAt a w.nextSibling y → TreeAt a off (.cond c x y)
  | comma {off : ℕ} {n : CAstNode} {l r : ConstTree} : a.get off = some n → n.kind = 72 →
      TreeAt a n.firstChild l → TreeAt a n.nextSibling r → TreeAt a off (.comma l r)

/-- The allocations of the parser for a tree, in its order. -/
def build : ConstTree → Arena → ℕ × Arena
  | .constant value, a => a.put ⟨61, true, 0, 0, 0, value⟩
  | .unary op e, a =>
    let (operand, a) := build e a
    a.put ⟨65, true, 0, operand, 0, unaryCode op⟩
  | .binary op l r, a =>
    let (left, a) := build l a
    let (right, a) := build r a
    let (operands, a) := a.put ⟨0, true, 0, left, right, 0⟩
    a.put ⟨64, true, 0, operands, 0, binaryCode op⟩
  | .cond c x y, a =>
    let (condition, a) := build c a
    let (thenExpr, a) := build x a
    let (elseExpr, a) := build y a
    let (elseNode, a) := a.put ⟨0, true, 0, thenExpr, elseExpr, 0⟩
    a.put ⟨66, true, 0, condition, elseNode, 0⟩
  | .comma l r, a =>
    let (left, a) := build l a
    let (right, a) := build r a
    a.put ⟨72, true, 0, left, right, 0⟩

/-- The nodes that `build` allocates. -/
def ConstTree.size : ConstTree → ℕ
  | .constant _ => 1
  | .unary _ e => e.size + 1
  | .binary _ l r => l.size + r.size + 2
  | .cond c x y => c.size + x.size + y.size + 2
  | .comma l r => l.size + r.size + 1

def ConstTree.depth : ConstTree → ℕ
  | .constant _ => 1
  | .unary _ e => e.depth + 1
  | .binary _ l r => max l.depth r.depth + 1
  | .cond c x y => max c.depth (max x.depth y.depth) + 1
  | .comma l r => max l.depth r.depth + 1

end Parser

section Evaluators

def parserUnary (code : ℕ) (v : BitVec 64) : BitVec 64 :=
  match code with
  | 1 => v
  | 2 => if v = 0 then 1 else 0
  | 3 => ~~~v
  | _ => v

/-- The value of a comparison or of a logical operator. -/
def truth (p : Prop) [Decidable p] : BitVec 64 := if p then 1 else 0

/-- `rhs.max(0) as u32`, of which a shift takes six bits. -/
def shiftCount (rhs : BitVec 64) : ℕ := (if rhs.slt 0 then 0 else rhs.toNat) % 2 ^ 32 % 64

/-- A division that overflows panics, and there is no value. -/
def parserBinary (code : ℕ) (lhs rhs : BitVec 64) : Option (BitVec 64) :=
  match code with
  | 1 => some (lhs + rhs)
  | 2 => some (lhs - rhs)
  | 3 => some (lhs * rhs)
  | 4 => if rhs = 0 then some 0
    else if lhs = BitVec.intMin 64 ∧ rhs = -1 then none else some (lhs.sdiv rhs)
  | 5 => if rhs = 0 then some 0
    else if lhs = BitVec.intMin 64 ∧ rhs = -1 then none else some (lhs.srem rhs)
  | 6 => some (truth (lhs = rhs))
  | 7 => some (truth (lhs ≠ rhs))
  | 8 => some (truth (lhs.slt rhs))
  | 9 => some (truth (rhs.slt lhs))
  | 10 => some (truth (lhs.sle rhs))
  | 11 => some (truth (rhs.sle lhs))
  | 12 => some (truth (lhs ≠ 0 ∧ rhs ≠ 0))
  | 13 => some (truth (lhs ≠ 0 ∨ rhs ≠ 0))
  | 14 => some (lhs &&& rhs)
  | 15 => some (lhs ||| rhs)
  | 16 => some (lhs ^^^ rhs)
  | 17 => some (lhs <<< shiftCount rhs)
  | 18 => some (lhs.sshiftRight (shiftCount rhs))
  | _ => none

variable (a : Arena) (constantInts : String → Option ℤ)

/-- The operands of a binary node, for both evaluators: those of its wrapper, or else two
siblings, of which the two look for the second one in a different order. -/
def binaryOperands (n : CAstNode) (second : ℕ → ℕ) : ℕ × ℕ :=
  match a.get n.firstChild with
  | some w =>
    if w.kind = 0 ∧ w.firstChild ≠ 0 ∧ w.nextSibling ≠ 0 then (w.firstChild, w.nextSibling)
    else (n.firstChild, second w.nextSibling)
  | none => (n.firstChild, 0)

/-- The first sibling behind the type specifiers of a cast, if there is one. -/
def castOperand : ℕ → ℕ → Option ℕ
  | 0, _ => none
  | fuel + 1, tail =>
    (a.get tail).bind fun child =>
      (a.get child.nextSibling).bind fun next =>
        if (1 ≤ next.kind ∧ next.kind ≤ 16) ∨ next.kind = 83 ∨ next.kind = 84 ∨
            (101 ≤ next.kind ∧ next.kind ≤ 106) ∨ next.kind = 200 then
          castOperand fuel child.nextSibling
        else some child.nextSibling

/-- `Parser::eval_constant_i64`; `fuel` bounds the depth of the recursion. -/
def evalConstantI64 : ℕ → ℕ → Option (BitVec 64)
  | 0, _ => none
  | fuel + 1, offset =>
    (a.get offset).bind fun n =>
      match n.kind with
      | 60 => (a.getString n.data).bind fun name => (constantInts name).map (BitVec.ofInt 64)
      | 61 | 80 => some (BitVec.ofNat 64 n.data)
      | 65 => (evalConstantI64 fuel n.firstChild).map (parserUnary n.data)
      | 64 =>
        let operands := binaryOperands a n fun next => if n.nextSibling ≠ 0 then n.nextSibling else next
        (evalConstantI64 fuel operands.1).bind fun lhs =>
          (evalConstantI64 fuel operands.2).bind fun rhs => parserBinary n.data lhs rhs
      | 66 =>
        (evalConstantI64 fuel n.firstChild).bind fun cond =>
          (a.get n.nextSibling).bind fun w =>
            if cond ≠ 0 then evalConstantI64 fuel w.firstChild else evalConstantI64 fuel w.nextSibling
      | 70 =>
        match castOperand a fuel n.firstChild with
        | some operand => evalConstantI64 fuel operand
        | none => evalConstantI64 fuel n.firstChild
      | 72 => evalConstantI64 fuel n.nextSibling
      | _ => none

/-- `LlvmBackend::eval_const_int_expr`; `fuel` bounds the depth of the recursion. -/
def evalConstIntExpr : ℕ → ℕ → Option (BitVec 64)
  | 0, _ => none
  | fuel + 1, offset =>
    (a.get offset).bind fun n =>
      match n.kind with
      | 0 | 74 => if n.firstChild ≠ 0 then evalConstIntExpr fuel n.firstChild else none
      | 61 | 80 | 62 => some (BitVec.ofNat 64 n.data)
      | 65 => (evalConstIntExpr fuel n.firstChild).bind (Sizes.constUnary n.data)
      | 64 =>
        let operands := binaryOperands a n fun next => if next ≠ 0 then next else n.nextSibling
        (evalConstIntExpr fuel operands.1).bind fun lhs =>
          (evalConstIntExpr fuel operands.2).bind fun rhs => Sizes.constBinary n.data lhs rhs
      | _ => none

end Evaluators

end OpticC.Constants
