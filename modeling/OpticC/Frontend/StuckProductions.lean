import OpticC.Frontend.Expression
import OpticC.Lib.Approximation

/-! An expression that is read without the productions outside of the expressions is read the same
with any. -/

namespace OpticC

open Approximation

/-- Productions that never return. -/
def Productions.stuck : Productions where
  declarationSpecifiers := throw .outOfFuel
  declarator := throw .outOfFuel
  initializer := throw .outOfFuel
  statementExpr := throw .outOfFuel
  typeofExpr := throw .outOfFuel
  extensionWrapper := throw .outOfFuel
  labelAddr := throw .outOfFuel
  builtinCall := fun _ => throw .outOfFuel

section Expressions

/-- The parsers of expressions, with and without these productions. -/
structure ExpressionsBelow (G : Productions) (fuel : ℕ) : Prop where
  expression : Below (parseExpression .stuck fuel) (parseExpression G fuel)
  comma : Below (parseCommaExpression .stuck fuel) (parseCommaExpression G fuel)
  assignment : Below (parseAssignmentExpression .stuck fuel) (parseAssignmentExpression G fuel)
  conditional : Below (parseConditionalExpression .stuck fuel) (parseConditionalExpression G fuel)
  binaryOp : ∀ precedence,
    Below (parseBinaryOp .stuck fuel precedence) (parseBinaryOp G fuel precedence)
  binaryOpLoop : ∀ precedence left, Below (parseBinaryOpLoop .stuck fuel precedence left)
    (parseBinaryOpLoop G fuel precedence left)
  unary : Below (parseUnaryExpression .stuck fuel) (parseUnaryExpression G fuel)
  sizeof : Below (parseSizeofExpression .stuck fuel) (parseSizeofExpression G fuel)
  cast : Below (parseCastExpression .stuck fuel) (parseCastExpression G fuel)
  postfix_ : Below (parsePostfixExpression .stuck fuel) (parsePostfixExpression G fuel)
  postfixLoop : ∀ expr, Below (parsePostfixLoop .stuck fuel expr) (parsePostfixLoop G fuel expr)
  argumentList :
    Below (parseArgumentExpressionList .stuck fuel) (parseArgumentExpressionList G fuel)
  argumentLoop : ∀ chain, Below (parseArgumentLoop .stuck fuel chain) (parseArgumentLoop G fuel chain)
  primary : Below (parsePrimaryExpression .stuck fuel) (parsePrimaryExpression G fuel)

variable {G : Productions} {fuel : ℕ} (h : ExpressionsBelow G fuel)

include h

theorem below_comma : Below (parseCommaExpression .stuck (fuel + 1))
    (parseCommaExpression G (fuel + 1)) := by
  rw [parseCommaExpression, parseCommaExpression]
  refine h.assignment.bind fun left => .after _ fun b => ?_
  split
  · exact h.comma.bind fun right => .refl _
  · exact .refl _

theorem below_assignment : Below (parseAssignmentExpression .stuck (fuel + 1))
    (parseAssignmentExpression G (fuel + 1)) := by
  rw [parseAssignmentExpression, parseAssignmentExpression]
  refine h.conditional.bind fun left => .after _ fun p => ?_
  split
  · exact .after _ fun _ => h.assignment.bind fun right => .refl _
  · exact .refl _

theorem below_conditional : Below (parseConditionalExpression .stuck (fuel + 1))
    (parseConditionalExpression G (fuel + 1)) := by
  rw [parseConditionalExpression, parseConditionalExpression]
  refine (h.binaryOp 0).bind fun condition => .after _ fun b => ?_
  split
  · exact h.expression.bind fun thenExpr => .after _ fun _ =>
      h.conditional.bind fun elseExpr => .refl _
  · exact .refl _

theorem below_binaryOpLoop (precedence left : ℕ) :
    Below (parseBinaryOpLoop .stuck (fuel + 1) precedence left)
      (parseBinaryOpLoop G (fuel + 1) precedence left) := by
  rw [parseBinaryOpLoop, parseBinaryOpLoop]
  refine .after _ fun p => ?_
  dsimp only
  split
  · exact .refl _
  · exact .after _ fun _ => (h.binaryOp _).bind fun right => .after _ fun operands =>
      .after _ fun node => h.binaryOpLoop precedence node

theorem below_unary : Below (parseUnaryExpression .stuck (fuel + 1))
    (parseUnaryExpression G (fuel + 1)) := by
  rw [parseUnaryExpression, parseUnaryExpression]
  refine .after _ fun p => ?_
  dsimp only
  split
  · exact h.sizeof
  · split
    · refine .after _ fun _ => ?_
      split
      · exact h.cast.bind fun operand => .refl _
      · exact h.unary.bind fun operand => .refl _
    · exact h.postfix_

theorem below_sizeof : Below (parseSizeofExpression .stuck (fuel + 1))
    (parseSizeofExpression G (fuel + 1)) := by
  rw [parseSizeofExpression, parseSizeofExpression]
  refine .after _ fun _ => .after _ fun b => ?_
  split
  · refine .after _ fun p => ?_
    split
    · exact (Below.throw _ _).bind fun specifiers => .refl _
    · exact h.expression.bind fun expr => .refl _
  · exact h.unary.bind fun operand => .refl _

theorem below_cast : Below (parseCastExpression .stuck (fuel + 1))
    (parseCastExpression G (fuel + 1)) := by
  rw [parseCastExpression, parseCastExpression]
  refine .after _ fun b => ?_
  split
  · refine .after _ fun p => ?_
    dsimp only
    split
    · -- a cast begins with specifiers
      intro s r s' hrun
      cases hrun
    · exact h.expression.bind fun expr => .refl _
  · exact h.unary

theorem below_postfixLoop (expr : ℕ) : Below (parsePostfixLoop .stuck (fuel + 1) expr)
    (parsePostfixLoop G (fuel + 1) expr) := by
  rw [parsePostfixLoop, parsePostfixLoop]
  refine .after _ fun b => ?_
  split
  · exact h.expression.bind fun index => .after _ fun _ => .after _ fun node => h.postfixLoop node
  refine .after _ fun b => ?_
  split
  · refine h.argumentList.bind fun args => .after _ fun _ => ?_
    split
    · exact .after _ fun _ => .after _ fun node => h.postfixLoop node
    · exact .after _ fun node => h.postfixLoop node
  refine .after _ fun b => ?_
  split
  · refine .after _ fun p => ?_
    dsimp only
    split
    · exact .after _ fun _ => .after _ fun member => .after _ fun node => h.postfixLoop node
    · exact h.postfixLoop expr
  refine .after _ fun b => ?_
  split
  · refine .after _ fun p => ?_
    dsimp only
    split
    · exact .after _ fun _ => .after _ fun member => .after _ fun node => h.postfixLoop node
    · exact h.postfixLoop expr
  refine .after _ fun b => ?_
  split
  · exact .after _ fun node => h.postfixLoop node
  refine .after _ fun b => ?_
  split
  · exact .after _ fun node => h.postfixLoop node
  · exact .refl _

theorem below_argumentList : Below (parseArgumentExpressionList .stuck (fuel + 1))
    (parseArgumentExpressionList G (fuel + 1)) := by
  rw [parseArgumentExpressionList, parseArgumentExpressionList]
  refine .after _ fun p => ?_
  split
  · exact h.argumentLoop (0, 0)
  · exact .refl _

theorem below_argumentLoop (chain : ℕ × ℕ) : Below (parseArgumentLoop .stuck (fuel + 1) chain)
    (parseArgumentLoop G (fuel + 1) chain) := by
  rw [parseArgumentLoop, parseArgumentLoop]
  refine h.assignment.bind fun arg => .after _ fun wrapper => .after _ fun chain =>
    .after _ fun p => ?_
  split
  · exact .refl _
  · refine .after _ fun b => ?_
    split
    · exact h.argumentLoop chain
    · exact .refl _

theorem below_primary : Below (parsePrimaryExpression .stuck (fuel + 1))
    (parsePrimaryExpression G (fuel + 1)) := by
  rw [parsePrimaryExpression, parsePrimaryExpression]
  refine .after _ fun p => ?_
  dsimp only
  split
  · exact .throw _ _
  split
  · exact .throw _ _
  split
  · exact .throw _ _
  split
  · exact .after _ fun _ => .throw _ _
  split
  · exact .throw _ _
  split
  · exact .refl _
  · exact .refl _
  · exact .refl _
  · exact .refl _
  · split
    · exact .after _ fun _ => h.expression.bind fun expr => .refl _
    · exact .refl _
  · exact .refl _

end Expressions

theorem expressionsBelow (G : Productions) (fuel : ℕ) : ExpressionsBelow G fuel := by
  induction fuel with
  | zero =>
    constructor
    all_goals
      intros
      simp only [parseExpression, parseCommaExpression, parseAssignmentExpression,
        parseConditionalExpression, parseBinaryOp, parseBinaryOpLoop, parseUnaryExpression,
        parseSizeofExpression, parseCastExpression, parsePostfixExpression, parsePostfixLoop,
        parseArgumentExpressionList, parseArgumentLoop, parsePrimaryExpression]
      exact .refl _
  | succ fuel h =>
    exact {
      expression := by
        rw [parseExpression, parseExpression]
        exact h.comma
      comma := below_comma h
      assignment := below_assignment h
      conditional := below_conditional h
      binaryOp := fun precedence => by
        rw [parseBinaryOp, parseBinaryOp]
        exact h.cast.bind fun left => h.binaryOpLoop precedence left
      binaryOpLoop := below_binaryOpLoop h
      unary := below_unary h
      sizeof := below_sizeof h
      cast := below_cast h
      postfix_ := by
        rw [parsePostfixExpression, parsePostfixExpression]
        exact h.primary.bind fun expr => h.postfixLoop expr
      postfixLoop := below_postfixLoop h
      argumentList := below_argumentList h
      argumentLoop := below_argumentLoop h
      primary := below_primary h }

end OpticC
