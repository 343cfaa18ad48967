import OpticC.Frontend.ForestCalls

/-! Every call of the parsers of expressions adds a tree to the forest. -/

namespace OpticC.NodeForest

/-- A tree goes on from the root `x`: what comes out is the root of a tree, or `NULL`. -/
def Continues (m : ℕ → ParserM ℕ) : Prop :=
  ∀ {a₀ p chain roots x}, Owns a₀ p.arena chain (x :: roots) →
    Runs a₀ (m x) (fun r p' => Owns a₀ p'.arena chain (r :: roots)) p

/-- A list goes on; the roots beside it stay what they are. -/
def Links (m : ℕ × ℕ → ParserM (ℕ × ℕ)) : Prop :=
  ∀ {a₀ p chain roots}, Owns a₀ p.arena chain roots →
    Runs a₀ (m chain) (fun c p' => Owns a₀ p'.arena c roots) p

/-- The productions outside of the expressions add trees. -/
structure ProductionCalls (G : Productions) : Prop where
  declarationSpecifiers : Call G.declarationSpecifiers
  declarator : Call G.declarator
  initializer : Call G.initializer
  statementExpr : Call G.statementExpr
  typeofExpr : Call G.typeofExpr
  extensionWrapper : Call G.extensionWrapper
  labelAddr : Call G.labelAddr
  builtinCall : ∀ name, Call (G.builtinCall name)

/-- The parsers of expressions add trees. -/
structure ExpressionCalls (G : Productions) (fuel : ℕ) : Prop where
  expression : Call (parseExpression G fuel)
  comma : Call (parseCommaExpression G fuel)
  assignment : Call (parseAssignmentExpression G fuel)
  conditional : Call (parseConditionalExpression G fuel)
  binaryOp : ∀ precedence, Call (parseBinaryOp G fuel precedence)
  binaryOpLoop : ∀ precedence, Continues (parseBinaryOpLoop G fuel precedence)
  unary : Call (parseUnaryExpression G fuel)
  sizeof : Call (parseSizeofExpression G fuel)
  cast : Call (parseCastExpression G fuel)
  postfix_ : Call (parsePostfixExpression G fuel)
  postfixLoop : Continues (parsePostfixLoop G fuel)
  argumentList : Call (parseArgumentExpressionList G fuel)
  argumentLoop : ∀ {a₀ p chain roots}, Owns a₀ p.arena chain roots →
    Runs a₀ (parseArgumentLoop G fuel chain) (fun r p' => Owns a₀ p'.arena (0, 0) (r :: roots)) p
  primary : Call (parsePrimaryExpression G fuel)

section Grammar

variable {G : Productions} {fuel : ℕ} (hG : ProductionCalls G) (h : ExpressionCalls G fuel)

include h

theorem call_comma : Call (parseCommaExpression G (fuel + 1)) := by
  refine .of fun a₀ p hp => ?_
  rw [parseCommaExpression]
  refine (h.assignment.runs hp).bind fun left p₁ hp₁ => ?_
  refine (Runs.skipPunctuator _ hp₁).bind fun b p₂ hp₂ => ?_
  split
  · refine (h.comma.runs hp₂).bind fun right p₃ hp₃ => ?_
    exact Runs.alloc₂ _ _ _ hp₃.swap
  · exact Runs.pure hp₂

theorem call_assignment : Call (parseAssignmentExpression G (fuel + 1)) := by
  refine .of fun a₀ p hp => ?_
  rw [parseAssignmentExpression]
  refine (h.conditional.runs hp).bind fun left p₁ hp₁ => ?_
  apply Runs.get
  split
  · refine (Runs.advance hp₁).bind fun _ p₂ hp₂ => ?_
    refine (h.assignment.runs hp₂).bind fun right p₃ hp₃ => ?_
    exact Runs.alloc₂ _ _ _ hp₃.swap
  · exact Runs.pure hp₁

theorem call_conditional : Call (parseConditionalExpression G (fuel + 1)) := by
  refine .of fun a₀ p hp => ?_
  rw [parseConditionalExpression]
  refine ((h.binaryOp 0).runs hp).bind fun condition p₁ hp₁ => ?_
  refine (Runs.skipPunctuator _ hp₁).bind fun b p₂ hp₂ => ?_
  split
  · refine (h.expression.runs hp₂).bind fun thenExpr p₃ hp₃ => ?_
    refine (Runs.expect _ hp₃).bind fun _ p₄ hp₄ => ?_
    refine (h.conditional.runs hp₄).bind fun elseExpr p₅ hp₅ => ?_
    refine (Runs.alloc₂ _ _ _ hp₅.swap).bind fun elseNode p₆ hp₆ => ?_
    exact Runs.alloc₂ _ _ _ hp₆.swap
  · exact Runs.pure hp₂

theorem call_binaryOp (precedence : ℕ) : Call (parseBinaryOp G (fuel + 1) precedence) := by
  refine .of fun a₀ p hp => ?_
  rw [parseBinaryOp]
  exact (h.cast.runs hp).bind fun left p₁ hp₁ => h.binaryOpLoop precedence hp₁

theorem continues_binaryOpLoop (precedence : ℕ) :
    Continues (parseBinaryOpLoop G (fuel + 1) precedence) := by
  intro a₀ p chain roots left hp
  rw [parseBinaryOpLoop]
  apply Runs.get
  dsimp only
  split
  · exact Runs.pure hp
  · refine (Runs.advance hp).bind fun _ p₁ hp₁ => ?_
    refine ((h.binaryOp _).runs hp₁).bind fun right p₂ hp₂ => ?_
    refine (Runs.alloc₂ _ _ _ hp₂.swap).bind fun operands p₃ hp₃ => ?_
    refine (Runs.alloc₁ _ _ _ hp₃).bind fun node p₄ hp₄ => ?_
    exact h.binaryOpLoop precedence hp₄

theorem call_unary : Call (parseUnaryExpression G (fuel + 1)) := by
  refine .of fun a₀ p hp => ?_
  rw [parseUnaryExpression]
  apply Runs.get
  dsimp only
  split
  · exact h.sizeof.runs hp
  split
  · refine (Runs.advance hp).bind fun _ p₁ hp₁ => ?_
    split
    · exact (h.cast.runs hp₁).bind fun operand p₂ hp₂ => Runs.alloc₁ _ _ _ hp₂
    · exact (h.unary.runs hp₁).bind fun operand p₂ hp₂ => Runs.alloc₁ _ _ _ hp₂
  · exact h.postfix_.runs hp

include hG in
theorem call_sizeof : Call (parseSizeofExpression G (fuel + 1)) := by
  refine .of fun a₀ p hp => ?_
  rw [parseSizeofExpression]
  refine (Runs.advance hp).bind fun _ p₁ hp₁ => ?_
  refine (Runs.skipPunctuator _ hp₁).bind fun b p₂ hp₂ => ?_
  split
  · apply Runs.get
    split
    · refine (hG.declarationSpecifiers.runs hp₂).bind fun specifiers p₃ hp₃ => ?_
      refine (Runs.expect _ hp₃).bind fun _ p₄ hp₄ => ?_
      exact Runs.alloc₁ _ _ _ hp₄
    · refine (h.expression.runs hp₂).bind fun expr p₃ hp₃ => ?_
      refine (Runs.expect _ hp₃).bind fun _ p₄ hp₄ => ?_
      exact Runs.alloc₁ _ _ _ hp₄
  · exact (h.unary.runs hp₂).bind fun operand p₃ hp₃ => Runs.alloc₁ _ _ _ hp₃

/-- A parenthesized expression, behind the "(" -/
theorem runs_parenthesized {a₀ : Arena} {p : Parser} {chain : ℕ × ℕ} {roots : List ℕ}
    (hp : Owns a₀ p.arena chain roots) :
    Runs a₀ (do
      let expr ← parseExpression G fuel
      expect ")"
      return expr) (fun r p' => Owns a₀ p'.arena chain (r :: roots)) p := by
  refine (h.expression.runs hp).bind fun expr p₁ hp₁ => ?_
  exact (Runs.expect _ hp₁).bind fun _ p₂ hp₂ => Runs.pure hp₂

include hG in
theorem call_cast : Call (parseCastExpression G (fuel + 1)) := by
  refine .of fun a₀ p hp => ?_
  rw [parseCastExpression]
  refine (Runs.skipPunctuator _ hp).bind fun b p₁ hp₁ => ?_
  split
  swap
  · exact h.unary.runs hp₁
  apply Runs.get
  dsimp only
  split
  swap
  · exact runs_parenthesized h hp₁
  refine (hG.declarationSpecifiers.runs hp₁).bind fun castType p₂ hp₂ => ?_
  -- behind the type, with or without a declarator
  have hrest : ∀ p₃ : Parser, Owns a₀ p₃.arena (0, 0) [castType] →
      Runs a₀ (do
        if ← skipPunctuator ")" then
          if Parser.isPunct (← get).currentToken "\x7b" then
            let initList ← G.initializer
            allocNode 212 initList 0 castType 0
          else
            let expr ← parseCastExpression G fuel
            appendSibling fuel castType expr
            allocNode 70 0 0 castType 0
        else
          let expr ← parseExpression G fuel
          expect ")"
          return expr) (fun r p' => Owns a₀ p'.arena (0, 0) [r]) p₃ := by
    intro p₃ hp₃
    refine (Runs.skipPunctuator _ hp₃).bind fun b p₄ hp₄ => ?_
    split
    · apply Runs.get
      split
      · exact (hG.initializer.runs hp₄).bind fun initList p₅ hp₅ => Runs.alloc₁ _ _ _ hp₅.drop
      · refine (h.cast.runs hp₄).bind fun expr p₅ hp₅ => ?_
        refine (Runs.appendSibling hp₅).bind fun _ p₆ hp₆ => ?_
        exact Runs.alloc₁ _ _ _ hp₆
    · exact (runs_parenthesized h hp₄).mono fun _ _ hp₅ => hp₅.dropSecond
  apply Runs.get
  split
  · refine (hG.declarator.runs hp₂).bind fun ptrDecl p₃ hp₃ => ?_
    split
    · exact (Runs.appendSibling hp₃).bind fun _ p₄ hp₄ => hrest p₄ hp₄
    · exact hrest p₃ hp₃.drop
  · exact hrest p₂ hp₂

theorem call_postfix : Call (parsePostfixExpression G (fuel + 1)) := by
  refine .of fun a₀ p hp => ?_
  rw [parsePostfixExpression]
  exact (h.primary.runs hp).bind fun expr p₁ hp₁ => h.postfixLoop hp₁

theorem continues_postfixLoop : Continues (parsePostfixLoop G (fuel + 1)) := by
  intro a₀ p chain roots expr hp
  rw [parsePostfixLoop]
  -- one more node, and on
  have hnode : ∀ (kind data : ℕ) (p₁ : Parser), Owns a₀ p₁.arena chain (expr :: roots) →
      Runs a₀ (do
        let node ← allocNode kind data 0 expr 0
        parsePostfixLoop G fuel node) (fun r p' => Owns a₀ p'.arena chain (r :: roots)) p₁ := by
    intro kind data p₁ hp₁
    exact (Runs.alloc₁ _ _ _ hp₁).bind fun node p₂ hp₂ => h.postfixLoop hp₂
  -- a member behind "." or "->"
  have hmember : ∀ (mask : ℕ → ℕ) (p₁ : Parser), Owns a₀ p₁.arena chain (expr :: roots) →
      Runs a₀ (do
        let t := (← get).currentToken
        if t.kind = .identifier then
          advance
          let member ← storeString t.text
          let node ← allocNode 69 (mask member) 0 expr 0
          parsePostfixLoop G fuel node
        else parsePostfixLoop G fuel expr)
        (fun r p' => Owns a₀ p'.arena chain (r :: roots)) p₁ := by
    intro mask p₁ hp₁
    apply Runs.get
    dsimp only
    split
    · refine (Runs.advance hp₁).bind fun _ p₂ hp₂ => ?_
      exact (Runs.storeString _ hp₂).bind fun member p₃ hp₃ => hnode _ _ p₃ hp₃
    · exact h.postfixLoop hp₁
  refine (Runs.skipPunctuator _ hp).bind fun b p₁ hp₁ => ?_
  split
  · refine (h.expression.runs hp₁).bind fun index p₂ hp₂ => ?_
    refine (Runs.expect _ hp₂).bind fun _ p₃ hp₃ => ?_
    refine (Runs.alloc₂ _ _ _ hp₃.swap).bind fun node p₄ hp₄ => ?_
    exact h.postfixLoop hp₄
  refine (Runs.skipPunctuator _ hp₁).bind fun b p₂ hp₂ => ?_
  split
  · refine (h.argumentList.runs hp₂).bind fun args p₃ hp₃ => ?_
    refine (Runs.expect _ hp₃).bind fun _ p₄ hp₄ => ?_
    split
    · exact (Runs.setNextSibling hp₄).bind fun _ p₅ hp₅ => hnode _ _ p₅ hp₅
    · exact hnode _ _ p₄ hp₄.drop
  refine (Runs.skipPunctuator _ hp₂).bind fun b p₃ hp₃ => ?_
  split
  · exact hmember id p₃ hp₃
  refine (Runs.skipPunctuator _ hp₃).bind fun b p₄ hp₄ => ?_
  split
  · exact hmember (· ||| 2 ^ 31) p₄ hp₄
  refine (Runs.skipPunctuator _ hp₄).bind fun b p₅ hp₅ => ?_
  split
  · exact hnode 65 6 p₅ hp₅
  refine (Runs.skipPunctuator _ hp₅).bind fun b p₆ hp₆ => ?_
  split
  · exact hnode 65 7 p₆ hp₆
  · exact Runs.pure hp₆

theorem call_argumentList : Call (parseArgumentExpressionList G (fuel + 1)) := by
  refine .of fun a₀ p hp => ?_
  rw [parseArgumentExpressionList]
  apply Runs.get
  split
  · exact h.argumentLoop hp
  · exact Runs.pure hp.null

theorem runs_argumentLoop {a₀ : Arena} {p : Parser} {chain : ℕ × ℕ} {roots : List ℕ}
    (hp : Owns a₀ p.arena chain roots) : Runs a₀ (parseArgumentLoop G (fuel + 1) chain)
      (fun r p' => Owns a₀ p'.arena (0, 0) (r :: roots)) p := by
  rw [parseArgumentLoop]
  refine (h.assignment.runs hp).bind fun arg p₁ hp₁ => ?_
  refine (Runs.alloc₁ _ _ _ hp₁).bind fun wrapper p₂ hp₂ => ?_
  refine (Runs.linkSiblings hp₂).bind fun chain' p₃ hp₃ => ?_
  apply Runs.get
  split
  · exact Runs.pure hp₃.close
  · refine (Runs.skipPunctuator _ hp₃).bind fun b p₄ hp₄ => ?_
    split
    · exact h.argumentLoop hp₄
    · exact Runs.pure hp₄.close

omit h in
theorem quiet_adjacentLiterals (fuel : ℕ) (acc : List Char) :
    Quiet (parseAdjacentLiterals fuel acc) := by
  induction fuel generalizing acc with
  | zero => exact Quiet.throw _
  | succ fuel ih =>
    rw [parseAdjacentLiterals]
    refine Quiet.get fun p => ?_
    split
    · split
      · exact Quiet.advance.bind fun _ => ih _
      · exact Quiet.pure _
    · exact Quiet.pure _

include hG in
theorem call_primary : Call (parsePrimaryExpression G (fuel + 1)) := by
  refine .of fun a₀ p hp => ?_
  rw [parsePrimaryExpression]
  apply Runs.get
  dsimp only
  split
  · exact hG.statementExpr.runs hp
  split
  · exact hG.typeofExpr.runs hp
  split
  · exact hG.extensionWrapper.runs hp
  split
  · exact (Runs.advance hp).bind fun _ p₁ hp₁ => (hG.builtinCall _).runs hp₁
  split
  · exact hG.labelAddr.runs hp
  split
  · refine (Runs.advance hp).bind fun _ p₁ hp₁ => ?_
    exact (Runs.storeString _ hp₁).bind fun name p₂ hp₂ => Runs.alloc₀ _ _ _ hp₂
  · exact (Runs.advance hp).bind fun _ p₁ hp₁ => Runs.alloc₀ _ _ _ hp₁
  · exact (Runs.advance hp).bind fun _ p₁ hp₁ => Runs.alloc₀ _ _ _ hp₁
  · refine (Runs.advance hp).bind fun _ p₁ hp₁ => ?_
    refine ((quiet_adjacentLiterals _ _).runs hp₁).bind fun chars p₂ hp₂ => ?_
    exact (Runs.storeString _ hp₂).bind fun text p₃ hp₃ => Runs.alloc₀ _ _ _ hp₃
  · split
    · exact (Runs.advance hp).bind fun _ p₁ hp₁ => runs_parenthesized h hp₁
    · exact Runs.pure hp.null
  · exact Runs.pure hp.null

end Grammar

theorem Call.throw (e : Fault) : Call (throw e) := .of fun _ _ hp => Runs.throw hp.grown

/-- The parsers of expressions add trees, by induction on the bound of the calls. -/
theorem expressionCalls {G : Productions} (hG : ProductionCalls G) (fuel : ℕ) :
    ExpressionCalls G fuel := by
  induction fuel with
  | zero =>
    have hthrow : ∀ {m : ParserM ℕ}, m = throw .outOfFuel → Call m := by
      rintro m rfl
      exact Call.throw _
    exact
      { expression := hthrow (by rw [parseExpression])
        comma := hthrow (by rw [parseCommaExpression])
        assignment := hthrow (by rw [parseAssignmentExpression])
        conditional := hthrow (by rw [parseConditionalExpression])
        binaryOp := fun _ => hthrow (by rw [parseBinaryOp])
        binaryOpLoop := fun _ _ _ _ _ _ hp => by
          rw [parseBinaryOpLoop]
          exact Runs.throw hp.grown
        unary := hthrow (by rw [parseUnaryExpression])
        sizeof := hthrow (by rw [parseSizeofExpression])
        cast := hthrow (by rw [parseCastExpression])
        postfix_ := hthrow (by rw [parsePostfixExpression])
        postfixLoop := fun hp => by
          rw [parsePostfixLoop]
          exact Runs.throw hp.grown
        argumentList := hthrow (by rw [parseArgumentExpressionList])
        argumentLoop := fun hp => by
          rw [parseArgumentLoop]
          exact Runs.throw hp.grown
        primary := hthrow (by rw [parsePrimaryExpression]) }
  | succ fuel ih =>
    have hexpression : Call (parseExpression G (fuel + 1)) := by
      rw [parseExpression]
      exact ih.comma
    exact ⟨hexpression, call_comma ih, call_assignment ih, call_conditional ih,
      call_binaryOp ih, continues_binaryOpLoop ih, call_unary ih, call_sizeof hG ih,
      call_cast hG ih, call_postfix ih, continues_postfixLoop ih, call_argumentList ih,
      runs_argumentLoop ih, call_primary hG ih⟩

end OpticC.NodeForest
