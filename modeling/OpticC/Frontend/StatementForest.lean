import OpticC.Frontend.DeclaratorForest
import OpticC.Frontend.Statements

/-! The productions for statements add trees to the forest, when the productions they call do. -/

namespace OpticC.NodeForest

open Grammar StatementExpr

variable {S : Grammar} (hS : Calls S) (fuel : ℕ)

/-- An error that is dropped with a token. -/
theorem call_parseOrAdvance {m : ParserM ℕ} (hm : Call m) : Call (parseOrAdvance m) := by
  intro p
  have hp := hm p
  unfold Runs parseOrAdvance at *
  cases hr : m p with
  | ok r p' =>
    rw [hr] at hp
    exact hp
  | error e p' =>
    rw [hr] at hp
    cases e with
    | outOfFuel => exact hp
    | parse e =>
      have hrest : Runs p.arena (do advance; return 0 : ParserM ℕ)
          (fun r p' => Owns p.arena p'.arena (0, 0) [r]) p' :=
        (Runs.advance (Owns.start hp.2)).bind fun _ p'' hp'' => Runs.pure hp''.null
      unfold Runs at hrest
      simp only
      cases hr' : (do advance; return 0 : ParserM ℕ) p' with
      | ok r p'' =>
        rw [hr'] at hrest
        exact ⟨hp.1.trans hrest.1, hrest.2⟩
      | error e p'' =>
        rw [hr'] at hrest
        exact ⟨hp.1.trans hrest.1, hrest.2⟩

section Blocks

/-- A declaration or a statement, and a token passed if there was none. -/
theorem runs_item {a₀ : Arena} {p : Parser} {chain : ℕ × ℕ} {roots : List ℕ} {m : ParserM ℕ}
    {next : ℕ × ℕ → ParserM (ℕ × ℕ)} (hm : Call m) (hnext : Links next) (current : ℕ)
    (hp : Owns a₀ p.arena chain roots) :
    Runs a₀ (do
      let item ← parseOrAdvance m
      let chain ← linkSiblings chain item
      if (← get).current = current then advance
      next chain) (fun c p' => Owns a₀ p'.arena c roots) p := by
  refine ((call_parseOrAdvance hm).runs hp).bind fun item p₁ hp₁ => ?_
  refine (Runs.linkSiblings hp₁).bind fun chain p₂ hp₂ => ?_
  apply Runs.get
  split
  · exact (Runs.advance hp₂).bind fun _ p₃ hp₃ => hnext hp₃
  · exact hnext hp₂

include hS

theorem links_items (rounds : ℕ) : Links (parseItems S rounds) := by
  induction rounds with
  | zero =>
    intro a₀ p chain roots hp
    rw [parseItems]
    refine (Runs.skipPunctuator _ hp).bind fun b p₁ hp₁ => ?_
    split <;> exact Runs.pure hp₁
  | succ rounds ih =>
    intro a₀ p chain roots hp
    rw [parseItems]
    refine (Runs.skipPunctuator _ hp).bind fun b p₁ hp₁ => ?_
    split
    · exact Runs.pure hp₁
    apply Runs.get
    split
    · exact Runs.pure hp₁
    refine (Runs.skipPunctuator _ hp₁).bind fun b p₂ hp₂ => ?_
    split
    · refine (Runs.alloc₀ _ _ _ hp₂).bind fun empty p₃ hp₃ => ?_
      exact (Runs.linkSiblings hp₃).bind fun chain p₄ hp₄ => ih hp₄
    · apply Runs.get
      refine runs_item ?_ ih _ hp₂
      split
      · exact hS.declaration
      · exact hS.statement

theorem call_compoundStatement : Call (parseCompoundStatement S) := by
  refine .of fun a₀ p hp => ?_
  rw [parseCompoundStatement]
  exact (links_items hS 10000 hp).bind fun items p₁ hp₁ => Runs.alloc₁ _ _ _ hp₁.close

end Blocks

section Assembly

/-- The trees below the operands, in the order of their nodes. -/
def AsmOperands.roots (ops : AsmOperands) : List ℕ := ops.nodes.map fun n => n.2.2

theorem AsmOperands.roots_eq (ops : AsmOperands) :
    AsmOperands.roots ops = ops.outputs.map AsmOperand.exprOffset ++
      (ops.inputs.map AsmOperand.exprOffset ++
        (ops.clobbers.map (fun _ => 0) ++ ops.gotoLabels.map fun _ => 0)) := by
  simp only [AsmOperands.roots, AsmOperands.nodes, List.map_append, List.map_map,
    Function.comp_def, List.append_assoc]

include hS

theorem runs_singleAsmOperand {a₀ : Arena} {p : Parser} {chain : ℕ × ℕ} {roots : List ℕ}
    (isOutput : Bool) (hp : Owns a₀ p.arena chain roots) :
    Runs a₀ (parseSingleAsmOperand S isOutput)
      (fun r p' => Owns a₀ p'.arena chain (r.exprOffset :: roots)) p := by
  rw [parseSingleAsmOperand]
  apply Runs.get
  dsimp only
  split
  · refine (Runs.advance hp).bind fun _ p₁ hp₁ => ?_
    refine (Runs.expect _ hp₁).bind fun _ p₂ hp₂ => ?_
    refine (hS.assignmentExpression.runs hp₂).bind fun expr p₃ hp₃ => ?_
    exact (Runs.expect _ hp₃).bind fun _ p₄ hp₄ => Runs.pure hp₄
  · exact Runs.throwParse _ hp

theorem runs_asmOperand {a₀ : Arena} {p : Parser} (section_ : ℕ) {ops : AsmOperands}
    (hp : Owns a₀ p.arena (0, 0) (AsmOperands.roots ops)) :
    Runs a₀ (parseAsmOperand S section_ ops)
      (fun r p' => Owns a₀ p'.arena (0, 0) (AsmOperands.roots (r.getD ops))) p := by
  rw [parseAsmOperand]
  apply Runs.get
  dsimp only
  split
  · exact Runs.pure hp
  · split
    · refine (runs_singleAsmOperand hS true hp).bind fun operand p₁ hp₁ => Runs.pure ?_
      refine hp₁.perm (List.Perm.subperm ?_)
      simp only [AsmOperands.roots_eq, Option.getD_some, List.map_append, List.map_cons,
        List.map_nil, List.append_assoc, List.singleton_append]
      exact List.perm_middle
    · exact Runs.pure hp
  · split
    · refine (runs_singleAsmOperand hS false hp).bind fun operand p₁ hp₁ => Runs.pure ?_
      refine hp₁.perm (List.Perm.subperm ?_)
      simp only [AsmOperands.roots_eq, Option.getD_some, List.map_append, List.map_cons,
        List.map_nil, List.append_assoc, List.singleton_append]
      exact (List.Perm.append_left _ List.perm_middle).trans List.perm_middle
    · exact Runs.pure hp
  · split
    · refine (Runs.advance hp).bind fun _ p₁ hp₁ => Runs.pure ?_
      refine hp₁.null.perm (List.Perm.subperm ?_)
      simp only [AsmOperands.roots_eq, Option.getD_some, List.map_append, List.map_cons,
        List.map_nil, List.append_assoc, List.singleton_append]
      exact ((List.Perm.append_left _ List.perm_middle).trans List.perm_middle).append_left _
        |>.trans List.perm_middle
    · exact Runs.pure hp
  · split
    · have hlabel : ∀ p₁ : Parser, Owns a₀ p₁.arena (0, 0) (AsmOperands.roots ops) →
          Runs a₀ (do
            let label := (← get).currentToken
            if label.kind = .identifier then
              advance
              return some { ops with gotoLabels := ops.gotoLabels ++ [label.text] }
            else return some ops)
            (fun r p' => Owns a₀ p'.arena (0, 0) (AsmOperands.roots (r.getD ops))) p₁ := by
        intro p₁ hp₁
        apply Runs.get
        dsimp only
        split
        · refine (Runs.advance hp₁).bind fun _ p₂ hp₂ => Runs.pure ?_
          refine hp₂.null.perm (List.Perm.subperm ?_)
          simp only [AsmOperands.roots_eq, Option.getD_some, List.map_append, List.map_cons,
            List.map_nil, ← List.append_assoc]
          exact List.perm_append_singleton _ _
        · exact Runs.pure hp₁
      split
      · exact (Runs.advance hp).bind fun _ p₁ hp₁ => hlabel p₁ hp₁
      · exact hlabel p hp
    · exact Runs.pure hp
  · exact Runs.pure hp

theorem runs_asmOperands {a₀ : Arena} {p : Parser} (section_ : ℕ) {ops : AsmOperands}
    (hp : Owns a₀ p.arena (0, 0) (AsmOperands.roots ops)) :
    Runs a₀ (parseAsmOperands S fuel section_ ops)
      (fun r p' => Owns a₀ p'.arena (0, 0) (AsmOperands.roots r)) p := by
  induction fuel generalizing p section_ ops with
  | zero => exact Runs.throw hp.grown
  | succ fuel ih =>
    rw [parseAsmOperands]
    apply Runs.get
    split
    · exact Runs.pure hp
    refine (Runs.skipPunctuator _ hp).bind fun colon p₁ hp₁ => ?_
    apply Runs.get
    dsimp only
    split
    · exact ih _ hp₁
    refine (runs_asmOperand hS _ hp₁).bind fun r p₂ hp₂ => ?_
    split
    · exact Runs.pure hp₂
    · exact (Runs.skipPunctuator _ hp₂).bind fun _ p₃ hp₃ => ih _ hp₃

omit hS in
theorem runs_linkAsmNodes {a₀ : Arena} {p : Parser} {chain : ℕ × ℕ} {roots : List ℕ}
    (nodes : List (ℕ × String × ℕ))
    (hp : Owns a₀ p.arena chain (nodes.map (fun n => n.2.2) ++ roots)) :
    Runs a₀ (linkAsmNodes nodes chain) (fun c p' => Owns a₀ p'.arena c roots) p := by
  induction nodes generalizing p chain with
  | nil => exact Runs.pure hp
  | cons n rest ih =>
    obtain ⟨kind, text, child⟩ := n
    rw [linkAsmNodes]
    refine (Runs.storeString _ hp).bind fun offset p₁ hp₁ => ?_
    refine (Runs.alloc₁ _ _ _ hp₁).bind fun node p₂ hp₂ => ?_
    exact (Runs.linkSiblings hp₂).bind fun chain p₃ hp₃ => ih hp₃

theorem call_asmStmt : Call (parseAsmStmt S fuel) := by
  refine .of fun a₀ p hp => ?_
  rw [parseAsmStmt]
  refine (Runs.advance hp).bind fun _ p₁ hp₁ => ?_
  apply Runs.get
  dsimp only
  have hrest : ∀ (volatile : ℕ) (p₂ : Parser), Owns a₀ p₂.arena (0, 0) [] →
      Runs a₀ (do
        expect "("
        let template := (← get).currentToken
        if template.kind = .stringLiteral then
          advance
          let ops ← parseAsmOperands S fuel 0 ⟨[], [], [], []⟩
          expect ")"
          let _ ← skipPunctuator ";"
          let templateOffset ← storeString template.text
          let chain ← linkAsmNodes ops.nodes (0, 0)
          let flags := volatile + if ops.gotoLabels = [] then 0 else 2
          allocNode 207 flags 0 templateOffset chain.1
        else throwParse "Expected asm template string")
        (fun r p' => Owns a₀ p'.arena (0, 0) [r]) p₂ := by
    intro volatile p₂ hp₂
    refine (Runs.expect _ hp₂).bind fun _ p₃ hp₃ => ?_
    apply Runs.get
    dsimp only
    split
    · refine (Runs.advance hp₃).bind fun _ p₄ hp₄ => ?_
      refine (runs_asmOperands hS fuel 0 hp₄).bind fun ops p₅ hp₅ => ?_
      refine (Runs.expect _ hp₅).bind fun _ p₆ hp₆ => ?_
      refine (Runs.skipPunctuator _ hp₆).bind fun _ p₇ hp₇ => ?_
      refine (Runs.storeString _ hp₇).bind fun template p₈ hp₈ => ?_
      have hnodes : Owns a₀ p₈.arena (0, 0) (ops.nodes.map (fun n => n.2.2) ++ []) := by
        rw [List.append_nil]
        exact hp₈
      refine (runs_linkAsmNodes ops.nodes hnodes).bind fun chain p₉ hp₉ => ?_
      exact Runs.allocAsm _ _ _ hp₉.close
    · exact Runs.throwParse _ hp₃
  generalize (p₁.currentToken.text == "volatile" || p₁.currentToken.text == "__volatile__") =
    isVolatile
  split
  · exact (Runs.advance hp₁).bind fun _ p₂ hp₂ => hrest 1 p₂ hp₂
  · exact hrest 0 p₁ hp₁

end Assembly

section Labels

include hS

theorem call_caseLabel : Call (parseCaseLabel S) := by
  refine .of fun a₀ p hp => ?_
  rw [parseCaseLabel]
  refine (Runs.expect _ hp).bind fun _ p₁ hp₁ => ?_
  refine (hS.conditionalExpression.runs hp₁).bind fun expr p₂ hp₂ => ?_
  apply Runs.get
  split
  · refine (Runs.advance hp₂).bind fun _ p₃ hp₃ => ?_
    refine (hS.conditionalExpression.runs hp₃).bind fun high p₄ hp₄ => ?_
    exact (Runs.expect _ hp₄.drop).bind fun _ p₅ hp₅ => Runs.alloc₁ _ _ _ hp₅
  · exact (Runs.expect _ hp₂).bind fun _ p₃ hp₃ => Runs.alloc₁ _ _ _ hp₃

omit hS in
theorem call_defaultLabel : Call parseDefaultLabel := by
  refine .of fun a₀ p hp => ?_
  refine (Runs.expect _ hp).bind fun _ p₁ hp₁ => ?_
  exact (Runs.expect _ hp₁).bind fun _ p₂ hp₂ => Runs.alloc₀ _ _ _ hp₂

theorem call_labeledStatement (name : String) : Call (parseLabeledStatement S name) := by
  refine .of fun a₀ p hp => ?_
  rw [parseLabeledStatement]
  refine (Runs.advance hp).bind fun _ p₁ hp₁ => ?_
  refine (Runs.advance hp₁).bind fun _ p₂ hp₂ => ?_
  refine (Runs.storeString _ hp₂).bind fun label p₃ hp₃ => ?_
  exact (hS.statement.runs hp₃).bind fun stmt p₄ hp₄ => Runs.alloc₁ _ _ _ hp₄

omit hS in
theorem quiet_skipToSemicolon : Quiet (skipToSemicolon fuel) := by
  induction fuel with
  | zero => exact Quiet.throw _
  | succ fuel ih =>
    rw [skipToSemicolon]
    refine (Quiet.skipPunctuator _).bind fun b => ?_
    split
    · exact Quiet.pure _
    refine Quiet.get fun p => ?_
    split
    · exact Quiet.pure _
    · exact Quiet.advance.bind fun _ => ih

end Labels

section Statements

include hS

theorem call_ifStatement : Call (parseIfStatement S) := by
  refine .of fun a₀ p hp => ?_
  rw [parseIfStatement]
  refine (Runs.expect _ hp).bind fun _ p₁ hp₁ => ?_
  refine (Runs.expect _ hp₁).bind fun _ p₂ hp₂ => ?_
  refine (hS.expression.runs hp₂).bind fun condition p₃ hp₃ => ?_
  refine (Runs.expect _ hp₃).bind fun _ p₄ hp₄ => ?_
  refine (hS.statement.runs hp₄).bind fun thenStmt p₅ hp₅ => ?_
  apply Runs.get
  dsimp only
  have hrest : ∀ (elseStmt : ℕ) (p₆ : Parser),
      Owns a₀ p₆.arena (0, 0) [elseStmt, thenStmt, condition] → Runs a₀ (do
        let bodyWrap ← allocNode 0 0 0 thenStmt elseStmt
        let condWrap ← allocNode 0 0 0 condition bodyWrap
        allocNode 41 0 0 condWrap 0) (fun r p' => Owns a₀ p'.arena (0, 0) [r]) p₆ := by
    intro elseStmt p₆ hp₆
    refine (Runs.alloc₂ _ _ _ hp₆.swap).bind fun bodyWrap p₇ hp₇ => ?_
    exact (Runs.alloc₂ _ _ _ hp₇.swap).bind fun condWrap p₈ hp₈ => Runs.alloc₁ _ _ _ hp₈
  split
  · refine (Runs.advance hp₅).bind fun _ p₆ hp₆ => ?_
    exact (hS.statement.runs hp₆).bind fun elseStmt p₇ hp₇ => hrest elseStmt p₇ hp₇
  · exact hrest 0 p₅ hp₅.null

theorem call_whileStatement : Call (parseWhileStatement S) := by
  refine .of fun a₀ p hp => ?_
  rw [parseWhileStatement]
  refine (Runs.expect _ hp).bind fun _ p₁ hp₁ => ?_
  refine (Runs.expect _ hp₁).bind fun _ p₂ hp₂ => ?_
  refine (hS.expression.runs hp₂).bind fun condition p₃ hp₃ => ?_
  refine (Runs.expect _ hp₃).bind fun _ p₄ hp₄ => ?_
  refine (hS.statement.runs hp₄).bind fun body p₅ hp₅ => ?_
  exact (Runs.alloc₂ _ _ _ hp₅.swap).bind fun condWrap p₆ hp₆ => Runs.alloc₁ _ _ _ hp₆

/-- An expression, and a token behind it that may be missing. -/
theorem call_expressionThen (text : String) : Call (do
    let expr ← S.expression
    let _ ← skipPunctuator text
    return expr) := by
  refine .of fun a₀ p hp => ?_
  refine (hS.expression.runs hp).bind fun expr p₁ hp₁ => ?_
  exact (Runs.skipPunctuator _ hp₁).bind fun _ p₂ hp₂ => Runs.pure hp₂

theorem call_forInit : Call (parseForInit S) := by
  refine .of fun a₀ p hp => ?_
  rw [parseForInit]
  apply Runs.get
  split
  · exact hS.declaration.runs hp
  refine (Runs.skipPunctuator _ hp).bind fun b p₁ hp₁ => ?_
  split
  · exact Runs.alloc₀ _ _ _ hp₁
  · exact (call_expressionThen hS ";").runs hp₁

theorem call_forCondition : Call (parseForCondition S) := by
  refine .of fun a₀ p hp => ?_
  rw [parseForCondition]
  refine (Runs.skipPunctuator _ hp).bind fun b p₁ hp₁ => ?_
  split
  · exact Runs.alloc₀ _ _ _ hp₁
  · exact (call_expressionThen hS ";").runs hp₁

theorem call_forIncrement : Call (parseForIncrement S) := by
  refine .of fun a₀ p hp => ?_
  rw [parseForIncrement]
  refine (Runs.skipPunctuator _ hp).bind fun b p₁ hp₁ => ?_
  split
  · exact Runs.pure hp₁.null
  · exact (call_expressionThen hS ")").runs hp₁

theorem call_forStatement : Call (parseForStatement S) := by
  refine .of fun a₀ p hp => ?_
  rw [parseForStatement]
  refine (Runs.expect _ hp).bind fun _ p₁ hp₁ => ?_
  refine (Runs.expect _ hp₁).bind fun _ p₂ hp₂ => ?_
  refine ((call_forInit hS).runs hp₂).bind fun init p₃ hp₃ => ?_
  refine ((call_forCondition hS).runs hp₃).bind fun condition p₄ hp₄ => ?_
  refine ((call_forIncrement hS).runs hp₄).bind fun increment p₅ hp₅ => ?_
  refine (hS.statement.runs hp₅).bind fun body p₆ hp₆ => ?_
  refine (Runs.alloc₂ _ _ _ hp₆.swap).bind fun incrWrap p₇ hp₇ => ?_
  refine (Runs.alloc₂ _ _ _ hp₇.swap).bind fun condWrap p₈ hp₈ => ?_
  exact (Runs.alloc₂ _ _ _ hp₈.swap).bind fun initWrap p₉ hp₉ => Runs.alloc₁ _ _ _ hp₉

theorem call_doStatement : Call (parseDoStatement S) := by
  refine .of fun a₀ p hp => ?_
  rw [parseDoStatement]
  refine (Runs.expect _ hp).bind fun _ p₁ hp₁ => ?_
  refine (hS.statement.runs hp₁).bind fun body p₂ hp₂ => ?_
  refine (Runs.expect _ hp₂).bind fun _ p₃ hp₃ => ?_
  refine (Runs.expect _ hp₃).bind fun _ p₄ hp₄ => ?_
  refine (hS.expression.runs hp₄).bind fun condition p₅ hp₅ => ?_
  refine (Runs.expect _ hp₅).bind fun _ p₆ hp₆ => ?_
  refine (Runs.skipPunctuator _ hp₆).bind fun _ p₇ hp₇ => ?_
  exact (Runs.setNextSibling hp₇).bind fun _ p₈ hp₈ => Runs.alloc₁ _ _ _ hp₈

theorem call_switchStatement : Call (parseSwitchStatement S) := by
  refine .of fun a₀ p hp => ?_
  rw [parseSwitchStatement]
  refine (Runs.expect _ hp).bind fun _ p₁ hp₁ => ?_
  refine (Runs.expect _ hp₁).bind fun _ p₂ hp₂ => ?_
  refine (hS.expression.runs hp₂).bind fun condition p₃ hp₃ => ?_
  refine (Runs.expect _ hp₃).bind fun _ p₄ hp₄ => ?_
  refine (hS.statement.runs hp₄).bind fun body p₅ hp₅ => ?_
  exact (Runs.alloc₂ _ _ _ hp₅.swap).bind fun condWrap p₆ hp₆ => Runs.alloc₁ _ _ _ hp₆

theorem call_gotoStatement : Call (parseGotoStatement S) := by
  refine .of fun a₀ p hp => ?_
  rw [parseGotoStatement]
  refine (Runs.expect _ hp).bind fun _ p₁ hp₁ => ?_
  apply Runs.get
  dsimp only
  split
  · refine (Runs.advance hp₁).bind fun _ p₂ hp₂ => ?_
    refine (hS.expression.runs hp₂).bind fun expr p₃ hp₃ => ?_
    exact (Runs.skipPunctuator _ hp₃).bind fun _ p₄ hp₄ => Runs.alloc₁ _ _ _ hp₄
  split
  · refine (Runs.advance hp₁).bind fun _ p₂ hp₂ => ?_
    refine (Runs.skipPunctuator _ hp₂).bind fun _ p₃ hp₃ => ?_
    exact (Runs.storeString _ hp₃).bind fun label p₄ hp₄ => Runs.alloc₀ _ _ _ hp₄
  · exact (Runs.skipPunctuator _ hp₁).bind fun _ p₂ hp₂ => Runs.alloc₀ _ _ _ hp₂

theorem call_optionalExpression (kind : ℕ) : Call (parseOptionalExpression S kind) := by
  refine .of fun a₀ p hp => ?_
  rw [parseOptionalExpression]
  refine (Runs.skipPunctuator _ hp).bind fun b p₁ hp₁ => ?_
  split
  · exact Runs.alloc₀ _ _ _ hp₁
  · refine (hS.expression.runs hp₁).bind fun expr p₂ hp₂ => ?_
    exact (Runs.skipPunctuator _ hp₂).bind fun _ p₃ hp₃ => Runs.alloc₁ _ _ _ hp₃

theorem call_returnStatement : Call (parseReturnStatement S) := by
  refine .of fun a₀ p hp => ?_
  exact (Runs.expect _ hp).bind fun _ p₁ hp₁ => (call_optionalExpression hS 44).runs hp₁

omit hS in
theorem call_jump (kind : ℕ) : Call (parseJump kind) := by
  refine .of fun a₀ p hp => ?_
  refine (Runs.advance hp).bind fun _ p₁ hp₁ => ?_
  exact (Runs.skipPunctuator _ hp₁).bind fun _ p₂ hp₂ => Runs.alloc₀ _ _ _ hp₂

theorem call_plainStatement : Call (parsePlainStatement S) := by
  refine .of fun a₀ p hp => ?_
  rw [parsePlainStatement]
  apply Runs.get
  split
  · exact (call_labeledStatement hS _).runs hp
  · exact (call_optionalExpression hS 45).runs hp

theorem call_statement : Call (parseStatement S fuel) := by
  refine .of fun a₀ p hp => ?_
  rw [parseStatement]
  apply Runs.get
  dsimp only
  split
  · exact (Runs.advance hp).bind fun _ p₁ hp₁ => (call_compoundStatement hS).runs hp₁
  split
  · refine (Runs.advance hp).bind fun _ p₁ hp₁ => ?_
    refine ((call_attributeList hS fuel).quiet.ignoreError.runs hp₁).bind fun _ p₂ hp₂ => ?_
    exact (Runs.skipPunctuator _ hp₂).bind fun _ p₃ hp₃ => Runs.alloc₀ _ _ _ hp₃
  split
  swap
  · exact (call_plainStatement hS).runs hp
  split
  · exact (call_ifStatement hS).runs hp
  · exact (call_whileStatement hS).runs hp
  · exact (call_forStatement hS).runs hp
  · exact (call_returnStatement hS).runs hp
  · exact (call_jump 46).runs hp
  · exact (call_jump 47).runs hp
  · exact (call_switchStatement hS).runs hp
  · exact (call_gotoStatement hS).runs hp
  · exact (call_doStatement hS).runs hp
  · exact (call_caseLabel hS).runs hp
  · exact call_defaultLabel.runs hp
  · exact (Runs.advance hp).bind fun _ p₁ hp₁ => hS.statement.runs hp₁
  · refine (Runs.advance hp).bind fun _ p₁ hp₁ => ?_
    exact ((quiet_skipToSemicolon fuel).runs hp₁).bind fun _ p₂ hp₂ => Runs.alloc₀ _ _ _ hp₂
  · exact (call_asmStmt hS fuel).runs hp
  · exact (call_asmStmt hS fuel).runs hp
  · exact (call_asmStmt hS fuel).runs hp
  · exact (call_plainStatement hS).runs hp

end Statements

end OpticC.NodeForest
