import OpticC.Frontend.ExpressionForest

/-! The productions for attributes, initializers, specifiers and declarators add trees to the
forest, when the productions they call do. -/

namespace OpticC.NodeForest

open Grammar

/-- Every production adds a tree. -/
structure Calls (S : Grammar) : Prop where
  expression : Call S.expression
  assignmentExpression : Call S.assignmentExpression
  conditionalExpression : Call S.conditionalExpression
  declarationSpecifiers : Call S.declarationSpecifiers
  declarator : Call S.declarator
  initializer : Call S.initializer
  declaration : Call S.declaration
  statement : Call S.statement

section Attributes

variable {S : Grammar} (hS : Calls S)

include hS

theorem links_attributeArguments (fuel : ℕ) : Links (parseAttributeArguments S fuel) := by
  induction fuel with
  | zero => exact fun hp => Runs.throw hp.grown
  | succ fuel ih =>
    intro a₀ p chain roots hp
    rw [parseAttributeArguments]
    apply Runs.get
    dsimp only
    split
    · exact Runs.pure hp
    -- behind an argument
    have hrest : ∀ (arg : ℕ) (p₁ : Parser), Owns a₀ p₁.arena chain (arg :: roots) →
        Runs a₀ (do
          let chain ← linkSiblings chain arg
          if Parser.isPunct (← get).currentToken "," then
            advance
            parseAttributeArguments S fuel chain
          else return chain) (fun c p' => Owns a₀ p'.arena c roots) p₁ := by
      intro arg p₁ hp₁
      refine (Runs.linkSiblings hp₁).bind fun chain p₂ hp₂ => ?_
      apply Runs.get
      split
      · exact (Runs.advance hp₂).bind fun _ p₃ hp₃ => ih hp₃
      · exact Runs.pure hp₂
    split
    · refine (Runs.advance hp).bind fun _ p₁ hp₁ => ?_
      refine (Runs.storeString _ hp₁).bind fun text p₂ hp₂ => ?_
      exact (Runs.alloc₀ _ _ _ hp₂).bind fun arg p₃ hp₃ => hrest arg p₃ hp₃
    split
    · refine (Runs.advance hp).bind fun _ p₁ hp₁ => ?_
      exact (Runs.alloc₀ _ _ _ hp₁).bind fun arg p₂ hp₂ => hrest arg p₂ hp₂
    · exact (hS.expression.runs hp).bind fun arg p₁ hp₁ => hrest arg p₁ hp₁

theorem call_singleAttribute (fuel : ℕ) : Call (parseSingleAttribute S fuel) := by
  refine .of fun a₀ p hp => ?_
  rw [parseSingleAttribute]
  apply Runs.get
  dsimp only
  split
  · refine (Runs.advance hp).bind fun _ p₁ hp₁ => ?_
    refine (Runs.storeString _ hp₁).bind fun name p₂ hp₂ => ?_
    refine (Runs.skipPunctuator _ hp₂).bind fun b p₃ hp₃ => ?_
    split
    · refine (links_attributeArguments hS fuel hp₃).bind fun args p₄ hp₄ => ?_
      refine (Runs.expect _ hp₄).bind fun _ p₅ hp₅ => ?_
      exact Runs.alloc₁ _ _ _ hp₅.close
    · exact Runs.alloc₀ _ _ _ hp₃
  · exact Runs.throwParse _ hp

theorem links_attributes (fuel : ℕ) : Links (parseAttributes S fuel) := by
  induction fuel with
  | zero => exact fun hp => Runs.throw hp.grown
  | succ fuel ih =>
    intro a₀ p chain roots hp
    rw [parseAttributes]
    apply Runs.get
    split
    · exact Runs.pure hp
    · refine ((call_singleAttribute hS fuel).runs hp).bind fun attr p₁ hp₁ => ?_
      refine (Runs.linkSiblings hp₁).bind fun chain p₂ hp₂ => ?_
      apply Runs.get
      split
      · exact (Runs.advance hp₂).bind fun _ p₃ hp₃ => ih hp₃
      · exact Runs.pure hp₂

theorem call_attributeList (fuel : ℕ) : Call (parseAttributeList S fuel) := by
  refine .of fun a₀ p hp => ?_
  rw [parseAttributeList]
  refine (Runs.expect _ hp).bind fun _ p₁ hp₁ => ?_
  refine (Runs.expect _ hp₁).bind fun _ p₂ hp₂ => ?_
  refine (links_attributes hS fuel hp₂).bind fun attrs p₃ hp₃ => ?_
  refine (Runs.expect _ hp₃).bind fun _ p₄ hp₄ => ?_
  refine (Runs.expect _ hp₄).bind fun _ p₅ hp₅ => ?_
  exact Runs.alloc₁ _ _ _ hp₅.close

theorem links_attributeLists (fuel : ℕ) : Links (parseAttributeLists S fuel) := by
  induction fuel with
  | zero => exact fun hp => Runs.throw hp.grown
  | succ fuel ih =>
    intro a₀ p chain roots hp
    rw [parseAttributeLists]
    apply Runs.get
    split
    · refine (Runs.advance hp).bind fun _ p₁ hp₁ => ?_
      refine ((call_attributeList hS fuel).runs hp₁).bind fun attr p₂ hp₂ => ?_
      exact (Runs.linkSiblings hp₂).bind fun chain p₃ hp₃ => ih hp₃
    · exact Runs.pure hp

omit hS in
theorem quiet_skipParentheses (n depth : ℕ) : Quiet (skipParentheses n depth) := by
  induction n generalizing depth with
  | zero => exact Quiet.pure _
  | succ n ih =>
    rw [skipParentheses]
    refine Quiet.get fun p => ?_
    split
    · exact Quiet.pure _
    split
    · exact Quiet.advance.bind fun _ => ih _
    split
    · refine Quiet.advance.bind fun _ => ?_
      split
      · exact Quiet.pure _
      · exact ih _
    · exact Quiet.advance.bind fun _ => ih _

omit hS in
theorem quiet_skipAsmLabel : Quiet skipAsmLabel := by
  unfold skipAsmLabel
  refine Quiet.get fun p => ?_
  dsimp only
  split
  · refine Quiet.advance.bind fun _ => (Quiet.skipPunctuator _).bind fun b => ?_
    split
    · exact quiet_skipParentheses _ _
    · exact Quiet.pure _
  · exact Quiet.pure _

end Attributes

section Initializers

variable {S : Grammar} (hS : Calls S)

include hS

theorem call_designatedInit : Call (parseDesignatedInit S) := by
  refine .of fun a₀ p hp => ?_
  rw [parseDesignatedInit]
  refine (Runs.skipPunctuator _ hp).bind fun b p₁ hp₁ => ?_
  split
  · apply Runs.get
    dsimp only
    split
    · refine (Runs.advance hp₁).bind fun _ p₂ hp₂ => ?_
      refine (Runs.storeString _ hp₂).bind fun field p₃ hp₃ => ?_
      refine (Runs.expect _ hp₃).bind fun _ p₄ hp₄ => ?_
      exact (hS.initializer.runs hp₄).bind fun value p₅ hp₅ => Runs.alloc₁ _ _ _ hp₅
    · exact hS.initializer.runs hp₁
  refine (Runs.skipPunctuator _ hp₁).bind fun b p₂ hp₂ => ?_
  split
  · refine (hS.conditionalExpression.runs hp₂).bind fun index p₃ hp₃ => ?_
    refine (Runs.expect _ hp₃).bind fun _ p₄ hp₄ => ?_
    refine (Runs.expect _ hp₄).bind fun _ p₅ hp₅ => ?_
    exact (hS.initializer.runs hp₅).bind fun value p₆ hp₆ => Runs.alloc₂ _ _ _ hp₆.swap
  · exact hS.initializer.runs hp₂

theorem links_initializerList (fuel : ℕ) : Links (parseInitializerList S fuel) := by
  induction fuel with
  | zero => exact fun hp => Runs.throw hp.grown
  | succ fuel ih =>
    intro a₀ p chain roots hp
    rw [parseInitializerList]
    apply Runs.get
    dsimp only
    -- behind an element, which may be a chain
    have hrest : ∀ (elem : ℕ) (p₁ : Parser), Owns a₀ p₁.arena chain (elem :: roots) →
        Runs a₀ (do
          let chain ← linkSiblings chain elem
          let last ← chainEnd chain.2
          if ← skipPunctuator "\x7d" then return (chain.1, last)
          else if ← skipPunctuator "," then parseInitializerList S fuel (chain.1, last)
          else return (chain.1, last)) (fun c p' => Owns a₀ p'.arena c roots) p₁ := by
      intro elem p₁ hp₁
      refine (Runs.linkSiblings hp₁).bind fun chain p₂ hp₂ => ?_
      refine (Runs.chainEndOfList hp₂).bind fun last p₃ hp₃ => ?_
      refine (Runs.skipPunctuator _ hp₃).bind fun b p₄ hp₄ => ?_
      split
      · exact Runs.pure hp₄
      refine (Runs.skipPunctuator _ hp₄).bind fun b p₅ hp₅ => ?_
      split
      · exact ih hp₅
      · exact Runs.pure hp₅
    split
    · exact ((call_designatedInit hS).runs hp).bind fun elem p₁ hp₁ => hrest elem p₁ hp₁
    · exact (hS.initializer.runs hp).bind fun elem p₁ hp₁ => hrest elem p₁ hp₁

theorem call_initializer (fuel : ℕ) : Call (parseInitializer S fuel) := by
  refine .of fun a₀ p hp => ?_
  rw [parseInitializer]
  refine (Runs.skipPunctuator _ hp).bind fun b p₁ hp₁ => ?_
  split
  · exact (links_initializerList hS fuel hp₁).bind fun elems p₂ hp₂ => Runs.pure hp₂.close
  · exact hS.assignmentExpression.runs hp₁

end Initializers

section Records

variable {S : Grammar} (hS : Calls S) (fuel : ℕ)

include hS

theorem links_structDeclarators (rounds : ℕ) : Links (parseStructDeclarators S fuel rounds) := by
  induction rounds with
  | zero =>
    intro a₀ p chain roots hp
    rw [parseStructDeclarators]
    refine (Runs.skipPunctuator _ hp).bind fun b p₁ hp₁ => ?_
    split <;> exact Runs.pure hp₁
  | succ rounds ih =>
    intro a₀ p chain roots hp
    rw [parseStructDeclarators]
    refine (Runs.skipPunctuator _ hp).bind fun b p₁ hp₁ => ?_
    split
    · exact Runs.pure hp₁
    apply Runs.get
    split
    · exact Runs.pure hp₁
    split
    · exact (Runs.advance hp₁).bind fun _ p₂ hp₂ => ih hp₂
    split
    · refine (Runs.advance hp₁).bind fun _ p₂ hp₂ => ?_
      refine (hS.conditionalExpression.runs hp₂).bind fun width p₃ hp₃ => ?_
      refine ((Quiet.evalConstantU32 width).runs hp₃.drop).bind fun value p₄ hp₄ => ?_
      refine (Runs.alloc₀ _ _ _ hp₄).bind fun bitfield p₅ hp₅ => ?_
      exact (Runs.linkSiblings hp₅).bind fun chain p₆ hp₆ => ih hp₆
    have hattr := (call_attributeList hS fuel).quiet.ignoreError
    split
    · refine (Runs.advance hp₁).bind fun _ p₂ hp₂ => ?_
      exact (hattr.runs hp₂).bind fun _ p₃ hp₃ => ih hp₃
    refine (hS.declarator.runs hp₁).bind fun declarator p₂ hp₂ => ?_
    -- behind a member, which may be a bit field
    have hrest : ∀ (member : ℕ) (p₃ : Parser), Owns a₀ p₃.arena chain (member :: roots) →
        Runs a₀ (do
          let chain ← linkSiblings chain member
          if (← get).currentToken.text = "__attribute__" then
            advance
            ignoreError (parseAttributeList S fuel)
          if (← get).current = p₁.current then advance
          parseStructDeclarators S fuel rounds chain)
          (fun c p' => Owns a₀ p'.arena c roots) p₃ := by
      intro member p₃ hp₃
      refine (Runs.linkSiblings hp₃).bind fun chain p₄ hp₄ => ?_
      have hnext : ∀ p₅ : Parser, Owns a₀ p₅.arena chain roots →
          Runs a₀ (do
            if (← get).current = p₁.current then advance
            parseStructDeclarators S fuel rounds chain)
            (fun c p' => Owns a₀ p'.arena c roots) p₅ := by
        intro p₅ hp₅
        apply Runs.get
        split
        · exact (Runs.advance hp₅).bind fun _ p₆ hp₆ => ih hp₆
        · exact ih hp₅
      apply Runs.get
      split
      · refine (Runs.advance hp₄).bind fun _ p₅ hp₅ => ?_
        exact (hattr.runs hp₅).bind fun _ p₆ hp₆ => hnext p₆ hp₆
      · exact hnext p₄ hp₄
    apply Runs.get
    split
    · refine (Runs.advance hp₂).bind fun _ p₃ hp₃ => ?_
      refine (hS.conditionalExpression.runs hp₃).bind fun width p₄ hp₄ => ?_
      refine ((Quiet.evalConstantU32 width).runs hp₄.drop).bind fun value p₅ hp₅ => ?_
      exact (Runs.alloc₁ _ _ _ hp₅).bind fun member p₆ hp₆ => hrest member p₆ hp₆
    · exact hrest declarator p₂ hp₂

theorem call_structDeclaration : Call (parseStructDeclaration S fuel) := by
  refine .of fun a₀ p hp => ?_
  rw [parseStructDeclaration]
  have hrest : ∀ p₁ : Parser, Owns a₀ p₁.arena (0, 0) [] →
      Runs a₀ (do
        let specifiers ← S.declarationSpecifiers
        let declarators ← parseStructDeclarators S fuel 500 (0, 0)
        if declarators.1 ≠ 0 then appendAtEnd specifiers declarators.1
        allocNode 25 0 0 specifiers 0) (fun r p' => Owns a₀ p'.arena (0, 0) [r]) p₁ := by
    intro p₁ hp₁
    refine (hS.declarationSpecifiers.runs hp₁).bind fun specifiers p₂ hp₂ => ?_
    refine (links_structDeclarators hS fuel 500 hp₂).bind fun declarators p₃ hp₃ => ?_
    split
    · exact (Runs.appendAtEnd hp₃.close).bind fun _ p₄ hp₄ => Runs.alloc₁ _ _ _ hp₄
    · exact Runs.alloc₁ _ _ _ hp₃.of_null
  apply Runs.get
  split
  · exact (Runs.advance hp).bind fun _ p₁ hp₁ => hrest p₁ hp₁
  · exact hrest p hp

theorem links_members : Links (parseMembers S fuel) := by
  induction fuel with
  | zero => exact fun hp => Runs.throw hp.grown
  | succ fuel ih =>
    intro a₀ p chain roots hp
    rw [parseMembers]
    refine (Runs.skipPunctuator _ hp).bind fun b p₁ hp₁ => ?_
    split
    · exact Runs.pure hp₁
    apply Runs.get
    split
    · exact Runs.pure hp₁
    · refine ((call_structDeclaration hS fuel).runs hp₁).bind fun member p₂ hp₂ => ?_
      exact (Runs.linkSiblings hp₂).bind fun chain p₃ hp₃ => ih hp₃

omit hS in
theorem quiet_tag : Quiet parseTag := by
  refine Quiet.get fun p => ?_
  dsimp only
  split
  · exact Quiet.advance.bind fun _ => Quiet.storeString _
  · exact Quiet.pure _

theorem call_recordSpecifier (kind : ℕ) : Call (parseRecordSpecifier S fuel kind) := by
  refine .of fun a₀ p hp => ?_
  rw [parseRecordSpecifier]
  refine (links_attributeLists hS fuel hp).bind fun chain p₁ hp₁ => ?_
  refine (quiet_tag.runs hp₁).bind fun tag p₂ hp₂ => ?_
  refine (links_attributeLists hS fuel hp₂).bind fun chain p₃ hp₃ => ?_
  refine (Runs.skipPunctuator _ hp₃).bind fun b p₄ hp₄ => ?_
  split
  · refine (links_members hS fuel hp₄).bind fun chain p₅ hp₅ => ?_
    exact Runs.alloc₁ _ _ _ hp₅.close
  · exact Runs.alloc₁ _ _ _ hp₄.close

theorem links_enumerators (value : BitVec 64) : Links (parseEnumerators S fuel value) := by
  induction fuel generalizing value with
  | zero => exact fun hp => Runs.throw hp.grown
  | succ fuel ih =>
    intro a₀ p chain roots hp
    rw [parseEnumerators]
    refine (Runs.skipPunctuator _ hp).bind fun b p₁ hp₁ => ?_
    split
    · exact Runs.pure hp₁
    apply Runs.get
    dsimp only
    split
    swap
    · exact Runs.pure hp₁
    refine (Runs.advance hp₁).bind fun _ p₂ hp₂ => ?_
    -- behind the value
    have hrest : ∀ (value : BitVec 64) (p₃ : Parser), Owns a₀ p₃.arena chain roots →
        Runs a₀ (do
          modify fun p => { p with
            constantInts :=
              Function.update p.constantInts p₁.currentToken.text (some value.toInt) }
          let name ← storeString p₁.currentToken.text
          let const ← allocNode 26 (value.toNat % 2 ^ 32) 0 0 0
          let ident ← allocNode 60 name const 0 0
          setFirstChild const ident
          let chain ← linkSiblings chain const
          if ← skipPunctuator "\x7d" then return chain
          else
            let _ ← skipPunctuator ","
            parseEnumerators S fuel (value + 1) chain)
          (fun c p' => Owns a₀ p'.arena c roots) p₃ := by
      intro value p₃ hp₃
      have hmodify := Quiet.modify (f := fun p => { p with
        constantInts := Function.update p.constantInts p₁.currentToken.text (some value.toInt) })
        (fun _ => rfl) fun _ => ⟨rfl, Nat.le_refl _⟩
      refine (hmodify.runs hp₃).bind fun _ p₄ hp₄ => ?_
      refine (Runs.storeString _ hp₄).bind fun name p₅ hp₅ => ?_
      refine (Runs.alloc₀ _ _ _ hp₅).bind fun const p₆ hp₆ => ?_
      refine (Runs.alloc₀ _ _ _ hp₆).bind fun ident p₇ hp₇ => ?_
      refine (Runs.setFirstChild hp₇).bind fun _ p₈ hp₈ => ?_
      refine (Runs.linkSiblings hp₈).bind fun chain p₉ hp₉ => ?_
      refine (Runs.skipPunctuator _ hp₉).bind fun b q₁ hq₁ => ?_
      split
      · exact Runs.pure hq₁
      · exact (Runs.skipPunctuator _ hq₁).bind fun _ q₂ hq₂ => ih _ hq₂
    refine (Runs.skipPunctuator _ hp₂).bind fun b p₃ hp₃ => ?_
    split
    · refine (hS.conditionalExpression.runs hp₃).bind fun expr p₄ hp₄ => ?_
      exact ((Quiet.evalConstant expr).runs hp₄.drop).bind fun v p₅ hp₅ => hrest _ p₅ hp₅
    · exact hrest value p₃ hp₃

theorem call_enumSpecifier : Call (parseEnumSpecifier S fuel) := by
  refine .of fun a₀ p hp => ?_
  rw [parseEnumSpecifier]
  have hrest : ∀ p₁ : Parser, Owns a₀ p₁.arena (0, 0) [] →
      Runs a₀ (do
        if ← skipPunctuator "\x7b" then
          let consts ← parseEnumerators S fuel 0 (0, 0)
          allocNode 6 0 0 consts.1 0
        else allocNode 6 0 0 0 0) (fun r p' => Owns a₀ p'.arena (0, 0) [r]) p₁ := by
    intro p₁ hp₁
    refine (Runs.skipPunctuator _ hp₁).bind fun b p₂ hp₂ => ?_
    split
    · refine (links_enumerators hS fuel 0 hp₂).bind fun consts p₃ hp₃ => ?_
      exact Runs.alloc₁ _ _ _ hp₃.close
    · exact Runs.alloc₀ _ _ _ hp₂
  apply Runs.get
  split
  · exact (Runs.advance hp).bind fun _ p₁ hp₁ => hrest p₁ hp₁
  · exact hrest p hp

end Records

section Specifiers

variable {S : Grammar} (hS : Calls S) (fuel : ℕ)

/-- A word that becomes a node. -/
theorem runs_word {a₀ : Arena} {p : Parser} (kind : ℕ) (hp : Owns a₀ p.arena (0, 0) []) :
    Runs a₀ (do
      advance
      allocNode kind 0 0 0 0) (fun r p' => Owns a₀ p'.arena (0, 0) [r]) p :=
  (Runs.advance hp).bind fun _ _ hp₁ => Runs.alloc₀ _ _ _ hp₁

theorem call_storageClassSpecifier : Call parseStorageClassSpecifier :=
  .of fun _ _ hp => Runs.get (runs_word _ hp)

theorem call_typeQualifier : Call parseTypeQualifier :=
  .of fun _ _ hp => Runs.get (runs_word _ hp)

theorem call_functionSpecifier : Call parseFunctionSpecifier :=
  .of fun _ _ hp => Runs.get (runs_word _ hp)

include hS

theorem call_typeofExpr : Call (parseTypeofExpr S) := by
  refine .of fun a₀ p hp => ?_
  rw [parseTypeofExpr]
  refine (Runs.expect _ hp).bind fun _ p₁ hp₁ => ?_
  apply Runs.get
  split
  · refine (hS.declarationSpecifiers.runs hp₁).bind fun spec p₂ hp₂ => ?_
    exact (Runs.expect _ hp₂).bind fun _ p₃ hp₃ => Runs.alloc₁ _ _ _ hp₃
  · refine (hS.expression.runs hp₁).bind fun expr p₂ hp₂ => ?_
    exact (Runs.expect _ hp₂).bind fun _ p₃ hp₃ => Runs.alloc₁ _ _ _ hp₃

theorem call_typeSpecifier : Call (parseTypeSpecifier S fuel) := by
  refine .of fun a₀ p hp => ?_
  rw [parseTypeSpecifier]
  apply Runs.get
  dsimp only
  refine (Runs.advance hp).bind fun _ p₁ hp₁ => ?_
  split
  · exact (call_recordSpecifier hS fuel 4).runs hp₁
  split
  · exact (call_recordSpecifier hS fuel 5).runs hp₁
  split
  · exact (call_enumSpecifier hS fuel).runs hp₁
  split
  · exact (call_typeofExpr hS).runs hp₁
  split
  · exact Runs.alloc₀ _ _ _ hp₁
  split
  · exact Runs.alloc₀ _ _ _ hp₁
  · exact Runs.alloc₀ _ _ _ hp₁

theorem runs_specifiers {a₀ : Arena} {p : Parser} {chain : ℕ × ℕ} {roots : List ℕ} (hasType : Bool)
    (hp : Owns a₀ p.arena chain roots) : Runs a₀ (parseSpecifiers S fuel chain hasType)
      (fun r p' => Owns a₀ p'.arena r.1 roots) p := by
  induction fuel generalizing p chain hasType with
  | zero => exact Runs.throw hp.grown
  | succ fuel ih =>
    rw [parseSpecifiers]
    -- one more specifier
    have hone : ∀ {m : ParserM ℕ} (hasType : Bool) (p₁ : Parser), Call m →
        Owns a₀ p₁.arena chain roots → Runs a₀ (do
          let spec ← m
          let chain ← linkSiblings chain spec
          parseSpecifiers S fuel chain hasType) (fun r p' => Owns a₀ p'.arena r.1 roots) p₁ := by
      intro m hasType p₁ hm hp₁
      refine (hm.runs hp₁).bind fun spec p₂ hp₂ => ?_
      exact (Runs.linkSiblings hp₂).bind fun chain p₃ hp₃ => ih hasType hp₃
    apply Runs.get
    split
    · exact (Runs.advance hp).bind fun _ p₁ hp₁ =>
        hone hasType p₁ (call_attributeList hS fuel) hp₁
    split
    · exact (Runs.advance hp).bind fun _ p₁ hp₁ => ih hasType hp₁
    split
    · exact Runs.pure hp
    split
    · exact hone hasType p call_storageClassSpecifier hp
    split
    · exact hone true p (call_typeSpecifier hS fuel) hp
    split
    · exact hone hasType p call_typeQualifier hp
    split
    · exact hone hasType p call_functionSpecifier hp
    · exact Runs.pure hp

theorem call_declarationSpecifiers : Call (parseDeclarationSpecifiers S fuel) := by
  refine .of fun a₀ p hp => ?_
  rw [parseDeclarationSpecifiers]
  refine (runs_specifiers hS fuel false hp).bind fun r p₁ hp₁ => ?_
  dsimp only
  split
  · exact Runs.throwParse _ hp₁
  · exact Runs.pure hp₁.close

end Specifiers

section Declarators

variable {S : Grammar} (hS : Calls S) (fuel : ℕ)

theorem quiet_pointerQualifiers : Quiet (parsePointerQualifiers fuel) := by
  induction fuel with
  | zero => exact Quiet.throw _
  | succ fuel ih =>
    rw [parsePointerQualifiers]
    refine Quiet.get fun p => ?_
    split
    · exact call_typeQualifier.quiet.bind fun _ => ih
    · exact Quiet.pure _

theorem quiet_pointers (depth : ℕ) : Quiet (parsePointers fuel depth) := by
  induction fuel generalizing depth with
  | zero => exact Quiet.throw _
  | succ fuel ih =>
    rw [parsePointers]
    refine (Quiet.skipPunctuator _).bind fun b => ?_
    split
    · exact (quiet_pointerQualifiers fuel).bind fun _ => ih _
    · exact Quiet.pure _

include hS

theorem call_parameterDeclaration : Call (parseParameterDeclaration S) := by
  refine .of fun a₀ p hp => ?_
  rw [parseParameterDeclaration]
  apply Runs.get
  split
  swap
  · exact Runs.alloc₀ _ _ _ hp
  refine (hS.declarationSpecifiers.runs hp).bind fun specifiers p₁ hp₁ => ?_
  have hrest : ∀ (declarator : ℕ) (p₂ : Parser), Owns a₀ p₂.arena (0, 0) [declarator, specifiers] →
      Runs a₀ (do
        if declarator ≠ 0 ∧ specifiers ≠ 0 then appendAtEnd specifiers declarator
        allocNode 24 0 0 specifiers 0) (fun r p' => Owns a₀ p'.arena (0, 0) [r]) p₂ := by
    intro declarator p₂ hp₂
    split
    · exact (Runs.appendAtEnd hp₂).bind fun _ p₃ hp₃ => Runs.alloc₁ _ _ _ hp₃
    · exact Runs.alloc₁ _ _ _ hp₂.drop
  apply Runs.get
  split
  · exact (hS.declarator.runs hp₁).bind fun declarator p₂ hp₂ => hrest declarator p₂ hp₂
  · exact hrest 0 p₁ hp₁.null

theorem runs_parameters {a₀ : Arena} {p : Parser} {chain : ℕ × ℕ} {roots : List ℕ}
    (hp : Owns a₀ p.arena chain roots) : Runs a₀ (parseParameters S fuel chain)
      (fun r p' => Owns a₀ p'.arena r.1 roots) p := by
  induction fuel generalizing p chain with
  | zero => exact Runs.throw hp.grown
  | succ fuel ih =>
    rw [parseParameters]
    apply Runs.get
    dsimp only
    split
    · exact Runs.pure hp
    refine ((call_parameterDeclaration hS).runs hp).bind fun param p₁ hp₁ => ?_
    refine (Runs.linkSiblings hp₁).bind fun chain p₂ hp₂ => ?_
    apply Runs.get
    split
    · exact Runs.pure hp₂
    refine (Runs.skipPunctuator _ hp₂).bind fun b p₃ hp₃ => ?_
    split
    · apply Runs.get
      split
      · exact (Runs.advance hp₃).bind fun _ p₄ hp₄ => Runs.pure hp₄
      · exact ih hp₃
    · exact Runs.pure hp₃

theorem runs_parameterList {a₀ : Arena} {p : Parser} {roots : List ℕ}
    (hp : Owns a₀ p.arena (0, 0) roots) : Runs a₀ (parseParameterList S fuel)
      (fun r p' => Owns a₀ p'.arena (0, 0) (r.1 :: roots)) p := by
  rw [parseParameterList]
  apply Runs.get
  split
  · exact Runs.pure hp.null
  split
  · exact (Runs.advance hp).bind fun _ p₁ hp₁ => Runs.pure hp₁.null
  · exact (runs_parameters hS fuel hp).bind fun r p₁ hp₁ => Runs.pure hp₁.close

/-- The suffixes of a declarator, where no list is being linked. -/
theorem runs_declaratorSuffixes {a₀ : Arena} {p : Parser} {declarator : ℕ} {roots : List ℕ}
    (hp : Owns a₀ p.arena (0, 0) (declarator :: roots)) :
    Runs a₀ (parseDeclaratorSuffixes S fuel declarator)
      (fun r p' => Owns a₀ p'.arena (0, 0) (r :: roots)) p := by
  induction fuel generalizing p declarator with
  | zero => exact Runs.throw hp.grown
  | succ fuel ih =>
    rw [parseDeclaratorSuffixes]
    refine (Runs.skipPunctuator _ hp).bind fun b p₁ hp₁ => ?_
    split
    · have hrest : ∀ (size : ℕ) (p₂ : Parser), Owns a₀ p₂.arena (0, 0) (declarator :: roots) →
          Runs a₀ (do
            expect "]"
            let array ← allocNode 8 size 0 declarator 0
            parseDeclaratorSuffixes S fuel array)
            (fun r p' => Owns a₀ p'.arena (0, 0) (r :: roots)) p₂ := by
        intro size p₂ hp₂
        refine (Runs.expect _ hp₂).bind fun _ p₃ hp₃ => ?_
        exact (Runs.alloc₁ _ _ _ hp₃).bind fun array p₄ hp₄ => ih hp₄
      apply Runs.get
      split
      · refine (hS.conditionalExpression.runs hp₁).bind fun expr p₂ hp₂ => ?_
        exact ((Quiet.evalConstantU32 expr).runs hp₂.drop).bind fun size p₃ hp₃ =>
          hrest size p₃ hp₃
      · exact hrest 0 p₁ hp₁
    refine (Runs.skipPunctuator _ hp₁).bind fun b p₂ hp₂ => ?_
    split
    · apply Runs.get
      split
      · refine (Runs.advance hp₂).bind fun _ p₃ hp₃ => ?_
        exact (Runs.alloc₁ _ _ _ hp₃).bind fun function p₄ hp₄ => ih hp₄
      · refine (runs_parameterList hS fuel hp₂).bind fun r p₃ hp₃ => ?_
        dsimp only
        refine (Runs.expect _ hp₃).bind fun _ p₄ hp₄ => ?_
        split
        · refine (Runs.setNextSibling hp₄).bind fun _ p₅ hp₅ => ?_
          exact (Runs.alloc₁ _ _ _ hp₅).bind fun function p₆ hp₆ => ih hp₆
        · exact (Runs.alloc₁ _ _ _ hp₄.drop).bind fun function p₅ hp₅ => ih hp₅
    · exact Runs.pure hp₂

theorem call_directDeclarator : Call (parseDirectDeclarator S fuel) := by
  refine .of fun a₀ p hp => ?_
  rw [parseDirectDeclarator]
  apply Runs.get
  dsimp only
  split
  · refine (Runs.advance hp).bind fun _ p₁ hp₁ => ?_
    refine (Runs.storeString _ hp₁).bind fun name p₂ hp₂ => ?_
    exact (Runs.alloc₀ _ _ _ hp₂).bind fun declarator p₃ hp₃ => runs_declaratorSuffixes hS fuel hp₃
  refine (Runs.skipPunctuator _ hp).bind fun b p₁ hp₁ => ?_
  split
  · refine (hS.declarator.runs hp₁).bind fun declarator p₂ hp₂ => ?_
    exact (Runs.expect _ hp₂).bind fun _ p₃ hp₃ => runs_declaratorSuffixes hS fuel hp₃
  · exact runs_declaratorSuffixes hS fuel hp₁.null

theorem call_declarator : Call (parseDeclarator S fuel) := by
  refine .of fun a₀ p hp => ?_
  rw [parseDeclarator]
  refine ((quiet_pointers fuel 0).runs hp).bind fun depth p₁ hp₁ => ?_
  refine ((call_directDeclarator hS fuel).runs hp₁).bind fun direct p₂ hp₂ => ?_
  split
  · exact Runs.alloc₁ _ _ _ hp₂
  · exact Runs.pure hp₂

end Declarators

end OpticC.NodeForest
