import OpticC.Frontend.DeclarationForest

/-! The nodes that parsing a file leaves, whether it succeeds, fails or runs out of its bound: they
form a forest, beside what was in the arena before. -/

namespace OpticC.NodeForest

open LinkedForest Grammar StatementExpr

section GnuForms

variable {S : Grammar} (hS : Calls S) (fuel : ℕ)

include hS

theorem runs_statementExprLoop {a₀ : Arena} {p : Parser} {roots : List ℕ} (rounds : ℕ)
    {b : StatementExpr.Body} (hp : Owns a₀ p.arena b.chain roots) :
    Runs a₀ (parseStatementExprLoop S.declaration S.expression rounds b)
      (fun b p' => Owns a₀ p'.arena b.chain roots) p := by
  induction rounds generalizing p b with
  | zero => exact Runs.pure hp
  | succ rounds ih =>
    rw [parseStatementExprLoop]
    apply Runs.get
    split
    · exact Runs.pure hp
    refine (Runs.skipPunctuator _ hp).bind fun b₁ p₁ hp₁ => ?_
    split
    · refine (Runs.alloc₀ _ _ _ hp₁).bind fun empty p₂ hp₂ => ?_
      exact (Runs.linkSiblings hp₂).bind fun chain p₃ hp₃ => ih hp₃
    dsimp only
    have hcall : Call (parseOrAdvance
        (if p.isTypeSpecifier || isStorageClassSpecifier p then S.declaration else S.expression)) := by
      split
      · exact call_parseOrAdvance hS.declaration
      · exact call_parseOrAdvance hS.expression
    refine (hcall.runs hp₁).bind fun node p₂ hp₂ => ?_
    apply Runs.get
    refine (Runs.linkSiblings hp₂).bind fun chain p₃ hp₃ => ?_
    apply Runs.get
    split
    · refine (Runs.advance hp₃).bind fun _ p₄ hp₄ => ?_
      exact (Runs.skipPunctuator _ hp₄).bind fun semicolon p₅ hp₅ => ih hp₅
    · exact (Runs.skipPunctuator _ hp₃).bind fun semicolon p₄ hp₄ => ih hp₄

theorem call_statementExpr : Call (Grammar.parseStatementExpr S) := by
  refine .of fun a₀ p hp => ?_
  rw [Grammar.parseStatementExpr, StatementExpr.parseStatementExpr]
  simp only [bind_assoc]
  refine (Runs.expect _ hp).bind fun _ p₁ hp₁ => ?_
  refine (Runs.expect _ hp₁).bind fun _ p₂ hp₂ => ?_
  refine (runs_statementExprLoop hS 10000 (b := ⟨(0, 0), []⟩) hp₂).bind fun b p₃ hp₃ => ?_
  refine (Runs.expect _ hp₃).bind fun _ p₄ hp₄ => ?_
  refine (Runs.expect _ hp₄).bind fun _ p₅ hp₅ => ?_
  exact (Runs.alloc₁ _ _ _ hp₅.close).bind fun node p₆ hp₆ => Runs.pure hp₆

omit hS in
theorem call_labelAddr : Call parseLabelAddr := by
  refine .of fun a₀ p hp => ?_
  refine (Runs.advance hp).bind fun _ p₁ hp₁ => ?_
  apply Runs.get
  dsimp only
  split
  · refine (Runs.advance hp₁).bind fun _ p₂ hp₂ => ?_
    exact (Runs.storeString _ hp₂).bind fun label p₃ hp₃ => Runs.alloc₀ _ _ _ hp₃
  · exact Runs.throwParse _ hp₁

theorem call_extensionWrapper : Call (parseExtensionWrapper S) := by
  refine .of fun a₀ p hp => ?_
  rw [parseExtensionWrapper]
  refine (Runs.advance hp).bind fun _ p₁ hp₁ => ?_
  apply Runs.get
  split
  · refine (hS.declarationSpecifiers.runs hp₁).bind fun spec p₂ hp₂ => ?_
    apply Runs.get
    split
    · refine (hS.declarator.runs hp₂).bind fun declarator p₃ hp₃ => ?_
      exact (Runs.alloc₂ _ _ _ hp₃.swap).bind fun inner p₄ hp₄ => Runs.alloc₁ _ _ _ hp₄
    · exact Runs.alloc₁ _ _ _ hp₂
  · exact (hS.expression.runs hp₁).bind fun expr p₂ hp₂ => Runs.alloc₁ _ _ _ hp₂

omit hS in
theorem quiet_skipQualifiers : Quiet (skipQualifiers fuel) := by
  induction fuel with
  | zero => exact Quiet.throw _
  | succ fuel ih =>
    rw [skipQualifiers]
    refine Quiet.get fun p => ?_
    split
    · exact Quiet.advance.bind fun _ => ih
    · exact Quiet.pure _

omit hS in
theorem quiet_skipStars (depth : ℕ) : Quiet (skipStars fuel depth) := by
  induction fuel generalizing depth with
  | zero => exact Quiet.throw _
  | succ fuel ih =>
    rw [skipStars]
    refine (Quiet.skipPunctuator _).bind fun b => ?_
    split
    · exact (quiet_skipQualifiers fuel).bind fun _ => ih _
    · exact Quiet.pure _

theorem call_builtinArgument (name : String) (index : ℕ) :
    Call (parseBuiltinArgument S fuel name index) := by
  refine .of fun a₀ p hp => ?_
  rw [parseBuiltinArgument]
  apply Runs.get
  split
  · refine (hS.declarationSpecifiers.runs hp).bind fun spec p₁ hp₁ => ?_
    refine ((quiet_skipStars fuel 0).runs hp₁).bind fun depth p₂ hp₂ => ?_
    split
    · exact Runs.alloc₁ _ _ _ hp₂
    · exact Runs.pure hp₂
  · exact hS.assignmentExpression.runs hp

theorem links_builtinArguments (name : String) (index : ℕ) :
    Links (parseBuiltinArguments S name fuel index) := by
  induction fuel generalizing index with
  | zero => exact fun hp => Runs.throw hp.grown
  | succ fuel ih =>
    intro a₀ p chain roots hp
    rw [parseBuiltinArguments]
    refine ((call_builtinArgument hS fuel name index).runs hp).bind fun arg p₁ hp₁ => ?_
    refine (Runs.linkSiblings hp₁).bind fun chain p₂ hp₂ => ?_
    refine (Runs.skipPunctuator _ hp₂).bind fun b p₃ hp₃ => ?_
    split
    · exact ih (index + 1) hp₃
    · exact Runs.pure hp₃

theorem call_builtinCall (name : String) : Call (parseBuiltinCall S fuel name) := by
  refine .of fun a₀ p hp => ?_
  rw [parseBuiltinCall]
  refine (Runs.storeString _ hp).bind fun nameOffset p₁ hp₁ => ?_
  refine (Runs.expect _ hp₁).bind fun _ p₂ hp₂ => ?_
  apply Runs.get
  split
  · exact (Runs.expect _ hp₂).bind fun _ p₃ hp₃ => Runs.alloc₀ _ _ _ hp₃
  · refine (links_builtinArguments hS fuel name 0 hp₂).bind fun args p₃ hp₃ => ?_
    exact (Runs.expect _ hp₃).bind fun _ p₄ hp₄ => Runs.alloc₁ _ _ _ hp₄.close

theorem productionCalls : ProductionCalls (S.productions fuel) :=
  ⟨hS.declarationSpecifiers, hS.declarator, hS.initializer, call_statementExpr hS,
    call_typeofExpr hS, call_extensionWrapper hS, call_labelAddr, call_builtinCall hS fuel⟩

end GnuForms

/-- All productions add trees, whatever the bound on their calls. -/
theorem calls_tied (fuel : ℕ) : Calls (tied fuel) := by
  induction fuel with
  | zero =>
    exact ⟨.throw _, .throw _, .throw _, .throw _, .throw _, .throw _, .throw _, .throw _⟩
  | succ fuel ih =>
    have hexpr := expressionCalls (productionCalls ih fuel) fuel
    exact ⟨hexpr.expression, hexpr.assignment, hexpr.conditional,
      call_declarationSpecifiers ih fuel, call_declarator ih fuel, call_initializer ih fuel,
      call_declaration ih fuel, call_statement ih fuel⟩

section Unit

variable {S : Grammar} (hS : Calls S) (fuel : ℕ)

include hS

theorem call_externalDeclaration : Call (parseExternalDeclaration S fuel) := by
  refine .of fun a₀ p hp => ?_
  rw [parseExternalDeclaration]
  apply Runs.get
  dsimp only
  split
  · exact (call_extensionWrapper hS).runs hp
  split
  · exact (Runs.advance hp).bind fun _ p₁ hp₁ => (call_fileDeclaration hS fuel).runs hp₁
  · exact (call_fileDeclaration hS fuel).runs hp

omit hS in
theorem runs_parseOrSkip {a₀ : Arena} {p : Parser} {chain : ℕ × ℕ} {roots : List ℕ} {m : ParserM ℕ}
    (hm : Call m) (hp : Owns a₀ p.arena chain roots) :
    Runs a₀ (parseOrSkip m)
      (fun r p' => Owns a₀ p'.arena chain (r.getD 0 :: roots)) p := by
  have hcall := hm.runs hp
  have herror := hm p
  unfold Runs parseOrSkip at *
  cases hr : m p with
  | ok r p' =>
    rw [hr] at hcall
    exact hcall
  | error e p' =>
    rw [hr] at hcall herror
    cases e with
    | outOfFuel => exact hcall
    | parse e =>
      have hrest : Runs a₀ (do advance; return none : ParserM (Option ℕ))
          (fun r p' => Owns a₀ p'.arena chain (r.getD 0 :: roots)) p' :=
        (Runs.advance (hp.quiet herror.2)).bind fun _ p'' hp'' => Runs.pure hp''.null
      unfold Runs at hrest
      simp only
      cases hr' : (do advance; return none : ParserM (Option ℕ)) p' with
      | ok r p'' =>
        rw [hr'] at hrest
        exact ⟨hcall.1.trans hrest.1, hrest.2⟩
      | error e p'' =>
        rw [hr'] at hrest
        exact ⟨hcall.1.trans hrest.1, hrest.2⟩

omit hS in
/-- The list of the declarations of a file. Where there was no node for one, the list is broken
off, and the end of it is the end of a list of its own. -/
def Linking (a₀ a : Arena) (chain : ℕ × ℕ) : Prop :=
  ∃ first roots, Owns a₀ a (first, chain.2) roots ∧ chain.1 ∈ first :: roots ∧
    (first = 0 → chain.2 = 0)

omit hS in
theorem runs_linkDeclaration {a₀ : Arena} {p : Parser} {chain : ℕ × ℕ} {first decl : ℕ}
    {roots : List ℕ} (hp : Owns a₀ p.arena (first, chain.2) (decl :: roots))
    (hmem : chain.1 ∈ first :: roots) (hnull : first = 0 → chain.2 = 0) (hc : chain.1 ≠ 0) :
    Runs a₀ (setNextSibling chain.2 decl)
      (fun _ p' => Linking a₀ p'.arena (chain.1, decl)) p := by
  refine ⟨⟨rfl, Nat.le_refl _⟩, ?_⟩
  show Linking a₀ (p.arena.modify chain.2 fun n => { n with nextSibling := decl }) (chain.1, decl)
  by_cases hfirst : first = 0
  · rw [hnull hfirst, Owns.modify_null]
    have hin := (List.mem_cons.1 hmem).resolve_left (hfirst ▸ hc)
    exact ⟨decl, roots, hp.of_null.open_ (.inr .refl), List.mem_cons_of_mem _ hin, id⟩
  by_cases hdecl : decl = 0
  · subst hdecl
    have hpath := hp.tail.resolve_left hfirst
    have hnew := Owns.New.of_reaches hp.grown (Owns.New.of_root (hp.root _ List.mem_cons_self)) hpath
    have hlink := hp.close.swap.link (Owns.sets_next 0) hnew (fun h => absurd rfl h)
      fun h => absurd rfl h
    exact ⟨0, first :: roots, hlink, List.mem_cons_of_mem _ hmem, fun _ => rfl⟩
  · exact ⟨first, roots, hp.append hfirst hdecl (Owns.sets_next decl) fun _ => rfl, hmem,
      fun h => absurd h hfirst⟩

theorem runs_externalDeclarations {a₀ : Arena} {p : Parser} {chain : ℕ × ℕ} (rounds : ℕ)
    (hp : Linking a₀ p.arena chain) :
    Runs a₀ (parseExternalDeclarations S fuel rounds chain)
      (fun c p' => Owns a₀ p'.arena (0, 0) [c.1]) p := by
  induction rounds generalizing p chain with
  | zero =>
    obtain ⟨first, roots, hp, -, -⟩ := hp
    exact Runs.throw hp.grown
  | succ rounds ih =>
    obtain ⟨first, roots, hp, hmem, hnull⟩ := hp
    rw [parseExternalDeclarations]
    apply Runs.get
    split
    · exact Runs.pure (hp.close.perm (List.singleton_subperm_iff.2 hmem))
    refine (runs_parseOrSkip (call_externalDeclaration hS fuel) hp).bind fun r p₁ hp₁ => ?_
    split
    · exact ih ⟨first, roots, hp₁.drop, hmem, hnull⟩
    · rename_i decl
      split
      · exact ih ⟨decl, roots, hp₁.of_null.open_ (.inr .refl), List.mem_cons_self, id⟩
      · rename_i hc
        exact (runs_linkDeclaration hp₁ hmem hnull hc).bind fun _ p₂ hp₂ => ih hp₂

end Unit

/-- The nodes of a file form a forest, with the translation unit as one of its roots; what was in
the arena is as it was. It is so wherever the parsing stops, and no token is gone back to. -/
theorem parseTokens_forest (fuel : ℕ) (a : Arena) (tokens : List Preprocessor.Token) :
    match parseTokens fuel a tokens with
    | .ok r p' => p'.tokens = parserTokens tokens ∧ Grown a p'.arena ∧ Root a p'.arena r
    | .error _ p' => p'.tokens = parserTokens tokens ∧ Grown a p'.arena := by
  have hrun : Runs a (parseTranslationUnit fuel) (fun r p' => Owns a p'.arena (0, 0) [r])
      ⟨a, parserTokens tokens, 0, fun _ => false, fun _ => none, fun _ => none⟩ :=
    (runs_externalDeclarations (calls_tied fuel) fuel fuel
      ⟨0, [], Owns.start (Grown.refl a), List.mem_cons_self, id⟩).bind fun chain p hp => Runs.pure hp
  unfold Runs at hrun
  unfold parseTokens
  split
  · rename_i r p' hr
    rw [hr] at hrun
    exact ⟨hrun.1.tokens, hrun.2.grown, hrun.2.root r (by simp)⟩
  · rename_i e p' hr
    rw [hr] at hrun
    exact ⟨hrun.1.tokens, hrun.2⟩

end OpticC.NodeForest
