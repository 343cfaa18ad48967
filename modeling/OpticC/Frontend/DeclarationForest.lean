import OpticC.Frontend.StatementForest
import OpticC.Frontend.TranslationUnit

/-! The nodes that parsing a file leaves, whether it succeeds, fails or runs out of its bound: they
form a forest, beside what was in the arena before. -/

namespace OpticC.NodeForest

open LinkedForest Grammar StatementExpr

section Rules

variable {a₀ : Arena} {α : Type} {p : Parser} {chain : ℕ × ℕ} {roots : List ℕ} {x d : ℕ}

theorem ok_of_bind {β : Type} {m : ParserM α} {f : α → ParserM β} {p p' : Parser} {b : β}
    (h : (m >>= f) p = .ok b p') : ∃ r q, m p = .ok r q ∧ f r q = .ok b p' := by
  simp only [Bind.bind, EStateM.bind] at h
  cases hm : m p with
  | ok r q =>
    rw [hm] at h
    exact ⟨r, q, rfl, h⟩
  | error e q =>
    rw [hm] at h
    cases h

/-- What is known of the result beside the forest. -/
theorem Runs.also {m : ParserM α} {Q R : α → Parser → Prop} (h : Runs a₀ m Q p)
    (hR : ∀ r p', m p = .ok r p' → R r p') : Runs a₀ m (fun r p' => Q r p' ∧ R r p') p := by
  unfold Runs at h ⊢
  cases hm : m p with
  | error e p' =>
    rw [hm] at h
    exact h
  | ok r p' =>
    rw [hm] at h
    exact ⟨h.1, h.2, hR r p' hm⟩

theorem extends_of_allocNode {kind data parent child next r : ℕ} {p' : Parser}
    (h : allocNode kind data parent child next p = .ok r p') : p.arena.Extends p'.arena := by
  rw [allocNode_eq] at h
  cases h
  exact extends_put _ _

/-- New nodes are not below an old one. -/
theorem reaches_old {a a' : Arena} (hg : Grown a₀ a) (hext : a.Extends a')
    (hx : x < a.nodeAllocated) (h : Reaches (links a₀.nodeAllocated a') x d) :
    Reaches (links a₀.nodeAllocated a) x d := by
  induction h using Relation.ReflTransGen.head_induction_on with
  | refl => exact .refl
  | head hstep _ ih =>
    obtain ⟨s, hs⟩ := hstep
    rw [links_of_lt hext hx] at hs
    exact (ih (hg.inside hs).2).head ⟨s, hs⟩

/-- A root that `d` is not below, behind a node that another one may have taken. -/
theorem Runs.setNextOf (h : Owns a₀ p.arena (0, 0) (x :: roots)) (hd : d = 0 ∨ a₀.nodeAllocated ≤ d)
    (hx : x ≠ 0 → d ≠ 0 → ¬Reaches (links a₀.nodeAllocated p.arena) x d) :
    Runs a₀ (OpticC.setNextSibling d x) (fun _ p' => Owns a₀ p'.arena (0, 0) roots) p := by
  refine ⟨⟨rfl, Nat.le_refl _⟩, ?_⟩
  show Owns a₀ (p.arena.modify d fun n => { n with nextSibling := x }) (0, 0) roots
  by_cases hd0 : d = 0
  · subst hd0
    rw [Owns.modify_null]
    exact h.drop
  · exact h.link (Owns.sets_next x) hd (fun hx0 => hx hx0 hd0) fun hc => absurd rfl hc

/-- The node is not below a root beside it, and stays so when one of the two gets a parent. -/
theorem Owns.apart_later {a' : Arena} (h : Owns a₀ p.arena (0, 0) (x :: d :: roots))
    (hext : p.arena.Extends a') (hx : x ≠ 0) (hd : d ≠ 0) :
    ¬Reaches (links a₀.nodeAllocated a') x d := fun hreach =>
  (h.apart hx).resolve_right hd (reaches_old h.grown hext
    ((h.root x (by simp)).resolve_left hx).2.1 hreach)

end Rules

section Declarations

variable {S : Grammar} (hS : Calls S) (fuel : ℕ)

theorem quiet_registerTypedef (specifiers declarator : ℕ) :
    Quiet (registerTypedef specifiers declarator) := by
  refine Quiet.modify (fun p => ?_) fun p => ?_
  · split <;> rfl
  · split
    · exact Moves.refl p
    · exact ⟨rfl, Nat.le_refl _⟩

include hS

theorem runs_initDeclarators {a₀ : Arena} {p : Parser} {chain : ℕ × ℕ} {roots : List ℕ}
    (isTypedef : Bool) (specifiers : ℕ) (hp : Owns a₀ p.arena chain roots) :
    Runs a₀ (parseInitDeclarators S isTypedef specifiers fuel chain)
      (fun c p' => Owns a₀ p'.arena c roots) p := by
  induction fuel generalizing p chain with
  | zero => exact Runs.throw hp.grown
  | succ fuel ih =>
    rw [parseInitDeclarators]
    refine (hS.declarator.runs hp).bind fun declarator p₁ hp₁ => ?_
    -- behind a declarator with its initializer
    have hitem : ∀ (item : ℕ) (chain : ℕ × ℕ) (p₂ : Parser), Owns a₀ p₂.arena chain (item :: roots) →
        Runs a₀ (do
          let chain ← linkSiblings chain item
          if ← skipPunctuator ";" then return chain
          else if ← skipPunctuator "," then
            parseInitDeclarators S isTypedef specifiers fuel chain
          else
            let _ ← skipPunctuator ";"
            return chain) (fun c p' => Owns a₀ p'.arena c roots) p₂ := by
      intro item chain p₂ hp₂
      refine (Runs.linkSiblings hp₂).bind fun chain p₃ hp₃ => ?_
      refine (Runs.skipPunctuator _ hp₃).bind fun b p₄ hp₄ => ?_
      split
      · exact Runs.pure hp₄
      refine (Runs.skipPunctuator _ hp₄).bind fun b p₅ hp₅ => ?_
      split
      · exact ih hp₅
      · exact (Runs.skipPunctuator _ hp₅).bind fun _ p₆ hp₆ => Runs.pure hp₆
    have hrest : ∀ p₂ : Parser, Owns a₀ p₂.arena chain (declarator :: roots) →
        Runs a₀ (do
          skipAsmLabel
          let chain ← parseAttributeLists S fuel chain
          skipAsmLabel
          let item ←
            if ← skipPunctuator "=" then do
              let t := (← get).currentToken
              let init ←
                if Parser.isPunct t "." || Parser.isPunct t "[" then parseDesignatedInit S
                else S.initializer
              if declarator ≠ 0 then setNextSibling declarator init
              allocNode 73 19 0 declarator 0
            else pure declarator
          let chain ← linkSiblings chain item
          if ← skipPunctuator ";" then return chain
          else if ← skipPunctuator "," then
            parseInitDeclarators S isTypedef specifiers fuel chain
          else
            let _ ← skipPunctuator ";"
            return chain) (fun c p' => Owns a₀ p'.arena c roots) p₂ := by
      intro p₂ hp₂
      refine (quiet_skipAsmLabel.runs hp₂).bind fun _ p₃ hp₃ => ?_
      refine (links_attributeLists hS fuel hp₃).bind fun chain p₄ hp₄ => ?_
      refine (quiet_skipAsmLabel.runs hp₄).bind fun _ p₅ hp₅ => ?_
      refine (Runs.skipPunctuator _ hp₅).bind fun b p₆ hp₆ => ?_
      split
      · apply Runs.get
        dsimp only
        have hinit : ∀ (init : ℕ) (p₇ : Parser),
            Owns a₀ p₇.arena chain (init :: declarator :: roots) → Runs a₀ (do
              if declarator ≠ 0 then setNextSibling declarator init
              let item ← allocNode 73 19 0 declarator 0
              let chain ← linkSiblings chain item
              if ← skipPunctuator ";" then return chain
              else if ← skipPunctuator "," then
                parseInitDeclarators S isTypedef specifiers fuel chain
              else
                let _ ← skipPunctuator ";"
                return chain) (fun c p' => Owns a₀ p'.arena c roots) p₇ := by
          intro init p₇ hp₇
          split
          · refine (Runs.setNextSibling hp₇).bind fun _ p₈ hp₈ => ?_
            exact (Runs.alloc₁ _ _ _ hp₈).bind fun item p₉ hp₉ => hitem item chain p₉ hp₉
          · exact (Runs.alloc₁ _ _ _ hp₇.drop).bind fun item p₈ hp₈ => hitem item chain p₈ hp₈
        split
        · exact ((call_designatedInit hS).runs hp₆).bind fun init p₇ hp₇ => hinit init p₇ hp₇
        · exact (hS.initializer.runs hp₆).bind fun init p₇ hp₇ => hinit init p₇ hp₇
      · exact hitem declarator chain p₆ hp₆
    dsimp only
    split
    · exact ((quiet_registerTypedef _ _).runs hp₁).bind fun _ p₂ hp₂ => hrest p₂ hp₂
    · exact hrest p₁ hp₁

theorem call_declaration : Call (parseDeclaration S fuel) := by
  refine .of fun a₀ p hp => ?_
  rw [parseDeclaration]
  apply Runs.get
  dsimp only
  refine (hS.declarationSpecifiers.runs hp).bind fun specifiers p₁ hp₁ => ?_
  have hrest : ∀ (chain : ℕ × ℕ) (p₂ : Parser), Owns a₀ p₂.arena chain [specifiers] →
      Runs a₀ (do
        if chain.1 ≠ 0 then appendAtEnd specifiers chain.1
        allocNode 21 0 0 specifiers 0) (fun r p' => Owns a₀ p'.arena (0, 0) [r]) p₂ := by
    intro chain p₂ hp₂
    split
    · exact (Runs.appendAtEnd hp₂.close).bind fun _ p₃ hp₃ => Runs.alloc₁ _ _ _ hp₃
    · exact Runs.alloc₁ _ _ _ hp₂.of_null
  refine (Runs.skipPunctuator _ hp₁).bind fun b p₂ hp₂ => ?_
  split
  · exact hrest (0, 0) p₂ hp₂
  · exact (runs_initDeclarators hS fuel _ specifiers hp₂).bind fun chain p₃ hp₃ =>
      hrest chain p₃ hp₃

omit hS in
/-- The first node of a list stays the first one. -/
theorem first_linkSiblings {chain c : ℕ × ℕ} {x : ℕ} {p p' : Parser} (hc : chain.1 ≠ 0)
    (h : linkSiblings chain x p = .ok c p') : c.1 = chain.1 := by
  unfold linkSiblings at h
  split at h
  · cases h
    rfl
  · obtain ⟨_, _, -, h⟩ := ok_of_bind h
    cases h
    rfl

omit hS in
theorem first_attributeLists {chain c : ℕ × ℕ} {p p' : Parser} (hc : chain.1 ≠ 0)
    (h : parseAttributeLists S fuel chain p = .ok c p') : c.1 = chain.1 := by
  induction fuel generalizing chain p with
  | zero => cases h
  | succ fuel ih =>
    rw [parseAttributeLists] at h
    rw [get_bind] at h
    split at h
    · obtain ⟨_, _, -, h⟩ := ok_of_bind h
      obtain ⟨_, _, -, h⟩ := ok_of_bind h
      obtain ⟨chain', _, hlink, h⟩ := ok_of_bind h
      have hfirst := first_linkSiblings hc hlink
      rw [ih (hfirst ▸ hc) h, hfirst]
    · cases h
      rfl

/-- The specifiers are the list so far: with an initializer, they go below the declaration, and
the initialized declarator behind their end. -/
theorem runs_firstDeclarator {a₀ : Arena} {p : Parser} {specifiers last : ℕ} (isTypedef : Bool)
    (hp : Owns a₀ p.arena (specifiers, last) []) :
    Runs a₀ (parseFirstDeclarator S isTypedef specifiers fuel (specifiers, last))
      (fun c p' => Owns a₀ p'.arena c []) p := by
  rw [parseFirstDeclarator]
  refine (hS.declarator.runs hp).bind fun declarator p₁ hp₁ => ?_
  have hrest : ∀ p₂ : Parser, Owns a₀ p₂.arena (specifiers, last) [declarator] →
      Runs a₀ (do
        skipAsmLabel
        let chain ← parseAttributeLists S fuel (specifiers, last)
        skipAsmLabel
        if ← skipPunctuator "=" then
          let init ← S.initializer
          let initDecl ← allocNode 73 0 0 declarator 0
          setNextSibling declarator init
          let varDecl ← allocNode 21 0 0 specifiers 0
          if specifiers ≠ 0 then appendAtEnd specifiers initDecl
          return (varDecl, varDecl)
        else linkSiblings chain declarator) (fun c p' => Owns a₀ p'.arena c []) p₂ := by
    intro p₂ hp₂
    refine (quiet_skipAsmLabel.runs hp₂).bind fun _ p₃ hp₃ => ?_
    refine ((links_attributeLists hS fuel hp₃).also (R := fun c _ => specifiers ≠ 0 → c.1 = specifiers)
      fun c p' hc h0 => first_attributeLists fuel h0 hc).bind fun chain p₄ hp₄ => ?_
    obtain ⟨hp₄, hfirst⟩ := hp₄
    refine (quiet_skipAsmLabel.runs hp₄).bind fun _ p₅ hp₅ => ?_
    refine (Runs.skipPunctuator _ hp₅).bind fun b p₆ hp₆ => ?_
    split
    swap
    · exact Runs.linkSiblings hp₆
    -- the specifiers are a root again
    have hspec : ∀ {p : Parser} {roots : List ℕ}, Owns a₀ p.arena chain roots →
        Owns a₀ p.arena (0, 0) (specifiers :: roots) := by
      intro p roots hp
      by_cases h0 : specifiers = 0
      · rw [h0]
        exact hp.of_null.null
      · rw [← hfirst h0]
        exact hp.close
    refine (hS.initializer.runs hp₆).bind fun init p₇ hp₇ => ?_
    have hp₇ := (hspec hp₇).swap
    have hroots : Owns a₀ p₇.arena (0, 0) [init, declarator, specifiers] :=
      hp₇.perm ((List.Perm.swap specifiers declarator []).cons init).subperm
    refine ((Runs.alloc₁ _ _ _ (hroots.perm (List.Perm.swap _ _ _).subperm)).also
      fun r p' h => extends_of_allocNode h).bind fun initDecl p₈ hp₈ => ?_
    obtain ⟨hp₈, hext⟩ := hp₈
    have hnew := Owns.New.of_root (hroots.root declarator (by simp))
    refine (Runs.setNextOf hp₈.swap hnew (hroots.apart_later hext)).bind fun _ p₉ hp₉ => ?_
    have hspecNew := Owns.New.of_root (hp₉.root specifiers (by simp))
    refine ((Runs.alloc₁ _ _ _ hp₉.swap).also fun r p' h => extends_of_allocNode h).bind
      fun varDecl q₁ hq₁ => ?_
    obtain ⟨hq₁, hext'⟩ := hq₁
    split
    · rename_i h0
      have hend : Runs a₀ (appendAtEnd specifiers initDecl)
          (fun _ p' => Owns a₀ p'.arena (0, 0) [varDecl]) q₁ := by
        refine (Runs.chainEnd hq₁).bind fun last q₂ hlast => ?_
        obtain ⟨rfl, hlast⟩ := hlast
        have happart := fun hx => hp₉.apart_later hext' hx h0
        exact Runs.setLast hq₁.swap hspecNew happart hlast
      exact hend.bind fun _ q₂ hq₂ => Runs.pure (hq₂.open_ (.inr .refl))
    · exact Runs.pure (hq₁.dropSecond.open_ (.inr .refl))
  dsimp only
  split
  · exact ((quiet_registerTypedef _ _).runs hp₁).bind fun _ p₂ hp₂ => hrest p₂ hp₂
  · exact hrest p₁ hp₁

theorem links_moreDeclarators : Links (parseMoreDeclarators S fuel) := by
  induction fuel with
  | zero => exact fun hp => Runs.throw hp.grown
  | succ fuel ih =>
    intro a₀ p chain roots hp
    rw [parseMoreDeclarators]
    refine (Runs.skipPunctuator _ hp).bind fun b p₁ hp₁ => ?_
    split
    · refine (hS.declarator.runs hp₁).bind fun declarator p₂ hp₂ => ?_
      refine (Runs.linkSiblings hp₂).bind fun chain p₃ hp₃ => ?_
      refine (quiet_skipAsmLabel.runs hp₃).bind fun _ p₄ hp₄ => ?_
      refine (links_attributeLists hS fuel hp₄).bind fun chain p₅ hp₅ => ?_
      exact (quiet_skipAsmLabel.runs hp₅).bind fun _ p₆ hp₆ => ih hp₆
    · exact Runs.pure hp₁

theorem call_fileDeclaration : Call (parseFileDeclaration S fuel) := by
  refine .of fun a₀ p hp => ?_
  rw [parseFileDeclaration]
  apply Runs.get
  dsimp only
  refine (hS.declarationSpecifiers.runs hp).bind fun specifiers p₁ hp₁ => ?_
  refine (Runs.chainEndOfList (hp₁.open_ (.inr .refl))).bind fun last p₂ hp₂ => ?_
  have hrest : ∀ (chain : ℕ × ℕ) (p₃ : Parser), Owns a₀ p₃.arena chain [] →
      Runs a₀ (do
        let chain ← parseMoreDeclarators S fuel chain
        if ← skipPunctuator ";" then allocNode 20 0 0 chain.1 0
        else if ← skipPunctuator "\x7b" then
          let body ← parseCompoundStatement S
          let chain ← linkSiblings chain body
          allocNode 23 0 0 chain.1 0
        else allocNode 20 0 0 chain.1 0) (fun r p' => Owns a₀ p'.arena (0, 0) [r]) p₃ := by
    intro chain p₃ hp₃
    refine (links_moreDeclarators hS fuel hp₃).bind fun chain p₄ hp₄ => ?_
    refine (Runs.skipPunctuator _ hp₄).bind fun b p₅ hp₅ => ?_
    split
    · exact Runs.alloc₁ _ _ _ hp₅.close
    refine (Runs.skipPunctuator _ hp₅).bind fun b p₆ hp₆ => ?_
    split
    · refine ((call_compoundStatement hS).runs hp₆).bind fun body p₇ hp₇ => ?_
      exact (Runs.linkSiblings hp₇).bind fun chain p₈ hp₈ => Runs.alloc₁ _ _ _ hp₈.close
    · exact Runs.alloc₁ _ _ _ hp₆.close
  apply Runs.get
  split
  · exact (runs_firstDeclarator hS fuel _ hp₂).bind fun chain p₃ hp₃ => hrest chain p₃ hp₃
  · exact hrest (specifiers, last) p₂ hp₂

end Declarations

end OpticC.NodeForest
