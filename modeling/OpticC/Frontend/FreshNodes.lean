import OpticC.Frontend.BinaryChain

/-! The parsers of expressions write to nodes of their own only: what was allocated before stays
as it is, and the links of the new nodes stay among them. -/

namespace OpticC

/-- `NULL` or a node that is new since `a₀`. -/
def New (a₀ a : Arena) (off : ℕ) : Prop :=
  off = 0 ∨ a₀.nodeAllocated ≤ off ∧ off < a.nodeAllocated

theorem New.mono {a₀ a a' : Arena} {off : ℕ} (h : New a₀ a off)
    (hle : a.nodeAllocated ≤ a'.nodeAllocated) : New a₀ a' off :=
  h.imp id fun h => ⟨h.1, Nat.lt_of_lt_of_le h.2 hle⟩

theorem New.null (a₀ a : Arena) : New a₀ a 0 := .inl rfl

/-- The nodes of `a₀` are as they were, and no new node is linked to one of them. -/
structure Above (a₀ a : Arena) : Prop where
  extends_ : a₀.Extends a
  links : ∀ off n, a₀.nodeAllocated ≤ off → a.get off = some n → New a₀ a n.nextSibling

theorem Above.refl (a : Arena) : Above a a := by
  refine ⟨Arena.Extends.refl a, fun off n hoff hget => ?_⟩
  unfold Arena.get at hget
  rw [if_pos (.inr hoff)] at hget
  cases hget

namespace Above

variable {a₀ a : Arena}

theorem put (h : Above a₀ a) {n : CAstNode} (hn : New a₀ a n.nextSibling) :
    Above a₀ (a.put n).2 ∧ a.nodeAllocated ≤ (a.put n).2.nodeAllocated ∧
      New a₀ (a.put n).2 (a.put n).1 := by
  have hext := extends_put a n
  have hle := hext.allocated
  rcases Nat.lt_or_ge a.nodeAllocated a.nodeCapacity with hlt | hfull
  · have halloc := put_of_lt n hlt
    have hcount := put_nodeAllocated n hlt
    have hoff : (a.put n).1 = a.nodeAllocated := by
      simp only [Arena.put, Arena.alloc, if_neg (Nat.not_le.2 hlt), Option.getD_some]
    refine ⟨⟨h.extends_.trans hext, ?_⟩, hle, .inr ⟨?_, by omega⟩⟩
    · intro off m hge hget
      by_cases hnew : off = a.nodeAllocated
      · have hgot : (a.put n).2.get (a.put n).1 = some n := Arena.get_alloc halloc
        rw [hnew, ← hoff, hgot] at hget
        cases hget
        exact hn.mono hle
      · have hold : a.get off = some m := by
          rw [← hget]
          unfold Arena.put Arena.alloc Arena.get
          simp only [if_neg (Nat.not_le.2 hlt), Option.getD_some, if_neg hnew]
          split_ifs <;> first | rfl | omega
        exact (h.links off m hge hold).mono hle
    · rw [hoff]
      exact h.extends_.allocated
  · rw [put_of_full n hfull]
    exact ⟨h, Nat.le_refl _, .inl rfl⟩

theorem intern (h : Above a₀ a) (s : String) :
    Above a₀ (a.intern s).2 ∧ (a.intern s).2.nodeAllocated = a.nodeAllocated := by
  have hcount := (intern_nodes a s).2.1
  have hnodes : (a.intern s).2.nodes = a.nodes := by
    unfold Arena.intern Arena.storeString
    split_ifs <;> rfl
  refine ⟨⟨h.extends_.trans (extends_intern a s), fun off n hge hget => ?_⟩, hcount⟩
  have hold : a.get off = some n := by
    unfold Arena.get at hget ⊢
    rw [hnodes, hcount] at hget
    exact hget
  exact (h.links off n hge hold).mono (Nat.le_of_eq hcount.symm)

/-- A link from a new node, or from none, to a new node. -/
theorem modify (h : Above a₀ a) {off next : ℕ} (hoff : New a₀ a off) (hnext : New a₀ a next) :
    Above a₀ (a.modify off fun n => { n with nextSibling := next }) ∧
      (a.modify off fun n => { n with nextSibling := next }).nodeAllocated = a.nodeAllocated := by
  unfold Arena.modify
  split
  · exact ⟨h, rfl⟩
  · rename_i hin
    have hge : a₀.nodeAllocated ≤ off := (hoff.resolve_left fun h => hin (.inl h)).1
    refine ⟨⟨⟨h.extends_.allocated, ?_, ?_⟩, ?_⟩, rfl⟩
    · intro o n hget
      have hlt : o < a₀.nodeAllocated := by
        refine Nat.lt_of_not_le fun hle => ?_
        unfold Arena.get at hget
        rw [if_pos (.inr hle)] at hget
        cases hget
      have hne : o ≠ off := by omega
      have hkept := h.extends_.nodes o n hget
      unfold Arena.get at hkept ⊢
      simp only [if_neg hne]
      exact hkept
    · intro o s hs
      have hheld := h.extends_.strings o s hs
      exact ⟨hheld.1, hheld.2, hheld.3, hheld.4, hheld.5, hheld.6⟩
    · intro o n hle hget
      unfold Arena.get at hget
      simp only at hget
      split at hget
      · cases hget
      · rename_i hino
        cases hget
        split
        · exact hnext
        · exact h.links o _ hle (by unfold Arena.get; rw [if_neg hino])

end Above

/-- What a call leaves: the arena, and the tokens as they were. -/
structure Left (a₀ : Arena) (p p' : Parser) : Prop where
  above : Above a₀ p'.arena
  grows : p.arena.nodeAllocated ≤ p'.arena.nodeAllocated
  tokens : p'.tokens = p.tokens

/-- The call keeps the nodes of `a₀`, whether it fails or not. -/
def Keeps (a₀ : Arena) {α : Type} (m : ParserM α) (Q : α → Arena → Prop) (p : Parser) : Prop :=
  match m p with
  | .ok r p' => Left a₀ p p' ∧ Q r p'.arena
  | .error _ p' => Left a₀ p p'

namespace Keeps

variable {a₀ : Arena} {α β : Type} {p : Parser}

theorem bind {m : ParserM α} {f : α → ParserM β} {Q : α → Arena → Prop} {Q' : β → Arena → Prop}
    (h : Keeps a₀ m Q p)
    (hf : ∀ r p', Above a₀ p'.arena → p.arena.nodeAllocated ≤ p'.arena.nodeAllocated →
      Q r p'.arena → Keeps a₀ (f r) Q' p') : Keeps a₀ (m >>= f) Q' p := by
  unfold Keeps at h ⊢
  simp only [Bind.bind, EStateM.bind]
  cases hm : m p with
  | error e p' =>
    rw [hm] at h
    exact h
  | ok r p' =>
    rw [hm] at h
    obtain ⟨hleft, hQ⟩ := h
    have hrest := hf r p' hleft.above hleft.grows hQ
    unfold Keeps at hrest
    simp only
    cases hres : f r p' with
    | error e p'' =>
      rw [hres] at hrest
      exact ⟨hrest.above, Nat.le_trans hleft.grows hrest.grows, hrest.tokens.trans hleft.tokens⟩
    | ok r' p'' =>
      rw [hres] at hrest
      exact ⟨⟨hrest.1.above, Nat.le_trans hleft.grows hrest.1.grows,
        hrest.1.tokens.trans hleft.tokens⟩, hrest.2⟩

theorem pure {r : α} {Q : α → Arena → Prop} (hp : Above a₀ p.arena) (hQ : Q r p.arena) :
    Keeps a₀ (Pure.pure r : ParserM α) Q p :=
  ⟨⟨hp, Nat.le_refl _, rfl⟩, hQ⟩

theorem throw {e : Fault} {Q : α → Arena → Prop} (hp : Above a₀ p.arena) :
    Keeps a₀ (MonadExcept.throw e : ParserM α) Q p :=
  ⟨hp, Nat.le_refl _, rfl⟩

theorem get {f : Parser → ParserM β} {Q : β → Arena → Prop} (h : Keeps a₀ (f p) Q p) :
    Keeps a₀ (MonadState.get >>= f) Q p := h

theorem advance (hp : Above a₀ p.arena) : Keeps a₀ advance (fun _ _ => True) p := by
  unfold Keeps OpticC.advance
  simp only [modify_run]
  split <;> exact ⟨⟨hp, Nat.le_refl _, rfl⟩, trivial⟩

theorem expect (text : String) (hp : Above a₀ p.arena) :
    Keeps a₀ (expect text) (fun _ _ => True) p := by
  unfold OpticC.expect
  apply get
  dsimp only
  split
  · exact advance hp
  · exact throw hp

theorem skipPunctuator (text : String) (hp : Above a₀ p.arena) :
    Keeps a₀ (skipPunctuator text) (fun _ _ => True) p := by
  unfold OpticC.skipPunctuator
  apply get
  split
  · exact (advance hp).bind fun _ p' hp' _ _ => pure hp' trivial
  · exact pure hp trivial

theorem allocNode (kind data parent firstChild : ℕ) {next : ℕ} (hp : Above a₀ p.arena)
    (hnext : New a₀ p.arena next) :
    Keeps a₀ (allocNode kind data parent firstChild next) (fun r a => New a₀ a r) p := by
  obtain ⟨habove, hle, hnew⟩ := hp.put (n := ⟨kind, true, parent, firstChild, next, data⟩) hnext
  unfold Keeps
  rw [allocNode_eq]
  exact ⟨⟨habove, hle, rfl⟩, hnew⟩

theorem storeString (s : String) (hp : Above a₀ p.arena) :
    Keeps a₀ (storeString s) (fun _ _ => True) p := by
  obtain ⟨habove, hcount⟩ := hp.intern s
  unfold Keeps
  rw [storeString_eq]
  exact ⟨⟨habove, Nat.le_of_eq hcount.symm, rfl⟩, trivial⟩

theorem setNextSibling {off next : ℕ} (hp : Above a₀ p.arena) (hoff : New a₀ p.arena off)
    (hnext : New a₀ p.arena next) : Keeps a₀ (setNextSibling off next) (fun _ _ => True) p := by
  obtain ⟨habove, hcount⟩ := hp.modify hoff hnext
  exact ⟨⟨habove, Nat.le_of_eq hcount.symm, rfl⟩, trivial⟩

/-- The chain of a new node ends at a new one. -/
theorem new_lastSibling {a : Arena} (ha : Above a₀ a) {fuel off last : ℕ} (hoff : New a₀ a off)
    (h : lastSibling a fuel off = some last) : New a₀ a last := by
  induction fuel generalizing off with
  | zero => cases h
  | succ fuel ih =>
    rw [lastSibling] at h
    split at h
    · cases h
      exact hoff
    · rename_i n hget
      split at h
      · cases h
        exact hoff
      · have hpos : off ≠ 0 := by
          rintro rfl
          simp [Arena.get] at hget
        exact ih (ha.links off n (hoff.resolve_left hpos).1 hget) h

end Keeps

section Grammar

variable {a₀ : Arena}

theorem keeps_appendSibling {p : Parser} {fuel off next : ℕ} (hp : Above a₀ p.arena)
    (hoff : New a₀ p.arena off) (hnext : New a₀ p.arena next) :
    Keeps a₀ (appendSibling fuel off next) (fun _ _ => True) p := by
  unfold appendSibling
  apply Keeps.get
  split
  · exact Keeps.throw hp
  · rename_i last hlast
    exact Keeps.setNextSibling hp (Keeps.new_lastSibling hp hoff hlast) hnext

theorem keeps_linkSiblings {chain : ℕ × ℕ} {node : ℕ} {p : Parser} (hp : Above a₀ p.arena)
    (hfirst : New a₀ p.arena chain.1) (hlast : New a₀ p.arena chain.2)
    (hnode : New a₀ p.arena node) :
    Keeps a₀ (linkSiblings chain node) (fun r a => New a₀ a r.1 ∧ New a₀ a r.2) p := by
  unfold linkSiblings
  split
  · exact Keeps.pure hp ⟨hfirst, hlast⟩
  · split
    · exact Keeps.pure hp ⟨hnode, hnode⟩
    · exact (Keeps.setNextSibling hp hlast hnode).bind fun _ p₁ hp₁ hle _ =>
        Keeps.pure hp₁ ⟨hfirst.mono hle, hnode.mono hle⟩

/-- The parser returns a new node or `NULL`. -/
def KeepsNew (a₀ : Arena) (m : ParserM ℕ) : Prop :=
  ∀ p, Above a₀ p.arena → Keeps a₀ m (fun r a => New a₀ a r) p

/-- The productions outside of the expressions keep the nodes of `a₀`. -/
structure Productions.KeepNodes (G : Productions) (a₀ : Arena) : Prop where
  declarationSpecifiers : KeepsNew a₀ G.declarationSpecifiers
  declarator : KeepsNew a₀ G.declarator
  initializer : KeepsNew a₀ G.initializer
  statementExpr : KeepsNew a₀ G.statementExpr
  typeofExpr : KeepsNew a₀ G.typeofExpr
  extensionWrapper : KeepsNew a₀ G.extensionWrapper
  labelAddr : KeepsNew a₀ G.labelAddr
  builtinCall : ∀ name, KeepsNew a₀ (G.builtinCall name)

/-- The parsers of expressions keep the nodes of `a₀`. -/
structure ExpressionsKeep (G : Productions) (a₀ : Arena) (fuel : ℕ) : Prop where
  expression : KeepsNew a₀ (parseExpression G fuel)
  comma : KeepsNew a₀ (parseCommaExpression G fuel)
  assignment : KeepsNew a₀ (parseAssignmentExpression G fuel)
  conditional : KeepsNew a₀ (parseConditionalExpression G fuel)
  binaryOp : ∀ precedence, KeepsNew a₀ (parseBinaryOp G fuel precedence)
  binaryOpLoop : ∀ precedence left p, Above a₀ p.arena → New a₀ p.arena left →
    Keeps a₀ (parseBinaryOpLoop G fuel precedence left) (fun r a => New a₀ a r) p
  unary : KeepsNew a₀ (parseUnaryExpression G fuel)
  sizeof : KeepsNew a₀ (parseSizeofExpression G fuel)
  cast : KeepsNew a₀ (parseCastExpression G fuel)
  postfix_ : KeepsNew a₀ (parsePostfixExpression G fuel)
  postfixLoop : ∀ expr p, Above a₀ p.arena → New a₀ p.arena expr →
    Keeps a₀ (parsePostfixLoop G fuel expr) (fun r a => New a₀ a r) p
  argumentList : KeepsNew a₀ (parseArgumentExpressionList G fuel)
  argumentLoop : ∀ chain p, Above a₀ p.arena → New a₀ p.arena chain.1 → New a₀ p.arena chain.2 →
    Keeps a₀ (parseArgumentLoop G fuel chain) (fun r a => New a₀ a r) p
  primary : KeepsNew a₀ (parsePrimaryExpression G fuel)

variable {G : Productions} {fuel : ℕ} (hG : G.KeepNodes a₀) (h : ExpressionsKeep G a₀ fuel)

include h

theorem keeps_comma : KeepsNew a₀ (parseCommaExpression G (fuel + 1)) := by
  intro p hp
  rw [parseCommaExpression]
  refine (h.assignment p hp).bind fun left p₁ hp₁ _ hleft => ?_
  refine (Keeps.skipPunctuator _ hp₁).bind fun b p₂ hp₂ hle _ => ?_
  have hleft := hleft.mono hle
  split
  · refine (h.comma p₂ hp₂).bind fun right p₃ hp₃ _ hright => ?_
    exact Keeps.allocNode _ _ _ _ hp₃ hright
  · exact Keeps.pure hp₂ hleft

theorem keeps_assignment : KeepsNew a₀ (parseAssignmentExpression G (fuel + 1)) := by
  intro p hp
  rw [parseAssignmentExpression]
  refine (h.conditional p hp).bind fun left p₁ hp₁ _ hleft => ?_
  apply Keeps.get
  split
  · refine (Keeps.advance hp₁).bind fun _ p₂ hp₂ _ _ => ?_
    refine (h.assignment p₂ hp₂).bind fun right p₃ hp₃ _ hright => ?_
    exact Keeps.allocNode _ _ _ _ hp₃ hright
  · exact Keeps.pure hp₁ hleft

theorem keeps_conditional : KeepsNew a₀ (parseConditionalExpression G (fuel + 1)) := by
  intro p hp
  rw [parseConditionalExpression]
  refine (h.binaryOp 0 p hp).bind fun condition p₁ hp₁ _ hcondition => ?_
  refine (Keeps.skipPunctuator _ hp₁).bind fun b p₂ hp₂ hle _ => ?_
  split
  · refine (h.expression p₂ hp₂).bind fun thenExpr p₃ hp₃ _ _ => ?_
    refine (Keeps.expect _ hp₃).bind fun _ p₄ hp₄ _ _ => ?_
    refine (h.conditional p₄ hp₄).bind fun elseExpr p₅ hp₅ _ helse => ?_
    refine (Keeps.allocNode _ _ _ _ hp₅ helse).bind fun elseNode p₆ hp₆ _ hnode => ?_
    exact Keeps.allocNode _ _ _ _ hp₆ hnode
  · exact Keeps.pure hp₂ (hcondition.mono hle)

theorem keeps_binaryOp (precedence : ℕ) : KeepsNew a₀ (parseBinaryOp G (fuel + 1) precedence) := by
  intro p hp
  rw [parseBinaryOp]
  exact (h.cast p hp).bind fun left p₁ hp₁ _ hleft => h.binaryOpLoop precedence left p₁ hp₁ hleft

theorem keeps_binaryOpLoop (precedence left : ℕ) (p : Parser) (hp : Above a₀ p.arena)
    (hleft : New a₀ p.arena left) :
    Keeps a₀ (parseBinaryOpLoop G (fuel + 1) precedence left) (fun r a => New a₀ a r) p := by
  rw [parseBinaryOpLoop]
  apply Keeps.get
  dsimp only
  split
  · exact Keeps.pure hp hleft
  · refine (Keeps.advance hp).bind fun _ p₁ hp₁ _ _ => ?_
    refine (h.binaryOp _ p₁ hp₁).bind fun right p₂ hp₂ _ hright => ?_
    refine (Keeps.allocNode _ _ _ _ hp₂ hright).bind fun operands p₃ hp₃ _ _ => ?_
    refine (Keeps.allocNode _ _ _ _ hp₃ (New.null _ _)).bind fun node p₄ hp₄ _ hnode => ?_
    exact h.binaryOpLoop precedence node p₄ hp₄ hnode

theorem keeps_unary : KeepsNew a₀ (parseUnaryExpression G (fuel + 1)) := by
  intro p hp
  rw [parseUnaryExpression]
  apply Keeps.get
  dsimp only
  split
  · exact h.sizeof p hp
  · split
    · refine (Keeps.advance hp).bind fun _ p₁ hp₁ _ _ => ?_
      split
      · refine (h.cast p₁ hp₁).bind fun operand p₂ hp₂ _ _ => ?_
        exact Keeps.allocNode _ _ _ _ hp₂ (New.null _ _)
      · refine (h.unary p₁ hp₁).bind fun operand p₂ hp₂ _ _ => ?_
        exact Keeps.allocNode _ _ _ _ hp₂ (New.null _ _)
    · exact h.postfix_ p hp

include hG in
theorem keeps_sizeof : KeepsNew a₀ (parseSizeofExpression G (fuel + 1)) := by
  intro p hp
  rw [parseSizeofExpression]
  refine (Keeps.advance hp).bind fun _ p₁ hp₁ _ _ => ?_
  refine (Keeps.skipPunctuator _ hp₁).bind fun b p₂ hp₂ _ _ => ?_
  split
  · apply Keeps.get
    split
    · refine (hG.declarationSpecifiers p₂ hp₂).bind fun specifiers p₃ hp₃ _ _ => ?_
      refine (Keeps.expect _ hp₃).bind fun _ p₄ hp₄ _ _ => ?_
      exact Keeps.allocNode _ _ _ _ hp₄ (New.null _ _)
    · refine (h.expression p₂ hp₂).bind fun expr p₃ hp₃ _ _ => ?_
      refine (Keeps.expect _ hp₃).bind fun _ p₄ hp₄ _ _ => ?_
      exact Keeps.allocNode _ _ _ _ hp₄ (New.null _ _)
  · refine (h.unary p₂ hp₂).bind fun operand p₃ hp₃ _ _ => ?_
    exact Keeps.allocNode _ _ _ _ hp₃ (New.null _ _)

/-- A parenthesized expression, behind the "(" -/
theorem keeps_parenthesized {p : Parser} (hp : Above a₀ p.arena) :
    Keeps a₀ (do
      let expr ← parseExpression G fuel
      expect ")"
      return expr) (fun r a => New a₀ a r) p := by
  refine (h.expression p hp).bind fun expr p₁ hp₁ _ hexpr => ?_
  exact (Keeps.expect _ hp₁).bind fun _ p₂ hp₂ hle _ => Keeps.pure hp₂ (hexpr.mono hle)

include hG in
theorem keeps_cast : KeepsNew a₀ (parseCastExpression G (fuel + 1)) := by
  intro p hp
  rw [parseCastExpression]
  refine (Keeps.skipPunctuator _ hp).bind fun b p₁ hp₁ _ _ => ?_
  split
  · apply Keeps.get
    dsimp only
    split
    · refine (hG.declarationSpecifiers p₁ hp₁).bind fun castType p₂ hp₂ _ htype => ?_
      -- behind the type, with or without a declarator
      have hrest : ∀ p₃ : Parser, Above a₀ p₃.arena → New a₀ p₃.arena castType →
          Keeps a₀ (do
            if ← skipPunctuator ")" then
              if Parser.isPunct (← get).currentToken "\x7b" then
                let initList ← G.initializer
                allocNode 212 initList 0 castType 0
              else
                let expr ← parseCastExpression G fuel
                appendSibling fuel castType expr
                allocNode 70 0 0 castType 0
            else
              let expr ← parseExpression G fuel
              expect ")"
              return expr) (fun r a => New a₀ a r) p₃ := by
        intro p₃ hp₃ htype
        refine (Keeps.skipPunctuator _ hp₃).bind fun b p₄ hp₄ hle _ => ?_
        split
        · apply Keeps.get
          split
          · refine (hG.initializer p₄ hp₄).bind fun initList p₅ hp₅ _ _ => ?_
            exact Keeps.allocNode _ _ _ _ hp₅ (New.null _ _)
          · refine (h.cast p₄ hp₄).bind fun expr p₅ hp₅ hle' hexpr => ?_
            refine (keeps_appendSibling hp₅ ((htype.mono hle).mono hle') hexpr).bind
              fun _ p₆ hp₆ _ _ => ?_
            exact Keeps.allocNode _ _ _ _ hp₆ (New.null _ _)
        · exact keeps_parenthesized h hp₄
      apply Keeps.get
      split
      · refine (hG.declarator p₂ hp₂).bind fun ptrDecl p₃ hp₃ hle hptr => ?_
        split
        · refine (keeps_appendSibling hp₃ (htype.mono hle) hptr).bind fun _ p₄ hp₄ hle' _ => ?_
          exact hrest p₄ hp₄ ((htype.mono hle).mono hle')
        · exact hrest p₃ hp₃ (htype.mono hle)
      · exact hrest p₂ hp₂ htype
    · exact keeps_parenthesized h hp₁
  · exact h.unary p₁ hp₁

theorem keeps_postfix : KeepsNew a₀ (parsePostfixExpression G (fuel + 1)) := by
  intro p hp
  rw [parsePostfixExpression]
  exact (h.primary p hp).bind fun expr p₁ hp₁ _ hexpr => h.postfixLoop expr p₁ hp₁ hexpr

theorem keeps_postfixLoop (expr : ℕ) (p : Parser) (hp : Above a₀ p.arena)
    (hexpr : New a₀ p.arena expr) :
    Keeps a₀ (parsePostfixLoop G (fuel + 1) expr) (fun r a => New a₀ a r) p := by
  rw [parsePostfixLoop]
  -- a member behind "." or "->"
  have hmember : ∀ (mask : ℕ → ℕ) (p₁ : Parser), Above a₀ p₁.arena → New a₀ p₁.arena expr →
      Keeps a₀ (do
        let t := (← get).currentToken
        if t.kind = .identifier then
          advance
          let member ← storeString t.text
          let node ← allocNode 69 (mask member) 0 expr 0
          parsePostfixLoop G fuel node
        else parsePostfixLoop G fuel expr) (fun r a => New a₀ a r) p₁ := by
    intro mask p₁ hp₁ hexpr
    apply Keeps.get
    dsimp only
    split
    · refine (Keeps.advance hp₁).bind fun _ p₂ hp₂ _ _ => ?_
      refine (Keeps.storeString _ hp₂).bind fun member p₃ hp₃ _ _ => ?_
      refine (Keeps.allocNode _ _ _ _ hp₃ (New.null _ _)).bind fun node p₄ hp₄ _ hnode => ?_
      exact h.postfixLoop node p₄ hp₄ hnode
    · exact h.postfixLoop expr p₁ hp₁ hexpr
  refine (Keeps.skipPunctuator _ hp).bind fun b p₁ hp₁ hle₁ _ => ?_
  have hexpr := hexpr.mono hle₁
  split
  · refine (h.expression p₁ hp₁).bind fun index p₂ hp₂ _ hindex => ?_
    refine (Keeps.expect _ hp₂).bind fun _ p₃ hp₃ hle₃ _ => ?_
    refine (Keeps.allocNode _ _ _ _ hp₃ (hindex.mono hle₃)).bind fun node p₄ hp₄ _ hnode => ?_
    exact h.postfixLoop node p₄ hp₄ hnode
  refine (Keeps.skipPunctuator _ hp₁).bind fun b p₂ hp₂ hle₂ _ => ?_
  have hexpr := hexpr.mono hle₂
  split
  · refine (h.argumentList p₂ hp₂).bind fun args p₃ hp₃ hle₃ hargs => ?_
    refine (Keeps.expect _ hp₃).bind fun _ p₄ hp₄ hle₄ _ => ?_
    have hexpr := (hexpr.mono hle₃).mono hle₄
    have hcall : ∀ p₅ : Parser, Above a₀ p₅.arena → Keeps a₀ (do
        let node ← allocNode 67 0 0 expr 0
        parsePostfixLoop G fuel node) (fun r a => New a₀ a r) p₅ := by
      intro p₅ hp₅
      refine (Keeps.allocNode _ _ _ _ hp₅ (New.null _ _)).bind fun node p₆ hp₆ _ hnode => ?_
      exact h.postfixLoop node p₆ hp₆ hnode
    split
    · refine (Keeps.setNextSibling hp₄ hexpr (hargs.mono hle₄)).bind fun _ p₅ hp₅ _ _ => ?_
      exact hcall p₅ hp₅
    · exact hcall p₄ hp₄
  refine (Keeps.skipPunctuator _ hp₂).bind fun b p₃ hp₃ hle₃ _ => ?_
  have hexpr := hexpr.mono hle₃
  split
  · exact hmember id p₃ hp₃ hexpr
  refine (Keeps.skipPunctuator _ hp₃).bind fun b p₄ hp₄ hle₄ _ => ?_
  have hexpr := hexpr.mono hle₄
  split
  · exact hmember (· ||| 2 ^ 31) p₄ hp₄ hexpr
  refine (Keeps.skipPunctuator _ hp₄).bind fun b p₅ hp₅ hle₅ _ => ?_
  have hexpr := hexpr.mono hle₅
  have hstep : ∀ (code : ℕ) (p₆ : Parser), Above a₀ p₆.arena → Keeps a₀ (do
      let node ← allocNode 65 code 0 expr 0
      parsePostfixLoop G fuel node) (fun r a => New a₀ a r) p₆ := by
    intro code p₆ hp₆
    refine (Keeps.allocNode _ _ _ _ hp₆ (New.null _ _)).bind fun node p₇ hp₇ _ hnode => ?_
    exact h.postfixLoop node p₇ hp₇ hnode
  split
  · exact hstep 6 p₅ hp₅
  refine (Keeps.skipPunctuator _ hp₅).bind fun b p₆ hp₆ hle₆ _ => ?_
  split
  · exact hstep 7 p₆ hp₆
  · exact Keeps.pure hp₆ (hexpr.mono hle₆)

theorem keeps_argumentList : KeepsNew a₀ (parseArgumentExpressionList G (fuel + 1)) := by
  intro p hp
  rw [parseArgumentExpressionList]
  apply Keeps.get
  split
  · exact h.argumentLoop (0, 0) p hp (New.null _ _) (New.null _ _)
  · exact Keeps.pure hp (New.null _ _)

theorem keeps_argumentLoop (chain : ℕ × ℕ) (p : Parser) (hp : Above a₀ p.arena)
    (hfirst : New a₀ p.arena chain.1) (hlast : New a₀ p.arena chain.2) :
    Keeps a₀ (parseArgumentLoop G (fuel + 1) chain) (fun r a => New a₀ a r) p := by
  rw [parseArgumentLoop]
  refine (h.assignment p hp).bind fun arg p₁ hp₁ hle₁ _ => ?_
  refine (Keeps.allocNode _ _ _ _ hp₁ (New.null _ _)).bind fun wrapper p₂ hp₂ hle₂ hwrapper => ?_
  refine (keeps_linkSiblings hp₂ ((hfirst.mono hle₁).mono hle₂) ((hlast.mono hle₁).mono hle₂)
    hwrapper).bind fun chain' p₃ hp₃ _ hchain => ?_
  apply Keeps.get
  split
  · exact Keeps.pure hp₃ hchain.1
  · refine (Keeps.skipPunctuator _ hp₃).bind fun b p₄ hp₄ hle₄ _ => ?_
    split
    · exact h.argumentLoop chain' p₄ hp₄ (hchain.1.mono hle₄) (hchain.2.mono hle₄)
    · exact Keeps.pure hp₄ (hchain.1.mono hle₄)

include hG in
theorem keeps_primary : KeepsNew a₀ (parsePrimaryExpression G (fuel + 1)) := by
  intro p hp
  have hliterals : ∀ (fuel : ℕ) (acc : List Char) (q : Parser), Above a₀ q.arena →
      Keeps a₀ (parseAdjacentLiterals fuel acc) (fun _ _ => True) q := by
    intro fuel
    induction fuel with
    | zero => exact fun acc q hq => Keeps.throw hq
    | succ fuel ih =>
      intro acc q hq
      rw [parseAdjacentLiterals]
      apply Keeps.get
      split
      · split
        · exact (Keeps.advance hq).bind fun _ q₁ hq₁ _ _ => ih _ q₁ hq₁
        · exact Keeps.pure hq trivial
      · exact Keeps.pure hq trivial
  rw [parsePrimaryExpression]
  apply Keeps.get
  dsimp only
  split
  · exact hG.statementExpr p hp
  split
  · exact hG.typeofExpr p hp
  split
  · exact hG.extensionWrapper p hp
  split
  · exact (Keeps.advance hp).bind fun _ p₁ hp₁ _ _ => hG.builtinCall _ p₁ hp₁
  split
  · exact hG.labelAddr p hp
  split
  · refine (Keeps.advance hp).bind fun _ p₁ hp₁ _ _ => ?_
    refine (Keeps.storeString _ hp₁).bind fun name p₂ hp₂ _ _ => ?_
    exact Keeps.allocNode _ _ _ _ hp₂ (New.null _ _)
  · refine (Keeps.advance hp).bind fun _ p₁ hp₁ _ _ => ?_
    exact Keeps.allocNode _ _ _ _ hp₁ (New.null _ _)
  · refine (Keeps.advance hp).bind fun _ p₁ hp₁ _ _ => ?_
    exact Keeps.allocNode _ _ _ _ hp₁ (New.null _ _)
  · refine (Keeps.advance hp).bind fun _ p₁ hp₁ _ _ => ?_
    refine (hliterals _ _ p₁ hp₁).bind fun chars p₂ hp₂ _ _ => ?_
    refine (Keeps.storeString _ hp₂).bind fun text p₃ hp₃ _ _ => ?_
    exact Keeps.allocNode _ _ _ _ hp₃ (New.null _ _)
  · split
    · exact (Keeps.advance hp).bind fun _ p₁ hp₁ _ _ => keeps_parenthesized h hp₁
    · exact Keeps.pure hp (New.null _ _)
  · exact Keeps.pure hp (New.null _ _)

end Grammar

/-- The parsers of expressions keep the nodes of `a₀`, by induction on the bound of the calls. -/
theorem expressionsKeep {a₀ : Arena} {G : Productions} (hG : G.KeepNodes a₀) (fuel : ℕ) :
    ExpressionsKeep G a₀ fuel := by
  induction fuel with
  | zero =>
    have hthrow : ∀ {m : ParserM ℕ}, m = throw .outOfFuel → KeepsNew a₀ m := by
      rintro m rfl p hp
      exact Keeps.throw hp
    exact
      { expression := hthrow (by rw [parseExpression])
        comma := hthrow (by rw [parseCommaExpression])
        assignment := hthrow (by rw [parseAssignmentExpression])
        conditional := hthrow (by rw [parseConditionalExpression])
        binaryOp := fun _ => hthrow (by rw [parseBinaryOp])
        binaryOpLoop := fun _ _ p hp _ => hthrow (by rw [parseBinaryOpLoop]) p hp
        unary := hthrow (by rw [parseUnaryExpression])
        sizeof := hthrow (by rw [parseSizeofExpression])
        cast := hthrow (by rw [parseCastExpression])
        postfix_ := hthrow (by rw [parsePostfixExpression])
        postfixLoop := fun _ p hp _ => hthrow (by rw [parsePostfixLoop]) p hp
        argumentList := hthrow (by rw [parseArgumentExpressionList])
        argumentLoop := fun _ p hp _ _ => hthrow (by rw [parseArgumentLoop]) p hp
        primary := hthrow (by rw [parsePrimaryExpression]) }
  | succ fuel ih =>
    have hexpression : KeepsNew a₀ (parseExpression G (fuel + 1)) := by
      rw [parseExpression]
      exact ih.comma
    exact ⟨hexpression, keeps_comma ih, keeps_assignment ih, keeps_conditional ih,
      keeps_binaryOp ih, keeps_binaryOpLoop ih, keeps_unary ih, keeps_sizeof hG ih,
      keeps_cast hG ih, keeps_postfix ih, keeps_postfixLoop ih, keeps_argumentList ih,
      keeps_argumentLoop ih, keeps_primary hG ih⟩

end OpticC
