import OpticC.Frontend.ExpressionReading

/-! Operands with their postfix and prefix operators. The loop of `parse_postfix_expression` is
behind `parse_primary_expression` alone, so `parse_cast_expression` leaves the postfix operators
behind a parenthesised operand. -/

namespace OpticC.Expressions

open StatementExpr (Gives)

section Suffixes

variable {T : String → Bool} {G : Productions}

theorem read_noSuffix : (Phrase.noSuffix : Phrase T .suffixes).Read G := by
  intro n p t tail hT h hend
  have hrun : ∀ k ≥ 1, parsePostfixLoop G k n p = .ok n (p.moved 0 p.arena) := by
    intro k hk
    obtain ⟨k, rfl⟩ : ∃ i, k = i + 1 := ⟨k - 1, by omega⟩
    exact parsePostfixLoop_stop G k n (by rw [Ahead.currentToken h]; exact hend)
  exact ⟨n, _, ⟨_, .noSuffix, rfl⟩, 1, hrun⟩

/-- The loop goes on behind a postfix operator, with the operator's node. -/
theorem outcome_rest {e rest : Phrase T .suffixes} (hrest : rest.Read G) {n w c : ℕ} {a : Arena}
    {p : Parser} {t : Token} {tail : List Token} (hT : p.typedefNames = T) (hend : EndsPostfix t)
    (hahead : Ahead (p.moved c a) (rest.tokens ++ t :: tail))
    (hlen : e.tokens.length = c + rest.tokens.length)
    (hbuild : ∀ r a', BuildsSuffixes rest w a r a' → BuildsSuffixes e n p.arena r a') :
    Outcome Never (fun k => parsePostfixLoop G k w) (p.moved c a) (rest.unbroken true) fun r q =>
      ∃ a', BuildsSuffixes e n p.arena r a' ∧ q = p.moved e.tokens.length a' := by
  refine (hrest w (p.moved c a) t tail hT hahead hend).mono (fun _ h => h) ?_
  rintro r q ⟨a', hb, rfl⟩
  exact ⟨a', hbuild r a' hb, by rw [Parser.moved_moved, hlen]⟩

theorem read_index {left : Mark "["} {e : Phrase T .expression} {right : Mark "]"}
    {rest : Phrase T .suffixes} (he : e.Read G) (hrest : rest.Read G) :
    (Phrase.index left e right rest).Read G := by
  intro n p t tail hT h hend
  simp only [Phrase.tokens, List.cons_append, List.append_assoc] at h
  refine Outcome.succ (Outcome.congr (fun k => parsePostfixLoop_index G k n h left.2) ?_)
  refine outcome_enclosed (p := p.moved 1 p.arena) he right (by simp) hT (h.next _)
    fun m a hb hahead => ?_
  rw [Parser.moved_moved] at hahead ⊢
  refine Outcome.step (allocNode_eq _ _ _ _ _ _) ?_
  refine outcome_rest hrest hT hend hahead ?_ fun r a' hb' => .index hb rfl hb'
  simp only [Phrase.tokens, List.length_cons, List.length_append]
  omega

theorem read_member {mark name : Token} {rest e : Phrase T .suffixes} (hrest : rest.Read G)
    (htokens : e.tokens = mark :: name :: rest.tokens)
    (hunbroken : e.unbroken true = rest.unbroken true)
    {data : ℕ → ℕ}
    (heq : ∀ k n p tail, Ahead p (mark :: name :: tail) → parsePostfixLoop G (k + 1) n p =
      (storeString name.text >>= fun member => allocNode 69 (data member) 0 n 0 >>= fun node =>
        parsePostfixLoop G k node) (p.moved 2 p.arena))
    (hbuild : ∀ n a r a', BuildsSuffixes rest
      ((a.intern name.text).2.put ⟨69, true, 0, n, 0, data (a.intern name.text).1⟩).1
      ((a.intern name.text).2.put ⟨69, true, 0, n, 0, data (a.intern name.text).1⟩).2 r a' →
      BuildsSuffixes e n a r a') : e.Read G := by
  intro n p t tail hT h hend
  rw [htokens] at h
  rw [hunbroken]
  refine Outcome.succ (Outcome.congr (fun k => heq k n p _ h) ?_)
  refine Outcome.step (storeString_eq _ _) (Outcome.step (allocNode_eq _ _ _ _ _ _) ?_)
  refine outcome_rest hrest hT hend ((h.next p.arena).next _) ?_ fun r a' hb => hbuild n _ r a' hb
  rw [htokens, List.length_cons, List.length_cons]
  omega

theorem read_step {mark : Token} {rest e : Phrase T .suffixes} (hrest : rest.Read G)
    (htokens : e.tokens = mark :: rest.tokens) (hunbroken : e.unbroken true = rest.unbroken true)
    {code : ℕ}
    (heq : ∀ k n p tail, Ahead p (mark :: tail) → parsePostfixLoop G (k + 1) n p =
      (allocNode 65 code 0 n 0 >>= fun node => parsePostfixLoop G k node) (p.moved 1 p.arena))
    (hbuild : ∀ n a r a', BuildsSuffixes rest (a.put ⟨65, true, 0, n, 0, code⟩).1
      (a.put ⟨65, true, 0, n, 0, code⟩).2 r a' → BuildsSuffixes e n a r a') : e.Read G := by
  intro n p t tail hT h hend
  rw [htokens] at h
  rw [hunbroken]
  refine Outcome.succ (Outcome.congr (fun k => heq k n p _ h) ?_)
  refine Outcome.step (allocNode_eq _ _ _ _ _ _) ?_
  refine outcome_rest hrest hT hend (h.next _) ?_ fun r a' hb => hbuild n _ r a' hb
  rw [htokens, List.length_cons]
  omega

theorem read_dot {mark : Mark "."} {name : MemberName} {rest : Phrase T .suffixes}
    (hrest : rest.Read G) : (Phrase.dot mark name rest).Read G :=
  read_member hrest rfl rfl (fun k n _ _ h => parsePostfixLoop_dot G k n name h mark.2)
    fun _ _ _ _ hb => .dot rfl rfl hb

theorem read_arrow {mark : Mark "->"} {name : MemberName} {rest : Phrase T .suffixes}
    (hrest : rest.Read G) : (Phrase.arrow mark name rest).Read G :=
  read_member hrest rfl rfl (fun k n _ _ h => parsePostfixLoop_arrow G k n name h mark.2)
    fun _ _ _ _ hb => .arrow rfl rfl hb

theorem read_increment {mark : Mark "++"} {rest : Phrase T .suffixes} (hrest : rest.Read G) :
    (Phrase.increment mark rest).Read G :=
  read_step hrest rfl rfl (fun k n _ _ h => parsePostfixLoop_increment G k n h mark.2)
    fun _ _ _ _ hb => .increment rfl hb

theorem read_decrement {mark : Mark "--"} {rest : Phrase T .suffixes} (hrest : rest.Read G) :
    (Phrase.decrement mark rest).Read G :=
  read_step hrest rfl rfl (fun k n _ _ h => parsePostfixLoop_decrement G k n h mark.2)
    fun _ _ _ _ hb => .decrement rfl hb

/-- Behind the ")" of a call. -/
theorem outcome_call {e rest : Phrase T .suffixes} {mark : Mark ")"} (hrest : rest.Read G)
    {n args c : ℕ} {a : Arena} {p : Parser} {t : Token} {tail : List Token}
    (hT : p.typedefNames = T) (hend : EndsPostfix t)
    (hahead : Ahead (p.moved c a) (mark.1 :: (rest.tokens ++ t :: tail)))
    (hlen : e.tokens.length = c + 1 + rest.tokens.length)
    (hbuild : ∀ w a₁ r a', (a.attach n args).put ⟨67, true, 0, n, 0, 0⟩ = (w, a₁) →
      BuildsSuffixes rest w a₁ r a' → BuildsSuffixes e n p.arena r a') :
    Outcome Never (fun k => expect ")" >>= fun _ => (do
      if args ≠ 0 then setNextSibling n args
      let node ← allocNode 67 0 0 n 0
      parsePostfixLoop G k node : ParserM ℕ)) (p.moved c a) (rest.unbroken true) fun r q =>
        ∃ a', BuildsSuffixes e n p.arena r a' ∧ q = p.moved e.tokens.length a' := by
  refine Outcome.step (expect_ahead hahead mark.2) ?_
  refine Outcome.congr (fun k => attachArguments_eq G k n args _) ?_
  refine Outcome.step (allocNode_eq _ _ _ _ _ _) ?_
  have hnext : ∀ b, Ahead (p.moved (c + 1) b) (rest.tokens ++ t :: tail) := fun b => by
    rw [← Parser.moved_moved p c 1 a b]
    exact hahead.next b
  exact outcome_rest hrest hT hend (hnext _) hlen fun r a' hb => hbuild _ _ r a' rfl hb

theorem read_callEmpty {left : Mark "("} {right : Mark ")"} {rest : Phrase T .suffixes}
    (hrest : rest.Read G) : (Phrase.callEmpty left right rest).Read G := by
  intro n p t tail hT h hend
  simp only [Phrase.tokens, List.cons_append] at h
  have hright := h.next p.arena
  have hargs : Outcome Never (parseArgumentExpressionList G) (p.moved 1 p.arena) true
      fun r q => r = 0 ∧ q = p.moved 1 p.arena := by
    refine ⟨0, _, ⟨rfl, rfl⟩, 1, fun k hk => ?_⟩
    obtain ⟨k, rfl⟩ : ∃ i, k = i + 1 := ⟨k - 1, by omega⟩
    rw [parseArgumentExpressionList, get_bind, hright.currentToken,
      if_neg (not_not.2 (text_of_isPunct right.2))]
    rfl
  refine Outcome.succ (Outcome.congr (fun k => parsePostfixLoop_call G k n h left.2) ?_)
  refine hargs.bind (fun _ _ _ h => h.elim) ?_
  rintro r q ⟨rfl, rfl⟩
  refine outcome_call hrest hT hend hright ?_ fun w a₁ r a' hput hb => .callEmpty hput hb
  simp only [Phrase.tokens, List.length_cons]
  omega

theorem read_call {left : Mark "("} {args : Phrase T .arguments} {right : Mark ")"}
    {rest : Phrase T .suffixes} (hargs : args.Read G) (hrest : rest.Read G) :
    (Phrase.call left args right rest).Read G := by
  intro n p t tail hT h hend
  simp only [Phrase.tokens, List.cons_append, List.append_assoc] at h
  have hin := h.next p.arena
  obtain ⟨u, more, hu, hopens⟩ := args.opens rfl
  have hlist : Outcome BeforePostfix (parseArgumentExpressionList G) (p.moved 1 p.arena)
      (args.unbroken true) fun r q => ∃ a, BuildsArguments args (0, 0) p.arena r a ∧
        q = (p.moved 1 p.arena).moved args.tokens.length a := by
    refine Outcome.succ (Outcome.congr (fun k => ?_)
      (hargs (0, 0) (p.moved 1 p.arena) right.1 _ hT hin right.2))
    rw [hu] at hin
    rw [parseArgumentExpressionList, get_bind, Ahead.currentToken hin, if_pos hopens.notClose]
  refine Outcome.succ (Outcome.congr (fun k => parsePostfixLoop_call G k n h left.2) ?_)
  refine hlist.bind (fun _ _ _ hq => hq.gives_expect (by decide)) ?_
  rintro r q ⟨a, hb, rfl⟩
  have hright := hin.moved rfl a
  rw [Parser.moved_moved] at hright ⊢
  refine outcome_call hrest hT hend hright ?_ fun w a₁ r a' hput hb' => .call hb hput hb'
  simp only [Phrase.tokens, List.length_cons, List.length_append]
  omega

end Suffixes

section Arguments

variable {T : String → Bool} {G : Productions}

theorem endsAssignment_comma {t : Token} (h : Parser.isPunct t "," = true) : EndsAssignment t := by
  refine ⟨⟨⟨fun s hs => isPunct_ne h ?_, ?_⟩, isPunct_ne h (by decide)⟩, ?_⟩
  · rintro rfl
    revert hs
    decide
  · unfold binaryOperator
    rw [text_of_isPunct h, if_neg (not_not.2 (kind_of_isPunct h))]
    rfl
  · unfold assignmentOperator
    rw [text_of_isPunct h, if_neg (not_not.2 (kind_of_isPunct h))]
    rfl

/-- What the loop does with an argument. -/
def argumentRest (G : Productions) (chain : ℕ × ℕ) (k arg : ℕ) : ParserM ℕ := do
  let wrapper ← allocNode 74 0 0 arg 0
  let chain ← linkSiblings chain wrapper
  if (← get).currentToken.text = ")" then return chain.1
  else if ← skipPunctuator "," then parseArgumentLoop G k chain
  else return chain.1

theorem parseArgumentLoop_eq (chain : ℕ × ℕ) (k : ℕ) :
    parseArgumentLoop G (k + 1) chain =
      (parseAssignmentExpression G k >>= fun arg => argumentRest G chain k arg) := by
  rw [parseArgumentLoop]
  rfl

theorem argumentRest_eq (chain : ℕ × ℕ) (k arg : ℕ) (p : Parser) :
    argumentRest G chain k arg p =
      (if p.currentToken.text = ")" then pure (p.arena.wrap chain arg).1.1
      else skipPunctuator "," >>= fun b => if b then parseArgumentLoop G k (p.arena.wrap chain arg).1
        else pure (p.arena.wrap chain arg).1.1 : ParserM ℕ)
        { p with arena := (p.arena.wrap chain arg).2 } := by
  unfold argumentRest
  rw [bind_ok (allocNode_eq _ _ _ _ _ _), bind_ok (linkSiblings_eq _ _ _), get_bind]
  rfl

theorem gives_argumentRest {chain : ℕ × ℕ} {k arg : ℕ} {p : Parser} (h : BeforePostfix p) :
    Gives (argumentRest G chain k arg) p fun _ => BeforePostfix := by
  intro r q hrun
  have hskip : skipPunctuator "," { p with arena := (p.arena.wrap chain arg).2 } = _ :=
    skipPunctuator_of_not (h.isPunct (by decide))
  rw [argumentRest_eq, if_neg (h.text (by decide)), bind_ok hskip] at hrun
  cases hrun
  exact h

theorem read_lastArgument {e : Phrase T .assignment} (he : e.Read G) :
    (Phrase.lastArgument e).Read G := by
  intro chain p t tail hT h hclose
  have hstops : EndsAssignment t := endsAssignment_of_stops (stops_of_isPunct hclose (by simp))
  refine Outcome.succ ?_
  simp only [parseArgumentLoop_eq]
  refine (he p t tail hT h hstops).bind_sure (fun _ _ _ hq => gives_argumentRest hq) ?_
  rintro n q ⟨a, hb, rfl⟩
  have hcur : (p.moved e.tokens.length a).currentToken = t := (h.moved rfl a).currentToken
  refine Outcome.congr (fun k => ?_) (Outcome.pure (p := p.moved e.tokens.length
    (a.wrap chain n).2) (r := (a.wrap chain n).1.1) ⟨_, .lastArgument hb rfl, rfl⟩)
  rw [argumentRest_eq, hcur, if_pos (text_of_isPunct hclose)]
  rfl

theorem read_argument {e : Phrase T .assignment} {mark : Mark ","} {rest : Phrase T .arguments}
    (he : e.Read G) (hrest : rest.Read G) : (Phrase.argument e mark rest).Read G := by
  intro chain p t tail hT h hclose
  simp only [Phrase.tokens, List.append_assoc, List.cons_append] at h
  refine Outcome.succ ?_
  simp only [parseArgumentLoop_eq]
  refine (he p mark.1 _ hT h (endsAssignment_comma mark.2)).bind
    (fun _ _ _ hq => gives_argumentRest hq) ?_
  rintro n q ⟨a, hb, rfl⟩
  have hmark := h.moved rfl (a.wrap chain n).2
  have hnot : mark.1.text ≠ ")" := by
    rw [text_of_isPunct mark.2]
    decide
  have hnext := hmark.next (a.wrap chain n).2
  rw [Parser.moved_moved] at hnext
  refine Outcome.congr (f := fun k => parseArgumentLoop G k (a.wrap chain n).1)
    (q := p.moved (e.tokens.length + 1) (a.wrap chain n).2) (fun k => ?_) ?_
  · rw [argumentRest_eq, (h.moved rfl a).currentToken, if_neg hnot]
    exact bind_ok (skipPunctuator_ahead hmark mark.2)
  · refine (hrest _ (p.moved (e.tokens.length + 1) (a.wrap chain n).2) t tail hT hnext
      hclose).mono (fun _ h => h) ?_
    rintro r q ⟨a', hb', rfl⟩
    refine ⟨a', .argument hb rfl rfl hb', ?_⟩
    rw [Parser.moved_moved]
    simp only [Phrase.tokens, List.length_append, List.length_cons]
    congr 1
    omega

end Arguments

section Unary

variable {T : String → Bool} {G : Productions}

theorem Phrase.suffix_head {e : Phrase T .suffixes} (h : e.isNoSuffix = false) :
    ∃ s ∈ postfixTexts, ∃ t rest, e.tokens = t :: rest ∧ Parser.isPunct t s = true := by
  cases e with
  | noSuffix => cases h
  | index left => exact ⟨"[", by decide, _, _, rfl, left.2⟩
  | callEmpty left => exact ⟨"(", by decide, _, _, rfl, left.2⟩
  | call left => exact ⟨"(", by decide, _, _, rfl, left.2⟩
  | dot mark => exact ⟨".", by decide, _, _, rfl, mark.2⟩
  | arrow mark => exact ⟨"->", by decide, _, _, rfl, mark.2⟩
  | increment mark => exact ⟨"++", by decide, _, _, rfl, mark.2⟩
  | decrement mark => exact ⟨"--", by decide, _, _, rfl, mark.2⟩

theorem Phrase.primary_head (e : Phrase T .primary) :
    ∃ t rest, e.tokens = t :: rest ∧ t.kind ≠ .keyword ∧ prefixOperator t = none ∧
      Parser.isPunct t "(" = e.isParens := by
  cases e with
  | atom x =>
    refine ⟨_, _, rfl, ?_, if_pos x.not_punctuator, isPunct_of_kind x.not_punctuator⟩
    rcases x.kind with hk | hk <;> rw [hk] <;> decide
  | parens left e right =>
    refine ⟨_, _, rfl, by rw [kind_of_isPunct left.2]; decide, ?_, left.2⟩
    rw [prefixOperator, text_of_isPunct left.2, if_neg (not_not.2 (kind_of_isPunct left.2))]
    rfl

/-- An operand with its postfix operators, read behind a prefix `++`, `--`, `+` or `-`. -/
theorem outcome_suffixed {e : Phrase T .primary} {suffixes : Phrase T .suffixes} (he : e.Read G)
    (hs : suffixes.Read G) {p : Parser} {t : Token} {tail : List Token} (hT : p.typedefNames = T)
    (h : Ahead p ((Phrase.suffixed e suffixes).tokens ++ t :: tail)) (hend : EndsPostfix t) :
    Outcome BeforePostfix (parseUnaryExpression G) p (e.unbroken true && suffixes.unbroken true)
      (After (.suffixed e suffixes) p) := by
  obtain ⟨u, more, hu, hk, hprefix, -⟩ := e.primary_head
  have hhead := h
  simp only [Phrase.tokens, List.append_assoc] at h
  simp only [Phrase.tokens, hu, List.cons_append] at hhead
  refine Outcome.succ (Outcome.succ (Outcome.congr
    (fun k => parseUnaryExpression_postfix G k hhead hk hprefix) ?_))
  have hloop : Outcome Never (fun k => parsePrimaryExpression G k >>= fun n =>
      parsePostfixLoop G k n) p (e.unbroken true && suffixes.unbroken true)
      (After (.suffixed e suffixes) p) := by
    -- the primary expression ends in front of whatever follows it
    obtain ⟨v, after, hv⟩ := List.exists_cons_of_ne_nil
      (List.append_ne_nil_of_right_ne_nil suffixes.tokens (List.cons_ne_nil t tail))
    rw [hv] at h
    refine (he.1 p v after hT h trivial).bind (fun _ _ _ h => h.elim) ?_
    rintro n q ⟨a, hb, rfl⟩
    have hrest := h.moved rfl a
    rw [← hv] at hrest
    refine (hs n (p.moved e.tokens.length a) t tail hT hrest hend).mono (fun _ h => h) ?_
    rintro r q ⟨a', hb', rfl⟩
    refine ⟨a', .suffixed hb hb', ?_⟩
    rw [Parser.moved_moved, Phrase.tokens, List.length_append]
  exact hloop.mono (fun _ h => h.elim) fun _ _ h => h

/-- Behind the ")" at which `parse_cast_expression` ends. -/
theorem afterParens {e : Phrase T .primary} {suffixes : Phrase T .suffixes} {p : Parser} {n : ℕ}
    {a : Arena} (hb : Builds e p.arena n a) {t : Token} {tail : List Token}
    (h : Ahead (p.moved e.tokens.length a) (suffixes.tokens ++ t :: tail)) :
    if suffixes.isNoSuffix then After (.suffixed e suffixes) p n (p.moved e.tokens.length a)
    else BeforePostfix (p.moved e.tokens.length a) := by
  cases hsuffix : suffixes.isNoSuffix with
  | true =>
    cases suffixes with
    | noSuffix =>
      refine ⟨a, .suffixed hb .noSuffix, ?_⟩
      simp only [Phrase.tokens, List.append_nil]
    | _ => cases hsuffix
  | false =>
    obtain ⟨s, hs, v, rest, hv, hpunct⟩ := Phrase.suffix_head hsuffix
    rw [hv] at h
    exact ⟨s, hs, by rw [Ahead.currentToken h]; exact hpunct⟩

theorem read_suffixed {e : Phrase T .primary} {suffixes : Phrase T .suffixes} (he : e.Read G)
    (hs : suffixes.Read G) : (Phrase.suffixed e suffixes).Read G := by
  intro cast p t tail hT h hend
  have hunary := outcome_suffixed he hs hT h hend
  obtain ⟨u, more, hu, -, -, hparens⟩ := e.primary_head
  have hhead : Ahead p (u :: (more ++ suffixes.tokens ++ t :: tail)) := by
    simpa only [Phrase.tokens, hu, List.cons_append] using h
  cases cast with
  | false =>
    show Outcome _ (parseUnaryExpression G) _ _ _
    simpa [Phrase.unbroken] using hunary
  | true =>
    show Outcome _ (parseCastExpression G) _ _ _
    cases hcast : e.isParens with
    | false =>
      rw [hcast] at hparens
      refine Outcome.succ (Outcome.congr (fun k => parseCastExpression_unary G k hhead hparens) ?_)
      simpa [Phrase.unbroken, hcast] using hunary
    | true =>
      have hunbroken : (Phrase.suffixed e suffixes).unbroken true =
          (e.unbroken true && suffixes.isNoSuffix) := by
        cases suffixes <;> simp [Phrase.unbroken, hcast, Phrase.isNoSuffix]
      obtain ⟨v, after, hv⟩ := List.exists_cons_of_ne_nil
        (List.append_ne_nil_of_right_ne_nil suffixes.tokens (List.cons_ne_nil t tail))
      rw [Phrase.tokens, List.append_assoc, hv] at h
      rw [hunbroken]
      refine (he.2 hcast p v after hT h trivial).narrow ?_
      rintro n q ⟨a, hb, rfl⟩
      have hbehind := h.moved rfl a
      rw [← hv] at hbehind
      exact afterParens hb hbehind

theorem read_prefixed {o : PrefixOperator} {e : Phrase T .unary} (he : e.Read G) :
    (Phrase.prefixed o e).Read G := by
  intro cast p t tail hT h hend
  have hunary : Outcome BeforePostfix (parseUnaryExpression G) p (e.unbroken o.castOperand)
      (After (.prefixed o e) p) := by
    refine Outcome.succ (Outcome.congr (fun k => parseUnaryExpression_prefix G k o h) ?_)
    refine (he o.castOperand (p.moved 1 p.arena) t tail hT (h.next _) hend).bind_sure
      (fun _ _ _ hq => gives_allocNode hq) ?_
    rintro n q ⟨a, hb, rfl⟩
    refine ⟨_, _, ⟨_, .prefixed hb, ?_⟩, 0, fun _ _ => allocNode_eq _ _ _ _ _ _⟩
    rw [Parser.moved_moved, Phrase.tokens, List.length_cons, Nat.add_comm]
    rfl
  cases cast with
  | false => exact hunary
  | true =>
    have hnot : Parser.isPunct o.token "(" = false := by
      simp [Parser.isPunct, o.text_ne (s := "(") (by decide)]
    exact Outcome.succ (Outcome.congr (fun k => parseCastExpression_unary G k h hnot) hunary)

end Unary

end OpticC.Expressions
