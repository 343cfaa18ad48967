import OpticC.Frontend.OperandReading
import Mathlib.Data.List.TakeWhile

/-! Which expressions `parse_expression` reads up to their ";": those without a postfix operator
behind a parenthesised operand that `parse_cast_expression` reads. -/

namespace OpticC.Expressions

open StatementExpr (Gives)

section Chains

variable {T : String → Bool} {G : Productions}

abbrev Operations (T : String → Bool) : Type := List (BinaryOperator × Phrase T .unary)

def spell (rest : Operations T) : List Token := rest.flatMap fun q => q.1.token :: q.2.tokens

def allUnbroken (rest : Operations T) : Bool := rest.all fun q => q.2.unbroken true

/-- The operators that `parse_binary_op` takes with this precedence. -/
def above (prec : ℕ) (rest : Operations T) : Operations T :=
  rest.takeWhile fun q => prec < q.1.prec

def below (prec : ℕ) (rest : Operations T) : Operations T :=
  rest.dropWhile fun q => prec < q.1.prec

theorem above_append_below (prec : ℕ) (rest : Operations T) :
    above prec rest ++ below prec rest = rest := List.takeWhile_append_dropWhile

/-- The operators above the lower precedence are those above the higher one and then more. -/
theorem above_split {low high : ℕ} (hle : low ≤ high) (rest : Operations T) :
    above low rest = above high rest ++ above low (below high rest) := by
  induction rest with
  | nil => rfl
  | cons q rest ih =>
    unfold above below at *
    by_cases hq : high < q.1.prec
    · have hlow : low < q.1.prec := by omega
      simp only [List.takeWhile_cons, List.dropWhile_cons, hq, hlow, decide_true, if_true,
        List.cons_append]
      rw [ih]
    · simp only [List.takeWhile_cons, List.dropWhile_cons, hq, decide_false, Bool.false_eq_true,
        if_false, List.nil_append]

theorem above_zero (rest : Operations T) : above 0 rest = rest := by
  unfold above
  rw [List.takeWhile_eq_self_iff]
  intro q _
  exact decide_eq_true q.1.binary

theorem Phrase.tokens_operations {l : Level} (e : Phrase T l) (hl : l = .operations) :
    e.tokens = spell e.operationList ∧ e.unbroken true = allUnbroken e.operationList := by
  induction e with
  | noOperation => exact ⟨rfl, rfl⟩
  | operation o e rest _ ih =>
    obtain ⟨htokens, hunbroken⟩ := ih rfl
    constructor
    · simp only [Phrase.tokens, Phrase.operationList, spell, List.flatMap_cons, List.cons_append]
      rw [htokens, spell]
    · simp only [Phrase.unbroken, Phrase.operationList, allUnbroken, List.all_cons]
      rw [hunbroken, allUnbroken]
  | _ => cases hl

theorem spell_append (a b : Operations T) : spell (a ++ b) = spell a ++ spell b := List.flatMap_append

theorem parseBinaryOpLoop_stop {k prec n : ℕ} {p : Parser}
    (h : (binaryOperator p.currentToken).1 ≤ prec) :
    parseBinaryOpLoop G (k + 1) prec n p = .ok n p := by
  rw [parseBinaryOpLoop, get_bind]
  exact congrFun (if_pos (.inr h)) p

theorem parseBinaryOpLoop_operator {k prec n : ℕ} {p : Parser} {o : BinaryOperator}
    {tail : List Token} (h : Ahead p (o.token :: tail)) (hprec : prec < o.prec) :
    parseBinaryOpLoop G (k + 1) prec n p =
      (parseBinaryOp G k (o.prec - 1) >>= fun right => allocNode 0 0 0 n right >>= fun operands =>
        allocNode 64 o.code 0 operands 0 >>= fun node => parseBinaryOpLoop G k prec node)
        (p.moved 1 p.arena) := by
  have hnot : ¬((binaryOperator o.token).1 = 0 ∨ (binaryOperator o.token).1 ≤ prec) := by
    show ¬(o.prec = 0 ∨ o.prec ≤ prec)
    omega
  rw [parseBinaryOpLoop, get_bind, h.currentToken]
  simp only [if_neg hnot]
  exact bind_ok (advance_ahead h)

theorem gives_parseBinaryOpLoop {k prec n : ℕ} {p : Parser} (h : BeforePostfix p) :
    Gives (parseBinaryOpLoop G k prec n) p fun _ => BeforePostfix := by
  intro r q hrun
  cases k with
  | zero =>
    rw [parseBinaryOpLoop] at hrun
    cases hrun
  | succ k =>
    rw [parseBinaryOpLoop_stop (by rw [h.binaryOperator]; exact Nat.zero_le _)] at hrun
    cases hrun
    exact h

/-- What is left behind the operands and operators of a chain. -/
def AfterChain (first : Phrase T .unary) (rest : Operations T) (p : Parser) (n : ℕ) (p' : Parser) :
    Prop :=
  ∃ a, BuildsChain first rest p.arena n a ∧ p' = p.moved (first.tokens ++ spell rest).length a

/-- The loop of `parse_binary_op` behind the operands `done`. -/
def LoopReads (G : Productions) (rest : Operations T) : Prop :=
  ∀ prec first done a₀ n p t tail, p.typedefNames = T → Ahead p (spell rest ++ t :: tail) →
    EndsChain t → BuildsChain first done a₀ n p.arena →
    Outcome BeforePostfix (fun k => parseBinaryOpLoop G k prec n) p (allUnbroken (above prec rest))
      fun r q => ∃ a, BuildsChain first (done ++ above prec rest) a₀ r a ∧
        q = p.moved (spell (above prec rest)).length a

theorem outcome_binaryOp {e : Phrase T .unary} {rest : Operations T} (he : e.ReadAsUnary G)
    (hloop : LoopReads G rest) (prec : ℕ) {p : Parser} {t : Token} {tail : List Token}
    (hT : p.typedefNames = T) (h : Ahead p (e.tokens ++ (spell rest ++ t :: tail)))
    (hend : EndsChain t) :
    Outcome BeforePostfix (fun k => parseBinaryOp G k prec) p
      (e.unbroken true && allUnbroken (above prec rest)) (AfterChain e (above prec rest) p) := by
  obtain ⟨u, after, hu, hends⟩ : ∃ u after, spell rest ++ t :: tail = u :: after ∧
      EndsPostfix u := by
    cases rest with
    | nil => exact ⟨t, tail, rfl, hend.1⟩
    | cons q rest => exact ⟨_, _, rfl, q.1.endsPostfix⟩
  have hhead := h
  rw [hu] at hhead
  refine Outcome.succ ?_
  simp only [parseBinaryOp]
  refine (he true p u after hT hhead hends).bind (fun _ _ _ hq => gives_parseBinaryOpLoop hq) ?_
  rintro n q ⟨a, hb, rfl⟩
  have hrest := h.moved rfl a
  refine (hloop prec e [] p.arena n (p.moved e.tokens.length a) t tail hT hrest hend (.leaf hb)).mono
    (fun _ h => h) ?_
  rintro r q ⟨a', hb', rfl⟩
  exact ⟨a', hb', by rw [Parser.moved_moved, List.length_append]⟩

/-- The loop ends in front of a token that is no operator above the precedence. -/
theorem outcome_loopStop {rest : Operations T} {prec n : ℕ} {first : Phrase T .unary}
    {done : Operations T} {a₀ : Arena} {p : Parser} (habove : above prec rest = [])
    (hcur : (binaryOperator p.currentToken).1 ≤ prec) (hbuild : BuildsChain first done a₀ n p.arena) :
    Outcome BeforePostfix (fun k => parseBinaryOpLoop G k prec n) p (allUnbroken (above prec rest))
      fun r q => ∃ a, BuildsChain first (done ++ above prec rest) a₀ r a ∧
        q = p.moved (spell (above prec rest)).length a := by
  have hstop : ∀ k ≥ 1, parseBinaryOpLoop G k prec n p = .ok n (p.moved 0 p.arena) := by
    intro k hk
    obtain ⟨k, rfl⟩ : ∃ i, k = i + 1 := ⟨k - 1, by omega⟩
    exact parseBinaryOpLoop_stop hcur
  rw [habove, List.append_nil]
  exact ⟨n, _, ⟨_, hbuild, rfl⟩, 1, hstop⟩

/-- The right operand takes what is above the precedence below the operator's, the loop the rest. -/
theorem above_operator {prec : ℕ} {o : BinaryOperator} (hlt : prec < o.prec) (e : Phrase T .unary)
    (rest : Operations T) : above prec ((o, e) :: rest) =
      (o, e) :: above (o.prec - 1) rest ++ above prec (below (o.prec - 1) rest) := by
  have hle : prec ≤ o.prec - 1 := by omega
  rw [List.cons_append, ← above_split hle]
  simp [above, hlt]

theorem gives_operatorRest {code k prec n right : ℕ} {p : Parser} (h : BeforePostfix p) :
    Gives (allocNode 0 0 0 n right >>= fun operands => allocNode 64 code 0 operands 0 >>=
      fun node => parseBinaryOpLoop G k prec node) p fun _ => BeforePostfix := by
  refine gives_step (allocNode_eq _ _ _ _ _ _) (gives_step (allocNode_eq _ _ _ _ _ _) ?_)
  exact gives_parseBinaryOpLoop h

theorem loopReads_operator {o : BinaryOperator} {e : Phrase T .unary} {rest : Operations T}
    (he : e.ReadAsUnary G)
    (ih : ∀ r : Operations T, r.length ≤ rest.length → (∀ q ∈ r, q ∈ rest) → LoopReads G r)
    {prec n : ℕ} (hlt : prec < o.prec) {first : Phrase T .unary} {done : Operations T} {a₀ : Arena}
    {p : Parser} {t : Token} {tail : List Token} (hT : p.typedefNames = T)
    (h : Ahead p (o.token :: (e.tokens ++ (spell rest ++ t :: tail)))) (hend : EndsChain t)
    (hbuild : BuildsChain first done a₀ n p.arena) :
    Outcome BeforePostfix (fun k => parseBinaryOpLoop G k prec n) p
      (allUnbroken (above prec ((o, e) :: rest))) fun r q =>
        ∃ a, BuildsChain first (done ++ above prec ((o, e) :: rest)) a₀ r a ∧
          q = p.moved (spell (above prec ((o, e) :: rest))).length a := by
  have hsub := List.dropWhile_sublist (l := rest) fun q => decide (o.prec - 1 < q.1.prec)
  have hright := outcome_binaryOp (p := p.moved 1 p.arena) he (ih rest (Nat.le_refl _) fun _ h => h)
    (o.prec - 1) hT (h.next _) hend
  have hunbroken : allUnbroken (above prec ((o, e) :: rest)) =
      ((e.unbroken true && allUnbroken (above (o.prec - 1) rest)) &&
        allUnbroken (above prec (below (o.prec - 1) rest))) := by
    rw [above_operator hlt]
    simp only [allUnbroken, List.cons_append, List.all_cons, List.all_append, Bool.and_assoc]
  rw [hunbroken]
  refine Outcome.succ (Outcome.congr (fun k => parseBinaryOpLoop_operator h hlt) ?_)
  refine hright.bind (fun k r q hq => gives_operatorRest hq) ?_
  rintro m q ⟨a, hb, rfl⟩
  have hleft : ∀ b, Ahead ((p.moved 1 p.arena).moved
      (e.tokens ++ spell (above (o.prec - 1) rest)).length b)
      (spell (below (o.prec - 1) rest) ++ t :: tail) := by
    intro b
    refine Ahead.moved ?_ rfl b
    rw [List.append_assoc, ← List.append_assoc (spell _) (spell _), ← spell_append,
      above_append_below]
    exact h.next _
  refine Outcome.step (allocNode_eq _ _ _ _ _ _) (Outcome.step (allocNode_eq _ _ _ _ _ _) ?_)
  refine (ih (below (o.prec - 1) rest) hsub.length_le (fun _ h => hsub.mem h) prec first
    (done ++ (o, e) :: above (o.prec - 1) rest) a₀ _ ((p.moved 1 p.arena).moved _ _) t tail
    hT (hleft _) hend (.node hbuild hb rfl)).mono (fun _ h => h) ?_
  rintro r q ⟨a', hb', rfl⟩
  refine ⟨a', by rwa [above_operator hlt, ← List.append_assoc], ?_⟩
  rw [Parser.moved_moved, Parser.moved_moved, above_operator hlt, List.cons_append]
  simp only [spell, List.flatMap_cons, List.flatMap_append, List.length_cons, List.length_append]
  congr 1
  omega

theorem loopReads (rest : Operations T) (hrest : ∀ q ∈ rest, q.2.ReadAsUnary G) :
    LoopReads G rest := by
  induction hlen : rest.length using Nat.strongRecOn generalizing rest with
  | ind len ih =>
    intro prec first done a₀ n p t tail hT h hend hbuild
    cases rest with
    | nil =>
      refine outcome_loopStop rfl ?_ hbuild
      rw [Ahead.currentToken h, hend.2]
      exact Nat.zero_le _
    | cons q rest =>
      obtain ⟨o, e⟩ := q
      have hhead : Ahead p (o.token :: (e.tokens ++ (spell rest ++ t :: tail))) := by
        rw [← List.append_assoc]
        exact h
      by_cases hle : o.prec ≤ prec
      · have habove : above prec ((o, e) :: rest) = [] := by simp [above, Nat.not_lt.2 hle]
        exact outcome_loopStop habove (by rw [hhead.currentToken]; exact hle) hbuild
      · refine loopReads_operator (hrest (o, e) (by simp)) (fun r hr hmem => ?_)
          (Nat.lt_of_not_le hle) hT hhead hend hbuild
        simp only [List.length_cons] at hlen
        exact ih r.length (by omega) r (fun q hq => hrest q (by simp [hmem q hq])) rfl

/-- A whole chain, as `parse_conditional_expression` asks for it. -/
theorem outcome_chain {e : Phrase T .unary} {rest : Phrase T .operations} (he : e.Read G)
    (hrest : rest.Read G) {p : Parser} {t : Token} {tail : List Token} (hT : p.typedefNames = T)
    (h : Ahead p (e.tokens ++ rest.tokens ++ t :: tail)) (hend : EndsChain t) :
    Outcome BeforePostfix (fun k => parseBinaryOp G k 0) p (e.unbroken true && rest.unbroken true)
      fun n q => ∃ a, BuildsChain e rest.operationList p.arena n a ∧
        q = p.moved (e.tokens ++ rest.tokens).length a := by
  obtain ⟨htokens, hunbroken⟩ := rest.tokens_operations rfl
  rw [htokens, List.append_assoc] at h
  have hread := outcome_binaryOp he (loopReads _ hrest) 0 hT h hend
  rw [above_zero] at hread
  rw [hunbroken, htokens]
  exact hread

end Chains

section Rest

variable {T : String → Bool} {G : Productions}

theorem endsChain_question {t : Token} (h : Parser.isPunct t "?" = true) : EndsChain t := by
  refine ⟨fun s hs => isPunct_ne h ?_, ?_⟩
  · rintro rfl
    revert hs
    decide
  · unfold binaryOperator
    rw [text_of_isPunct h, if_neg (not_not.2 (kind_of_isPunct h))]
    rfl

theorem gives_conditionalRest {k condition : ℕ} {p : Parser} (h : BeforePostfix p) :
    Gives (do
      if ← skipPunctuator "?" then
        let thenExpr ← parseExpression G k
        expect ":"
        let elseExpr ← parseConditionalExpression G k
        let elseNode ← allocNode 0 0 0 thenExpr elseExpr
        allocNode 66 0 0 condition elseNode
      else return condition : ParserM ℕ) p fun _ => BeforePostfix :=
  gives_step (skipPunctuator_of_not (h.isPunct (by decide))) (Gives.pure h)

theorem read_binary {e : Phrase T .unary} {rest : Phrase T .operations} (he : e.Read G)
    (hrest : rest.Read G) : (Phrase.binary e rest).Read G := by
  intro p t tail hT h hend
  refine Outcome.succ ?_
  simp only [parseConditionalExpression]
  refine (outcome_chain he hrest hT h hend.1).bind_sure (fun k r q hq => gives_conditionalRest hq) ?_
  rintro n q ⟨a, hb, rfl⟩
  refine Outcome.step (not_skipPunctuator_ahead (h.moved rfl a) hend.2) ?_
  exact Outcome.pure ⟨a, .binary hb, rfl⟩

theorem read_choice {e : Phrase T .unary} {rest : Phrase T .operations} {question : Mark "?"}
    {thenExpr : Phrase T .expression} {colon : Mark ":"} {elseExpr : Phrase T .conditional}
    (he : e.Read G) (hrest : rest.Read G) (hthen : thenExpr.Read G) (helse : elseExpr.Read G) :
    (Phrase.choice e rest question thenExpr colon elseExpr).Read G := by
  intro p t tail hT h hend
  have hchain : Ahead p (e.tokens ++ rest.tokens ++ question.1 :: (thenExpr.tokens ++ colon.1 ::
      (elseExpr.tokens ++ t :: tail))) := by
    simpa only [Phrase.tokens, List.append_assoc, List.cons_append] using h
  refine Outcome.succ ?_
  simp only [parseConditionalExpression]
  have hunbroken : (Phrase.choice e rest question thenExpr colon elseExpr).unbroken true =
      ((e.unbroken true && rest.unbroken true) &&
        (thenExpr.unbroken true && elseExpr.unbroken true)) := by
    simp only [Phrase.unbroken, Bool.and_assoc]
  rw [hunbroken]
  refine (outcome_chain he hrest hT hchain (endsChain_question question.2)).bind
    (fun k r q hq => gives_conditionalRest hq) ?_
  rintro n q ⟨a, hb, rfl⟩
  have hquestion := hchain.moved rfl a
  refine Outcome.step (skipPunctuator_ahead hquestion question.2) ?_
  have hnext := hquestion.next a
  rw [Parser.moved_moved] at hnext ⊢
  refine outcome_enclosed (p := p.moved ((e.tokens ++ rest.tokens).length + 1) a) hthen colon
    (by simp) hT hnext fun m a₁ hb₁ hcolon => ?_
  rw [Parser.moved_moved] at hcolon ⊢
  refine (helse (p.moved _ a₁) t tail hT hcolon hend).bind_sure (fun _ _ _ hq =>
    gives_step (allocNode_eq _ _ _ _ _ _) (gives_allocNode hq)) ?_
  rintro r q ⟨a₂, hb₂, rfl⟩
  refine Outcome.step (allocNode_eq _ _ _ _ _ _) ?_
  refine ⟨_, _, ⟨_, .choice hb hb₁ hb₂ rfl, ?_⟩, 0, fun _ _ => allocNode_eq _ _ _ _ _ _⟩
  rw [Parser.moved_moved]
  simp only [Phrase.tokens, List.length_append, List.length_cons, Parser.moved]
  congr 1
  omega

theorem AssignmentOperator.punctuator (o : AssignmentOperator) : o.token.kind = .punctuator := by
  by_contra hk
  have heq := o.eq
  rw [assignmentOperator, if_pos hk] at heq
  cases heq

theorem AssignmentOperator.text (o : AssignmentOperator) : o.token.text ∈
    ["=", "+=", "-=", "*=", "/=", "%=", "&=", "^=", "|=", ">>=", "<<="] := by
  have heq := o.eq
  rw [assignmentOperator, if_neg (not_not.2 o.punctuator)] at heq
  split at heq <;> simp_all

theorem AssignmentOperator.isPunct (o : AssignmentOperator) {s : String} (hs : s ∉
    ["=", "+=", "-=", "*=", "/=", "%=", "&=", "^=", "|=", ">>=", "<<="]) :
    Parser.isPunct o.token s = false := by
  have hself : Parser.isPunct o.token o.token.text = true := by
    simp [Parser.isPunct, o.punctuator]
  exact isPunct_ne hself fun heq => hs (heq ▸ o.text)

theorem AssignmentOperator.endsConditional (o : AssignmentOperator) : EndsConditional o.token := by
  refine ⟨⟨fun s hs => o.isPunct ?_, ?_⟩, o.isPunct (by decide)⟩
  · simp only [List.mem_cons, List.not_mem_nil, or_false] at hs
    rcases hs with rfl | rfl | rfl | rfl | rfl | rfl <;> decide
  · have htext := o.text
    simp only [List.mem_cons, List.not_mem_nil, or_false] at htext
    unfold binaryOperator
    rw [if_neg (not_not.2 o.punctuator)]
    rcases htext with h | h | h | h | h | h | h | h | h | h | h <;> rw [h] <;> rfl

theorem gives_assignmentRest {k left : ℕ} {p : Parser} (h : BeforePostfix p) :
    Gives (do
      match assignmentOperator (← get).currentToken with
      | some opCode =>
        advance
        let right ← parseAssignmentExpression G k
        allocNode 73 opCode 0 left right
      | none => return left : ParserM ℕ) p fun _ => BeforePostfix := by
  intro r q hrun
  rw [get_bind, h.assignmentOperator] at hrun
  cases hrun
  exact h

/-- A unary expression on its own, read by `parse_conditional_expression`. -/
theorem outcome_left {e : Phrase T .unary} (he : e.Read G) {p : Parser} {t : Token}
    {tail : List Token} (hT : p.typedefNames = T) (h : Ahead p (e.tokens ++ t :: tail))
    (hend : EndsConditional t) :
    Outcome BeforePostfix (parseConditionalExpression G) p (e.unbroken true) (After e p) := by
  have hnone : (Phrase.noOperation : Phrase T .operations).Read G := by
    rintro q ⟨⟩
  have htokens : (Phrase.binary e .noOperation).tokens = e.tokens := List.append_nil _
  have hread := read_binary he hnone p t tail hT (by rwa [htokens]) hend
  have hunbroken : (Phrase.binary e (.noOperation : Phrase T .operations)).unbroken true =
      e.unbroken true :=
    Bool.and_true _
  rw [hunbroken] at hread
  refine hread.mono (fun _ h => h) ?_
  rintro n q ⟨a, hb, rfl⟩
  rw [htokens]
  cases hb with
  | binary hchain =>
    generalize hl : (Phrase.noOperation : Phrase T .operations).operationList = l at hchain
    cases hchain with
    | leaf hleaf => exact ⟨a, hleaf, rfl⟩
    | node => simp [Phrase.operationList] at hl

theorem read_single {e : Phrase T .conditional} (he : e.Read G) : (Phrase.single e).Read G := by
  intro p t tail hT h hend
  refine Outcome.succ ?_
  simp only [parseAssignmentExpression]
  refine (he p t tail hT h hend.1).bind_sure (fun k r q hq => gives_assignmentRest hq) ?_
  rintro n q ⟨a, hb, rfl⟩
  refine Outcome.congr (fun k => ?_) (Outcome.pure (p := p.moved e.tokens.length a) (r := n)
    ⟨a, .single hb, rfl⟩)
  have hcur : (p.moved e.tokens.length a).currentToken = t := (h.moved rfl a).currentToken
  rw [get_bind, hcur, hend.2]

theorem read_assign {left : Phrase T .unary} {o : AssignmentOperator}
    {right : Phrase T .assignment} (hleft : left.Read G) (hright : right.Read G) :
    (Phrase.assign left o right).Read G := by
  intro p t tail hT h hend
  simp only [Phrase.tokens, List.append_assoc, List.cons_append] at h
  refine Outcome.succ ?_
  simp only [parseAssignmentExpression]
  refine (outcome_left hleft hT h o.endsConditional).bind
    (fun k r q hq => gives_assignmentRest hq) ?_
  rintro n q ⟨a, hb, rfl⟩
  have hop := h.moved rfl a
  have hnext := hop.next a
  rw [Parser.moved_moved] at hnext
  refine Outcome.congr (f := fun k => parseAssignmentExpression G k >>= fun r =>
    allocNode 73 o.code 0 n r) (q := p.moved (left.tokens.length + 1) a) (fun k => ?_) ?_
  · rw [get_bind, hop.currentToken, o.eq]
    exact bind_ok (advance_ahead hop)
  · refine (hright (p.moved _ a) t tail hT hnext hend).bind_sure
      (fun _ _ _ hq => gives_allocNode hq) ?_
    rintro m q ⟨a₁, hb₁, rfl⟩
    refine ⟨_, _, ⟨_, .assign hb hb₁, ?_⟩, 0, fun _ _ => allocNode_eq _ _ _ _ _ _⟩
    rw [Parser.moved_moved]
    simp only [Phrase.tokens, List.length_append, List.length_cons, Parser.moved]
    congr 1
    omega

theorem gives_commaRest {k left : ℕ} {p : Parser} (h : BeforePostfix p) :
    Gives (do
      if ← skipPunctuator "," then
        let right ← parseCommaExpression G k
        allocNode 72 0 0 left right
      else return left : ParserM ℕ) p fun _ => BeforePostfix :=
  gives_step (skipPunctuator_of_not (h.isPunct (by decide))) (Gives.pure h)

theorem read_whole {e : Phrase T .assignment} (he : e.Read G) : (Phrase.whole e).Read G := by
  intro p t tail hT h hend
  refine Outcome.succ (Outcome.succ ?_)
  simp only [parseExpression, parseCommaExpression]
  refine (he p t tail hT h (endsAssignment_of_stops hend)).bind_sure
    (fun k r q hq => gives_commaRest hq) ?_
  rintro n q ⟨a, hb, rfl⟩
  refine Outcome.step (not_skipPunctuator_ahead (h.moved rfl a) hend.comma) ?_
  exact Outcome.pure ⟨a, .whole hb, rfl⟩

theorem read_comma {e : Phrase T .assignment} {mark : Mark ","} {rest : Phrase T .expression}
    (he : e.Read G) (hrest : rest.Read G) : (Phrase.comma e mark rest).Read G := by
  intro p t tail hT h hend
  simp only [Phrase.tokens, List.append_assoc, List.cons_append] at h
  refine Outcome.succ (Outcome.succ ?_)
  simp only [parseExpression, parseCommaExpression]
  refine (he p mark.1 _ hT h (endsAssignment_comma mark.2)).bind
    (fun k r q hq => gives_commaRest hq) ?_
  rintro n q ⟨a, hb, rfl⟩
  have hmark := h.moved rfl a
  have hnext := hmark.next a
  rw [Parser.moved_moved] at hnext
  refine Outcome.step (skipPunctuator_ahead hmark mark.2) ?_
  have hright := (hrest (p.moved (e.tokens.length + 1) a) t tail hT hnext hend).shift
  simp only [parseExpression] at hright
  rw [Parser.moved_moved]
  refine hright.bind_sure (fun _ _ _ hq => gives_allocNode hq) ?_
  rintro m q ⟨a₁, hb₁, rfl⟩
  refine ⟨_, _, ⟨_, .comma hb hb₁, ?_⟩, 0, fun _ _ => allocNode_eq _ _ _ _ _ _⟩
  rw [Parser.moved_moved]
  simp only [Phrase.tokens, List.length_append, List.length_cons, Parser.moved]
  congr 1
  omega

theorem read_phrase (G : Productions) {l : Level} (e : Phrase T l) : e.Read G := by
  induction e with
  | atom x => exact read_atom x
  | parens left e right ih => exact read_parens ih
  | noSuffix => exact read_noSuffix
  | index left e right rest ihe ihrest => exact read_index ihe ihrest
  | callEmpty left right rest ih => exact read_callEmpty ih
  | call left args right rest ihargs ihrest => exact read_call ihargs ihrest
  | dot mark name rest ih => exact read_dot ih
  | arrow mark name rest ih => exact read_arrow ih
  | increment mark rest ih => exact read_increment ih
  | decrement mark rest ih => exact read_decrement ih
  | suffixed e suffixes ihe ihs => exact read_suffixed ihe ihs
  | prefixed o e ih => exact read_prefixed ih
  | noOperation => rintro q ⟨⟩
  | operation o e rest ihe ihrest =>
    intro q hq
    rcases List.mem_cons.1 hq with rfl | hq
    · exact ihe
    · exact ihrest q hq
  | binary e rest ihe ihrest => exact read_binary ihe ihrest
  | choice e rest question thenExpr colon elseExpr ihe ihrest ihthen ihelse =>
    exact read_choice ihe ihrest ihthen ihelse
  | single e ih => exact read_single ih
  | assign left o right ihl ihr => exact read_assign ihl ihr
  | lastArgument e ih => exact read_lastArgument ih
  | argument e mark rest ihe ihrest => exact read_argument ihe ihrest
  | whole e ih => exact read_whole ih
  | comma e mark rest ihe ihrest => exact read_comma ihe ihrest

end Rest

section Result

variable {T : String → Bool} {G : Productions}

/-- With enough fuel `parse_expression` returns in front of the token behind the expression, and
its nodes are those of the expression. -/
def ConsumesExactly (G : Productions) (e : Phrase T .expression) (p : Parser) : Prop :=
  ∃ n a, Builds e p.arena n a ∧
    ∃ N, ∀ fuel ≥ N, parseExpression G fuel p = .ok n (p.moved e.tokens.length a)

section Semicolon

variable {e : Phrase T .expression} {p : Parser} {semicolon : Mark ";"} {tail : List Token}

theorem consumesExactly_of_unbroken (hT : p.typedefNames = T)
    (h : p.tokens.drop p.current = e.tokens ++ semicolon.1 :: tail)
    (hunbroken : e.unbroken true = true) : ConsumesExactly G e p := by
  have hread := read_phrase G e p semicolon.1 tail hT h (stops_of_isPunct semicolon.2 (by simp))
  rw [hunbroken] at hread
  obtain ⟨n, q, ⟨a, hb, rfl⟩, hrun⟩ := hread
  exact ⟨n, a, hb, hrun⟩

theorem unbroken_of_consumesExactly (hT : p.typedefNames = T)
    (h : p.tokens.drop p.current = e.tokens ++ semicolon.1 :: tail) (hc : ConsumesExactly G e p) :
    e.unbroken true = true := by
  have hread := read_phrase G e p semicolon.1 tail hT h (stops_of_isPunct semicolon.2 (by simp))
  by_contra hbroken
  rw [Bool.not_eq_true] at hbroken
  rw [hbroken] at hread
  obtain ⟨N, hstuck⟩ := hread
  obtain ⟨n, a, -, N', hrun⟩ := hc
  have hbefore : BeforePostfix (p.moved e.tokens.length a) :=
    hstuck (max N N') (Nat.le_max_left _ _) n _ (hrun _ (Nat.le_max_right _ _))
  -- the parser stands at the ";", which is no postfix operator
  have hcur : (p.moved e.tokens.length a).currentToken = semicolon.1 :=
    (Ahead.moved h rfl a).currentToken
  have hpunct := hbefore.isPunct (s := ";") (by decide)
  rw [hcur, semicolon.2] at hpunct
  cases hpunct

end Semicolon

end Result

section Runs

def noTypedefs : String → Bool := fun _ => false

def mark (s : String) : Mark s := ⟨operatorToken s, by simp [Parser.isPunct, operatorToken]⟩

def atomP : Atom noTypedefs where
  token := nameToken "p"
  kind := .inl rfl
  name := by decide
  notType := by
    intro p hT hp
    rw [Parser.isTypeSpecifier, Parser.isTypeQualifier, hp, hT]
    decide
  notClose := by decide

/-- `(p)->x` -/
def memberOfP : Phrase noTypedefs .unary :=
  .suffixed (.parens (mark "(") (.whole (.single (.binary (.suffixed (.atom atomP) .noSuffix)
    .noOperation))) (mark ")")) (.arrow (mark "->") ⟨nameToken "x", rfl⟩ .noSuffix)

def expressionOf (e : Phrase noTypedefs .unary) : Phrase noTypedefs .expression :=
  .whole (.single (.binary e .noOperation))

def statement (e : Phrase noTypedefs .unary) : Parser :=
  parserAt ((expressionOf e).tokens ++ [(mark ";").1])

theorem statement_tokens (e : Phrase noTypedefs .unary) :
    (statement e).tokens.drop (statement e).current =
      (expressionOf e).tokens ++ (mark ";").1 :: [] := rfl

def minusOperator : PrefixOperator := ⟨operatorToken "-", 1, false, by decide⟩

end Runs

end OpticC.Expressions
