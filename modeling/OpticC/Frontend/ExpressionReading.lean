import OpticC.Frontend.ExpressionGrammar
import OpticC.Frontend.ExpressionOutcomes

/-! What each production does at the tokens of a phrase, and how the parser reads a phrase: a
parenthesised expression is read by `parse_primary_expression` and by `parse_cast_expression`. -/

namespace OpticC.Expressions

open StatementExpr (Gives)

section Reading

variable {T : String → Bool}

/-- A token that can start an expression. -/
structure Opens (T : String → Bool) (t : Token) : Prop where
  notType : ∀ p : Parser, p.typedefNames = T → p.currentToken = t →
    (p.isTypeSpecifier || p.isTypeQualifier) = false
  notBrace : Parser.isPunct t "\x7b" = false
  notClose : t.text ≠ ")"

theorem Atom.not_punctuator (x : Atom T) : x.token.kind ≠ .punctuator := by
  rcases x.kind with hk | hk <;> rw [hk] <;> decide

theorem Atom.opens (x : Atom T) : Opens T x.token :=
  ⟨x.notType, isPunct_of_kind x.not_punctuator, x.notClose⟩

theorem opens_of_punctuator {t : Token} (hk : t.kind = .punctuator) (hbrace : t.text ≠ "\x7b")
    (hclose : t.text ≠ ")") : Opens T t := by
  refine ⟨fun p _ hp => ?_, by simp [Parser.isPunct, hbrace], hclose⟩
  have hword : Parser.isWord t = false := by simp [Parser.isWord, hk]
  have hspecifier : p.isTypeSpecifier = false := by
    unfold Parser.isTypeSpecifier
    simp only [hp, hword, Bool.false_and]
  have hqualifier : p.isTypeQualifier = false := by
    unfold Parser.isTypeQualifier
    simp only [hp, hword, Bool.false_and]
  rw [hspecifier, hqualifier]
  rfl

theorem kind_of_isPunct {t : Token} {s : String} (h : Parser.isPunct t s = true) :
    t.kind = .punctuator := by
  simp only [Parser.isPunct, Bool.and_eq_true, beq_iff_eq] at h
  exact h.1

theorem PrefixOperator.punctuator (o : PrefixOperator) : o.token.kind = .punctuator := by
  by_contra hk
  have heq := o.eq
  rw [prefixOperator, if_pos hk] at heq
  cases heq

theorem PrefixOperator.text (o : PrefixOperator) :
    o.token.text ∈ ["++", "--", "+", "-", "!", "~", "&", "*"] := by
  have heq := o.eq
  rw [prefixOperator, if_neg (not_not.2 o.punctuator)] at heq
  split at heq <;> simp_all

theorem PrefixOperator.text_ne (o : PrefixOperator) {s : String}
    (hs : s ∉ ["++", "--", "+", "-", "!", "~", "&", "*"]) : o.token.text ≠ s :=
  fun heq => hs (heq ▸ o.text)

def Level.starts : Level → Bool
  | .suffixes => false
  | .operations => false
  | _ => true

theorem starts_append {ts more : List Token} (h : ∃ t rest, ts = t :: rest ∧ Opens T t) :
    ∃ t rest, ts ++ more = t :: rest ∧ Opens T t := by
  obtain ⟨t, rest, rfl, ht⟩ := h
  exact ⟨t, rest ++ more, rfl, ht⟩

theorem Phrase.opens {l : Level} (e : Phrase T l) (hl : l.starts = true) :
    ∃ t rest, e.tokens = t :: rest ∧ Opens T t := by
  induction e with
  | atom x => exact ⟨_, _, rfl, x.opens⟩
  | parens left e right =>
    refine ⟨_, _, rfl, opens_of_punctuator (kind_of_isPunct left.2) ?_ ?_⟩ <;>
      rw [text_of_isPunct left.2] <;> decide
  | prefixed o e =>
    exact ⟨_, _, rfl, opens_of_punctuator o.punctuator (o.text_ne (by decide))
      (o.text_ne (by decide))⟩
  | suffixed e suffixes ihe => exact starts_append (ihe rfl)
  | binary e rest ihe => exact starts_append (ihe rfl)
  | choice e rest question thenExpr colon elseExpr ihe =>
    exact starts_append (starts_append (ihe rfl))
  | single e ihe => exact ihe rfl
  | assign left o right ihl => exact starts_append (ihl rfl)
  | lastArgument e ihe => exact ihe rfl
  | argument e mark rest ihe => exact starts_append (ihe rfl)
  | whole e ihe => exact ihe rfl
  | comma e mark rest ihe => exact starts_append (ihe rfl)
  | _ => cases hl

theorem stops_of_isPunct {t : Token} {s : String} (h : Parser.isPunct t s = true)
    (hs : s ∈ [")", "]", ":", ";"]) : Stops t := by
  have hne : ∀ s' ∈ ["[", "(", ".", "->", "++", "--", "?", ","], s ≠ s' := by
    intro s' hs' heq
    subst heq
    revert hs'
    simp only [List.mem_cons, List.not_mem_nil, or_false] at hs
    rcases hs with rfl | rfl | rfl | rfl <;> decide
  refine ⟨fun s' hs' => isPunct_ne h (hne s' (List.mem_append_left ["?", ","] hs')), ?_,
    isPunct_ne h (hne _ (by decide)), ?_, isPunct_ne h (hne _ (by decide))⟩
  · unfold binaryOperator
    rw [text_of_isPunct h, if_neg (not_not.2 (kind_of_isPunct h))]
    simp only [List.mem_cons, List.not_mem_nil, or_false] at hs
    rcases hs with rfl | rfl | rfl | rfl <;> rfl
  · unfold assignmentOperator
    rw [text_of_isPunct h, if_neg (not_not.2 (kind_of_isPunct h))]
    simp only [List.mem_cons, List.not_mem_nil, or_false] at hs
    rcases hs with rfl | rfl | rfl | rfl <;> rfl

end Reading

section Equations

variable (G : Productions) (k : ℕ) {p : Parser} {t u : Token} {tail : List Token}

theorem linkSiblings_eq (chain : ℕ × ℕ) (node : ℕ) (p : Parser) :
    linkSiblings chain node p =
      .ok (p.arena.link chain node).1 { p with arena := (p.arena.link chain node).2 } := by
  unfold linkSiblings Arena.link
  split
  · rfl
  · split <;> rfl

theorem parsePrimaryExpression_parens (h : Ahead p (t :: u :: tail))
    (ht : Parser.isPunct t "(" = true) (hu : Parser.isPunct u "\x7b" = false) :
    parsePrimaryExpression G (k + 1) p =
      (parseExpression G k >>= fun e => expect ")" >>= fun _ => pure e) (p.moved 1 p.arena) := by
  have hpeek : p.peekToken 1 = some u := (h.next p.arena).getElem?
  have hword : Parser.isWord t = false := by simp [Parser.isWord, kind_of_isPunct ht]
  have hand : Parser.isPunct t "&" = false := isPunct_ne ht (by decide)
  rw [parsePrimaryExpression, get_bind]
  simp only [h.currentToken, ht, hpeek, hu, hword, hand, Option.any_some, Bool.and_false,
    Bool.false_and, Bool.false_eq_true, if_false, kind_of_isPunct ht, text_of_isPunct ht, if_true]
  exact bind_ok (advance_ahead h)

theorem parseCastExpression_parens (h : Ahead p (t :: u :: tail))
    (ht : Parser.isPunct t "(" = true) (hu : Opens p.typedefNames u) :
    parseCastExpression G (k + 1) p =
      (parseExpression G k >>= fun e => expect ")" >>= fun _ => pure e) (p.moved 1 p.arena) := by
  have htype := hu.notType (p.moved 1 p.arena) rfl (h.next p.arena).currentToken
  rw [parseCastExpression, bind_ok (skipPunctuator_ahead h ht), if_pos rfl, get_bind, htype]
  rfl

theorem parseCastExpression_unary (h : Ahead p (t :: tail)) (ht : Parser.isPunct t "(" = false) :
    parseCastExpression G (k + 1) p = parseUnaryExpression G k p := by
  rw [parseCastExpression, bind_ok (not_skipPunctuator_ahead h ht)]
  rfl

theorem parseUnaryExpression_prefix (o : PrefixOperator) (h : Ahead p (o.token :: tail)) :
    parseUnaryExpression G (k + 1) p =
      ((if o.castOperand then parseCastExpression G k else parseUnaryExpression G k) >>=
        fun operand => allocNode 65 o.code 0 operand 0) (p.moved 1 p.arena) := by
  have hsizeof : ¬(o.token.kind = .keyword ∧ o.token.text = "sizeof") := by simp [o.punctuator]
  rw [parseUnaryExpression, get_bind, h.currentToken, if_neg hsizeof, o.eq]
  refine (bind_ok (advance_ahead h)).trans ?_
  cases o.castOperand <;> rfl

theorem parseUnaryExpression_postfix (h : Ahead p (t :: tail)) (hk : t.kind ≠ .keyword)
    (ht : prefixOperator t = none) :
    parseUnaryExpression G (k + 2) p =
      (parsePrimaryExpression G k >>= fun e => parsePostfixLoop G k e) p := by
  have hsizeof : ¬(t.kind = .keyword ∧ t.text = "sizeof") := fun hs => hk hs.1
  rw [parseUnaryExpression, get_bind, h.currentToken, if_neg hsizeof, ht, parsePostfixExpression]

variable (n : ℕ)

theorem parsePostfixLoop_index (h : Ahead p (t :: tail)) (ht : Parser.isPunct t "[" = true) :
    parsePostfixLoop G (k + 1) n p =
      (parseExpression G k >>= fun index => expect "]" >>= fun _ =>
        allocNode 68 0 0 n index >>= fun node => parsePostfixLoop G k node) (p.moved 1 p.arena) := by
  rw [parsePostfixLoop, bind_ok (skipPunctuator_ahead h ht)]
  rfl

theorem parsePostfixLoop_call (h : Ahead p (t :: tail)) (ht : Parser.isPunct t "(" = true) :
    parsePostfixLoop G (k + 1) n p =
      (parseArgumentExpressionList G k >>= fun args => expect ")" >>= fun _ => do
        if args ≠ 0 then setNextSibling n args
        let node ← allocNode 67 0 0 n 0
        parsePostfixLoop G k node) (p.moved 1 p.arena) := by
  rw [parsePostfixLoop, bind_ok (not_skipPunctuator_ahead h (isPunct_ne ht (by decide))),
    if_neg Bool.false_ne_true, bind_ok (skipPunctuator_ahead h ht)]
  rfl

theorem attachArguments_eq (args : ℕ) (p : Parser) :
    (do
      if args ≠ 0 then setNextSibling n args
      let node ← allocNode 67 0 0 n 0
      parsePostfixLoop G k node : ParserM ℕ) p =
      (allocNode 67 0 0 n 0 >>= fun node => parsePostfixLoop G k node)
        { p with arena := p.arena.attach n args } := by
  unfold Arena.attach
  split
  · exact bind_ok (modify_run _ p)
  · rfl

theorem parsePostfixLoop_dot (name : MemberName) (h : Ahead p (t :: name.1 :: tail))
    (ht : Parser.isPunct t "." = true) :
    parsePostfixLoop G (k + 1) n p =
      (storeString name.1.text >>= fun member => allocNode 69 member 0 n 0 >>= fun node =>
        parsePostfixLoop G k node) (p.moved 2 p.arena) := by
  have hnext := h.next p.arena
  rw [parsePostfixLoop]
  iterate 2
    rw [bind_ok (not_skipPunctuator_ahead h (isPunct_ne ht (by decide))),
      if_neg Bool.false_ne_true]
  rw [bind_ok (skipPunctuator_ahead h ht), if_pos rfl, get_bind, hnext.currentToken,
    if_pos name.2, bind_ok (advance_ahead hnext)]
  rfl

theorem parsePostfixLoop_arrow (name : MemberName) (h : Ahead p (t :: name.1 :: tail))
    (ht : Parser.isPunct t "->" = true) :
    parsePostfixLoop G (k + 1) n p =
      (storeString name.1.text >>= fun member => allocNode 69 (member ||| 2 ^ 31) 0 n 0 >>=
        fun node => parsePostfixLoop G k node) (p.moved 2 p.arena) := by
  have hnext := h.next p.arena
  rw [parsePostfixLoop]
  iterate 3
    rw [bind_ok (not_skipPunctuator_ahead h (isPunct_ne ht (by decide))),
      if_neg Bool.false_ne_true]
  rw [bind_ok (skipPunctuator_ahead h ht), if_pos rfl, get_bind, hnext.currentToken,
    if_pos name.2, bind_ok (advance_ahead hnext)]
  rfl

theorem parsePostfixLoop_increment (h : Ahead p (t :: tail)) (ht : Parser.isPunct t "++" = true) :
    parsePostfixLoop G (k + 1) n p =
      (allocNode 65 6 0 n 0 >>= fun node => parsePostfixLoop G k node) (p.moved 1 p.arena) := by
  rw [parsePostfixLoop]
  iterate 4
    rw [bind_ok (not_skipPunctuator_ahead h (isPunct_ne ht (by decide))),
      if_neg Bool.false_ne_true]
  rw [bind_ok (skipPunctuator_ahead h ht)]
  rfl

theorem parsePostfixLoop_decrement (h : Ahead p (t :: tail)) (ht : Parser.isPunct t "--" = true) :
    parsePostfixLoop G (k + 1) n p =
      (allocNode 65 7 0 n 0 >>= fun node => parsePostfixLoop G k node) (p.moved 1 p.arena) := by
  rw [parsePostfixLoop]
  iterate 5
    rw [bind_ok (not_skipPunctuator_ahead h (isPunct_ne ht (by decide))),
      if_neg Bool.false_ne_true]
  rw [bind_ok (skipPunctuator_ahead h ht)]
  rfl

theorem gives_allocNode {kind data parent first next : ℕ} (h : BeforePostfix p) :
    Gives (allocNode kind data parent first next) p fun _ => BeforePostfix := by
  intro r q hrun
  rw [allocNode_eq] at hrun
  cases hrun
  exact h

end Equations

section Phrases

variable {T : String → Bool} {G : Productions}

/-- What a call leaves that reads the phrase and no more. -/
def After {l : Level} (e : Phrase T l) (p : Parser) (n : ℕ) (p' : Parser) : Prop :=
  ∃ a, Builds e p.arena n a ∧ p' = p.moved e.tokens.length a

/-- The calls read the phrase in front of a token that may follow it, if it is `good`; if not,
they end in a state in `S` or with an error. -/
def ReadBy (S : Parser → Prop) (parse : ℕ → ParserM ℕ) (follow : Token → Prop) (good : Bool)
    {l : Level} (e : Phrase T l) : Prop :=
  ∀ p t tail, p.typedefNames = T → Ahead p (e.tokens ++ t :: tail) → follow t →
    Outcome S parse p good (After e p)

def parseUnary (G : Productions) (cast : Bool) (k : ℕ) : ParserM ℕ :=
  if cast then parseCastExpression G k else parseUnaryExpression G k

def EndsChain (t : Token) : Prop := EndsPostfix t ∧ (binaryOperator t).1 = 0
def EndsConditional (t : Token) : Prop := EndsChain t ∧ Parser.isPunct t "?" = false
def EndsAssignment (t : Token) : Prop := EndsConditional t ∧ assignmentOperator t = none

theorem endsAssignment_of_stops {t : Token} (h : Stops t) : EndsAssignment t :=
  ⟨⟨⟨h.postfix_, h.binary⟩, h.conditional⟩, h.assignment⟩

def Phrase.ReadAsUnary (G : Productions) (e : Phrase T .unary) : Prop :=
  ∀ cast, ReadBy BeforePostfix (parseUnary G cast) EndsPostfix (e.unbroken cast) e

def Phrase.ReadAsSuffixes (G : Productions) (e : Phrase T .suffixes) : Prop :=
  ∀ n p t tail, p.typedefNames = T → Ahead p (e.tokens ++ t :: tail) → EndsPostfix t →
    Outcome Never (fun k => parsePostfixLoop G k n) p (e.unbroken true) fun r q =>
      ∃ a, BuildsSuffixes e n p.arena r a ∧ q = p.moved e.tokens.length a

/-- With `(0, 0)` for the chain these are the arguments of a call. -/
def Phrase.ReadAsArguments (G : Productions) (e : Phrase T .arguments) : Prop :=
  ∀ chain p t tail, p.typedefNames = T → Ahead p (e.tokens ++ t :: tail) →
    Parser.isPunct t ")" = true →
    Outcome BeforePostfix (fun k => parseArgumentLoop G k chain) p (e.unbroken true) fun r q =>
      ∃ a, BuildsArguments e chain p.arena r a ∧ q = p.moved e.tokens.length a

/-- A parenthesised operand is also read by `parse_cast_expression`, which ends behind its ")". -/
def Phrase.ReadAsPrimary (G : Productions) (e : Phrase T .primary) : Prop :=
  ReadBy Never (parsePrimaryExpression G) (fun _ => True) (e.unbroken true) e ∧
    (e.isParens = true →
      ReadBy BeforePostfix (parseCastExpression G) (fun _ => True) (e.unbroken true) e)

/-- How the parser reads a phrase of each level. -/
def Phrase.Read (G : Productions) : {l : Level} → Phrase T l → Prop
  | .primary, e => e.ReadAsPrimary G
  | .suffixes, e => e.ReadAsSuffixes G
  | .unary, e => e.ReadAsUnary G
  | .operations, e => ∀ q ∈ e.operationList, q.2.ReadAsUnary G
  | .conditional, e =>
    ReadBy BeforePostfix (parseConditionalExpression G) EndsConditional (e.unbroken true) e
  | .assignment, e =>
    ReadBy BeforePostfix (parseAssignmentExpression G) EndsAssignment (e.unbroken true) e
  | .arguments, e => e.ReadAsArguments G
  | .expression, e => ReadBy BeforePostfix (parseExpression G) Stops (e.unbroken true) e

/-- An expression between brackets, or between "?" and ":". -/
theorem outcome_enclosed {e : Phrase T .expression} (he : e.Read G) {s : String} (mark : Mark s)
    (hs : s ∈ [")", "]", ":", ";"]) {p : Parser} {tail : List Token} (hT : p.typedefNames = T)
    (h : Ahead p (e.tokens ++ mark.1 :: tail)) {S : Parser → Prop} {f : ℕ → ℕ → ParserM ℕ}
    {g : Bool} {Q : ℕ → Parser → Prop}
    (hf : ∀ n a, Builds e p.arena n a → Ahead (p.moved (e.tokens.length + 1) a) tail →
      Outcome S (fun k => f k n) (p.moved (e.tokens.length + 1) a) g Q) :
    Outcome S (fun k => parseExpression G k >>= fun n => expect s >>= fun _ => f k n) p
      (e.unbroken true && g) Q := by
  have hnot : s ∉ postfixTexts := by
    simp only [List.mem_cons, List.not_mem_nil, or_false] at hs
    rcases hs with rfl | rfl | rfl | rfl <;> decide
  refine (he p mark.1 tail hT h (stops_of_isPunct mark.2 hs)).bind
    (fun k n q hq => hq.gives_expect hnot) ?_
  rintro n q ⟨a, hb, rfl⟩
  have hmark := h.moved rfl a
  refine Outcome.step (expect_ahead hmark mark.2) ?_
  have hrest := hf n a hb
  rw [Parser.moved_moved]
  exact hrest (by rw [← Parser.moved_moved]; exact hmark.next _)

section Primary

theorem read_atom (x : Atom T) : (Phrase.atom x).Read G := by
  refine ⟨fun p t tail hT h _ => ?_, by rintro ⟨⟩⟩
  have hrun : ∀ k ≥ 1, parsePrimaryExpression G k p =
      .ok (buildToken x.token p.arena).1 (p.moved 1 (buildToken x.token p.arena).2) := by
    intro k hk
    obtain ⟨n, rfl⟩ : ∃ n, k = n + 1 := ⟨k - 1, by omega⟩
    exact parsePrimaryExpression_token G n x.kind x.name (Ahead.getElem? h)
  exact ⟨_, _, ⟨_, .atom, rfl⟩, 1, hrun⟩

/-- A parenthesised expression behind its "(", up to its ")". -/
theorem outcome_parens {left : Mark "("} {e : Phrase T .expression} (he : e.Read G)
    {right : Mark ")"} {S : Parser → Prop} {p : Parser} {tail : List Token}
    (hT : p.typedefNames = T) (h : Ahead p ((Phrase.parens left e right).tokens ++ tail)) :
    Outcome S (fun k => parseExpression G k >>= fun n => expect ")" >>= fun _ => pure n)
      (p.moved 1 p.arena) (e.unbroken true) (After (.parens left e right) p) := by
  simp only [Phrase.tokens, List.cons_append, List.append_assoc] at h
  have hread := outcome_enclosed (p := p.moved 1 p.arena) (S := S) (f := fun _ n => pure n)
    (g := true) (Q := After (.parens left e right) p) he right (by simp) hT (h.next _) ?_
  · rwa [Bool.and_true] at hread
  · intro n a hb _
    refine Outcome.pure ⟨a, .parens hb, ?_⟩
    rw [Parser.moved_moved]
    simp only [Phrase.tokens, List.length_cons, List.length_append, List.length_nil]
    rw [Nat.add_comm 1]

theorem read_parens {left : Mark "("} {e : Phrase T .expression} (he : e.Read G)
    {right : Mark ")"} : (Phrase.parens left e right).Read G := by
  obtain ⟨u, more, hu, hopens⟩ := e.opens rfl
  have hhead : ∀ {p : Parser} {tail : List Token},
      Ahead p ((Phrase.parens left e right).tokens ++ tail) →
        Ahead p (left.1 :: u :: (more ++ [right.1] ++ tail)) := by
    intro p tail h
    simpa only [Phrase.tokens, List.cons_append, hu] using h
  refine ⟨fun p t tail hT h _ => ?_, fun _ p t tail hT h _ => ?_⟩
  · exact Outcome.succ ((outcome_parens he hT h).congr fun k =>
      parsePrimaryExpression_parens G k (hhead h) left.2 hopens.notBrace)
  · exact Outcome.succ ((outcome_parens he hT h).congr fun k =>
      parseCastExpression_parens G k (hhead h) left.2 (by rw [hT]; exact hopens))

end Primary

end Phrases

end OpticC.Expressions
