import OpticC.Frontend.StatementReading

/-! The token that an expression or a statement begins with: no expression begins like a label, and
no statement like a declaration. -/

namespace OpticC.Statements

open Expressions (Mark Phrase Level Ahead Opens)
open StatementExpr (isAtEnd isStorageClassSpecifier)

section Expressions

variable {T : String → Bool}

def openers : List String := ["(", "++", "--", "+", "-", "!", "~", "&", "*"]

/-- A token that begins an expression. -/
structure Begins (T : String → Bool) (t : Token) : Prop where
  opens : Opens T t
  kind : t.kind = .identifier ∨ t.kind = .intConstant ∨ t.kind = .punctuator ∧ t.text ∈ openers

/-- No ":" comes next. -/
def NoColon (ts : List Token) : Prop := ∀ t ∈ ts.head?, Parser.isPunct t ":" = false

theorem noColon_cons {t : Token} (ts : List Token) (h : Parser.isPunct t ":" = false) :
    NoColon (t :: ts) := by
  intro u hu
  cases hu
  exact h

theorem noColon_mark {s : String} (m : Mark s) (ts : List Token) (hs : s ≠ ":") :
    NoColon (m.1 :: ts) := noColon_cons ts (Expressions.isPunct_ne m.2 hs)

/-- A colon is no binary operator. -/
theorem noColon_operator (o : BinaryOperator) (ts : List Token) : NoColon (o.token :: ts) := by
  refine noColon_cons ts ?_
  by_contra hcolon
  have hpunct : Parser.isPunct o.token ":" = true := by simpa using hcolon
  have hbinary := o.binary
  rw [(Expressions.stops_of_isPunct hpunct (by decide)).binary] at hbinary
  exact absurd hbinary (Nat.lt_irrefl 0)

/-- The operators behind an operand do not begin with a colon. -/
theorem noColon_behind {l : Level} (e : Phrase T l) (hl : l.starts = false) {more : List Token}
    (h : NoColon more) : NoColon (e.tokens ++ more) := by
  cases e with
  | noSuffix => exact h
  | noOperation => exact h
  | index left => exact noColon_mark left _ (by decide)
  | callEmpty left => exact noColon_mark left _ (by decide)
  | call left => exact noColon_mark left _ (by decide)
  | dot mark => exact noColon_mark mark _ (by decide)
  | arrow mark => exact noColon_mark mark _ (by decide)
  | increment mark => exact noColon_mark mark _ (by decide)
  | decrement mark => exact noColon_mark mark _ (by decide)
  | operation o => exact noColon_operator o _
  | _ => cases hl

theorem begins_of_text {t : Token} (hk : t.kind = .punctuator) (ht : t.text ∈ openers) :
    Begins T t := by
  refine ⟨Expressions.opens_of_punctuator hk ?_ ?_, .inr (.inr ⟨hk, ht⟩)⟩
  · rintro heq
    rw [heq] at ht
    exact absurd ht (by decide)
  · rintro heq
    rw [heq] at ht
    exact absurd ht (by decide)

/-- An expression does not begin like a labeled statement. -/
theorem phrase_begins {l : Level} (e : Phrase T l) (hl : l.starts = true) {more : List Token}
    (h : NoColon more) : ∃ t rest, e.tokens ++ more = t :: rest ∧ Begins T t ∧
      (t.kind = .identifier → NoColon rest) := by
  induction e generalizing more with
  | atom x => exact ⟨_, _, rfl, ⟨x.opens, x.kind.imp id .inl⟩, fun _ => h⟩
  | parens left e right =>
    have hk := Expressions.kind_of_isPunct left.2
    refine ⟨_, _, rfl, begins_of_text hk ?_, fun hident => ?_⟩
    · rw [Expressions.text_of_isPunct left.2]
      decide
    · rw [hk] at hident
      cases hident
  | prefixed o e =>
    refine ⟨_, _, rfl, begins_of_text o.punctuator (List.mem_cons_of_mem _ o.text),
      fun hident => ?_⟩
    rw [o.punctuator] at hident
    cases hident
  | suffixed e suffixes ihe =>
    rw [Phrase.tokens, List.append_assoc]
    exact ihe rfl (noColon_behind suffixes rfl h)
  | binary e rest ihe =>
    rw [Phrase.tokens, List.append_assoc]
    exact ihe rfl (noColon_behind rest rfl h)
  | choice e rest question thenExpr colon elseExpr ihe =>
    rw [Phrase.tokens, List.append_assoc, List.append_assoc]
    exact ihe rfl (noColon_behind rest rfl (noColon_mark question _ (by decide)))
  | single e ihe => exact ihe rfl h
  | assign left o right ihl =>
    rw [Phrase.tokens, List.append_assoc]
    refine ihl rfl (noColon_cons _ (o.isPunct ?_))
    decide
  | lastArgument e ihe => exact ihe rfl h
  | argument e mark rest ihe =>
    rw [Phrase.tokens, List.append_assoc]
    exact ihe rfl (noColon_mark mark _ (by decide))
  | whole e ihe => exact ihe rfl h
  | comma e mark rest ihe =>
    rw [Phrase.tokens, List.append_assoc]
    exact ihe rfl (noColon_mark mark _ (by decide))
  | _ => cases hl

theorem Begins.not_isPunct {t : Token} (h : Begins T t) {s : String} (hs : s ∉ openers) :
    Parser.isPunct t s = false := by
  obtain ⟨-, hk | hk | ⟨-, ht⟩⟩ := h
  · simp [Parser.isPunct, hk]
  · simp [Parser.isPunct, hk]
  · have hne : t.text ≠ s := by
      rintro rfl
      exact hs ht
    simp [Parser.isPunct, hne]

end Expressions

section Statements

variable {T : String → Bool}

/-- A token that begins a statement, and no declaration. -/
structure Starts (T : String → Bool) (t : Token) : Prop where
  notEof : t.kind ≠ .eof
  notClose : Parser.isPunct t "\x7d" = false
  notDeclaration : ∀ p : Parser, p.typedefNames = T → p.currentToken = t →
    (p.isTypeSpecifier || isStorageClassSpecifier p) = false
  notElse : isElse t = false

theorem isElse_of_isPunct {t : Token} {s : String} (h : Parser.isPunct t s = true) :
    isElse t = false := by
  simp [isElse, Parser.isWord, Expressions.kind_of_isPunct h]

theorem isTypeSpecifier_of_isPunct {p : Parser} {t : Token} {s : String} (hp : p.currentToken = t)
    (h : Parser.isPunct t s = true) : p.isTypeSpecifier = false := by
  have hword : Parser.isWord t = false := by simp [Parser.isWord, Expressions.kind_of_isPunct h]
  simp only [Parser.isTypeSpecifier, hp, hword, Bool.false_and]

theorem starts_of_isPunct {t : Token} {s : String} (h : Parser.isPunct t s = true)
    (hs : s ≠ "\x7d") : Starts T t := by
  have hk := Expressions.kind_of_isPunct h
  refine ⟨?_, Expressions.isPunct_ne h hs, fun p _ hp => ?_, isElse_of_isPunct h⟩
  · rw [hk]
    decide
  · have hword : Parser.isWord t = false := by simp [Parser.isWord, hk]
    simp only [isTypeSpecifier_of_isPunct hp h, isStorageClassSpecifier, hp, hword, Bool.false_and,
      Bool.or_false]

def statementWords : List String :=
  ["if", "while", "for", "return", "break", "continue", "switch", "goto", "do", "case", "default"]

/-- A word is in no list that it is not in. -/
theorem not_contains {t : Token} {words l : List String} (ht : t.text ∈ words)
    (hwords : ∀ w ∈ words, w ∉ l) : l.contains t.text = false := by
  simpa using hwords t.text ht

theorem keyword_starts {s : String} (kw : Keyword s) (hs : s ∈ statementWords) :
    Starts T kw.1 := by
  obtain ⟨t, hk, ht⟩ := kw
  have hword : t.text ∈ statementWords := by rwa [ht]
  have hkind : t.kind ≠ .punctuator := by
    rw [hk]
    decide
  refine ⟨?_, isPunct_of_kind hkind, fun p _ hp => ?_, ?_⟩
  · rw [hk]
    decide
  · have hident : (t.kind == TokenKind.identifier) = false := by
      rw [hk]
      decide
    unfold Parser.isTypeSpecifier isStorageClassSpecifier
    simp only [hp, hident, Bool.false_and, Bool.or_false]
    rw [not_contains hword, not_contains hword]
    · simp
    · decide
    · decide
  · have helse : t.text ≠ "else" := by
      intro heq
      rw [heq] at hword
      exact absurd hword (by decide)
    simp [isElse, helse]

theorem not_contains_of_subset {t : Token} {words l : List String} (ht : t.text ∉ words)
    (hsub : l ⊆ words) : l.contains t.text = false := by
  simpa using fun h => ht (hsub h)

/-- The words for storage classes are no names. -/
theorem not_storageClass {p : Parser} {t : Token} (hp : p.currentToken = t)
    (ht : t.text ∉ reserved) : isStorageClassSpecifier p = false := by
  unfold isStorageClassSpecifier
  simp only [hp]
  rw [not_contains_of_subset ht, Bool.and_false]
  decide

theorem not_isElse {t : Token} (ht : t.text ∉ reserved) : isElse t = false := by
  have helse : t.text ≠ "else" := by
    intro heq
    rw [heq] at ht
    exact ht (by decide)
  simp [isElse, helse]

theorem begins_starts {t : Token} (h : Begins T t) (ht : t.text ∉ reserved) : Starts T t := by
  refine ⟨?_, h.not_isPunct (by decide), fun p hT hp => ?_, not_isElse ht⟩
  · obtain ⟨-, hk | hk | ⟨hk, -⟩⟩ := h
    all_goals
      rw [hk]
      decide
  · have htype := h.opens.notType p hT hp
    rw [Bool.or_eq_false_iff] at htype ⊢
    exact ⟨htype.1, not_storageClass hp ht⟩

theorem label_starts (l : LabelName T) : Starts T l.token := by
  have hk := l.kind
  refine ⟨?_, isPunct_of_kind ?_, fun p hT hp => ?_, not_isElse l.plain⟩
  · rw [hk]
    decide
  · rw [hk]
    decide
  · rw [l.notType p hT hp, not_storageClass hp l.plain]
    rfl

/-- A statement begins like one, and with a semicolon only if it is empty. -/
theorem statement_starts (s : Source T false) (hs : s.WellFormed) : ∃ t rest, s.tokens = t :: rest ∧
    Starts T t ∧ (Parser.isPunct t ";" = true → ∃ semi, s = .empty semi) := by
  have hkeyword : ∀ {w : String} (kw : Keyword w) (rest : List Token), w ∈ statementWords →
      s.tokens = kw.1 :: rest → ∃ t rest, s.tokens = t :: rest ∧ Starts T t ∧
        (Parser.isPunct t ";" = true → ∃ semi, s = .empty semi) := by
    intro w kw rest hw htokens
    refine ⟨_, _, htokens, keyword_starts kw hw, fun hsemi => ?_⟩
    rw [kw.not_isPunct] at hsemi
    cases hsemi
  cases s with
  | block left items right =>
    refine ⟨_, _, rfl, starts_of_isPunct left.2 (by decide), fun hsemi => ?_⟩
    rw [Expressions.isPunct_ne left.2 (by decide)] at hsemi
    cases hsemi
  | empty semi => exact ⟨_, _, rfl, starts_of_isPunct semi.2 (by decide), fun _ => ⟨semi, rfl⟩⟩
  | expr e semi =>
    obtain ⟨he, hwords⟩ := hs
    obtain ⟨t, rest, htokens, hbegins, -⟩ := phrase_begins e rfl (noColon_mark semi [] (by decide))
    refine ⟨t, rest, htokens, begins_starts hbegins ?_, fun hsemi => ?_⟩
    · obtain ⟨t', rest', htokens', -⟩ := e.opens rfl
      rw [htokens', List.cons_append, List.cons.injEq] at htokens
      refine hwords t ?_
      rw [htokens', htokens.1]
      rfl
    · rw [hbegins.not_isPunct (by decide)] at hsemi
      cases hsemi
  | ifThen kw => exact hkeyword kw _ (by decide) rfl
  | ifElse kw => exact hkeyword kw _ (by decide) rfl
  | while_ kw => exact hkeyword kw _ (by decide) rfl
  | doWhile kw => exact hkeyword kw _ (by decide) rfl
  | for_ kw => exact hkeyword kw _ (by decide) rfl
  | switch kw => exact hkeyword kw _ (by decide) rfl
  | break_ kw => exact hkeyword kw _ (by decide) rfl
  | continue_ kw => exact hkeyword kw _ (by decide) rfl
  | goto_ kw => exact hkeyword kw _ (by decide) rfl
  | return_ kw => exact hkeyword kw _ (by decide) rfl
  | labeled l =>
    refine ⟨_, _, rfl, label_starts l, fun hsemi => ?_⟩
    rw [isPunct_of_kind (by rw [l.kind]; decide)] at hsemi
    cases hsemi

end Statements

end OpticC.Statements
