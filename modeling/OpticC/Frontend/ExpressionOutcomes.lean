import OpticC.Frontend.StatementExprs

/-! What becomes of a call once it has enough fuel: it returns one result, or it gets stuck in
front of a postfix operator. -/

namespace OpticC

/-- The parser behind so many tokens, with another arena. -/
def Parser.moved (p : Parser) (n : ℕ) (a : Arena) : Parser :=
  { p with arena := a, current := p.current + n }

theorem Parser.moved_moved (p : Parser) (n m : ℕ) (a b : Arena) :
    (p.moved n a).moved m b = p.moved (n + m) b := by
  simp only [Parser.moved, Nat.add_assoc]

namespace Expressions

open StatementExpr (Gives)

section Outcomes

def postfixTexts : List String := ["[", "(", ".", "->", "++", "--"]

/-- The parser stands in front of a postfix operator. -/
def BeforePostfix (p : Parser) : Prop := ∃ s ∈ postfixTexts, Parser.isPunct p.currentToken s = true

/-- For calls that return only when they read all of a phrase. -/
def Never (_ : Parser) : Prop := False

/-- With enough fuel the calls return one result, or they come to a state in `S` if they return
at all. -/
def Outcome {α : Type} (S : Parser → Prop) (m : ℕ → ParserM α) (p : Parser) (good : Bool)
    (Q : α → Parser → Prop) : Prop :=
  if good then ∃ r p', Q r p' ∧ ∃ N, ∀ fuel ≥ N, m fuel p = .ok r p'
  else ∃ N, ∀ fuel ≥ N, Gives (m fuel) p fun _ => S

variable {α β : Type} {S S' : Parser → Prop} {m : ℕ → ParserM α} {p p' : Parser} {g g' : Bool}
  {Q Q' : α → Parser → Prop}

theorem gives_step {x : ParserM α} {f : α → ParserM β} {r : α} {R : β → Parser → Prop}
    (hx : x p = .ok r p') (h : Gives (f r) p' R) : Gives (x >>= f) p R := by
  intro s q hrun
  rw [bind_ok hx] at hrun
  exact h s q hrun

namespace Outcome

theorem succ (h : Outcome S (fun k => m (k + 1)) p g Q) : Outcome S m p g Q := by
  have hshift : ∀ {P : ℕ → Prop}, (∃ N, ∀ k ≥ N, P (k + 1)) → ∃ N, ∀ fuel ≥ N, P fuel := by
    rintro P ⟨N, hN⟩
    refine ⟨N + 1, fun fuel hfuel => ?_⟩
    obtain ⟨k, rfl⟩ : ∃ k, fuel = k + 1 := ⟨fuel - 1, by omega⟩
    exact hN k (by omega)
  cases g with
  | true =>
    obtain ⟨r, q, hq, hrun⟩ := h
    exact ⟨r, q, hq, hshift hrun⟩
  | false => exact hshift h

theorem shift (h : Outcome S m p g Q) : Outcome S (fun k => m (k + 1)) p g Q := by
  cases g with
  | true =>
    obtain ⟨r, q, hq, N, hN⟩ := h
    exact ⟨r, q, hq, N, fun k hk => hN (k + 1) (by omega)⟩
  | false =>
    obtain ⟨N, hN⟩ := h
    exact ⟨N, fun k hk => hN (k + 1) (by omega)⟩

theorem congr {f : ℕ → ParserM α} {q : Parser} (heq : ∀ k, m k p = f k q) (h : Outcome S f q g Q) :
    Outcome S m p g Q := by
  cases g with
  | true =>
    obtain ⟨r, q, hq, N, hN⟩ := h
    exact ⟨r, q, hq, N, fun k hk => (heq k).trans (hN k hk)⟩
  | false =>
    obtain ⟨N, hN⟩ := h
    refine ⟨N, fun k hk r q hrun => ?_⟩
    rw [heq k] at hrun
    exact hN k hk r q hrun

theorem step {x : ParserM α} {f : ℕ → α → ParserM β} {r : α} {R : β → Parser → Prop}
    (hx : x p = .ok r p') (h : Outcome S (fun k => f k r) p' g R) :
    Outcome S (fun k => x >>= f k) p g R :=
  h.congr fun _ => bind_ok hx

theorem pure {r : α} (h : Q r p) : Outcome S (fun _ => Pure.pure r) p true Q :=
  ⟨r, p, h, 0, fun _ _ => rfl⟩

/-- A call that returns for sure comes to a state in `S`. -/
theorem stop {r : α} (h : S p) : Outcome S (fun _ => Pure.pure r) p false Q :=
  ⟨0, fun _ _ => Gives.pure h⟩

theorem bind {f : ℕ → α → ParserM β} {R : β → Parser → Prop} (h : Outcome S m p g Q)
    (hstuck : ∀ k r q, S q → Gives (f k r) q fun _ => S')
    (hf : ∀ r q, Q r q → Outcome S' (fun k => f k r) q g' R) :
    Outcome S' (fun k => m k >>= f k) p (g && g') R := by
  cases g with
  | false =>
    obtain ⟨N, hN⟩ := h
    exact ⟨N, fun k hk => (hN k hk).bind fun r q hq => hstuck k r q hq⟩
  | true =>
    obtain ⟨r, q, hq, N, hN⟩ := h
    have hrest := hf r q hq
    cases g' with
    | true =>
      obtain ⟨s, q', hq', N', hN'⟩ := hrest
      refine ⟨s, q', hq', max N N', fun k hk => ?_⟩
      show (m k >>= f k) p = .ok s q'
      rw [bind_ok (hN k (by omega))]
      exact hN' k (by omega)
    | false =>
      obtain ⟨N', hN'⟩ := hrest
      exact ⟨max N N', fun k hk => gives_step (hN k (by omega)) (hN' k (by omega))⟩

theorem bind_sure {f : ℕ → α → ParserM β} {R : β → Parser → Prop} (h : Outcome S m p g Q)
    (hstuck : ∀ k r q, S q → Gives (f k r) q fun _ => S')
    (hf : ∀ r q, Q r q → Outcome S' (fun k => f k r) q true R) :
    Outcome S' (fun k => m k >>= f k) p g R := by
  have hbind := h.bind hstuck hf
  rwa [Bool.and_true] at hbind

/-- The result is judged once more. -/
theorem narrow (h : Outcome S m p g Q) (hQ : ∀ r q, Q r q → if g' then Q' r q else S q) :
    Outcome S m p (g && g') Q' := by
  cases g with
  | false => exact h
  | true =>
    obtain ⟨r, q, hq, N, hN⟩ := h
    have hres := hQ r q hq
    cases g' with
    | true => exact ⟨r, q, hres, N, hN⟩
    | false =>
      refine ⟨N, fun k hk s q' hrun => ?_⟩
      rw [hN k hk] at hrun
      cases hrun
      exact hres

theorem mono (h : Outcome S m p g Q) (hS : ∀ q, S q → S' q) (hQ : ∀ r q, Q r q → Q' r q) :
    Outcome S' m p g Q' := by
  cases g with
  | true =>
    obtain ⟨r, q, hq, hrun⟩ := h
    exact ⟨r, q, hQ r q hq, hrun⟩
  | false =>
    obtain ⟨N, hN⟩ := h
    exact ⟨N, fun k hk r q hrun => hS q (hN k hk r q hrun)⟩

end Outcome

end Outcomes

section Tokens

/-- The tokens from the current one on. -/
def Ahead (p : Parser) (tokens : List Token) : Prop := p.tokens.drop p.current = tokens

variable {p : Parser} {t : Token} {tokens tail : List Token} {s s' : String}

theorem Ahead.getElem? (h : Ahead p (t :: tail)) : p.tokens[p.current]? = some t := by
  have hget : (p.tokens.drop p.current)[0]? = some t := by rw [h]; rfl
  rwa [List.getElem?_drop, Nat.add_zero] at hget

theorem Ahead.currentToken (h : Ahead p (t :: tail)) : p.currentToken = t := by
  rw [Parser.currentToken, h.getElem?, Option.getD_some]

theorem Ahead.moved (h : Ahead p (tokens ++ tail)) {n : ℕ} (hn : tokens.length = n) (a : Arena) :
    Ahead (p.moved n a) tail := by
  show p.tokens.drop (p.current + n) = tail
  rw [← List.drop_drop, h, ← hn, List.drop_left]

theorem Ahead.next (h : Ahead p (t :: tail)) (a : Arena) : Ahead (p.moved 1 a) tail :=
  have hcons : Ahead p ([t] ++ tail) := h
  hcons.moved rfl a

theorem advance_ahead (h : Ahead p (t :: tail)) : advance p = .ok () (p.moved 1 p.arena) :=
  advance_eq (List.getElem?_eq_some_iff.1 h.getElem?).1

theorem skipPunctuator_ahead (h : Ahead p (t :: tail)) (ht : Parser.isPunct t s = true) :
    skipPunctuator s p = .ok true (p.moved 1 p.arena) := by
  unfold skipPunctuator
  rw [get_bind, h.currentToken, ht, if_pos rfl, bind_ok (advance_ahead h)]
  rfl

theorem text_of_isPunct (h : Parser.isPunct t s = true) : t.text = s := by
  simp only [Parser.isPunct, Bool.and_eq_true, beq_iff_eq] at h
  exact h.2

theorem isPunct_ne (h : Parser.isPunct t s = true) (hne : s ≠ s') : Parser.isPunct t s' = false := by
  simp [Parser.isPunct, text_of_isPunct h, hne]

theorem expect_ahead (h : Ahead p (t :: tail)) (ht : Parser.isPunct t s = true) :
    expect s p = .ok () (p.moved 1 p.arena) := by
  unfold expect
  rw [get_bind]
  simp only [h.currentToken, text_of_isPunct ht, if_true]
  exact advance_ahead h

theorem not_skipPunctuator_ahead (h : Ahead p (t :: tail)) (ht : Parser.isPunct t s = false) :
    skipPunctuator s p = .ok false p :=
  skipPunctuator_of_not (by rw [h.currentToken, ht])

end Tokens

section Stuck

variable {p : Parser} {α : Type} {Q : α → Parser → Prop} {s : String}

theorem BeforePostfix.isPunct (h : BeforePostfix p) (hs : s ∉ postfixTexts) :
    Parser.isPunct p.currentToken s = false := by
  obtain ⟨s', hs', hp⟩ := h
  exact isPunct_ne hp fun heq => hs (heq ▸ hs')

theorem BeforePostfix.text (h : BeforePostfix p) (hs : s ∉ postfixTexts) :
    p.currentToken.text ≠ s := by
  obtain ⟨s', hs', hp⟩ := h
  rw [text_of_isPunct hp]
  exact fun heq => hs (heq ▸ hs')

theorem BeforePostfix.binaryOperator (h : BeforePostfix p) :
    (binaryOperator p.currentToken).1 = 0 := by
  obtain ⟨s, hs, hp⟩ := h
  by_contra hne
  have hends := BinaryOperator.endsPostfix ⟨p.currentToken, Nat.pos_of_ne_zero hne⟩ s hs
  rw [hp] at hends
  cases hends

theorem BeforePostfix.assignmentOperator (h : BeforePostfix p) :
    assignmentOperator p.currentToken = none := by
  obtain ⟨s, hs, hp⟩ := h
  unfold OpticC.assignmentOperator
  rw [text_of_isPunct hp]
  simp only [postfixTexts, List.mem_cons, List.not_mem_nil, or_false] at hs
  split_ifs
  · rfl
  · rcases hs with rfl | rfl | rfl | rfl | rfl | rfl <;> rfl

/-- A bracket or a colon that is expected where a postfix operator stands is an error. -/
theorem BeforePostfix.gives_expect (h : BeforePostfix p) (hs : s ∉ postfixTexts)
    {f : Unit → ParserM α} : Gives (expect s >>= f) p Q := by
  obtain ⟨e, hfail⟩ : ∃ e, expect s p = .error e p := by
    unfold expect
    rw [get_bind]
    simp only [if_neg (h.text hs)]
    exact ⟨_, rfl⟩
  intro r q hrun
  simp only [Bind.bind, EStateM.bind, hfail] at hrun
  cases hrun

end Stuck

end Expressions

end OpticC
