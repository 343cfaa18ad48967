import OpticC.Frontend.ExprTree

/-! What `parse_expression` makes of a chain of operands and binary operators. The
recursive call of `parse_binary_op` gets the precedence below the operator's, so it
also takes the next operator of the same precedence: the tree groups to the right. -/

namespace OpticC

open Grouping OpTree

/-- The tokens of a chain. -/
def spelled (first : Operand) (rest : Chain) : List Token :=
  first.token :: rest.flatMap fun q => [q.1.token, q.2.token]

/-- No postfix operator starts at the token. -/
def EndsPostfix (t : Token) : Prop :=
  ∀ s ∈ ["[", "(", ".", "->", "++", "--"], Parser.isPunct t s = false

/-- An expression ends before the token. -/
structure Stops (t : Token) : Prop where
  postfix_ : EndsPostfix t
  binary : (binaryOperator t).1 = 0
  conditional : Parser.isPunct t "?" = false
  assignment : assignmentOperator t = none
  comma : Parser.isPunct t "," = false

section Parse

theorem bind_ok {α β : Type} {x : ParserM α} {f : α → ParserM β} {p p' : Parser} {a : α}
    (h : x p = .ok a p') : (x >>= f) p = f a p' := by
  simp only [bind, EStateM.bind, h]

theorem advance_eq {p : Parser} (h : p.current < p.tokens.length) :
    advance p = .ok () { p with current := p.current + 1 } := by
  simp only [advance, modify_run, if_pos h]

theorem get_bind {β : Type} (f : Parser → ParserM β) (p : Parser) :
    (get >>= f) p = f p p := rfl

theorem skipPunctuator_of_not {p : Parser} {s : String}
    (h : Parser.isPunct p.currentToken s = false) : skipPunctuator s p = .ok false p := by
  unfold skipPunctuator
  simp only [get_bind, h]
  rfl

theorem allocNode_eq (kind data parent first next : ℕ) (p : Parser) :
    allocNode kind data parent first next p =
      .ok (p.arena.put ⟨kind, true, parent, first, next, data⟩).1
        { p with arena := (p.arena.put ⟨kind, true, parent, first, next, data⟩).2 } := by
  simp only [allocNode, modifyGet_run, Arena.put]
  cases p.arena.alloc ⟨kind, true, parent, first, next, data⟩ <;> rfl

theorem storeString_eq (s : String) (p : Parser) :
    storeString s p = .ok (p.arena.intern s).1 { p with arena := (p.arena.intern s).2 } := by
  simp only [storeString, modifyGet_run, Arena.intern]
  cases p.arena.storeString s <;> rfl

theorem isPunct_of_kind {t : Token} {s : String} (h : t.kind ≠ .punctuator) :
    Parser.isPunct t s = false := by
  simp [Parser.isPunct, h]

theorem Operand.kind_ne (x : Operand) {k : TokenKind} (h1 : k ≠ .identifier)
    (h2 : k ≠ .intConstant) : x.token.kind ≠ k := by
  rintro rfl
  exact x.kind.elim h1 h2

/-- The node of an identifier or of an integer constant. -/
def buildToken (t : Token) (a : Arena) : ℕ × Arena :=
  if t.kind = .identifier then
    let (name, a) := a.intern t.text
    a.put ⟨60, true, 0, 0, 0, name⟩
  else a.put ⟨61, true, 0, 0, 0, intConstantValue t.text⟩

theorem parsePrimaryExpression_token (G : Productions) (n : ℕ) {t : Token} {p : Parser}
    (hkind : t.kind = .identifier ∨ t.kind = .intConstant)
    (hname : t.kind = .identifier → t.text ≠ "typeof" ∧ t.text ≠ "__typeof__" ∧
      t.text ≠ "__extension__" ∧ "__builtin_".isPrefixOf t.text = false)
    (ht : p.tokens[p.current]? = some t) :
    parsePrimaryExpression G (n + 1) p =
      .ok (buildToken t p.arena).1
        { p with arena := (buildToken t p.arena).2, current := p.current + 1 } := by
  have hlt : p.current < p.tokens.length := (List.getElem?_eq_some_iff.1 ht).1
  have hcur : p.currentToken = t := by simp [Parser.currentToken, ht]
  have hpunct : ∀ s, Parser.isPunct t s = false := by
    intro s
    rcases hkind with hk | hk <;> exact isPunct_of_kind (by rw [hk]; decide)
  rw [parsePrimaryExpression, get_bind]
  simp only [hcur, hpunct, Bool.false_and, Bool.false_eq_true, if_false]
  rcases hkind with hk | hk
  · obtain ⟨h1, h2, h3, h4⟩ := hname hk
    have hword : (t.text == "typeof" || t.text == "__typeof__") = false := by
      simp [h1, h2]
    have hext : (t.text == "__extension__") = false := by simp [h3]
    simp only [hword, hext, h4, hk, Bool.and_false, Bool.false_eq_true, if_false]
    rw [bind_ok (advance_eq hlt), bind_ok (storeString_eq _ _), allocNode_eq]
    simp only [buildToken, hk, if_true]
  · have hword : Parser.isWord t = false := by simp [Parser.isWord, hk]
    simp only [hword, hk, Bool.false_and, Bool.false_eq_true, if_false]
    rw [bind_ok (advance_eq hlt), allocNode_eq]
    simp only [buildToken, hk, reduceCtorEq, if_false]

theorem parsePrimaryExpression_operand (G : Productions) (n : ℕ) (x : Operand) {p : Parser}
    (ht : p.tokens[p.current]? = some x.token) :
    parsePrimaryExpression G (n + 1) p =
      .ok (buildLeaf x p.arena).1
        { p with arena := (buildLeaf x p.arena).2, current := p.current + 1 } :=
  parsePrimaryExpression_token G n x.kind x.name ht

theorem parsePostfixLoop_stop (G : Productions) (n expr : ℕ) {p : Parser}
    (h : EndsPostfix p.currentToken) : parsePostfixLoop G (n + 1) expr p = .ok expr p := by
  have hskip : ∀ s ∈ ["[", "(", ".", "->", "++", "--"], skipPunctuator s p = .ok false p :=
    fun s hs => skipPunctuator_of_not (h s hs)
  rw [parsePostfixLoop]
  iterate 6
    rw [bind_ok (hskip _ (by simp))]
    simp only [Bool.false_eq_true, if_false]
  rfl

/-- A cast expression that is a lone operand. -/
theorem parseCastExpression_operand (G : Productions) (n : ℕ) (x : Operand) {p : Parser}
    (ht : p.tokens[p.current]? = some x.token)
    (hend : EndsPostfix ({ p with current := p.current + 1 } : Parser).currentToken) :
    parseCastExpression G (n + 4) p =
      .ok (buildLeaf x p.arena).1
        { p with arena := (buildLeaf x p.arena).2, current := p.current + 1 } := by
  have hcur : p.currentToken = x.token := by simp [Parser.currentToken, ht]
  have hkind : x.token.kind ≠ .punctuator := x.kind_ne (by decide) (by decide)
  rw [parseCastExpression, bind_ok (skipPunctuator_of_not (by rw [hcur]; exact isPunct_of_kind hkind))]
  simp only [Bool.false_eq_true, if_false]
  rw [parseUnaryExpression, get_bind, hcur]
  simp only [x.kind_ne (k := .keyword) (by decide) (by decide), prefixOperator, hkind, false_and,
    ne_eq, not_false_eq_true, if_true, if_false]
  rw [parsePostfixExpression, bind_ok (parsePrimaryExpression_operand G n x ht)]
  exact parsePostfixLoop_stop G n _ hend

def tokenAt (tokens : List Token) (k : ℕ) : Token :=
  tokens[k]?.getD (tokens.getLast?.getD default)

/-- From index `k` on the tokens spell the chain, and then the expression ends. -/
def Spells (tokens : List Token) : ℕ → Chain → Prop
  | k, [] => Stops (tokenAt tokens k)
  | k, (o, x) :: rest =>
    tokens[k]? = some o.token ∧ tokens[k + 1]? = some x.token ∧ Spells tokens (k + 2) rest

theorem BinaryOperator.endsPostfix (o : BinaryOperator) : EndsPostfix o.token := by
  intro s hs
  by_contra hp
  simp only [Parser.isPunct, Bool.not_eq_false, Bool.and_eq_true, beq_iff_eq] at hp
  have hb := o.binary
  simp only [binaryOperator, hp, ne_eq, not_true_eq_false, if_false] at hb
  simp only [List.mem_cons, List.not_mem_nil, or_false] at hs
  rcases hs with rfl | rfl | rfl | rfl | rfl | rfl <;> simp at hb

theorem Spells.endsPostfix {tokens : List Token} {k : ℕ} {rest : Chain}
    (h : Spells tokens k rest) : EndsPostfix (tokenAt tokens k) := by
  cases rest with
  | nil => exact h.postfix_
  | cons q rest =>
    rw [tokenAt, h.1]
    exact q.1.endsPostfix

theorem Spells.drop {tokens : List Token} {k : ℕ} {a b : Chain}
    (h : Spells tokens k (a ++ b)) : Spells tokens (k + 2 * a.length) b := by
  induction a generalizing k with
  | nil => exact h
  | cons q a ih =>
    have := ih h.2.2
    rwa [show k + 2 + 2 * a.length = k + 2 * (q :: a).length by simp only [List.length_cons]; omega]
      at this

/-- The state after the tokens of the tree are read and its nodes allocated. -/
def Parser.after (p : Parser) (t : ExprTree) : Parser :=
  { p with arena := (build t p.arena).2, current := p.current + 1 + 2 * t.rest.length }

/-- `t` takes from the chain all it can above the precedence `prec`. -/
structure Takes (prec : ℕ) (first : Operand) (rest : Chain) (t : ExprTree) (left : Chain) :
    Prop where
  first : t.first = first
  rest : t.rest ++ left = rest
  grouped : RightGrouped BinaryOperator.prec t
  above : ∀ q ∈ t.rest, prec < q.1.prec
  stop : ∀ q ∈ left.head?, q.1.prec ≤ prec

/-- The loop of `parse_binary_op`, with the tree `l` built so far, on `len` more operators. -/
def LoopTakes (G : Productions) (len : ℕ) : Prop :=
  ∀ (prec fuel : ℕ) (l : ExprTree) (rest : Chain) (p : Parser), rest.length = len →
    2 * len + 4 ≤ fuel → Spells p.tokens (p.after l).current rest →
    RightGrouped BinaryOperator.prec l → (∀ q ∈ l.rest, prec < q.1.prec) →
    (∀ o ∈ rest.head?, ∀ q ∈ l.rest, o.1.prec < q.1.prec) →
    ∃ t left, Takes prec l.first (l.rest ++ rest) t left ∧
      parseBinaryOpLoop G fuel prec (build l p.arena).1 (p.after l) =
        .ok (build t p.arena).1 (p.after t)

theorem parseBinaryOp_takes {G : Productions} {len : ℕ} (hloop : LoopTakes G len)
    (prec fuel : ℕ) (x : Operand) (rest : Chain) (p : Parser) (hlen : rest.length = len)
    (hfuel : 2 * len + 5 ≤ fuel) (hx : p.tokens[p.current]? = some x.token)
    (hsp : Spells p.tokens (p.current + 1) rest) :
    ∃ t left, Takes prec x rest t left ∧
      parseBinaryOp G fuel prec p = .ok (build t p.arena).1 (p.after t) := by
  obtain ⟨n, rfl⟩ : ∃ n, fuel = n + 5 := ⟨fuel - 5, by omega⟩
  obtain ⟨t, left, htakes, heq⟩ := hloop prec (n + 4) (leaf x) rest p hlen (by omega) hsp
    (.leaf x) (by simp [OpTree.rest]) (by simp [OpTree.rest])
  refine ⟨t, left, htakes, ?_⟩
  rw [parseBinaryOp, bind_ok (parseCastExpression_operand G n x hx hsp.endsPostfix)]
  exact heq

/-- The tree grown by the operator `q` and its right operand `r`. -/
theorem Takes.grow {l r : ExprTree} {q : BinaryOperator × Operand} {rest left : Chain}
    (hl : RightGrouped BinaryOperator.prec l) (hnext : ∀ p ∈ l.rest, q.1.prec < p.1.prec)
    (hr : Takes (q.1.prec - 1) q.2 rest r left) (hpos : 0 < q.1.prec) :
    RightGrouped BinaryOperator.prec (node q.1 l r) ∧
      (∀ o ∈ left.head?, ∀ p ∈ (node q.1 l r).rest, o.1.prec < p.1.prec) := by
  constructor
  · refine .node _ _ _ hl hr.grouped hnext fun p hp => ?_
    have := hr.above p hp
    omega
  · intro o ho p hp
    have hstop := hr.stop o ho
    simp only [OpTree.rest, List.mem_append, List.mem_cons] at hp
    rcases hp with hp | rfl | hp
    · have := hnext p hp
      omega
    · show o.1.prec < q.1.prec
      omega
    · have := hr.above p hp
      omega

theorem after_node (p : Parser) (o : BinaryOperator) (l r : ExprTree) :
    p.after (node o l r) =
      let p' := ({ p.after l with current := (p.after l).current + 1 } : Parser).after r
      let operands := p'.arena.put
        ⟨0, true, 0, (build l p.arena).1, (build r (build l p.arena).2).1, 0⟩
      { p' with arena := (operands.2.put ⟨64, true, 0, operands.1, 0, o.code⟩).2 } := by
  simp only [Parser.after, build, OpTree.rest, List.length_append, List.length_cons,
    Parser.mk.injEq, true_and, and_true]
  omega

theorem parseBinaryOpLoop_takes (G : Productions) (len : ℕ) : LoopTakes G len := by
  induction len using Nat.strongRecOn with
  | ind len ih =>
    intro prec fuel l rest p hlen hfuel hsp hl habove hnext
    obtain ⟨fuel, rfl⟩ : ∃ m, fuel = m + 1 := ⟨fuel - 1, by omega⟩
    have hcur : (p.after l).currentToken = tokenAt p.tokens (p.after l).current := rfl
    rw [parseBinaryOpLoop, get_bind]
    cases rest with
    | nil =>
      refine ⟨l, [], ⟨rfl, rfl, hl, habove, by simp⟩, ?_⟩
      have hzero : (binaryOperator (tokenAt p.tokens (p.after l).current)).1 = 0 := hsp.binary
      simp only [hcur, hzero, true_or, if_true]
      rfl
    | cons q rest =>
      obtain ⟨ho, hx, hsp⟩ := hsp
      have htok : (p.after l).currentToken = q.1.token := by rw [hcur, tokenAt, ho]; rfl
      have hprec : (binaryOperator q.1.token).1 = q.1.prec := rfl
      have hpos : 0 < q.1.prec := q.1.binary
      simp only [List.length_cons] at hlen
      simp only [htok, hprec]
      by_cases hle : q.1.prec ≤ prec
      · refine ⟨l, q :: rest, ⟨rfl, rfl, hl, habove, by simpa using hle⟩, ?_⟩
        simp only [hle, or_true, if_true]
        rfl
      · rw [if_neg (by omega), bind_ok (advance_eq (List.getElem?_eq_some_iff.1 ho).1)]
        -- the right operand, read with the precedence below the operator's
        obtain ⟨r, left, hr, hreq⟩ := parseBinaryOp_takes (ih rest.length (by omega))
          (q.1.prec - 1) fuel q.2 rest { p.after l with current := (p.after l).current + 1 } rfl
          (by omega) hx hsp
        obtain ⟨hgroup, hnext'⟩ := hr.grow hl (hnext q (by simp)) hpos
        have hrest := hr.rest
        have hleft : left.length ≤ rest.length := by rw [← hrest]; simp
        rw [bind_ok hreq, bind_ok (allocNode_eq _ _ _ _ _ _), bind_ok (allocNode_eq _ _ _ _ _ _)]
        have hsp' : Spells p.tokens (p.after (node q.1 l r)).current left := by
          rw [← hrest] at hsp
          have hindex : (p.after (node q.1 l r)).current =
              (p.after l).current + 2 + 2 * r.rest.length := by
            simp only [Parser.after, OpTree.rest, List.length_append, List.length_cons]
            omega
          rw [hindex]
          exact hsp.drop
        have habove' : ∀ o ∈ (node q.1 l r).rest, prec < o.1.prec := by
          intro o hop
          simp only [OpTree.rest, List.mem_append, List.mem_cons] at hop
          rcases hop with hop | rfl | hop
          · exact habove o hop
          · exact Nat.lt_of_not_le hle
          · have := hr.above o hop
            omega
        obtain ⟨t, left', ht, hteq⟩ := ih left.length (by omega) prec fuel (node q.1 l r) left p rfl
          (by omega) hsp' hgroup habove' hnext'
        refine ⟨t, left', ⟨ht.first, ?_, ht.grouped, ht.above, ht.stop⟩, ?_⟩
        · rw [ht.rest, ← hrest, OpTree.rest, hr.first, List.append_assoc, List.cons_append]
        · rw [← hteq, after_node]
          rfl

theorem Operand.stops (x : Operand) : Stops x.token := by
  have hkind : x.token.kind ≠ .punctuator := x.kind_ne (by decide) (by decide)
  have hpunct : ∀ s, Parser.isPunct x.token s = false := fun s => isPunct_of_kind hkind
  exact ⟨fun s _ => hpunct s, by simp [binaryOperator, hkind], hpunct _,
    by simp [assignmentOperator, hkind], hpunct _⟩

theorem spells_spelled {tokens : List Token} {k : ℕ} {first : Operand} {rest : Chain}
    {tail : List Token} (h : tokens.drop k = spelled first rest ++ tail)
    (hstop : ∀ t ∈ tail.head?, Stops t) :
    tokens[k]? = some first.token ∧ Spells tokens (k + 1) rest := by
  have hget : ∀ i, tokens[k + i]? = (spelled first rest ++ tail)[i]? := by
    intro i
    rw [← h, List.getElem?_drop]
  refine ⟨by simpa [spelled] using hget 0, ?_⟩
  induction rest generalizing k first with
  | nil =>
    rw [spelled, List.flatMap_nil, List.cons_append, List.nil_append] at h
    show Stops (tokenAt tokens (k + 1))
    cases tail with
    | nil =>
      -- past the end the last token, an operand, is read again
      have hlast : tokens.getLast? = some first.token := by
        rw [← List.take_append_drop k tokens, h, List.getLast?_concat]
      have hnone : tokens[k + 1]? = none := by simpa [spelled] using hget 1
      rw [tokenAt, hnone, hlast]
      exact first.stops
    | cons t tail =>
      have hsome : tokens[k + 1]? = some t := by simpa [spelled] using hget 1
      rw [tokenAt, hsome]
      exact hstop t rfl
  | cons q rest ih =>
    have hdrop : tokens.drop (k + 2) = spelled q.2 rest ++ tail := by
      rw [← List.drop_drop, h]
      rfl
    refine ⟨by simpa [spelled] using hget 1, by simpa [spelled] using hget 2, ?_⟩
    exact ih hdrop fun i => by rw [← hdrop, List.getElem?_drop]

/-- `parse_expression` reads the whole chain and groups it to the right. -/
theorem parseExpression_chain (G : Productions) {p : Parser} {first : Operand} {rest : Chain}
    {tail : List Token} (h : p.tokens.drop p.current = spelled first rest ++ tail)
    (hstop : ∀ t ∈ tail.head?, Stops t) {fuel : ℕ} (hfuel : 2 * rest.length + 9 ≤ fuel) :
    ∃ t : ExprTree, t.first = first ∧ t.rest = rest ∧ RightGrouped BinaryOperator.prec t ∧
      parseExpression G fuel p = .ok (build t p.arena).1 (p.after t) := by
  obtain ⟨hx, hsp⟩ := spells_spelled h hstop
  obtain ⟨n, rfl⟩ : ∃ n, fuel = n + 4 := ⟨fuel - 4, by omega⟩
  obtain ⟨t, left, ht, heq⟩ := parseBinaryOp_takes (parseBinaryOpLoop_takes G rest.length) 0 n
    first rest p rfl (by omega) hx hsp
  -- every operator has a precedence above 0, so none is left
  have hnil : left = [] := by
    cases left with
    | nil => rfl
    | cons q left =>
      have := ht.stop q rfl
      have : 0 < q.1.prec := q.1.binary
      omega
  have hrest : t.rest = rest := by rw [← ht.rest, hnil, List.append_nil]
  have hend : Stops (p.after t).currentToken := by
    have := (show Spells p.tokens (p.current + 1) (t.rest ++ []) by
      rwa [List.append_nil, hrest]).drop
    exact this
  refine ⟨t, ht.first, hrest, ht.grouped, ?_⟩
  have hcond : parseConditionalExpression G (n + 1) p = .ok (build t p.arena).1 (p.after t) := by
    rw [parseConditionalExpression, bind_ok heq, bind_ok (skipPunctuator_of_not hend.conditional)]
    rfl
  have hassign : parseAssignmentExpression G (n + 2) p =
      .ok (build t p.arena).1 (p.after t) := by
    rw [parseAssignmentExpression, bind_ok hcond, get_bind, hend.assignment]
    rfl
  rw [parseExpression, parseCommaExpression, bind_ok hassign,
    bind_ok (skipPunctuator_of_not hend.comma)]
  rfl

end Parse

section Prescribed

/-- With enough fuel `parse_expression` returns the tree C prescribes: operands and
operators in their order, the last operator of the lowest precedence at every root. -/
def ParsesAsC (G : Productions) (p : Parser) (first : Operand) (rest : Chain) : Prop :=
  ∃ N, ∀ fuel, N ≤ fuel → ∃ off p', parseExpression G fuel p = .ok off p' ∧
    ∃ t : ExprTree, t.first = first ∧ t.rest = rest ∧ LeftGrouped BinaryOperator.prec t ∧
      ExprAt p'.arena off t

variable {G : Productions} {p : Parser} {first : Operand} {rest : Chain} {tail : List Token}

theorem parsesAsC_of_noTie (h : p.tokens.drop p.current = spelled first rest ++ tail)
    (hstop : ∀ t ∈ tail.head?, Stops t) (hroom : Room p.arena first rest)
    (hno : NoTie BinaryOperator.prec rest) : ParsesAsC G p first rest := by
  refine ⟨2 * rest.length + 9, fun fuel hfuel => ?_⟩
  obtain ⟨t, rfl, rfl, hright, heq⟩ := parseExpression_chain G h hstop hfuel
  refine ⟨_, _, heq, t, rfl, rfl, (hright.leftGrouped_iff _).2 hno, ?_⟩
  exact (exprAt_build_iff hroom.nodes (Arena.Extends.refl _)).2 hroom.strings

theorem room_and_noTie_of_parsesAsC (h : p.tokens.drop p.current = spelled first rest ++ tail)
    (hstop : ∀ t ∈ tail.head?, Stops t) (hc : ParsesAsC G p first rest) :
    Room p.arena first rest ∧ NoTie BinaryOperator.prec rest := by
  obtain ⟨N, hc⟩ := hc
  obtain ⟨off, p', hrun, u, hfirst, hrest, hleft, hat⟩ := hc (max N (2 * rest.length + 9))
    (Nat.le_max_left _ _)
  obtain ⟨t, rfl, rfl, hright, heq⟩ := parseExpression_chain G h hstop
    (Nat.le_max_right N (2 * rest.length + 9))
  rw [heq] at hrun
  cases hrun
  have hnodes : p.arena.nodeAllocated + 3 * t.rest.length + 1 ≤ p.arena.nodeCapacity := by
    by_contra hfull
    rw [(build_full (Nat.not_le.1 hfull)).1] at hat
    exact not_nodesAt_null _ _ _ hat
  -- the returned nodes have one shape only, so C's tree is the one that was built
  have hshape := (nodesAt_build hnodes (Arena.Extends.refl _)).shape_eq hat
  obtain rfl : t = u := eq_of_map_eq _ _ hshape hfirst.symm hrest.symm
  exact ⟨⟨hnodes, (exprAt_build_iff hnodes (Arena.Extends.refl _)).1 hat⟩,
    (hright.leftGrouped_iff _).1 hleft⟩

end Prescribed

section Runs

def noProductions : Productions :=
  let fail {α : Type} : ParserM α := throw (.parse ⟨"", 0, 0⟩)
  ⟨fail, fail, fail, fail, fail, fail, fail, fun _ => fail⟩

def nameToken (text : String) : Token := ⟨.identifier, text, 1, 1, ""⟩
def operatorToken (text : String) : Token := ⟨.punctuator, text, 1, 1, ""⟩

def operandA : Operand := ⟨nameToken "a", .inl rfl, by decide, by decide, by decide⟩
def operandB : Operand := ⟨nameToken "b", .inl rfl, by decide, by decide, by decide⟩
def operandC : Operand := ⟨nameToken "c", .inl rfl, by decide, by decide, by decide⟩
def minus : BinaryOperator := ⟨operatorToken "-", by decide⟩
def times : BinaryOperator := ⟨operatorToken "*", by decide⟩

/-- A parser in front of the tokens, with the arena of the parser's tests. -/
def parserAt (tokens : List Token) : Parser :=
  { arena := (Arena.new 1024).get rfl
    tokens
    current := 0
    typedefNames := fun _ => false
    typedefKinds := fun _ => none
    constantInts := fun _ => none }

end Runs

end OpticC
