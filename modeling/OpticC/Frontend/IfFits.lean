import OpticC.Frontend.IfExpansion

/-! The lines whose expansions are operands where they stand: each is an expression that binds
at least as tightly as the operators around it need. -/

namespace OpticC.Preprocessor

open Enumerators (UnaryOp BinaryOp)

section Fits

/-- A text that is neither an operator in front of an operand, nor a parenthesis, nor `defined`. -/
def Word (text : String) : Prop :=
  text ≠ "(" ∧ text ≠ "defined" ∧ ∀ op, text ≠ unaryText op

variable (env : IfEnv)

/-- A token that is an operand by itself. -/
def PlainToken (t : PpToken) : Prop :=
  Word t.text ∧ (t.kind = .number ∨ t.kind = .charLit ∨
    t.kind = .identifier ∧ featureProbe env t.text = none ∧ env.macros.lookup t.text = none)

def tokenValue (t : PpToken) : BitVec 64 :=
  match t.kind with
  | .number => parseIntLiteral t.text
  | .charLit => parseCharLiteral t.text
  | _ => 0

def IsPlain (o : IfOperand) : Prop :=
  ∃ gap t, o.tokens = gap ++ [t] ∧ (∀ g ∈ gap, g.kind = .whitespace) ∧ PlainToken env t ∧
    o.value = .ok (tokenValue t)

/-- What the evaluator reads next: an operand for an operator that takes those of level `k` and
above, or an operator behind an operand of level `l`. -/
inductive Place where
  | operand (k : ℕ)
  | operator (l : ℕ)

/-- An operator of precedence `q` takes the operand of level `l` in front of it as a whole. The
levels of `==` and `<` take no operator of their own. -/
def TakesLeft (l q : ℕ) : Prop := q < l ∨ q = l ∧ q ≠ 6 ∧ q ≠ 7

/-- The level at which the right operand is read. -/
def rightLevel (op : BinaryOp) : ℕ :=
  if binaryPrecedence op = 6 then 6 else binaryPrecedence op + 1

/-- A token that the evaluator gives up on where an operand should be. -/
def Refused (t : PpToken) (rest : List PpToken) : Prop :=
  t.text ≠ "(" ∧ (∀ op, t.text ≠ unaryText op) ∧
    ((t.kind = .identifier ∧ ∃ e, unexpandedOperand env t rest = some (.error e)) ∨
      t.kind ≠ .identifier ∧ t.kind ≠ .number ∧ t.kind ≠ .charLit ∧ t.text ≠ "defined")

/-- A token at which every level stops. -/
def Stopping (t : PpToken) : Prop :=
  (∀ op, t.text ≠ binaryText op) ∧ t.text ≠ "?" ∧ t.text ≠ ":" ∧ t.text ≠ ")"

/-- Each invocation that the evaluator comes to as an operand expands to an expression that is
an operand in its place, and no function-like macro is named as an operand without arguments.
Where the evaluator stops, nothing is asked of what follows. -/
inductive Fits : Place → List PpToken → Prop where
  | nil (p : Place) : Fits p []
  | gap {p : Place} {t : PpToken} {rest : List PpToken} (hkind : t.kind = .whitespace)
      (hrest : Fits p rest) : Fits p (t :: rest)
  | unary {k : ℕ} {t : PpToken} {rest : List PpToken} (op : UnaryOp)
      (hkind : t.kind = .punctuator) (htext : t.text = unaryText op)
      (hrest : Fits (.operand 11) rest) : Fits (.operand k) (t :: rest)
  | opening {k : ℕ} {t : PpToken} {rest : List PpToken} (hkind : t.kind = .punctuator)
      (htext : t.text = "(") (hrest : Fits (.operand 0) rest) : Fits (.operand k) (t :: rest)
  | plain {k : ℕ} {t : PpToken} {rest : List PpToken} (ht : PlainToken env t)
      (hrest : Fits (.operator 12) rest) : Fits (.operand k) (t :: rest)
  | unexpanded {k : ℕ} {t : PpToken} {rest behind : List PpToken} {v : BitVec 64}
      (hkind : t.kind = .identifier) (htext : t.text ≠ "(" ∧ ∀ op, t.text ≠ unaryText op)
      (hoperand : unexpandedOperand env t rest = some (.ok (v, behind)))
      (hrest : Fits (.operator 12) behind) : Fits (.operand k) (t :: rest)
  | expanded {k : ℕ} {t : PpToken} {rest behind : List PpToken} {expansion : List Token}
      {e : OperandTree} {gap : List PpToken} (hkind : t.kind = .identifier) (htext : Word t.text)
      (hoperand : unexpandedOperand env t rest = none)
      (hinv : invocation env t.text rest = some (.ok expansion, behind))
      (htokens : ifMacroLine expansion = e.tokens ++ gap) (hgap : ∀ g ∈ gap, g.kind = .whitespace)
      (he : e.Readable (IsPlain env)) (hpos : 1 ≤ e.level) (hlevel : k ≤ e.level)
      (hrest : Fits (.operator e.level) behind) : Fits (.operand k) (t :: rest)
  | refused {k : ℕ} {t : PpToken} {rest : List PpToken} (hkind : t.kind ≠ .whitespace)
      (ht : Refused env t rest) : Fits (.operand k) (t :: rest)
  | binary {l : ℕ} {t : PpToken} {rest : List PpToken} (op : BinaryOp)
      (hkind : t.kind = .punctuator) (htext : t.text = binaryText op)
      (hleft : TakesLeft l (binaryPrecedence op)) (hrest : Fits (.operand (rightLevel op)) rest) :
      Fits (.operator l) (t :: rest)
  | select {l : ℕ} {t : PpToken} {rest : List PpToken} (hkind : t.kind = .punctuator)
      (htext : t.text = "?" ∨ t.text = ":") (hrest : Fits (.operand 0) rest) :
      Fits (.operator l) (t :: rest)
  | closing {l : ℕ} {t : PpToken} {rest : List PpToken} (hkind : t.kind = .punctuator)
      (htext : t.text = ")") (hrest : Fits (.operator 12) rest) : Fits (.operator l) (t :: rest)
  /-- What the expanded line has here is no operator either. -/
  | stopped {l : ℕ} {t : PpToken} {rest : List PpToken} (hkind : t.kind ≠ .whitespace)
      (ht : Stopping t) (hline : ∀ line, expandIfLine env (t :: rest) = .ok line →
        ∃ t' more, skipWhitespace line = t' :: more ∧ Stopping t') : Fits (.operator l) (t :: rest)

variable {env}

theorem TakesLeft.mono {l l' q : ℕ} (h : TakesLeft l q) (hl : l ≤ l') : TakesLeft l' q := by
  rcases h with h | ⟨rfl, h6, h7⟩
  · exact .inl (Nat.lt_of_lt_of_le h hl)
  · rcases Nat.lt_or_eq_of_le hl with hlt | rfl
    · exact .inl hlt
    · exact .inr ⟨rfl, h6, h7⟩

theorem OperandTree.level_le (e : OperandTree) : e.level ≤ 12 := by
  cases e with
  | operand o => exact Nat.le_refl _
  | paren opening e closing => exact Nat.le_refl _
  | unary op m e => exact Nat.le_succ _
  | binary op l m r => exact Nat.le_trans (binaryPrecedence_bounds op).2 (by decide)
  | cond c question x colon y => exact Nat.zero_le _

/-- Behind an operand of a higher level more operators fit. -/
theorem Fits.operator_mono {l l' : ℕ} {tokens : List PpToken} (h : Fits env (.operator l) tokens)
    (hl : l ≤ l') : Fits env (.operator l') tokens := by
  generalize hp : Place.operator l = p at h
  induction h with
  | nil p => exact .nil _
  | gap hkind hrest ih => exact .gap hkind (ih hp)
  | binary op hkind htext hleft hrest =>
    cases hp
    exact .binary op hkind htext (hleft.mono hl) hrest
  | select hkind htext hrest => exact .select hkind htext hrest
  | closing hkind htext hrest => exact .closing hkind htext hrest
  | stopped hkind ht hline => exact .stopped hkind ht hline
  | unary | opening | plain | unexpanded | expanded | refused => cases hp

/-- The evaluator comes to a place of `ts` and, on the expanded line, to the same place of
`ts'`, up to whitespace. -/
def SamePlace (env : IfEnv) (p : Place) (ts ts' : List PpToken) : Prop :=
  ∃ us us', Fits env p us ∧ expandIfLine env us = .ok us' ∧
    skipWhitespace ts = skipWhitespace us ∧ skipWhitespace ts' = skipWhitespace us'

theorem SamePlace.operator_mono {l l' : ℕ} {ts ts' : List PpToken}
    (h : SamePlace env (.operator l) ts ts') (hl : l ≤ l') : SamePlace env (.operator l') ts ts' := by
  obtain ⟨us, us', hfits, hline, hskip, hskip'⟩ := h
  exact ⟨us, us', hfits.operator_mono hl, hline, hskip, hskip'⟩

theorem Fits.expands {p : Place} {ts ts' : List PpToken} (h : Fits env p ts)
    (hline : expandIfLine env ts = .ok ts') : SamePlace env p ts ts' :=
  ⟨ts, ts', h, hline, rfl, rfl⟩

theorem SamePlace.skip {p : Place} {ts ts' us us' : List PpToken} (h : SamePlace env p ts ts')
    (hskip : skipWhitespace us = skipWhitespace ts)
    (hskip' : skipWhitespace us' = skipWhitespace ts') : SamePlace env p us us' := by
  obtain ⟨vs, vs', hfits, hline, h1, h2⟩ := h
  exact ⟨vs, vs', hfits, hline, hskip.trans h1, hskip'.trans h2⟩

end Fits

section Operators

variable {env : IfEnv}

/-- An operand is no empty list of tokens. -/
theorem Fits.line_nil {k : ℕ} {ts ts' : List PpToken} (h : Fits env (.operand k) ts)
    (hline : expandIfLine env ts = .ok ts') : ts = [] ↔ ts' = [] := by
  constructor
  · rintro rfl
    rw [expandIfLine] at hline
    exact (Except.ok.inj hline).symm
  · rintro rfl
    cases ts with
    | nil => rfl
    | cons t rest =>
      exfalso
      by_cases hident : t.kind = .identifier
      · cases h with
        | gap hkind hrest => exact absurd (hident.symm.trans hkind) (by decide)
        | unary op hkind => exact absurd (hident.symm.trans hkind) (by decide)
        | opening hkind => exact absurd (hident.symm.trans hkind) (by decide)
        | plain ht hrest =>
          obtain ⟨hword, hnum | hchar | ⟨-, hprobe, hlookup⟩⟩ := ht
          · exact absurd (hident.symm.trans hnum) (by decide)
          · exact absurd (hident.symm.trans hchar) (by decide)
          · have hpart : linePart env t rest = .copy := by
              rw [linePart, if_neg (not_not.2 hident), unexpandedOperand, if_neg hword.2.1, hprobe]
              simp only [Option.map_none, invocation, hlookup]
            obtain ⟨line', -, h'⟩ := expandIfLine_copy (hident ▸ by decide) hpart hline
            cases h'
        | unexpanded hkind htext hoperand hrest =>
          obtain ⟨part, line', -, -, h'⟩ := expandIfLine_operand hident hoperand hline
          cases h'
        | @expanded k t rest behind expansion e gap hkind htext hoperand hinv htokens =>
          obtain ⟨line', -, h'⟩ := expandIfLine_replace hident hoperand hinv hline
          rw [htokens] at h'
          exact e.tokens_ne_nil (List.append_eq_nil_iff.1 (List.append_eq_nil_iff.1 h'.symm).1).1
        | refused hkind ht =>
          obtain ⟨-, -, ⟨-, e, hoperand⟩ | ⟨hne, -⟩⟩ := ht
          · rw [expandIfLine_malformed hident hoperand] at hline
            cases hline
          · exact hne hident
      · obtain ⟨line', h'⟩ := expandIfLine_token hident hline
        cases h'

/-- A punctuator goes into the expanded line, and no white space is skipped in front of it. -/
theorem expandIfLine_punctuator {t : PpToken} {rest ts' : List PpToken} (hkind : t.kind = .punctuator)
    (hline : expandIfLine env (t :: rest) = .ok ts') :
    ∃ rest', expandIfLine env rest = .ok rest' ∧ ts' = t :: rest' ∧
      skipWhitespace (t :: rest) = t :: rest ∧ skipWhitespace (t :: rest') = t :: rest' := by
  obtain ⟨rest', hrest, rfl⟩ := expandIfLine_copy (hkind ▸ by decide)
    (linePart_token (hkind ▸ by decide) rest) hline
  have hgap : t.kind ≠ .whitespace := hkind ▸ by decide
  exact ⟨rest', hrest, rfl, skipWhitespace_cons hgap _, skipWhitespace_cons hgap _⟩

/-- White space in front of a line is skipped there and in the expanded line. -/
theorem expandIfLine_gap {t : PpToken} {rest ts' : List PpToken} (hkind : t.kind = .whitespace)
    (hline : expandIfLine env (t :: rest) = .ok ts') :
    ∃ rest', expandIfLine env rest = .ok rest' ∧ skipWhitespace (t :: rest) = skipWhitespace rest ∧
      skipWhitespace ts' = skipWhitespace rest' := by
  obtain ⟨rest', hrest, rfl⟩ := expandIfLine_copy (hkind ▸ by decide)
    (linePart_token (hkind ▸ by decide) rest) hline
  exact ⟨rest', hrest, skipWhitespace_cons_gap hkind _, skipWhitespace_cons_gap hkind _⟩

/-- What stands at a place where an operator may follow. -/
inductive OperatorHead (env : IfEnv) (l : ℕ) : List PpToken → List PpToken → Prop where
  | nil : OperatorHead env l [] []
  | binary {t : PpToken} {rest rest' : List PpToken} (op : BinaryOp) (htext : t.text = binaryText op)
      (hleft : TakesLeft l (binaryPrecedence op)) (hnil : rest = [] ↔ rest' = [])
      (hrest : SamePlace env (.operand (rightLevel op)) rest rest') :
      OperatorHead env l (t :: rest) (t :: rest')
  | select {t : PpToken} {rest rest' : List PpToken} (htext : t.text = "?" ∨ t.text = ":")
      (hrest : SamePlace env (.operand 0) rest rest') : OperatorHead env l (t :: rest) (t :: rest')
  | closing {t : PpToken} {rest rest' : List PpToken} (htext : t.text = ")")
      (hrest : SamePlace env (.operator 12) rest rest') : OperatorHead env l (t :: rest) (t :: rest')
  | stopped {t t' : PpToken} {rest rest' : List PpToken} (ht : Stopping t) (ht' : Stopping t') :
      OperatorHead env l (t :: rest) (t' :: rest')

theorem Fits.operator_head {l : ℕ} {ts ts' : List PpToken} (h : Fits env (.operator l) ts)
    (hline : expandIfLine env ts = .ok ts') :
    OperatorHead env l (skipWhitespace ts) (skipWhitespace ts') := by
  generalize hp : Place.operator l = p at h
  induction h generalizing ts' with
  | nil p =>
    rw [expandIfLine] at hline
    cases hline
    exact .nil
  | @gap p t rest hkind hrest ih =>
    obtain ⟨rest', hrest', hskip, hskip'⟩ := expandIfLine_gap hkind hline
    rw [hskip, hskip']
    exact ih hrest' hp
  | binary op hkind htext hleft hrest =>
    cases hp
    obtain ⟨rest', hrest', rfl, hskip, hskip'⟩ := expandIfLine_punctuator hkind hline
    rw [hskip, hskip']
    exact .binary op htext hleft (hrest.line_nil hrest') (hrest.expands hrest')
  | select hkind htext hrest =>
    obtain ⟨rest', hrest', rfl, hskip, hskip'⟩ := expandIfLine_punctuator hkind hline
    rw [hskip, hskip']
    exact .select htext (hrest.expands hrest')
  | closing hkind htext hrest =>
    obtain ⟨rest', hrest', rfl, hskip, hskip'⟩ := expandIfLine_punctuator hkind hline
    rw [hskip, hskip']
    exact .closing htext (hrest.expands hrest')
  | stopped hkind ht hstop =>
    obtain ⟨t', more, hskip, ht'⟩ := hstop _ hline
    rw [hskip, skipWhitespace_cons hkind]
    exact .stopped ht ht'
  | unary | opening | plain | unexpanded | expanded | refused => cases hp

theorem SamePlace.operator_head {l : ℕ} {ts ts' : List PpToken}
    (h : SamePlace env (.operator l) ts ts') :
    OperatorHead env l (skipWhitespace ts) (skipWhitespace ts') := by
  obtain ⟨us, us', hfits, hline, hskip, hskip'⟩ := h
  rw [hskip, hskip']
  exact hfits.operator_head hline

theorem binaryText_ne (op : BinaryOp) :
    binaryText op ≠ "?" ∧ binaryText op ≠ ":" ∧ binaryText op ≠ ")" := by
  cases op <;> decide

theorem OperatorHead.precedence_lt {l k : ℕ} {us us' : List PpToken}
    (h : OperatorHead env l us us') (hk : ∀ q, TakesLeft l q → q < k) :
    (∀ t more, us = t :: more → ∀ op, t.text = binaryText op → binaryPrecedence op < k) ∧
      ∀ t more, us' = t :: more → ∀ op, t.text = binaryText op → binaryPrecedence op < k := by
  have hsame : ∀ {t : PpToken} {rest rest' : List PpToken},
      (∀ op, t.text = binaryText op → binaryPrecedence op < k) →
      (∀ u more, t :: rest = u :: more → ∀ op, u.text = binaryText op → binaryPrecedence op < k) ∧
        ∀ u more, t :: rest' = u :: more → ∀ op, u.text = binaryText op →
          binaryPrecedence op < k :=
    fun hop => ⟨fun u more hu => (List.cons.inj hu).1 ▸ hop, fun u more hu => (List.cons.inj hu).1 ▸ hop⟩
  cases h with
  | nil => exact ⟨fun t more h => (nomatch h), fun t more h => (nomatch h)⟩
  | binary op htext hleft =>
    refine hsame fun op' htext' => ?_
    rw [binaryText_injective (htext'.symm.trans htext)]
    exact hk _ hleft
  | select htext =>
    refine hsame fun op' htext' => ?_
    rcases htext with htext | htext
    · exact absurd (htext'.symm.trans htext) (binaryText_ne op').1
    · exact absurd (htext'.symm.trans htext) (binaryText_ne op').2.1
  | closing htext =>
    exact hsame fun op' htext' => absurd (htext'.symm.trans htext) (binaryText_ne op').2.2
  | stopped ht ht' =>
    exact ⟨fun u more hu op htext => absurd htext ((List.cons.inj hu).1 ▸ ht.1 op),
      fun u more hu op htext => absurd htext ((List.cons.inj hu).1 ▸ ht'.1 op)⟩

/-- Behind an operand of level `l` no operator of a higher level stands. -/
theorem SamePlace.stops {l k : ℕ} {ts ts' : List PpToken} (h : SamePlace env (.operator l) ts ts')
    (hk : ∀ q, TakesLeft l q → q < k) (hpos : 1 ≤ k) : Stops k ts ∧ Stops k ts' := by
  obtain ⟨hleft, hright⟩ := h.operator_head.precedence_lt hk
  have hzero : k ≠ 0 := by omega
  exact ⟨fun t more hskip => ⟨hleft t more hskip, fun h => absurd h hzero⟩,
    fun t more hskip => ⟨hright t more hskip, fun h => absurd h hzero⟩⟩

end Operators

section Operands

variable {env : IfEnv}

/-- How a reading of operands treats the identifiers that are no macros. -/
structure IfHandler (env : IfEnv)
    (handler : (List PpToken → IfResult) → String → List PpToken → IfResult) : Prop where
  probe : ∀ {parseOr name predicate}, featureProbe env name = some predicate →
    ∀ rest, handler parseOr name rest = parseFeatureProbe predicate rest
  plain : ∀ {parseOr name}, featureProbe env name = none → env.macros.lookup name = none →
    ∀ rest, handler parseOr name rest = .ok (0, rest)

theorem parseIfIdentifier_handler : IfHandler env (parseIfIdentifier env) where
  probe h rest := by
    unfold parseIfIdentifier
    simp only [h]
  plain h hlookup rest := by
    unfold parseIfIdentifier
    simp only [h, hlookup]

theorem plainIdentifier_handler : IfHandler env (plainIdentifier env) where
  probe h rest := by
    unfold plainIdentifier
    simp only [h]
  plain h _ rest := by
    unfold plainIdentifier
    simp only [h]

variable {handler : (List PpToken → IfResult) → String → List PpToken → IfResult}

theorem PlainToken.not_whitespace {t : PpToken} (h : PlainToken env t) : t.kind ≠ .whitespace := by
  obtain ⟨-, h | h | ⟨h, -⟩⟩ := h <;> rw [h] <;> decide

theorem PlainToken.primary (hhandler : IfHandler env handler) {t : PpToken}
    (ht : PlainToken env t) (parseOr conditional : List PpToken → IfResult) (rest : List PpToken) :
    parseIfPrimary env (handler parseOr) conditional (t :: rest) = .ok (tokenValue t, rest) := by
  have hgap := ht.not_whitespace
  obtain ⟨⟨hparen, hdefined, -⟩, hkind⟩ := ht
  rw [parseIfPrimary, skipWhitespace_cons hgap, tokenValue]
  simp only [if_neg hparen, if_neg hdefined]
  rcases hkind with hkind | hkind | ⟨hkind, hprobe, hlookup⟩
  · simp only [hkind, if_true]
  · simp only [hkind, if_true, reduceCtorEq, if_false]
  · simp only [hkind, if_true, reduceCtorEq, if_false, hhandler.plain hprobe hlookup]

theorem IsPlain.takes (hhandler : IfHandler env handler) {o : IfOperand} (ho : IsPlain env o)
    (parseOr conditional : List PpToken → IfResult) :
    Takes (parseIfPrimary env (handler parseOr) conditional) o := by
  obtain ⟨gap, t, htokens, hgap, ht, hvalue⟩ := ho
  have hskip : ∀ rest, skipWhitespace (o.tokens ++ rest) = t :: rest := fun rest => by
    rw [htokens, List.append_assoc, skipWhitespace_gap hgap, List.singleton_append,
      skipWhitespace_cons ht.not_whitespace]
  refine ⟨fun rest => ⟨t, rest, hskip rest, ht.1.2.2⟩, fun rest => ?_⟩
  rw [← parseIfPrimary_skip, hskip, ht.primary hhandler, hvalue]
  rfl

/-- `primary` reads `v` from the token on, in front of `behind`. -/
def ReadsToken (env : IfEnv)
    (handler : (List PpToken → IfResult) → String → List PpToken → IfResult) (tokens : List PpToken)
    (v : BitVec 64) (behind : List PpToken) : Prop :=
  ∀ parseOr conditional, ∃ after,
    parseIfPrimary env (handler parseOr) conditional tokens = .ok (v, after) ∧
      skipWhitespace after = skipWhitespace behind

def RefusesToken (env : IfEnv)
    (handler : (List PpToken → IfResult) → String → List PpToken → IfResult)
    (tokens : List PpToken) : Prop :=
  ∀ parseOr conditional, ∃ e,
    parseIfPrimary env (handler parseOr) conditional tokens = .error e

/-- The operand of a `defined` or of a probe is read as it stands. -/
theorem readsToken_unexpanded (hhandler : IfHandler env handler) {t : PpToken}
    {parse : List PpToken → IfResult} (hkind : t.kind = .identifier) (htext : t.text ≠ "(")
    (hparse : ∀ rest, unexpandedOperand env t rest = some (parse rest))
    (parseOr conditional : List PpToken → IfResult) (rest : List PpToken) :
    parseIfPrimary env (handler parseOr) conditional (t :: rest) = parse rest := by
  rw [parseIfPrimary, skipWhitespace_cons (hkind ▸ by decide)]
  simp only [if_neg htext]
  have hrest := hparse rest
  by_cases hdefined : t.text = "defined"
  · rw [unexpandedOperand, if_pos hdefined] at hrest
    rw [if_pos hdefined]
    exact Option.some.inj hrest
  · rw [unexpandedOperand, if_neg hdefined] at hrest
    cases hprobe : featureProbe env t.text with
    | none =>
      rw [hprobe] at hrest
      cases hrest
    | some predicate =>
      rw [hprobe] at hrest
      simp only [if_neg hdefined, hkind, reduceCtorEq, if_false, if_true, hhandler.probe hprobe]
      exact Option.some.inj hrest

theorem Refused.refuses (hhandler : IfHandler env handler) {t : PpToken} {rest rest' : List PpToken}
    (ht : Refused env t rest) (hkind : t.kind ≠ .whitespace)
    (hrest : t.kind = .identifier → rest' = rest) : RefusesToken env handler (t :: rest') := by
  obtain ⟨hparen, -, ⟨hident, e, hoperand⟩ | ⟨hident, hnum, hchar, hdefined⟩⟩ := ht
  · intro parseOr conditional
    obtain ⟨parse, hparse⟩ := unexpandedOperand_total env hoperand
    rw [hrest hident, readsToken_unexpanded hhandler hident hparen hparse]
    exact ⟨e, Option.some.inj ((hparse rest).symm.trans hoperand)⟩
  · intro parseOr conditional
    rw [parseIfPrimary, skipWhitespace_cons hkind]
    simp only [if_neg hparen, if_neg hdefined, if_neg hnum, if_neg hident, if_neg hchar]
    exact ⟨_, rfl⟩

theorem SamePlace.notClosing {l : ℕ} {ts ts' : List PpToken} (h : SamePlace env (.operator l) ts ts')
    (hts : NotClosing ts) : NotClosing ts' := by
  intro t more hskip
  have hhead := h.operator_head
  rw [hskip] at hhead
  generalize hus : skipWhitespace ts = us at hhead
  cases hhead with
  | binary | select | closing => exact hts _ _ hus
  | stopped ht ht' => exact ht'.2.2.2

/-- What stands at the place of an operand, on the line and where it is expanded. -/
inductive OperandHead (env : IfEnv) (k : ℕ) : List PpToken → List PpToken → Prop where
  | nil : OperandHead env k [] []
  | unary {t : PpToken} {rest rest' : List PpToken} (op : UnaryOp) (htext : t.text = unaryText op)
      (hrest : SamePlace env (.operand 11) rest rest') : OperandHead env k (t :: rest) (t :: rest')
  | opening {t : PpToken} {rest rest' : List PpToken} (htext : t.text = "(")
      (hrest : SamePlace env (.operand 0) rest rest') : OperandHead env k (t :: rest) (t :: rest')
  | taken {t : PpToken} {rest rest' behind behind' : List PpToken} {v : BitVec 64}
      (htext : ∀ op, t.text ≠ unaryText op)
      (hleft : ReadsToken env (parseIfIdentifier env) (t :: rest) v behind)
      (hright : ReadsToken env (plainIdentifier env) (t :: rest') v behind')
      (hbehind : SamePlace env (.operator 12) behind behind')
      (hlength : behind.length ≤ rest.length ∧ behind'.length ≤ rest'.length) :
      OperandHead env k (t :: rest) (t :: rest')
  | expanded {t : PpToken} {rest behind behind' gap : List PpToken} {expansion : List Token}
      {e : OperandTree} (hkind : t.kind = .identifier) (htext : Word t.text)
      (hoperand : unexpandedOperand env t rest = none)
      (hinv : invocation env t.text rest = some (.ok expansion, behind))
      (htokens : ifMacroLine expansion = e.tokens ++ gap) (hgap : ∀ g ∈ gap, g.kind = .whitespace)
      (he : e.Readable (IsPlain env)) (hpos : 1 ≤ e.level) (hlevel : k ≤ e.level)
      (hbehind : SamePlace env (.operator e.level) behind behind') :
      OperandHead env k (t :: rest) (skipWhitespace (e.tokens ++ behind'))
  | refused {t : PpToken} {rest rest' : List PpToken} (htext : ∀ op, t.text ≠ unaryText op)
      (hleft : RefusesToken env (parseIfIdentifier env) (t :: rest))
      (hright : RefusesToken env (plainIdentifier env) (t :: rest')) :
      OperandHead env k (t :: rest) (t :: rest')

theorem Fits.operand_head {k : ℕ} {ts ts' : List PpToken} (h : Fits env (.operand k) ts)
    (hline : expandIfLine env ts = .ok ts') :
    OperandHead env k (skipWhitespace ts) (skipWhitespace ts') := by
  generalize hp : Place.operand k = p at h
  induction h generalizing ts' with
  | nil p =>
    rw [expandIfLine] at hline
    cases hline
    exact .nil
  | @gap p t rest hkind hrest ih =>
    obtain ⟨rest', hrest', hskip, hskip'⟩ := expandIfLine_gap hkind hline
    rw [hskip, hskip']
    exact ih hrest' hp
  | unary op hkind htext hrest =>
    obtain ⟨rest', hrest', rfl, hskip, hskip'⟩ := expandIfLine_punctuator hkind hline
    rw [hskip, hskip']
    exact .unary op htext (hrest.expands hrest')
  | opening hkind htext hrest =>
    obtain ⟨rest', hrest', rfl, hskip, hskip'⟩ := expandIfLine_punctuator hkind hline
    rw [hskip, hskip']
    exact .opening htext (hrest.expands hrest')
  | @plain _ t rest ht hrest =>
    have hnewline : t.kind ≠ .newline := by
      obtain ⟨-, h | h | ⟨h, -⟩⟩ := ht <;> rw [h] <;> decide
    have hpart : linePart env t rest = .copy := by
      obtain ⟨hword, h | h | ⟨h, hprobe, hlookup⟩⟩ := ht
      · exact linePart_token (h ▸ by decide) rest
      · exact linePart_token (h ▸ by decide) rest
      · rw [linePart, if_neg (not_not.2 h), unexpandedOperand, if_neg hword.2.1, hprobe]
        simp only [Option.map_none, invocation, hlookup]
    obtain ⟨rest', hrest', rfl⟩ := expandIfLine_copy hnewline hpart hline
    rw [skipWhitespace_cons ht.not_whitespace, skipWhitespace_cons ht.not_whitespace]
    exact .taken ht.1.2.2
      (fun parseOr conditional => ⟨rest, ht.primary parseIfIdentifier_handler _ _ _, rfl⟩)
      (fun parseOr conditional => ⟨rest', ht.primary plainIdentifier_handler _ _ _, rfl⟩)
      (hrest.expands hrest') ⟨Nat.le_refl _, Nat.le_refl _⟩
  | @unexpanded _ t rest behind v hkind htext hoperand hrest =>
    obtain ⟨parse, hparse, part, rfl, htakes⟩ := unexpandedOperand_takes env hoperand
    obtain ⟨part', line', hpart, hbehind, rfl⟩ := expandIfLine_operand hkind hoperand hline
    obtain rfl := List.append_cancel_right hpart
    have hgap : t.kind ≠ .whitespace := hkind ▸ by decide
    have hexpands := hrest.expands hbehind
    rw [skipWhitespace_cons hgap, skipWhitespace_cons hgap]
    have hleft : ReadsToken env (parseIfIdentifier env) (t :: (part ++ behind)) v behind := by
      refine fun parseOr conditional => ⟨behind, ?_, rfl⟩
      rw [readsToken_unexpanded parseIfIdentifier_handler hkind htext.1 hparse]
      exact Option.some.inj ((hparse _).symm.trans hoperand)
    have hright : ReadsToken env (plainIdentifier env) (t :: (part ++ line')) v line' := by
      intro parseOr conditional
      rw [readsToken_unexpanded plainIdentifier_handler hkind htext.1 hparse]
      exact htakes line' hexpands.notClosing
    exact .taken htext.2 hleft hright hexpands (by simp)
  | @expanded _ t rest behind expansion e gap hkind htext hoperand hinv htokens hgap he hpos hlevel
      hrest =>
    cases hp
    obtain ⟨line', hbehind, rfl⟩ := expandIfLine_replace hkind hoperand hinv hline
    rw [skipWhitespace_cons (hkind ▸ by decide), htokens, List.append_assoc]
    exact .expanded hkind htext hoperand hinv htokens hgap he hpos hlevel
      ((hrest.expands hbehind).skip rfl (skipWhitespace_gap hgap line'))
  | @refused _ t rest hkind ht =>
    obtain ⟨rest', rfl, hrest⟩ : ∃ rest', ts' = t :: rest' ∧ (t.kind = .identifier → rest' = rest) := by
      by_cases hident : t.kind = .identifier
      · obtain ⟨-, -, ⟨-, e, hoperand⟩ | ⟨hne, -⟩⟩ := ht
        · rw [expandIfLine_malformed hident hoperand] at hline
          exact ⟨rest, (Except.ok.inj hline).symm, fun _ => rfl⟩
        · exact absurd hident hne
      · obtain ⟨rest', rfl⟩ := expandIfLine_token hident hline
        exact ⟨rest', rfl, fun h => absurd h hident⟩
    rw [skipWhitespace_cons hkind, skipWhitespace_cons hkind]
    exact .refused ht.2.1 (ht.refuses parseIfIdentifier_handler hkind fun _ => rfl)
      (ht.refuses plainIdentifier_handler hkind hrest)
  | binary | select | closing | stopped => cases hp

theorem SamePlace.operand_head {k : ℕ} {ts ts' : List PpToken}
    (h : SamePlace env (.operand k) ts ts') :
    OperandHead env k (skipWhitespace ts) (skipWhitespace ts') := by
  obtain ⟨us, us', hfits, hline, hskip, hskip'⟩ := h
  rw [hskip, hskip']
  exact hfits.operand_head hline

end Operands

end OpticC.Preprocessor
