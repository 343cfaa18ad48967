import OpticC.Frontend.IfTrees

/-! The levels of the `#if` evaluator on the tokens of a tree: each reads the trees of its
level and above, where no chain of equalities or comparisons is in the way. -/

namespace OpticC.Preprocessor

open Enumerators (UnaryOp BinaryOp)

/-- Tokens that `primary` takes as one operand, and what it evaluates to. -/
structure IfOperand where
  tokens : List PpToken
  tokens_ne : tokens ≠ []
  value : Except PreprocessorError (BitVec 64)

inductive OperandTree where
  | operand (o : IfOperand)
  | paren (opening : Mark .punctuator "(") (e : OperandTree) (closing : Mark .punctuator ")")
  | unary (op : UnaryOp) (m : Mark .punctuator (unaryText op)) (e : OperandTree)
  | binary (op : BinaryOp) (l : OperandTree) (m : Mark .punctuator (binaryText op)) (r : OperandTree)
  | cond (c : OperandTree) (question : Mark .punctuator "?") (x : OperandTree)
      (colon : Mark .punctuator ":") (y : OperandTree)

namespace OperandTree

def tokens : OperandTree → List PpToken
  | operand o => o.tokens
  | paren opening e closing => opening.tokens ++ (e.tokens ++ closing.tokens)
  | unary _ m e => m.tokens ++ e.tokens
  | binary _ l m r => l.tokens ++ (m.tokens ++ r.tokens)
  | cond c question x colon y =>
    c.tokens ++ (question.tokens ++ (x.tokens ++ (colon.tokens ++ y.tokens)))

def size : OperandTree → ℕ
  | operand _ => 1
  | paren _ e _ => e.size + 1
  | unary _ _ e => e.size + 1
  | binary _ l _ r => l.size + r.size + 1
  | cond c _ x _ y => c.size + x.size + y.size + 1

def level : OperandTree → ℕ
  | operand _ => 12
  | paren _ _ _ => 12
  | unary _ _ _ => 11
  | binary op _ _ _ => binaryPrecedence op
  | cond _ _ _ _ _ => 0

/-- The value when every operand is computed. -/
def computed : OperandTree → Except PreprocessorError (BitVec 64)
  | operand o => o.value
  | paren _ e _ => e.computed
  | unary op _ e => e.computed.map (ifUnary op)
  | binary op l _ r => l.computed.bind fun x => r.computed.bind fun y => ifOp op x y
  | cond c _ x _ y =>
    c.computed.bind fun v => x.computed.bind fun a => y.computed.bind fun b =>
      .ok (if v != 0 then a else b)

/-- The grammar of C over operands of the kind `P`, less the left-hand chains that the levels
of `==` and `<` do not read. -/
def Readable (P : IfOperand → Prop) : OperandTree → Prop
  | operand o => P o
  | paren _ e _ => e.Readable P
  | unary _ _ e => e.Readable P ∧ 11 ≤ e.level
  | binary op l _ r =>
    l.Readable P ∧ r.Readable P ∧ binaryPrecedence op ≤ l.level ∧ binaryPrecedence op < r.level ∧
      (binaryPrecedence op = 6 ∨ binaryPrecedence op = 7 → l.level ≠ binaryPrecedence op)
  | cond c _ x _ y => c.Readable P ∧ x.Readable P ∧ y.Readable P ∧ 1 ≤ c.level

end OperandTree

theorem bind_eq_ok {α β ε : Type} {x : Except ε α} {f : α → Except ε β} {b : β}
    (h : x.bind f = .ok b) : ∃ a, x = .ok a ∧ f a = .ok b := by
  cases x with
  | error e => cases h
  | ok a => exact ⟨a, rfl, h⟩

section Tokens

theorem skipWhitespace_skipWhitespace (tokens : List PpToken) :
    skipWhitespace (skipWhitespace tokens) = skipWhitespace tokens := by
  unfold skipWhitespace
  induction tokens with
  | nil => rfl
  | cons t rest ih =>
    by_cases ht : t.kind = .whitespace
    · rw [List.dropWhile_cons_of_pos (by simp [ht])]
      exact ih
    · rw [List.dropWhile_cons_of_neg (by simp [ht]), List.dropWhile_cons_of_neg (by simp [ht])]

theorem Mark.skipWhitespace {kind : PpTokenKind} {text : String} (m : Mark kind text)
    (hkind : kind ≠ .whitespace) (rest : List PpToken) :
    skipWhitespace (m.tokens ++ rest) = m.token :: rest := by
  unfold Preprocessor.skipWhitespace
  rw [Mark.tokens, List.append_assoc, List.dropWhile_append_of_pos fun t ht => by
    simp [m.gap_kind t ht]]
  exact List.dropWhile_cons_of_neg (by simp [m.token_kind, hkind])

theorem binaryText_injective {op op' : BinaryOp} (h : binaryText op = binaryText op') :
    op = op' := by
  cases op <;> cases op' <;> first | rfl | exact absurd h (by decide)

/-- What follows is no operator that a tree of level `k` would take. -/
def Stops (k : ℕ) (rest : List PpToken) : Prop :=
  ∀ t more, skipWhitespace rest = t :: more →
    (∀ op, t.text = binaryText op → binaryPrecedence op < k) ∧ (k = 0 → t.text ≠ "?")

theorem Stops.mono {k k' : ℕ} {rest : List PpToken} (h : Stops k rest) (hk : k ≤ k') :
    Stops k' rest := fun t more hskip =>
  ⟨fun op hop => Nat.lt_of_lt_of_le ((h t more hskip).1 op hop) hk,
    fun hzero => (h t more hskip).2 (Nat.le_zero.1 (hzero ▸ hk))⟩

theorem stops_operator {op : BinaryOp} (m : Mark .punctuator (binaryText op))
    (rest : List PpToken) : Stops (binaryPrecedence op + 1) (m.tokens ++ rest) := by
  intro t more hskip
  rw [m.skipWhitespace (by decide)] at hskip
  obtain ⟨rfl, rfl⟩ := List.cons.inj hskip
  refine ⟨fun op' hop' => ?_, fun hzero => nomatch hzero⟩
  rw [binaryText_injective (m.token_text.symm.trans hop')]
  exact Nat.lt_succ_self _

/-- Before a token that is no operator at all. -/
theorem stops_mark {kind : PpTokenKind} {text : String} (m : Mark kind text)
    (hkind : kind ≠ .whitespace) (htext : ∀ op, text ≠ binaryText op) {k : ℕ}
    (hk : k = 0 → text ≠ "?") (rest : List PpToken) : Stops k (m.tokens ++ rest) := by
  intro t more hskip
  rw [m.skipWhitespace hkind] at hskip
  obtain ⟨rfl, rfl⟩ := List.cons.inj hskip
  rw [m.token_text]
  exact ⟨fun op hop => absurd hop (htext op), hk⟩

end Tokens

section Levels

/-- The outcome behind the whitespace that follows it. -/
def skipped (r : IfResult) : IfResult := r.map fun v => (v.1, skipWhitespace v.2)

/-- `parser` reads the trees of level `k` and above that are smaller than `n`, in front of what
stops the level `j`. -/
def Reads (P : IfOperand → Prop) (parser : List PpToken → IfResult) (k j n : ℕ) : Prop :=
  ∀ e : OperandTree, e.Readable P → k ≤ e.level → e.size < n →
    ∀ rest, Stops j rest →
      skipped (parser (e.tokens ++ rest)) = e.computed.map fun v => (v, skipWhitespace rest)

/-- What a reading finds: an error, or a value in front of `rest`. -/
theorem cases_of_skipped {r : IfResult} {value : Except PreprocessorError (BitVec 64)}
    {rest : List PpToken} (h : skipped r = value.map fun v => (v, skipWhitespace rest)) :
    (∃ err, r = .error err ∧ value = .error err) ∨
      ∃ v behind, r = .ok (v, behind) ∧ value = .ok v ∧
        skipWhitespace behind = skipWhitespace rest := by
  cases r with
  | error err =>
    cases value with
    | error err' =>
      injection h with h
      exact .inl ⟨err, rfl, congrArg Except.error h.symm⟩
    | ok v => cases h
  | ok r =>
    cases value with
    | error err => cases h
    | ok v =>
      injection h with h
      obtain ⟨hv, hrest⟩ := Prod.mk.inj h
      exact .inr ⟨v, r.2, by rw [← hv], rfl, hrest⟩

theorem Reads.cases {P : IfOperand → Prop} {parser : List PpToken → IfResult} {k j n : ℕ}
    (h : Reads P parser k j n)
    {e : OperandTree} (he : e.Readable P) (hk : k ≤ e.level) (hn : e.size < n)
    {rest : List PpToken} (hstop : Stops j rest) :
    (∃ err, parser (e.tokens ++ rest) = .error err ∧ e.computed = .error err) ∨
      ∃ v behind, parser (e.tokens ++ rest) = .ok (v, behind) ∧ e.computed = .ok v ∧
        skipWhitespace behind = skipWhitespace rest :=
  cases_of_skipped (h e he hk hn rest hstop)

/-- The operators of a level, as its table knows them. -/
structure OpsAt (ops : String → Option IfOp) (k : ℕ) : Prop where
  of_precedence : ∀ op, binaryPrecedence op = k → ops (binaryText op) = some (ifOp op)
  precedence : ∀ text f, ops text = some f → ∃ op, text = binaryText op ∧ binaryPrecedence op = k

theorem OpsAt.none {ops : String → Option IfOp} {k : ℕ} (h : OpsAt ops k) {rest more : List PpToken}
    {t : PpToken} (hstop : Stops k rest) (hskip : skipWhitespace rest = t :: more) :
    ops t.text = none := by
  cases hop : ops t.text with
  | none => rfl
  | some f =>
    obtain ⟨op, htext, hk⟩ := h.precedence t.text f hop
    exact absurd ((hstop t more hskip).1 op htext) (by omega)

variable {P : IfOperand → Prop} {ops : String → Option IfOp} {next : List PpToken → IfResult}
  {k n fuel : ℕ}

theorem binaryLoop_congr {rest rest' : List PpToken}
    (h : skipWhitespace rest = skipWhitespace rest') (v : BitVec 64) :
    binaryLoop ops next fuel v rest = binaryLoop ops next fuel v rest' := by
  cases fuel with
  | zero => rfl
  | succ fuel => rw [binaryLoop, binaryLoop, h]

theorem binaryPrecedence_bounds (op : BinaryOp) :
    1 ≤ binaryPrecedence op ∧ binaryPrecedence op ≤ 10 := by
  cases op <;> decide

/-- A level reads a tree of the next one, and goes on behind it. -/
theorem binaryLevel_next (hnext : Reads P next (k + 1) (k + 1) n) {e : OperandTree}
    (he : e.Readable P) (hk : k + 1 ≤ e.level) (hn : e.size < n) {rest : List PpToken}
    (hstop : Stops (k + 1) rest) :
    binaryLevel ops next fuel (e.tokens ++ rest) =
      e.computed.bind fun v => binaryLoop ops next fuel v rest := by
  unfold binaryLevel
  rcases hnext.cases he hk hn hstop with ⟨err, hparse, hvalue⟩ |
    ⟨v, behind, hparse, hvalue, hskip⟩
  · rw [hparse, hvalue]
    rfl
  · rw [hparse, hvalue]
    exact binaryLoop_congr hskip v

/-- A level reads the left-associative chain of its operators, and goes on behind it. -/
theorem binaryLevel_chain (hops : OpsAt ops k) (hk : 1 ≤ k ∧ k ≤ 10)
    (hnext : Reads P next (k + 1) (k + 1) n)
    {e : OperandTree} (he : e.Readable P) (hlevel : k ≤ e.level) (hn : e.size < n)
    (hfuel : e.size < fuel) {rest : List PpToken} (hstop : Stops (k + 1) rest) :
    ∃ fuel', fuel ≤ fuel' + e.size ∧ binaryLevel ops next fuel (e.tokens ++ rest) =
      e.computed.bind fun v => binaryLoop ops next fuel' v rest := by
  induction e generalizing rest with
  | operand o =>
    exact ⟨fuel, Nat.le_add_right _ _, binaryLevel_next hnext he
      (Nat.succ_le_succ (Nat.le_trans hk.2 (by decide))) hn hstop⟩
  | paren opening e closing =>
    exact ⟨fuel, Nat.le_add_right _ _, binaryLevel_next hnext he
      (Nat.succ_le_succ (Nat.le_trans hk.2 (by decide))) hn hstop⟩
  | unary op m e =>
    exact ⟨fuel, Nat.le_add_right _ _, binaryLevel_next hnext he
      (Nat.succ_le_succ hk.2) hn hstop⟩
  | cond c question x colon y => exact absurd (Nat.le_trans hk.1 hlevel) (Nat.not_succ_le_zero 0)
  | binary op l m r ihl _ =>
    by_cases hnot : k + 1 ≤ binaryPrecedence op
    · exact ⟨fuel, Nat.le_add_right _ _, binaryLevel_next hnext he hnot hn hstop⟩
    have hop : binaryPrecedence op = k := Nat.le_antisymm (Nat.le_of_lt_succ (Nat.lt_of_not_le hnot)) hlevel
    obtain ⟨hl, hr, hll, hlr, -⟩ := he
    rw [OperandTree.size] at hn hfuel
    obtain ⟨fuel', hle, hloop⟩ := ihl hl (hop ▸ hll) (by omega) (by omega)
      (hop ▸ stops_operator m (r.tokens ++ rest))
    obtain ⟨f, rfl⟩ : ∃ f, fuel' = f + 1 := ⟨fuel' - 1, by omega⟩
    refine ⟨f, by rw [OperandTree.size]; omega, ?_⟩
    rw [OperandTree.tokens, List.append_assoc, List.append_assoc, hloop, OperandTree.computed]
    cases hvalue : l.computed with
    | error err => rfl
    | ok v =>
      -- the round of the loop at the operator
      have hround : binaryLoop ops next (f + 1) v (m.tokens ++ (r.tokens ++ rest)) =
          (next (r.tokens ++ rest)).bind fun right => (ifOp op v right.1).bind fun left =>
            binaryLoop ops next f left right.2 := by
        rw [binaryLoop, m.skipWhitespace (by decide)]
        simp only [m.token_text, hops.of_precedence op hop]
        rfl
      simp only [Except.bind]
      rw [hround]
      rcases hnext.cases hr (hop ▸ hlr) (by omega) hstop with ⟨err, hparse, hright⟩ |
        ⟨y, behind, hparse, hright, hskip⟩
      · rw [hparse, hright]
        rfl
      · rw [hparse, hright]
        simp only [Except.bind]
        cases ifOp op v y with
        | error err => rfl
        | ok z => exact binaryLoop_congr hskip z

/-- The loop ends where its level stops. -/
theorem binaryLoop_stops (hops : OpsAt ops k) {rest : List PpToken} (hstop : Stops k rest)
    (v : BitVec 64) :
    skipped (binaryLoop ops next (fuel + 1) v rest) = .ok (v, skipWhitespace rest) := by
  have hidem := skipWhitespace_skipWhitespace rest
  rw [binaryLoop]
  cases hskip : skipWhitespace rest with
  | nil => rfl
  | cons t more =>
    rw [hskip] at hidem
    simp only [hops.none hstop hskip]
    exact congrArg (fun rest => Except.ok (v, rest)) hidem

theorem binaryLevel_reads (hops : OpsAt ops k) (hk : 1 ≤ k ∧ k ≤ 10)
    (hnext : Reads P next (k + 1) (k + 1) n) (hfuel : n ≤ fuel) :
    Reads P (binaryLevel ops next fuel) k k n := by
  intro e he hlevel hn rest hstop
  obtain ⟨fuel', hle, hloop⟩ := binaryLevel_chain hops hk hnext he hlevel hn
    (Nat.lt_of_lt_of_le hn hfuel) (hstop.mono (Nat.le_succ k))
  obtain ⟨f, rfl⟩ : ∃ f, fuel' = f + 1 := ⟨fuel' - 1, by omega⟩
  rw [hloop]
  cases e.computed with
  | error err => rfl
  | ok v => exact binaryLoop_stops hops hstop v

theorem OperandTree.tokens_ne_nil (e : OperandTree) : e.tokens ≠ [] := by
  have hmark : ∀ {kind : PpTokenKind} {text : String} (m : Mark kind text) (rest : List PpToken),
      m.tokens ++ rest ≠ [] := fun m rest h => by
    simp [Mark.tokens] at h
  induction e with
  | operand o => exact o.tokens_ne
  | paren opening e closing => exact hmark opening _
  | unary op m e => exact hmark m _
  | binary op l m r ihl => exact fun h => ihl (List.append_eq_nil_iff.1 h).1
  | cond c question x colon y ihc => exact fun h => ihc (List.append_eq_nil_iff.1 h).1

/-- A level without a loop ends where it stops. -/
theorem binaryOnce_stops {right : List PpToken → IfResult} (hops : OpsAt ops k)
    {tokens rest : List PpToken} {value : Except PreprocessorError (BitVec 64)}
    (hnext : skipped (next tokens) = value.map fun v => (v, skipWhitespace rest))
    (hstop : Stops k rest) :
    skipped (binaryOnce ops next right tokens) = value.map fun v => (v, skipWhitespace rest) := by
  have hidem := skipWhitespace_skipWhitespace rest
  unfold binaryOnce
  rcases cases_of_skipped hnext with ⟨err, hparse, hvalue⟩ | ⟨v, behind, hparse, hvalue, hskip⟩
  · rw [hparse, hvalue]
    rfl
  · rw [hparse, hvalue]
    simp only [bind, Except.bind, hskip]
    cases hrest : skipWhitespace rest with
    | nil => rfl
    | cons t more =>
      have hnone : (if more = [] then none else ops t.text) = none := by
        rw [hops.none hstop hrest, ite_self]
      rw [hrest] at hidem
      simp only [hnone, pure, Except.pure]
      exact congrArg (fun rest => Except.ok (v, rest)) hidem

/-- A level without a loop reads a tree of the next one. -/
theorem binaryOnce_next {right : List PpToken → IfResult} (hops : OpsAt ops k)
    (hnext : Reads P next (k + 1) (k + 1) n) : Reads P (binaryOnce ops next right) (k + 1) k n :=
  fun e he hlevel hn rest hstop =>
    binaryOnce_stops hops (hnext e he hlevel hn rest (hstop.mono (Nat.le_succ k))) hstop

/-- It reads one operator, whose left operand is of the next level. -/
theorem binaryOnce_reads {right : List PpToken → IfResult} (hops : OpsAt ops k)
    (hk : k = 6 ∨ k = 7) (hnext : Reads P next (k + 1) (k + 1) n)
    (hright : Reads P right (k + 1) k n) :
    Reads P (binaryOnce ops next right) k k n := by
  intro e he hlevel hn rest hstop
  by_cases hnot : k + 1 ≤ e.level
  · exact binaryOnce_next hops hnext e he hnot hn rest hstop
  · have hlevel : e.level = k := Nat.le_antisymm (Nat.le_of_lt_succ (Nat.lt_of_not_le hnot)) hlevel
    cases e with
    | operand o =>
      rw [OperandTree.level] at hlevel
      omega
    | paren opening e closing =>
      rw [OperandTree.level] at hlevel
      omega
    | unary op m e =>
      rw [OperandTree.level] at hlevel
      omega
    | cond c question x colon y =>
      rw [OperandTree.level] at hlevel
      omega
    | binary op l m r =>
      have hop : binaryPrecedence op = k := hlevel
      obtain ⟨hl, hr, hll, hlr, hchain⟩ := he
      rw [OperandTree.size] at hn
      have hll' : k + 1 ≤ l.level := by
        have hne := hchain (hop ▸ hk)
        omega
      have hmore : r.tokens ++ rest ≠ [] := fun h => r.tokens_ne_nil (List.append_eq_nil_iff.1 h).1
      unfold binaryOnce
      rw [OperandTree.tokens, List.append_assoc, List.append_assoc, OperandTree.computed]
      rcases hnext.cases hl hll' (by omega) (hop ▸ stops_operator m (r.tokens ++ rest)) with
        ⟨err, hparse, hvalue⟩ | ⟨v, behind, hparse, hvalue, hskip⟩
      · rw [hparse, hvalue]
        rfl
      rw [m.skipWhitespace (by decide)] at hskip
      rw [hparse, hvalue]
      simp only [bind, Except.bind, hskip, if_neg hmore, m.token_text, hops.of_precedence op hop]
      rcases hright.cases hr (hop ▸ hlr) (by omega) hstop with ⟨err, hparse, hright⟩ |
        ⟨y, behind', hparse, hright, hskip'⟩
      · rw [hparse, hright]
        rfl
      · rw [hparse, hright]
        simp only
        cases ifOp op v y with
        | error err => rfl
        | ok z => exact congrArg (fun rest => Except.ok (z, rest)) hskip'

theorem Reads.mono {parser : List PpToken → IfResult} {j k' j' : ℕ} (h : Reads P parser k j n)
    (hk : k ≤ k') (hj : j' ≤ j) : Reads P parser k' j' n :=
  fun e he hlevel hsize rest hstop =>
    h e he (Nat.le_trans hk hlevel) hsize rest (hstop.mono hj)

end Levels

section Tables

theorem multiplicativeOps_at : OpsAt multiplicativeOps 10 where
  of_precedence op h := by cases op <;> first | rfl | exact absurd h (by decide)
  precedence text f h := by
    unfold multiplicativeOps at h
    split_ifs at h with h1 h2 h3
    · exact ⟨.mul, h1, rfl⟩
    · exact ⟨.div, h2, rfl⟩
    · exact ⟨.rem, h3, rfl⟩

theorem additiveOps_at : OpsAt additiveOps 9 where
  of_precedence op h := by cases op <;> first | rfl | exact absurd h (by decide)
  precedence text f h := by
    unfold additiveOps at h
    split_ifs at h with h1 h2
    · exact ⟨.add, h1, rfl⟩
    · exact ⟨.sub, h2, rfl⟩

theorem shiftOps_at : OpsAt shiftOps 8 where
  of_precedence op h := by cases op <;> first | rfl | exact absurd h (by decide)
  precedence text f h := by
    unfold shiftOps at h
    split_ifs at h with h1 h2
    · exact ⟨.shl, h1, rfl⟩
    · exact ⟨.shr, h2, rfl⟩

theorem comparisonOps_at : OpsAt comparisonOps 7 where
  of_precedence op h := by cases op <;> first | rfl | exact absurd h (by decide)
  precedence text f h := by
    unfold comparisonOps at h
    split_ifs at h with h1 h2 h3 h4
    · exact ⟨.lt, h1, rfl⟩
    · exact ⟨.gt, h2, rfl⟩
    · exact ⟨.le, h3, rfl⟩
    · exact ⟨.ge, h4, rfl⟩

theorem equalityOps_at : OpsAt equalityOps 6 where
  of_precedence op h := by cases op <;> first | rfl | exact absurd h (by decide)
  precedence text f h := by
    unfold equalityOps at h
    split_ifs at h with h1 h2
    · exact ⟨.eq, h1, rfl⟩
    · exact ⟨.ne, h2, rfl⟩

/-- A level with a single operator. -/
theorem opsAt_single (op : BinaryOp) {ops : String → Option IfOp}
    (hops : ops = fun text => if text = binaryText op then some (ifOp op) else none)
    (hone : ∀ op', binaryPrecedence op' = binaryPrecedence op → op' = op) :
    OpsAt ops (binaryPrecedence op) where
  of_precedence op' h := by
    rw [hops, hone op' h]
    exact if_pos rfl
  precedence text f h := by
    rw [hops] at h
    simp only at h
    split_ifs at h with htext
    exact ⟨op, htext, rfl⟩

theorem bitandOps_at : OpsAt bitandOps 5 :=
  opsAt_single .and rfl fun op' h => by cases op' <;> first | rfl | exact absurd h (by decide)

theorem bitxorOps_at : OpsAt bitxorOps 4 :=
  opsAt_single .xor rfl fun op' h => by cases op' <;> first | rfl | exact absurd h (by decide)

theorem bitorOps_at : OpsAt bitorOps 3 :=
  opsAt_single .or rfl fun op' h => by cases op' <;> first | rfl | exact absurd h (by decide)

theorem andOps_at : OpsAt andOps 2 :=
  opsAt_single .land rfl fun op' h => by cases op' <;> first | rfl | exact absurd h (by decide)

theorem orOps_at : OpsAt orOps 1 :=
  opsAt_single .lor rfl fun op' h => by cases op' <;> first | rfl | exact absurd h (by decide)

end Tables

section Chain

variable {P : IfOperand → Prop} {primary : List PpToken → IfResult} {n fuel : ℕ}

theorem OperandTree.size_pos (e : OperandTree) : 0 < e.size := by
  cases e <;> exact Nat.succ_pos _

/-- `primary` takes the operand, whatever follows it. -/
structure Takes (primary : List PpToken → IfResult) (o : IfOperand) : Prop where
  head : ∀ rest, ∃ t more, skipWhitespace (o.tokens ++ rest) = t :: more ∧
    ∀ op, t.text ≠ unaryText op
  reads : ∀ rest, skipped (primary (o.tokens ++ rest)) =
    o.value.map fun v => (v, skipWhitespace rest)

/-- A primary expression does not begin with a prefix operator. -/
theorem primary_head (htakes : ∀ o, P o → Takes primary o) {e : OperandTree}
    (he : e.Readable P) (h : 12 ≤ e.level) (rest : List PpToken) :
    ∃ t more, skipWhitespace (e.tokens ++ rest) = t :: more ∧ ∀ op, t.text ≠ unaryText op := by
  cases e with
  | operand o => exact (htakes o he).head rest
  | paren opening e closing =>
    refine ⟨opening.token, (e.tokens ++ closing.tokens) ++ rest, ?_, fun op => ?_⟩
    · rw [OperandTree.tokens, List.append_assoc]
      exact opening.skipWhitespace (by decide) _
    · rw [opening.token_text]
      cases op <;> decide
  | unary => exact absurd h (Nat.not_succ_le_self 11)
  | binary op => exact absurd (Nat.le_trans h (binaryPrecedence_bounds op).2) (by decide)
  | cond => exact absurd h (Nat.not_succ_le_zero 11)

/-- Without a prefix operator it is `primary` that reads. -/
theorem parseIfUnary_primary {j : ℕ} (hprimary : Reads P primary 12 j n)
    (hskip : ∀ tokens, primary (skipWhitespace tokens) = primary tokens)
    (htakes : ∀ o, P o → Takes primary o)
    {e : OperandTree} (he : e.Readable P) (hlevel : 12 ≤ e.level) (hn : e.size < n)
    (hfuel : e.size ≤ fuel) {rest : List PpToken} (hstop : Stops j rest) :
    skipped (parseIfUnary primary fuel (e.tokens ++ rest)) =
      e.computed.map fun v => (v, skipWhitespace rest) := by
  have hpos := e.size_pos
  obtain ⟨f, rfl⟩ : ∃ f, fuel = f + 1 := ⟨fuel - 1, by omega⟩
  obtain ⟨t, more, htokens, htext⟩ := primary_head htakes he hlevel rest
  rw [parseIfUnary, htokens]
  simp only
  rw [if_neg (show t.text ≠ "!" from htext .not), if_neg (show t.text ≠ "~" from htext .bitNot),
    if_neg (show t.text ≠ "-" from htext .minus), if_neg (show t.text ≠ "+" from htext .plus),
    ← htokens, hskip]
  exact hprimary e he hlevel hn rest hstop

/-- Prefix operators in front of what `primary` reads. -/
theorem parseIfUnary_tree {j : ℕ} (hprimary : Reads P primary 12 j n)
    (hskip : ∀ tokens, primary (skipWhitespace tokens) = primary tokens)
    (htakes : ∀ o, P o → Takes primary o)
    (e : OperandTree) (he : e.Readable P) (hlevel : 11 ≤ e.level) (hn : e.size < n)
    (hfuel : e.size ≤ fuel) {rest : List PpToken} (hstop : Stops j rest) :
    skipped (parseIfUnary primary fuel (e.tokens ++ rest)) =
      e.computed.map fun v => (v, skipWhitespace rest) := by
  induction e generalizing fuel with
  | operand o =>
    exact parseIfUnary_primary hprimary hskip htakes he (Nat.le_refl 12) hn hfuel hstop
  | paren opening e closing =>
    exact parseIfUnary_primary hprimary hskip htakes he (Nat.le_refl 12) hn hfuel hstop
  | binary op => exact absurd (Nat.le_trans hlevel (binaryPrecedence_bounds op).2) (by decide)
  | cond => exact absurd hlevel (Nat.not_succ_le_zero 10)
  | unary op m e ih =>
    rw [OperandTree.size] at hn hfuel
    obtain ⟨f, rfl⟩ : ∃ f, fuel = f + 1 := ⟨fuel - 1, by omega⟩
    have hoperand := ih he.1 he.2 (by omega) (Nat.le_of_succ_le_succ hfuel)
    rw [OperandTree.tokens, List.append_assoc, parseIfUnary, m.skipWhitespace (by decide),
      OperandTree.computed]
    have hround : ∀ g : BitVec 64 → BitVec 64,
        skipped (parseIfUnary primary f (e.tokens ++ rest) >>= fun r => pure (g r.1, r.2)) =
          (e.computed.map g).map fun v => (v, skipWhitespace rest) := by
      intro g
      rcases cases_of_skipped hoperand with ⟨err, hparse, hvalue⟩ |
        ⟨v, behind, hparse, hvalue, hskip⟩
      · rw [hparse, hvalue]
        rfl
      · rw [hparse, hvalue]
        exact congrArg (fun rest => Except.ok (g v, rest)) hskip
    simp only [m.token_text]
    cases op with
    | not => exact hround (ifUnary .not)
    | bitNot => exact hround (ifUnary .bitNot)
    | minus => exact hround (ifUnary .minus)
    | plus =>
      have hid : e.computed.map (ifUnary .plus) = e.computed := by
        cases e.computed <;> rfl
      rw [hid]
      exact hoperand

theorem parseIfEquality_reads (hcomparison : Reads P (parseIfComparison primary fuel) 7 7 n)
    {rounds : ℕ} (hrounds : n ≤ rounds) : Reads P (parseIfEquality primary fuel rounds) 6 6 n := by
  intro e he hlevel hn rest hstop
  have hpos := e.size_pos
  obtain ⟨f, rfl⟩ : ∃ f, rounds = f + 2 := ⟨rounds - 2, by omega⟩
  have hright : Reads P (parseIfEquality primary fuel (f + 1)) 7 6 n :=
    binaryOnce_next equalityOps_at hcomparison
  exact binaryOnce_reads equalityOps_at (.inl rfl) hcomparison hright e he hlevel hn rest hstop

/-- All the levels, one on the other. -/
theorem parseIfOrOf_reads (hprimary : ∀ j, Reads P primary 12 j n)
    (hskip : ∀ tokens, primary (skipWhitespace tokens) = primary tokens)
    (htakes : ∀ o, P o → Takes primary o)
    (hfuel : n ≤ fuel) : Reads P (parseIfOrOf primary fuel) 1 1 n := by
  have hunary : Reads P (parseIfUnary primary fuel) 11 11 n := fun e he hlevel hn rest hstop =>
    parseIfUnary_tree (hprimary 11) hskip htakes e he hlevel hn
      (Nat.le_trans (Nat.le_of_lt hn) hfuel) hstop
  have hmul := binaryLevel_reads multiplicativeOps_at (by decide) hunary hfuel
  have hadd := binaryLevel_reads additiveOps_at (by decide) hmul hfuel
  have hshift := binaryLevel_reads shiftOps_at (by decide) hadd hfuel
  have hcomparison := binaryOnce_reads comparisonOps_at (.inr rfl) hshift
    (hshift.mono (Nat.le_refl 8) (by decide))
  have hequality := parseIfEquality_reads hcomparison hfuel
  have hbitand := binaryLevel_reads bitandOps_at (by decide) hequality hfuel
  have hbitxor := binaryLevel_reads bitxorOps_at (by decide) hbitand hfuel
  have hbitor := binaryLevel_reads bitorOps_at (by decide) hbitxor hfuel
  have hand := binaryLevel_reads andOps_at (by decide) hbitor hfuel
  exact binaryLevel_reads orOps_at (by decide) hand hfuel

end Chain

section Literals

variable (k : IntConstant)

theorem i64FromStrRadix_digits {radix : ℕ} (hpos : 0 < radix) (hr : radix ≤ 16)
    {digits : List Char} (hne : digits ≠ []) (hdigits : ∀ c ∈ digits, IsDigit radix c) :
    i64FromStrRadix radix (digits.map byteOf) =
      if digitsValue radix 0 digits < 2 ^ 63 then
        some (BitVec.ofNat 64 (digitsValue radix 0 digits))
      else none := by
  have hsign : ∀ c ∈ digits, byteOf c ≠ 43 ∧ byteOf c ≠ 45 := fun c hc =>
    have hcases := digitOf_cases (Nat.lt_of_lt_of_le (hdigits c hc) hr)
    have hlt := (hdigits c hc).toNat_lt hr
    ⟨byteOf_ne hlt (n := 43) (by decide) (by omega), byteOf_ne hlt (n := 45) (by decide) (by omega)⟩
  have hfold := foldlM_digits hpos hr hdigits (Nat.two_pow_pos 63)
  have hmap : (if digitsValue radix 0 digits < 2 ^ 63 then
      some (BitVec.ofNat 64 (digitsValue radix 0 digits)) else none) =
        (if digitsValue radix 0 digits < 2 ^ 63 then some (digitsValue radix 0 digits)
          else none).map (BitVec.ofNat 64) := by
    split_ifs <;> rfl
  rw [hmap, ← hfold]
  match digits, hne with
  | [c], _ =>
    have hc := hsign c List.mem_cons_self
    simp only [i64FromStrRadix, List.map_cons, List.map_nil, if_neg (not_or.2 hc)]
  | c :: d :: rest, _ =>
    have hc := hsign c List.mem_cons_self
    simp only [i64FromStrRadix, List.map_cons, if_neg hc.1, if_neg hc.2]

theorem parseIntLiteral_text : parseIntLiteral (String.ofList k.text) =
    if k.value < 2 ^ 63 then BitVec.ofNat 64 k.value else 0 := by
  refine Eq.trans (IntConstant.read_lead (fun radix bytes => (i64FromStrRadix radix bytes).getD 0)
    (fun d rest => (i64FromStrRadix 8 (48 :: d :: rest)).getD 0) k.shape k.digits_valid _
    k.trimmed_bytes) ?_
  have hread : ∀ {radix : ℕ} {digits : List Char}, 0 < radix → radix ≤ 16 → digits ≠ [] →
      (∀ c ∈ digits, IsDigit radix c) → digitsValue radix 0 digits = k.value →
      (i64FromStrRadix radix (digits.map byteOf)).getD 0 =
        if k.value < 2 ^ 63 then BitVec.ofNat 64 k.value else 0 := by
    intro radix digits hpos hr hne hdigits hvalue
    rw [i64FromStrRadix_digits hpos hr hne hdigits, hvalue]
    split_ifs <;> rfl
  have hpos := k.radix_pos
  have hle := k.radix_le
  obtain ⟨base, digits, suffix, hshape, hdigits, hsuffix⟩ := k
  cases base with
  | decimal =>
    obtain ⟨d, rest, rfl, _⟩ := hshape
    exact hread hpos hle (List.cons_ne_nil d rest) hdigits rfl
  | octal =>
    cases digits with
    | nil => rfl
    | cons d rest =>
      -- the leading 0 is read as a digit, too
      refine hread hpos hle (List.cons_ne_nil '0' (d :: rest)) (fun c hc => ?_) rfl
      rcases List.mem_cons.1 hc with rfl | hc
      · exact (by decide : digitOf '0' < 8)
      · exact hdigits c hc
  | hex upper => exact hread hpos hle hshape hdigits rfl

/-- A constant begins with a decimal digit. -/
theorem text_head : ∃ c rest, k.text = c :: rest ∧ 48 ≤ c.toNat ∧ c.toNat ≤ 57 := by
  obtain ⟨base, digits, suffix, hshape, hdigits, hsuffix⟩ := k
  cases base with
  | decimal =>
    obtain ⟨d, rest, rfl, _⟩ := hshape
    have hd := hdigits d List.mem_cons_self
    have hcases := digitOf_cases (Nat.lt_of_lt_of_le hd (by decide))
    have hd : digitOf d < 10 := hd
    exact ⟨d, _, rfl, by omega, by omega⟩
  | octal => exact ⟨'0', _, rfl, by decide, by decide⟩
  | hex upper => exact ⟨'0', _, rfl, by decide, by decide⟩

theorem text_ne {text : String}
    (h : (text.toList.head?.all fun c => c.toNat < 48 || 57 < c.toNat) = true) :
    String.ofList k.text ≠ text := by
  rintro rfl
  obtain ⟨c, rest, htext, h48, h57⟩ := text_head k
  rw [String.toList_ofList, htext] at h
  simp only [List.head?_cons, Option.all_some, Bool.or_eq_true, decide_eq_true_eq] at h
  omega

end Literals

section Primary

variable (env : IfEnv) {P : IfOperand → Prop} {identifier : String → List PpToken → IfResult}
  {parseOr conditional : List PpToken → IfResult} {n fuel : ℕ}

theorem parseIfPrimary_skip (tokens : List PpToken) :
    parseIfPrimary env identifier conditional (skipWhitespace tokens) =
      parseIfPrimary env identifier conditional tokens := by
  unfold parseIfPrimary
  rw [skipWhitespace_skipWhitespace]

theorem parseIfPrimary_reads
    (htakes : ∀ o, P o → Takes (parseIfPrimary env identifier conditional) o)
    (hconditional : Reads P conditional 0 0 n) (j : ℕ) :
    Reads P (parseIfPrimary env identifier conditional) 12 j (n + 1) := by
  intro e he hlevel hn rest hstop
  cases e with
  | operand o => exact (htakes o he).reads rest
  | paren opening e closing =>
    rw [OperandTree.size] at hn
    rw [OperandTree.tokens, List.append_assoc, List.append_assoc, parseIfPrimary,
      opening.skipWhitespace (by decide), OperandTree.computed]
    simp only
    rw [if_pos opening.token_text]
    have hclose : Stops 0 (closing.tokens ++ rest) :=
      stops_mark closing (by decide) (fun op => by cases op <;> decide) (fun _ => by decide) rest
    rcases hconditional.cases (e := e) he (Nat.zero_le _) (by omega) hclose with
      ⟨err, hparse, hvalue⟩ | ⟨v, behind, hparse, hvalue, hskip⟩
    · rw [hparse, hvalue]
      rfl
    · rw [closing.skipWhitespace (by decide)] at hskip
      rw [hparse, hvalue]
      simp only [bind, Except.bind, hskip]
      rw [if_pos closing.token_text]
      rfl
  | unary => exact absurd hlevel (Nat.not_succ_le_self 11)
  | binary op => exact absurd (Nat.le_trans hlevel (binaryPrecedence_bounds op).2) (by decide)
  | cond => exact absurd hlevel (Nat.not_succ_le_zero 11)

/-- Without a `?` behind it the condition is the value. -/
theorem parseIfConditionalOf_or (hor : Reads P parseOr 1 1 n) {e : OperandTree}
    (he : e.Readable P) (hlevel : 1 ≤ e.level) (hn : e.size < n) {rest : List PpToken}
    (hstop : Stops 0 rest) :
    skipped (parseIfConditionalOf parseOr (fuel + 1) (e.tokens ++ rest)) =
      e.computed.map fun v => (v, skipWhitespace rest) := by
  have hidem := skipWhitespace_skipWhitespace rest
  rw [parseIfConditionalOf]
  rcases hor.cases he hlevel hn (hstop.mono (Nat.zero_le 1)) with ⟨err, hparse, hvalue⟩ |
    ⟨v, behind, hparse, hvalue, hskip⟩
  · rw [hparse, hvalue]
    rfl
  · rw [hparse, hvalue]
    simp only [bind, Except.bind, hskip]
    cases hrest : skipWhitespace rest with
    | nil => rfl
    | cons t more =>
      rw [hrest] at hidem
      simp only [if_neg ((hstop t more hrest).2 rfl)]
      exact congrArg (fun rest => Except.ok (v, rest)) hidem

theorem parseIfConditionalOf_tree (hor : Reads P parseOr 1 1 n) (e : OperandTree)
    (he : e.Readable P) (hn : e.size < n) (hfuel : e.size ≤ fuel) {rest : List PpToken}
    (hstop : Stops 0 rest) :
    skipped (parseIfConditionalOf parseOr fuel (e.tokens ++ rest)) =
      e.computed.map fun v => (v, skipWhitespace rest) := by
  have hpos := e.size_pos
  obtain ⟨f, rfl⟩ : ∃ f, fuel = f + 1 := ⟨fuel - 1, by omega⟩
  induction e generalizing f rest with
  | operand o => exact parseIfConditionalOf_or hor he (Nat.succ_le_succ (Nat.zero_le _)) hn hstop
  | paren opening e closing =>
    exact parseIfConditionalOf_or hor he (Nat.succ_le_succ (Nat.zero_le _)) hn hstop
  | unary op m e => exact parseIfConditionalOf_or hor he (Nat.succ_le_succ (Nat.zero_le _)) hn hstop
  | binary op l m r =>
    exact parseIfConditionalOf_or hor he (binaryPrecedence_bounds op).1 hn hstop
  | cond c question x colon y _ ihx ihy =>
    obtain ⟨hec, hex, hey, hc⟩ := he
    rw [OperandTree.size] at hn hfuel
    have hposx := x.size_pos
    have hposy := y.size_pos
    obtain ⟨f, rfl⟩ : ∃ g, f = g + 1 := ⟨f - 1, by omega⟩
    have hquestion : Stops 1 (question.tokens ++ (x.tokens ++ (colon.tokens ++ (y.tokens ++ rest)))) :=
      stops_mark question (by decide) (fun op => by cases op <;> decide)
        (fun h => absurd h (by decide)) _
    have hcolon : Stops 0 (colon.tokens ++ (y.tokens ++ rest)) :=
      stops_mark colon (by decide) (fun op => by cases op <;> decide) (fun _ => by decide) _
    have hthen := ihx hex (by omega) hcolon hposx f (by omega)
    have helse := ihy hey (by omega) hstop hposy f (by omega)
    simp only [OperandTree.tokens, List.append_assoc]
    rw [parseIfConditionalOf, OperandTree.computed]
    rcases hor.cases hec hc (by omega) hquestion with ⟨err, hparse, hvalue⟩ |
      ⟨v, behind, hparse, hvalue, hskip⟩
    · rw [hparse, hvalue]
      rfl
    rw [question.skipWhitespace (by decide)] at hskip
    rw [hparse, hvalue]
    simp only [bind, Except.bind, hskip, if_pos question.token_text]
    rcases cases_of_skipped hthen with ⟨err, hparse, hvalue⟩ | ⟨a, behind, hparse, hvalue, hskip⟩
    · rw [hparse, hvalue]
      rfl
    rw [colon.skipWhitespace (by decide)] at hskip
    rw [hparse, hvalue]
    simp only [hskip, if_pos colon.token_text]
    rcases cases_of_skipped helse with ⟨err, hparse, hvalue⟩ | ⟨b, behind, hparse, hvalue, hskip⟩
    · rw [hparse, hvalue]
      rfl
    rw [hparse, hvalue]
    exact congrArg (fun rest => Except.ok (if v != 0 then a else b, rest)) hskip

/-- Enough fuel, and `parse_if_or` reads a tree of its level. -/
theorem parseIfOrBy_reads
    (handler : (List PpToken → IfResult) → String → List PpToken → IfResult)
    (htakes : ∀ o, P o → ∀ parseOr conditional,
      Takes (parseIfPrimary env (handler parseOr) conditional) o)
    (n fuel : ℕ) (hfuel : 2 * n ≤ fuel) : Reads P (parseIfOrBy env handler fuel) 1 1 n := by
  induction n generalizing fuel with
  | zero => exact fun e he hlevel hn => absurd hn (Nat.not_lt_zero _)
  | succ n ih =>
    obtain ⟨f, rfl⟩ : ∃ f, fuel = f + 1 := ⟨fuel - 1, by omega⟩
    have hor := ih f (by omega)
    have hconditional : Reads P (parseIfConditionalOf (parseIfOrBy env handler f) f) 0 0 n :=
      fun e he hlevel hn rest hstop => parseIfConditionalOf_tree hor e he hn (by omega) hstop
    exact parseIfOrOf_reads
      (parseIfPrimary_reads env (fun o ho => htakes o ho _ _) hconditional) (parseIfPrimary_skip env)
      (fun o ho => htakes o ho _ _) (by omega)

/-- The rest of a line, with nothing but whitespace in front of the newline. -/
def EndsLine (rest : List PpToken) : Prop :=
  ∀ t more, skipWhitespace rest = t :: more → t.kind = .newline ∧ t.text = "\n"

theorem EndsLine.stops {rest : List PpToken} (h : EndsLine rest) : Stops 0 rest := by
  intro t more hskip
  rw [(h t more hskip).2]
  exact ⟨fun op => by cases op <;> exact fun h => absurd h (by decide), fun _ => by decide⟩

theorem skipToDirectiveEnd_skipWhitespace (tokens : List PpToken) :
    skipToDirectiveEnd (skipWhitespace tokens) = skipToDirectiveEnd tokens := by
  induction tokens with
  | nil => rfl
  | cons t rest ih =>
    unfold skipWhitespace
    by_cases ht : t.kind = .whitespace
    · rw [List.dropWhile_cons_of_pos (by simp [ht])]
      refine ih.trans ?_
      unfold skipToDirectiveEnd
      rw [List.dropWhile_cons_of_pos (by simp [ht])]
    · rw [List.dropWhile_cons_of_neg (by simp [ht])]

end Primary

section Constants

variable (env : IfEnv) {fuel : ℕ}

/-- A constant as an operand. -/
def IfTree.literalOperand (k : IntConstant) (m : Mark .number (String.ofList k.text)) :
    IfOperand where
  tokens := m.tokens
  tokens_ne h := by simp [Mark.tokens] at h
  value := .ok (if k.value < 2 ^ 63 then BitVec.ofNat 64 k.value else 0)

def IfTree.operandTree : IfTree → OperandTree
  | literal k m => .operand (literalOperand k m)
  | paren opening e closing => .paren opening e.operandTree closing
  | unary op m e => .unary op m e.operandTree
  | binary op l m r => .binary op l.operandTree m r.operandTree
  | cond c question x colon y =>
    .cond c.operandTree question x.operandTree colon y.operandTree

def IsLiteral (o : IfOperand) : Prop := ∃ k m, o = IfTree.literalOperand k m

namespace IfTree

theorem operandTree_tokens (e : IfTree) : e.operandTree.tokens = e.tokens := by
  induction e with
  | literal k m => rfl
  | paren opening e closing ih => rw [operandTree, OperandTree.tokens, ih, tokens]
  | unary op m e ih => rw [operandTree, OperandTree.tokens, ih, tokens]
  | binary op l m r ihl ihr => rw [operandTree, OperandTree.tokens, ihl, ihr, tokens]
  | cond c question x colon y ihc ihx ihy =>
    rw [operandTree, OperandTree.tokens, ihc, ihx, ihy, tokens]

theorem operandTree_size (e : IfTree) : e.operandTree.size = e.size := by
  induction e with
  | literal k m => rfl
  | paren opening e closing ih => rw [operandTree, OperandTree.size, ih, size]
  | unary op m e ih => rw [operandTree, OperandTree.size, ih, size]
  | binary op l m r ihl ihr => rw [operandTree, OperandTree.size, ihl, ihr, size]
  | cond c question x colon y ihc ihx ihy =>
    rw [operandTree, OperandTree.size, ihc, ihx, ihy, size]

theorem operandTree_level (e : IfTree) : e.operandTree.level = e.level := by
  cases e <;> rfl

theorem operandTree_computed (e : IfTree) : e.operandTree.computed = e.computed := by
  induction e with
  | literal k m => rfl
  | paren opening e closing ih => exact ih
  | unary op m e ih => rw [operandTree, OperandTree.computed, ih, computed]
  | binary op l m r ihl ihr => rw [operandTree, OperandTree.computed, ihl, ihr, computed]
  | cond c question x colon y ihc ihx ihy =>
    rw [operandTree, OperandTree.computed, ihc, ihx, ihy, computed]

theorem operandTree_readable {e : IfTree} (hg : e.Grammatical) (hu : e.Unchained) :
    e.operandTree.Readable IsLiteral := by
  induction e with
  | literal k m => exact ⟨k, m, rfl⟩
  | paren opening e closing ih => exact ih hg hu
  | unary op m e ih => exact ⟨ih hg.1 hu, e.operandTree_level ▸ hg.2⟩
  | binary op l m r ihl ihr =>
    obtain ⟨hgl, hgr, hll, hlr⟩ := hg
    obtain ⟨hul, hur, hchain⟩ := hu
    exact ⟨ihl hgl hul, ihr hgr hur, l.operandTree_level ▸ hll, r.operandTree_level ▸ hlr,
      l.operandTree_level ▸ hchain⟩
  | cond c question x colon y ihc ihx ihy =>
    obtain ⟨hgc, hgx, hgy, hc⟩ := hg
    obtain ⟨huc, hux, huy⟩ := hu
    exact ⟨ihc hgc huc, ihx hgx hux, ihy hgy huy, c.operandTree_level ▸ hc⟩

end IfTree

theorem IsLiteral.takes {o : IfOperand} (ho : IsLiteral o)
    (identifier : String → List PpToken → IfResult) (conditional : List PpToken → IfResult) :
    Takes (parseIfPrimary env identifier conditional) o := by
  obtain ⟨k, m, rfl⟩ := ho
  have hparen : m.token.text ≠ "(" := by
    rw [m.token_text]
    exact text_ne k (by decide)
  have hdefined : m.token.text ≠ "defined" := by
    rw [m.token_text]
    exact text_ne k (by decide)
  constructor
  · refine fun rest => ⟨m.token, rest, m.skipWhitespace (by decide) rest, fun op => ?_⟩
    rw [m.token_text]
    exact text_ne k (by cases op <;> decide)
  · intro rest
    rw [IfTree.literalOperand, parseIfPrimary, m.skipWhitespace (by decide)]
    simp only
    rw [if_neg hparen, if_neg hdefined, if_pos m.token_kind, m.token_text, parseIntLiteral_text]
    rfl

/-- A line without chains evaluates to what computing every operand gives. -/
theorem evalIfLine_tree {e : IfTree} (hg : e.Grammatical) (hu : e.Unchained)
    (hfuel : 2 * (e.size + 1) ≤ fuel) {rest : List PpToken} (hend : EndsLine rest) :
    evalIfLine env fuel (e.tokens ++ rest) =
      e.computed.map fun v => (v, skipToDirectiveEnd rest) := by
  have hor := parseIfOrBy_reads env (parseIfIdentifier env)
    (fun o (ho : IsLiteral o) _ _ => ho.takes env _ _) (e.size + 1) fuel hfuel
  have htree := parseIfConditionalOf_tree hor e.operandTree (IfTree.operandTree_readable hg hu)
    (e.operandTree_size ▸ Nat.lt_succ_self _)
    (show e.operandTree.size ≤ fuel by rw [e.operandTree_size]; omega) hend.stops
  rw [e.operandTree_tokens, e.operandTree_computed] at htree
  unfold evalIfLine parseIfConditional
  rcases cases_of_skipped htree with ⟨err, hparse, hvalue⟩ | ⟨v, behind, hparse, hvalue, hskip⟩
  · rw [parseIfOr, hparse, hvalue]
    rfl
  · rw [parseIfOr, hparse, hvalue]
    have hrest : skipToDirectiveEnd behind = skipToDirectiveEnd rest := by
      rw [← skipToDirectiveEnd_skipWhitespace, hskip, skipToDirectiveEnd_skipWhitespace]
    exact congrArg (fun rest => Except.ok (v, rest)) hrest

end Constants

end OpticC.Preprocessor
