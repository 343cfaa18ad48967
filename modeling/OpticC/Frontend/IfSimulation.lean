import OpticC.Frontend.IfFits

/-! The evaluator side by side on a line and on the expanded line: every level keeps the two at
the same place with the same value, as long as the expansions are operands where they stand. -/

namespace OpticC.Preprocessor

open Enumerators (UnaryOp BinaryOp)

section Outcomes

/-- The tokens in front of the evaluator, less the whitespace it skips. -/
def pending (tokens : List PpToken) : ℕ := (skipWhitespace tokens).length

variable (env : IfEnv)

/-- Both evaluations fail, or both find the value and are at the same place. -/
def Outcome (r r' : IfResult) (n : ℕ) : Prop :=
  (∃ e e', r = .error e ∧ r' = .error e') ∨
    ∃ v rest rest', r = .ok (v, rest) ∧ r' = .ok (v, rest') ∧
      SamePlace env (.operator 12) rest rest' ∧ pending rest + pending rest' ≤ n

def Similar (p q : List PpToken → IfResult) (k m : ℕ) : Prop :=
  ∀ ts ts', OperandHead env k (skipWhitespace ts) (skipWhitespace ts') →
    pending ts + pending ts' < m →
    Outcome env (p ts) (q ts') (pending ts + pending ts')

variable {env}

theorem Similar.mono {p q : List PpToken → IfResult} {k m m' : ℕ} (h : Similar env p q k m)
    (hm : m' ≤ m) : Similar env p q k m' :=
  fun ts ts' hts hlt => h ts ts' hts (Nat.lt_of_lt_of_le hlt hm)

theorem Outcome.mono {r r' : IfResult} {n n' : ℕ} (h : Outcome env r r' n) (hn : n ≤ n') :
    Outcome env r r' n' := by
  rcases h with h | ⟨v, rest, rest', hr, hr', hrest, hle⟩
  · exact .inl h
  · exact .inr ⟨v, rest, rest', hr, hr', hrest, Nat.le_trans hle hn⟩

/-- Two evaluations of one value, each in front of its rest. -/
theorem Outcome.of_value {r r' : IfResult} {value : Except PreprocessorError (BitVec 64)}
    {rest rest' : List PpToken} {l n : ℕ} (hrest : SamePlace env (.operator l) rest rest')
    (hl : l ≤ 12) (h : skipped r = value.map fun v => (v, skipWhitespace rest))
    (h' : skipped r' = value.map fun v => (v, skipWhitespace rest'))
    (hn : pending rest + pending rest' ≤ n) : Outcome env r r' n := by
  rcases cases_of_skipped h with ⟨err, hr, hvalue⟩ | ⟨v, behind, hr, hvalue, hskip⟩
  · rcases cases_of_skipped h' with ⟨err', hr', hvalue'⟩ | ⟨v', behind', hr', hvalue', hskip'⟩
    · exact .inl ⟨err, err', hr, hr'⟩
    · cases hvalue.symm.trans hvalue'
  · rcases cases_of_skipped h' with ⟨err', hr', hvalue'⟩ | ⟨v', behind', hr', hvalue', hskip'⟩
    · cases hvalue.symm.trans hvalue'
    · obtain rfl := Except.ok.inj (hvalue.symm.trans hvalue')
      refine .inr ⟨v, behind, behind', hr, hr', (hrest.operator_mono hl).skip hskip hskip', ?_⟩
      rwa [pending, pending, hskip, hskip']

/-- What both do with an outcome that they share. -/
theorem Outcome.bind {r r' : IfResult} {n n' : ℕ} {f f' : BitVec 64 × List PpToken → IfResult}
    (h : Outcome env r r' n) (hf : ∀ v rest rest', SamePlace env (.operator 12) rest rest' →
      pending rest + pending rest' ≤ n → Outcome env (f (v, rest)) (f' (v, rest')) n') :
    Outcome env (r >>= f) (r' >>= f') n' := by
  rcases h with ⟨e, e', rfl, rfl⟩ | ⟨v, rest, rest', rfl, rfl, hrest, hle⟩
  · exact .inl ⟨e, e', rfl, rfl⟩
  · exact hf v rest rest' hrest hle

theorem outcome_stay {ts ts' rest rest' : List PpToken} {n : ℕ} (v : BitVec 64)
    (h : SamePlace env (.operator 12) ts ts') (hn : pending ts + pending ts' ≤ n)
    (hskip : skipWhitespace ts = rest) (hskip' : skipWhitespace ts' = rest') :
    Outcome env (.ok (v, rest)) (.ok (v, rest')) n := by
  subst hskip hskip'
  refine .inr ⟨v, _, _, rfl, rfl, h.skip (skipWhitespace_skipWhitespace _)
    (skipWhitespace_skipWhitespace _), ?_⟩
  rwa [pending, pending, skipWhitespace_skipWhitespace, skipWhitespace_skipWhitespace]

theorem pending_le (tokens : List PpToken) : pending tokens ≤ tokens.length :=
  length_skipWhitespace_le tokens

theorem pending_of_skip {ts rest : List PpToken} {t : PpToken} (h : skipWhitespace ts = t :: rest) :
    pending rest < pending ts := by
  rw [pending, pending, h, List.length_cons]
  exact Nat.lt_succ_of_le (length_skipWhitespace_le rest)

end Outcomes

section Levels

variable {env : IfEnv} {primary p q : List PpToken → IfResult} {k m : ℕ}

/-- What one level keeps, with the readings that it hands down. -/
structure LevelOk (env : IfEnv) (primary p q : List PpToken → IfResult) (k m : ℕ) : Prop where
  skip : ∀ ts, p (skipWhitespace ts) = p ts ∧ q (skipWhitespace ts) = q ts
  similar : Similar env p q k m
  /-- An operand that `primary` reads is read by the level, too, where no operator of it follows. -/
  passes : ∀ {ts rest behind : List PpToken} {t : PpToken}
    {value : Except PreprocessorError (BitVec 64)}, skipWhitespace ts = t :: rest →
    (∀ op, t.text ≠ unaryText op) →
    skipped (primary (t :: rest)) = value.map (fun v => (v, skipWhitespace behind)) →
    Stops k behind → skipped (p ts) = value.map fun v => (v, skipWhitespace behind)
  reads : Reads (IsPlain env) q k k m

/-- `primary` reads an invocation as what its expansion computes. -/
def ReadsInvocations (env : IfEnv) (primary : List PpToken → IfResult) (m : ℕ) : Prop :=
  ∀ {t : PpToken} {rest behind gap : List PpToken} {expansion : List Token} {e : OperandTree},
    t.kind = .identifier → Word t.text → unexpandedOperand env t rest = none →
    invocation env t.text rest = some (.ok expansion, behind) →
    ifMacroLine expansion = e.tokens ++ gap → (∀ g ∈ gap, g.kind = .whitespace) →
    e.Readable (IsPlain env) → 1 ≤ e.level → e.size < m →
    skipped (primary (t :: rest)) = e.computed.map fun v => (v, skipWhitespace behind)

theorem OperandTree.size_le {e : OperandTree} (he : e.Readable (IsPlain env))
    (rest : List PpToken) :
    e.size + rest.length ≤ (skipWhitespace (e.tokens ++ rest)).length := by
  have hmark : ∀ {kind : PpTokenKind} {text : String} (m : Mark kind text) (hkind : kind ≠ .whitespace)
      (more : List PpToken), (skipWhitespace (m.tokens ++ more)).length = more.length + 1 :=
    fun m hkind more => by rw [m.skipWhitespace hkind, List.length_cons]
  have hlength : ∀ {kind : PpTokenKind} {text : String} (m : Mark kind text) (more : List PpToken),
      more.length + 1 ≤ (m.tokens ++ more).length := fun m more => by
    rw [Mark.tokens, List.length_append, List.length_append, List.length_singleton]
    omega
  induction e generalizing rest with
  | operand o =>
    obtain ⟨gap, t, htokens, hgap, ht, -⟩ := he
    rw [OperandTree.tokens, htokens, List.append_assoc, skipWhitespace_gap hgap,
      List.singleton_append, skipWhitespace_cons ht.not_whitespace, List.length_cons,
      OperandTree.size, Nat.add_comm]
  | paren opening e closing ih =>
    have hinner := Nat.le_trans (ih he (closing.tokens ++ rest)) (length_skipWhitespace_le _)
    have hclose := hlength closing rest
    rw [OperandTree.tokens, OperandTree.size, List.append_assoc, List.append_assoc,
      hmark opening (by decide)]
    omega
  | unary op m e ih =>
    have hinner := Nat.le_trans (ih he.1 rest) (length_skipWhitespace_le _)
    rw [OperandTree.tokens, OperandTree.size, List.append_assoc, hmark m (by decide)]
    omega
  | binary op l m r ihl ihr =>
    have hright := Nat.le_trans (ihr he.2.1 rest) (length_skipWhitespace_le _)
    have hop := hlength m (r.tokens ++ rest)
    have hleft := ihl he.1 (m.tokens ++ (r.tokens ++ rest))
    rw [OperandTree.tokens, OperandTree.size, List.append_assoc, List.append_assoc]
    omega
  | cond c question x colon y ihc ihx ihy =>
    have helse := Nat.le_trans (ihy he.2.2.1 rest) (length_skipWhitespace_le _)
    have hcolon := hlength colon (y.tokens ++ rest)
    have hthen := Nat.le_trans (ihx he.2.1 (colon.tokens ++ (y.tokens ++ rest)))
      (length_skipWhitespace_le _)
    have hquestion := hlength question (x.tokens ++ (colon.tokens ++ (y.tokens ++ rest)))
    have hcond := ihc he.1 (question.tokens ++ (x.tokens ++ (colon.tokens ++ (y.tokens ++ rest))))
    simp only [OperandTree.tokens, OperandTree.size, List.append_assoc] at hcond ⊢
    omega

/-- An invocation whose expansion is just of the level `k`. -/
def InvokedAt (env : IfEnv) (k m : ℕ) (ts ts' : List PpToken) : Prop :=
  ∃ (t : PpToken) (rest behind behind' : List PpToken) (e : OperandTree),
    skipWhitespace ts = t :: rest ∧ skipWhitespace ts' = skipWhitespace (e.tokens ++ behind') ∧
    (∀ op, t.text ≠ unaryText op) ∧ e.Readable (IsPlain env) ∧ e.level = k ∧ e.size < m ∧
    SamePlace env (.operator k) behind behind' ∧
    pending behind + (e.size + pending behind') ≤ pending ts + pending ts' ∧
    ∀ primary, ReadsInvocations env primary m →
      skipped (primary (t :: rest)) = e.computed.map fun v => (v, skipWhitespace behind)

theorem OperandHead.next_or_invoked {ts ts' : List PpToken}
    (h : OperandHead env k (skipWhitespace ts) (skipWhitespace ts'))
    (hm : pending ts + pending ts' < m) :
    OperandHead env (k + 1) (skipWhitespace ts) (skipWhitespace ts') ∨ InvokedAt env k m ts ts' := by
  generalize hus : skipWhitespace ts = us at h
  generalize hus' : skipWhitespace ts' = us' at h
  cases h with
  | nil => exact .inl .nil
  | unary op htext hrest => exact .inl (.unary op htext hrest)
  | opening htext hrest => exact .inl (.opening htext hrest)
  | taken htext hleft hright hbehind hlength => exact .inl (.taken htext hleft hright hbehind hlength)
  | refused htext hleft hright => exact .inl (.refused htext hleft hright)
  | @expanded t rest behind behind' gap expansion e hkind htext hoperand hinv htokens hgap he hpos
      hlevel hbehind =>
    rcases Nat.lt_or_eq_of_le hlevel with hlt | heq
    · exact .inl (.expanded hkind htext hoperand hinv htokens hgap he hpos hlt hbehind)
    · have hsize := e.size_le he behind'
      have hinside := invocation_length hinv
      have hle := pending_le behind
      have hle' := pending_le behind'
      rw [pending, pending, hus, hus', List.length_cons] at hm
      refine .inr ⟨t, rest, behind, behind', e, hus, hus', htext.2.2, he, heq.symm, by omega,
        heq ▸ hbehind, ?_, fun primary hprimary => hprimary hkind htext hoperand hinv htokens hgap he
          hpos (by omega)⟩
      rw [pending, pending, pending, pending, hus, hus', List.length_cons]
      rw [pending] at hle hle'
      omega

variable {ops : String → Option IfOp} {fuel fuel' : ℕ}

theorem OpsAt.precedence_of {op : BinaryOp} {t : PpToken} {f : IfOp} (hops : OpsAt ops k)
    (htext : t.text = binaryText op) (h : ops t.text = some f) : binaryPrecedence op = k := by
  obtain ⟨op', htext', hk⟩ := hops.precedence t.text f h
  rwa [binaryText_injective (htext.symm.trans htext')]

/-- A text that is no binary operator is in none of the tables. -/
theorem opsAt_none {text : String} (hops : OpsAt ops k) (h : ∀ op, text ≠ binaryText op) :
    ops text = none := by
  cases hop : ops text with
  | none => rfl
  | some f =>
    obtain ⟨op, htext, -⟩ := hops.precedence text f hop
    exact absurd htext (h op)

/-- The two heads at which no operator is read. -/
theorem OperatorHead.no_operator {l : ℕ} {t t' : PpToken} {rest rest' : List PpToken}
    (h : OperatorHead env l (t :: rest) (t' :: rest')) :
    (t = t' ∧ (rest = [] ↔ rest' = []) ∧ ∃ op, t.text = binaryText op ∧
      SamePlace env (.operand (rightLevel op)) rest rest') ∨
      (∀ op, t.text ≠ binaryText op) ∧ ∀ op, t'.text ≠ binaryText op := by
  cases h with
  | binary op htext hleft hnil hrest => exact .inl ⟨rfl, hnil, op, htext, hrest⟩
  | select htext hrest =>
    have hne : ∀ op, t.text ≠ binaryText op := fun op h =>
      htext.elim (fun hq => (binaryText_ne op).1 (h.symm.trans hq))
        fun hc => (binaryText_ne op).2.1 (h.symm.trans hc)
    exact .inr ⟨hne, hne⟩
  | closing htext hrest =>
    have hne : ∀ op, t.text ≠ binaryText op := fun op h =>
      (binaryText_ne op).2.2 (h.symm.trans htext)
    exact .inr ⟨hne, hne⟩
  | stopped ht ht' => exact .inr ⟨ht.1, ht'.1⟩

/-- The loops of a level keep step: each round takes the same operator and similar operands. -/
theorem binaryLoop_similar (hops : OpsAt ops k) (hk : k ≠ 6) (h : Similar env p q (k + 1) m)
    {rest rest' : List PpToken} (hrest : SamePlace env (.operator 12) rest rest') (v : BitVec 64)
    (hm : pending rest + pending rest' < m) (hfuel : pending rest + pending rest' < fuel)
    (hfuel' : pending rest + pending rest' < fuel') :
    Outcome env (binaryLoop ops p fuel v rest) (binaryLoop ops q fuel' v rest')
      (pending rest + pending rest') := by
  induction fuel generalizing fuel' rest rest' v with
  | zero => exact absurd hfuel (Nat.not_lt_zero _)
  | succ fuel ih =>
    obtain ⟨fuel', rfl⟩ : ∃ f, fuel' = f + 1 := ⟨fuel' - 1, by omega⟩
    have hhead := hrest.operator_head
    have hstay := outcome_stay v hrest (Nat.le_refl _) rfl rfl
    rw [binaryLoop, binaryLoop]
    cases hskip : skipWhitespace rest with
    | nil =>
      rw [hskip] at hhead hstay
      generalize hskip' : skipWhitespace rest' = us' at hhead hstay
      cases hhead
      exact hstay
    | cons t more =>
      cases hskip' : skipWhitespace rest' with
      | nil =>
        rw [hskip, hskip'] at hhead
        cases hhead
      | cons t' more' =>
        rw [hskip, hskip'] at hhead hstay
        have hlt := pending_of_skip hskip
        have hlt' := pending_of_skip hskip'
        rcases hhead.no_operator with ⟨rfl, -, op, htext, hmore⟩ | ⟨hne, hne'⟩
        · cases hop : ops t.text with
          | none =>
            simp only [hop]
            exact hstay
          | some f =>
            have hprec := hops.precedence_of htext hop
            have hright : rightLevel op = k + 1 := by
              rw [rightLevel, hprec, if_neg hk]
            rw [hright] at hmore
            simp only [hop]
            refine (h more more' hmore.operand_head (by omega)).bind fun w after after' hafter hle => ?_
            simp only
            cases hvalue : f v w with
            | error e => exact .inl ⟨e, e, rfl, rfl⟩
            | ok z =>
              exact (ih hafter z (by omega) (by omega) (by omega)).mono (by omega)
        · simp only [opsAt_none hops hne, opsAt_none hops hne']
          exact hstay

/-- A level with a loop. -/
theorem levelOk_binaryLevel (h : LevelOk env primary p q (k + 1) m) (hops : OpsAt ops k)
    (hk : 1 ≤ k ∧ k ≤ 10) (hk' : k ≠ 6 ∧ k ≠ 7) (hm : 0 < m) (hfuel : m ≤ fuel) (hfuel' : m ≤ fuel')
    (hprimary : ReadsInvocations env primary m) :
    LevelOk env primary (binaryLevel ops p fuel) (binaryLevel ops q fuel') k m where
  skip ts := by
    unfold binaryLevel
    rw [(h.skip ts).1, (h.skip ts).2]
    exact ⟨rfl, rfl⟩
  similar := by
    intro ts ts' hts hm
    rcases hts.next_or_invoked hm with hnext | ⟨t, rest, behind, behind', e, hskip, hskip', htext, he,
      hlevel, hsize, hbehind, hle, hvalue⟩
    · refine (h.similar ts ts' hnext hm).bind fun v rest rest' hrest hle => ?_
      exact (binaryLoop_similar hops hk'.1 h.similar hrest v (by omega) (by omega) (by omega)).mono hle
    · have hstops := hbehind.stops (k := k + 1) (fun q hq => by
        rcases hq with hq | ⟨rfl, -⟩ <;> omega) (by omega)
      have hleft : binaryLevel ops p fuel ts =
          e.computed.bind fun v => binaryLoop ops p fuel v behind := by
        have hpass := h.passes hskip htext (hvalue primary hprimary) hstops.1
        unfold binaryLevel
        rcases cases_of_skipped hpass with ⟨err, hparse, hvalue⟩ | ⟨v, after, hparse, hvalue, hafter⟩
        · rw [hparse, hvalue]
          rfl
        · rw [hparse, hvalue]
          exact binaryLoop_congr hafter v
      obtain ⟨fuel'', hfuel'', hright⟩ := binaryLevel_chain hops hk h.reads he
        (Nat.le_of_eq hlevel.symm) hsize (Nat.lt_of_lt_of_le hsize hfuel') hstops.2
      have hright' : binaryLevel ops q fuel' ts' =
          e.computed.bind fun v => binaryLoop ops q fuel'' v behind' := by
        rw [← hright]
        unfold binaryLevel
        rw [← (h.skip ts').2, hskip', (h.skip _).2]
      rw [hleft, hright']
      cases hcomputed : e.computed with
      | error err => exact .inl ⟨err, err, rfl, rfl⟩
      | ok v =>
        have hlevel' := e.level_le
        exact (binaryLoop_similar hops hk'.1 h.similar
          (hbehind.operator_mono (hlevel ▸ hlevel')) v (by omega) (by omega) (by omega)).mono (by omega)
  passes := by
    intro ts rest behind t value hskip htext hvalue hstop
    obtain ⟨f, rfl⟩ : ∃ f, fuel = f + 1 := ⟨fuel - 1, by omega⟩
    have hpass := h.passes hskip htext hvalue (hstop.mono (Nat.le_succ k))
    unfold binaryLevel
    rcases cases_of_skipped hpass with ⟨err, hparse, hvalue⟩ | ⟨v, after, hparse, hvalue, hafter⟩
    · rw [hparse, hvalue]
      rfl
    · rw [hparse, hvalue]
      refine Eq.trans (congrArg skipped (binaryLoop_congr hafter v)) ?_
      exact binaryLoop_stops hops hstop v
  reads := binaryLevel_reads hops hk h.reads hfuel'

/-- A level without a loop: one round at most, with the right operand read by `right`. -/
theorem binaryOnce_similar {right right' : List PpToken → IfResult} {n : ℕ} (hops : OpsAt ops k)
    (h : Similar env p q (k + 1) m)
    (hright : ∀ op, binaryPrecedence op = k → Similar env right right' (rightLevel op) n)
    (hm : m ≤ n + 1) {ts ts' : List PpToken}
    (hts : OperandHead env (k + 1) (skipWhitespace ts) (skipWhitespace ts'))
    (hlt : pending ts + pending ts' < m) :
    Outcome env (binaryOnce ops p right ts) (binaryOnce ops q right' ts')
      (pending ts + pending ts') := by
  unfold binaryOnce
  refine (h ts ts' hts hlt).bind fun v rest rest' hrest hle => ?_
  have hhead := hrest.operator_head
  have hstay := outcome_stay v hrest hle rfl rfl
  simp only
  cases hskip : skipWhitespace rest with
  | nil =>
    rw [hskip] at hhead hstay
    generalize hskip' : skipWhitespace rest' = us' at hhead hstay
    cases hhead
    exact hstay
  | cons t more =>
    cases hskip' : skipWhitespace rest' with
    | nil =>
      rw [hskip, hskip'] at hhead
      cases hhead
    | cons t' more' =>
      rw [hskip, hskip'] at hhead hstay
      have hlt := pending_of_skip hskip
      have hlt' := pending_of_skip hskip'
      rcases hhead.no_operator with ⟨rfl, hnil, op, htext, hmore⟩ | ⟨hne, hne'⟩
      · have hsame : (if more' = [] then none else ops t.text) =
            if more = [] then none else ops t.text := by
          simp only [hnil]
        simp only [hsame]
        cases hop : (if more = [] then none else ops t.text) with
        | none => exact hstay
        | some f =>
          have hop' : ops t.text = some f := by
            split_ifs at hop
            exact hop
          have hprec := hops.precedence_of htext hop'
          refine (hright op hprec more more' hmore.operand_head (by omega)).bind
            fun w after after' hafter hle => ?_
          simp only
          cases hvalue : f v w with
          | error e => exact .inl ⟨e, e, rfl, rfl⟩
          | ok z => exact .inr ⟨z, after, after', rfl, rfl, hafter, by omega⟩
      · have hnone : (if more = [] then none else ops t.text) = none := by
          rw [opsAt_none hops hne, ite_self]
        have hnone' : (if more' = [] then none else ops t'.text) = none := by
          rw [opsAt_none hops hne', ite_self]
        simp only [hnone, hnone']
        exact hstay

theorem levelOk_binaryOnce {right right' : List PpToken → IfResult} {n : ℕ}
    (h : LevelOk env primary p q (k + 1) m) (hops : OpsAt ops k) (hk : k = 6 ∨ k = 7)
    (hright : ∀ op, binaryPrecedence op = k → Similar env right right' (rightLevel op) n)
    (hm : m ≤ n + 1) (hreads : Reads (IsPlain env) (binaryOnce ops q right') k k m)
    (hprimary : ReadsInvocations env primary m) :
    LevelOk env primary (binaryOnce ops p right) (binaryOnce ops q right') k m where
  skip ts := by
    unfold binaryOnce
    rw [(h.skip ts).1, (h.skip ts).2]
    exact ⟨rfl, rfl⟩
  similar := by
    intro ts ts' hts hlt
    rcases hts.next_or_invoked hlt with hnext | ⟨t, rest, behind, behind', e, hskip, hskip', htext, he,
      hlevel, hsize, hbehind, hle, hvalue⟩
    · exact binaryOnce_similar hops h.similar hright hm hnext hlt
    · -- the level takes no operator behind its own result
      have hstops := hbehind.stops (k := k) (fun q hq => by
        rcases hq with hq | ⟨rfl, h6, h7⟩
        · exact hq
        · omega) (by omega)
      have hpass := h.passes hskip htext (hvalue primary hprimary) (hstops.1.mono (Nat.le_succ k))
      have hvalue' := hreads e he (Nat.le_of_eq hlevel.symm) hsize behind' hstops.2
      have hskips : binaryOnce ops q right' ts' = binaryOnce ops q right' (e.tokens ++ behind') := by
        unfold binaryOnce
        rw [← (h.skip ts').2, hskip', (h.skip _).2]
      have hlevel' := e.level_le
      exact .of_value hbehind (hlevel ▸ hlevel') (binaryOnce_stops hops hpass hstops.1)
        (hskips ▸ hvalue') (by omega)
  passes hskip htext hvalue hstop :=
    binaryOnce_stops hops (h.passes hskip htext hvalue (hstop.mono (Nat.le_succ k))) hstop
  reads := hreads

theorem levelOk_comparison (h : LevelOk env primary p q 8 m)
    (hprimary : ReadsInvocations env primary m) :
    LevelOk env primary (binaryOnce comparisonOps p p) (binaryOnce comparisonOps q q) 7 m := by
  have hright : ∀ op, binaryPrecedence op = 7 → Similar env p q (rightLevel op) m := fun op hop => by
    rw [rightLevel, hop]
    exact h.similar
  exact levelOk_binaryOnce h comparisonOps_at (.inr rfl) hright (Nat.le_succ m)
    (binaryOnce_reads comparisonOps_at (.inr rfl) h.reads (h.reads.mono (Nat.le_refl 8) (by decide)))
    hprimary

variable {primary' : List PpToken → IfResult} {rounds rounds' : ℕ}

/-- The right operand of `==` is of the same level again, with fewer tokens. -/
theorem levelOk_equality
    (h : LevelOk env primary (parseIfComparison primary fuel) (parseIfComparison primary' fuel') 7 m)
    (hprimary : ReadsInvocations env primary m) (hrounds : m < rounds) (hrounds' : m < rounds') :
    LevelOk env primary (parseIfEquality primary fuel rounds) (parseIfEquality primary' fuel' rounds')
      6 m := by
  induction m generalizing rounds rounds' with
  | zero =>
    obtain ⟨r, rfl⟩ : ∃ r, rounds = r + 1 := ⟨rounds - 1, by omega⟩
    obtain ⟨r', rfl⟩ : ∃ r, rounds' = r + 1 := ⟨rounds' - 1, by omega⟩
    exact levelOk_binaryOnce (n := 0) h equalityOps_at (.inl rfl)
      (fun op hop ts ts' hts hlt => absurd hlt (Nat.not_lt_zero _)) (Nat.zero_le _)
      (fun e he hlevel hn => absurd hn (Nat.not_lt_zero _)) hprimary
  | succ m ih =>
    obtain ⟨r, rfl⟩ : ∃ r, rounds = r + 1 := ⟨rounds - 1, by omega⟩
    obtain ⟨r', rfl⟩ : ∃ r, rounds' = r + 1 := ⟨rounds' - 1, by omega⟩
    have hless : LevelOk env primary (parseIfComparison primary fuel)
        (parseIfComparison primary' fuel') 7 m :=
      ⟨h.skip, h.similar.mono (Nat.le_succ m), h.passes,
        fun e he hlevel hn => h.reads e he hlevel (Nat.lt_succ_of_lt hn)⟩
    have hright := ih hless (fun h1 h2 h3 h4 h5 h6 h7 h8 hn =>
      hprimary h1 h2 h3 h4 h5 h6 h7 h8 (Nat.lt_succ_of_lt hn)) (Nat.lt_of_succ_lt_succ hrounds)
      (Nat.lt_of_succ_lt_succ hrounds')
    refine levelOk_binaryOnce (n := m) h equalityOps_at (.inl rfl) (fun op hop => ?_) (Nat.le_refl _)
      (parseIfEquality_reads h.reads (Nat.le_of_lt hrounds')) hprimary
    rw [rightLevel, hop]
    exact hright.similar

end Levels

section Unary

variable {env : IfEnv} {primary primary' : List PpToken → IfResult} {m fuel fuel' : ℕ}

theorem parseIfUnary_skip (tokens : List PpToken) :
    parseIfUnary primary fuel (skipWhitespace tokens) = parseIfUnary primary fuel tokens := by
  cases fuel with
  | zero => rfl
  | succ fuel => rw [parseIfUnary, parseIfUnary, skipWhitespace_skipWhitespace]

/-- Without a prefix operator in front it is `primary` that reads. -/
theorem parseIfUnary_operand {t : PpToken} {ts rest : List PpToken} (hskip : skipWhitespace ts = t :: rest)
    (htext : ∀ op, t.text ≠ unaryText op) :
    parseIfUnary primary (fuel + 1) ts = primary (t :: rest) := by
  rw [parseIfUnary, hskip]
  simp only
  rw [if_neg (show t.text ≠ "!" from htext .not), if_neg (show t.text ≠ "~" from htext .bitNot),
    if_neg (show t.text ≠ "-" from htext .minus), if_neg (show t.text ≠ "+" from htext .plus)]

theorem parseIfUnary_operator {t : PpToken} {ts rest : List PpToken} (op : UnaryOp)
    (hskip : skipWhitespace ts = t :: rest) (htext : t.text = unaryText op) :
    parseIfUnary primary (fuel + 1) ts =
      (parseIfUnary primary fuel rest >>= fun r => pure (ifUnary op r.1, r.2)) := by
  have hplus : parseIfUnary primary fuel rest =
      (parseIfUnary primary fuel rest >>= fun r => pure (ifUnary .plus r.1, r.2)) := by
    cases parseIfUnary primary fuel rest <;> rfl
  rw [parseIfUnary, hskip]
  simp only [htext]
  cases op with
  | plus => exact hplus
  | minus => rfl
  | not => rfl
  | bitNot => rfl

/-- What the readings of operands have in common, but for the macros. -/
def SimilarOperands (env : IfEnv) (primary primary' : List PpToken → IfResult) (m : ℕ) : Prop :=
  ∀ {t : PpToken} {rest rest' : List PpToken}, t.kind ≠ .whitespace →
    (∀ op, t.text ≠ unaryText op) → OperandHead env 13 (t :: rest) (t :: rest') → rest.length + rest'.length + 2 < m →
    Outcome env (primary (t :: rest)) (primary' (t :: rest')) (rest.length + rest'.length + 2)

/-- How `primary'` reads the operands of an expansion. -/
structure ReadsPlain (env : IfEnv) (primary' : List PpToken → IfResult) (m : ℕ) : Prop where
  reads : ∀ j, Reads (IsPlain env) primary' 12 j m
  skip : ∀ tokens, primary' (skipWhitespace tokens) = primary' tokens
  takes : ∀ o, IsPlain env o → Takes primary' o

theorem parseIfUnary_similar (hprimary : ReadsInvocations env primary m)
    (hplain : ReadsPlain env primary' m) (hoperands : SimilarOperands env primary primary' m)
    {ts ts' : List PpToken} (hts : OperandHead env 11 (skipWhitespace ts) (skipWhitespace ts'))
    (hlt : pending ts + pending ts' < m) (hfuel : pending ts + pending ts' < fuel)
    (hfuel' : pending ts + pending ts' < fuel') :
    Outcome env (parseIfUnary primary fuel ts) (parseIfUnary primary' fuel' ts')
      (pending ts + pending ts') := by
  induction fuel generalizing fuel' ts ts' with
  | zero => exact absurd hfuel (Nat.not_lt_zero _)
  | succ fuel ih =>
    obtain ⟨fuel', rfl⟩ : ∃ f, fuel' = f + 1 := ⟨fuel' - 1, by omega⟩
    have hoperand : ∀ {t : PpToken} {rest rest' : List PpToken}, skipWhitespace ts = t :: rest →
        skipWhitespace ts' = t :: rest' → (∀ op, t.text ≠ unaryText op) →
        OperandHead env 13 (t :: rest) (t :: rest') →
        Outcome env (parseIfUnary primary (fuel + 1) ts) (parseIfUnary primary' (fuel' + 1) ts')
          (pending ts + pending ts') := by
      intro t rest rest' hskip hskip' htext hhead
      have hpending : pending ts + pending ts' = rest.length + rest'.length + 2 := by
        rw [pending, pending, hskip, hskip', List.length_cons, List.length_cons]
        omega
      rw [parseIfUnary_operand hskip htext, parseIfUnary_operand hskip' htext, hpending]
      exact hoperands (skipWhitespace_head hskip) htext hhead (hpending ▸ hlt)
    generalize hus : skipWhitespace ts = us at hts
    generalize hus' : skipWhitespace ts' = us' at hts
    cases hts with
    | nil =>
      rw [parseIfUnary, parseIfUnary, hus, hus']
      exact .inl ⟨_, _, rfl, rfl⟩
    | unary op htext hrest =>
      have hless := pending_of_skip hus
      have hless' := pending_of_skip hus'
      rw [parseIfUnary_operator op hus htext, parseIfUnary_operator op hus' htext]
      refine (ih hrest.operand_head (by omega) (by omega) (by omega)).bind
        fun v rest rest' hrest hle => ?_
      exact .inr ⟨ifUnary op v, rest, rest', rfl, rfl, hrest, by omega⟩
    | opening htext hrest =>
      exact hoperand hus hus' (fun op => by rw [htext]; cases op <;> decide) (.opening htext hrest)
    | taken htext hleft hright hbehind hlength =>
      exact hoperand hus hus' htext (.taken htext hleft hright hbehind hlength)
    | refused htext hleft hright => exact hoperand hus hus' htext (.refused htext hleft hright)
    | @expanded t rest behind behind' gap expansion e hkind htext hinv_operand hinv htokens hgap he
        hpos hlevel hbehind =>
      have hsize := e.size_le he behind'
      have hinside := invocation_length hinv
      have hle := pending_le behind
      have hle' := pending_le behind'
      have hpending : pending ts + pending ts' =
          rest.length + 1 + (skipWhitespace (e.tokens ++ behind')).length := by
        rw [pending, pending, hus, hus', List.length_cons]
      have hstops := hbehind.stops (k := 13)
        (fun q hq => by have hlevel := e.level_le; rcases hq with hq | ⟨rfl, -⟩ <;> omega) (by decide)
      have hright : parseIfUnary primary' (fuel' + 1) ts' =
          parseIfUnary primary' (fuel' + 1) (e.tokens ++ behind') := by
        rw [← parseIfUnary_skip ts', hus', parseIfUnary_skip]
      rw [parseIfUnary_operand hus htext.2.2, hright]
      exact .of_value hbehind e.level_le
        (hprimary hkind htext hinv_operand hinv htokens hgap he hpos (by omega))
        (parseIfUnary_tree (hplain.reads 13) hplain.skip hplain.takes e he hlevel (by omega)
          (by omega) hstops.2) (by omega)

theorem levelOk_unary (hprimary : ReadsInvocations env primary m)
    (hplain : ReadsPlain env primary' m) (hoperands : SimilarOperands env primary primary' m)
    (hfuel : m < fuel) (hfuel' : m < fuel') :
    LevelOk env primary (parseIfUnary primary fuel) (parseIfUnary primary' fuel') 11 m where
  skip ts := ⟨parseIfUnary_skip ts, parseIfUnary_skip ts⟩
  similar ts ts' hts hlt :=
    parseIfUnary_similar hprimary hplain hoperands hts hlt (by omega) (by omega)
  passes hhead htext hvalue _ := by
    obtain ⟨f, rfl⟩ : ∃ f, fuel = f + 1 := ⟨fuel - 1, by omega⟩
    rw [parseIfUnary_operand hhead htext]
    exact hvalue
  reads e he hlevel hn rest hstop :=
    parseIfUnary_tree (hplain.reads 11) hplain.skip hplain.takes e he hlevel hn (by omega) hstop

/-- All the levels, one on the other. -/
theorem levelOk_or (hprimary : ReadsInvocations env primary m)
    (hplain : ReadsPlain env primary' m) (hoperands : SimilarOperands env primary primary' m)
    (hm : 0 < m) (hfuel : m < fuel) (hfuel' : m < fuel') :
    LevelOk env primary (parseIfOrOf primary fuel) (parseIfOrOf primary' fuel') 1 m := by
  have hle := Nat.le_of_lt hfuel
  have hle' := Nat.le_of_lt hfuel'
  have hunary := levelOk_unary hprimary hplain hoperands hfuel hfuel'
  have hmul := levelOk_binaryLevel hunary multiplicativeOps_at (by decide) (by decide) hm hle hle'
    hprimary
  have hadd := levelOk_binaryLevel hmul additiveOps_at (by decide) (by decide) hm hle hle' hprimary
  have hshift := levelOk_binaryLevel hadd shiftOps_at (by decide) (by decide) hm hle hle' hprimary
  have hcomparison := levelOk_comparison hshift hprimary
  have hequality := levelOk_equality hcomparison hprimary hfuel hfuel'
  have hbitand := levelOk_binaryLevel hequality bitandOps_at (by decide) (by decide) hm hle hle'
    hprimary
  have hbitxor := levelOk_binaryLevel hbitand bitxorOps_at (by decide) (by decide) hm hle hle'
    hprimary
  have hbitor := levelOk_binaryLevel hbitxor bitorOps_at (by decide) (by decide) hm hle hle' hprimary
  have hand := levelOk_binaryLevel hbitor andOps_at (by decide) (by decide) hm hle hle' hprimary
  exact levelOk_binaryLevel hand orOps_at (by decide) (by decide) hm hle hle' hprimary

end Unary

section Conditional

variable {env : IfEnv} {parseOr parseOr' : List PpToken → IfResult} {m fuel fuel' : ℕ}

theorem OperandHead.or {us us' : List PpToken} (h : OperandHead env 0 us us') :
    OperandHead env 1 us us' := by
  cases h with
  | nil => exact .nil
  | unary op htext hrest => exact .unary op htext hrest
  | opening htext hrest => exact .opening htext hrest
  | taken htext hleft hright hbehind hlength => exact .taken htext hleft hright hbehind hlength
  | expanded hkind htext hoperand hinv htokens hgap he hpos hlevel hbehind =>
    exact .expanded hkind htext hoperand hinv htokens hgap he hpos hpos hbehind
  | refused htext hleft hright => exact .refused htext hleft hright

/-- The heads of the two rests ask for the same punctuator, if it is not an operator. -/
theorem OperatorHead.punctuator {l : ℕ} {t t' : PpToken} {rest rest' : List PpToken} {text : String}
    (h : OperatorHead env l (t :: rest) (t' :: rest'))
    (htext : text = "?" ∨ text = ":" ∨ text = ")") :
    (t.text = text ∧ t'.text = text ∧ OperatorHead env l (t :: rest) (t :: rest')) ∨
      t.text ≠ text ∧ t'.text ≠ text := by
  by_cases hsame : t = t'
  · subst hsame
    by_cases heq : t.text = text
    · exact .inl ⟨heq, heq, h⟩
    · exact .inr ⟨heq, heq⟩
  · cases h with
    | binary | select | closing => exact absurd rfl hsame
    | stopped ht ht' =>
      refine .inr ?_
      rcases htext with rfl | rfl | rfl
      · exact ⟨ht.2.1, ht'.2.1⟩
      · exact ⟨ht.2.2.1, ht'.2.2.1⟩
      · exact ⟨ht.2.2.2, ht'.2.2.2⟩

theorem OperatorHead.select_rest {l : ℕ} {t : PpToken} {rest rest' : List PpToken}
    (h : OperatorHead env l (t :: rest) (t :: rest')) (htext : t.text = "?" ∨ t.text = ":") :
    SamePlace env (.operand 0) rest rest' := by
  cases h with
  | binary op hop =>
    rcases htext with htext | htext
    · exact absurd (hop.symm.trans htext) (binaryText_ne op).1
    · exact absurd (hop.symm.trans htext) (binaryText_ne op).2.1
  | select _ hrest => exact hrest
  | closing hclose =>
    rcases htext with htext | htext <;> exact absurd (hclose.symm.trans htext) (by decide)
  | stopped ht =>
    rcases htext with htext | htext
    · exact absurd htext ht.2.1
    · exact absurd htext ht.2.2.1

theorem OperatorHead.closing_rest {l : ℕ} {t : PpToken} {rest rest' : List PpToken}
    (h : OperatorHead env l (t :: rest) (t :: rest')) (htext : t.text = ")") :
    SamePlace env (.operator 12) rest rest' := by
  cases h with
  | binary op hop => exact absurd (hop.symm.trans htext) (binaryText_ne op).2.2
  | select hselect =>
    rcases hselect with hselect | hselect <;> exact absurd (hselect.symm.trans htext) (by decide)
  | closing _ hrest => exact hrest
  | stopped ht => exact absurd htext ht.2.2.2

/-- Behind the same place both lists are at their end, or neither is. -/
theorem SamePlace.skip_cases {l : ℕ} {ts ts' : List PpToken}
    (h : SamePlace env (.operator l) ts ts') :
    (skipWhitespace ts = [] ∧ skipWhitespace ts' = []) ∨ ∃ t rest t' rest',
      skipWhitespace ts = t :: rest ∧ skipWhitespace ts' = t' :: rest' ∧
        OperatorHead env l (t :: rest) (t' :: rest') := by
  have hhead := h.operator_head
  generalize skipWhitespace ts = us at hhead ⊢
  generalize skipWhitespace ts' = us' at hhead ⊢
  cases us with
  | nil =>
    cases hhead
    exact .inl ⟨rfl, rfl⟩
  | cons t rest =>
    cases us' with
    | nil => cases hhead
    | cons t' rest' => exact .inr ⟨t, rest, t', rest', rfl, rfl, hhead⟩

theorem parseIfConditionalOf_similar (h : Similar env parseOr parseOr' 1 m)
    {ts ts' : List PpToken} (hts : OperandHead env 0 (skipWhitespace ts) (skipWhitespace ts'))
    (hlt : pending ts + pending ts' < m) (hfuel : pending ts + pending ts' < fuel)
    (hfuel' : pending ts + pending ts' < fuel') :
    Outcome env (parseIfConditionalOf parseOr fuel ts) (parseIfConditionalOf parseOr' fuel' ts')
      (pending ts + pending ts') := by
  induction fuel generalizing fuel' ts ts' with
  | zero => exact absurd hfuel (Nat.not_lt_zero _)
  | succ fuel ih =>
    obtain ⟨fuel', rfl⟩ : ∃ f, fuel' = f + 1 := ⟨fuel' - 1, by omega⟩
    rw [parseIfConditionalOf, parseIfConditionalOf]
    refine (h ts ts' hts.or hlt).bind fun v rest rest' hrest hle => ?_
    have hstay := outcome_stay v hrest hle rfl rfl
    simp only
    rcases hrest.skip_cases with ⟨hskip, hskip'⟩ | ⟨t, more, t', more', hskip, hskip', hhead⟩
    · rw [hskip, hskip'] at hstay ⊢
      exact hstay
    have hless := pending_of_skip hskip
    have hless' := pending_of_skip hskip'
    rw [hskip, hskip'] at hstay ⊢
    simp only
    rcases hhead.punctuator (.inl rfl) with ⟨htext, htext', hhead⟩ | ⟨htext, htext'⟩
    swap
    · rw [if_neg htext, if_neg htext']
      exact hstay
    rw [if_pos htext, if_pos htext']
    refine (ih (hhead.select_rest (.inl htext)).operand_head (by omega) (by omega) (by omega)).bind
      fun a next next' hnext hle' => ?_
    simp only
    rcases hnext.skip_cases with ⟨hskip, hskip'⟩ | ⟨c, behind, c', behind', hskip, hskip', hhead⟩
    · rw [hskip, hskip']
      exact .inl ⟨_, _, rfl, rfl⟩
    have hless := pending_of_skip hskip
    have hless' := pending_of_skip hskip'
    rw [hskip, hskip']
    simp only
    rcases hhead.punctuator (.inr (.inl rfl)) with ⟨htext, htext', hhead⟩ | ⟨htext, htext'⟩
    swap
    · rw [if_neg htext, if_neg htext']
      exact .inl ⟨_, _, rfl, rfl⟩
    rw [if_pos htext, if_pos htext']
    refine (ih (hhead.select_rest (.inr htext)).operand_head (by omega) (by omega) (by omega)).bind
      fun b after after' hafter hle'' => ?_
    exact .inr ⟨_, after, after', rfl, rfl, hafter, by omega⟩

/-- Parentheses, and the operands that are the same on both lines. -/
theorem parseIfPrimary_similar {conditional conditional' : List PpToken → IfResult} {n : ℕ}
    (h : Similar env conditional conditional' 0 n) (hm : m ≤ n + 1) :
    SimilarOperands env (parseIfPrimary env (parseIfIdentifier env parseOr) conditional)
      (parseIfPrimary env (plainIdentifier env parseOr') conditional') m := by
  intro t rest rest' hkind htext hhead hlt
  have hlength := pending_le rest
  have hlength' := pending_le rest'
  generalize hus : t :: rest' = us' at hhead
  cases hhead with
  | unary op htext' => exact absurd htext' (htext op)
  | expanded _ _ _ _ _ _ _ _ hlevel => exact absurd (Nat.le_trans hlevel (OperandTree.level_le _)) (by decide)
  | refused _ hleft hright =>
    obtain ⟨e, hleft⟩ := hleft parseOr conditional
    obtain ⟨e', hright⟩ := hright parseOr' conditional'
    exact .inl ⟨e, e', hleft, hus ▸ hright⟩
  | @taken _ _ more behind behind' v _ hleft hright hbehind hlengths =>
    obtain ⟨-, rfl⟩ := List.cons.inj hus
    obtain ⟨after, hleft, hskip⟩ := hleft parseOr conditional
    obtain ⟨after', hright, hskip'⟩ := hright parseOr' conditional'
    refine .inr ⟨v, after, after', hleft, hright, hbehind.skip hskip hskip', ?_⟩
    have hle := pending_le behind
    have hle' := pending_le behind'
    rw [pending, pending, hskip, hskip']
    rw [pending] at hle hle'
    omega
  | opening hparen hrest =>
    obtain ⟨-, rfl⟩ := List.cons.inj hus
    rw [parseIfPrimary, parseIfPrimary, skipWhitespace_cons hkind, skipWhitespace_cons hkind]
    simp only
    rw [if_pos hparen, if_pos hparen]
    refine (h rest rest' hrest.operand_head (by omega)).bind fun v after after' hafter hle => ?_
    simp only
    rcases hafter.skip_cases with ⟨hskip, hskip'⟩ | ⟨c, behind, c', behind', hskip, hskip', hhead⟩
    · rw [hskip, hskip']
      exact .inl ⟨_, _, rfl, rfl⟩
    have hless := pending_of_skip hskip
    have hless' := pending_of_skip hskip'
    rw [hskip, hskip']
    simp only
    rcases hhead.punctuator (.inr (.inr rfl)) with ⟨hclose, hclose', hhead⟩ | ⟨hclose, hclose'⟩
    · rw [if_pos hclose, if_pos hclose']
      exact .inr ⟨v, behind, behind', rfl, rfl, hhead.closing_rest hclose, by omega⟩
    · rw [if_neg hclose, if_neg hclose']
      exact .inl ⟨_, _, rfl, rfl⟩

end Conditional

end OpticC.Preprocessor
