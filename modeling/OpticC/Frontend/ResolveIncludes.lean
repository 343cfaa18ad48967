import OpticC.Frontend.Directives

/-! `resolve_includes`: one round of its loop for each token or directive, with the two stacks
of the open conditional groups. -/

namespace OpticC.Preprocessor

/-- The variables of the loop. The innermost group is at the head of the stacks. -/
structure Scanner (σ : Type) where
  doc : Doc σ
  pending : List PpToken
  inIfStack : List Bool
  branchTaken : List Bool

namespace Scanner

variable {σ : Type}

def active (s : Scanner σ) : Bool := s.inIfStack.all id

/-- The groups around the innermost one. -/
def parentActive (s : Scanner σ) : Bool := s.inIfStack.tail.all id

def pushGroup (s : Scanner σ) (b : Bool) : Scanner σ :=
  { s with inIfStack := b :: s.inIfStack, branchTaken := b :: s.branchTaken }

def setGroup (s : Scanner σ) (b : Bool) : Scanner σ :=
  { s with inIfStack := b :: s.inIfStack.tail }

def setTaken (s : Scanner σ) : Scanner σ := { s with branchTaken := true :: s.branchTaken.tail }

def popGroup (s : Scanner σ) : Scanner σ :=
  { s with inIfStack := s.inIfStack.tail, branchTaken := s.branchTaken.tail }

end Scanner

section Loop

variable {σ : Type} (S : Services σ) (file : String)

/-- What a run of text is expanded to, with the macros of the moment. -/
def emit (d : Doc σ) (text : List PpToken) : Except Fault (Doc σ) :=
  if text = [] then .ok d
  else (S.expand d.unit.macros (ppTokensToTokens text file)).map fun tokens =>
    { d with result := d.result ++ tokens }

/-- `flush_pending` -/
def flushPending (s : Scanner σ) : Except Fault (Scanner σ) :=
  (emit S file s.doc s.pending).map fun doc => { s with doc, pending := [] }

def isMacroDefined (unit : PpState σ) (name : String) : Bool := (unit.macros.lookup name).isSome

/-- The round of a directive: the new variables, and an error or where the loop goes on.
`here` begins at the `#`, and `after` behind the name. -/
def directiveRound (s : Scanner σ) (d : Directive) (here after : List PpToken) :
    Scanner σ × Except PreprocessorError (List PpToken) :=
  match d with
  | .plain p =>
    if s.active then
      let (doc, rest) := perform S file p s.doc after
      ({ s with doc }, rest)
    else (s, .ok (skipToDirectiveEnd here))
  | .ifdef =>
    match parseSimpleDirectiveArg after with
    | .error e => (s, .error e)
    | .ok (name, rest) => (s.pushGroup (s.active && isMacroDefined s.doc.unit name), .ok rest)
  | .ifndef =>
    match parseSimpleDirectiveArg after with
    | .error e => (s, .error e)
    | .ok (name, rest) => (s.pushGroup (s.active && !isMacroDefined s.doc.unit name), .ok rest)
  | .ifExpr =>
    if s.active then
      match parseIfExpression S file s.doc.unit after with
      | .error e => (s, .error e)
      | .ok (value, rest) => (s.pushGroup (value != 0), .ok rest)
    else (s.pushGroup false, .ok (skipToDirectiveEnd here))
  | .elif =>
    match s.inIfStack with
    | [] => (s, .error (.conditionalError "#elif without #if"))
    | _ :: _ =>
      if s.branchTaken.head? = some true then (s.setGroup false, .ok (skipToDirectiveEnd here))
      else if s.parentActive then
        match parseIfExpression S file s.doc.unit after with
        | .error e => (s, .error e)
        | .ok (value, rest) =>
          (if value != 0 then (s.setGroup true).setTaken else s.setGroup false, .ok rest)
      else (s, .ok (skipToDirectiveEnd here))
  | .elseGroup =>
    match s.inIfStack with
    | [] => (s, .error (.conditionalError "#else without #if"))
    | _ :: _ =>
      if s.parentActive && s.branchTaken.head? != some true then
        ((s.setGroup true).setTaken, .ok (skipToDirectiveEnd here))
      else (s.setGroup false, .ok (skipToDirectiveEnd here))
  | .endif =>
    match s.inIfStack with
    | [] => (s, .error (.conditionalError "#endif without #if"))
    | _ :: _ => (s.popGroup, .ok (skipToDirectiveEnd here))

/-- One round of the loop at the token `t`. -/
def round (s : Scanner σ) (t : PpToken) (rest : List PpToken) :
    Scanner σ × Except PreprocessorError (List PpToken) :=
  if isDirectiveStart (t :: rest) then
    match flushPending S file s with
    | .error f => (s, .error (.fault f))
    | .ok s =>
      let (name, after) := parseDirectiveName rest
      directiveRound S file s (Directive.ofName name) (t :: rest) after
  else (if s.active then { s with pending := s.pending ++ [t] } else s, .ok rest)

theorem length_directiveRound_lt {s s' : Scanner σ} {d : Directive} {t : PpToken}
    {tail after rest : List PpToken} (ht : t.kind ≠ .newline) (hafter : after.length ≤ tail.length)
    (h : directiveRound S file s d (t :: tail) after = (s', .ok rest)) :
    rest.length < (t :: tail).length := by
  have hskip : (skipToDirectiveEnd (t :: tail)).length < (t :: tail).length := by
    rw [skipToDirectiveEnd, List.dropWhile_cons_of_pos (by simpa using ht)]
    exact Nat.lt_succ_of_le ((skipToDirectiveEnd_suffix tail).length_le)
  have hcons : ∀ {ts : List PpToken}, ts.length ≤ after.length → ts.length < (t :: tail).length :=
    fun hle => Nat.lt_succ_of_le (Nat.le_trans hle hafter)
  cases d with
  | plain p =>
    simp only [directiveRound] at h
    split_ifs at h
    · cases hp : perform S file p s.doc after with
      | mk doc result =>
        rw [hp] at h
        cases h
        exact hcons (perform_suffix S file hp).length_le
    · cases h
      exact hskip
  | ifdef =>
    simp only [directiveRound] at h
    cases harg : parseSimpleDirectiveArg after with
    | error e =>
      rw [harg] at h
      cases h
    | ok r =>
      rw [harg] at h
      cases h
      exact hcons (parseSimpleDirectiveArg_suffix harg).length_le
  | ifndef =>
    simp only [directiveRound] at h
    cases harg : parseSimpleDirectiveArg after with
    | error e =>
      rw [harg] at h
      cases h
    | ok r =>
      rw [harg] at h
      cases h
      exact hcons (parseSimpleDirectiveArg_suffix harg).length_le
  | ifExpr =>
    simp only [directiveRound] at h
    split_ifs at h
    · cases hif : parseIfExpression S file s.doc.unit after with
      | error e =>
        rw [hif] at h
        cases h
      | ok r =>
        rw [hif] at h
        cases h
        exact hcons (parseIfExpression_suffix S file hif).length_le
    · cases h
      exact hskip
  | elif =>
    simp only [directiveRound] at h
    cases hs : s.inIfStack with
    | nil =>
      rw [hs] at h
      cases h
    | cons b parents =>
      rw [hs] at h
      simp only at h
      split_ifs at h
      · cases h
        exact hskip
      · cases hif : parseIfExpression S file s.doc.unit after with
        | error e =>
          rw [hif] at h
          cases h
        | ok r =>
          rw [hif] at h
          cases h
          exact hcons (parseIfExpression_suffix S file hif).length_le
      · cases h
        exact hskip
  | elseGroup =>
    simp only [directiveRound] at h
    cases hs : s.inIfStack with
    | nil =>
      rw [hs] at h
      cases h
    | cons b parents =>
      rw [hs] at h
      simp only at h
      split_ifs at h <;> cases h <;> exact hskip
  | endif =>
    simp only [directiveRound] at h
    cases hs : s.inIfStack with
    | nil =>
      rw [hs] at h
      cases h
    | cons b parents =>
      rw [hs] at h
      cases h
      exact hskip

theorem isDirectiveStart_hash {t : PpToken} {rest : List PpToken}
    (h : isDirectiveStart (t :: rest) = true) : t.kind = .hash := by
  simp only [isDirectiveStart, Bool.and_eq_true, beq_iff_eq] at h
  exact h.1

theorem length_round_lt {s s' : Scanner σ} {t : PpToken} {tail rest : List PpToken}
    (h : round S file s t tail = (s', .ok rest)) : rest.length < (t :: tail).length := by
  unfold round at h
  by_cases hstart : isDirectiveStart (t :: tail) = true
  · rw [if_pos hstart] at h
    cases hflush : flushPending S file s with
    | error f =>
      rw [hflush] at h
      cases h
    | ok flushed =>
      rw [hflush] at h
      exact length_directiveRound_lt S file (by rw [isDirectiveStart_hash hstart]; decide)
        (parseDirectiveName_suffix tail).length_le h
  · rw [if_neg hstart] at h
    cases h
    exact Nat.lt_succ_self _

/-- The rounds, and what follows them at the end of the file. With an error comes the number
of the tokens that are left, the `#` of its directive being the first of them. -/
def loop (s : Scanner σ) (tokens : List PpToken) : Doc σ × Except (PreprocessorError × ℕ) PUnit :=
  match tokens with
  | [] =>
    match flushPending S file s with
    | .error f => (s.doc, .error (.fault f, 0))
    | .ok s =>
      if s.inIfStack ≠ [] then
        (s.doc, .error (.conditionalError "unterminated conditional directive", 0))
      else (s.doc, .ok ())
  | t :: rest =>
    match _h : round S file s t rest with
    | (s, .error e) => (s.doc, .error (e, rest.length + 1))
    | (s, .ok rest) => loop s rest
termination_by tokens.length
decreasing_by exact length_round_lt S file _h

/-- `resolve_includes` on the tokens of a file. -/
def resolveIncludes (unit : PpState σ) (tokens : List PpToken) :
    Doc σ × Except (PreprocessorError × ℕ) PUnit :=
  loop S file ⟨⟨unit, []⟩, [], [], []⟩ tokens

end Loop

end OpticC.Preprocessor
