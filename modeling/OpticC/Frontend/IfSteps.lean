import OpticC.Frontend.IfAgreement
import OpticC.Frontend.MacroFaults
import OpticC.Lib.Scripts

/-! The steps of the evaluation of an `#if` line: which operators it applies and which macros it
expands is settled by the tokens, up to the first step that fails. -/

namespace OpticC.Preprocessor

open Enumerators (UnaryOp BinaryOp)
open Scripts

section Checks

/-- Whether the build checks arithmetic for overflow. Divisions are checked in every build. -/
inductive OverflowChecks where
  | off | on
  deriving DecidableEq, Repr

variable (o : OverflowChecks)

def negate (v : BitVec 64) : Except PreprocessorError (BitVec 64) :=
  if o = .on ∧ v = BitVec.intMin 64 then .error (.fault .overflow) else .ok (-v)

/-- `parse_if_unary` of the build. -/
def parseIfUnaryIn (primary : List PpToken → IfResult) : ℕ → List PpToken → IfResult
  | 0, _ => .error (.fault .outOfFuel)
  | fuel + 1, tokens =>
    match skipWhitespace tokens with
    | [] => .error (.conditionalError "unexpected end of #if expression")
    | t :: rest =>
      if t.text = "!" then do
        let (value, behind) ← parseIfUnaryIn primary fuel rest
        return (flag (value == 0), behind)
      else if t.text = "~" then do
        let (value, behind) ← parseIfUnaryIn primary fuel rest
        return (~~~value, behind)
      else if t.text = "-" then do
        let (value, behind) ← parseIfUnaryIn primary fuel rest
        let value ← negate o value
        return (value, behind)
      else if t.text = "+" then parseIfUnaryIn primary fuel rest
      else primary (t :: rest)

def equalityOver (comparison : List PpToken → IfResult) : ℕ → List PpToken → IfResult
  | 0 => fun _ => .error (.fault .outOfFuel)
  | rounds + 1 => binaryOnce equalityOps comparison (equalityOver comparison rounds)

/-- The levels from `parse_if_or` down, over what reads the operands of `*`. -/
def parseIfOrOver (unary : List PpToken → IfResult) (fuel : ℕ) : List PpToken → IfResult :=
  let additive := binaryLevel additiveOps (binaryLevel multiplicativeOps unary fuel) fuel
  let shift := binaryLevel shiftOps additive fuel
  let comparison := binaryOnce comparisonOps shift shift
  let bitand := binaryLevel bitandOps (equalityOver comparison fuel) fuel
  let bitor := binaryLevel bitorOps (binaryLevel bitxorOps bitand fuel) fuel
  binaryLevel orOps (binaryLevel andOps bitor fuel) fuel

def parseIfOrIn (env : IfEnv) : ℕ → List PpToken → IfResult
  | 0 => fun _ => .error (.fault .outOfFuel)
  | fuel + 1 =>
    let parseOr := parseIfOrIn env fuel
    parseIfOrOver (parseIfUnaryIn o (parseIfPrimary env (parseIfIdentifier env parseOr)
      (parseIfConditionalOf parseOr fuel)) fuel) fuel

/-- `parse_if_expression` of the build. -/
def evalIfLineIn (env : IfEnv) (fuel : ℕ) (tokens : List PpToken) : IfResult :=
  (parseIfConditionalOf (parseIfOrIn o env fuel) fuel tokens).map fun r =>
    (r.1, skipToDirectiveEnd r.2)

theorem parseIfUnaryIn_off (primary : List PpToken → IfResult) (fuel : ℕ) :
    parseIfUnaryIn .off primary fuel = parseIfUnary primary fuel := by
  funext tokens
  induction fuel generalizing tokens with
  | zero => rfl
  | succ fuel ih =>
    rw [parseIfUnaryIn, parseIfUnary]
    simp only [ih]
    rfl

theorem equalityOver_eq (primary : List PpToken → IfResult) (fuel rounds : ℕ) :
    equalityOver (parseIfComparison primary fuel) rounds =
      parseIfEquality primary fuel rounds := by
  induction rounds with
  | zero => rfl
  | succ rounds ih => rw [equalityOver, parseIfEquality, ih]

theorem parseIfOrOver_unary (primary : List PpToken → IfResult) (fuel : ℕ) :
    parseIfOrOver (parseIfUnary primary fuel) fuel = parseIfOrOf primary fuel := by
  unfold parseIfOrOf parseIfAnd parseIfBitor parseIfBitxor parseIfBitand
  rw [← equalityOver_eq]
  rfl

theorem parseIfOrIn_off (env : IfEnv) (fuel : ℕ) : parseIfOrIn .off env fuel = parseIfOr env fuel := by
  induction fuel with
  | zero => rfl
  | succ fuel ih =>
    rw [parseIfOrIn, parseIfUnaryIn_off, parseIfOrOver_unary, ih]
    rfl

/-- Without the checks it is the evaluator of the other modules. -/
theorem evalIfLineIn_off (env : IfEnv) (fuel : ℕ) (tokens : List PpToken) :
    evalIfLineIn .off env fuel tokens = evalIfLine env fuel tokens := by
  rw [evalIfLineIn, parseIfOrIn_off]
  rfl

end Checks

section Steps

/-- A value as the line computes it. -/
inductive IfFormula where
  | value (v : BitVec 64)
  | unary (op : UnaryOp) (e : IfFormula)
  | binary (op : BinaryOp) (l r : IfFormula)
  | cond (c x y : IfFormula)

/-- The value in wrapping arithmetic. -/
def IfFormula.eval : IfFormula → BitVec 64
  | value v => v
  | unary op e => ifUnary op e.eval
  | binary op l r => wrappedOp op l.eval r.eval
  | cond c x y => if c.eval != 0 then x.eval else y.eval

def Invocation.expansion (env : IfEnv) : Invocation → Except Fault (List Token)
  | objectLike replacement => expandMacroTokens env.chars env.macros env.expansionFuel replacement
  | functionLike params isVariadic variadicParam args replacement => do
    let substituted ←
      expandFunctionMacroTokens env.chars params isVariadic variadicParam args replacement []
    expandMacroTokens env.chars env.macros env.expansionFuel substituted

inductive IfStep where
  | binary (op : BinaryOp) (l r : IfFormula)
  | minus (e : IfFormula)
  /-- `within` are the macros whose expansions are being evaluated, the outermost first. -/
  | expand (within : List String) (name : String) (i : Invocation)

def IfStep.perform (o : OverflowChecks) (env : IfEnv) : IfStep → Except PreprocessorError Unit
  | binary op l r => (ifOp op l.eval r.eval).map fun _ => ()
  | minus e => (negate o e.eval).map fun _ => ()
  | expand _ _ i => (liftFault (i.expansion env)).map fun _ => ()

/-- The script of an expression, with the tokens behind it. -/
abbrev IfScript := Script IfStep PreprocessorError (IfFormula × List PpToken)

/-- The operators of the evaluator's tables. -/
def operatorAt (k : ℕ) (text : String) : Option BinaryOp :=
  [.add, .sub, .mul, .div, .rem, .eq, .ne, .lt, .gt, .le, .ge, .land, .lor, .and, .or, .xor, .shl,
    .shr].find? fun op => binaryText op == text && binaryPrecedence op == k

section Levels

variable (k : ℕ) (next : List PpToken → IfScript)

def binaryLoopSteps : ℕ → IfFormula → List PpToken → IfScript
  | 0, _, _ => .of (.error (.fault .outOfFuel))
  | fuel + 1, left, tokens =>
    match skipWhitespace tokens with
    | [] => pure (left, [])
    | t :: rest =>
      match operatorAt k t.text with
      | none => pure (left, t :: rest)
      | some op => do
        let (right, behind) ← next rest
        Script.step (.binary op left right)
        binaryLoopSteps fuel (.binary op left right) behind

def binaryLevelSteps (fuel : ℕ) (tokens : List PpToken) : IfScript := do
  let (left, rest) ← next tokens
  binaryLoopSteps k next fuel left rest

def binaryOnceSteps (right : List PpToken → IfScript) (tokens : List PpToken) : IfScript := do
  let (left, rest) ← next tokens
  match skipWhitespace rest with
  | [] => return (left, [])
  | t :: more =>
    match if more = [] then none else operatorAt k t.text with
    | none => return (left, t :: more)
    | some op =>
      let (right, behind) ← right more
      Script.step (.binary op left right)
      return (.binary op left right, behind)

end Levels

def equalitySteps (comparison : List PpToken → IfScript) : ℕ → List PpToken → IfScript
  | 0 => fun _ => .of (.error (.fault .outOfFuel))
  | rounds + 1 => binaryOnceSteps 6 comparison (equalitySteps comparison rounds)

def parseIfUnarySteps (primary : List PpToken → IfScript) : ℕ → List PpToken → IfScript
  | 0, _ => .of (.error (.fault .outOfFuel))
  | fuel + 1, tokens =>
    match skipWhitespace tokens with
    | [] => .of (.error (.conditionalError "unexpected end of #if expression"))
    | t :: rest =>
      if t.text = "!" then do
        let (e, behind) ← parseIfUnarySteps primary fuel rest
        return (.unary .not e, behind)
      else if t.text = "~" then do
        let (e, behind) ← parseIfUnarySteps primary fuel rest
        return (.unary .bitNot e, behind)
      else if t.text = "-" then do
        let (e, behind) ← parseIfUnarySteps primary fuel rest
        Script.step (.minus e)
        return (.unary .minus e, behind)
      else if t.text = "+" then parseIfUnarySteps primary fuel rest
      else primary (t :: rest)

def parseIfOrOverSteps (unary : List PpToken → IfScript) (fuel : ℕ) : List PpToken → IfScript :=
  let additive := binaryLevelSteps 9 (binaryLevelSteps 10 unary fuel) fuel
  let shift := binaryLevelSteps 8 additive fuel
  let comparison := binaryOnceSteps 7 shift shift
  let bitand := binaryLevelSteps 5 (equalitySteps comparison fuel) fuel
  let bitor := binaryLevelSteps 3 (binaryLevelSteps 4 bitand fuel) fuel
  binaryLevelSteps 1 (binaryLevelSteps 2 bitor fuel) fuel

def parseIfConditionalSteps (parseOr : List PpToken → IfScript) : ℕ → List PpToken → IfScript
  | 0, _ => .of (.error (.fault .outOfFuel))
  | fuel + 1, tokens => do
    let (condition, rest) ← parseOr tokens
    match skipWhitespace rest with
    | [] => return (condition, [])
    | t :: more =>
      if t.text = "?" then
        let (x, next) ← parseIfConditionalSteps parseOr fuel more
        match skipWhitespace next with
        | [] => .of (.error (.conditionalError "expected : in #if ternary expression"))
        | colon :: behind =>
          if colon.text = ":" then
            let (y, behind) ← parseIfConditionalSteps parseOr fuel behind
            return (.cond condition x y, behind)
          else .of (.error (.conditionalError "expected : in #if ternary expression"))
      else return (condition, t :: more)

variable (env : IfEnv)

/-- An operand that is read in one piece. -/
def pieceSteps (r : IfResult) : IfScript := .of (r.map fun v => (.value v.1, v.2))

def evalIfMacroTokensSteps (parseOr : List PpToken → IfScript) (tokens : List Token) :
    Script IfStep PreprocessorError IfFormula :=
  if (ifMacroLine tokens).all fun t => t.kind == .whitespace then pure (.value 0)
  else do
    let (e, _) ← parseOr (ifMacroLine tokens ++ [⟨.newline, "\n", 0, 0⟩])
    return e

def invocationSteps (within : List String) (parseOr : List PpToken → IfScript) (name : String)
    (i : Invocation) (behind : List PpToken) : IfScript := do
  Script.step (.expand within name i)
  let expanded ← Script.of (liftFault (i.expansion env))
  let e ← evalIfMacroTokensSteps parseOr expanded
  return (e, behind)

def parseIfIdentifierSteps (within : List String) (parseOr : String → List PpToken → IfScript)
    (name : String) (rest : List PpToken) : IfScript :=
  match featureProbe env name with
  | some predicate => pieceSteps (parseFeatureProbe predicate rest)
  | none =>
    match env.macros.lookup name with
    | none => pieceSteps (.ok (0, rest))
    | some (.objectLike replacement) =>
      invocationSteps env within (parseOr name) name (.objectLike replacement) rest
    | some (.functionLike params isVariadic variadicParam replacement) =>
      match skipWhitespace rest with
      | [] => pieceSteps (.ok (1, rest))
      | paren :: inside =>
        if paren.text = "(" then
          let (args, behind) := collectPpMacroArgs params.length isVariadic env.file inside [] [] 0
          invocationSteps env within (parseOr name) name
            (.functionLike params isVariadic variadicParam args replacement) behind
        else pieceSteps (.ok (1, rest))

def parseIfPrimarySteps (identifier : String → List PpToken → IfScript)
    (conditional : List PpToken → IfScript) (tokens : List PpToken) : IfScript :=
  match skipWhitespace tokens with
  | [] => .of (.error (.conditionalError "unexpected end of #if expression"))
  | t :: rest =>
    if t.text = "(" then do
      let (e, behind) ← conditional rest
      let missing (place : PpToken) (found : String) : PreprocessorError :=
        .conditionalError ("expected ) in #if expression at " ++ toString place.line ++ ":" ++
          toString place.column ++ " near " ++ found)
      match skipWhitespace behind with
      | [] => .of (.error (missing (rest.getLast?.getD t) "<eol>"))
      | close :: behind =>
        if close.text = ")" then return (e, behind)
        else .of (.error (missing close close.text))
    else if t.text = "defined" then pieceSteps (parseDefined env rest)
    else if t.kind = .number then pieceSteps (.ok (parseIntLiteral t.text, rest))
    else if t.kind = .identifier then identifier t.text rest
    else if t.kind = .charLit then pieceSteps (.ok (parseCharLiteral t.text, rest))
    else .of (.error (.conditionalError ("unexpected token in #if expression: " ++ t.text)))

def parseIfOrSteps : ℕ → List String → List PpToken → IfScript
  | 0, _ => fun _ => .of (.error (.fault .outOfFuel))
  | fuel + 1, within =>
    parseIfOrOverSteps (parseIfUnarySteps (parseIfPrimarySteps env
      (parseIfIdentifierSteps env within fun name => parseIfOrSteps fuel (within ++ [name]))
      (parseIfConditionalSteps (parseIfOrSteps fuel within) fuel)) fuel) fuel

/-- The steps of `parse_if_expression`. -/
def evalIfLineSteps (fuel : ℕ) (tokens : List PpToken) : IfScript := do
  let (e, rest) ← parseIfConditionalSteps (parseIfOrSteps env fuel []) fuel tokens
  return (e, skipToDirectiveEnd rest)

end Steps

section Runs

variable {o : OverflowChecks} {env : IfEnv}

/-- A run of the script has the result. What it comes to with all steps done is no fault but the
end of the fuel. -/
structure Computes {α β : Type} (o : OverflowChecks) (env : IfEnv) (eval : α → β)
    (s : Script IfStep PreprocessorError α) (r : Except PreprocessorError β) : Prop where
  result : (run (IfStep.perform o env) s).map eval = r
  fault : ∀ f, FailsAtEnd (IfStep.perform o env) s (.fault f) → f = .outOfFuel

/-- The value of what the script reads. -/
def lineResult (p : IfFormula × List PpToken) : BitVec 64 × List PpToken := (p.1.eval, p.2)

theorem Computes.of {r : Except PreprocessorError (IfFormula × List PpToken)} {v : IfResult}
    (hr : r.map lineResult = v) (h : ∀ f, v = .error (.fault f) → f = .outOfFuel) :
    Computes o env lineResult (Script.of r) v where
  result := by rw [run_of, hr]
  fault f hf := h f (by rw [← hr, show r = _ from hf.2]; rfl)

theorem Computes.pure (p : IfFormula × List PpToken) :
    Computes o env lineResult (pure p) (.ok (lineResult p)) where
  result := rfl
  fault _ hf := nomatch hf.2

theorem Computes.bind {α β γ δ : Type} {eval : α → β} {eval' : γ → δ}
    {s : Script IfStep PreprocessorError α} {r : Except PreprocessorError β}
    {f : α → Script IfStep PreprocessorError γ} {g : β → Except PreprocessorError δ}
    (h : Computes o env eval s r) (hf : ∀ a, Computes o env eval' (f a) (g (eval a))) :
    Computes o env eval' (s >>= f) (r >>= g) where
  result := by
    rw [run_bind, ← h.result]
    cases hs : run (IfStep.perform o env) s with
    | error e => rfl
    | ok a => exact (hf a).result
  fault e hend := hend.of_bind.elim (h.fault e) fun ⟨a, _, ha⟩ => (hf a).fault e ha

/-- A step and what follows it. -/
theorem Computes.step {β γ δ : Type} {eval' : γ → δ} {x : IfStep} {r : Except PreprocessorError β}
    {s : Script IfStep PreprocessorError γ} {g : β → Except PreprocessorError δ}
    (hx : x.perform o env = r.map fun _ => ()) (hs : ∀ b, r = .ok b → Computes o env eval' s (g b))
    : Computes o env eval' (Script.step x >>= fun _ => s) (r >>= g) where
  result := by
    rw [run_bind, run_step, hx]
    cases hr : r with
    | error e => rfl
    | ok b => exact (hs b hr).result
  fault e hend := by
    rcases hend.of_bind with hend | ⟨u, hrun, hend⟩
    · exact nomatch hend.2
    · rw [run_step, hx] at hrun
      cases hr : r with
      | error e =>
        rw [hr] at hrun
        cases hrun
      | ok b => exact (hs b hr).fault e hend

/-- The scripts of one parser compute what another one evaluates to. -/
def Follows (o : OverflowChecks) (env : IfEnv) (steps : List PpToken → IfScript)
    (parser : List PpToken → IfResult) : Prop :=
  ∀ tokens, Computes o env lineResult (steps tokens) (parser tokens)

theorem computes_outOfFuel :
    Computes o env lineResult (.of (.error (.fault .outOfFuel))) (.error (.fault .outOfFuel)) :=
  .of rfl fun f hf => by
    injection hf with hf
    injection hf with hf
    exact hf.symm

theorem computes_conditionalError (message : String) :
    Computes o env lineResult (.of (.error (.conditionalError message)))
      (.error (.conditionalError message)) :=
  .of rfl nofun

theorem OpsAt.eq_operatorAt {ops : String → Option IfOp} {k : ℕ} (h : OpsAt ops k) (text : String) :
    ops text = (operatorAt k text).map ifOp := by
  unfold operatorAt
  cases hfind : List.find? _ _ with
  | none =>
    cases hops : ops text with
    | none => rfl
    | some f =>
      obtain ⟨op, htext, hk⟩ := h.precedence text f hops
      have hnot := List.find?_eq_none.1 hfind op (by cases op <;> decide)
      simp [htext, hk] at hnot
  | some op =>
    have hop := List.find?_some hfind
    simp only [Bool.and_eq_true, beq_iff_eq] at hop
    rw [← hop.1]
    exact h.of_precedence op hop.2

/-- An operator, and what is done with the result. -/
theorem computes_binary {op : BinaryOp} {l r : IfFormula} {s : IfScript}
    {g : BitVec 64 → IfResult} (hs : Computes o env lineResult s (g (IfFormula.binary op l r).eval)) :
    Computes o env lineResult (Script.step (.binary op l r) >>= fun _ => s)
      (ifOp op l.eval r.eval >>= g) :=
  .step rfl fun v hv => by
    rw [((ifOp_eq_ok_iff op _ _ v).1 hv).2]
    exact hs

section Levels

variable {ops : String → Option IfOp} {k : ℕ} {next right : List PpToken → IfResult}
  {next' right' : List PpToken → IfScript}

theorem binaryLoopSteps_computes (hops : OpsAt ops k) (h : Follows o env next' next) (fuel : ℕ)
    (left : IfFormula) (tokens : List PpToken) :
    Computes o env lineResult (binaryLoopSteps k next' fuel left tokens)
      (binaryLoop ops next fuel left.eval tokens) := by
  induction fuel generalizing left tokens with
  | zero => exact computes_outOfFuel
  | succ fuel ih =>
    rw [binaryLoopSteps, binaryLoop]
    cases skipWhitespace tokens with
    | nil => exact .pure _
    | cons t rest =>
      simp only [hops.eq_operatorAt]
      cases operatorAt k t.text with
      | none => exact .pure _
      | some op =>
        exact (h rest).bind fun p =>
          computes_binary (g := fun v => binaryLoop ops next fuel v p.2) (ih _ p.2)

theorem binaryLevelSteps_follows (hops : OpsAt ops k) (h : Follows o env next' next) (fuel : ℕ) :
    Follows o env (binaryLevelSteps k next' fuel) (binaryLevel ops next fuel) := fun tokens =>
  (h tokens).bind fun p => binaryLoopSteps_computes hops h fuel p.1 p.2

theorem binaryOnceSteps_follows (hops : OpsAt ops k) (h : Follows o env next' next)
    (hright : Follows o env right' right) :
    Follows o env (binaryOnceSteps k next' right') (binaryOnce ops next right) := by
  intro tokens
  refine (h tokens).bind fun p => ?_
  simp only [lineResult]
  cases skipWhitespace p.2 with
  | nil => exact .pure _
  | cons t more =>
    simp only [hops.eq_operatorAt]
    by_cases hmore : more = []
    · simp only [if_pos hmore]
      exact .pure _
    · simp only [if_neg hmore]
      cases operatorAt k t.text with
      | none => exact .pure _
      | some op =>
        exact (hright more).bind fun q =>
          computes_binary (g := fun v => .ok (v, q.2)) (.pure _)

theorem equalitySteps_follows (h : Follows o env next' next) (rounds : ℕ) :
    Follows o env (equalitySteps next' rounds) (equalityOver next rounds) := by
  induction rounds with
  | zero => exact fun _ => computes_outOfFuel
  | succ rounds ih => exact binaryOnceSteps_follows equalityOps_at h ih

theorem parseIfOrOverSteps_follows (h : Follows o env next' next) (fuel : ℕ) :
    Follows o env (parseIfOrOverSteps next' fuel) (parseIfOrOver next fuel) := by
  have hmul := binaryLevelSteps_follows multiplicativeOps_at h fuel
  have hshift := binaryLevelSteps_follows shiftOps_at
    (binaryLevelSteps_follows additiveOps_at hmul fuel) fuel
  have hequality := equalitySteps_follows
    (binaryOnceSteps_follows comparisonOps_at hshift hshift) fuel
  have hbitxor := binaryLevelSteps_follows bitxorOps_at
    (binaryLevelSteps_follows bitandOps_at hequality fuel) fuel
  have hand := binaryLevelSteps_follows andOps_at
    (binaryLevelSteps_follows bitorOps_at hbitxor fuel) fuel
  exact binaryLevelSteps_follows orOps_at hand fuel

theorem parseIfUnarySteps_follows (h : Follows o env next' next) (fuel : ℕ) :
    Follows o env (parseIfUnarySteps next' fuel) (parseIfUnaryIn o next fuel) := by
  intro tokens
  induction fuel generalizing tokens with
  | zero => exact computes_outOfFuel
  | succ fuel ih =>
    rw [parseIfUnarySteps, parseIfUnaryIn]
    cases skipWhitespace tokens with
    | nil => exact computes_conditionalError _
    | cons t rest =>
      simp only
      split_ifs
      · exact (ih rest).bind fun p => .pure _
      · exact (ih rest).bind fun p => .pure _
      · refine (ih rest).bind fun p => .step rfl fun v hv => ?_
        unfold negate at hv
        split_ifs at hv
        cases hv
        exact .pure _
      · exact ih rest
      · exact h (t :: rest)

theorem parseIfConditionalSteps_follows (h : Follows o env next' next) (fuel : ℕ) :
    Follows o env (parseIfConditionalSteps next' fuel) (parseIfConditionalOf next fuel) := by
  intro tokens
  induction fuel generalizing tokens with
  | zero => exact computes_outOfFuel
  | succ fuel ih =>
    refine (h tokens).bind fun p => ?_
    simp only [lineResult]
    cases skipWhitespace p.2 with
    | nil => exact .pure _
    | cons t more =>
      by_cases ht : t.text = "?"
      · simp only [if_pos ht]
        refine (ih more).bind fun x => ?_
        simp only [lineResult]
        cases skipWhitespace x.2 with
        | nil => exact computes_conditionalError _
        | cons colon behind =>
          by_cases hcolon : colon.text = ":"
          · simp only [if_pos hcolon]
            exact (ih behind).bind fun y => .pure (.cond p.1 x.1 y.1, y.2)
          · simp only [if_neg hcolon]
            exact computes_conditionalError _
      · simp only [if_neg ht]
        exact .pure _

end Levels

section Operands

theorem computes_piece {r : IfResult} (h : ∀ f, r ≠ .error (.fault f)) :
    Computes o env lineResult (pieceSteps r) r :=
  .of (by cases r <;> rfl) fun f hf => absurd hf (h f)

theorem parseDefined_noFault (rest : List PpToken) (f : Fault) :
    parseDefined env rest ≠ .error (.fault f) := by
  unfold parseDefined
  simp only
  cases skipWhitespace rest with
  | nil => rintro ⟨⟩
  | cons t behind =>
    simp only
    split_ifs
    · cases skipWhitespace behind with
      | nil => rintro ⟨⟩
      | cons name more =>
        simp only
        split_ifs <;> rintro ⟨⟩
    all_goals rintro ⟨⟩

theorem parseFeatureProbe_noFault (predicate : String → Bool) (rest : List PpToken) (f : Fault) :
    parseFeatureProbe predicate rest ≠ .error (.fault f) := by
  have hclose : ∀ (value : String) (tokens : List PpToken),
      (match skipWhitespace tokens with
        | [] => .error (.conditionalError "expected ) to close feature probe")
        | t :: behind =>
          if t.text = ")" then .ok (value, behind)
          else .error (.conditionalError "expected ) to close feature probe") :
        Except PreprocessorError (String × List PpToken)) ≠ .error (.fault f) := by
    intro value tokens
    cases skipWhitespace tokens with
    | nil => rintro ⟨⟩
    | cons t behind =>
      simp only
      split_ifs <;> rintro ⟨⟩
  have harg : parseFeatureProbeArgument rest ≠ .error (.fault f) := by
    unfold parseFeatureProbeArgument
    simp only
    cases skipWhitespace rest with
    | nil => rintro ⟨⟩
    | cons paren behind =>
      simp only
      split_ifs
      · rintro ⟨⟩
      · cases skipWhitespace behind with
        | nil => rintro ⟨⟩
        | cons t more =>
          simp only
          split_ifs
          · exact hclose _ _
          · cases more.dropWhile fun t => t.text != ">" with
            | nil => rintro ⟨⟩
            | cons angle behind => exact hclose _ _
          · exact hclose _ _
  unfold parseFeatureProbe
  cases hp : parseFeatureProbeArgument rest with
  | error e =>
    rw [hp] at harg
    exact fun h => harg (congrArg Except.error (Except.error.inj h))
  | ok v => rintro ⟨⟩

/-- An expansion, and the evaluation of what it gives. -/
theorem invocationSteps_computes (within : List String) {parseOr' : List PpToken → IfScript}
    {parseOr : List PpToken → IfResult} (h : Follows o env parseOr' parseOr) (name : String)
    (i : Invocation) (behind : List PpToken) :
    Computes o env lineResult (invocationSteps env within parseOr' name i behind) (do
      let expanded ← liftFault (i.expansion env)
      let value ← evalIfMacroTokens parseOr expanded
      return (value, behind)) := by
  refine .step rfl fun expanded hexpanded => ?_
  rw [hexpanded]
  have hline : Computes o env IfFormula.eval (evalIfMacroTokensSteps parseOr' expanded)
      (evalIfMacroTokens parseOr expanded) := by
    unfold evalIfMacroTokensSteps evalIfMacroTokens
    split_ifs
    · exact ⟨rfl, fun _ hf => nomatch hf.2⟩
    · rw [map_eq_bind]
      exact (h _).bind fun p => ⟨rfl, fun _ hf => nomatch hf.2⟩
  exact hline.bind fun e => .pure (e, behind)

theorem liftFault_bind {α β : Type} (x : Except Fault α) (f : α → Except Fault β) :
    liftFault (x >>= f) = liftFault x >>= fun a => liftFault (f a) := by
  cases x <;> rfl

variable {identifier' : String → List PpToken → IfScript}
  {identifier : String → List PpToken → IfResult}

theorem parseIfIdentifierSteps_follows (within : List String)
    {parseOr' : String → List PpToken → IfScript} {parseOr : List PpToken → IfResult}
    (h : ∀ name, Follows o env (parseOr' name) parseOr) (name : String) :
    Follows o env (parseIfIdentifierSteps env within parseOr' name)
      (parseIfIdentifier env parseOr name) := by
  intro rest
  unfold parseIfIdentifierSteps parseIfIdentifier
  cases featureProbe env name with
  | some predicate => exact computes_piece (parseFeatureProbe_noFault predicate rest)
  | none =>
    cases env.macros.lookup name with
    | none => exact computes_piece (by rintro _ ⟨⟩)
    | some d =>
      cases d with
      | objectLike replacement =>
        exact invocationSteps_computes within (h name) name (.objectLike replacement) rest
      | functionLike params isVariadic variadicParam replacement =>
        simp only
        cases skipWhitespace rest with
        | nil => exact computes_piece (by rintro _ ⟨⟩)
        | cons paren inside =>
          simp only
          split_ifs
          · have hcall := invocationSteps_computes within (h name) name
              (.functionLike params isVariadic variadicParam
                (collectPpMacroArgs params.length isVariadic env.file inside [] [] 0).1 replacement)
              (collectPpMacroArgs params.length isVariadic env.file inside [] [] 0).2
            simp only [Invocation.expansion, liftFault_bind, bind_assoc] at hcall
            exact hcall
          · exact computes_piece (by rintro _ ⟨⟩)

theorem parseIfPrimarySteps_follows {conditional' : List PpToken → IfScript}
    {conditional : List PpToken → IfResult} (hid : ∀ name, Follows o env (identifier' name)
      (identifier name)) (hcond : Follows o env conditional' conditional) :
    Follows o env (parseIfPrimarySteps env identifier' conditional')
      (parseIfPrimary env identifier conditional) := by
  intro tokens
  unfold parseIfPrimarySteps parseIfPrimary
  cases skipWhitespace tokens with
  | nil => exact computes_conditionalError _
  | cons t rest =>
    simp only
    split_ifs
    · refine (hcond rest).bind fun p => ?_
      simp only [lineResult]
      cases skipWhitespace p.2 with
      | nil => exact computes_conditionalError _
      | cons close behind =>
        by_cases hclose : close.text = ")"
        · simp only [if_pos hclose]
          exact .pure (p.1, behind)
        · simp only [if_neg hclose]
          exact computes_conditionalError _
    · exact computes_piece (parseDefined_noFault rest)
    · exact computes_piece (by rintro _ ⟨⟩)
    · exact hid t.text rest
    · exact computes_piece (by rintro _ ⟨⟩)
    · exact computes_conditionalError _

theorem parseIfOrSteps_follows (fuel : ℕ) (within : List String) :
    Follows o env (parseIfOrSteps env fuel within) (parseIfOrIn o env fuel) := by
  induction fuel generalizing within with
  | zero => exact fun _ => computes_outOfFuel
  | succ fuel ih =>
    have hcond := parseIfConditionalSteps_follows (ih within) fuel
    have hid := parseIfIdentifierSteps_follows within
      fun name => ih (within ++ [name])
    exact parseIfOrOverSteps_follows
      (parseIfUnarySteps_follows (parseIfPrimarySteps_follows hid hcond) fuel) fuel

/-- The evaluator of the build runs the steps of the line. -/
theorem evalIfLineSteps_computes (o : OverflowChecks) (env : IfEnv) (fuel : ℕ)
    (tokens : List PpToken) :
    Computes o env lineResult (evalIfLineSteps env fuel tokens) (evalIfLineIn o env fuel tokens) := by
  rw [evalIfLineIn, map_eq_bind]
  exact (parseIfConditionalSteps_follows (parseIfOrSteps_follows fuel []) fuel tokens).bind
    fun p => .pure (p.1, skipToDirectiveEnd p.2)

/-- The evaluator fails exactly if the steps of the line do. -/
theorem evalIfLineIn_error_iff (o : OverflowChecks) (env : IfEnv) (fuel : ℕ) (tokens : List PpToken)
    {e : PreprocessorError} :
    evalIfLineIn o env fuel tokens = .error e ↔
      run (IfStep.perform o env) (evalIfLineSteps env fuel tokens) = .error e := by
  rw [← (evalIfLineSteps_computes o env fuel tokens).result, map_eq_error_iff]

end Operands

end Runs

end OpticC.Preprocessor
