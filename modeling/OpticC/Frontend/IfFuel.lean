import OpticC.Frontend.IfSteps

/-! An `#if` line evaluated with more fuel: the evaluation goes on where it ran out of it, and is
the same otherwise. -/

namespace OpticC.Preprocessor

open Scripts

def IfEnv.withFuel (env : IfEnv) (n : ℕ) : IfEnv := { env with expansionFuel := n }

section Expansion

variable {env : IfEnv} {n m : ℕ}

theorem Invocation.expansion_mono (hle : n ≤ m) {i : Invocation}
    (h : i.expansion (env.withFuel n) ≠ .error .outOfFuel) :
    i.expansion (env.withFuel m) = i.expansion (env.withFuel n) := by
  cases i with
  | objectLike replacement => exact expand_mono hle h
  | functionLike params isVariadic variadicParam args replacement =>
    rw [Invocation.expansion] at h
    rw [Invocation.expansion, Invocation.expansion]
    change (expandFunctionMacroTokens env.chars params isVariadic variadicParam args replacement []
      >>= fun substituted => expandMacroTokens env.chars env.macros n substituted) ≠ _ at h
    show (expandFunctionMacroTokens env.chars params isVariadic variadicParam args replacement []
      >>= fun substituted => expandMacroTokens env.chars env.macros m substituted) =
        (expandFunctionMacroTokens env.chars params isVariadic variadicParam args replacement []
          >>= fun substituted => expandMacroTokens env.chars env.macros n substituted)
    cases hsub : expandFunctionMacroTokens env.chars params isVariadic variadicParam args
        replacement [] with
    | error e => rfl
    | ok substituted =>
      rw [hsub] at h
      exact expand_mono hle h

end Expansion

section Extension

/-- The second script is the first one's with more fuel. -/
abbrev Extends {α : Type} (o : OverflowChecks) (env : IfEnv) (n m : ℕ)
    (s s' : Script IfStep PreprocessorError α) : Prop :=
  Improves (IfStep.perform o (env.withFuel n)) (IfStep.perform o (env.withFuel m))
    (.fault .outOfFuel) s s'

def ExtendsAll (o : OverflowChecks) (env : IfEnv) (n m : ℕ)
    (next next' : List PpToken → IfScript) : Prop :=
  ∀ tokens, Extends o env n m (next tokens) (next' tokens)

variable {o : OverflowChecks} {env : IfEnv} {n m : ℕ}

theorem IfStep.perform_mono (hle : n ≤ m) (x : IfStep)
    (h : x.perform o (env.withFuel n) ≠ .error (.fault .outOfFuel)) :
    x.perform o (env.withFuel m) = x.perform o (env.withFuel n) := by
  cases x with
  | binary op l r => rfl
  | minus e => rfl
  | expand within name i =>
    rw [IfStep.perform] at h
    rw [IfStep.perform, IfStep.perform, Invocation.expansion_mono hle]
    intro hexp
    rw [hexp] at h
    exact h rfl

theorem extends_pure {α : Type} (a : α) :
    Extends o env n m (pure a : Script IfStep PreprocessorError α) (pure a) :=
  .of (.ok a)

section Levels

variable {k fuel fuel' : ℕ} {next next' right right' : List PpToken → IfScript}

theorem binaryLoopSteps_extends (hle : n ≤ m) (h : ExtendsAll o env n m next next')
    (hfuel : fuel ≤ fuel') (left : IfFormula) (tokens : List PpToken) :
    Extends o env n m (binaryLoopSteps k next fuel left tokens)
      (binaryLoopSteps k next' fuel' left tokens) := by
  induction fuel generalizing fuel' left tokens with
  | zero => exact .stopped _
  | succ fuel ih =>
    obtain ⟨f, rfl⟩ : ∃ f, fuel' = f + 1 := ⟨fuel' - 1, by omega⟩
    rw [binaryLoopSteps, binaryLoopSteps]
    cases skipWhitespace tokens with
    | nil => exact extends_pure _
    | cons t rest =>
      cases hop : operatorAt k t.text with
      | none =>
        simp only [hop]
        exact extends_pure _
      | some op =>
        simp only [hop]
        exact (h rest).bind fun p => (Improves.step (IfStep.perform_mono hle _)).bind fun _ =>
          ih (Nat.le_of_succ_le_succ hfuel) _ p.2

theorem binaryLevelSteps_extends (hle : n ≤ m) (h : ExtendsAll o env n m next next')
    (hfuel : fuel ≤ fuel') :
    ExtendsAll o env n m (binaryLevelSteps k next fuel) (binaryLevelSteps k next' fuel') :=
  fun tokens => (h tokens).bind fun p => binaryLoopSteps_extends hle h hfuel p.1 p.2

theorem binaryOnceSteps_extends (hle : n ≤ m) (h : ExtendsAll o env n m next next')
    (hright : ExtendsAll o env n m right right') :
    ExtendsAll o env n m (binaryOnceSteps k next right) (binaryOnceSteps k next' right') := by
  refine fun tokens => (h tokens).bind fun p => ?_
  simp only
  cases skipWhitespace p.2 with
  | nil => exact extends_pure _
  | cons t more =>
    cases hop : (if more = [] then none else operatorAt k t.text) with
    | none =>
      simp only [hop]
      exact extends_pure _
    | some op =>
      simp only [hop]
      exact (hright more).bind fun q => (Improves.step (IfStep.perform_mono hle _)).bind fun _ =>
        extends_pure _

theorem equalitySteps_extends (hle : n ≤ m) (h : ExtendsAll o env n m next next')
    (hfuel : fuel ≤ fuel') :
    ExtendsAll o env n m (equalitySteps next fuel) (equalitySteps next' fuel') := by
  induction fuel generalizing fuel' with
  | zero => exact fun _ => .stopped _
  | succ fuel ih =>
    obtain ⟨f, rfl⟩ : ∃ f, fuel' = f + 1 := ⟨fuel' - 1, by omega⟩
    exact binaryOnceSteps_extends hle h (ih (Nat.le_of_succ_le_succ hfuel))

theorem parseIfOrOverSteps_extends (hle : n ≤ m) (h : ExtendsAll o env n m next next')
    (hfuel : fuel ≤ fuel') :
    ExtendsAll o env n m (parseIfOrOverSteps next fuel) (parseIfOrOverSteps next' fuel') := by
  have hlevel : ∀ {k : ℕ} {p p' : List PpToken → IfScript}, ExtendsAll o env n m p p' →
      ExtendsAll o env n m (binaryLevelSteps k p fuel) (binaryLevelSteps k p' fuel') :=
    fun h => binaryLevelSteps_extends hle h hfuel
  have hshift := hlevel (k := 8) (hlevel (k := 9) (hlevel (k := 10) h))
  have hequality := equalitySteps_extends hle
    (binaryOnceSteps_extends (k := 7) hle hshift hshift) hfuel
  exact hlevel (hlevel (hlevel (hlevel (hlevel hequality))))

theorem parseIfUnarySteps_extends (hle : n ≤ m) (h : ExtendsAll o env n m next next')
    (hfuel : fuel ≤ fuel') :
    ExtendsAll o env n m (parseIfUnarySteps next fuel) (parseIfUnarySteps next' fuel') := by
  induction fuel generalizing fuel' with
  | zero => exact fun _ => .stopped _
  | succ fuel ih =>
    obtain ⟨f, rfl⟩ : ∃ f, fuel' = f + 1 := ⟨fuel' - 1, by omega⟩
    have hrest := ih (Nat.le_of_succ_le_succ hfuel)
    intro tokens
    rw [parseIfUnarySteps, parseIfUnarySteps]
    cases skipWhitespace tokens with
    | nil => exact .of _
    | cons t rest =>
      simp only
      split_ifs
      · exact (hrest rest).bind fun p => extends_pure _
      · exact (hrest rest).bind fun p => extends_pure _
      · exact (hrest rest).bind fun p => (Improves.step (IfStep.perform_mono hle _)).bind fun _ =>
          extends_pure _
      · exact hrest rest
      · exact h (t :: rest)

theorem parseIfConditionalSteps_extends (h : ExtendsAll o env n m next next')
    (hfuel : fuel ≤ fuel') :
    ExtendsAll o env n m (parseIfConditionalSteps next fuel)
      (parseIfConditionalSteps next' fuel') := by
  induction fuel generalizing fuel' with
  | zero => exact fun _ => .stopped _
  | succ fuel ih =>
    obtain ⟨f, rfl⟩ : ∃ f, fuel' = f + 1 := ⟨fuel' - 1, by omega⟩
    have hrest := ih (Nat.le_of_succ_le_succ hfuel)
    refine fun tokens => (h tokens).bind fun p => ?_
    simp only
    cases skipWhitespace p.2 with
    | nil => exact extends_pure _
    | cons t more =>
      by_cases ht : t.text = "?"
      · simp only [if_pos ht]
        refine (hrest more).bind fun x => ?_
        cases skipWhitespace x.2 with
        | nil => exact .of _
        | cons colon behind =>
          by_cases hcolon : colon.text = ":"
          · simp only [if_pos hcolon]
            exact (hrest behind).bind fun y => extends_pure _
          · simp only [if_neg hcolon]
            exact .of _
      · simp only [if_neg ht]
        exact extends_pure _

end Levels

section Operands

variable {within : List String}

theorem invocationSteps_extends (hle : n ≤ m) {parseOr parseOr' : List PpToken → IfScript}
    (h : ExtendsAll o env n m parseOr parseOr') (name : String) (i : Invocation)
    (behind : List PpToken) :
    Extends o env n m (invocationSteps (env.withFuel n) within parseOr name i behind)
      (invocationSteps (env.withFuel m) within parseOr' name i behind) := by
  by_cases hexp : i.expansion (env.withFuel n) = .error .outOfFuel
  · have hperform : (IfStep.expand within name i).perform o (env.withFuel n) =
        .error (.fault .outOfFuel) := by
      rw [IfStep.perform, hexp]
      rfl
    exact .step_stopped hperform _ _
  · refine (Improves.step (IfStep.perform_mono hle _)).bind fun _ => ?_
    rw [Invocation.expansion_mono hle hexp]
    refine (Improves.of _).bind fun expanded => ?_
    have hline : Extends o env n m (evalIfMacroTokensSteps parseOr expanded)
        (evalIfMacroTokensSteps parseOr' expanded) := by
      unfold evalIfMacroTokensSteps
      split_ifs
      · exact extends_pure _
      · exact (h _).bind fun p => extends_pure _
    exact hline.bind fun e => extends_pure _

theorem parseIfIdentifierSteps_extends (within : List String) (hle : n ≤ m)
    {parseOr parseOr' : String → List PpToken → IfScript}
    (h : ∀ name, ExtendsAll o env n m (parseOr name) (parseOr' name)) (name : String) :
    ExtendsAll o env n m (parseIfIdentifierSteps (env.withFuel n) within parseOr name)
      (parseIfIdentifierSteps (env.withFuel m) within parseOr' name) := by
  intro rest
  unfold parseIfIdentifierSteps
  rw [show featureProbe (env.withFuel m) name = featureProbe (env.withFuel n) name from rfl,
    show (env.withFuel m).macros = (env.withFuel n).macros from rfl]
  cases featureProbe (env.withFuel n) name with
  | some predicate => exact .of _
  | none =>
    cases (env.withFuel n).macros.lookup name with
    | none => exact .of _
    | some d =>
      cases d with
      | objectLike replacement => exact invocationSteps_extends hle (h name) name _ rest
      | functionLike params isVariadic variadicParam replacement =>
        simp only
        cases skipWhitespace rest with
        | nil => exact .of _
        | cons paren inside =>
          simp only
          split_ifs
          · exact invocationSteps_extends hle (h name) name _ _
          · exact .of _

theorem parseIfPrimarySteps_extends {identifier identifier' : String → List PpToken → IfScript}
    {conditional conditional' : List PpToken → IfScript}
    (hid : ∀ name, ExtendsAll o env n m (identifier name) (identifier' name))
    (hcond : ExtendsAll o env n m conditional conditional') :
    ExtendsAll o env n m (parseIfPrimarySteps (env.withFuel n) identifier conditional)
      (parseIfPrimarySteps (env.withFuel m) identifier' conditional') := by
  intro tokens
  unfold parseIfPrimarySteps
  cases skipWhitespace tokens with
  | nil => exact .of _
  | cons t rest =>
    simp only
    split_ifs
    · refine (hcond rest).bind fun p => ?_
      cases skipWhitespace p.2 with
      | nil => exact .of _
      | cons close behind =>
        by_cases hclose : close.text = ")"
        · simp only [if_pos hclose]
          exact extends_pure _
        · simp only [if_neg hclose]
          exact .of _
    · exact .of _
    · exact .of _
    · exact hid t.text rest
    · exact .of _
    · exact .of _

theorem parseIfOrSteps_extends (hle : n ≤ m) {fuel fuel' : ℕ} (hfuel : fuel ≤ fuel')
    (within : List String) :
    ExtendsAll o env n m (parseIfOrSteps (env.withFuel n) fuel within)
      (parseIfOrSteps (env.withFuel m) fuel' within) := by
  induction fuel generalizing fuel' within with
  | zero => exact fun _ => .stopped _
  | succ fuel ih =>
    obtain ⟨f, rfl⟩ : ∃ f, fuel' = f + 1 := ⟨fuel' - 1, by omega⟩
    have hf := Nat.le_of_succ_le_succ hfuel
    have hid := parseIfIdentifierSteps_extends within hle
      fun name => ih hf (within ++ [name])
    have hcond := parseIfConditionalSteps_extends (ih hf within) hf
    exact parseIfOrOverSteps_extends hle
      (parseIfUnarySteps_extends hle (parseIfPrimarySteps_extends hid hcond) hf) hf

/-- What the evaluation of a line does with some fuel it also does with more. -/
theorem evalIfLineSteps_extends (o : OverflowChecks) (env : IfEnv) (hle : n ≤ m)
    (line : List PpToken) :
    Extends o env n m (evalIfLineSteps (env.withFuel n) n line)
      (evalIfLineSteps (env.withFuel m) m line) :=
  (parseIfConditionalSteps_extends (parseIfOrSteps_extends hle hle []) hle line).bind
    fun _ => extends_pure _

/-- An expansion that a line comes to with some fuel. -/
def LineExpands (o : OverflowChecks) (env : IfEnv) (line : List PpToken) (within : List String)
    (name : String) (i : Invocation) : Prop :=
  ∃ n, .expand within name i ∈ reached (IfStep.perform o (env.withFuel n))
    (evalIfLineSteps (env.withFuel n) n line)

end Operands

end Extension

end OpticC.Preprocessor
