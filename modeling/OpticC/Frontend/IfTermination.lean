import Mathlib.Data.List.Infix
import OpticC.Frontend.IfExpansion
import OpticC.Frontend.IfFuel

/-! When the evaluation of an `#if` line ends. The stack that blocks a macro in its own expansion
is forgotten when the expansion is evaluated, where the name can be expanded again. -/

namespace OpticC.Preprocessor

open Enumerators (UnaryOp BinaryOp)
open Scripts

section Suffixes

variable {env : IfEnv}

theorem suffix_of_skip {tokens rest : List PpToken} {t : PpToken}
    (h : skipWhitespace tokens = t :: rest) : rest <:+ tokens :=
  (List.suffix_cons t rest).trans (h ▸ skipWhitespace_suffix tokens)

theorem length_of_skip {tokens rest : List PpToken} {t : PpToken}
    (h : skipWhitespace tokens = t :: rest) : rest.length < tokens.length := by
  have hle := length_skipWhitespace_le tokens
  rw [h] at hle
  exact hle

theorem collectPpMacroArgs_suffix (n : ℕ) (v : Bool) (file : String) (tokens : List PpToken)
    (args : List (List Token)) (current : List PpToken) (depth : ℕ) :
    (collectPpMacroArgs n v file tokens args current depth).2 <:+ tokens := by
  induction tokens generalizing args current depth with
  | nil => exact List.suffix_refl _
  | cons t rest ih =>
    have hrest := List.suffix_cons t rest
    unfold collectPpMacroArgs
    split_ifs
    · exact (ih _ _ _).trans hrest
    · exact hrest
    · exact hrest
    all_goals exact (ih _ _ _).trans hrest

theorem parseDefined_suffix {rest behind : List PpToken} {v : BitVec 64}
    (h : parseDefined env rest = .ok (v, behind)) : behind <:+ rest := by
  obtain ⟨part, hpart, -⟩ := parseDefined_part env h
  exact ⟨part, hpart.symm⟩

theorem parseFeatureProbe_suffix {predicate : String → Bool} {rest behind : List PpToken}
    {v : BitVec 64} (h : parseFeatureProbe predicate rest = .ok (v, behind)) : behind <:+ rest := by
  obtain ⟨⟨value, behind'⟩, harg, hvalue⟩ := bind_eq_ok h
  cases hvalue
  obtain ⟨part, hpart, -⟩ := parseFeatureProbeArgument_part harg
  exact ⟨part, hpart.symm⟩

end Suffixes

section Invocations

variable (env : IfEnv)

/-- The macro that an identifier invokes, and what is behind the invocation. -/
def invocationOf (name : String) (rest : List PpToken) : Option (Invocation × List PpToken) :=
  match featureProbe env name with
  | some _ => none
  | none =>
    match env.macros.lookup name with
    | none => none
    | some (.objectLike replacement) => some (.objectLike replacement, rest)
    | some (.functionLike params isVariadic variadicParam replacement) =>
      match skipWhitespace rest with
      | [] => none
      | paren :: inside =>
        if paren.text = "(" then
          let (args, behind) := collectPpMacroArgs params.length isVariadic env.file inside [] [] 0
          some (.functionLike params isVariadic variadicParam args replacement, behind)
        else none

/-- The invocations that begin somewhere in the line. -/
def lineInvocations (line : List PpToken) : List (String × Invocation) :=
  line.tails.filterMap fun
    | [] => none
    | t :: rest => (invocationOf env t.text rest).map fun r => (t.text, r.1)

variable {env}

theorem invocationOf_mem {line rest : List PpToken} {t : PpToken} (hline : t :: rest <:+ line)
    {i : Invocation} {behind : List PpToken} (h : invocationOf env t.text rest = some (i, behind)) :
    (t.text, i) ∈ lineInvocations env line :=
  List.mem_filterMap.2 ⟨t :: rest, (List.mem_tails _ _).2 hline, by simp only [h]; rfl⟩

theorem invocationOf_name {name : String} {rest behind : List PpToken} {i : Invocation}
    (h : invocationOf env name rest = some (i, behind)) :
    name ∈ names env.macros ∧ behind <:+ rest := by
  unfold invocationOf at h
  cases hprobe : featureProbe env name with
  | some predicate =>
    rw [hprobe] at h
    cases h
  | none =>
    rw [hprobe] at h
    cases hd : env.macros.lookup name with
    | none =>
      rw [hd] at h
      cases h
    | some d =>
      have hname : name ∈ names env.macros := by
        obtain ⟨l, k, heq, -⟩ := List.lookup_eq_some_iff.1 hd
        simp [names, heq]
      rw [hd] at h
      cases d with
      | objectLike replacement =>
        cases h
        exact ⟨hname, List.suffix_refl _⟩
      | functionLike params isVariadic variadicParam replacement =>
        simp only at h
        cases hskip : skipWhitespace rest with
        | nil =>
          rw [hskip] at h
          cases h
        | cons paren inside =>
          rw [hskip] at h
          simp only at h
          split_ifs at h
          cases h
          exact ⟨hname, (collectPpMacroArgs_suffix ..).trans (suffix_of_skip hskip)⟩

/-- An identifier is an operand of its own, or it invokes a macro. -/
theorem parseIfIdentifierSteps_cases (env : IfEnv) (within : List String)
    (parseOr : String → List PpToken → IfScript) (name : String) (rest : List PpToken) :
    (∃ r, parseIfIdentifierSteps env within parseOr name rest = pieceSteps r ∧
      (∀ f, r ≠ .error (.fault f)) ∧ ∀ v behind, r = .ok (v, behind) → behind <:+ rest) ∨
    ∃ i behind, invocationOf env name rest = some (i, behind) ∧
      parseIfIdentifierSteps env within parseOr name rest =
        invocationSteps env within (parseOr name) name i behind := by
  have hvalue : ∀ v : BitVec 64, (∀ f, (.ok (v, rest) : IfResult) ≠ .error (.fault f)) ∧
      ∀ w behind, (.ok (v, rest) : IfResult) = .ok (w, behind) → behind <:+ rest := fun v =>
    ⟨nofun, fun w behind h => by
      obtain ⟨-, rfl⟩ := Prod.mk.inj (Except.ok.inj h)
      exact List.suffix_refl _⟩
  unfold parseIfIdentifierSteps invocationOf
  cases featureProbe env name with
  | some predicate =>
    exact .inl ⟨_, rfl, parseFeatureProbe_noFault predicate rest,
      fun v behind h => parseFeatureProbe_suffix h⟩
  | none =>
    cases env.macros.lookup name with
    | none => exact .inl ⟨_, rfl, hvalue 0⟩
    | some d =>
      cases d with
      | objectLike replacement => exact .inr ⟨_, rest, rfl, rfl⟩
      | functionLike params isVariadic variadicParam replacement =>
        simp only
        cases skipWhitespace rest with
        | nil => exact .inl ⟨_, rfl, hvalue 1⟩
        | cons paren inside =>
          by_cases hparen : paren.text = "("
          · simp only [if_pos hparen]
            exact .inr ⟨_, _, rfl, rfl⟩
          · simp only [if_neg hparen]
            exact .inl ⟨_, rfl, hvalue 1⟩

end Invocations

section Ends

/-- The expansion of the invocation ends. -/
def Invocation.Ends (env : IfEnv) (i : Invocation) : Prop :=
  ∃ n, i.expansion (env.withFuel n) ≠ .error .outOfFuel

variable (o : OverflowChecks) (env : IfEnv) (bound : ℕ)

/-- The evaluation of the line ends, with a value or an error. -/
def EvaluationEnds (line : List PpToken) : Prop :=
  ∃ n, evalIfLineIn o (env.withFuel n) n line ≠ .error (.fault .outOfFuel)

/-- A step that does not stand in the way of the end of the evaluation. -/
def IfStep.Harmless : IfStep → Prop
  | expand within name i => i.Ends env ∧ within.count name ≤ bound
  | _ => True

/-- The script does not run out of fuel, and what is left of the tokens stands at their end. -/
def Settles (m : ℕ) (tokens : List PpToken) (s : IfScript) : Prop :=
  Avoids (IfStep.perform o (env.withFuel m)) (IfStep.Harmless env bound) (.fault .outOfFuel)
    (fun p => p.2 <:+ tokens) s

/-- The scripts of all shorter tail parts of the line settle. -/
def SettlesBelow (m : ℕ) (line : List PpToken) (fuel : ℕ) (next : List PpToken → IfScript) : Prop :=
  ∀ tokens, tokens <:+ line → tokens.length < fuel → Settles o env bound m tokens (next tokens)

variable {o env bound} {m : ℕ} {line tokens : List PpToken}

theorem Settles.pure {p : IfFormula × List PpToken} (h : p.2 <:+ tokens) :
    Settles o env bound m tokens (pure p) :=
  .of nofun fun _ ha => Except.ok.inj ha ▸ h

theorem Settles.error (message : String) :
    Settles o env bound m tokens (.of (.error (.conditionalError message))) :=
  .of nofun nofun

theorem Settles.of_suffix {rest : List PpToken} {s : IfScript}
    (h : Settles o env bound m rest s) (hrest : rest <:+ tokens) :
    Settles o env bound m tokens s :=
  h.mono fun _ hp => hp.trans hrest

/-- What is read from a tail part of the tokens, and what follows it. -/
theorem Settles.bind {rest : List PpToken} {s : IfScript} {f : IfFormula × List PpToken → IfScript}
    (h : Settles o env bound m rest s)
    (hf : ∀ p, p.2 <:+ rest → Settles o env bound m tokens (f p)) :
    Settles o env bound m tokens (s >>= f) :=
  Avoids.bind h hf

theorem Settles.step {x : IfStep} {s : IfScript}
    (hx : x.perform o (env.withFuel m) ≠ .error (.fault .outOfFuel))
    (h : Settles o env bound m tokens s) :
    Settles o env bound m tokens (Script.step x >>= fun _ => s) :=
  (Avoids.step fun _ => hx).bind fun _ _ => h

theorem perform_binary_ne (op : BinaryOp) (l r : IfFormula) :
    (IfStep.binary op l r).perform o env ≠ .error (.fault .outOfFuel) := by
  rw [IfStep.perform]
  cases op with
  | div | rem =>
    simp only [ifOp, divide]
    split_ifs <;> rintro ⟨⟩
  | add | sub | mul | eq | ne | lt | gt | le | ge | land | lor | and | or | xor | shl | shr =>
    rintro ⟨⟩

theorem perform_minus_ne (e : IfFormula) :
    (IfStep.minus e).perform o env ≠ .error (.fault .outOfFuel) := by
  rw [IfStep.perform]
  unfold negate
  split_ifs <;> rintro ⟨⟩

section Levels

variable {k fuel : ℕ} {next right : List PpToken → IfScript}

theorem binaryLoopSteps_settles (h : SettlesBelow o env bound m line fuel next) {fuel' : ℕ}
    (htokens : tokens <:+ line) (hle : tokens.length ≤ fuel) (hlen : tokens.length < fuel')
    (left : IfFormula) :
    Settles o env bound m tokens (binaryLoopSteps k next fuel' left tokens) := by
  induction fuel' generalizing tokens left with
  | zero => exact absurd hlen (Nat.not_lt_zero _)
  | succ fuel' ih =>
    rw [binaryLoopSteps]
    cases hskip : skipWhitespace tokens with
    | nil => exact .pure (List.nil_suffix)
    | cons t rest =>
      have hrest := suffix_of_skip hskip
      have hshort := length_of_skip hskip
      cases hop : operatorAt k t.text with
      | none =>
        simp only [hop]
        exact .pure (hskip ▸ skipWhitespace_suffix tokens)
      | some op =>
        simp only [hop]
        have hright := h rest (hrest.trans htokens) (by omega)
        refine hright.bind fun p hp => .step (perform_binary_ne _ _ _) ?_
        have hlt := hp.length_le
        have hp' := hp.trans hrest
        exact (ih (hp'.trans htokens) (by omega) (by omega) _).of_suffix hp'

theorem SettlesBelow.mono {fuel' : ℕ} (h : SettlesBelow o env bound m line fuel next)
    (hle : fuel' ≤ fuel) : SettlesBelow o env bound m line fuel' next := fun tokens htokens hlen =>
  h tokens htokens (Nat.lt_of_lt_of_le hlen hle)

theorem binaryLevelSteps_settles {fuel' : ℕ} (h : SettlesBelow o env bound m line fuel next)
    (hle : fuel ≤ fuel') : SettlesBelow o env bound m line fuel (binaryLevelSteps k next fuel') := by
  intro tokens htokens hlen
  refine (h tokens htokens hlen).bind fun p hp => ?_
  have hlt := hp.length_le
  exact (binaryLoopSteps_settles h (hp.trans htokens) (by omega) (by omega) p.1).of_suffix hp

theorem binaryOnceSteps_settles {fuel' : ℕ} (h : SettlesBelow o env bound m line fuel next)
    (hright : SettlesBelow o env bound m line fuel' right) (hle : fuel ≤ fuel' + 1) :
    SettlesBelow o env bound m line fuel (binaryOnceSteps k next right) := by
  intro tokens htokens hlen
  refine (h tokens htokens hlen).bind fun p hp => ?_
  have hlt := hp.length_le
  simp only
  cases hskip : skipWhitespace p.2 with
  | nil => exact .pure List.nil_suffix
  | cons t more =>
    have hmore := (suffix_of_skip hskip).trans hp
    have hshort := length_of_skip hskip
    cases hop : (if more = [] then none else operatorAt k t.text) with
    | none =>
      simp only [hop]
      exact .pure ((hskip ▸ skipWhitespace_suffix p.2 : t :: more <:+ p.2).trans hp)
    | some op =>
      simp only [hop]
      refine (hright more (hmore.trans htokens) (by omega)).bind fun q hq => ?_
      exact .step (perform_binary_ne _ _ _) (.pure (hq.trans hmore))

theorem equalitySteps_settles {rounds : ℕ} (h : SettlesBelow o env bound m line fuel next)
    (hle : fuel ≤ rounds) :
    SettlesBelow o env bound m line fuel (equalitySteps next rounds) := by
  induction rounds generalizing fuel with
  | zero => exact fun _ _ hlen => absurd (Nat.lt_of_lt_of_le hlen hle) (Nat.not_lt_zero _)
  | succ rounds ih =>
    have hright := ih (h.mono (Nat.sub_le fuel 1)) (by omega)
    exact binaryOnceSteps_settles h hright (by omega)

theorem parseIfOrOverSteps_settles {fuel' : ℕ} (h : SettlesBelow o env bound m line fuel next)
    (hle : fuel ≤ fuel') :
    SettlesBelow o env bound m line fuel (parseIfOrOverSteps next fuel') := by
  have hlevel : ∀ {k : ℕ} {p : List PpToken → IfScript}, SettlesBelow o env bound m line fuel p →
      SettlesBelow o env bound m line fuel (binaryLevelSteps k p fuel') :=
    fun h => binaryLevelSteps_settles h hle
  have hshift := hlevel (k := 8) (hlevel (k := 9) (hlevel (k := 10) h))
  have hcomparison := binaryOnceSteps_settles (k := 7) hshift hshift (Nat.le_succ _)
  exact hlevel (hlevel (hlevel (hlevel (hlevel (equalitySteps_settles hcomparison hle)))))

theorem parseIfUnarySteps_settles {fuel' : ℕ} (h : SettlesBelow o env bound m line fuel next)
    (hle : fuel ≤ fuel') :
    SettlesBelow o env bound m line fuel (parseIfUnarySteps next fuel') := by
  induction fuel' generalizing fuel with
  | zero => exact fun _ _ hlen => absurd (Nat.lt_of_lt_of_le hlen hle) (Nat.not_lt_zero _)
  | succ fuel' ih =>
    intro tokens htokens hlen
    rw [parseIfUnarySteps]
    cases hskip : skipWhitespace tokens with
    | nil => exact .error _
    | cons t rest =>
      have hrest := suffix_of_skip hskip
      have hshort := length_of_skip hskip
      have hoperand := ih (h.mono (Nat.sub_le fuel 1)) (by omega) rest (hrest.trans htokens)
        (by omega)
      simp only
      split_ifs
      · exact hoperand.bind fun p hp => .pure (hp.trans hrest)
      · exact hoperand.bind fun p hp => .pure (hp.trans hrest)
      · exact hoperand.bind fun p hp => .step (perform_minus_ne _) (.pure (hp.trans hrest))
      · exact hoperand.of_suffix hrest
      · have hskipped : t :: rest <:+ tokens := hskip ▸ skipWhitespace_suffix tokens
        have hlt := hskipped.length_le
        exact (h (t :: rest) (hskipped.trans htokens) (by omega)).of_suffix hskipped

theorem parseIfConditionalSteps_settles {fuel' : ℕ}
    (h : SettlesBelow o env bound m line fuel next) (hle : fuel ≤ fuel') :
    SettlesBelow o env bound m line fuel (parseIfConditionalSteps next fuel') := by
  induction fuel' generalizing fuel with
  | zero => exact fun _ _ hlen => absurd (Nat.lt_of_lt_of_le hlen hle) (Nat.not_lt_zero _)
  | succ fuel' ih =>
    have hbranch := ih (h.mono (Nat.sub_le fuel 1)) (by omega)
    intro tokens htokens hlen
    refine (h tokens htokens hlen).bind fun p hp => ?_
    have hlt := hp.length_le
    simp only
    cases hskip : skipWhitespace p.2 with
    | nil => exact .pure List.nil_suffix
    | cons t more =>
      have hmore := (suffix_of_skip hskip).trans hp
      have hshort := length_of_skip hskip
      by_cases ht : t.text = "?"
      · simp only [if_pos ht]
        refine (hbranch more (hmore.trans htokens) (by omega)).bind fun x hx => ?_
        have hltx := hx.length_le
        cases hskip' : skipWhitespace x.2 with
        | nil => exact .error _
        | cons colon behind =>
          have hbehind := (suffix_of_skip hskip').trans (hx.trans hmore)
          have hshort' := length_of_skip hskip'
          by_cases hcolon : colon.text = ":"
          · simp only [if_pos hcolon]
            refine (hbranch behind (hbehind.trans htokens) (by omega)).bind fun y hy => ?_
            exact .pure (hy.trans hbehind)
          · simp only [if_neg hcolon]
            exact .error _
      · simp only [if_neg ht]
        exact .pure ((hskip ▸ skipWhitespace_suffix p.2 : t :: more <:+ p.2).trans hp)

end Levels

section Operands

/-- A nested evaluation settles, with whatever is left of the expansion. -/
def NestedSettles (o : OverflowChecks) (env : IfEnv) (bound m : ℕ)
    (parseOr : List PpToken → IfScript) (expanded : List Token) : Prop :=
  Avoids (IfStep.perform o (env.withFuel m)) (IfStep.Harmless env bound) (.fault .outOfFuel)
    (fun _ => True) (parseOr (ifMacroLine expanded ++ [⟨.newline, "\n", 0, 0⟩]))

/-- Where the invocation is harmless, its expansion ends, and so does what is nested in it. -/
def InvocationSettles (o : OverflowChecks) (env : IfEnv) (bound m : ℕ) (within : List String)
    (parseOr : List PpToken → IfScript) (name : String) (i : Invocation) : Prop :=
  (IfStep.expand within name i).Harmless env bound →
    i.expansion (env.withFuel m) ≠ .error .outOfFuel ∧
      ∀ expanded, i.expansion (env.withFuel m) = .ok expanded →
        NestedSettles o env bound m parseOr expanded

variable {within : List String}

theorem invocationSteps_settles {parseOr : List PpToken → IfScript} {name : String}
    {i : Invocation} {behind : List PpToken}
    (h : InvocationSettles o env bound m within parseOr name i) (hbehind : behind <:+ tokens) :
    Settles o env bound m tokens
      (invocationSteps (env.withFuel m) within parseOr name i behind) := by
  have hstep : Avoids (IfStep.perform o (env.withFuel m)) (IfStep.Harmless env bound)
      (.fault .outOfFuel) (fun _ => (IfStep.expand within name i).Harmless env bound)
      (Script.step (.expand within name i)) := by
    refine .step fun hharmless => ?_
    obtain ⟨hexp, -⟩ := h hharmless
    rw [IfStep.perform]
    cases hi : i.expansion (env.withFuel m) with
    | ok expanded => rintro ⟨⟩
    | error e =>
      rw [hi] at hexp
      intro he
      injection he with he
      injection he with he
      exact hexp (congrArg Except.error he)
  refine hstep.bind fun _ hharmless => ?_
  obtain ⟨hexp, hnested⟩ := h hharmless
  have hof : Avoids (IfStep.perform o (env.withFuel m)) (IfStep.Harmless env bound)
      (.fault .outOfFuel) (fun expanded => i.expansion (env.withFuel m) = .ok expanded)
      (Script.of (liftFault (i.expansion (env.withFuel m)))) := by
    cases hi : i.expansion (env.withFuel m) with
    | ok expanded => exact .of (by rintro ⟨⟩) fun _ ha => congrArg Except.ok (Except.ok.inj ha)
    | error e =>
      rw [hi] at hexp
      refine .of (fun he => ?_) (by rintro _ ⟨⟩)
      injection he with he
      injection he with he
      exact hexp (congrArg Except.error he)
  refine hof.bind fun expanded hexpanded => ?_
  have hline : Avoids (IfStep.perform o (env.withFuel m)) (IfStep.Harmless env bound)
      (.fault .outOfFuel) (fun _ => True) (evalIfMacroTokensSteps parseOr expanded) := by
    unfold evalIfMacroTokensSteps
    split_ifs
    · exact .of (r := .ok _) (by rintro ⟨⟩) fun _ _ => trivial
    · exact (hnested expanded hexpanded).bind fun p _ =>
        .of (r := .ok _) (by rintro ⟨⟩) fun _ _ => trivial
  exact hline.bind fun e _ => Settles.pure hbehind

variable {identifier : String → List PpToken → IfScript} {conditional : List PpToken → IfScript}
  {fuel : ℕ}

theorem pieceSteps_settles {r : IfResult} {rest : List PpToken} (hr : ∀ f, r ≠ .error (.fault f))
    (h : ∀ v behind, r = .ok (v, behind) → behind <:+ rest) :
    Settles o env bound m rest (pieceSteps r) := by
  cases r with
  | error e =>
    refine .of (fun he => hr .outOfFuel ?_) nofun
    injection he with he
    rw [he]
  | ok v =>
    refine .of nofun fun p hp => ?_
    cases hp
    exact h v.1 v.2 rfl

theorem parseIfPrimarySteps_settles
    (hid : ∀ t rest, t :: rest <:+ line → Settles o env bound m rest (identifier t.text rest))
    (hcond : SettlesBelow o env bound m line fuel conditional) (htokens : tokens <:+ line)
    (hlen : tokens.length ≤ fuel) :
    Settles o env bound m tokens
      (parseIfPrimarySteps (env.withFuel m) identifier conditional tokens) := by
  unfold parseIfPrimarySteps
  cases hskip : skipWhitespace tokens with
  | nil => exact .error _
  | cons t rest =>
    have hrest := suffix_of_skip hskip
    have hshort := length_of_skip hskip
    have hvalue : ∀ v : BitVec 64, Settles o env bound m tokens (pieceSteps (.ok (v, rest))) :=
      fun v => (pieceSteps_settles (r := .ok (v, rest)) nofun fun w behind h => by
        obtain ⟨-, rfl⟩ := Prod.mk.inj (Except.ok.inj h)
        exact List.suffix_refl _).of_suffix hrest
    simp only
    split_ifs
    · refine (hcond rest (hrest.trans htokens) (by omega)).bind fun p hp => ?_
      cases hskip' : skipWhitespace p.2 with
      | nil => exact .error _
      | cons close behind =>
        by_cases hclose : close.text = ")"
        · simp only [if_pos hclose]
          exact .pure ((suffix_of_skip hskip').trans (hp.trans hrest))
        · simp only [if_neg hclose]
          exact .error _
    · exact (pieceSteps_settles (parseDefined_noFault rest)
        fun v behind h => parseDefined_suffix h).of_suffix hrest
    · exact hvalue _
    · exact (hid t rest ((hskip ▸ skipWhitespace_suffix tokens : t :: rest <:+ tokens).trans
        htokens)).of_suffix hrest
    · exact hvalue _
    · exact .error _

theorem parseIfIdentifierSteps_settles {parseOr : String → List PpToken → IfScript} {t : PpToken}
    {rest : List PpToken} (ht : t :: rest <:+ line)
    (h : ∀ name i, (name, i) ∈ lineInvocations env line → name ∈ names env.macros →
      InvocationSettles o env bound m within (parseOr name) name i) :
    Settles o env bound m rest
      (parseIfIdentifierSteps (env.withFuel m) within parseOr t.text rest) := by
  rcases parseIfIdentifierSteps_cases (env.withFuel m) within parseOr t.text rest with
    ⟨r, heq, hr, hbehind⟩ | ⟨i, behind, hinv, heq⟩
  · rw [heq]
    exact pieceSteps_settles hr hbehind
  · rw [heq]
    have hinv' : invocationOf env t.text rest = some (i, behind) := hinv
    obtain ⟨hname, hbehind⟩ := invocationOf_name hinv'
    exact invocationSteps_settles (h t.text i (invocationOf_mem ht hinv') hname) hbehind

/-- The line settles with fuel for its own length, when its invocations settle with less. -/
theorem parseIfOrSteps_settles {base : ℕ}
    (h : ∀ c, base ≤ c → ∀ name i, (name, i) ∈ lineInvocations env line → name ∈ names env.macros →
      InvocationSettles o env bound m within
        (parseIfOrSteps (env.withFuel m) c (within ++ [name])) name i) (c : ℕ) :
    ∀ tokens, tokens <:+ line → base + tokens.length + 1 < c →
      Settles o env bound m tokens (parseIfOrSteps (env.withFuel m) c within tokens) := by
  induction c with
  | zero => exact fun tokens _ hlen => absurd hlen (Nat.not_lt_zero _)
  | succ c ih =>
    intro tokens htokens hlen
    -- the parentheses in the line are read with the fuel that is left
    have hor : SettlesBelow o env bound m line (c - base - 1)
        (parseIfOrSteps (env.withFuel m) c within) := fun tokens htokens hlen =>
      ih tokens htokens (by omega)
    have hcond := parseIfConditionalSteps_settles hor (show c - base - 1 ≤ c by omega)
    have hprimary : SettlesBelow o env bound m line (c - base)
        (parseIfPrimarySteps (env.withFuel m)
          (parseIfIdentifierSteps (env.withFuel m) within fun name =>
            parseIfOrSteps (env.withFuel m) c (within ++ [name]))
          (parseIfConditionalSteps (parseIfOrSteps (env.withFuel m) c within) c)) :=
      fun tokens htokens hlen => parseIfPrimarySteps_settles
        (fun t rest ht => parseIfIdentifierSteps_settles ht (h c (by omega))) hcond htokens
        (by omega)
    have hunary := parseIfUnarySteps_settles hprimary (Nat.sub_le c base)
    exact parseIfOrOverSteps_settles hunary (by omega) tokens htokens (by omega)

end Operands

/-- What is left to expand inside of `within` when no macro is expanded there more than `bound`
times. -/
def budget (env : IfEnv) (bound : ℕ) (within : List String) : ℕ :=
  ((names env.macros).map fun n => bound + 1 - within.count n).sum

theorem budget_lt {within : List String} {name : String} (hname : name ∈ names env.macros)
    (hcount : within.count name ≤ bound) :
    budget env bound (within ++ [name]) < budget env bound within := by
  have hspend : (fun n => bound + 1 - (within ++ [name]).count n) =
      CallTree.spend (fun n => bound + 1 - within.count n) name := by
    funext n
    unfold CallTree.spend
    rw [List.count_append, List.count_singleton]
    by_cases hn : n = name
    · simp only [hn, beq_self_eq_true, if_true]
      omega
    · rw [if_neg (by simpa using Ne.symm hn), if_neg (by simpa using hn)]
      rfl
  unfold budget
  rw [hspend]
  exact CallTree.sum_spend_lt hname (by omega)

theorem exists_common {α : Type} {Q : ℕ → α → Prop} (hmono : ∀ n m x, n ≤ m → Q n x → Q m x)
    (l : List α) (h : ∀ x ∈ l, ∃ n, Q n x) : ∃ n, ∀ x ∈ l, Q n x := by
  induction l with
  | nil => exact ⟨0, nofun⟩
  | cons x l ih =>
    rw [List.forall_mem_cons] at h
    obtain ⟨n, hn⟩ := h.1
    obtain ⟨m, hm⟩ := ih h.2
    refine ⟨max n m, List.forall_mem_cons.2 ⟨hmono _ _ _ (Nat.le_max_left n m) hn, ?_⟩⟩
    exact fun y hy => hmono _ _ _ (Nat.le_max_right n m) (hm y hy)

/-- With enough fuel a line settles, by induction on what its invocations may still expand. -/
theorem exists_fuel (o : OverflowChecks) (env : IfEnv) (bound k : ℕ) (within : List String)
    (line : List PpToken) (hk : budget env bound within ≤ k) :
    ∃ N, ∀ m, N ≤ m → ∀ c, N ≤ c → ∀ tokens, tokens <:+ line →
      Settles o env bound m tokens (parseIfOrSteps (env.withFuel m) c within tokens) := by
  induction k using Nat.strongRecOn generalizing within line with
  | ind k ih =>
    have hinv : ∀ x ∈ lineInvocations env line, ∃ N, ∀ m, N ≤ m → ∀ c, N ≤ c →
        x.1 ∈ names env.macros → InvocationSettles o env bound m within
          (parseIfOrSteps (env.withFuel m) c (within ++ [x.1])) x.1 x.2 := by
      rintro ⟨name, i⟩ -
      by_cases hharmless : name ∈ names env.macros ∧
          (IfStep.expand within name i).Harmless env bound
      swap
      · exact ⟨0, fun m _ c _ hname h => absurd ⟨hname, h⟩ hharmless⟩
      obtain ⟨hname, ⟨n, hn⟩, hcount⟩ := hharmless
      cases hexp : i.expansion (env.withFuel n) with
      | error e =>
        refine ⟨n, fun m hm c _ _ _ => ?_⟩
        rw [Invocation.expansion_mono hm hn, hexp]
        exact ⟨hexp ▸ hn, nofun⟩
      | ok expanded =>
        obtain ⟨N, hN⟩ := ih _ (Nat.lt_of_lt_of_le (budget_lt hname hcount) hk) (within ++ [name])
          (ifMacroLine expanded ++ [⟨.newline, "\n", 0, 0⟩]) (Nat.le_refl _)
        refine ⟨max n N, fun m hm c hc _ _ => ?_⟩
        rw [Invocation.expansion_mono (Nat.le_trans (Nat.le_max_left n N) hm) hn, hexp]
        refine ⟨nofun, fun expanded' heq => ?_⟩
        obtain rfl := Except.ok.inj heq
        exact (hN m (Nat.le_trans (Nat.le_max_right n N) hm) c
          (Nat.le_trans (Nat.le_max_right n N) hc) _ (List.suffix_refl _)).mono fun _ _ => trivial
    obtain ⟨base, hbase⟩ := exists_common
      (fun n m x hle h m' hm' c hc => h m' (Nat.le_trans hle hm') c (Nat.le_trans hle hc)) _ hinv
    refine ⟨base + line.length + 2, fun m hm c hc tokens htokens => ?_⟩
    have hlen := htokens.length_le
    exact parseIfOrSteps_settles
      (fun c' (hc' : base ≤ c') name i hi hname => hbase (name, i) hi m (by omega) c' hc' hname) c
      tokens htokens (by omega)

/-- The evaluation of a line ends exactly if the expansions it comes to end and no macro is
expanded without bound inside the evaluation of its own expansion. -/
theorem evaluationEnds_iff (o : OverflowChecks) (env : IfEnv) (line : List PpToken) :
    EvaluationEnds o env line ↔
      (∀ within name i, LineExpands o env line within name i → i.Ends env) ∧
        ∃ bound, ∀ within name i, LineExpands o env line within name i →
          within.count name ≤ bound := by
  constructor
  · rintro ⟨n, hn⟩
    rw [ne_eq, evalIfLineIn_error_iff] at hn
    -- with any fuel the line comes to no more than it does with this one
    have hreached : ∀ within name i, LineExpands o env line within name i →
        .expand within name i ∈ reached (IfStep.perform o (env.withFuel n))
          (evalIfLineSteps (env.withFuel n) n line) := by
      rintro within name i ⟨m, hm⟩
      have hmax := (evalIfLineSteps_extends o env (Nat.le_max_right n m) line).subset hm
      rwa [((evalIfLineSteps_extends o env (Nat.le_max_left n m) line).same hn).2] at hmax
    refine ⟨fun within name i hi => ⟨n, fun hexp => hn ?_⟩, ?_⟩
    · refine (run_error_iff _ _).2 (.inl ⟨_, hreached within name i hi, ?_⟩)
      rw [IfStep.perform, hexp]
      rfl
    · obtain ⟨bound, hbound⟩ := exists_common (Q := fun b x => ∀ within name i,
          x = IfStep.expand within name i → within.count name ≤ b)
        (fun n m x hle h within name i hx => Nat.le_trans (h within name i hx) hle)
        (reached (IfStep.perform o (env.withFuel n)) (evalIfLineSteps (env.withFuel n) n line))
        fun x _ => by
          cases x with
          | expand within name i =>
            refine ⟨within.count name, fun within' name' i' hx => ?_⟩
            cases hx
            exact Nat.le_refl _
          | binary | minus => exact ⟨0, by rintro _ _ _ ⟨⟩⟩
      exact ⟨bound, fun within name i hi => hbound _ (hreached within name i hi) _ _ _ rfl⟩
  · rintro ⟨hends, bound, hbound⟩
    obtain ⟨N, hN⟩ := exists_fuel o env bound _ [] line (Nat.le_refl _)
    let m := max N (line.length + 1)
    have hor : SettlesBelow o env bound m line (line.length + 1)
        (parseIfOrSteps (env.withFuel m) m []) := fun tokens htokens _ =>
      hN m (Nat.le_max_left _ _) m (Nat.le_max_left _ _) tokens htokens
    have hcond := parseIfConditionalSteps_settles hor (Nat.le_max_right N _) line
      (List.suffix_refl _) (Nat.lt_succ_self _)
    have hline : Settles o env bound m line (evalIfLineSteps (env.withFuel m) m line) :=
      hcond.bind fun p hp => .pure ((skipToDirectiveEnd_suffix p.2).trans hp)
    refine ⟨m, ?_⟩
    rw [ne_eq, evalIfLineIn_error_iff]
    refine (hline fun x hx => ?_).1
    cases x with
    | expand within name i => exact ⟨hends within name i ⟨m, hx⟩, hbound within name i ⟨m, hx⟩⟩
    | binary | minus => trivial

end Ends

section Errno

/-- `#define ZERO 0` -/
def zeroEnv : IfEnv :=
  { emptyEnv with macros := [("ZERO", .objectLike [⟨.intLiteral, "0", 1, 14, "a.c"⟩])] }

/-- `#define EAGAIN EAGAIN` behind the directive name. -/
def eagainDefinition : List PpToken :=
  [⟨.whitespace, " ", 1, 8⟩, ⟨.identifier, "EAGAIN", 1, 9⟩, ⟨.whitespace, " ", 1, 15⟩,
    ⟨.identifier, "EAGAIN", 1, 16⟩, ⟨.newline, "\n", 1, 22⟩]

/-- What `EAGAIN` stands for then. -/
def eagainReplacement : List Token :=
  [⟨.whitespace, " ", 1, 15, "a.c"⟩, ⟨.identifier, "EAGAIN", 1, 16, "a.c"⟩]

def eagainEnv : IfEnv :=
  { emptyEnv with macros := [("EAGAIN", .objectLike eagainReplacement)] }

/-- The name is blocked in its own expansion, and left over. -/
theorem expansion_eagain (n : ℕ) :
    (Invocation.objectLike eagainReplacement).expansion (eagainEnv.withFuel n) =
        .error .outOfFuel ∨
      (Invocation.objectLike eagainReplacement).expansion (eagainEnv.withFuel n) =
        .ok (⟨.whitespace, " ", 1, 15, "a.c"⟩ :: eagainReplacement) := by
  have htwo : (Invocation.objectLike eagainReplacement).expansion (eagainEnv.withFuel 2) =
      .ok (⟨.whitespace, " ", 1, 15, "a.c"⟩ :: eagainReplacement) := by
    decide +kernel
  match n with
  | 0 => exact .inl rfl
  | 1 => exact .inl (by decide +kernel)
  | n + 2 =>
    right
    rw [Invocation.expansion_mono (Nat.le_add_left 2 n) (by rw [htwo]; exact nofun), htwo]

/-- A level fails with what it reads first. -/
theorem parseIfOrOver_error {unary : List PpToken → IfResult} {tokens : List PpToken}
    (h : unary tokens = .error (.fault .outOfFuel)) (fuel : ℕ) :
    parseIfOrOver unary fuel tokens = .error (.fault .outOfFuel) := by
  have hlevel : ∀ {ops : String → Option IfOp} {next : List PpToken → IfResult},
      next tokens = .error (.fault .outOfFuel) →
        binaryLevel ops next fuel tokens = .error (.fault .outOfFuel) := by
    intro ops next hnext
    rw [binaryLevel, hnext]
    rfl
  have honce : ∀ {ops : String → Option IfOp} {next right : List PpToken → IfResult},
      next tokens = .error (.fault .outOfFuel) →
        binaryOnce ops next right tokens = .error (.fault .outOfFuel) := by
    intro ops next right hnext
    rw [binaryOnce, hnext]
    rfl
  have hequality : ∀ {next : List PpToken → IfResult}, next tokens = .error (.fault .outOfFuel) →
      ∀ rounds, equalityOver next rounds tokens = .error (.fault .outOfFuel) := by
    intro next hnext rounds
    cases rounds with
    | zero => rfl
    | succ rounds => exact honce hnext
  exact hlevel (hlevel (hlevel (hlevel (hlevel (hequality (honce (hlevel (hlevel (hlevel h))))
    fuel)))))

theorem parseIfOrIn_eagain (o : OverflowChecks) (n fuel : ℕ) {tokens rest : List PpToken}
    {t : PpToken} (hskip : skipWhitespace tokens = t :: rest) (hkind : t.kind = .identifier)
    (htext : t.text = "EAGAIN") :
    parseIfOrIn o (eagainEnv.withFuel n) fuel tokens = .error (.fault .outOfFuel) := by
  induction fuel generalizing tokens rest t with
  | zero => rfl
  | succ fuel ih =>
    refine parseIfOrOver_error ?_ fuel
    cases fuel with
    | zero => rfl
    | succ fuel =>
      rw [parseIfUnaryIn, hskip]
      simp only [htext, String.reduceEq, if_false]
      have hskip' : skipWhitespace (t :: rest) = t :: rest :=
        skipWhitespace_cons (by rw [hkind]; decide) rest
      rw [parseIfPrimary, hskip']
      simp only [htext, String.reduceEq, if_false, hkind, reduceCtorEq, if_true]
      have hid : parseIfIdentifier (eagainEnv.withFuel n)
          (parseIfOrIn o (eagainEnv.withFuel n) (fuel + 1)) "EAGAIN" rest =
        (liftFault ((Invocation.objectLike eagainReplacement).expansion (eagainEnv.withFuel n)) >>=
          fun expanded => evalIfMacroTokens (parseIfOrIn o (eagainEnv.withFuel n) (fuel + 1)) expanded
            >>= fun value => pure (value, rest)) := rfl
      rw [hid]
      rcases expansion_eagain n with hexp | hexp <;> rw [hexp]
      · rfl
      · -- the name that is left over is looked up again
        have hleft : skipWhitespace (ifMacroLine (⟨.whitespace, " ", 1, 15, "a.c"⟩ ::
            eagainReplacement) ++ [⟨.newline, "\n", 0, 0⟩]) =
              [⟨.identifier, "EAGAIN", 1, 16⟩, ⟨.newline, "\n", 0, 0⟩] := by
          decide
        have hnested := ih hleft rfl rfl
        show (evalIfMacroTokens (parseIfOrIn o (eagainEnv.withFuel n) (fuel + 1)) _ >>= _) = _
        rw [evalIfMacroTokens, hnested]
        rfl

end Errno

end OpticC.Preprocessor
