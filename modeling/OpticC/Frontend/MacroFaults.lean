import OpticC.Frontend.MacroArguments

/-! Where macro expansion reads an argument that is not there. Only `#` in front of a parameter
indexes the arguments unguarded. -/

namespace OpticC.Preprocessor

section Substitution

variable (chars : CharClasses) (params : List String) (isVariadic : Bool)
  (variadicParam : Option String) (args : List (List Token))

/-- The rounds of the loop of `expand_function_macro_tokens`, from one position and `result` to a
later one. -/
inductive Rounds : List Token × List Token → List Token × List Token → Prop
  | nil (p : List Token × List Token) : Rounds p p
  | cons {t : Token} {rest result : List Token} {p q : List Token × List Token}
      (hround : substituteRound chars params isVariadic variadicParam args t rest result = .ok p)
      (hp : Rounds p q) : Rounds (t :: rest, result) q

/-- `t` is a `#` in front of a parameter that the invocation has no argument for. -/
def LacksArgument (t : Token) (rest : List Token) : Prop :=
  t.text = "#" ∧ ∃ next, rest.head? = some next ∧ next.kind = .identifier ∧
    ∃ i, params.idxOf? next.text = some i ∧ args.length ≤ i

/-- The loop comes to no parameter behind `#` without an argument. -/
def Supplied (replacement : List Token) : Prop :=
  ∀ t rest result,
    Rounds chars params isVariadic variadicParam args (replacement, []) (t :: rest, result) →
      ¬LacksArgument params args t rest

variable {chars params isVariadic variadicParam args}

theorem stringifyParam_error_iff (isVariadic : Bool) (variadicParam : Option String) (next : Token)
    (e : Fault) :
    stringifyParam next params isVariadic variadicParam args = some (.error e) ↔
      e = .indexOutOfBounds ∧ next.kind = .identifier ∧
        ∃ i, params.idxOf? next.text = some i ∧ args.length ≤ i := by
  unfold stringifyParam
  by_cases hkind : next.kind = .identifier
  · rw [if_pos hkind]
    cases hi : params.idxOf? next.text with
    | none =>
      simp only
      split_ifs <;> simp
    | some i =>
      simp only
      cases harg : args[i]? with
      | none =>
        have hle : args.length ≤ i := List.getElem?_eq_none_iff.1 harg
        simp [hkind, hle, eq_comm]
      | some arg =>
        have hlt : i < args.length := (List.getElem?_eq_some_iff.1 harg).1
        simp [hkind, Nat.not_le.2 hlt]
  · simp [hkind]

/-- A round fails at a `#` without its argument, and only there. -/
theorem substituteRound_error_iff (t : Token) (rest result : List Token) (e : Fault) :
    substituteRound chars params isVariadic variadicParam args t rest result = .error e ↔
      e = .indexOutOfBounds ∧ LacksArgument params args t rest := by
  unfold LacksArgument
  cases rest with
  | nil => simp [substituteRound]
  | cons next behind =>
    rw [substituteRound]
    by_cases hpaste : t.text = "##"
    · rw [if_pos hpaste]
      have hok : ∀ r : Except Fault (List Token × List Token), (∃ p, r = .ok p) → r ≠ .error e := by
        rintro r ⟨p, rfl⟩ ⟨⟩
      refine iff_of_false (hok _ ?_) fun h => absurd (hpaste.symm.trans h.2.1) (by decide)
      cases result.getLast? with
      | none => exact ⟨_, rfl⟩
      | some left =>
        cases getParamReplacement next params isVariadic variadicParam args <;> exact ⟨_, rfl⟩
    · rw [if_neg hpaste]
      by_cases hhash : t.text = "#"
      · simp only [hhash, if_true, true_and, List.head?_cons, Option.some.injEq, exists_eq_left']
        rw [← stringifyParam_error_iff isVariadic variadicParam]
        cases stringifyParam next params isVariadic variadicParam args with
        | none => simp
        | some text =>
          cases text with
          | error f => simp [bind, Except.bind]
          | ok text => simp [bind, Except.bind, pure, Except.pure]
      · simp [hhash]

theorem substituteRound_length {t : Token} {rest result : List Token} {p : List Token × List Token}
    (h : substituteRound chars params isVariadic variadicParam args t rest result = .ok p) :
    p.1.length < (t :: rest).length := by
  rcases substituteRound_fst h with hp | ⟨hp, -⟩ <;> rw [hp]
  · exact Nat.lt_succ_self _
  · rw [List.length_tail, List.length_cons]
    omega

/-- The loop fails when it comes to a `#` without its argument. -/
theorem expandFunctionMacroTokens_error_iff (replacement result : List Token) (e : Fault) :
    expandFunctionMacroTokens chars params isVariadic variadicParam args replacement result =
        .error e ↔
      e = .indexOutOfBounds ∧ ∃ t rest result',
        Rounds chars params isVariadic variadicParam args (replacement, result)
          (t :: rest, result') ∧ LacksArgument params args t rest := by
  induction hlen : replacement.length using Nat.strongRecOn generalizing replacement result with
  | _ n ih =>
    cases replacement with
    | nil =>
      refine iff_of_false (by simp [expandFunctionMacroTokens]) ?_
      rintro ⟨-, t, rest, result', hrounds, -⟩
      cases hrounds
    | cons t rest =>
      rw [expandFunctionMacroTokens_cons]
      cases hround : substituteRound chars params isVariadic variadicParam args t rest result with
      | error f =>
        obtain ⟨rfl, hlacks⟩ := (substituteRound_error_iff t rest result f).1 hround
        constructor
        · intro h
          cases h
          exact ⟨rfl, t, rest, result, .nil _, hlacks⟩
        · rintro ⟨rfl, -⟩
          rfl
      | ok p =>
        have hlt := substituteRound_length hround
        refine (ih p.1.length (hlen ▸ hlt) p.1 p.2 rfl).trans (and_congr_right fun _ => ?_)
        constructor
        · rintro ⟨t', rest', result', hrounds, hlacks⟩
          exact ⟨t', rest', result', .cons hround hrounds, hlacks⟩
        · rintro ⟨t', rest', result', hrounds, hlacks⟩
          cases hrounds with
          | nil =>
            have herr : substituteRound chars params isVariadic variadicParam args t rest result =
                .error .indexOutOfBounds :=
              (substituteRound_error_iff t rest result _).2 ⟨rfl, hlacks⟩
            rw [hround] at herr
            cases herr
          | cons hround' hrounds =>
            rw [hround] at hround'
            cases hround'
            exact ⟨t', rest', result', hrounds, hlacks⟩

/-- The invocation is substituted without a fault exactly if it is supplied. -/
theorem expandFunctionMacroTokens_isOk_iff (replacement : List Token) :
    (∃ r, expandFunctionMacroTokens chars params isVariadic variadicParam args replacement [] =
      .ok r) ↔ Supplied chars params isVariadic variadicParam args replacement := by
  cases h : expandFunctionMacroTokens chars params isVariadic variadicParam args replacement [] with
  | error e =>
    obtain ⟨-, t, rest, result, hrounds, hlacks⟩ := (expandFunctionMacroTokens_error_iff _ _ e).1 h
    exact iff_of_false (by simp) fun hs => hs t rest result hrounds hlacks
  | ok r =>
    refine iff_of_true ⟨r, rfl⟩ fun t rest result hrounds hlacks => ?_
    have herr : expandFunctionMacroTokens chars params isVariadic variadicParam args replacement [] =
        .error .indexOutOfBounds :=
      (expandFunctionMacroTokens_error_iff _ _ _).2 ⟨rfl, t, rest, result, hrounds, hlacks⟩
    rw [h] at herr
    cases herr

end Substitution

section Scans

/-- A macro and, for a function-like one, the arguments it is invoked with. -/
inductive Invocation where
  | objectLike (replacement : List Token)
  | functionLike (params : List String) (isVariadic : Bool) (variadicParam : Option String)
      (args : List (List Token)) (replacement : List Token)

def Invocation.Supplied (chars : CharClasses) : Invocation → Prop
  | objectLike _ => True
  | functionLike params isVariadic variadicParam args replacement =>
    Preprocessor.Supplied chars params isVariadic variadicParam args replacement

variable (chars : CharClasses) (table : MacroTable)

/-- The call of a function-like macro that a token begins in a scan. -/
def callAt (expanding : List String) (t : Token) (rest : List Token) : Option Invocation :=
  if t.kind ≠ .identifier ∨ t.text = "__LINE__" ∨ t.text = "__FILE__" ∨
      expanding.contains t.text = true then none
  else match table.lookup t.text with
    | some (.functionLike params isVariadic variadicParam replacement) =>
      match rest.dropWhile Token.isWhitespace with
      | [] => none
      | paren :: inside =>
        if paren.text = "(" then
          some (.functionLike params isVariadic variadicParam
            (collectArgs params.length isVariadic inside [] [] 0).1 replacement)
        else none
    | _ => none

/-- What a round of a scan adds to the result. -/
def expandOutput (fuel : ℕ) : Output → Except Fault (List Token)
  | .push t => .ok [t]
  | .scan _ _ tokens expanding => expandMacroTokensWithStack chars table fuel tokens expanding
  | .fault e => .error e

/-- The expansion of the scan comes to the position of another one: everything in front of it
is expanded. -/
inductive ComesTo : Scan → Scan → Prop
  | here (s : Scan) : ComesTo s s
  | next {expanding : List String} {t : Token} {rest : List Token} {u : Scan} {fuel : ℕ}
      {r : List Token}
      (hdone : expandOutput chars table fuel (scanToken chars table expanding t rest).1 = .ok r)
      (hu : ComesTo ⟨(scanToken chars table expanding t rest).2, expanding⟩ u) :
      ComesTo ⟨t :: rest, expanding⟩ u
  | nested {expanding expanding' : List String} {t : Token} {rest tokens : List Token} {u : Scan}
      {functionLike : Bool} {name : String}
      (hscan : (scanToken chars table expanding t rest).1 =
        .scan functionLike name tokens expanding')
      (hu : ComesTo ⟨tokens, expanding'⟩ u) : ComesTo ⟨t :: rest, expanding⟩ u

/-- The expansion of the scan comes to no call that lacks an argument. -/
def CallsSupplied (s : Scan) : Prop :=
  ∀ t rest expanding, ComesTo chars table s ⟨t :: rest, expanding⟩ →
    ∀ i, callAt table expanding t rest = some i → i.Supplied chars

variable {chars table}

/-- A round fails at a call that is not supplied. -/
theorem scanToken_fault_iff (expanding : List String) (t : Token) (rest : List Token) (e : Fault) :
    (scanToken chars table expanding t rest).1 = .fault e ↔
      e = .indexOutOfBounds ∧ ∃ i, callAt table expanding t rest = some i ∧ ¬i.Supplied chars := by
  unfold scanToken callAt
  by_cases hkind : t.kind = .identifier
  swap
  · simp [hkind]
  by_cases hline : t.text = "__LINE__"
  · simp [hkind, hline]
  by_cases hfile : t.text = "__FILE__"
  · simp [hkind, hfile]
  by_cases hblocked : expanding.contains t.text = true
  · rw [if_neg (not_not.2 hkind), if_neg hline, if_neg hfile, if_pos hblocked,
      if_pos (.inr (.inr (.inr hblocked)))]
    simp
  have hcall : ¬(t.kind ≠ .identifier ∨ t.text = "__LINE__" ∨ t.text = "__FILE__" ∨
      expanding.contains t.text = true) := fun h =>
    h.elim (· hkind) fun h => h.elim hline fun h => h.elim hfile hblocked
  rw [if_neg (not_not.2 hkind), if_neg hline, if_neg hfile, if_neg hblocked, if_neg hcall]
  cases table.lookup t.text with
  | none => simp
  | some d =>
    cases d with
    | objectLike replacement => simp
    | functionLike params isVariadic variadicParam replacement =>
      simp only
      cases rest.dropWhile Token.isWhitespace with
      | nil => simp
      | cons paren inside =>
        simp only
        by_cases hparen : paren.text = "("
        swap
        · simp [hparen]
        simp only [if_pos hparen, Option.some.injEq, exists_eq_left']
        rw [Invocation.Supplied, ← expandFunctionMacroTokens_isOk_iff]
        cases hexp : expandFunctionMacroTokens chars params isVariadic variadicParam
            (collectArgs params.length isVariadic inside [] [] 0).1 replacement [] with
        | ok expanded => simp
        | error f =>
          obtain ⟨rfl, -⟩ := (expandFunctionMacroTokens_error_iff _ _ f).1 hexp
          simp [eq_comm]

theorem expand_succ (fuel : ℕ) (tokens : List Token) (expanding : List String) :
    expandMacroTokensWithStack chars table (fuel + 1) tokens expanding =
      (outputs chars table expanding tokens).mapM (expandOutput chars table fuel) >>=
        fun parts => pure parts.flatten := by
  rw [expandMacroTokensWithStack]
  congr 2

/-- The first round of a scan, and the others. -/
theorem expand_cons (fuel : ℕ) (expanding : List String) (t : Token) (rest : List Token) :
    expandMacroTokensWithStack chars table (fuel + 1) (t :: rest) expanding =
      (expandOutput chars table fuel (scanToken chars table expanding t rest).1).bind fun first =>
        (expandMacroTokensWithStack chars table (fuel + 1)
          (scanToken chars table expanding t rest).2 expanding).map (first ++ ·) := by
  rw [expand_succ, expand_succ, outputs, List.mapM_cons]
  cases expandOutput chars table fuel (scanToken chars table expanding t rest).1 with
  | error e => rfl
  | ok first =>
    simp only [bind, Except.bind]
    cases (outputs chars table expanding (scanToken chars table expanding t rest).2).mapM
        (expandOutput chars table fuel) with
    | error e => rfl
    | ok parts => rfl

/-- A scan with a result, or with a fault of its own, has it for every larger fuel. -/
theorem expand_mono {fuel fuel' : ℕ} (hle : fuel ≤ fuel') {tokens : List Token}
    {expanding : List String}
    (h : expandMacroTokensWithStack chars table fuel tokens expanding ≠ .error .outOfFuel) :
    expandMacroTokensWithStack chars table fuel' tokens expanding =
      expandMacroTokensWithStack chars table fuel tokens expanding := by
  induction fuel generalizing fuel' tokens expanding with
  | zero => exact absurd rfl h
  | succ fuel ih =>
    obtain ⟨m, rfl⟩ : ∃ m, fuel' = m + 1 := ⟨fuel' - 1, by omega⟩
    have hm : fuel ≤ m := Nat.le_of_succ_le_succ hle
    have hround : ∀ o, expandOutput chars table fuel o ≠ .error .outOfFuel →
        expandOutput chars table m o = expandOutput chars table fuel o := by
      intro o ho
      cases o with
      | push t => rfl
      | scan functionLike name tokens expanding => exact ih hm ho
      | fault e => rfl
    induction hn : tokens.length using Nat.strongRecOn generalizing tokens with
    | ind n ihn =>
      cases tokens with
      | nil =>
        rw [expand_succ, expand_succ, outputs]
        rfl
      | cons t rest =>
        have hlt := length_scanToken_le chars table expanding t rest
        rw [expand_cons] at h
        rw [expand_cons, expand_cons]
        cases hfirst : expandOutput chars table fuel (scanToken chars table expanding t rest).1 with
        | error e =>
          rw [hfirst] at h
          rw [hround _ (hfirst ▸ h), hfirst]
          rfl
        | ok first =>
          rw [hround _ (by rw [hfirst]; rintro ⟨⟩), hfirst]
          rw [hfirst] at h
          simp only [Except.bind] at h ⊢
          rw [ihn _ (by rw [← hn, List.length_cons]; omega) (fun herr => h (by rw [herr]; rfl)) rfl]

/-- A scan without enough fuel fails, and else only at a call that is not supplied. -/
theorem expand_fault {fuel : ℕ} {tokens : List Token} {expanding : List String} {e : Fault}
    (h : expandMacroTokensWithStack chars table fuel tokens expanding = .error e) :
    e = .outOfFuel ∨ e = .indexOutOfBounds ∧ ¬CallsSupplied chars table ⟨tokens, expanding⟩ := by
  induction fuel generalizing tokens expanding with
  | zero => exact .inl (Except.error.inj h).symm
  | succ fuel ih =>
    induction hn : tokens.length using Nat.strongRecOn generalizing tokens with
    | ind n ihn =>
      cases tokens with
      | nil =>
        rw [expand_succ, outputs] at h
        cases h
      | cons t rest =>
        have hlt := length_scanToken_le chars table expanding t rest
        rw [expand_cons] at h
        cases hround : expandOutput chars table fuel (scanToken chars table expanding t rest).1 with
        | ok first =>
          rw [hround] at h
          cases hrest : expandMacroTokensWithStack chars table (fuel + 1)
              (scanToken chars table expanding t rest).2 expanding with
          | error e' =>
            rw [hrest] at h
            cases h
            refine (ihn _ (by rw [← hn, List.length_cons]; omega) hrest rfl).imp_right
              (And.imp_right fun hnot hsupplied => hnot fun t' rest' expanding' hcomes => ?_)
            exact hsupplied t' rest' expanding' (.next hround hcomes)
          | ok r =>
            rw [hrest] at h
            cases h
        | error e' =>
          rw [hround] at h
          cases h
          cases hout : (scanToken chars table expanding t rest).1 with
          | push t' =>
            rw [hout] at hround
            cases hround
          | scan functionLike name tokens' expanding' =>
            rw [hout] at hround
            refine (ih hround).imp_right
              (And.imp_right fun hnot hsupplied => hnot fun t' rest' expanding'' hcomes => ?_)
            exact hsupplied t' rest' expanding'' (.nested hout hcomes)
          | fault e' =>
            rw [hout] at hround
            cases hround
            obtain ⟨rfl, i, hcall, hnot⟩ := (scanToken_fault_iff expanding t rest e).1 hout
            exact .inr ⟨rfl, fun hsupplied => hnot (hsupplied t rest expanding (.here _) i hcall)⟩

/-- A call that is not supplied is a fault when there is fuel to come to it. -/
theorem ComesTo.fault {s : Scan} {expanding : List String} {t : Token} {rest : List Token}
    (h : ComesTo chars table s ⟨t :: rest, expanding⟩) {i : Invocation}
    (hcall : callAt table expanding t rest = some i) (hnot : ¬i.Supplied chars) :
    ∃ fuel, expandMacroTokensWithStack chars table fuel s.tokens s.expanding =
      .error .indexOutOfBounds := by
  generalize hu : (⟨t :: rest, expanding⟩ : Scan) = u at h
  induction h with
  | here s =>
    subst hu
    have hfault := (scanToken_fault_iff expanding t rest .indexOutOfBounds).2 ⟨rfl, i, hcall, hnot⟩
    refine ⟨1, ?_⟩
    rw [expand_cons, hfault]
    rfl
  | @next expanding' t' rest' u fuel r hdone hcomes ih =>
    obtain ⟨m, hm⟩ := ih hu
    refine ⟨max fuel m + 1, ?_⟩
    have hrest : expandMacroTokensWithStack chars table (max fuel m + 1)
        (scanToken chars table expanding' t' rest').2 expanding' = .error .indexOutOfBounds :=
      (expand_mono (Nat.le_succ_of_le (Nat.le_max_right fuel m)) (by rw [hm]; exact nofun)).trans hm
    have hfirst : expandOutput chars table (max fuel m)
        (scanToken chars table expanding' t' rest').1 = .ok r := by
      cases hout : (scanToken chars table expanding' t' rest').1 with
      | push t =>
        rw [hout] at hdone
        exact hdone
      | scan functionLike name tokens expanding =>
        rw [hout] at hdone
        simp only [expandOutput] at hdone ⊢
        rw [expand_mono (Nat.le_max_left fuel m) (by rw [hdone]; exact nofun), hdone]
      | fault e =>
        rw [hout] at hdone
        cases hdone
    rw [expand_cons, hfirst]
    simp only [Except.bind]
    rw [hrest]
    rfl
  | @nested expanding' expanding'' t' rest' tokens u functionLike name hscan hcomes ih =>
    obtain ⟨m, hm⟩ := ih hu
    refine ⟨m + 1, ?_⟩
    rw [expand_cons, hscan]
    simp only [expandOutput]
    rw [hm]
    rfl

/-- A scan fails exactly if it comes to a call that is not supplied. -/
theorem expand_inBounds_iff (s : Scan) :
    (∀ fuel, expandMacroTokensWithStack chars table fuel s.tokens s.expanding ≠
      .error .indexOutOfBounds) ↔ CallsSupplied chars table s := by
  constructor
  · intro h t rest expanding hcomes i hcall
    by_contra hnot
    obtain ⟨fuel, hfuel⟩ := hcomes.fault hcall hnot
    exact h fuel hfuel
  · intro h fuel hfault
    rcases expand_fault hfault with hfuel | ⟨-, hnot⟩
    · cases hfuel
    · exact hnot h

end Scans

end OpticC.Preprocessor
