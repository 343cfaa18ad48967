import OpticC.Frontend.IfFuel
import OpticC.Frontend.IfMacros

/-! When macro invocations, in text and in `#if` lines, find the arguments they index. -/

namespace OpticC.Preprocessor

open Scripts

section Lines

variable {o : OverflowChecks} {env : IfEnv}

/-- The expansion of the invocation indexes no argument that is not there, in its own replacement
or in a call that the scan of it comes to. -/
def Invocation.InBounds (env : IfEnv) : Invocation → Prop
  | objectLike replacement => CallsSupplied env.chars env.macros ⟨replacement, []⟩
  | functionLike params isVariadic variadicParam args replacement =>
    Preprocessor.Supplied env.chars params isVariadic variadicParam args replacement ∧
      ∀ substituted, expandFunctionMacroTokens env.chars params isVariadic variadicParam args
        replacement [] = .ok substituted → CallsSupplied env.chars env.macros ⟨substituted, []⟩

theorem Invocation.inBounds_iff (i : Invocation) :
    (∀ n, i.expansion (env.withFuel n) ≠ .error .indexOutOfBounds) ↔ i.InBounds env := by
  cases i with
  | objectLike replacement => exact expand_inBounds_iff ⟨replacement, []⟩
  | functionLike params isVariadic variadicParam args replacement =>
    rw [Invocation.InBounds, ← expandFunctionMacroTokens_isOk_iff]
    simp only [Invocation.expansion]
    show (∀ n, (expandFunctionMacroTokens env.chars params isVariadic variadicParam args
      replacement [] >>= fun substituted => expandMacroTokens env.chars env.macros n substituted) ≠
        .error .indexOutOfBounds) ↔ _
    cases hsub : expandFunctionMacroTokens env.chars params isVariadic variadicParam args
        replacement [] with
    | error e =>
      obtain ⟨rfl, -⟩ := (expandFunctionMacroTokens_error_iff _ _ e).1 hsub
      refine iff_of_false (fun h => h 0 rfl) ?_
      rintro ⟨⟨r, hr⟩, -⟩
      cases hr
    | ok substituted =>
      refine (expand_inBounds_iff ⟨substituted, []⟩).trans ?_
      simp

theorem IfStep.perform_index {x : IfStep}
    (h : x.perform o env = .error (.fault .indexOutOfBounds)) :
    ∃ within name i, x = .expand within name i ∧ i.expansion env = .error .indexOutOfBounds := by
  cases x with
  | binary op l r =>
    have hop := map_eq_error_iff.1 h
    cases op with
    | div | rem =>
      simp only [ifOp, divide] at hop
      split_ifs at hop <;> cases hop
    | add | sub | mul | eq | ne | lt | gt | le | ge | land | lor | and | or | xor | shl | shr =>
      cases hop
  | minus e =>
    have hneg := map_eq_error_iff.1 h
    unfold negate at hneg
    split_ifs at hneg
    cases hneg
  | expand within name i =>
    refine ⟨within, name, i, rfl, ?_⟩
    rw [IfStep.perform] at h
    cases hexp : i.expansion env with
    | ok tokens =>
      rw [hexp] at h
      cases h
    | error e =>
      rw [hexp] at h
      cases h
      rfl

/-- The evaluation of a line indexes no argument that is not there exactly if the expansions it
comes to do not. -/
theorem evalIfLineIn_inBounds_iff (line : List PpToken) :
    (∀ n, evalIfLineIn o (env.withFuel n) n line ≠ .error (.fault .indexOutOfBounds)) ↔
      ∀ within name i, LineExpands o env line within name i → i.InBounds env := by
  have hresult : ∀ n, evalIfLineIn o (env.withFuel n) n line = .error (.fault .indexOutOfBounds) ↔
      ∃ x ∈ reached (IfStep.perform o (env.withFuel n)) (evalIfLineSteps (env.withFuel n) n line),
        x.perform o (env.withFuel n) = .error (.fault .indexOutOfBounds) := by
    intro n
    rw [evalIfLineIn_error_iff, run_error_iff]
    refine or_iff_left fun hend => ?_
    cases (evalIfLineSteps_computes o (env.withFuel n) n line).fault _ hend
  constructor
  · rintro h within name i ⟨n, hn⟩
    rw [← i.inBounds_iff]
    intro m hm
    -- with the fuel of both, the line still comes to the expansion
    have hreached := (evalIfLineSteps_extends o env (Nat.le_max_left n m) line).subset hn
    have hexp : i.expansion (env.withFuel (max n m)) = .error .indexOutOfBounds := by
      rw [Invocation.expansion_mono (Nat.le_max_right n m) (by rw [hm]; exact nofun), hm]
    refine h (max n m) ((hresult _).2 ⟨_, hreached, ?_⟩)
    rw [IfStep.perform, hexp]
    rfl
  · intro h n hn
    obtain ⟨x, hx, hperform⟩ := (hresult n).1 hn
    obtain ⟨within, name, i, rfl, hexp⟩ := IfStep.perform_index hperform
    exact i.inBounds_iff.2 (h within name i ⟨n, hx⟩) n hexp

end Lines

section MissingArgument

/-- `#define S(a,b) #b` behind the directive name. -/
def secondTextDefinition : List PpToken :=
  [⟨.whitespace, " ", 1, 8⟩, ⟨.identifier, "S", 1, 9⟩, ⟨.punctuator, "(", 1, 10⟩,
    ⟨.identifier, "a", 1, 11⟩, ⟨.punctuator, ",", 1, 12⟩, ⟨.identifier, "b", 1, 13⟩,
    ⟨.punctuator, ")", 1, 14⟩, ⟨.whitespace, " ", 1, 15⟩, ⟨.hash, "#", 1, 16⟩,
    ⟨.identifier, "b", 1, 17⟩, ⟨.newline, "\n", 1, 18⟩]

def secondTextTable : MacroTable :=
  [("S", .functionLike ["a", "b"] false none
    [⟨.punctuator, "#", 1, 16, "a.c"⟩, ⟨.identifier, "b", 1, 17, "a.c"⟩])]

/-- A parameter in front of a comma. -/
theorem parseMacroParams_comma {file : String} {tokens rest more : List PpToken} {t next : PpToken}
    (params : List String) (h : skipWhitespace tokens = t :: rest) (hk : t.kind = .identifier)
    (h1 : t.text ≠ ")") (h2 : t.text ≠ "...") (hrest : skipWhitespace rest = next :: more)
    (h3 : next.text = ",") :
    parseMacroParams file tokens params = parseMacroParams file more (params ++ [t.text]) := by
  rw [parseMacroParams]
  split
  · simp_all
  · rename_i heq
    rw [h] at heq
    cases heq
    rw [if_neg h1, if_neg h2, if_pos hk]
    split
    · simp_all
    · rename_i heq
      rw [hrest] at heq
      cases heq
      rw [if_neg (by rw [h3]; decide), if_pos h3]

theorem processDefine_secondText :
    processDefine [] secondTextDefinition "a.c" = .ok (secondTextTable, []) := by
  have hparams : parseMacroParams "a.c" (secondTextDefinition.drop 3) [] =
      .ok (["a", "b"], false, none, secondTextDefinition.drop 7) :=
    (parseMacroParams_comma [] rfl rfl (by decide) (by decide) rfl rfl).trans
      ((parseMacroParams_name _ rfl rfl (by decide) (by decide) rfl (by decide) (by decide)).trans
        (parseMacroParams_close _ rfl rfl))
  show ((parseMacroParams "a.c" (secondTextDefinition.drop 3) []).bind _) = _
  rw [hparams]
  rfl

/-- `S(x)` -/
def oneArgument : List Token := [ident "S", punct "(", ident "x", punct ")"]

end MissingArgument

end OpticC.Preprocessor
