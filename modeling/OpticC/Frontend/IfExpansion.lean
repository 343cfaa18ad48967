import Mathlib.Data.List.TakeWhile
import OpticC.Frontend.IfReading

/-! The line of an `#if` with its macros expanded in place: the operands of `defined` and of
the `__has_` probes are left as they are, and what is then still an identifier is 0. -/

namespace OpticC.Preprocessor

section Expansion

variable (env : IfEnv)

/-- The expansion of the invocation that begins with the macro `name`, and the tokens behind
it. The name of an object-like macro stays blocked while its replacement is scanned. -/
def invocation (name : String) (rest : List PpToken) :
    Option (Except Fault (List Token) × List PpToken) :=
  match env.macros.lookup name with
  | none => none
  | some (.objectLike replacement) =>
    some (expandMacroTokensWithStack env.chars env.macros env.expansionFuel replacement [name], rest)
  | some (.functionLike params isVariadic variadicParam replacement) =>
    match skipWhitespace rest with
    | [] => none
    | paren :: inside =>
      if paren.text = "(" then
        let (args, behind) := collectPpMacroArgs params.length isVariadic env.file inside [] [] 0
        let expansion := do
          let substituted ←
            expandFunctionMacroTokens env.chars params isVariadic variadicParam args replacement []
          expandMacroTokens env.chars env.macros env.expansionFuel substituted
        some (expansion, behind)
      else none

/-- What the operand of a `defined` or of a probe evaluates to, behind `t`. -/
def unexpandedOperand (t : PpToken) (rest : List PpToken) : Option IfResult :=
  if t.text = "defined" then some (parseDefined env rest)
  else (featureProbe env t.text).map fun predicate => parseFeatureProbe predicate rest

/-- How a scan of the line goes on from `t`: where its operand or its invocation ends, and what
stands for it. -/
inductive LinePart where
  | copy
  | operand (behind : List PpToken)
  /-- An operand that is cut short or has no name takes the rest of the line. -/
  | malformed
  | replace (expansion : Except Fault (List Token)) (behind : List PpToken)

def linePart (t : PpToken) (rest : List PpToken) : LinePart :=
  if t.kind ≠ .identifier then .copy
  else match unexpandedOperand env t rest with
    | some (.ok (_, behind)) => .operand behind
    | some (.error _) => .malformed
    | none =>
      match invocation env t.text rest with
      | some (expansion, behind) => .replace expansion behind
      | none => .copy

end Expansion

section Lengths

variable {env : IfEnv}

theorem skipWhitespace_cases (tokens : List PpToken) :
    ∃ gap, (∀ t ∈ gap, t.kind = .whitespace) ∧ tokens = gap ++ skipWhitespace tokens :=
  ⟨tokens.takeWhile fun t => t.kind == .whitespace,
    fun t ht => by simpa using List.mem_takeWhile_imp ht,
    (List.takeWhile_append_dropWhile).symm⟩

theorem skipWhitespace_gap {gap : List PpToken} (hgap : ∀ t ∈ gap, t.kind = .whitespace)
    (rest : List PpToken) : skipWhitespace (gap ++ rest) = skipWhitespace rest :=
  List.dropWhile_append_of_pos fun t ht => by simp [hgap t ht]

theorem skipWhitespace_cons {t : PpToken} (h : t.kind ≠ .whitespace) (rest : List PpToken) :
    skipWhitespace (t :: rest) = t :: rest :=
  List.dropWhile_cons_of_neg (by simp [h])

theorem skipWhitespace_cons_gap {t : PpToken} (h : t.kind = .whitespace) (rest : List PpToken) :
    skipWhitespace (t :: rest) = skipWhitespace rest :=
  List.dropWhile_cons_of_pos (by simp [h])

theorem skipWhitespace_head {tokens rest : List PpToken} {t : PpToken}
    (h : skipWhitespace tokens = t :: rest) : t.kind ≠ .whitespace := by
  have hhead := List.head?_dropWhile_not (fun t : PpToken => t.kind == .whitespace) tokens
  unfold skipWhitespace at h
  rw [h] at hhead
  simpa using hhead

theorem length_collectPpMacroArgs_le (n : ℕ) (v : Bool) (file : String) (tokens : List PpToken)
    (args : List (List Token)) (current : List PpToken) (depth : ℕ) :
    (collectPpMacroArgs n v file tokens args current depth).2.length ≤ tokens.length := by
  induction tokens generalizing args current depth with
  | nil => simp [collectPpMacroArgs]
  | cons t rest ih =>
    unfold collectPpMacroArgs
    split_ifs
    · exact Nat.le_succ_of_le (ih _ _ _)
    · exact Nat.le_succ _
    · exact Nat.le_succ _
    · exact Nat.le_succ_of_le (ih _ _ _)
    · exact Nat.le_succ_of_le (ih _ _ _)
    · exact Nat.le_succ_of_le (ih _ _ _)

theorem invocation_length {name : String} {rest behind : List PpToken}
    {expansion : Except Fault (List Token)}
    (h : invocation env name rest = some (expansion, behind)) : behind.length ≤ rest.length := by
  unfold invocation at h
  cases hd : env.macros.lookup name with
  | none =>
    rw [hd] at h
    cases h
  | some d =>
    rw [hd] at h
    cases d with
    | objectLike replacement =>
      cases h
      exact Nat.le_refl _
    | functionLike params isVariadic variadicParam replacement =>
      simp only at h
      have hle := length_skipWhitespace_le rest
      cases hskip : skipWhitespace rest with
      | nil =>
        rw [hskip] at h
        cases h
      | cons paren inside =>
        rw [hskip] at h hle
        simp only at h
        split_ifs at h with hparen
        cases h
        exact Nat.le_trans (length_collectPpMacroArgs_le ..) (Nat.le_of_succ_le hle)

end Lengths

section Boundaries

variable (env : IfEnv)

/-- What is in front of the rest is no closing parenthesis. -/
def NotClosing (rest : List PpToken) : Prop :=
  ∀ t more, skipWhitespace rest = t :: more → t.text ≠ ")"

/-- `f` takes a part of its input by itself, whatever then stands behind that part; a closing
parenthesis may have to stay away from there. -/
def TakesPart {α : Type} (f : List PpToken → Except PreprocessorError (α × List PpToken))
    (tokens : List PpToken) (value : α) (behind : List PpToken) : Prop :=
  ∃ part, tokens = part ++ behind ∧ ∀ rest, (NotClosing behind → NotClosing rest) →
    ∃ rest', f (part ++ rest) = .ok (value, rest') ∧ skipWhitespace rest' = skipWhitespace rest

theorem skipClose_notClosing {rest : List PpToken} (h : NotClosing rest) :
    skipClose (skipWhitespace rest) = skipWhitespace rest := by
  cases hskip : skipWhitespace rest with
  | nil => rfl
  | cons t more => exact if_neg (h t more hskip)

theorem parseDefined_paren {gap gap' : List PpToken} {paren name : PpToken}
    (hgap : ∀ t ∈ gap, t.kind = .whitespace) (hgap' : ∀ t ∈ gap', t.kind = .whitespace)
    (hkind : paren.kind ≠ .whitespace) (hparen : paren.text = "(") (hname : name.kind = .identifier)
    (rest : List PpToken) :
    parseDefined env (gap ++ paren :: (gap' ++ name :: rest)) =
      .ok (flag (env.macros.lookup name.text).isSome, skipClose (skipWhitespace rest)) := by
  have hname' : name.kind ≠ .whitespace := hname ▸ by decide
  have hskip : skipWhitespace (gap ++ paren :: (gap' ++ name :: rest)) =
      paren :: (gap' ++ name :: rest) :=
    (skipWhitespace_gap hgap _).trans (skipWhitespace_cons hkind _)
  have hskip' : skipWhitespace (gap' ++ name :: rest) = name :: rest :=
    (skipWhitespace_gap hgap' _).trans (skipWhitespace_cons hname' _)
  simp only [parseDefined, hskip, if_pos hparen, hskip', if_pos hname, if_true]

theorem parseDefined_name {gap : List PpToken} {name : PpToken}
    (hgap : ∀ t ∈ gap, t.kind = .whitespace) (hparen : name.text ≠ "(")
    (hname : name.kind = .identifier) (rest : List PpToken) :
    parseDefined env (gap ++ name :: rest) =
      .ok (flag (env.macros.lookup name.text).isSome, rest) := by
  have hname' : name.kind ≠ .whitespace := hname ▸ by decide
  unfold parseDefined
  simp only
  rw [skipWhitespace_gap hgap, skipWhitespace_cons hname']
  simp only [if_neg hparen, if_pos hname]
  rfl

theorem parseDefined_part {tokens behind : List PpToken} {v : BitVec 64}
    (h : parseDefined env tokens = .ok (v, behind)) :
    TakesPart (parseDefined env) tokens v behind := by
  obtain ⟨gap, hgap, htokens⟩ := skipWhitespace_cases tokens
  cases hskip : skipWhitespace tokens with
  | nil =>
    unfold parseDefined at h
    rw [hskip] at h
    cases h
  | cons t rest =>
    have hkind := skipWhitespace_head hskip
    rw [hskip] at htokens
    subst htokens
    by_cases hparen : t.text = "("
    · obtain ⟨gap', hgap', hrest⟩ := skipWhitespace_cases rest
      cases hskip' : skipWhitespace rest with
      | nil =>
        unfold parseDefined at h
        simp only [hskip, if_pos hparen, hskip'] at h
        cases h
      | cons name more =>
        by_cases hname : name.kind = .identifier
        · rw [hskip'] at hrest
          subst hrest
          rw [parseDefined_paren env hgap hgap' hkind hparen hname] at h
          obtain ⟨rfl, rfl⟩ := Prod.mk.inj (Except.ok.inj h)
          obtain ⟨gap'', hgap'', hmore⟩ := skipWhitespace_cases more
          have hopen : ∀ rest, NotClosing rest → ∃ rest',
              parseDefined env (gap ++ t :: (gap' ++ name :: (gap'' ++ rest))) =
                .ok (flag (env.macros.lookup name.text).isSome, rest') ∧
              skipWhitespace rest' = skipWhitespace rest := fun rest hrest => by
            refine ⟨_, parseDefined_paren env hgap hgap' hkind hparen hname _, ?_⟩
            rw [skipWhitespace_gap hgap'', skipClose_notClosing hrest,
              skipWhitespace_skipWhitespace]
          cases hclose : skipWhitespace more with
          | nil =>
            rw [hclose] at hmore
            have hend : NotClosing (skipClose []) := fun t more h => nomatch h
            exact ⟨gap ++ t :: (gap' ++ name :: gap''), by simp [hmore, skipClose], fun rest hrest =>
              by simpa using hopen rest (hrest hend)⟩
          | cons close behind =>
            rw [hclose] at hmore
            by_cases hclosing : close.text = ")"
            · refine ⟨gap ++ t :: (gap' ++ name :: (gap'' ++ [close])),
                by simp [hmore, skipClose, hclosing], fun rest _ => ⟨rest, ?_, rfl⟩⟩
              have hkind' := skipWhitespace_head hclose
              have hparse := parseDefined_paren env hgap hgap' hkind hparen hname
                (gap'' ++ close :: rest)
              rw [skipWhitespace_gap hgap'', skipWhitespace_cons hkind', skipClose,
                if_pos hclosing] at hparse
              simpa using hparse
            · have hend : NotClosing (skipClose (close :: behind)) := fun t more h => by
                rw [skipClose, if_neg hclosing,
                  skipWhitespace_cons (skipWhitespace_head hclose)] at h
                exact (List.cons.inj h).1 ▸ hclosing
              exact ⟨gap ++ t :: (gap' ++ name :: gap''), by simp [hmore, skipClose, hclosing],
                fun rest hrest => by simpa using hopen rest (hrest hend)⟩
        · unfold parseDefined at h
          simp only [hskip, if_pos hparen, hskip', if_neg hname] at h
          cases h
    · by_cases hname : t.kind = .identifier
      · rw [parseDefined_name env hgap hparen hname] at h
        obtain ⟨rfl, rfl⟩ := Prod.mk.inj (Except.ok.inj h)
        exact ⟨gap ++ [t], by simp, fun rest _ =>
          ⟨rest, by simpa using parseDefined_name env hgap hparen hname rest, rfl⟩⟩
      · unfold parseDefined at h
        simp only [hskip, if_neg hparen, if_neg hname] at h
        cases h

/-- The argument of a probe is over: a parenthesis closes it, whatever is behind. -/
theorem takesPart_of_closed (middle : List PpToken) {front tail behind : List PpToken} {v value : String}
    (hparse : ∀ rest closing after, skipWhitespace rest = closing :: after → closing.text = ")" →
      parseFeatureProbeArgument (front ++ (middle ++ rest)) = .ok (v, after))
    (htail : (match skipWhitespace tail with
        | [] => .error (.conditionalError "expected ) to close feature probe")
        | t :: behind =>
          if t.text = ")" then .ok (v, behind)
          else .error (.conditionalError "expected ) to close feature probe")) =
      Except.ok (ε := PreprocessorError) (value, behind)) :
    TakesPart parseFeatureProbeArgument (front ++ (middle ++ tail)) value behind := by
  obtain ⟨gap, hgap, hsplit⟩ := skipWhitespace_cases tail
  cases hskip : skipWhitespace tail with
  | nil =>
    rw [hskip] at htail
    cases htail
  | cons closing after =>
    rw [hskip] at htail hsplit
    simp only at htail
    split_ifs at htail with hclosing
    obtain ⟨rfl, rfl⟩ := Prod.mk.inj (Except.ok.inj htail)
    refine ⟨front ++ (middle ++ (gap ++ [closing])), by simp [hsplit], fun rest _ => ⟨rest, ?_, rfl⟩⟩
    have hfound := hparse (gap ++ closing :: rest) closing rest
      ((skipWhitespace_gap hgap _).trans (skipWhitespace_cons (skipWhitespace_head hskip) _)) hclosing
    simpa using hfound

/-- What is in front of the first token that stops a scan is the same before any rest. -/
theorem exists_front_of_dropWhile {p : PpToken → Bool} {tokens tail : List PpToken} {stop : PpToken}
    (h : tokens.dropWhile p = stop :: tail) :
    ∃ front, tokens = front ++ stop :: tail ∧ ∀ rest,
      (front ++ stop :: rest).takeWhile p = front ∧ (front ++ stop :: rest).dropWhile p = stop :: rest := by
  have hfront : ∀ t ∈ tokens.takeWhile p, p t = true := fun t ht => List.mem_takeWhile_imp ht
  have hstop : ¬p stop = true := by
    have hhead := List.head?_dropWhile_not p tokens
    rw [h] at hhead
    simpa using hhead
  refine ⟨tokens.takeWhile p, h ▸ List.takeWhile_append_dropWhile.symm, fun rest => ⟨?_, ?_⟩⟩
  · rw [List.takeWhile_append_of_pos hfront, List.takeWhile_cons_of_neg hstop, List.append_nil]
  · rw [List.dropWhile_append_of_pos hfront, List.dropWhile_cons_of_neg hstop]

/-- The argument of a probe stands between parentheses. -/
theorem parseFeatureProbeArgument_part {tokens behind : List PpToken} {value : String}
    (h : parseFeatureProbeArgument tokens = .ok (value, behind)) :
    TakesPart parseFeatureProbeArgument tokens value behind := by
  obtain ⟨gap, hgap, htokens⟩ := skipWhitespace_cases tokens
  unfold parseFeatureProbeArgument at h
  cases hskip : skipWhitespace tokens with
  | nil =>
    rw [hskip] at h
    cases h
  | cons paren rest =>
    have hkind := skipWhitespace_head hskip
    rw [hskip] at htokens h
    subst htokens
    simp only at h
    by_cases hparen : paren.text = "("
    swap
    · rw [if_pos hparen] at h
      cases h
    rw [if_neg (not_not.2 hparen)] at h
    obtain ⟨gap', hgap', hrest⟩ := skipWhitespace_cases rest
    cases hskip' : skipWhitespace rest with
    | nil =>
      rw [hskip'] at h
      cases h
    | cons t more =>
      have hkind' := skipWhitespace_head hskip'
      rw [hskip'] at hrest h
      subst hrest
      simp only at h
      have hfront : ∀ tail, gap ++ paren :: (gap' ++ t :: tail) =
          (gap ++ paren :: (gap' ++ [t])) ++ tail := fun tail => by simp
      have hskips : ∀ tail, skipWhitespace (gap ++ paren :: (gap' ++ t :: tail)) =
          paren :: (gap' ++ t :: tail) ∧ skipWhitespace (gap' ++ t :: tail) = t :: tail :=
        fun tail => ⟨(skipWhitespace_gap hgap _).trans (skipWhitespace_cons hkind _),
          (skipWhitespace_gap hgap' _).trans (skipWhitespace_cons hkind' _)⟩
      rw [hfront]
      by_cases hstring : t.kind = .stringLit
      · rw [if_pos hstring] at h
        refine takesPart_of_closed [] (fun rest closing after hrest hclosing => ?_) h
        rw [← hfront]
        simp only [parseFeatureProbeArgument, (hskips _).1, hparen, ne_eq, not_true_eq_false,
          if_false, (hskips _).2, if_pos hstring, List.nil_append, hrest, if_pos hclosing]
      rw [if_neg hstring] at h
      by_cases hangle : t.text = "<"
      · rw [if_pos hangle] at h
        cases hdrop : more.dropWhile fun t => t.text != ">" with
        | nil =>
          rw [hdrop] at h
          cases h
        | cons angle tail =>
          obtain ⟨path, rfl, hpath⟩ := exists_front_of_dropWhile hdrop
          rw [hdrop, (hpath _).1] at h
          rw [← List.singleton_append (l := tail), ← List.append_assoc path]
          refine takesPart_of_closed _ (fun rest closing after hrest hclosing => ?_) h
          rw [← hfront]
          simp only [parseFeatureProbeArgument, (hskips _).1, hparen, ne_eq, not_true_eq_false,
            if_false, (hskips _).2, if_neg hstring, if_pos hangle, List.append_assoc,
            List.singleton_append, (hpath _).1, (hpath _).2, hrest, if_pos hclosing]
      · rw [if_neg hangle] at h
        refine takesPart_of_closed [] (fun rest closing after hrest hclosing => ?_) h
        rw [← hfront]
        simp only [parseFeatureProbeArgument, (hskips _).1, hparen, ne_eq, not_true_eq_false,
          if_false, (hskips _).2, if_neg hstring, if_neg hangle, List.nil_append, hrest,
          if_pos hclosing]

theorem unexpandedOperand_part {t : PpToken} {tokens behind : List PpToken} {v : BitVec 64}
    {parse : List PpToken → IfResult} (hparse : ∀ rest, unexpandedOperand env t rest = some (parse rest))
    (h : parse tokens = .ok (v, behind)) : TakesPart parse tokens v behind := by
  by_cases hdefined : t.text = "defined"
  · have heq : parse = parseDefined env := funext fun rest => by
      have hrest := hparse rest
      rw [unexpandedOperand, if_pos hdefined] at hrest
      exact (Option.some.inj hrest).symm
    subst heq
    exact parseDefined_part env h
  · cases hprobe : featureProbe env t.text with
    | none =>
      have hrest := hparse []
      rw [unexpandedOperand, if_neg hdefined, hprobe] at hrest
      cases hrest
    | some predicate =>
      have heq : parse = parseFeatureProbe predicate := funext fun rest => by
        have hrest := hparse rest
        rw [unexpandedOperand, if_neg hdefined, hprobe] at hrest
        exact (Option.some.inj hrest).symm
      subst heq
      obtain ⟨⟨value, after⟩, harg, hvalue⟩ := bind_eq_ok h
      obtain ⟨rfl, rfl⟩ := Prod.mk.inj (Except.ok.inj hvalue)
      obtain ⟨part, htokens, hpart⟩ := parseFeatureProbeArgument_part harg
      refine ⟨part, htokens, fun rest hrest => ?_⟩
      obtain ⟨rest', hfound, hskip⟩ := hpart rest hrest
      refine ⟨rest', ?_, hskip⟩
      rw [parseFeatureProbe, hfound]
      rfl

theorem TakesPart.length_le {α : Type}
    {f : List PpToken → Except PreprocessorError (α × List PpToken)} {tokens behind : List PpToken}
    {value : α} (h : TakesPart f tokens value behind) : behind.length ≤ tokens.length := by
  obtain ⟨part, rfl, -⟩ := h
  rw [List.length_append]
  exact Nat.le_add_left _ _

/-- It is the token alone that decides how the operand behind it is read. -/
theorem unexpandedOperand_total {t : PpToken} {tokens : List PpToken} {r : IfResult}
    (h : unexpandedOperand env t tokens = some r) :
    ∃ parse : List PpToken → IfResult, ∀ rest, unexpandedOperand env t rest = some (parse rest) := by
  by_cases hdefined : t.text = "defined"
  · exact ⟨parseDefined env, fun rest => by rw [unexpandedOperand, if_pos hdefined]⟩
  · cases hprobe : featureProbe env t.text with
    | none =>
      rw [unexpandedOperand, if_neg hdefined, hprobe] at h
      cases h
    | some predicate =>
      exact ⟨parseFeatureProbe predicate, fun rest => by
        rw [unexpandedOperand, if_neg hdefined, hprobe]
        rfl⟩

/-- The operand of a `defined` or of a probe, with a reading that takes it. -/
theorem unexpandedOperand_takes {t : PpToken} {tokens behind : List PpToken} {v : BitVec 64}
    (h : unexpandedOperand env t tokens = some (.ok (v, behind))) :
    ∃ parse, (∀ rest, unexpandedOperand env t rest = some (parse rest)) ∧
      TakesPart parse tokens v behind := by
  obtain ⟨parse, hparse⟩ := unexpandedOperand_total env h
  exact ⟨parse, hparse, unexpandedOperand_part env hparse
    (Option.some.inj ((hparse tokens).symm.trans h))⟩

theorem linePart_operand {t : PpToken} {rest behind : List PpToken}
    (h : linePart env t rest = .operand behind) :
    t.kind = .identifier ∧ ∃ v, unexpandedOperand env t rest = some (.ok (v, behind)) := by
  unfold linePart at h
  split_ifs at h with hkind
  refine ⟨not_not.1 hkind, ?_⟩
  cases hoperand : unexpandedOperand env t rest with
  | none =>
    rw [hoperand] at h
    cases hinv : invocation env t.text rest <;> rw [hinv] at h <;> cases h
  | some r =>
    rw [hoperand] at h
    obtain e | ⟨v, after⟩ := r <;> cases h
    exact ⟨v, rfl⟩

theorem linePart_replace {t : PpToken} {rest behind : List PpToken}
    {expansion : Except Fault (List Token)} (h : linePart env t rest = .replace expansion behind) :
    t.kind = .identifier ∧ unexpandedOperand env t rest = none ∧
      invocation env t.text rest = some (expansion, behind) := by
  unfold linePart at h
  split_ifs at h with hkind
  refine ⟨not_not.1 hkind, ?_⟩
  cases hoperand : unexpandedOperand env t rest with
  | some r =>
    rw [hoperand] at h
    obtain e | ⟨v, after⟩ := r <;> cases h
  | none =>
    rw [hoperand] at h
    cases hinv : invocation env t.text rest with
    | none =>
      rw [hinv] at h
      cases h
    | some r =>
      rw [hinv] at h
      cases h
      exact ⟨rfl, rfl⟩

end Boundaries

section Line

/-- The line, up to its newline, with its macros replaced. -/
def expandIfLine (env : IfEnv) : List PpToken → Except Fault (List PpToken)
  | [] => .ok []
  | t :: rest =>
    if t.kind = .newline then .ok (t :: rest)
    else match _h : linePart env t rest with
      | .copy => do
        let line ← expandIfLine env rest
        return t :: line
      | .operand behind => do
        let line ← expandIfLine env behind
        return (t :: rest).take (rest.length + 1 - behind.length) ++ line
      | .malformed => .ok (t :: rest)
      | .replace expansion behind => do
        let expanded ← expansion
        let line ← expandIfLine env behind
        return ifMacroLine expanded ++ line
termination_by tokens => tokens.length
decreasing_by
  · exact Nat.lt_succ_self _
  · obtain ⟨-, v, hoperand⟩ := linePart_operand env _h
    obtain ⟨parse, -, htakes⟩ := unexpandedOperand_takes env hoperand
    exact Nat.lt_succ_of_le htakes.length_le
  · exact Nat.lt_succ_of_le (invocation_length (linePart_replace env _h).2.2)

variable (env : IfEnv)

/-- An identifier where no macro is left. -/
def plainIdentifier (_ : List PpToken → IfResult) (name : String) (rest : List PpToken) :
    IfResult :=
  match featureProbe env name with
  | some predicate => parseFeatureProbe predicate rest
  | none => .ok (0, rest)

/-- `parse_if_expression` on an expanded line. -/
def evalExpandedLine (fuel : ℕ) (tokens : List PpToken) : IfResult :=
  (parseIfConditionalOf (parseIfOrBy env (plainIdentifier env) fuel) fuel tokens).map fun r =>
    (r.1, skipToDirectiveEnd r.2)

variable {env}

theorem expandIfLine_newline {t : PpToken} (h : t.kind = .newline) (rest : List PpToken) :
    expandIfLine env (t :: rest) = .ok (t :: rest) := by
  rw [expandIfLine, if_pos h]

theorem expandIfLine_copy {t : PpToken} {rest line : List PpToken} (hkind : t.kind ≠ .newline)
    (hpart : linePart env t rest = .copy) (h : expandIfLine env (t :: rest) = .ok line) :
    ∃ line', expandIfLine env rest = .ok line' ∧ line = t :: line' := by
  rw [expandIfLine, if_neg hkind] at h
  split at h
  · obtain ⟨line', hrest, hline⟩ := bind_eq_ok h
    exact ⟨line', hrest, (Except.ok.inj hline).symm⟩
  all_goals
    rename_i heq
    rw [hpart] at heq
    cases heq

theorem linePart_token {t : PpToken} (h : t.kind ≠ .identifier) (rest : List PpToken) :
    linePart env t rest = .copy := by
  rw [linePart, if_pos h]

/-- A token that begins neither an operand of its own kind nor an invocation is copied, the
newline included, which ends the line. -/
theorem expandIfLine_token {t : PpToken} {rest line : List PpToken} (h : t.kind ≠ .identifier)
    (hline : expandIfLine env (t :: rest) = .ok line) : ∃ line', line = t :: line' := by
  by_cases hkind : t.kind = .newline
  · rw [expandIfLine_newline hkind] at hline
    exact ⟨rest, (Except.ok.inj hline).symm⟩
  · obtain ⟨line', -, rfl⟩ := expandIfLine_copy hkind (linePart_token h rest) hline
    exact ⟨line', rfl⟩

theorem expandIfLine_operand {t : PpToken} {rest behind line : List PpToken} {v : BitVec 64}
    (hkind : t.kind = .identifier)
    (hoperand : unexpandedOperand env t rest = some (.ok (v, behind)))
    (h : expandIfLine env (t :: rest) = .ok line) :
    ∃ part line', rest = part ++ behind ∧ expandIfLine env behind = .ok line' ∧
      line = t :: (part ++ line') := by
  have hpart : linePart env t rest = .operand behind := by
    rw [linePart, if_neg (not_not.2 hkind), hoperand]
  obtain ⟨parse, -, part, rfl, -⟩ := unexpandedOperand_takes env hoperand
  rw [expandIfLine, if_neg (hkind ▸ by decide)] at h
  split at h
  case h_2 behind' heq =>
    rw [hpart] at heq
    cases heq
    obtain ⟨line', hbehind, hline⟩ := bind_eq_ok h
    refine ⟨part, line', rfl, hbehind, ?_⟩
    rw [← Except.ok.inj hline, List.length_append, Nat.add_right_comm, Nat.add_sub_cancel,
      List.take_succ_cons, List.take_left]
    rfl
  all_goals
    rename_i heq
    rw [hpart] at heq
    cases heq

theorem expandIfLine_malformed {t : PpToken} {rest : List PpToken} {e : PreprocessorError}
    (hkind : t.kind = .identifier) (hoperand : unexpandedOperand env t rest = some (.error e)) :
    expandIfLine env (t :: rest) = .ok (t :: rest) := by
  have hpart : linePart env t rest = .malformed := by
    rw [linePart, if_neg (not_not.2 hkind), hoperand]
  rw [expandIfLine, if_neg (hkind ▸ by decide)]
  split
  case h_3 => rfl
  all_goals
    rename_i heq
    rw [hpart] at heq
    cases heq

theorem expandIfLine_replace {t : PpToken} {rest behind line : List PpToken}
    {expansion : List Token} (hkind : t.kind = .identifier)
    (hoperand : unexpandedOperand env t rest = none)
    (hinv : invocation env t.text rest = some (.ok expansion, behind))
    (h : expandIfLine env (t :: rest) = .ok line) :
    ∃ line', expandIfLine env behind = .ok line' ∧ line = ifMacroLine expansion ++ line' := by
  have hpart : linePart env t rest = .replace (.ok expansion) behind := by
    rw [linePart, if_neg (not_not.2 hkind), hoperand]
    simp only [hinv]
  rw [expandIfLine, if_neg (hkind ▸ by decide)] at h
  split at h
  case h_4 expansion' behind' heq =>
    rw [hpart] at heq
    cases heq
    obtain ⟨line', hbehind, hline⟩ := bind_eq_ok (x := expandIfLine env behind) h
    exact ⟨line', hbehind, (Except.ok.inj hline).symm⟩
  all_goals
    rename_i heq
    rw [hpart] at heq
    cases heq

end Line

end OpticC.Preprocessor
