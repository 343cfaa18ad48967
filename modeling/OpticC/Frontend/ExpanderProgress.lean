import OpticC.Frontend.MacroExpander
import OpticC.Frontend.MacroTermination

/-! Which token lists `expand_macros` gets through. The arm of the identifiers leaves the index
where it is, and a call leaves it at its own `)`. -/

namespace OpticC.Expander.MacroExpander

variable (e : MacroExpander) (active : List (List Char))

section Loop

/-- One iteration at a token, the calls it makes of `expand_macros` included. -/
def Iterates (token : Token) (rest pushed after : List Token) : Prop :=
  ∃ fuel, e.iteration (e.expandMacros fuel) active token rest = some (pushed, after)

/-- The tokens from the index on, at the head of some iteration. -/
inductive Reaches (tokens : List Token) : List Token → Prop
  | start : Reaches tokens tokens
  | next {token : Token} {rest pushed after : List Token} (reached : Reaches tokens (token :: rest))
    (step : e.Iterates active token rest pushed after) : Reaches tokens after

/-- The name of a function-like macro and a `(`. -/
def IsCall (token next : Token) : Prop :=
  token.kind = .identifier ∧ e.tokenText next = some ['('] ∧
    (next.kind = .whitespace ∨ next.kind = .punctuator) ∧
    ∃ name params isVariadic replacement, e.tokenText token = some name ∧
      e.definitions name = some (.functionLike params isVariadic replacement)

/-- The tokens behind the `)` of a call that is open so many times. -/
def behindCall (depth : ℕ) : List Token → Option (List Token)
  | [] => none
  | token :: rest => do
    let text ← e.tokenText token
    if text = ['('] then behindCall (depth + 1) rest
    else if text = [')'] then if depth = 0 then some rest else behindCall (depth - 1) rest
    else behindCall depth rest

/-- Every iteration moves the index and the loop ends; a name that is no macro is pushed as it is,
and behind a call the loop goes on with what follows the call. -/
structure MakesProgress (tokens : List Token) : Prop where
  advances : ∀ token rest, e.Reaches active tokens (token :: rest) →
    ∃ pushed after, e.Iterates active token rest pushed after ∧ after.length ≤ rest.length
  returns : ∃ fuel expanded, e.expandMacros fuel active tokens = some expanded
  copied : ∀ token rest name, e.Reaches active tokens (token :: rest) → token.kind = .identifier →
    e.tokenText token = some name → e.definitions name = none →
    e.Iterates active token rest [token] rest
  resumes : ∀ token next inside, e.Reaches active tokens (token :: next :: inside) →
    e.IsCall token next →
    ∃ pushed after, e.behindCall 0 inside = some after ∧
      e.Iterates active token (next :: inside) pushed after

/-- A `#` makes a string of the identifier behind it. -/
def Stringifies (token : Token) (rest : List Token) : Prop :=
  token.kind = .hash ∧ ∃ next ∈ rest.head?, next.kind = .identifier

/-- The only identifiers are those that a `#` makes strings of, and their texts can be read. -/
inductive OnlyStringified : List Token → Prop
  | nil : OnlyStringified []
  | copied {token : Token} {rest : List Token} (kind : token.kind ≠ .identifier)
    (plain : ¬ Stringifies token rest) (more : OnlyStringified rest) : OnlyStringified (token :: rest)
  | string {token next : Token} {rest : List Token} {text : List Char} (hash : token.kind = .hash)
    (kind : next.kind = .identifier) (readable : e.tokenText next = some text)
    (more : OnlyStringified rest) : OnlyStringified (token :: next :: rest)

end Loop

variable {e active} {token : Token} {rest pushed after tokens : List Token}
  {expand : List (List Char) → List Token → Option (List Token)}

section Calls

/-- The call leaves the index at its `)`. -/
theorem collectArgs_behind {depth : ℕ} {current inside more : List Token} {args args' : List (List Token)}
    (h : e.collectArgs depth current args inside = some (args', after))
    (hmore : e.behindCall depth inside = some more) : ∃ paren, after = paren :: more := by
  induction inside generalizing depth current args with
  | nil => cases hmore
  | cons token rest ih =>
    simp only [collectArgs, behindCall] at h hmore
    cases htext : e.tokenText token with
    | none =>
      rw [htext] at h
      cases h
    | some text =>
      simp only [htext, Option.bind_eq_bind, Option.bind_some] at h hmore
      by_cases hopen : text = ['(']
      · rw [if_pos hopen] at h hmore
        exact ih h hmore
      · rw [if_neg hopen] at h hmore
        by_cases hclose : text = [')']
        · by_cases hdepth : depth = 0
          · rw [if_pos ⟨hclose, hdepth⟩] at h
            rw [if_pos hclose, if_pos hdepth] at hmore
            cases h
            cases hmore
            exact ⟨token, rfl⟩
          · rw [if_neg (fun hc => hdepth hc.2), if_neg (fun hc => hdepth hc.2), if_pos hclose] at h
            rw [if_pos hclose, if_neg hdepth] at hmore
            exact ih h hmore
        · rw [if_neg (fun hc => hclose hc.1), if_neg hclose] at h
          rw [if_neg hclose] at hmore
          split_ifs at h
          · exact ih h (by simp_all)
          · exact ih h hmore

theorem length_behindCall {depth : ℕ} {inside more : List Token}
    (h : e.behindCall depth inside = some more) : more.length < inside.length := by
  induction inside generalizing depth with
  | nil => cases h
  | cons token rest ih =>
    obtain ⟨text, -, h⟩ := Option.bind_eq_some_iff.1 h
    split_ifs at h
    · exact Nat.lt_succ_of_lt (ih h)
    · cases h
      exact Nat.lt_succ_self _
    · exact Nat.lt_succ_of_lt (ih h)
    · exact Nat.lt_succ_of_lt (ih h)

theorem expandFunctionMacro_some {name : List Char} {inside : List Token}
    (h : e.expandFunctionMacro expand active name inside = some (some (pushed, after))) :
    ∃ params isVariadic replacement args, e.definitions name = some (.functionLike params isVariadic replacement) ∧
      e.collectArgs 0 [] [] inside = some (args, after) := by
  unfold expandFunctionMacro at h
  split at h
  · rename_i params isVariadic replacement hdefinition
    simp only [Option.bind_eq_bind, Option.bind_eq_some_iff] at h
    obtain ⟨⟨args, rest⟩, hargs, h⟩ := h
    refine ⟨params, isVariadic, replacement, args, hdefinition, ?_⟩
    simp only at h
    split_ifs at h
    · cases h
    · obtain ⟨expanded, -, h⟩ := Option.bind_eq_some_iff.1 h
      cases h
      exact hargs
  · cases h

theorem invocation_some {name : List Char}
    (h : e.invocation expand active name rest = some (some (pushed, after))) :
    ∃ next inside, rest = next :: inside ∧ e.tokenText next = some ['('] ∧
      (next.kind = .whitespace ∨ next.kind = .punctuator) ∧
      e.expandFunctionMacro expand active name inside = some (some (pushed, after)) := by
  cases rest with
  | nil => cases h
  | cons next inside =>
    simp only [invocation] at h
    split_ifs at h with hkind
    · obtain ⟨text, htext, h⟩ := Option.bind_eq_some_iff.1 h
      split_ifs at h with hopen
      · exact ⟨next, inside, rfl, hopen.1 ▸ htext, hkind, h⟩
      · cases h
    · cases h

/-- An iteration at an identifier leaves the index where it is, or it is at a call. -/
theorem iteration_identifier (hkind : token.kind = .identifier)
    (h : e.iteration expand active token rest = some (pushed, after)) :
    after = token :: rest ∨ ∃ next inside args, rest = next :: inside ∧ e.IsCall token next ∧
      e.collectArgs 0 [] [] inside = some (args, after) := by
  simp only [iteration, hkind] at h
  obtain ⟨name, hname, h⟩ := Option.bind_eq_some_iff.1 h
  obtain ⟨call, hcall, h⟩ := Option.bind_eq_some_iff.1 h
  cases call with
  | some expanded =>
    cases h
    obtain ⟨next, inside, rfl, hopen, hnext, hexpand⟩ := invocation_some hcall
    obtain ⟨params, isVariadic, replacement, args, hdefinition, hargs⟩ := expandFunctionMacro_some hexpand
    exact .inr ⟨next, inside, args, rfl,
      ⟨hkind, hopen, hnext, name, params, isVariadic, replacement, hname, hdefinition⟩, hargs⟩
  | none =>
    left
    simp only at h
    split_ifs at h
    · obtain ⟨expanded, -, h⟩ := Option.bind_eq_some_iff.1 h
      cases h
      rfl
    · cases h
      rfl

/-- The loop comes to its end from an identifier only through a call. -/
theorem isCall_of_returns {fuel : ℕ} {expanded : List Token} (hkind : token.kind = .identifier)
    (h : e.expandMacros fuel active (token :: rest) = some expanded) :
    ∃ next inside, rest = next :: inside ∧ e.IsCall token next := by
  induction fuel generalizing expanded with
  | zero => cases h
  | succ fuel ih =>
    obtain ⟨⟨pushed, after⟩, hstep, h⟩ := Option.bind_eq_some_iff.1 h
    obtain ⟨expanded', hmore, -⟩ := Option.bind_eq_some_iff.1 h
    obtain hstay | ⟨next, inside, -, hrest, hcall, -⟩ := iteration_identifier hkind hstep
    · simp only [hstay] at hmore
      exact ih hmore
    · exact ⟨next, inside, hrest, hcall⟩

/-- No iteration at an identifier makes the progress that is asked for. -/
theorem MakesProgress.kind_ne (h : e.MakesProgress active (token :: rest)) : token.kind ≠ .identifier := by
  intro hkind
  obtain ⟨pushed, after, ⟨fuel, hstep⟩, hlength⟩ := h.advances token rest .start
  obtain rfl | ⟨next, inside, -, rfl, hcall, -⟩ := iteration_identifier hkind hstep
  · exact Nat.not_succ_le_self _ hlength
  · obtain ⟨pushed', more, hmore, fuel', hstep'⟩ := h.resumes token next inside .start hcall
    obtain rfl | ⟨next', inside', args, hrest, -, hargs⟩ := iteration_identifier hkind hstep'
    · have := length_behindCall hmore
      simp only [List.length_cons] at this
      omega
    · obtain ⟨-, rfl⟩ := List.cons.inj hrest
      obtain ⟨paren, hparen⟩ := collectArgs_behind hargs hmore
      exact absurd (congrArg List.length hparen) (by simp)

end Calls

section Copies

theorem iteration_copied (hkind : token.kind ≠ .identifier) (hplain : ¬ Stringifies token rest) :
    e.iteration expand active token rest = some ([token], rest) := by
  unfold iteration
  split
  · rename_i h
    exact absurd h hkind
  · rename_i hhash
    have hstring : e.handleStringification rest = some none := by
      cases rest with
      | nil => rfl
      | cons next rest =>
        have hnext : next.kind ≠ .identifier := fun h => hplain ⟨hhash, next, rfl, h⟩
        simp only [handleStringification, if_neg hnext]
    simp only [hstring, Option.bind_eq_bind, Option.bind_some, ite_self]
  · rfl

theorem iteration_string {next : Token} (hhash : token.kind = .hash) (hnext : next.kind = .identifier) :
    e.iteration expand active token (next :: rest) =
      (e.stringifyArgument next).map fun string => ([string], rest) := by
  have hpaste : isStringificationOrPaste (next :: rest) = false := by
    simp [isStringificationOrPaste, hnext]
  simp only [iteration, hhash, hpaste, handleStringification, hnext, if_true]
  cases e.stringifyArgument next <;> rfl

theorem exists_stringifyArgument {next : Token} {text : List Char} (h : e.tokenText next = some text) :
    ∃ string, e.stringifyArgument next = some string :=
  ⟨_, by rw [stringifyArgument, h]; rfl⟩

theorem tokenText_of_stringifyArgument {next string : Token} (h : e.stringifyArgument next = some string) :
    ∃ text, e.tokenText next = some text := by
  obtain ⟨text, htext, -⟩ := Option.bind_eq_some_iff.1 h
  exact ⟨text, htext⟩

end Copies

section Runs

theorem Reaches.trans (h : e.Reaches active tokens rest) (h' : e.Reaches active rest after) :
    e.Reaches active tokens after := by
  induction h' with
  | start => exact h
  | next _ step ih => exact .next ih step

/-- What holds of the loop holds of the rest of it. -/
theorem MakesProgress.next (h : e.MakesProgress active (token :: rest))
    (hstep : ∀ expand, e.iteration expand active token rest = some (pushed, after)) :
    e.MakesProgress active after := by
  have hreach : e.Reaches active (token :: rest) after := .next .start ⟨0, hstep _⟩
  refine ⟨fun t r ht => h.advances t r (hreach.trans ht), ?_,
    fun t r name ht => h.copied t r name (hreach.trans ht),
    fun t n r ht => h.resumes t n r (hreach.trans ht)⟩
  obtain ⟨fuel, expanded, hreturns⟩ := h.returns
  cases fuel with
  | zero => cases hreturns
  | succ fuel =>
    simp only [expandMacros, hstep, Option.bind_eq_bind, Option.bind_some] at hreturns
    obtain ⟨expanded', hmore, -⟩ := Option.bind_eq_some_iff.1 hreturns
    exact ⟨fuel, expanded', hmore⟩

theorem onlyStringified_of_makesProgress (h : e.MakesProgress active tokens) : e.OnlyStringified tokens := by
  induction hn : tokens.length using Nat.strongRecOn generalizing tokens with
  | ind n ih =>
    cases tokens with
    | nil => exact .nil
    | cons token rest =>
      have hkind := h.kind_ne
      by_cases hplain : Stringifies token rest
      · obtain ⟨hhash, next, hmem, hnext⟩ := hplain
        obtain ⟨rest, rfl⟩ := List.head?_eq_some_iff.1 hmem
        obtain ⟨pushed, after, ⟨fuel, hstep⟩, -⟩ := h.advances _ _ .start
        rw [iteration_string hhash hnext] at hstep
        obtain ⟨string, hstring, -⟩ := Option.map_eq_some_iff.1 hstep
        obtain ⟨text, htext⟩ := tokenText_of_stringifyArgument hstring
        have hpushed : ∀ expand, e.iteration expand active token (next :: rest) = some ([string], rest) := by
          intro expand
          rw [iteration_string hhash hnext, hstring]
          rfl
        exact .string hhash hnext htext
          (ih _ (hn ▸ Nat.lt_succ_of_lt (Nat.lt_succ_self _)) (h.next hpushed) rfl)
      · exact .copied hkind hplain (ih _ (hn ▸ Nat.lt_succ_self _)
          (h.next fun expand => iteration_copied hkind hplain) rfl)

/-- The step of such a list: the index moves, and what is left is such a list. -/
theorem OnlyStringified.step (active : List (List Char)) (h : e.OnlyStringified (token :: rest)) :
    token.kind ≠ .identifier ∧ ∃ pushed after, (∀ expand, e.iteration expand active token rest =
      some (pushed, after)) ∧ after.length ≤ rest.length ∧ e.OnlyStringified after := by
  cases h with
  | copied kind plain more =>
    exact ⟨kind, _, rest, fun _ => iteration_copied kind plain, Nat.le_refl _, more⟩
  | @string _ next rest text hash kind readable more =>
    obtain ⟨string, hstring⟩ := exists_stringifyArgument readable
    refine ⟨fun h => ?_, [string], rest, fun _ => ?_, Nat.le_succ _, more⟩
    · rw [hash] at h
      cases h
    · rw [iteration_string hash kind, hstring]
      rfl

theorem OnlyStringified.reached (h : e.OnlyStringified tokens) (hreach : e.Reaches active tokens rest) :
    e.OnlyStringified rest := by
  induction hreach with
  | start => exact h
  | next _ step ih =>
    obtain ⟨-, pushed, after, hstep, -, hmore⟩ := ih.step active
    obtain ⟨fuel, hfuel⟩ := step
    cases hfuel.symm.trans (hstep _)
    exact hmore

theorem OnlyStringified.returns (h : e.OnlyStringified tokens) :
    ∃ fuel expanded, e.expandMacros fuel active tokens = some expanded := by
  induction h with
  | nil => exact ⟨1, [], rfl⟩
  | @copied token rest kind plain more ih =>
    obtain ⟨fuel, expanded, hreturns⟩ := ih
    refine ⟨fuel + 1, [token] ++ expanded, ?_⟩
    simp only [expandMacros, iteration_copied kind plain, hreturns, Option.bind_eq_bind, Option.bind_some]
  | @string token next rest text hash kind readable more ih =>
    obtain ⟨fuel, expanded, hreturns⟩ := ih
    obtain ⟨string, hstring⟩ := exists_stringifyArgument readable
    refine ⟨fuel + 1, [string] ++ expanded, ?_⟩
    simp only [expandMacros, iteration_string hash kind, hstring, hreturns, Option.map_some,
      Option.bind_eq_bind, Option.bind_some]

end Runs

/-- The loop gets through a list exactly when each identifier in it stands behind a `#` that makes a
string of it. -/
theorem makesProgress_iff (e : MacroExpander) (active : List (List Char)) (tokens : List Token) :
    e.MakesProgress active tokens ↔ e.OnlyStringified tokens := by
  refine ⟨onlyStringified_of_makesProgress, fun h => ⟨fun token rest hreach => ?_, h.returns,
    fun token rest name hreach hkind => ?_, fun token next inside hreach hcall => ?_⟩⟩
  · obtain ⟨-, pushed, after, hstep, hlength, -⟩ := (h.reached hreach).step active
    exact ⟨pushed, after, ⟨0, hstep _⟩, hlength⟩
  · exact absurd hkind ((h.reached hreach).step active).1
  · exact absurd hcall.1 ((h.reached hreach).step active).1

section Identifier

/-- The source `x`, without any macro. -/
def identifierOnly : MacroExpander := ⟨Preprocessor.ascii, fun _ => none, ['x']⟩

/-- The identifier is pushed again and again. -/
theorem not_makesProgress_identifier :
    (∀ fuel, identifierOnly.expandMacros fuel [] [⟨.identifier, 0, 1, 1, 1⟩] = none) ∧
      ¬ identifierOnly.MakesProgress [] [⟨.identifier, 0, 1, 1, 1⟩] := by
  have hnone : ∀ fuel, identifierOnly.expandMacros fuel [] [⟨.identifier, 0, 1, 1, 1⟩] = none := by
    intro fuel
    rw [Option.eq_none_iff_forall_not_mem]
    intro expanded h
    obtain ⟨next, inside, hrest, -⟩ := isCall_of_returns rfl h
    cases hrest
  refine ⟨hnone, fun h => ?_⟩
  obtain ⟨fuel, expanded, hreturns⟩ := h.returns
  rw [hnone fuel] at hreturns
  cases hreturns

end Identifier

end OpticC.Expander.MacroExpander
