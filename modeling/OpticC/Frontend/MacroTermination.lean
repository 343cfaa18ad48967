import OpticC.Frontend.Macro
import OpticC.Lib.CallTree

/-! When macro expansion reaches a result. A name on the stack is not expanded again,
but a function-like macro leaves the stack before its expansion is scanned, so that it
can be called again in there. -/

namespace OpticC.Preprocessor

open CallTree

/-- A token list and the stack it is scanned under. -/
structure Scan where
  tokens : List Token
  expanding : List String

section Termination

variable (chars : CharClasses) (table : MacroTable)

/-- The scans a scan starts, each with the macro it is for; `true` is a call of a
function-like one. -/
def Scan.calls (s : Scan) : List ((Bool × String) × Scan) :=
  (outputs chars table s.expanding s.tokens).filterMap fun
    | .scan functionLike name tokens expanding => some ((functionLike, name), ⟨tokens, expanding⟩)
    | _ => none

/-- No call in the scan itself lacks the argument of a parameter it makes a string of. -/
def Scan.ArgumentsSuffice (s : Scan) : Prop :=
  ∀ e, Output.fault e ∉ outputs chars table s.expanding s.tokens

/-- A chain of scans, each started by the one before it. -/
abbrev Nested : Scan → List (Bool × String) → Scan → Prop := Path (Scan.calls chars table)

def ReachesResult (tokens : List Token) : Prop :=
  ∃ fuel r, expandMacroTokens chars table fuel tokens = .ok r

def names : List String := table.map Prod.fst

/-- The names that the stack does not block. -/
def Scan.free (s : Scan) : ℕ := ((names table).filter fun n => !s.expanding.contains n).length

variable {chars table}

/-- What a scan that a token starts is for, and under which stack. -/
theorem scanToken_scan {expanding expanding' : List String} {t : Token} {rest tokens : List Token}
    {functionLike : Bool} {name : String}
    (h : (scanToken chars table expanding t rest).1 = .scan functionLike name tokens expanding') :
    name ∈ names table ∧ (functionLike = true ∨
      expanding.contains name = false ∧ expanding' = expanding ++ [name]) := by
  unfold scanToken at h
  split_ifs at h with h1 h2 h3 h4
  cases hd : table.lookup t.text with
  | none =>
    rw [hd] at h
    cases h
  | some d =>
    have hname : t.text ∈ names table := by
      obtain ⟨l, k, rfl, -⟩ := List.lookup_eq_some_iff.1 hd
      simp [names]
    rw [hd] at h
    cases d with
    | objectLike replacement =>
      cases h
      exact ⟨hname, .inr ⟨by simpa using h4, rfl⟩⟩
    | functionLike params isVariadic variadicParam replacement =>
      simp only at h
      cases hdrop : rest.dropWhile Token.isWhitespace with
      | nil =>
        rw [hdrop] at h
        cases h
      | cons paren inside =>
        rw [hdrop] at h
        simp only at h
        split_ifs at h
        cases hexp : expandFunctionMacroTokens chars params isVariadic variadicParam
            (collectArgs params.length isVariadic inside [] [] 0).1 replacement [] with
        | ok expanded =>
          rw [hexp] at h
          cases h
          exact ⟨hname, .inl rfl⟩
        | error e =>
          rw [hexp] at h
          cases h

theorem mem_outputs {expanding : List String} {tokens : List Token} {o : Output}
    (h : o ∈ outputs chars table expanding tokens) :
    ∃ t rest, o = (scanToken chars table expanding t rest).1 := by
  fun_induction outputs chars table expanding tokens with
  | case1 => cases h
  | case2 t rest ih =>
    rcases List.mem_cons.1 h with rfl | h
    · exact ⟨t, rest, rfl⟩
    · exact ih h

theorem free_le (s : Scan) : s.free table ≤ (names table).length := List.length_filter_le _ _

/-- An object-like macro's name is blocked in the scan of its replacement. -/
theorem free_lt {s : Scan} {name : String} {tokens : List Token} (hname : name ∈ names table)
    (hfree : s.expanding.contains name = false) :
    (⟨tokens, s.expanding ++ [name]⟩ : Scan).free table < s.free table := by
  have hmem : name ∈ (names table).filter fun n => !s.expanding.contains n :=
    List.mem_filter.2 ⟨hname, by rw [hfree]; rfl⟩
  have hsplit : ((names table).filter fun n => !(s.expanding ++ [name]).contains n) =
      ((names table).filter fun n => !s.expanding.contains n).filter fun n => !n == name := by
    rw [List.filter_filter]
    apply List.filter_congr
    intro n _
    by_cases hn : n = name <;> simp [hn]
  unfold Scan.free
  rw [hsplit, List.length_filter_lt_length_iff_exists]
  exact ⟨name, hmem, by simp⟩

theorem calls_decrease (s : Scan) (c : (Bool × String) × Scan) (hc : c ∈ s.calls chars table) :
    c.1 ∈ (names table).map (Prod.mk true) ∨ c.2.free table < s.free table := by
  obtain ⟨o, ho, heq⟩ := List.mem_filterMap.1 hc
  obtain ⟨t, rest, rfl⟩ := mem_outputs ho
  split at heq
  · rename_i functionLike name tokens expanding hscan
    obtain ⟨hname, rfl | ⟨hfree, rfl⟩⟩ := scanToken_scan hscan
    · cases heq
      exact .inl (List.mem_map.2 ⟨name, hname, rfl⟩)
    · cases heq
      exact .inr (free_lt hname hfree)
  · cases heq

theorem mapM_isOk_iff {α β ε : Type} (f : α → Except ε β) (l : List α) :
    (∃ r, l.mapM f = .ok r) ↔ ∀ x ∈ l, ∃ r, f x = .ok r := by
  induction l with
  | nil => simp [pure, Except.pure]
  | cons x l ih =>
    rw [List.mapM_cons, List.forall_mem_cons, ← ih]
    cases f x with
    | error e => simp [bind, Except.bind]
    | ok y =>
      cases l.mapM f with
      | error e => simp [bind, Except.bind]
      | ok ys => simp [bind, Except.bind, pure, Except.pure]

/-- A scan reaches a result when its calls have their arguments and the scans it starts
reach theirs. -/
theorem expand_succ_isOk_iff (fuel : ℕ) (s : Scan) :
    (∃ r, expandMacroTokensWithStack chars table (fuel + 1) s.tokens s.expanding = .ok r) ↔
      s.ArgumentsSuffice chars table ∧ ∀ c ∈ s.calls chars table,
        ∃ r, expandMacroTokensWithStack chars table fuel c.2.tokens c.2.expanding = .ok r := by
  have hbind : ∀ x : Except Fault (List (List Token)),
      (∃ r, (x >>= fun parts => pure parts.flatten) = .ok r) ↔ ∃ r, x = .ok r := by
    intro x
    cases x <;> simp [bind, Except.bind, pure, Except.pure]
  rw [expandMacroTokensWithStack, hbind, mapM_isOk_iff]
  constructor
  · intro h
    refine ⟨fun e he => ?_, fun c hc => ?_⟩
    · obtain ⟨r, hr⟩ := h _ he
      cases hr
    · obtain ⟨o, ho, heq⟩ := List.mem_filterMap.1 hc
      have hr := h o ho
      split at heq
      · cases heq
        exact hr
      · cases heq
  · rintro ⟨hargs, hcalls⟩ o ho
    cases o with
    | push t => exact ⟨_, rfl⟩
    | scan functionLike name tokens expanding =>
      exact hcalls ((functionLike, name), ⟨tokens, expanding⟩)
        (List.mem_filterMap.2 ⟨_, ho, rfl⟩)
    | fault e => exact absurd ho (hargs e)

end Termination

section SelfCall

def ascii : CharClasses := ⟨Char.isAlpha, Char.isDigit⟩

/-- `#define F(x) F(x)` behind the directive name. -/
def selfCallDefinition : List PpToken :=
  [⟨.whitespace, " ", 1, 8⟩, ⟨.identifier, "F", 1, 9⟩, ⟨.punctuator, "(", 1, 10⟩,
    ⟨.identifier, "x", 1, 11⟩, ⟨.punctuator, ")", 1, 12⟩, ⟨.whitespace, " ", 1, 13⟩,
    ⟨.identifier, "F", 1, 14⟩, ⟨.punctuator, "(", 1, 15⟩, ⟨.identifier, "x", 1, 16⟩,
    ⟨.punctuator, ")", 1, 17⟩, ⟨.newline, "\n", 1, 18⟩]

def selfCallTable : MacroTable :=
  [("F", .functionLike ["x"] false none
    [⟨.identifier, "F", 1, 14, "a.c"⟩, ⟨.punctuator, "(", 1, 15, "a.c"⟩,
      ⟨.identifier, "x", 1, 16, "a.c"⟩, ⟨.punctuator, ")", 1, 17, "a.c"⟩])]

theorem parseMacroParams_close {file : String} {tokens rest : List PpToken} {t : PpToken}
    (params : List String) (h : skipWhitespace tokens = t :: rest) (ht : t.text = ")") :
    parseMacroParams file tokens params = .ok (params, false, none, rest) := by
  rw [parseMacroParams]
  split
  · simp_all
  · rename_i heq
    rw [h] at heq
    cases heq
    rw [if_pos ht]

/-- A parameter that is not followed by a comma. -/
theorem parseMacroParams_name {file : String} {tokens rest more : List PpToken} {t next : PpToken}
    (params : List String) (h : skipWhitespace tokens = t :: rest) (hk : t.kind = .identifier)
    (h1 : t.text ≠ ")") (h2 : t.text ≠ "...") (hrest : skipWhitespace rest = next :: more)
    (h3 : next.text ≠ "...") (h4 : next.text ≠ ",") :
    parseMacroParams file tokens params =
      parseMacroParams file (next :: more) (params ++ [t.text]) := by
  rw [parseMacroParams]
  split
  · simp_all
  · rename_i heq
    rw [h] at heq
    cases heq
    rw [if_neg h1, if_neg h2, if_pos hk]
    split
    · simp_all
    · rename_i heq
      rw [hrest] at heq
      cases heq
      rw [if_neg h3, if_neg h4]

theorem processDefine_selfCall :
    processDefine [] selfCallDefinition "a.c" = .ok (selfCallTable, []) := by
  have hparams : parseMacroParams "a.c" (selfCallDefinition.drop 3) [] =
      .ok (["x"], false, none, selfCallDefinition.drop 5) :=
    (parseMacroParams_name [] rfl rfl (by decide) (by decide) rfl (by decide) (by decide)).trans
      (parseMacroParams_close _ rfl rfl)
  show ((parseMacroParams "a.c" (selfCallDefinition.drop 3) []).bind _) = _
  rw [hparams]
  rfl

/-- `F(1)` with the positions of the given line for all but the argument. -/
def selfCall (line column : ℕ) : Scan :=
  ⟨[⟨.identifier, "F", line, column, "a.c"⟩, ⟨.punctuator, "(", line, column + 1, "a.c"⟩,
    ⟨.intLiteral, "1", 2, 3, "a.c"⟩, ⟨.punctuator, ")", line, column + 3, "a.c"⟩], []⟩

theorem selfCall_calls (line column : ℕ) :
    ((true, "F"), selfCall 1 14) ∈ (selfCall line column).calls ascii selfCallTable := by
  refine List.mem_filterMap.2 ⟨.scan true "F" (selfCall 1 14).tokens [], ?_, rfl⟩
  rw [selfCall, outputs]
  exact List.mem_cons_self

end SelfCall

end OpticC.Preprocessor
