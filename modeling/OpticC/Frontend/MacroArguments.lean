import OpticC.Frontend.MacroTermination

/-! Arguments of function-like macros. C replaces a parameter that no `#` or `##` touches
by the complete expansion of its argument; the preprocessor puts the argument in as it is. -/

namespace OpticC.Preprocessor

section Standard

/-! The expansion that C prescribes. Each token carries the names that it may not be
expanded as. -/

abbrev Marked := Token × List String

def Token.spelling (t : Token) : TokenKind × String := (t.kind, t.text)

/-- The macro a token names; `__LINE__` and `__FILE__` are object-like. -/
def macroOf (table : MacroTable) (t : Token) : Option MacroDefinition :=
  if t.kind ≠ .identifier then none
  else if t.text = "__LINE__" then
    some (.objectLike [⟨.intLiteral, toString t.line, t.line, t.column, t.file⟩])
  else if t.text = "__FILE__" then
    some (.objectLike [⟨.stringLiteral, "\"" ++ t.file ++ "\"", t.line, t.column, t.file⟩])
  else table.lookup t.text

/-- The argument that a token of the replacement stands for, the variable ones together. -/
def argument {α : Type} (params : List String) (isVariadic : Bool) (variadicParam : Option String)
    (args : List (List α)) (comma : α) (t : Token) : Option (List α) :=
  if t.kind ≠ .identifier then none
  else if isVariadic ∧ isVariadicParam t variadicParam then
    some ([comma].intercalate (args.drop params.length))
  else (params.idxOf? t.text).bind fun i => args[i]?

/-- The arguments behind the opening parenthesis, the closing one and what follows. -/
def splitArgs : List Marked → List Marked → ℕ → Option (List (List Marked) × Marked × List Marked)
  | [], _, _ => none
  | m :: rest, current, depth =>
    if m.1.text = "(" then splitArgs rest (current ++ [m]) (depth + 1)
    else if m.1.text = ")" then
      if depth = 0 then some ([current], m, rest) else splitArgs rest (current ++ [m]) (depth - 1)
    else if m.1.text = "," ∧ depth = 0 then
      (splitArgs rest [] 0).map fun (args, close, rest) => (current :: args, close, rest)
    else splitArgs rest (current ++ [m]) depth

/-- White space next to `##` or behind `#` means nothing. -/
def joinOperators : List Token → List Token
  | [] => []
  | t :: rest =>
    let rest := joinOperators rest
    if t.text = "#" ∨ t.text = "##" then t :: rest.dropWhile Token.isWhitespace
    else if t.isWhitespace ∧ rest.head?.any (fun n => n.text == "##") then rest
    else t :: rest

/-- The characters of `# x`: white space between tokens becomes one blank. -/
def spellLoop : List Token → List Char
  | [] => []
  | t :: rest =>
    let here :=
      if t.isWhitespace then if rest.head?.any (fun n => !n.isWhitespace) then [' '] else []
      else if t.kind = .stringLiteral ∨ t.kind = .charLiteral then
        t.text.toList.flatMap fun c => if c = '"' ∨ c = '\\' then ['\\', c] else [c]
      else t.text.toList
    here ++ spellLoop rest

def cStringify (tokens : List Token) : String :=
  String.ofList (['"'] ++ spellLoop (tokens.dropWhile Token.isWhitespace) ++ ['"'])

/-- An operand of `##`; an empty one is a placemarker, a token without text. -/
def pasteOperand (raw : Token → Option (List Marked)) (t : Token) : List Marked :=
  match raw t with
  | some [] => [(⟨.punctuator, "", t.line, t.column, t.file⟩, [])]
  | some arg => arg
  | none => [(t, [])]

def glue (chars : CharClasses) (left right : List Marked) : List Marked :=
  match left.getLast?, right with
  | some l, r :: more =>
    left.dropLast ++ (pasteTokens chars l.1 r.1, l.2.filter r.2.contains) :: more
  | _, _ => left ++ right

/-- The replacement with `raw` arguments next to the operators and `full` ones elsewhere. -/
def cSubstitute (chars : CharClasses) (raw full : Token → Option (List Marked)) :
    List Token → List Marked → List Marked
  | [], result => result
  | [t], result => result ++ (full t).getD [(t, [])]
  | t :: next :: rest, result =>
    if t.text = "##" then cSubstitute chars raw full rest (glue chars result (pasteOperand raw next))
    else match (if t.text = "#" then raw next else none) with
      | some arg =>
        cSubstitute chars raw full rest (result ++
          [(⟨.stringLiteral, cStringify (arg.map Prod.fst), next.line, next.column, next.file⟩, [])])
      | none =>
        cSubstitute chars raw full (next :: rest) (result ++
          if next.text = "##" then pasteOperand raw t else (full t).getD [(t, [])])

/-- Complete macro expansion of a token list. -/
inductive Expands (chars : CharClasses) (table : MacroTable) : List Marked → List Marked → Prop
  | nil : Expands chars table [] []
  | keep {m : Marked} {rest out : List Marked} :
      macroOf table m.1 = none ∨ m.1.text ∈ m.2 → Expands chars table rest out →
      Expands chars table (m :: rest) (m :: out)
  | objectLike {t : Token} {hidden : List String} {replacement : List Token}
      {rest out : List Marked} :
      macroOf table t = some (.objectLike replacement) → t.text ∉ hidden →
      Expands chars table (replacement.map (·, hidden ++ [t.text]) ++ rest) out →
      Expands chars table ((t, hidden) :: rest) out
  | name {t : Token} {hidden : List String} {params : List String} {isVariadic : Bool}
      {variadicParam : Option String} {replacement : List Token} {rest out : List Marked} :
      macroOf table t = some (.functionLike params isVariadic variadicParam replacement) →
      ((rest.dropWhile fun m => m.1.isWhitespace).head?.map fun m => m.1.text) ≠ some "(" →
      Expands chars table rest out →
      Expands chars table ((t, hidden) :: rest) ((t, hidden) :: out)
  | call {t : Token} {hidden : List String} {params : List String} {isVariadic : Bool}
      {variadicParam : Option String} {replacement : List Token} {rest inside out : List Marked}
      {paren close : Marked} {args full : List (List Marked)} {behind : List Marked} :
      macroOf table t = some (.functionLike params isVariadic variadicParam replacement) →
      t.text ∉ hidden → (rest.dropWhile fun m => m.1.isWhitespace) = paren :: inside →
      paren.1.text = "(" → splitArgs inside [] 0 = some (args, close, behind) →
      full.length = args.length →
      (∀ i, Expands chars table (args.getD i []) (full.getD i [])) →
      Expands chars table
        (((cSubstitute chars
          (argument params isVariadic variadicParam args (⟨.punctuator, ",", 0, 0, ""⟩, []))
          (argument params isVariadic variadicParam full (⟨.punctuator, ",", 0, 0, ""⟩, []))
          (joinOperators replacement) []).filter fun m => m.1.text != "").map
            (fun m => (m.1, m.2 ++ hidden.filter close.2.contains ++ [t.text])) ++ behind) out →
      Expands chars table ((t, hidden) :: rest) out

/-- `full` is spelled like the complete expansion of `arg` where the names in `hidden` are
being expanded. -/
def CompleteExpansion (chars : CharClasses) (table : MacroTable) (hidden : List String)
    (arg full : List Token) : Prop :=
  ∃ out, Expands chars table (arg.map (·, hidden)) out ∧
    out.map (fun m => m.1.spelling) = full.map Token.spelling

end Standard

section Substitution

variable (chars : CharClasses) (params : List String) (isVariadic : Bool)
  (variadicParam : Option String) (args : List (List Token))

/-- One round of the loop of `expand_function_macro_tokens` on `t`, with `rest` behind it:
where the loop goes on, and `result`. -/
def substituteRound (t : Token) (rest result : List Token) :
    Except Fault (List Token × List Token) :=
  match rest with
  | [] => .ok ([], if t.text = "##" then result
      else result ++ substituteToken t params isVariadic variadicParam args)
  | next :: behind =>
    if t.text = "##" then
      match result.getLast? with
      | some left =>
        match getParamReplacement next params isVariadic variadicParam args with
        | right :: more => .ok (behind, result.dropLast ++ [pasteTokens chars left right] ++ more)
        | [] => .ok (behind, result.dropLast)
      | none => .ok (rest, result)
    else
      match (if t.text = "#" then stringifyParam next params isVariadic variadicParam args
        else none) with
      | some text => do
        let text ← text
        return (behind, result ++ [⟨.stringLiteral, text, next.line, next.column, next.file⟩])
      | none => .ok (rest, result ++ substituteToken t params isVariadic variadicParam args)

/-- The loop is its rounds. -/
theorem expandFunctionMacroTokens_cons (t : Token) (rest result : List Token) :
    expandFunctionMacroTokens chars params isVariadic variadicParam args (t :: rest) result =
      (substituteRound chars params isVariadic variadicParam args t rest result).bind
        fun p => expandFunctionMacroTokens chars params isVariadic variadicParam args p.1 p.2 := by
  cases rest with
  | nil =>
    unfold expandFunctionMacroTokens substituteRound
    split <;> simp [Except.bind]
  | cons next behind =>
    rw [expandFunctionMacroTokens, substituteRound]
    split
    · cases result.getLast? with
      | none => rfl
      | some left =>
        cases getParamReplacement next params isVariadic variadicParam args <;> rfl
    · cases (if t.text = "#" then stringifyParam next params isVariadic variadicParam args
        else none) with
      | none => rfl
      | some text => cases text <;> rfl

/-- `t` stands in the replacement, is no operator, and is not an operand of one. -/
structure Ordinary (replacement before : List Token) (t : Token) (behind : List Token) :
    Prop where
  split : replacement = before ++ t :: behind
  notOperator : t.text ≠ "#" ∧ t.text ≠ "##"
  left : ∀ o ∈ (before.reverse.dropWhile Token.isWhitespace).head?, o.text ≠ "#" ∧ o.text ≠ "##"
  right : ∀ o ∈ (behind.dropWhile Token.isWhitespace).head?, o.text ≠ "##"

/-- The comma between variable arguments, where the token `t` stands for them. -/
def comma (t : Token) : Token := ⟨.punctuator, ",", t.line, t.column, t.file⟩

/-- Wherever the loop comes to a parameter that is no operand, it puts the complete
expansion of the argument in. -/
def PreExpanded (table : MacroTable) (hidden : List String) (replacement : List Token) : Prop :=
  ∀ before t behind, Ordinary replacement before t behind →
    ∀ arg, argument params isVariadic variadicParam args (comma t) t = some arg →
      ∀ result, ∃ full, CompleteExpansion chars table hidden arg full ∧
        substituteRound chars params isVariadic variadicParam args t behind result =
          .ok (behind, result ++ full)

variable {chars params isVariadic variadicParam args}

theorem substituteToken_argument {t : Token} {arg : List Token}
    (h : argument params isVariadic variadicParam args (comma t) t = some arg) :
    substituteToken t params isVariadic variadicParam args = arg := by
  unfold argument at h
  unfold substituteToken
  split_ifs at h with hk hv
  · rw [if_pos (not_not.1 hk), if_pos hv]
    exact Option.some.inj h
  · rw [if_pos (not_not.1 hk), if_neg hv]
    cases hi : params.idxOf? t.text with
    | none =>
      rw [hi] at h
      cases h
    | some i =>
      rw [hi, Option.bind_some] at h
      simp only [List.getD_eq_getElem?_getD, h, Option.getD_some]

/-- What the loop does at a token that is no operator. -/
theorem substituteRound_eq {t : Token} (h : t.text ≠ "#" ∧ t.text ≠ "##")
    (behind result : List Token) :
    substituteRound chars params isVariadic variadicParam args t behind result =
      .ok (behind, result ++ substituteToken t params isVariadic variadicParam args) := by
  cases behind with
  | nil => simp [substituteRound, h.2]
  | cons next rest => simp [substituteRound, h.1, h.2]

/-- A round goes on right behind its token, unless the token is an operator. -/
theorem substituteRound_fst {t : Token} {rest result : List Token} {p : List Token × List Token}
    (h : substituteRound chars params isVariadic variadicParam args t rest result = .ok p) :
    p.1 = rest ∨ p.1 = rest.tail ∧ (t.text = "#" ∨ t.text = "##") := by
  by_cases ht : t.text = "#" ∨ t.text = "##"
  · cases rest with
    | nil =>
      cases h
      exact .inl rfl
    | cons next behind =>
      rw [substituteRound] at h
      split at h
      · split at h
        · split at h <;> cases h <;> exact .inr ⟨rfl, ht⟩
        · cases h
          exact .inl rfl
      · split at h
        · rename_i text _
          cases text with
          | error e => cases h
          | ok text =>
            cases h
            exact .inr ⟨rfl, ht⟩
        · cases h
          exact .inl rfl
  · rw [substituteRound_eq (not_or.1 ht)] at h
    cases h
    exact .inl rfl

/-- The loop comes to every token that no operator stands in front of. -/
theorem expandFunctionMacroTokens_reaches (t : Token) (behind : List Token) :
    ∀ (before result : List Token), (∀ o ∈ before.getLast?, o.text ≠ "#" ∧ o.text ≠ "##") →
      (∃ e, expandFunctionMacroTokens chars params isVariadic variadicParam args
        (before ++ t :: behind) result = .error e) ∨
      ∃ result', expandFunctionMacroTokens chars params isVariadic variadicParam args
        (before ++ t :: behind) result =
          expandFunctionMacroTokens chars params isVariadic variadicParam args (t :: behind)
            result' := by
  intro before
  induction hlen : before.length using Nat.strongRecOn generalizing before with
  | _ n ih =>
    intro result hlast
    cases before with
    | nil => exact .inr ⟨result, rfl⟩
    | cons o before =>
      rw [List.cons_append, expandFunctionMacroTokens_cons]
      cases hround : substituteRound chars params isVariadic variadicParam args o
          (before ++ t :: behind) result with
      | error e => exact .inl ⟨e, rfl⟩
      | ok p =>
        obtain ⟨rest, result'⟩ := p
        simp only [Except.bind]
        rcases substituteRound_fst hround with hrest | ⟨hrest, ho⟩
        · rw [show rest = before ++ t :: behind from hrest]
          refine ih before.length (by simp [← hlen]) before rfl result' fun o' ho' => hlast o' ?_
          rw [List.getLast?_cons, Option.mem_def.1 ho']
          rfl
        · cases before with
          | nil =>
            -- the operator would be the last token in front of `t`
            have hop := hlast o rfl
            exact absurd ho (not_or.2 hop)
          | cons o' before =>
            rw [show rest = before ++ t :: behind from hrest]
            have hshort : before.length < n := by
              rw [← hlen, List.length_cons, List.length_cons]
              omega
            refine ih before.length hshort before rfl result'
              fun o'' ho'' => hlast o'' ?_
            rw [List.getLast?_cons, List.getLast?_cons, Option.mem_def.1 ho'']
            rfl

/-- An argument in which nothing can be expanded. -/
theorem completeExpansion_self (chars : CharClasses) (table : MacroTable) (hidden : List String)
    (arg : List Token) (h : ∀ t ∈ arg, macroOf table t = none ∨ t.text ∈ hidden) :
    CompleteExpansion chars table hidden arg arg := by
  refine ⟨arg.map (·, hidden), ?_, by simp⟩
  induction arg with
  | nil => exact .nil
  | cons t arg ih =>
    rw [List.forall_mem_cons] at h
    exact .keep h.1 (ih h.2)

end Substitution

section Idiom

/-- A token of the file `a.c` in line 1. -/
def tokenOf (kind : TokenKind) (text : String) : Token := ⟨kind, text, 1, 1, "a.c"⟩

def punct (text : String) : Token := tokenOf .punctuator text
def ident (text : String) : Token := tokenOf .identifier text

/-- `#define STR(x) #x`, `#define XSTR(x) STR(x)` and an object-like macro in front of them. -/
def stringTable (name : String) (body : List Token) : MacroTable :=
  [(name, .objectLike body),
    ("XSTR", .functionLike ["x"] false none [ident "STR", punct "(", ident "x", punct ")"]),
    ("STR", .functionLike ["x"] false none [punct "#", ident "x"])]

theorem outputs_ident_call {table : MacroTable} {f name : String} {replacement expanded : List Token}
    (hf : f ∉ ["__LINE__", "__FILE__"]) (hname : name ∉ ["(", ")", ","])
    (hlookup : table.lookup f = some (.functionLike ["x"] false none replacement))
    (hexpand : expandFunctionMacroTokens ascii ["x"] false none [[ident name]] replacement [] =
      .ok expanded) :
    outputs ascii table [] [ident f, punct "(", ident name, punct ")"] =
      [.scan true f expanded []] := by
  simp only [List.mem_cons, List.not_mem_nil, or_false, not_or] at hf hname
  have hargs : collectArgs 1 false [ident name, punct ")"] [] [] 0 = ([[ident name]], []) := by
    simp [collectArgs, ident, punct, tokenOf, hname.1, hname.2.1, hname.2.2]
  have hscan : scanToken ascii table [] (ident f) [punct "(", ident name, punct ")"] =
      (.scan true f expanded [], []) := by
    have hblank : [punct "(", ident name, punct ")"].dropWhile Token.isWhitespace =
        punct "(" :: [ident name, punct ")"] := rfl
    unfold scanToken
    rw [if_neg (by simp [ident, tokenOf]), if_neg (show (ident f).text ≠ "__LINE__" from hf.1),
      if_neg (show (ident f).text ≠ "__FILE__" from hf.2), if_neg (by simp),
      show table.lookup (ident f).text = _ from hlookup]
    simp only [hblank, List.length_singleton, hargs, hexpand]
    rfl
  rw [outputs, hscan, outputs]

/-- A scan that only starts another one. -/
theorem expand_of_outputs {table : MacroTable} {tokens inner : List Token} {name : String}
    (fuel : ℕ) (h : outputs ascii table [] tokens = [.scan true name inner []]) :
    expandMacroTokensWithStack ascii table (fuel + 1) tokens [] =
      expandMacroTokensWithStack ascii table fuel inner [] := by
  rw [expandMacroTokensWithStack, h, List.mapM_cons, List.mapM_nil]
  dsimp only
  cases expandMacroTokensWithStack ascii table fuel inner [] with
  | error e => rfl
  | ok r =>
    show Except.ok [r].flatten = Except.ok r
    rw [List.flatten_singleton]

/-- `XSTR` makes a string of the name of every object-like macro, never of its body. -/
theorem expand_xstr (name : String) (body : List Token)
    (hname : name ∉ ["XSTR", "STR", "(", ")", ",", "#", "##"]) :
    expandMacroTokens ascii (stringTable name body) 3
      [ident "XSTR", punct "(", ident name, punct ")"] =
        .ok [tokenOf .stringLiteral (stringifyArg [ident name])] := by
  simp only [List.mem_cons, List.not_mem_nil, or_false, not_or] at hname
  obtain ⟨h1, h2, h3, h4, h5, h6, h7⟩ := hname
  have hx : ("XSTR" == name) = false := by simp [Ne.symm h1]
  have hs : ("STR" == name) = false := by simp [Ne.symm h2]
  have houter : outputs ascii (stringTable name body) []
      [ident "XSTR", punct "(", ident name, punct ")"] =
        [.scan true "XSTR" [ident "STR", punct "(", ident name, punct ")"] []] :=
    outputs_ident_call (by decide) (by simp [h3, h4, h5])
      (by simp only [stringTable, List.lookup_cons, hx]; rfl) rfl
  have hinner : outputs ascii (stringTable name body) []
      [ident "STR", punct "(", ident name, punct ")"] =
        [.scan true "STR" [tokenOf .stringLiteral (stringifyArg [ident name])] []] :=
    outputs_ident_call (by decide) (by simp [h3, h4, h5])
      (by simp only [stringTable, List.lookup_cons, hs]; rfl) rfl
  have hstring (s : String) : outputs ascii (stringTable name body) [] [tokenOf .stringLiteral s] =
      [.push (tokenOf .stringLiteral s)] := by
    rw [outputs]
    simp [scanToken, tokenOf, outputs]
  unfold expandMacroTokens
  rw [expand_of_outputs 2 houter, expand_of_outputs 1 hinner, expandMacroTokensWithStack]
  show (outputs ascii (stringTable name body) []
    [tokenOf .stringLiteral (stringifyArg [ident name])]).mapM _ >>= _ = _
  rw [hstring]
  rfl

end Idiom

end OpticC.Preprocessor
