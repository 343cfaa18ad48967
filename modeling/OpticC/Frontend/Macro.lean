import Mathlib.Algebra.Ring.Int.Defs
import Mathlib.Algebra.Ring.Nat
import Mathlib.Data.Nat.Notation
import Mathlib.Data.List.Basic

/-! Macro definition and expansion in the preprocessor. Positions in a token list are
the suffixes that start there. -/

namespace OpticC.Preprocessor

inductive TokenKind where
  | identifier | keyword | intLiteral | floatLiteral | charLiteral | stringLiteral | punctuator
  | preprocessor | whitespace | comment | endOfFile
  deriving DecidableEq, Repr

structure Token where
  kind : TokenKind
  text : String
  line : ℕ
  column : ℕ
  file : String
  deriving DecidableEq, Repr

def Token.isWhitespace (t : Token) : Bool := t.kind == .whitespace

inductive PpTokenKind where
  | identifier | number | stringLit | charLit | punctuator | whitespace | newline | hash
  | hashHash
  deriving DecidableEq, Repr

structure PpToken where
  kind : PpTokenKind
  text : String
  line : ℕ
  column : ℕ
  deriving DecidableEq, Repr

inductive MacroDefinition where
  | objectLike (replacement : List Token)
  | functionLike (params : List String) (isVariadic : Bool) (variadicParam : Option String)
      (replacement : List Token)
  deriving DecidableEq, Repr

/-- The map `macros`, the latest definition of a name first. -/
abbrev MacroTable := List (String × MacroDefinition)

/-- `char::is_alphabetic` and `char::is_numeric`. -/
structure CharClasses where
  isAlphabetic : Char → Bool
  isNumeric : Char → Bool

inductive Fault where
  | outOfFuel
  | indexOutOfBounds
  /-- A division whose quotient does not fit. -/
  | overflow
  deriving DecidableEq, Repr

section Tokens

def isKeyword (text : String) : Bool :=
  ["auto", "break", "case", "char", "const", "continue", "default", "do", "double", "else",
    "enum", "extern", "float", "for", "goto", "if", "inline", "int", "long", "register",
    "restrict", "return", "short", "signed", "sizeof", "static", "struct", "switch", "typedef",
    "union", "unsigned", "void", "volatile", "while", "_Thread_local", "__thread", "_Bool",
    "_Complex", "_Imaginary"].contains text

def looksFloat (text : String) : Bool :=
  text.toList.contains '.' || text.toList.contains 'e' || text.toList.contains 'E'

def ppTokensToTokens (tokens : List PpToken) (file : String) : List Token :=
  (tokens.filter fun t => t.kind != .newline).map fun t =>
    let kind := match t.kind with
      | .identifier => if isKeyword t.text then .keyword else .identifier
      | .number => if looksFloat t.text then .floatLiteral else .intLiteral
      | .stringLit => .stringLiteral
      | .charLit => .charLiteral
      | .punctuator | .hash | .hashHash => .punctuator
      | .whitespace | .newline => .whitespace
    ⟨kind, t.text, t.line, t.column, file⟩

end Tokens

section Define

def skipWhitespace (tokens : List PpToken) : List PpToken :=
  tokens.dropWhile fun t => t.kind == .whitespace

theorem length_skipWhitespace_le (tokens : List PpToken) :
    (skipWhitespace tokens).length ≤ tokens.length :=
  (List.dropWhile_suffix _).length_le

/-- The position after a `)` that may stand there. -/
def skipClose : List PpToken → List PpToken
  | t :: rest => if t.text = ")" then rest else t :: rest
  | [] => []

/-- The loop of `parse_macro_params`: parameters, variadic or not, the name of the
variadic parameter, and where the list ends. -/
def parseMacroParams (file : String) (tokens : List PpToken) (params : List String) :
    Except String (List String × Bool × Option String × List PpToken) :=
  match _h : skipWhitespace tokens with
  | [] => .ok (params, false, none, [])
  | t :: rest =>
    if t.text = ")" then .ok (params, false, none, rest)
    else if t.text = "..." then .ok (params, true, none, skipClose (skipWhitespace rest))
    else if t.kind = .identifier then
      match _h' : skipWhitespace rest with
      | [] => parseMacroParams file [] (params ++ [t.text])
      | next :: more =>
        if next.text = "..." then
          .ok (params, true, some t.text, skipClose (skipWhitespace more))
        else if next.text = "," then parseMacroParams file more (params ++ [t.text])
        else parseMacroParams file (next :: more) (params ++ [t.text])
    else .error ("expected parameter name in macro definition in " ++ file)
termination_by tokens.length
decreasing_by
  all_goals
    have h1 := length_skipWhitespace_le tokens
    have h2 := length_skipWhitespace_le rest
    rw [_h, List.length_cons] at h1
    rw [_h'] at h2
    simp only [List.length_cons, List.length_nil] at h2 ⊢
    omega

/-- `expand_tokens_in_macro`: object-like macros defined so far are replaced, once. -/
def expandTokensInMacro (table : MacroTable) : List Token → List Token
  | [] => []
  | t :: rest =>
    let here :=
      if t.text = "##" ∨ (t.text = "#" ∧ rest ≠ []) then [t]
      else if t.kind = .identifier then
        if t.text = "__LINE__" then [⟨.intLiteral, "0", t.line, t.column, t.file⟩]
        else if t.text = "__FILE__" then
          [⟨.stringLiteral, "\"" ++ t.file ++ "\"", t.line, t.column, t.file⟩]
        else if t.text = "__VA_ARGS__" then [t]
        else match table.lookup t.text with
          | some (.objectLike replacement) => replacement
          | some (.functionLike ..) => [t]
          | none => [t]
      else [t]
    here ++ expandTokensInMacro table rest

/-- `process_define` after the directive name: the new table and the next line. -/
def processDefine (table : MacroTable) (tokens : List PpToken) (file : String) :
    Except String (MacroTable × List PpToken) :=
  let define (name : String) (body : List PpToken) (make : List Token → MacroDefinition) :=
    let line := body.takeWhile fun t => t.kind != .newline
    let replacement := expandTokensInMacro table (ppTokensToTokens line file)
    ((name, make replacement) :: table, (body.dropWhile fun t => t.kind != .newline).drop 1)
  match skipWhitespace tokens with
  | [] => .error "expected macro name after #define"
  | t :: rest =>
    if t.kind ≠ .identifier then .error "expected macro name after #define"
    else match rest with
      | paren :: inside =>
        if paren.text = "(" then do
          let (params, isVariadic, variadicParam, body) ← parseMacroParams file inside []
          return define t.text (skipWhitespace body)
            (.functionLike params isVariadic variadicParam)
        else return define t.text rest .objectLike
      | [] => return define t.text [] .objectLike

end Define

section Substitute

/-- The loop of `collect_macro_args` behind the opening parenthesis. -/
def collectArgs (expectedParams : ℕ) (isVariadic : Bool) :
    List Token → List (List Token) → List Token → ℕ → List (List Token) × List Token
  | [], args, _, _ => (args, [])
  | t :: rest, args, current, depth =>
    if t.text = "(" then
      collectArgs expectedParams isVariadic rest args (current ++ [t]) (depth + 1)
    else if t.text = ")" ∧ depth = 0 then
      if current ≠ [] ∨ args.length < expectedParams ∨ (isVariadic ∧ args = []) then
        (args ++ [current], rest)
      else (args, rest)
    else if t.text = "," ∧ depth = 0 then
      collectArgs expectedParams isVariadic rest (args ++ [current]) [] depth
    else
      collectArgs expectedParams isVariadic rest args (current ++ [t])
        (if t.text = ")" then depth - 1 else depth)

theorem length_collectArgs_le (n : ℕ) (v : Bool) (tokens : List Token)
    (args : List (List Token)) (current : List Token) (depth : ℕ) :
    (collectArgs n v tokens args current depth).2.length ≤ tokens.length := by
  induction tokens generalizing args current depth with
  | nil => simp [collectArgs]
  | cons t rest ih =>
    unfold collectArgs
    split_ifs
    · exact Nat.le_succ_of_le (ih _ _ _)
    · exact Nat.le_succ _
    · exact Nat.le_succ _
    · exact Nat.le_succ_of_le (ih _ _ _)
    · exact Nat.le_succ_of_le (ih _ _ _)
    · exact Nat.le_succ_of_le (ih _ _ _)

def isVariadicParam (t : Token) (variadicParam : Option String) : Bool :=
  t.text == "__VA_ARGS__" || variadicParam.any fun name => t.text == name

/-- The arguments from `vaStart` on, with commas between them. -/
def expandVariadicArgs (args : List (List Token)) (vaStart : ℕ) (t : Token) : List Token :=
  [(⟨.punctuator, ",", t.line, t.column, t.file⟩ : Token)].intercalate (args.drop vaStart)

def getParamReplacement (t : Token) (params : List String) (isVariadic : Bool)
    (variadicParam : Option String) (args : List (List Token)) : List Token :=
  let variadic := if isVariadic ∧ isVariadicParam t variadicParam then
    expandVariadicArgs args params.length t else [t]
  if t.kind = .identifier then
    match params.idxOf? t.text with
    | some i => args.getD i variadic
    | none => variadic
  else [t]

def pasteTokens (chars : CharClasses) (left right : Token) : Token :=
  let pasted := left.text ++ right.text
  let kind : TokenKind := match pasted.toList.head? with
    | some c =>
      if chars.isAlphabetic c || c == '_' then
        if isKeyword pasted then .keyword else .identifier
      else if chars.isNumeric c then if looksFloat pasted then .floatLiteral else .intLiteral
      else .punctuator
    | none => .punctuator
  ⟨kind, pasted, left.line, left.column, left.file⟩

/-- The loop of `stringify_arg`, with `first` and the text so far. -/
def stringifyLoop : List Token → Bool → List Char → List Char
  | [], _, text => text
  | t :: rest, first, text =>
    if t.isWhitespace then stringifyLoop rest first (if first then text else text ++ [' '])
    else
      let text := if !first && text.getLast? != some '"' then text ++ [' '] else text
      stringifyLoop rest false (text ++ t.text.toList.flatMap fun c =>
        if c = '"' ∨ c = '\\' then ['\\', c] else [c])

def stringifyArg (tokens : List Token) : String :=
  String.ofList (stringifyLoop tokens true ['"'] ++ ['"'])

/-- The text of `# name`, when the name is a parameter. A parameter without an argument
is an index out of bounds. -/
def stringifyParam (name : Token) (params : List String) (isVariadic : Bool)
    (variadicParam : Option String) (args : List (List Token)) : Option (Except Fault String) :=
  if name.kind = .identifier then
    match params.idxOf? name.text with
    | some i => match args[i]? with
      | some arg => some (.ok (stringifyArg arg))
      | none => some (.error .indexOutOfBounds)
    | none =>
      if isVariadic ∧ isVariadicParam name variadicParam then
        some (.ok (stringifyArg (expandVariadicArgs args params.length name)))
      else none
  else none

/-- What a token of the replacement that no `#` or `##` touches stands for. -/
def substituteToken (t : Token) (params : List String) (isVariadic : Bool)
    (variadicParam : Option String) (args : List (List Token)) : List Token :=
  if t.kind = .identifier then
    if isVariadic ∧ isVariadicParam t variadicParam then expandVariadicArgs args params.length t
    else match params.idxOf? t.text with
      | some i => args.getD i [t]
      | none => [t]
  else [t]

/-- The loop of `expand_function_macro_tokens` with its `result`. -/
def expandFunctionMacroTokens (chars : CharClasses) (params : List String) (isVariadic : Bool)
    (variadicParam : Option String) (args : List (List Token)) :
    List Token → List Token → Except Fault (List Token)
  | [], result => .ok result
  | [t], result =>
    if t.text = "##" then .ok result
    else .ok (result ++ substituteToken t params isVariadic variadicParam args)
  | t :: next :: rest, result =>
    if t.text = "##" then
      match result.getLast? with
      | some left =>
        match getParamReplacement next params isVariadic variadicParam args with
        | right :: more =>
          expandFunctionMacroTokens chars params isVariadic variadicParam args rest
            (result.dropLast ++ [pasteTokens chars left right] ++ more)
        | [] =>
          expandFunctionMacroTokens chars params isVariadic variadicParam args rest
            result.dropLast
      | none =>
        expandFunctionMacroTokens chars params isVariadic variadicParam args (next :: rest) result
    else
      match (if t.text = "#" then stringifyParam next params isVariadic variadicParam args
        else none) with
      | some text => do
        let text ← text
        expandFunctionMacroTokens chars params isVariadic variadicParam args rest
          (result ++ [⟨.stringLiteral, text, next.line, next.column, next.file⟩])
      | none =>
        expandFunctionMacroTokens chars params isVariadic variadicParam args (next :: rest)
          (result ++ substituteToken t params isVariadic variadicParam args)

end Substitute

section Expand

/-- What one round of the loop of `expand_macro_tokens_with_stack` adds to `result`: a
token, or the result of the scan of another list under another stack. -/
inductive Output where
  | push (t : Token)
  | scan (functionLike : Bool) (name : String) (tokens : List Token) (expanding : List String)
  | fault (e : Fault)
  deriving DecidableEq

/-- One round of the loop on the token `t`, and where the loop goes on. -/
def scanToken (chars : CharClasses) (table : MacroTable) (expanding : List String) (t : Token)
    (rest : List Token) : Output × List Token :=
  if t.kind ≠ .identifier then (.push t, rest)
  else if t.text = "__LINE__" then
    (.push ⟨.intLiteral, toString t.line, t.line, t.column, t.file⟩, rest)
  else if t.text = "__FILE__" then
    (.push ⟨.stringLiteral, "\"" ++ t.file ++ "\"", t.line, t.column, t.file⟩, rest)
  else if expanding.contains t.text then (.push t, rest)
  else match table.lookup t.text with
    | none => (.push t, rest)
    | some (.objectLike replacement) =>
      (.scan false t.text replacement (expanding ++ [t.text]), rest)
    | some (.functionLike params isVariadic variadicParam replacement) =>
      match rest.dropWhile Token.isWhitespace with
      | [] => (.push t, rest)
      | paren :: inside =>
        if paren.text = "(" then
          let (args, rest) := collectArgs params.length isVariadic inside [] [] 0
          match expandFunctionMacroTokens chars params isVariadic variadicParam args
            replacement [] with
          -- the name is popped before the expansion is scanned again
          | .ok expanded => (.scan true t.text expanded expanding, rest)
          | .error e => (.fault e, rest)
        else (.push t, rest)

theorem length_scanToken_le (chars : CharClasses) (table : MacroTable) (expanding : List String)
    (t : Token) (rest : List Token) :
    (scanToken chars table expanding t rest).2.length ≤ rest.length := by
  unfold scanToken
  split_ifs <;> try exact Nat.le_refl _
  cases table.lookup t.text with
  | none => exact Nat.le_refl _
  | some d =>
    cases d with
    | objectLike r => exact Nat.le_refl _
    | functionLike params v vp r =>
      have hdrop := (List.dropWhile_suffix (l := rest) Token.isWhitespace).length_le
      cases hd : rest.dropWhile Token.isWhitespace with
      | nil => exact Nat.le_refl _
      | cons paren inside =>
        rw [hd, List.length_cons] at hdrop
        have hargs := length_collectArgs_le params.length v inside [] [] 0
        simp only
        split_ifs
        · cases expandFunctionMacroTokens chars params v vp
            (collectArgs params.length v inside [] [] 0).1 r [] with
          | ok e => exact Nat.le_trans hargs (Nat.le_of_succ_le hdrop)
          | error e => exact Nat.le_trans hargs (Nat.le_of_succ_le hdrop)
        · exact Nat.le_refl _

/-- What the rounds of the loop add, in order. -/
def outputs (chars : CharClasses) (table : MacroTable) (expanding : List String) :
    List Token → List Output
  | [] => []
  | t :: rest =>
    (scanToken chars table expanding t rest).1 ::
      outputs chars table expanding (scanToken chars table expanding t rest).2
termination_by tokens => tokens.length
decreasing_by exact Nat.lt_succ_of_le (length_scanToken_le ..)

/-- `expand_macro_tokens_with_stack`; `fuel` bounds the depth of the recursion. -/
def expandMacroTokensWithStack (chars : CharClasses) (table : MacroTable) :
    ℕ → List Token → List String → Except Fault (List Token)
  | 0, _, _ => .error .outOfFuel
  | fuel + 1, tokens, expanding => do
    let parts ← (outputs chars table expanding tokens).mapM fun
      | .push t => .ok [t]
      | .scan _ _ tokens expanding => expandMacroTokensWithStack chars table fuel tokens expanding
      | .fault e => .error e
    return parts.flatten

def expandMacroTokens (chars : CharClasses) (table : MacroTable) (fuel : ℕ)
    (tokens : List Token) : Except Fault (List Token) :=
  expandMacroTokensWithStack chars table fuel tokens []

end Expand

end OpticC.Preprocessor
