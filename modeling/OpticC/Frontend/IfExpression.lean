import OpticC.Frontend.Directives
import OpticC.Frontend.Expression

/-! The evaluator of `#if` lines: one function for each level of precedence, from
`parse_if_conditional` down to `parse_if_primary`. Each takes the tokens from its position on
and tells the value and the tokens behind the expression. -/

namespace OpticC.Preprocessor

abbrev IfResult := Except PreprocessorError (BitVec 64 × List PpToken)

section Literals

/-- `i64::from_str_radix`: a sign is taken, and what does not fit is an error. -/
def i64FromStrRadix (radix : ℕ) (bytes : List UInt8) : Option (BitVec 64) :=
  let digits (limit : ℕ) (l : List UInt8) : Option ℕ :=
    l.foldlM (fun acc b => (digitValue radix b).bind fun d =>
      if acc * radix + d < limit then some (acc * radix + d) else none) 0
  match bytes with
  | [] => none
  | [b] => if b = 43 ∨ b = 45 then none else (digits (2 ^ 63) [b]).map (BitVec.ofNat 64)
  | b :: rest =>
    if b = 45 then (digits (2 ^ 63 + 1) rest).map fun v => -BitVec.ofNat 64 v
    else (digits (2 ^ 63) (if b = 43 then rest else b :: rest)).map (BitVec.ofNat 64)

def parseIntLiteral (text : String) : BitVec 64 :=
  let bytes := ((textBytes text).reverse.dropWhile fun b =>
    b == 117 || b == 85 || b == 108 || b == 76).reverse
  match bytes with
  | 48 :: 120 :: hex => (i64FromStrRadix 16 hex).getD 0
  | 48 :: 88 :: hex => (i64FromStrRadix 16 hex).getD 0
  | 48 :: d :: rest => (i64FromStrRadix 8 (48 :: d :: rest)).getD 0
  | _ => (i64FromStrRadix 10 bytes).getD 0

def parseCharLiteral (text : String) : BitVec 64 :=
  if text.utf8ByteSize ≥ 2 then
    match (text.toList.drop 1).dropLast with
    | c :: _ => BitVec.ofNat 64 c.toNat
    | [] => 0
  else 0

end Literals

section Operators

def flag (b : Bool) : BitVec 64 := if b then 1 else 0

abbrev IfOp := BitVec 64 → BitVec 64 → Except PreprocessorError (BitVec 64)

def divide (x y : BitVec 64) (message : String) (quotient : BitVec 64) :
    Except PreprocessorError (BitVec 64) :=
  if y = 0 then .error (.conditionalError message)
  else if x = BitVec.intMin 64 ∧ y = -1 then .error (.fault .overflow)
  else .ok quotient

def multiplicativeOps (text : String) : Option IfOp :=
  if text = "*" then some fun x y => .ok (x * y)
  else if text = "/" then
    some fun x y => divide x y "division by zero in #if expression" (x.sdiv y)
  else if text = "%" then
    some fun x y => divide x y "modulo by zero in #if expression" (x.srem y)
  else none

def additiveOps (text : String) : Option IfOp :=
  if text = "+" then some fun x y => .ok (x + y)
  else if text = "-" then some fun x y => .ok (x - y)
  else none

/-- `wrapping_shl` and `wrapping_shr` by `right as u32` take the low six bits of the count. -/
def shiftOps (text : String) : Option IfOp :=
  if text = "<<" then some fun x y => .ok (x <<< (y.toNat % 64))
  else if text = ">>" then some fun x y => .ok (x.sshiftRight (y.toNat % 64))
  else none

def comparisonOps (text : String) : Option IfOp :=
  if text = "<" then some fun x y => .ok (flag (x.slt y))
  else if text = ">" then some fun x y => .ok (flag (y.slt x))
  else if text = "<=" then some fun x y => .ok (flag (x.sle y))
  else if text = ">=" then some fun x y => .ok (flag (y.sle x))
  else none

def equalityOps (text : String) : Option IfOp :=
  if text = "==" then some fun x y => .ok (flag (x == y))
  else if text = "!=" then some fun x y => .ok (flag (x != y))
  else none

def bitandOps (text : String) : Option IfOp :=
  if text = "&" then some fun x y => .ok (x &&& y) else none

def bitxorOps (text : String) : Option IfOp :=
  if text = "^" then some fun x y => .ok (x ^^^ y) else none

def bitorOps (text : String) : Option IfOp :=
  if text = "|" then some fun x y => .ok (x ||| y) else none

def andOps (text : String) : Option IfOp :=
  if text = "&&" then some fun x y => .ok (flag (x != 0 && y != 0)) else none

def orOps (text : String) : Option IfOp :=
  if text = "||" then some fun x y => .ok (flag (x != 0 || y != 0)) else none

end Operators

section Levels

/-- The loop that the levels of `*`, `+`, `<<`, `&`, `^`, `|`, `&&` and `||` share; `next` is
the level above, and `fuel` bounds the number of rounds. -/
def binaryLoop (ops : String → Option IfOp) (next : List PpToken → IfResult) :
    ℕ → BitVec 64 → List PpToken → IfResult
  | 0, _, _ => .error (.fault .outOfFuel)
  | fuel + 1, left, tokens =>
    match skipWhitespace tokens with
    | [] => .ok (left, [])
    | t :: rest =>
      match ops t.text with
      | none => .ok (left, t :: rest)
      | some op => do
        let (right, behind) ← next rest
        let left ← op left right
        binaryLoop ops next fuel left behind

def binaryLevel (ops : String → Option IfOp) (next : List PpToken → IfResult) (fuel : ℕ)
    (tokens : List PpToken) : IfResult := do
  let (left, rest) ← next tokens
  binaryLoop ops next fuel left rest

/-- The levels of `<` and `==` have no loop: an operator that is not the last token is followed
by its operand, and `right` is what reads it. -/
def binaryOnce (ops : String → Option IfOp) (next right : List PpToken → IfResult)
    (tokens : List PpToken) : IfResult := do
  let (left, rest) ← next tokens
  match skipWhitespace rest with
  | [] => return (left, [])
  | t :: more =>
    match if more = [] then none else ops t.text with
    | none => return (left, t :: more)
    | some op =>
      let (right, behind) ← right more
      let value ← op left right
      return (value, behind)

variable (primary : List PpToken → IfResult) (fuel : ℕ)

/-- `fuel` bounds the number of operators in front of the operand. -/
def parseIfUnary : ℕ → List PpToken → IfResult
  | 0, _ => .error (.fault .outOfFuel)
  | fuel + 1, tokens =>
    match skipWhitespace tokens with
    | [] => .error (.conditionalError "unexpected end of #if expression")
    | t :: rest =>
      if t.text = "!" then do
        let (value, behind) ← parseIfUnary fuel rest
        return (flag (value == 0), behind)
      else if t.text = "~" then do
        let (value, behind) ← parseIfUnary fuel rest
        return (~~~value, behind)
      else if t.text = "-" then do
        let (value, behind) ← parseIfUnary fuel rest
        return (-value, behind)
      else if t.text = "+" then parseIfUnary fuel rest
      else primary (t :: rest)

def parseIfMultiplicative : List PpToken → IfResult :=
  binaryLevel multiplicativeOps (parseIfUnary primary fuel) fuel

def parseIfAdditive : List PpToken → IfResult :=
  binaryLevel additiveOps (parseIfMultiplicative primary fuel) fuel

def parseIfShift : List PpToken → IfResult :=
  binaryLevel shiftOps (parseIfAdditive primary fuel) fuel

/-- One comparison at most. -/
def parseIfComparison : List PpToken → IfResult :=
  binaryOnce comparisonOps (parseIfShift primary fuel) (parseIfShift primary fuel)

/-- The right operand takes the equalities behind it along. -/
def parseIfEquality : ℕ → List PpToken → IfResult
  | 0 => fun _ => .error (.fault .outOfFuel)
  | rounds + 1 =>
    binaryOnce equalityOps (parseIfComparison primary fuel) (parseIfEquality rounds)

def parseIfBitand : List PpToken → IfResult :=
  binaryLevel bitandOps (parseIfEquality primary fuel fuel) fuel

def parseIfBitxor : List PpToken → IfResult :=
  binaryLevel bitxorOps (parseIfBitand primary fuel) fuel

def parseIfBitor : List PpToken → IfResult :=
  binaryLevel bitorOps (parseIfBitxor primary fuel) fuel

def parseIfAnd : List PpToken → IfResult :=
  binaryLevel andOps (parseIfBitor primary fuel) fuel

/-- `parse_if_or` over the operands that `primary` reads. -/
def parseIfOrOf : List PpToken → IfResult :=
  binaryLevel orOps (parseIfAnd primary fuel) fuel

/-- `parse_if_conditional` over `parse_if_or`. Both branches are evaluated. -/
def parseIfConditionalOf (parseOr : List PpToken → IfResult) : ℕ → List PpToken → IfResult
  | 0, _ => .error (.fault .outOfFuel)
  | fuel + 1, tokens => do
    let (condition, rest) ← parseOr tokens
    match skipWhitespace rest with
    | [] => return (condition, [])
    | t :: more =>
      if t.text = "?" then
        let (thenValue, next) ← parseIfConditionalOf parseOr fuel more
        match skipWhitespace next with
        | [] => throw (.conditionalError "expected : in #if ternary expression")
        | colon :: behind =>
          if colon.text = ":" then
            let (elseValue, behind) ← parseIfConditionalOf parseOr fuel behind
            return (if condition != 0 then thenValue else elseValue, behind)
          else throw (.conditionalError "expected : in #if ternary expression")
      else return (condition, t :: more)

end Levels

section Operands

/-- What the operands of an `#if` line depend on. -/
structure IfEnv where
  macros : MacroTable
  chars : CharClasses
  /-- For `expand_macro_tokens`. -/
  expansionFuel : ℕ
  file : String
  supportsAttribute : String → Bool
  supportsBuiltin : String → Bool
  /-- `include_file_exists`, from the current file. -/
  includeFileExists : String → Bool

variable (env : IfEnv)

def supportsLanguageExtension (name : String) : Bool :=
  ["c_atomic", "gnu_asm", "gnu_attributes", "statement_expression", "c_static_assert"].contains name

def parseDefined (rest : List PpToken) : IfResult :=
  let name (hasParen : Bool) (tokens : List PpToken) : IfResult :=
    match tokens with
    | [] => .error (.conditionalError "expected identifier after defined")
    | t :: behind =>
      if t.kind = .identifier then
        .ok (flag (env.macros.lookup t.text).isSome,
          if hasParen then skipClose (skipWhitespace behind) else behind)
      else .error (.conditionalError "expected identifier after defined")
  match skipWhitespace rest with
  | [] => name false []
  | t :: behind => if t.text = "(" then name true (skipWhitespace behind) else name false (t :: behind)

/-- The operand of `__has_include` and the like, behind the name. -/
def parseFeatureProbeArgument (rest : List PpToken) :
    Except PreprocessorError (String × List PpToken) :=
  let close (value : String) (tokens : List PpToken) :=
    match skipWhitespace tokens with
    | [] => .error (.conditionalError "expected ) to close feature probe")
    | t :: behind =>
      if t.text = ")" then .ok (value, behind)
      else .error (.conditionalError "expected ) to close feature probe")
  match skipWhitespace rest with
  | [] => .error (.conditionalError "expected ( after feature probe")
  | t :: behind =>
    if t.text ≠ "(" then .error (.conditionalError "expected ( after feature probe")
    else match skipWhitespace behind with
      | [] => .error (.conditionalError "unexpected end of feature probe")
      | t :: behind =>
        if t.kind = .stringLit then close (betweenQuotes t.text) behind
        else if t.text = "<" then
          let path := (behind.takeWhile fun t => t.text != ">").filter fun t => t.kind != .whitespace
          match behind.dropWhile fun t => t.text != ">" with
          | [] => .error (.conditionalError "unterminated angle-bracket include probe")
          | _ :: behind => close (String.join (path.map PpToken.text)) behind
        else close t.text behind

def parseFeatureProbe (predicate : String → Bool) (rest : List PpToken) : IfResult := do
  let (value, behind) ← parseFeatureProbeArgument rest
  return (flag (predicate value), behind)

/-- The loop of `collect_pp_macro_args` behind the opening parenthesis. -/
def collectPpMacroArgs (expectedParams : ℕ) (isVariadic : Bool) (file : String) :
    List PpToken → List (List Token) → List PpToken → ℕ → List (List Token) × List PpToken
  | [], args, _, _ => (args, [])
  | t :: rest, args, current, depth =>
    if t.text = "(" then
      collectPpMacroArgs expectedParams isVariadic file rest args (current ++ [t]) (depth + 1)
    else if t.text = ")" ∧ depth = 0 then
      if current ≠ [] ∨ args.length < expectedParams ∨ (isVariadic ∧ args = []) then
        (args ++ [ppTokensToTokens current file], rest)
      else (args, rest)
    else if t.text = "," ∧ depth = 0 then
      collectPpMacroArgs expectedParams isVariadic file rest
        (args ++ [ppTokensToTokens current file]) [] depth
    else
      collectPpMacroArgs expectedParams isVariadic file rest args (current ++ [t])
        (if t.text = ")" then depth - 1 else depth)

def tokensToPpTokens (tokens : List Token) : List PpToken :=
  tokens.map fun t =>
    let kind : PpTokenKind := match t.kind with
      | .identifier | .keyword => .identifier
      | .intLiteral | .floatLiteral => .number
      | .stringLiteral => .stringLit
      | .charLiteral => .charLit
      | .punctuator | .preprocessor => .punctuator
      | .whitespace | .comment => .whitespace
      | .endOfFile => .newline
    ⟨kind, t.text, t.line, t.column⟩

/-- What `eval_if_macro_tokens` keeps of an expansion. -/
def ifMacroLine (tokens : List Token) : List PpToken :=
  (tokensToPpTokens tokens).filter fun t =>
    t.kind != .whitespace || t.text.toList.all fun c => c != '\n' && c != '\r'

/-- The expansion of a macro as an expression of its own, without `? :` at its top. -/
def evalIfMacroTokens (parseOr : List PpToken → IfResult) (tokens : List Token) :
    Except PreprocessorError (BitVec 64) :=
  if (ifMacroLine tokens).all fun t => t.kind == .whitespace then .ok 0
  else (parseOr (ifMacroLine tokens ++ [⟨.newline, "\n", 0, 0⟩])).map Prod.fst

def liftFault {α : Type} (x : Except Fault α) : Except PreprocessorError α :=
  x.mapError PreprocessorError.fault

/-- The operands `__has_attribute` and so on. -/
def featureProbe (name : String) : Option (String → Bool) :=
  if name = "__has_attribute" then some env.supportsAttribute
  else if name = "__has_builtin" then some env.supportsBuiltin
  else if name = "__has_feature" ∨ name = "__has_extension" then some supportsLanguageExtension
  else if name = "__has_include" ∨ name = "__has_include_next" then some env.includeFileExists
  else none

/-- The operand that an identifier is, with the tokens behind it; `parseOr` evaluates the
expansions of macros. -/
def parseIfIdentifier (parseOr : List PpToken → IfResult) (name : String) (rest : List PpToken) :
    IfResult :=
  let expand (tokens : List Token) :=
    liftFault (expandMacroTokens env.chars env.macros env.expansionFuel tokens)
  match featureProbe env name with
  | some predicate => parseFeatureProbe predicate rest
  | none =>
    match env.macros.lookup name with
    | none => .ok (0, rest)
    | some (.objectLike replacement) => do
      let expanded ← expand replacement
      let value ← evalIfMacroTokens parseOr expanded
      return (value, rest)
    | some (.functionLike params isVariadic variadicParam replacement) =>
      match skipWhitespace rest with
      | [] => .ok (1, rest)
      | paren :: inside =>
        if paren.text = "(" then do
          let (args, behind) := collectPpMacroArgs params.length isVariadic env.file inside [] [] 0
          let substituted ← liftFault
            (expandFunctionMacroTokens env.chars params isVariadic variadicParam args replacement [])
          let expanded ← expand substituted
          let value ← evalIfMacroTokens parseOr expanded
          return (value, behind)
        else .ok (1, rest)

/-- `parse_if_primary`, over what it does with identifiers; `conditional` reads parentheses. -/
def parseIfPrimary (identifier : String → List PpToken → IfResult)
    (conditional : List PpToken → IfResult) (tokens : List PpToken) : IfResult :=
  match skipWhitespace tokens with
  | [] => .error (.conditionalError "unexpected end of #if expression")
  | t :: rest =>
    if t.text = "(" then do
      let (value, behind) ← conditional rest
      let missing (place : PpToken) (found : String) : PreprocessorError :=
        .conditionalError ("expected ) in #if expression at " ++ toString place.line ++ ":" ++
          toString place.column ++ " near " ++ found)
      match skipWhitespace behind with
      | [] => throw (missing (rest.getLast?.getD t) "<eol>")
      | close :: behind =>
        if close.text = ")" then return (value, behind) else throw (missing close close.text)
    else if t.text = "defined" then parseDefined env rest
    else if t.kind = .number then .ok (parseIntLiteral t.text, rest)
    else if t.kind = .identifier then identifier t.text rest
    else if t.kind = .charLit then .ok (parseCharLiteral t.text, rest)
    else .error (.conditionalError ("unexpected token in #if expression: " ++ t.text))

/-- `parse_if_or` with the given reading of identifiers; `fuel` bounds the depth of parentheses
and macros, and the rounds of each loop. -/
def parseIfOrBy (identifier : (List PpToken → IfResult) → String → List PpToken → IfResult) :
    ℕ → List PpToken → IfResult
  | 0 => fun _ => .error (.fault .outOfFuel)
  | fuel + 1 =>
    let parseOr := parseIfOrBy identifier fuel
    parseIfOrOf (parseIfPrimary env (identifier parseOr) (parseIfConditionalOf parseOr fuel)) fuel

def parseIfOr : ℕ → List PpToken → IfResult := parseIfOrBy env (parseIfIdentifier env)

def parseIfConditional (fuel : ℕ) : List PpToken → IfResult :=
  parseIfConditionalOf (parseIfOr env fuel) fuel

/-- `parse_if_expression`: what is left of the line behind the expression is skipped. -/
def evalIfLine (fuel : ℕ) (tokens : List PpToken) : IfResult :=
  (parseIfConditional env fuel tokens).map fun r => (r.1, skipToDirectiveEnd r.2)

end Operands

end OpticC.Preprocessor
