import OpticC.Frontend.Declarations
import OpticC.Frontend.IntegerConstants

/-! The GNU forms of expressions, the productions tied together, and the parser of a translation
unit. The bound on the calls and on the rounds of the loops goes down with every call. -/

namespace OpticC

open StatementExpr (isStorageClassSpecifier)

namespace Grammar

section GnuForms

def parseStatementExpr (S : Grammar) : ParserM ℕ := do
  let r ← StatementExpr.parseStatementExpr S.declaration S.expression
  return r.1

def parseLabelAddr : ParserM ℕ := do
  advance
  let t := (← get).currentToken
  if t.kind = .identifier then
    advance
    let label ← storeString t.text
    allocNode 203 label 0 0 0
  else throwParse "Expected label name after &&"

def parseExtensionWrapper (S : Grammar) : ParserM ℕ := do
  advance
  let p ← get
  if p.isTypeSpecifier || isStorageClassSpecifier p then
    let spec ← S.declarationSpecifiers
    if (← get).isDeclaratorStart then
      let declarator ← S.declarator
      let inner ← allocNode 20 0 0 spec declarator
      allocNode 206 0 0 inner 0
    else allocNode 206 0 0 spec 0
  else
    let expr ← S.expression
    allocNode 206 0 0 expr 0

/-- The words that begin a type argument, or follow a `*` in it. -/
def qualifierTexts : List String :=
  ["const", "restrict", "volatile", "__const", "__const__", "__restrict", "__restrict__",
    "__volatile", "__volatile__", "_Atomic"]

def skipQualifiers : ℕ → ParserM Unit
  | 0 => throw .outOfFuel
  | fuel + 1 => do
    if qualifierTexts.contains (← get).currentToken.text then
      advance
      skipQualifiers fuel

/-- The stars of a type argument. -/
def skipStars : ℕ → ℕ → ParserM ℕ
  | 0, _ => throw .outOfFuel
  | fuel + 1, depth => do
    if ← skipPunctuator "*" then
      skipQualifiers fuel
      skipStars fuel (depth + 1)
    else return depth

/-- Whether the builtin takes a type as its argument of the index. -/
def takesType (name : String) (index : ℕ) : Bool :=
  name == "__builtin_types_compatible_p" && index < 2 ||
    name == "__builtin_offsetof" && index == 0 || name == "__builtin_va_arg" && index == 1

def parseBuiltinArgument (S : Grammar) (fuel : ℕ) (name : String) (index : ℕ) : ParserM ℕ := do
  let p ← get
  if takesType name index && (p.isTypeSpecifier || qualifierTexts.contains p.currentToken.text) then
    let spec ← S.declarationSpecifiers
    let depth ← skipStars fuel 0
    if depth > 0 then allocNode 7 depth 0 spec 0
    else return spec
  else S.assignmentExpression

def parseBuiltinArguments (S : Grammar) (name : String) : ℕ → ℕ → ℕ × ℕ → ParserM (ℕ × ℕ)
  | 0, _, _ => throw .outOfFuel
  | fuel + 1, index, chain => do
    let arg ← parseBuiltinArgument S fuel name index
    let chain ← linkSiblings chain arg
    if ← skipPunctuator "," then parseBuiltinArguments S name fuel (index + 1) chain
    else return chain

def parseBuiltinCall (S : Grammar) (fuel : ℕ) (name : String) : ParserM ℕ := do
  let nameOffset ← storeString name
  expect "("
  if Parser.isPunct (← get).currentToken ")" then
    expect ")"
    allocNode 204 nameOffset 0 0 0
  else
    let args ← parseBuiltinArguments S name fuel 0 (0, 0)
    expect ")"
    allocNode 204 nameOffset 0 args.1 0

end GnuForms

/-- The productions that the expressions call. -/
def productions (S : Grammar) (fuel : ℕ) : Productions where
  declarationSpecifiers := S.declarationSpecifiers
  declarator := S.declarator
  initializer := S.initializer
  statementExpr := parseStatementExpr S
  typeofExpr := parseTypeofExpr S
  extensionWrapper := parseExtensionWrapper S
  labelAddr := parseLabelAddr
  builtinCall := parseBuiltinCall S fuel

/-- Every call spends one unit of the bound. -/
def tied : ℕ → Grammar
  | 0 =>
    { expression := throw .outOfFuel
      assignmentExpression := throw .outOfFuel
      conditionalExpression := throw .outOfFuel
      declarationSpecifiers := throw .outOfFuel
      declarator := throw .outOfFuel
      initializer := throw .outOfFuel
      declaration := throw .outOfFuel
      statement := throw .outOfFuel }
  | fuel + 1 =>
    let S := tied fuel
    { expression := parseExpression (S.productions fuel) fuel
      assignmentExpression := parseAssignmentExpression (S.productions fuel) fuel
      conditionalExpression := parseConditionalExpression (S.productions fuel) fuel
      declarationSpecifiers := parseDeclarationSpecifiers S fuel
      declarator := parseDeclarator S fuel
      initializer := parseInitializer S fuel
      declaration := parseDeclaration S fuel
      statement := parseStatement S fuel }

section Unit

def parseExternalDeclaration (S : Grammar) (fuel : ℕ) : ParserM ℕ := do
  let t := (← get).currentToken
  if t.kind = .keyword ∧ t.text = "__extension__" then parseExtensionWrapper S
  else
    if t.kind = .identifier ∧ t.text = "__extension__" then advance
    parseFileDeclaration S fuel

/-- A declaration, or nothing and a token passed when there is an error. -/
def parseOrSkip (parse : ParserM ℕ) : ParserM (Option ℕ) := fun p =>
  match parse p with
  | .ok decl p' => .ok (some decl) p'
  | .error .outOfFuel p' => .error .outOfFuel p'
  | .error (.parse _) p' => (do advance; return none : ParserM (Option ℕ)) p'

/-- The declarations of the file, linked one behind the other whether there is a node for them
or not. -/
def parseExternalDeclarations (S : Grammar) (fuel : ℕ) : ℕ → ℕ × ℕ → ParserM (ℕ × ℕ)
  | 0, _ => throw .outOfFuel
  | rounds + 1, chain => do
    if (← get).currentToken.kind = .eof then return chain
    else
      match ← parseOrSkip (parseExternalDeclaration S fuel) with
      | none => parseExternalDeclarations S fuel rounds chain
      | some decl =>
        if chain.1 = 0 then parseExternalDeclarations S fuel rounds (decl, decl)
        else
          setNextSibling chain.2 decl
          parseExternalDeclarations S fuel rounds (chain.1, decl)

def parseTranslationUnit (fuel : ℕ) : ParserM ℕ := do
  let chain ← parseExternalDeclarations (tied fuel) fuel fuel (0, 0)
  return chain.1

end Unit

end Grammar

/-- The tokens that `parse_tokens` leaves for the parser. -/
def parserTokens (tokens : List Preprocessor.Token) : List Token :=
  (tokens.filter fun t => !(t.kind == .whitespace || t.kind == .comment)).map
    Token.fromPreprocessor ++ [⟨.eof, "", 0, 0, ""⟩]

/-- `parse_tokens` of a new parser. -/
def parseTokens (fuel : ℕ) (a : Arena) (tokens : List Preprocessor.Token) :
    EStateM.Result Fault Parser ℕ :=
  Grammar.parseTranslationUnit fuel
    ⟨a, parserTokens tokens, 0, fun _ => false, fun _ => none, fun _ => none⟩

end OpticC
