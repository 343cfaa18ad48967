import OpticC.Frontend.Grammar

/-! The statement productions of the parser, inline assembly included. -/

namespace OpticC

open StatementExpr (isAtEnd isStorageClassSpecifier parseOrAdvance)

namespace Grammar

section Blocks

/-- The loop of `parse_compound_statement`, with the rounds that are left of 10000. -/
def parseItems (S : Grammar) : ℕ → ℕ × ℕ → ParserM (ℕ × ℕ)
  | rounds, chain => do
    if ← skipPunctuator "\x7d" then return chain
    else
      match rounds with
      | 0 => return chain
      | rounds + 1 =>
        if isAtEnd (← get) then return chain
        else if ← skipPunctuator ";" then
          let empty ← allocNode 48 0 0 0 0
          let chain ← linkSiblings chain empty
          parseItems S rounds chain
        else
          let p ← get
          let item ← parseOrAdvance
            (if p.isTypeSpecifier || isStorageClassSpecifier p then S.declaration else S.statement)
          let chain ← linkSiblings chain item
          if (← get).current = p.current then advance
          parseItems S rounds chain

/-- Behind the opening brace. -/
def parseCompoundStatement (S : Grammar) : ParserM ℕ := do
  let items ← parseItems S 10000 (0, 0)
  allocNode 40 0 0 items.1 0

end Blocks

section Assembly

structure AsmOperand where
  constraint : String
  exprOffset : ℕ
  isOutput : Bool
  isReadwrite : Bool
  deriving DecidableEq, Repr

structure AsmOperands where
  outputs : List AsmOperand
  inputs : List AsmOperand
  clobbers : List String
  gotoLabels : List String
  deriving DecidableEq, Repr

/-- `strip_prefix(c).unwrap_or(s)` -/
def stripFirst (c : Char) (s : String) : String :=
  if s.toList.head? = some c then String.ofList s.toList.tail else s

def parseSingleAsmOperand (S : Grammar) (isOutput : Bool) : ParserM AsmOperand := do
  let t := (← get).currentToken
  if t.kind = .stringLiteral then
    advance
    expect "("
    let expr ← S.assignmentExpression
    expect ")"
    let isReadwrite := t.text.toList.head? == some '+'
    return ⟨if isOutput && !isReadwrite then stripFirst '=' t.text
      else if isReadwrite then stripFirst '+' t.text else t.text, expr, isOutput, isReadwrite⟩
  else throwParse "Expected constraint string in asm operand"

/-- One operand of the section, if there is one. -/
def parseAsmOperand (S : Grammar) (section_ : ℕ) (ops : AsmOperands) :
    ParserM (Option AsmOperands) := do
  let t := (← get).currentToken
  match section_ with
  -- nothing is taken in front of the first colon
  | 0 => return some ops
  | 1 =>
    if t.kind = .stringLiteral then
      let operand ← parseSingleAsmOperand S true
      return some { ops with outputs := ops.outputs ++ [operand] }
    else return none
  | 2 =>
    if t.kind = .stringLiteral then
      let operand ← parseSingleAsmOperand S false
      return some { ops with inputs := ops.inputs ++ [operand] }
    else return none
  | 3 =>
    if t.kind = .stringLiteral then
      advance
      return some { ops with clobbers := ops.clobbers ++ [t.text] }
    else return none
  | 4 =>
    if t.kind = .identifier || Parser.isPunct t "&&" then
      if t.text = "&&" then advance
      let label := (← get).currentToken
      if label.kind = .identifier then
        advance
        return some { ops with gotoLabels := ops.gotoLabels ++ [label.text] }
      else return some ops
    else return none
  | _ => return none

/-- The loop of `parse_asm_operands`. -/
def parseAsmOperands (S : Grammar) : ℕ → ℕ → AsmOperands → ParserM AsmOperands
  | 0, _, _ => throw .outOfFuel
  | fuel + 1, section_, ops => do
    if Parser.isPunct (← get).currentToken ")" then return ops
    else
      let colon ← skipPunctuator ":"
      let section_ := if colon then section_ + 1 else section_
      let t := (← get).currentToken
      if colon && (Parser.isPunct t ":" || Parser.isPunct t ")") then
        parseAsmOperands S fuel section_ ops
      else
        match ← parseAsmOperand S section_ ops with
        | none => return ops
        | some ops =>
          let _ ← skipPunctuator ","
          parseAsmOperands S fuel section_ ops

/-- The nodes for operands, clobbers and labels: each with its kind, its text and what is below
it. -/
def linkAsmNodes : List (ℕ × String × ℕ) → ℕ × ℕ → ParserM (ℕ × ℕ)
  | [], chain => return chain
  | (kind, text, child) :: rest, chain => do
    let offset ← storeString text
    let node ← allocNode kind offset 0 child 0
    let chain ← linkSiblings chain node
    linkAsmNodes rest chain

def AsmOperands.nodes (ops : AsmOperands) : List (ℕ × String × ℕ) :=
  ops.outputs.map (fun o => (208, o.constraint, o.exprOffset)) ++
    ops.inputs.map (fun o => (209, o.constraint, o.exprOffset)) ++
    ops.clobbers.map (fun c => (210, c, 0)) ++ ops.gotoLabels.map (fun l => (211, l, 0))

/-- The field for the first child holds the template, and the one for the next sibling the
operands. -/
def parseAsmStmt (S : Grammar) (fuel : ℕ) : ParserM ℕ := do
  advance
  let t := (← get).currentToken
  let isVolatile := t.text == "volatile" || t.text == "__volatile__"
  if isVolatile then advance
  expect "("
  let template := (← get).currentToken
  if template.kind = .stringLiteral then
    advance
    let ops ← parseAsmOperands S fuel 0 ⟨[], [], [], []⟩
    expect ")"
    let _ ← skipPunctuator ";"
    let templateOffset ← storeString template.text
    let chain ← linkAsmNodes ops.nodes (0, 0)
    let flags := (if isVolatile then 1 else 0) + if ops.gotoLabels = [] then 0 else 2
    allocNode 207 flags 0 templateOffset chain.1
  else throwParse "Expected asm template string"

end Assembly

section Labels

def parseCaseLabel (S : Grammar) : ParserM ℕ := do
  expect "case"
  let expr ← S.conditionalExpression
  if Parser.isPunct (← get).currentToken "..." then
    advance
    let high ← S.conditionalExpression
    expect ":"
    allocNode 54 high 0 expr 0
  else
    expect ":"
    allocNode 52 0 0 expr 0

def parseDefaultLabel : ParserM ℕ := do
  expect "default"
  expect ":"
  allocNode 53 0 0 0 0

/-- `name :` with the statement behind it. -/
def parseLabeledStatement (S : Grammar) (name : String) : ParserM ℕ := do
  advance
  advance
  let label ← storeString name
  let stmt ← S.statement
  allocNode 51 label 0 stmt 0

/-- The rest of a local label declaration is passed over. -/
def skipToSemicolon : ℕ → ParserM Unit
  | 0 => throw .outOfFuel
  | fuel + 1 => do
    if ← skipPunctuator ";" then return
    else if isAtEnd (← get) then return
    else
      advance
      skipToSemicolon fuel

end Labels

section Statements

def parseIfStatement (S : Grammar) : ParserM ℕ := do
  expect "if"
  expect "("
  let condition ← S.expression
  expect ")"
  let thenStmt ← S.statement
  let t := (← get).currentToken
  let elseStmt ←
    if Parser.isWord t && t.text == "else" then do
      advance
      S.statement
    else pure 0
  let bodyWrap ← allocNode 0 0 0 thenStmt elseStmt
  let condWrap ← allocNode 0 0 0 condition bodyWrap
  allocNode 41 0 0 condWrap 0

def parseWhileStatement (S : Grammar) : ParserM ℕ := do
  expect "while"
  expect "("
  let condition ← S.expression
  expect ")"
  let body ← S.statement
  let condWrap ← allocNode 0 0 0 condition body
  allocNode 42 0 0 condWrap 0

def parseForInit (S : Grammar) : ParserM ℕ := do
  if (← get).isTypeSpecifier then S.declaration
  else if ← skipPunctuator ";" then allocNode 48 0 0 0 0
  else
    let expr ← S.expression
    let _ ← skipPunctuator ";"
    return expr

/-- Without a condition there is the constant 1. -/
def parseForCondition (S : Grammar) : ParserM ℕ := do
  if ← skipPunctuator ";" then allocNode 61 1 0 0 0
  else
    let expr ← S.expression
    let _ ← skipPunctuator ";"
    return expr

def parseForIncrement (S : Grammar) : ParserM ℕ := do
  if ← skipPunctuator ")" then return 0
  else
    let expr ← S.expression
    let _ ← skipPunctuator ")"
    return expr

def parseForStatement (S : Grammar) : ParserM ℕ := do
  expect "for"
  expect "("
  let init ← parseForInit S
  let condition ← parseForCondition S
  let increment ← parseForIncrement S
  let body ← S.statement
  let incrWrap ← allocNode 0 0 0 increment body
  let condWrap ← allocNode 0 0 0 condition incrWrap
  let initWrap ← allocNode 0 0 0 init condWrap
  allocNode 43 0 0 initWrap 0

def parseDoStatement (S : Grammar) : ParserM ℕ := do
  expect "do"
  let body ← S.statement
  expect "while"
  expect "("
  let condition ← S.expression
  expect ")"
  let _ ← skipPunctuator ";"
  setNextSibling body condition
  allocNode 42 1 0 body 0

def parseSwitchStatement (S : Grammar) : ParserM ℕ := do
  expect "switch"
  expect "("
  let condition ← S.expression
  expect ")"
  let body ← S.statement
  let condWrap ← allocNode 0 0 0 condition body
  allocNode 50 0 0 condWrap 0

def parseGotoStatement (S : Grammar) : ParserM ℕ := do
  expect "goto"
  let t := (← get).currentToken
  if t.text = "*" then
    advance
    let expr ← S.expression
    let _ ← skipPunctuator ";"
    allocNode 49 0 0 expr 0
  else if t.kind = .identifier then
    advance
    let _ ← skipPunctuator ";"
    let label ← storeString t.text
    allocNode 49 label 0 0 0
  else
    let _ ← skipPunctuator ";"
    allocNode 49 0 0 0 0

/-- An expression up to its ";", or the ";" alone, below a node of the kind. -/
def parseOptionalExpression (S : Grammar) (kind : ℕ) : ParserM ℕ := do
  if ← skipPunctuator ";" then allocNode kind 0 0 0 0
  else
    let expr ← S.expression
    let _ ← skipPunctuator ";"
    allocNode kind 0 0 expr 0

def parseReturnStatement (S : Grammar) : ParserM ℕ := do
  expect "return"
  parseOptionalExpression S 44

def parseExpressionStatement (S : Grammar) : ParserM ℕ := parseOptionalExpression S 45

/-- `break` and `continue`, which have no operands. -/
def parseJump (kind : ℕ) : ParserM ℕ := do
  advance
  let _ ← skipPunctuator ";"
  allocNode kind 0 0 0 0

/-- A statement that begins with a word that is no keyword of a statement. -/
def parsePlainStatement (S : Grammar) : ParserM ℕ := do
  let p ← get
  if p.currentToken.kind = .identifier && (p.peekToken 1).any (Parser.isPunct · ":") then
    parseLabeledStatement S p.currentToken.text
  else parseExpressionStatement S

def parseStatement (S : Grammar) (fuel : ℕ) : ParserM ℕ := do
  let p ← get
  let t := p.currentToken
  if Parser.isPunct t "\x7b" then
    advance
    parseCompoundStatement S
  else if p.isAttribute then
    advance
    ignoreError (parseAttributeList S fuel)
    let _ ← skipPunctuator ";"
    allocNode 48 0 0 0 0
  else if Parser.isWord t then
    match t.text with
    | "if" => parseIfStatement S
    | "while" => parseWhileStatement S
    | "for" => parseForStatement S
    | "return" => parseReturnStatement S
    | "break" => parseJump 46
    | "continue" => parseJump 47
    | "switch" => parseSwitchStatement S
    | "goto" => parseGotoStatement S
    | "do" => parseDoStatement S
    | "case" => parseCaseLabel S
    | "default" => parseDefaultLabel
    | "__extension__" => do
      advance
      S.statement
    | "__label__" => do
      advance
      skipToSemicolon fuel
      allocNode 48 0 0 0 0
    | "asm" | "__asm__" | "__asm" => parseAsmStmt S fuel
    | _ => parsePlainStatement S
  else parsePlainStatement S

end Statements

end Grammar

end OpticC
