import OpticC.Frontend.ConstantTrees
import OpticC.Frontend.StatementExprs

/-! The productions of the parser outside of the expressions: attributes, initializers,
specifiers and declarators. A production that calls itself through others calls the fields of
`Grammar`, and a loop gets a bound on its rounds. -/

namespace OpticC

open StatementExpr (isAtEnd isStorageClassSpecifier)

/-- The productions that others call. -/
structure Grammar where
  expression : ParserM ℕ
  assignmentExpression : ParserM ℕ
  conditionalExpression : ParserM ℕ
  declarationSpecifiers : ParserM ℕ
  declarator : ParserM ℕ
  initializer : ParserM ℕ
  declaration : ParserM ℕ
  statement : ParserM ℕ

namespace Parser

def isAttribute (p : Parser) : Bool :=
  isWord p.currentToken && p.currentToken.text == "__attribute__"

def isGnuSignedKeyword (p : Parser) : Bool :=
  isWord p.currentToken && ["__signed__", "__signed"].contains p.currentToken.text

def isFunctionSpecifier (p : Parser) : Bool :=
  isWord p.currentToken &&
    ["inline", "__inline", "__inline__", "_Noreturn", "noreturn", "__noreturn__"].contains
      p.currentToken.text

def isDeclaratorStart (p : Parser) : Bool :=
  p.currentToken.kind == .identifier || isPunct p.currentToken "(" || isPunct p.currentToken "*"

/-- The tokens at which the loop of `parse_declaration_specifiers` goes on. -/
def isSpecifierAhead (p : Parser) : Bool :=
  p.currentToken.kind == .keyword ||
    p.currentToken.kind == .identifier && (p.isTypeSpecifier || p.isTypeQualifier ||
      isStorageClassSpecifier p || p.isFunctionSpecifier ||
      ["__restrict", "__restrict__", "__volatile", "__volatile__", "__const", "__const__",
        "__inline", "__inline__", "__signed__", "__signed", "_Atomic"].contains p.currentToken.text)

end Parser

/-- `let _ =`: an error is dropped. -/
def ignoreError (m : ParserM ℕ) : ParserM Unit := fun p =>
  match m p with
  | .ok _ p' => .ok () p'
  | .error .outOfFuel p' => .error .outOfFuel p'
  | .error (.parse _) p' => .ok () p'

def throwParse {α : Type} (message : String) : ParserM α := do
  let t := (← get).currentToken
  throw (.parse ⟨message, t.line, t.column⟩)

def setFirstChild (offset child : ℕ) : ParserM Unit :=
  modify fun p => { p with arena := p.arena.modify offset fun n => { n with firstChild := child } }

/-- The walk to the end of a chain of siblings, which has no more nodes than the arena. -/
def chainEnd (offset : ℕ) : ParserM ℕ := do
  let a := (← get).arena
  match lastSibling a a.nodeAllocated offset with
  | some last => return last
  | none => throw .outOfFuel

/-- `next` is linked behind the last sibling of the chain that starts at `offset`. -/
def appendAtEnd (offset next : ℕ) : ParserM Unit := do
  let last ← chainEnd offset
  setNextSibling last next

/-- `eval_constant_i64`: no path of the tree is longer than the arena. -/
def evalConstant (offset : ℕ) : ParserM (Option (BitVec 64)) := do
  let p ← get
  return Constants.evalConstantI64 p.arena p.constantInts p.arena.nodeAllocated offset

/-- `eval_constant_u32(..).unwrap_or(0)` -/
def evalConstantU32 (offset : ℕ) : ParserM ℕ := do
  match ← evalConstant offset with
  | some v => return if 0 ≤ v.toInt ∧ v.toInt < 2 ^ 32 then v.toNat else 0
  | none => return 0

namespace Grammar

section Attributes

/-- The loop over the arguments of an attribute. -/
def parseAttributeArguments (S : Grammar) : ℕ → ℕ × ℕ → ParserM (ℕ × ℕ)
  | 0, _ => throw .outOfFuel
  | fuel + 1, chain => do
    let t := (← get).currentToken
    if Parser.isPunct t ")" then return chain
    else
      let arg ←
        if t.kind = .stringLiteral then do
          advance
          let text ← storeString t.text
          allocNode 63 text 0 0 0
        else if t.kind = .intConstant then do
          advance
          allocNode 61 ((u32FromStrRadix 10 (textBytes t.text)).getD 0) 0 0 0
        else S.expression
      let chain ← linkSiblings chain arg
      if Parser.isPunct (← get).currentToken "," then
        advance
        parseAttributeArguments S fuel chain
      else return chain

/-- `Aligned` is the one kind of attribute with data, and its name alone makes it 0. -/
def parseSingleAttribute (S : Grammar) (fuel : ℕ) : ParserM ℕ := do
  let t := (← get).currentToken
  if Parser.isWord t then
    advance
    let name ← storeString t.text
    if ← skipPunctuator "(" then
      let args ← parseAttributeArguments S fuel (0, 0)
      expect ")"
      allocNode 200 0 name args.1 0
    else allocNode 200 0 name 0 0
  else throwParse "Expected attribute name"

/-- The loop of `parse_attribute_list`. -/
def parseAttributes (S : Grammar) : ℕ → ℕ × ℕ → ParserM (ℕ × ℕ)
  | 0, _ => throw .outOfFuel
  | fuel + 1, chain => do
    if Parser.isPunct (← get).currentToken ")" then return chain
    else
      let attr ← parseSingleAttribute S fuel
      let chain ← linkSiblings chain attr
      if Parser.isPunct (← get).currentToken "," then
        advance
        parseAttributes S fuel chain
      else return chain

def parseAttributeList (S : Grammar) (fuel : ℕ) : ParserM ℕ := do
  expect "("
  expect "("
  let attrs ← parseAttributes S fuel (0, 0)
  expect ")"
  expect ")"
  allocNode 200 0 0 attrs.1 0

/-- The lists of attributes from here on are linked to the chain. -/
def parseAttributeLists (S : Grammar) : ℕ → ℕ × ℕ → ParserM (ℕ × ℕ)
  | 0, _ => throw .outOfFuel
  | fuel + 1, chain => do
    if (← get).isAttribute then
      advance
      let attr ← parseAttributeList S fuel
      let chain ← linkSiblings chain attr
      parseAttributeLists S fuel chain
    else return chain

/-- What is left of the 200 rounds inside the parentheses of an assembler label. -/
def skipParentheses : ℕ → ℕ → ParserM Unit
  | 0, _ => return
  | n + 1, depth => do
    let p ← get
    if depth = 0 || isAtEnd p then return
    else if p.currentToken.text = "(" then
      advance
      skipParentheses n (depth + 1)
    else if p.currentToken.text = ")" then
      advance
      if depth = 1 then return
      else skipParentheses n (depth - 1)
    else
      advance
      skipParentheses n depth

def skipAsmLabel : ParserM Unit := do
  let t := (← get).currentToken
  if Parser.isWord t && ["__asm__", "__asm", "asm"].contains t.text then
    advance
    if ← skipPunctuator "(" then skipParentheses 200 1

end Attributes

section Initializers

def parseDesignatedInit (S : Grammar) : ParserM ℕ := do
  if ← skipPunctuator "." then
    let t := (← get).currentToken
    if t.kind = .identifier then
      advance
      let field ← storeString t.text
      expect "="
      let value ← S.initializer
      allocNode 205 field 0 value 0
    else S.initializer
  else if ← skipPunctuator "[" then
    let index ← S.conditionalExpression
    expect "]"
    expect "="
    let value ← S.initializer
    allocNode 205 1 0 index value
  else S.initializer

/-- The loop over a brace list; an element may be a chain itself. -/
def parseInitializerList (S : Grammar) : ℕ → ℕ × ℕ → ParserM (ℕ × ℕ)
  | 0, _ => throw .outOfFuel
  | fuel + 1, chain => do
    let t := (← get).currentToken
    let elem ←
      if Parser.isPunct t "." || Parser.isPunct t "[" then parseDesignatedInit S else S.initializer
    let chain ← linkSiblings chain elem
    let last ← chainEnd chain.2
    if ← skipPunctuator "\x7d" then return (chain.1, last)
    else if ← skipPunctuator "," then parseInitializerList S fuel (chain.1, last)
    else return (chain.1, last)

def parseInitializer (S : Grammar) (fuel : ℕ) : ParserM ℕ := do
  if ← skipPunctuator "\x7b" then
    let elems ← parseInitializerList S fuel (0, 0)
    return elems.1
  else S.assignmentExpression

end Initializers

section Records

/-- The loop of `parse_struct_declaration`, with the rounds that are left of 500. -/
def parseStructDeclarators (S : Grammar) (fuel : ℕ) : ℕ → ℕ × ℕ → ParserM (ℕ × ℕ)
  | rounds, chain => do
    if ← skipPunctuator ";" then return chain
    else
      match rounds with
      | 0 => return chain
      | rounds + 1 =>
        let p ← get
        if isAtEnd p then return chain
        else if Parser.isPunct p.currentToken "," then
          advance
          parseStructDeclarators S fuel rounds chain
        else if Parser.isPunct p.currentToken ":" then
          advance
          let width ← S.conditionalExpression
          let value ← evalConstantU32 width
          let bitfield ← allocNode 27 value 0 0 0
          let chain ← linkSiblings chain bitfield
          parseStructDeclarators S fuel rounds chain
        else if p.currentToken.text = "__attribute__" then
          advance
          ignoreError (parseAttributeList S fuel)
          parseStructDeclarators S fuel rounds chain
        else
          let declarator ← S.declarator
          let member ←
            if Parser.isPunct (← get).currentToken ":" then do
              advance
              let width ← S.conditionalExpression
              let value ← evalConstantU32 width
              allocNode 27 value 0 declarator 0
            else pure declarator
          let chain ← linkSiblings chain member
          if (← get).currentToken.text = "__attribute__" then
            advance
            ignoreError (parseAttributeList S fuel)
          if (← get).current = p.current then advance
          parseStructDeclarators S fuel rounds chain

def parseStructDeclaration (S : Grammar) (fuel : ℕ) : ParserM ℕ := do
  if (← get).currentToken.text = "__extension__" then advance
  let specifiers ← S.declarationSpecifiers
  let declarators ← parseStructDeclarators S fuel 500 (0, 0)
  if declarators.1 ≠ 0 then appendAtEnd specifiers declarators.1
  allocNode 25 0 0 specifiers 0

/-- The loop over the members of a record. -/
def parseMembers (S : Grammar) : ℕ → ℕ × ℕ → ParserM (ℕ × ℕ)
  | 0, _ => throw .outOfFuel
  | fuel + 1, chain => do
    if ← skipPunctuator "\x7d" then return chain
    else if isAtEnd (← get) then return chain
    else
      let member ← parseStructDeclaration S fuel
      let chain ← linkSiblings chain member
      parseMembers S fuel chain

/-- The name of a tag, when there is one. -/
def parseTag : ParserM ℕ := do
  let t := (← get).currentToken
  if t.kind = .identifier then
    advance
    storeString t.text
  else return 0

/-- A record specifier behind its keyword; `kind` tells a struct from a union. -/
def parseRecordSpecifier (S : Grammar) (fuel kind : ℕ) : ParserM ℕ := do
  let chain ← parseAttributeLists S fuel (0, 0)
  let tag ← parseTag
  let chain ← parseAttributeLists S fuel chain
  if ← skipPunctuator "\x7b" then
    let chain ← parseMembers S fuel chain
    allocNode kind tag 0 chain.1 0
  else allocNode kind tag 0 chain.1 0

def parseStructSpecifier (S : Grammar) (fuel : ℕ) : ParserM ℕ := parseRecordSpecifier S fuel 4

def parseUnionSpecifier (S : Grammar) (fuel : ℕ) : ParserM ℕ := parseRecordSpecifier S fuel 5

/-- The loop over the enumerators; `value` is `next_enum_value`. -/
def parseEnumerators (S : Grammar) : ℕ → BitVec 64 → ℕ × ℕ → ParserM (ℕ × ℕ)
  | 0, _, _ => throw .outOfFuel
  | fuel + 1, value, chain => do
    if ← skipPunctuator "\x7d" then return chain
    else
      let t := (← get).currentToken
      if t.kind = .identifier then
        advance
        let value ←
          if ← skipPunctuator "=" then do
            let expr ← S.conditionalExpression
            pure ((← evalConstant expr).getD 0)
          else pure value
        modify fun p =>
          { p with constantInts := Function.update p.constantInts t.text (some value.toInt) }
        let name ← storeString t.text
        let const ← allocNode 26 (value.toNat % 2 ^ 32) 0 0 0
        let ident ← allocNode 60 name const 0 0
        setFirstChild const ident
        let chain ← linkSiblings chain const
        if ← skipPunctuator "\x7d" then return chain
        else
          let _ ← skipPunctuator ","
          parseEnumerators S fuel (value + 1) chain
      else return chain

def parseEnumSpecifier (S : Grammar) (fuel : ℕ) : ParserM ℕ := do
  if (← get).currentToken.kind = .identifier then advance
  if ← skipPunctuator "\x7b" then
    let consts ← parseEnumerators S fuel 0 (0, 0)
    allocNode 6 0 0 consts.1 0
  else allocNode 6 0 0 0 0

end Records

section Specifiers

def parseTypeofExpr (S : Grammar) : ParserM ℕ := do
  expect "("
  if (← get).isTypeSpecifier then
    let spec ← S.declarationSpecifiers
    expect ")"
    allocNode 201 0 0 spec 0
  else
    let expr ← S.expression
    expect ")"
    allocNode 201 0 0 expr 0

def parseStorageClassSpecifier : ParserM ℕ := do
  let t := (← get).currentToken
  advance
  allocNode
    (match t.text with
      | "typedef" => 101
      | "extern" => 102
      | "static" => 103
      | "auto" => 104
      | "register" => 105
      | "_Thread_local" | "__thread" => 106
      | _ => 101) 0 0 0 0

def parseTypeQualifier : ParserM ℕ := do
  let t := (← get).currentToken
  advance
  allocNode
    (match t.text with
      | "const" => 90
      | "restrict" => 91
      | "volatile" => 92
      | _ => 90) 0 0 0 0

def parseFunctionSpecifier : ParserM ℕ := do
  let t := (← get).currentToken
  advance
  allocNode
    (match t.text with
      | "inline" | "__inline" | "__inline__" => 93
      | "_Noreturn" | "noreturn" | "__noreturn__" => 94
      | _ => 93) 0 0 0 0

/-- The kind of the node for a type specifier of one word that is no typedef name. -/
def typeWordKind (text : String) : Option ℕ :=
  match text with
  | "void" => some 1
  | "int" => some 2
  | "char" => some 3
  | "float" => some 83
  | "double" => some 84
  | "short" => some 10
  | "long" => some 11
  | "signed" | "__signed__" | "__signed" => some 12
  | "unsigned" => some 13
  | "_Bool" => some 14
  | "_Complex" => some 15
  | "__builtin_va_list" | "__gnuc_va_list" | "va_list" => some 16
  | "__int128" | "__int128_t" | "__uint128_t" => some 2
  | _ => none

def parseTypeSpecifier (S : Grammar) (fuel : ℕ) : ParserM ℕ := do
  let p ← get
  let text := p.currentToken.text
  advance
  if text = "struct" then parseStructSpecifier S fuel
  else if text = "union" then parseUnionSpecifier S fuel
  else if text = "enum" then parseEnumSpecifier S fuel
  else if text = "typeof" || text = "__typeof__" then parseTypeofExpr S
  else
    match typeWordKind text with
    | some kind => allocNode kind 0 0 0 0
    | none =>
      match p.typedefKinds text with
      | some (kind, tag) => allocNode kind (if kind = 4 ∨ kind = 5 then tag else 0) 0 0 0
      | none => allocNode 2 0 0 0 0

/-- The loop of `parse_declaration_specifiers`, with `has_type_specifier`. -/
def parseSpecifiers (S : Grammar) : ℕ → ℕ × ℕ → Bool → ParserM ((ℕ × ℕ) × Bool)
  | 0, _, _ => throw .outOfFuel
  | fuel + 1, chain, hasType => do
    let p ← get
    if p.isAttribute then
      advance
      let attr ← parseAttributeList S fuel
      let chain ← linkSiblings chain attr
      parseSpecifiers S fuel chain hasType
    else if p.currentToken.text = "__extension__" then
      advance
      parseSpecifiers S fuel chain hasType
    else if !p.isSpecifierAhead then return (chain, hasType)
    else if isStorageClassSpecifier p then
      let spec ← parseStorageClassSpecifier
      let chain ← linkSiblings chain spec
      parseSpecifiers S fuel chain hasType
    else if p.isTypeSpecifier || p.isGnuSignedKeyword then
      let spec ← parseTypeSpecifier S fuel
      let chain ← linkSiblings chain spec
      parseSpecifiers S fuel chain true
    else if p.isTypeQualifier then
      let spec ← parseTypeQualifier
      let chain ← linkSiblings chain spec
      parseSpecifiers S fuel chain hasType
    else if p.isFunctionSpecifier then
      let spec ← parseFunctionSpecifier
      let chain ← linkSiblings chain spec
      parseSpecifiers S fuel chain hasType
    else return (chain, hasType)

def parseDeclarationSpecifiers (S : Grammar) (fuel : ℕ) : ParserM ℕ := do
  let (chain, hasType) ← parseSpecifiers S fuel (0, 0) false
  if chain.1 = 0 && !hasType then throwParse "Expected type specifier"
  else return chain.1

end Specifiers

section Declarators

/-- The qualifiers behind a `*`; their nodes are not linked to anything. -/
def parsePointerQualifiers : ℕ → ParserM Unit
  | 0 => throw .outOfFuel
  | fuel + 1 => do
    if (← get).isTypeQualifier then
      let _ ← parseTypeQualifier
      parsePointerQualifiers fuel

/-- The stars of a declarator, and how many there are. -/
def parsePointers : ℕ → ℕ → ParserM ℕ
  | 0, _ => throw .outOfFuel
  | fuel + 1, depth => do
    if ← skipPunctuator "*" then
      parsePointerQualifiers fuel
      parsePointers fuel (depth + 1)
    else return depth

def parseParameterDeclaration (S : Grammar) : ParserM ℕ := do
  let p ← get
  if p.isTypeSpecifier || p.isTypeQualifier || isStorageClassSpecifier p then
    let specifiers ← S.declarationSpecifiers
    let declarator ← if (← get).isDeclaratorStart then S.declarator else pure 0
    if declarator ≠ 0 ∧ specifiers ≠ 0 then appendAtEnd specifiers declarator
    allocNode 24 0 0 specifiers 0
  else allocNode 24 0 0 0 0

/-- The loop of `parse_parameter_list`: the chain, and whether it ends with `...`. -/
def parseParameters (S : Grammar) : ℕ → ℕ × ℕ → ParserM ((ℕ × ℕ) × Bool)
  | 0, _ => throw .outOfFuel
  | fuel + 1, chain => do
    let t := (← get).currentToken
    if t.text = ")" || t.text = "\x7b" then return (chain, false)
    else
      let param ← parseParameterDeclaration S
      let chain ← linkSiblings chain param
      if (← get).currentToken.text = ")" then return (chain, false)
      else if ← skipPunctuator "," then
        if (← get).currentToken.text = "..." then
          advance
          return (chain, true)
        else parseParameters S fuel chain
      else return (chain, false)

def parseParameterList (S : Grammar) (fuel : ℕ) : ParserM (ℕ × Bool) := do
  let p ← get
  if p.currentToken.text = ")" then return (0, false)
  else if p.currentToken.text = "void" && (p.peekToken 1).any (·.text == ")") then
    advance
    return (0, false)
  else
    let (chain, isVariadic) ← parseParameters S fuel (0, 0)
    return (chain.1, isVariadic)

/-- The array and function parts behind a declarator. -/
def parseDeclaratorSuffixes (S : Grammar) : ℕ → ℕ → ParserM ℕ
  | 0, _ => throw .outOfFuel
  | fuel + 1, declarator => do
    if ← skipPunctuator "[" then
      let size ←
        if (← get).currentToken.text ≠ "]" then do
          let expr ← S.conditionalExpression
          evalConstantU32 expr
        else pure 0
      expect "]"
      let array ← allocNode 8 size 0 declarator 0
      parseDeclaratorSuffixes S fuel array
    else if ← skipPunctuator "(" then
      if (← get).currentToken.text = ")" then
        advance
        let function ← allocNode 9 0 0 declarator 0
        parseDeclaratorSuffixes S fuel function
      else
        let (params, isVariadic) ← parseParameterList S fuel
        expect ")"
        if params ≠ 0 ∧ declarator ≠ 0 then setNextSibling declarator params
        let function ← allocNode 9 (if isVariadic then 1 else 0) 0 declarator 0
        parseDeclaratorSuffixes S fuel function
    else return declarator

def parseDirectDeclarator (S : Grammar) (fuel : ℕ) : ParserM ℕ := do
  let t := (← get).currentToken
  if t.kind = .identifier then
    advance
    let name ← storeString t.text
    let declarator ← allocNode 60 name 0 0 0
    parseDeclaratorSuffixes S fuel declarator
  else if ← skipPunctuator "(" then
    let declarator ← S.declarator
    expect ")"
    parseDeclaratorSuffixes S fuel declarator
  else parseDeclaratorSuffixes S fuel 0

/-- The number of stars is the data of one node. -/
def parseDeclarator (S : Grammar) (fuel : ℕ) : ParserM ℕ := do
  let depth ← parsePointers fuel 0
  let direct ← parseDirectDeclarator S fuel
  if depth > 0 then allocNode 7 depth 0 direct 0
  else return direct

end Declarators

end Grammar

end OpticC
