import OpticC.Frontend.Parser

/-! The expression productions of the parser. Every call spends one unit of
`fuel`; the productions for types, declarators, initializers and the GNU forms,
which expressions only call, are the fields of `Productions`. -/

namespace OpticC

/-- The productions outside the expression grammar. -/
structure Productions where
  declarationSpecifiers : ParserM ℕ
  declarator : ParserM ℕ
  initializer : ParserM ℕ
  statementExpr : ParserM ℕ
  typeofExpr : ParserM ℕ
  extensionWrapper : ParserM ℕ
  labelAddr : ParserM ℕ
  builtinCall : String → ParserM ℕ

def textBytes (s : String) : List UInt8 := s.toByteArray.data.toList

/-- `char::to_digit` on the bytes of a numeral. -/
def digitValue (radix : ℕ) (b : UInt8) : Option ℕ :=
  let c := b.toNat
  let v := if 48 ≤ c ∧ c ≤ 57 then c - 48
    else if 97 ≤ c ∧ c ≤ 122 then c - 87
    else if 65 ≤ c ∧ c ≤ 90 then c - 55
    else radix
  if v < radix then some v else none

/-- `u32::from_str_radix`: a sign `+` is taken, and a value of 2^32 or more is an error. -/
def u32FromStrRadix (radix : ℕ) (bytes : List UInt8) : Option ℕ :=
  let digits : List UInt8 → Option ℕ := fun l =>
    l.foldlM (fun acc b => (digitValue radix b).bind fun d =>
      if acc * radix + d < 2 ^ 32 then some (acc * radix + d) else none) 0
  match bytes with
  | [] => none
  | [b] => if b = 43 then none else digits [b]
  | b :: rest => digits (if b = 43 then rest else b :: rest)

/-- The value of an integer constant as `parse_primary_expression` computes it. -/
def intConstantValue (text : String) : ℕ :=
  let bytes := ((textBytes text).reverse.dropWhile fun b =>
    b == 117 || b == 85 || b == 108 || b == 76).reverse
  match bytes with
  | 48 :: 120 :: hex => (u32FromStrRadix 16 hex).getD 0
  | 48 :: 88 :: hex => (u32FromStrRadix 16 hex).getD 0
  | 48 :: d :: rest => (u32FromStrRadix 8 (d :: rest)).getD 0
  | _ => (u32FromStrRadix 10 bytes).getD 0

/-- The text between the quotes, when both are there. -/
def stripQuotes (quote : UInt8) (bytes : List UInt8) : Option (List UInt8) :=
  if bytes.length ≥ 2 ∧ bytes.head? = some quote ∧ bytes.getLast? = some quote then
    some (bytes.drop 1).dropLast
  else none

/-- The value of a character constant as `parse_primary_expression` computes it. -/
def charConstantValue (text : String) : ℕ :=
  match stripQuotes 39 (textBytes text) with
  | none => 0
  | some inner =>
    match inner with
    | 92 :: 110 :: _ => 10
    | 92 :: 116 :: _ => 9
    | 92 :: 114 :: _ => 13
    | 92 :: 48 :: _ => 0
    | 92 :: 92 :: _ => 92
    | 92 :: 39 :: _ => 39
    | 92 :: 34 :: _ => 34
    | 92 :: 97 :: _ => 7
    | 92 :: 98 :: _ => 8
    | 92 :: 102 :: _ => 12
    | 92 :: 118 :: _ => 11
    | 92 :: 120 :: hex => (u32FromStrRadix 16 hex).getD 0
    | 92 :: c :: _ => c.toNat
    | c :: _ => c.toNat
    | [] => 0

/-- The escapes both literal loops know; the loop for the first literal also knows
those of `firstEscapes`. -/
def commonEscapes (c : Char) : Option Char :=
  match c with
  | 'n' => some '\n' | 't' => some '\t' | 'r' => some '\r' | '0' => some '\x00'
  | '\\' => some '\\' | '\'' => some '\'' | '"' => some '"'
  | _ => none

def firstEscapes (c : Char) : Option Char :=
  match c with
  | 'a' => some '\x07' | 'b' => some '\x08' | 'f' => some '\x0C' | 'v' => some '\x0B'
  | c => commonEscapes c

def unescape (escapes : Char → Option Char) : List Char → List Char
  | [] => []
  | ['\\'] => ['\\']
  | '\\' :: c :: rest =>
    match escapes c with
    | some e => e :: unescape escapes rest
    | none => '\\' :: c :: unescape escapes rest
  | c :: rest => c :: unescape escapes rest

def quoted (text : String) : Bool :=
  2 ≤ text.utf8ByteSize && text.toList.head? == some '"' && text.toList.getLast? == some '"'

def firstLiteral (text : String) : List Char :=
  if quoted text then unescape firstEscapes (text.toList.drop 1).dropLast else text.toList

def nextLiteral (text : String) : List Char :=
  unescape commonEscapes (if quoted text then (text.toList.drop 1).dropLast else text.toList)

/-- `get_binary_operator`: precedence and operator code, `(0, 0)` when there is none. -/
def binaryOperator (t : Token) : ℕ × ℕ :=
  if t.kind ≠ .punctuator then (0, 0)
  else match t.text with
    | "||" => (1, 13)
    | "&&" => (2, 12)
    | "|" => (3, 15)
    | "^" => (4, 16)
    | "&" => (5, 14)
    | "==" => (6, 6)
    | "!=" => (6, 7)
    | "<" => (7, 8)
    | ">" => (7, 9)
    | "<=" => (7, 10)
    | ">=" => (7, 11)
    | "<<" => (8, 17)
    | ">>" => (8, 18)
    | "+" => (9, 1)
    | "-" => (9, 2)
    | "*" => (10, 3)
    | "/" => (10, 4)
    | "%" => (10, 5)
    | _ => (0, 0)

/-- The operator code of an assignment operator. -/
def assignmentOperator (t : Token) : Option ℕ :=
  if t.kind ≠ .punctuator then none
  else match t.text with
    | "=" => some 19
    | "+=" => some 1
    | "-=" => some 2
    | "*=" => some 3
    | "/=" => some 4
    | "%=" => some 5
    | "&=" => some 14
    | "^=" => some 16
    | "|=" => some 15
    | ">>=" => some 18
    | "<<=" => some 17
    | _ => none

/-- The code of a prefix operator, and whether its operand is a cast expression. -/
def prefixOperator (t : Token) : Option (ℕ × Bool) :=
  if t.kind ≠ .punctuator then none
  else match t.text with
    | "++" => some (6, false)
    | "--" => some (7, false)
    | "+" => some (0, false)
    | "-" => some (1, false)
    | "!" => some (2, true)
    | "~" => some (3, true)
    | "&" => some (4, true)
    | "*" => some (5, true)
    | _ => none

/-- The adjacent string literals that follow the first one. -/
def parseAdjacentLiterals : ℕ → List Char → ParserM (List Char)
  | 0, _ => throw .outOfFuel
  | fuel + 1, acc => do
    let p ← get
    match p.tokens[p.current]? with
    | some t =>
      if t.kind = .stringLiteral then
        advance
        parseAdjacentLiterals fuel (acc ++ nextLiteral t.text)
      else return acc
    | none => return acc

mutual

def parseExpression (G : Productions) : ℕ → ParserM ℕ
  | 0 => throw .outOfFuel
  | fuel + 1 => parseCommaExpression G fuel

def parseCommaExpression (G : Productions) : ℕ → ParserM ℕ
  | 0 => throw .outOfFuel
  | fuel + 1 => do
    let left ← parseAssignmentExpression G fuel
    if ← skipPunctuator "," then
      let right ← parseCommaExpression G fuel
      allocNode 72 0 0 left right
    else return left

def parseAssignmentExpression (G : Productions) : ℕ → ParserM ℕ
  | 0 => throw .outOfFuel
  | fuel + 1 => do
    let left ← parseConditionalExpression G fuel
    match assignmentOperator (← get).currentToken with
    | some opCode =>
      advance
      let right ← parseAssignmentExpression G fuel
      allocNode 73 opCode 0 left right
    | none => return left

def parseConditionalExpression (G : Productions) : ℕ → ParserM ℕ
  | 0 => throw .outOfFuel
  | fuel + 1 => do
    let condition ← parseBinaryOp G fuel 0
    if ← skipPunctuator "?" then
      let thenExpr ← parseExpression G fuel
      expect ":"
      let elseExpr ← parseConditionalExpression G fuel
      let elseNode ← allocNode 0 0 0 thenExpr elseExpr
      allocNode 66 0 0 condition elseNode
    else return condition

def parseBinaryOp (G : Productions) : ℕ → ℕ → ParserM ℕ
  | 0, _ => throw .outOfFuel
  | fuel + 1, precedence => do
    let left ← parseCastExpression G fuel
    parseBinaryOpLoop G fuel precedence left

/-- The loop of `parse_binary_op` with the tree built so far. -/
def parseBinaryOpLoop (G : Productions) : ℕ → ℕ → ℕ → ParserM ℕ
  | 0, _, _ => throw .outOfFuel
  | fuel + 1, precedence, left => do
    let (opPrec, opCode) := binaryOperator (← get).currentToken
    if opPrec = 0 ∨ opPrec ≤ precedence then return left
    else
      advance
      let right ← parseBinaryOp G fuel (opPrec - 1)
      let operands ← allocNode 0 0 0 left right
      let node ← allocNode 64 opCode 0 operands 0
      parseBinaryOpLoop G fuel precedence node

def parseUnaryExpression (G : Productions) : ℕ → ParserM ℕ
  | 0 => throw .outOfFuel
  | fuel + 1 => do
    let t := (← get).currentToken
    if t.kind = .keyword ∧ t.text = "sizeof" then parseSizeofExpression G fuel
    else
      match prefixOperator t with
      | some (code, castOperand) =>
        advance
        let operand ← if castOperand then parseCastExpression G fuel else parseUnaryExpression G fuel
        allocNode 65 code 0 operand 0
      | none => parsePostfixExpression G fuel

def parseSizeofExpression (G : Productions) : ℕ → ParserM ℕ
  | 0 => throw .outOfFuel
  | fuel + 1 => do
    advance
    if ← skipPunctuator "(" then
      if (← get).isTypeSpecifier then
        let specifiers ← G.declarationSpecifiers
        expect ")"
        allocNode 71 0 0 specifiers 0
      else
        let expr ← parseExpression G fuel
        expect ")"
        allocNode 71 1 0 expr 0
    else
      let operand ← parseUnaryExpression G fuel
      allocNode 71 1 0 operand 0

def parseCastExpression (G : Productions) : ℕ → ParserM ℕ
  | 0 => throw .outOfFuel
  | fuel + 1 => do
    if ← skipPunctuator "(" then
      let p ← get
      if p.isTypeSpecifier || p.isTypeQualifier then
        let castType ← G.declarationSpecifiers
        if (← get).currentToken.text = "*" then
          let ptrDecl ← G.declarator
          if ptrDecl ≠ 0 then appendSibling fuel castType ptrDecl
        if ← skipPunctuator ")" then
          if Parser.isPunct (← get).currentToken "\x7b" then
            let initList ← G.initializer
            allocNode 212 initList 0 castType 0
          else
            let expr ← parseCastExpression G fuel
            appendSibling fuel castType expr
            allocNode 70 0 0 castType 0
        else
          -- a type name without its ")" is read on as an expression
          let expr ← parseExpression G fuel
          expect ")"
          return expr
      else
        let expr ← parseExpression G fuel
        expect ")"
        return expr
    else parseUnaryExpression G fuel

def parsePostfixExpression (G : Productions) : ℕ → ParserM ℕ
  | 0 => throw .outOfFuel
  | fuel + 1 => do
    let expr ← parsePrimaryExpression G fuel
    parsePostfixLoop G fuel expr

/-- The loop of `parse_postfix_expression` with the operand built so far. -/
def parsePostfixLoop (G : Productions) : ℕ → ℕ → ParserM ℕ
  | 0, _ => throw .outOfFuel
  | fuel + 1, expr => do
    if ← skipPunctuator "[" then
      let index ← parseExpression G fuel
      expect "]"
      let node ← allocNode 68 0 0 expr index
      parsePostfixLoop G fuel node
    else if ← skipPunctuator "(" then
      let args ← parseArgumentExpressionList G fuel
      expect ")"
      if args ≠ 0 then setNextSibling expr args
      let node ← allocNode 67 0 0 expr 0
      parsePostfixLoop G fuel node
    else if ← skipPunctuator "." then
      let t := (← get).currentToken
      if t.kind = .identifier then
        advance
        let member ← storeString t.text
        let node ← allocNode 69 member 0 expr 0
        parsePostfixLoop G fuel node
      else parsePostfixLoop G fuel expr
    else if ← skipPunctuator "->" then
      let t := (← get).currentToken
      if t.kind = .identifier then
        advance
        let member ← storeString t.text
        let node ← allocNode 69 (member ||| 2 ^ 31) 0 expr 0
        parsePostfixLoop G fuel node
      else parsePostfixLoop G fuel expr
    else if ← skipPunctuator "++" then
      let node ← allocNode 65 6 0 expr 0
      parsePostfixLoop G fuel node
    else if ← skipPunctuator "--" then
      let node ← allocNode 65 7 0 expr 0
      parsePostfixLoop G fuel node
    else return expr

def parseArgumentExpressionList (G : Productions) : ℕ → ParserM ℕ
  | 0 => throw .outOfFuel
  | fuel + 1 => do
    if (← get).currentToken.text ≠ ")" then parseArgumentLoop G fuel (0, 0)
    else return 0

/-- The loop of `parse_argument_expression_list` with its pair `(first_arg, last_arg)`. -/
def parseArgumentLoop (G : Productions) : ℕ → ℕ × ℕ → ParserM ℕ
  | 0, _ => throw .outOfFuel
  | fuel + 1, chain => do
    let arg ← parseAssignmentExpression G fuel
    let wrapper ← allocNode 74 0 0 arg 0
    let chain ← linkSiblings chain wrapper
    if (← get).currentToken.text = ")" then return chain.1
    else if ← skipPunctuator "," then parseArgumentLoop G fuel chain
    else return chain.1

def parsePrimaryExpression (G : Productions) : ℕ → ParserM ℕ
  | 0 => throw .outOfFuel
  | fuel + 1 => do
    let p ← get
    let t := p.currentToken
    if Parser.isPunct t "(" && (p.peekToken 1).any (Parser.isPunct · "\x7b") then G.statementExpr
    else if Parser.isWord t && (t.text == "typeof" || t.text == "__typeof__") then G.typeofExpr
    else if Parser.isWord t && t.text == "__extension__" then G.extensionWrapper
    else if Parser.isWord t && "__builtin_".isPrefixOf t.text then
      advance
      G.builtinCall t.text
    else if Parser.isPunct t "&" && (p.peekToken 1).any (Parser.isPunct · "&") then G.labelAddr
    else
      match t.kind with
      | .identifier =>
        advance
        let name ← storeString t.text
        allocNode 60 name 0 0 0
      | .intConstant =>
        advance
        allocNode 61 (intConstantValue t.text) 0 0 0
      | .charConstant =>
        advance
        allocNode 62 (charConstantValue t.text) 0 0 0
      | .stringLiteral =>
        advance
        let chars ← parseAdjacentLiterals fuel (firstLiteral t.text)
        let text ← storeString (String.ofList chars)
        allocNode 63 text 0 0 0
      | .punctuator =>
        if t.text = "(" then
          advance
          let expr ← parseExpression G fuel
          expect ")"
          return expr
        else return 0
      | _ => return 0

end

end OpticC
