import OpticC.Arena
import Mathlib.Data.Int.Notation

/-! The parser's state and its elementary operations: looking at the current
token, advancing, expecting, allocating and linking nodes. -/

namespace OpticC

inductive TokenKind where
  | keyword | identifier | intConstant | floatConstant | charConstant | stringLiteral
  | punctuator | eof
  deriving DecidableEq, Repr

structure Token where
  kind : TokenKind
  text : String
  line : ℕ
  column : ℕ
  file : String
  deriving DecidableEq, Repr

instance : Inhabited Token := ⟨⟨.eof, "", 0, 0, ""⟩⟩

structure ParseError where
  message : String
  line : ℕ
  column : ℕ
  deriving DecidableEq, Repr

/-- `typedef_names`, `typedef_kinds` and `constant_ints` as lookup functions. -/
structure Parser where
  arena : Arena
  tokens : List Token
  current : ℕ
  typedefNames : String → Bool
  typedefKinds : String → Option (ℕ × ℕ)
  constantInts : String → Option ℤ

/-- A call returns a `ParseError`, or the bound on the depth of the calls is used up. -/
inductive Fault where
  | outOfFuel
  | parse (e : ParseError)
  deriving DecidableEq, Repr

/-- The state survives an error, as `&mut self` does. -/
abbrev ParserM := EStateM Fault Parser

theorem modifyGet_run {α : Type} (f : Parser → α × Parser) (p : Parser) :
    (modifyGet f : ParserM α) p = .ok (f p).1 (f p).2 := rfl

theorem modify_run (f : Parser → Parser) (p : Parser) : (modify f : ParserM Unit) p = .ok () (f p) := rfl

namespace Parser

def currentToken (p : Parser) : Token :=
  p.tokens[p.current]?.getD (p.tokens.getLast?.getD default)

def peekToken (p : Parser) (offset : ℕ) : Option Token := p.tokens[p.current + offset]?

def isPunct (t : Token) (text : String) : Bool := t.kind == .punctuator && t.text == text

def isWord (t : Token) : Bool := t.kind == .keyword || t.kind == .identifier

def isTypeSpecifier (p : Parser) : Bool :=
  let t := p.currentToken
  isWord t &&
    (["void", "char", "int", "float", "double", "short", "long", "signed", "unsigned", "struct",
      "union", "enum", "_Bool", "_Complex", "_Imaginary", "typeof", "__typeof__", "__signed__",
      "__signed", "__builtin_va_list", "__gnuc_va_list", "va_list", "__int128", "__int128_t",
      "__uint128_t"].contains t.text ||
      (t.kind == .identifier && p.typedefNames t.text))

def isTypeQualifier (p : Parser) : Bool :=
  let t := p.currentToken
  isWord t &&
    ["const", "restrict", "volatile", "__const", "__const__", "__restrict", "__restrict__",
      "__volatile", "__volatile__", "_Atomic"].contains t.text

end Parser

def advance : ParserM Unit :=
  modify fun p => if p.current < p.tokens.length then { p with current := p.current + 1 } else p

def expect (text : String) : ParserM Unit := do
  let t := (← get).currentToken
  if t.text = text then advance
  else throw (.parse ⟨"Expected '" ++ text ++ "' but found '" ++ t.text ++ "'", t.line, t.column⟩)

def skipPunctuator (text : String) : ParserM Bool := do
  if Parser.isPunct (← get).currentToken text then
    advance
    return true
  else
    return false

/-- `alloc_node`; a full arena gives `NULL`. -/
def allocNode (kind data parent firstChild nextSibling : ℕ) : ParserM ℕ :=
  modifyGet fun p =>
    match p.arena.alloc ⟨kind, true, parent, firstChild, nextSibling, data⟩ with
    | some (offset, arena) => (offset, { p with arena })
    | none => (0, p)

/-- `self.arena.store_string(s).unwrap_or(NodeOffset::NULL)` -/
def storeString (s : String) : ParserM ℕ :=
  modifyGet fun p =>
    match p.arena.storeString s with
    | some (offset, arena) => (offset, { p with arena })
    | none => (0, p)

def setNextSibling (offset next : ℕ) : ParserM Unit :=
  modify fun p => { p with arena := p.arena.modify offset fun n => { n with nextSibling := next } }

/-- The walk `loop { ns = next_sibling; if ns == NULL { break } .. }` to the end of a chain. -/
def lastSibling (a : Arena) : ℕ → ℕ → Option ℕ
  | 0, _ => none
  | fuel + 1, offset =>
    match a.get offset with
    | none => some offset
    | some n => if n.nextSibling = 0 then some offset else lastSibling a fuel n.nextSibling

/-- `next` becomes the last sibling of the chain that starts at `offset`. -/
def appendSibling (fuel offset next : ℕ) : ParserM Unit := do
  match lastSibling (← get).arena fuel offset with
  | none => throw .outOfFuel
  | some last => setNextSibling last next

/-- `link_siblings` on the pair `(first, last)`. -/
def linkSiblings (chain : ℕ × ℕ) (node : ℕ) : ParserM (ℕ × ℕ) := do
  if node = 0 then return chain
  else if chain.1 = 0 then return (node, node)
  else
    setNextSibling chain.2 node
    return (chain.1, node)

end OpticC
