import OpticC.Frontend.MacroExpander
import OpticC.Frontend.Tokenizer

/-! The lexer of `macro_expander.rs`. Its cursor counts characters; the length it is compared with
and the offsets of the tokens count bytes. -/

namespace OpticC.Expander

open Preprocessor (CharClasses isIdentifierChar)

/-- `char::is_whitespace` -/
def isWhitespace (c : Char) : Bool :=
  (0x9 ≤ c.toNat && c.toNat ≤ 0xD) || (0x2000 ≤ c.toNat && c.toNat ≤ 0x200A) ||
    [0x20, 0x85, 0xA0, 0x1680, 0x2028, 0x2029, 0x202F, 0x205F, 0x3000].contains c.toNat

def punctuators : List (List Char) :=
  [['=', '='], ['!', '='], ['<', '='], ['>', '='], ['&', '&'], ['|', '|'], ['<', '<'], ['>', '>'],
    ['-', '>'], ['+', '+'], ['-', '-'], ['+', '='], ['-', '='], ['*', '='], ['/', '='], ['+', '+'],
    ['-', '-']]

structure Lexer where
  offset : ℕ
  line : ℕ
  column : ℕ

namespace Lexer

variable (classes : CharClasses) (source : List Char) (l : Lexer)

def new : Lexer := ⟨0, 1, 1⟩

/-- `self.source.chars().nth(self.offset as usize)` -/
def currentChar : Char := source[l.offset]?.getD '\x00'

def peekChar : Option Char := source[l.offset + 1]?

def advance : Lexer := { l with offset := l.offset + 1, column := l.column + 1 }

def newline : Lexer := ⟨l.offset + 1, l.line + 1, 1⟩

def makeToken (kind : TokenKind) : Token := ⟨kind, l.offset, 1, l.line, l.column⟩

@[simp] theorem advance_offset : l.advance.offset = l.offset + 1 := rfl

@[simp] theorem newline_offset : l.newline.offset = l.offset + 1 := rfl

@[simp] theorem makeToken_offset (kind : TokenKind) : (l.makeToken kind).offset = l.offset := rfl

def advanceBy : ℕ → Lexer → Lexer
  | 0, l => l
  | n + 1, l => advanceBy n l.advance

@[simp] theorem advanceBy_offset (n : ℕ) (l : Lexer) : (advanceBy n l).offset = l.offset + n := by
  induction n generalizing l with
  | zero => rfl
  | succ n ih =>
    rw [advanceBy, ih, advance_offset]
    omega

/-- The characters of a number. -/
def isNumberChar (c : Char) : Bool :=
  classes.isNumeric c || c == '.' || c == 'e' || c == 'E' || c == 'x' || c == 'X'

/-- The loop of an identifier or a number. -/
def scanWhile (p : Char → Bool) (l : Lexer) : Lexer :=
  if l.offset < len32 source ∧ p (l.currentChar source) then scanWhile p l.advance else l
termination_by len32 source - l.offset
decreasing_by
  simp only [advance_offset]
  omega

/-- The loop of a literal behind its opening quote. -/
def scanLiteral (l : Lexer) : Lexer :=
  if l.offset < len32 source ∧ l.currentChar source ≠ '"' then
    if l.currentChar source = '\\' ∧ l.peekChar source = some '"' then scanLiteral l.advance.advance
    else scanLiteral l.advance
  else l
termination_by len32 source - l.offset
decreasing_by
  · simp only [advance_offset]
    omega
  · simp only [advance_offset]
    omega

/-- The token between two positions of the cursor. -/
def tokenTo (kind : TokenKind) (l' : Lexer) : Token :=
  ⟨kind, l.offset, l'.offset - l.offset, l'.line, l'.column⟩

/-- One round of the loop: the token pushed, if any. A slice that begins within a character is a
panic. -/
def readToken : Option (Option Token × Lexer) :=
  let c := l.currentChar source
  if c = ' ' ∨ c = '\t' ∨ c = '\r' then some (some (l.makeToken .whitespace), l.advance)
  else if c = '\n' then some (some (l.makeToken .whitespace), l.newline)
  else if c = '#' then
    if l.peekChar source = some '#' then
      some (some ⟨.hashHash, l.offset, 2, l.line, l.column⟩, l.advance.advance)
    else some (some (l.makeToken .hash), l.advance)
  else if c = '"' then
    let inside := l.advance.scanLiteral source
    let l' := if inside.currentChar source = '"' then inside.advance else inside
    some (some (l.tokenTo .stringLiteral l'), l')
  else if c.isAlpha ∨ c = '_' then
    let l' := l.scanWhile source (isIdentifierChar classes)
    some (some (l.tokenTo .identifier l'), l')
  else if c.isDigit then
    let l' := l.scanWhile source (isNumberChar classes)
    some (some (l.tokenTo .number l'), l')
  else do
    let rest ← slice source l.offset (byteLength source)
    match punctuators.find? fun punc => punc.isPrefixOf rest with
    | some punc =>
      some (some ⟨.punctuator, l.offset, punc.length, l.line, l.column⟩, advanceBy punc.length l)
    | none =>
      let l' := l.advance
      some (if isWhitespace c then none
        else some ⟨.punctuator, l'.offset - 1, 1, l'.line, l'.column - 1⟩, l')

/-- The characters between two positions of the cursor. -/
def consumed (l' : Lexer) : List Char := (source.drop l.offset).take (l'.offset - l.offset)

/-- `tokenize`, for so many rounds: the tokens, each with the characters that were consumed for it.
A cursor that does not fit a `u32` is a panic. -/
def tokenize : ℕ → Lexer → Option (List (Token × List Char))
  | 0, _ => none
  | fuel + 1, l =>
    if l.offset < len32 source then do
      let (token, l') ← l.readToken classes source
      if l'.offset < 2 ^ 32 then do
        let tokens ← tokenize fuel l'
        some (token.toList.map (fun t => (t, l.consumed source l')) ++ tokens)
      else none
    else some [(⟨.endOfFile, l.offset, 0, l.line, l.column⟩, [])]

end Lexer

end OpticC.Expander
