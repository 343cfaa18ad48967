import OpticC.Frontend.IntegerConstants

/-! The lexer of `lexer.rs`. Its cursor is a `u32`; an addition that does not fit is a panic. -/

namespace OpticC.Lexing

inductive TokenKind
  | endOfFile
  | keyword
  | identifier
  | numericConstant
  | stringLiteral
  | punctuator
  | preprocessor
  | comment
  | whiteSpace
  deriving DecidableEq

/-- The bytes from `start` on, before `stop`. -/
structure Token where
  kind : TokenKind
  start : ℕ
  stop : ℕ
  data : ℕ
  deriving DecidableEq

structure Lexer (source : List UInt8) where
  position : ℕ
  position_lt : position < 2 ^ 32
  deriving DecidableEq

section Bytes

def isAlpha (c : UInt8) : Bool :=
  (c ≥ byteOf 'a' && c ≤ byteOf 'z') || (c ≥ byteOf 'A' && c ≤ byteOf 'Z')

def isDigit (c : UInt8) : Bool := c ≥ byteOf '0' && c ≤ byteOf '9'

def isAlnum (c : UInt8) : Bool := isAlpha c || isDigit c || c == byteOf '_'

def isHexDigit (c : UInt8) : Bool :=
  isDigit c || (c ≥ byteOf 'a' && c ≤ byteOf 'f') || (c ≥ byteOf 'A' && c ≤ byteOf 'F')

def isOctalDigit (c : UInt8) : Bool := c ≥ byteOf '0' && c ≤ byteOf '7'

def isSpace (c : UInt8) : Bool := [' ', '\t', '\r', '\n', '\x0b', '\x0c'].any fun d => c == byteOf d

def isSuffix (c : UInt8) : Bool := ['u', 'U', 'l', 'L', 'f', 'F'].any fun d => c == byteOf d

/-- The bytes of the first arm of `read_punctuator`. -/
def isPunctuator (c : UInt8) : Bool :=
  ['[', ']', '(', ')', '{', '}', '.', '&', '*', '+', '-', '~', '!', '/', '%', '<', '>', '^', '|', '?',
    ':', ';', '=', ',', '#'].any fun d => c == byteOf d

/-- The pairs of bytes that are one token. -/
def pairs : List (Char × Char) :=
  [('+', '+'), ('-', '-'), ('&', '&'), ('|', '|'), ('<', '='), ('>', '='), ('=', '='), ('!', '='),
    ('*', '='), ('/', '='), ('%', '='), ('+', '='), ('-', '='), ('&', '='), ('^', '='), ('|', '='),
    ('#', '#')]

def isPair (c next : UInt8) : Bool := pairs.any fun pair => c == byteOf pair.1 && next == byteOf pair.2

/-! The classes by codes. -/

variable {b : UInt8}

theorem eq_byteOf_iff {c : Char} (hc : c.toNat < 128) : b = byteOf c ↔ b.toNat = c.toNat := by
  rw [← UInt8.toNat_inj, byteOf_toNat hc]

theorem digit_iff : isDigit b = true ↔ 48 ≤ b.toNat ∧ b.toNat ≤ 57 := by
  simp only [isDigit, Bool.and_eq_true, decide_eq_true_eq, ge_iff_le, UInt8.le_iff_toNat_le]
  exact Iff.rfl

theorem alpha_iff : isAlpha b = true ↔ (97 ≤ b.toNat ∧ b.toNat ≤ 122) ∨ (65 ≤ b.toNat ∧ b.toNat ≤ 90) := by
  simp only [isAlpha, Bool.or_eq_true, Bool.and_eq_true, decide_eq_true_eq, ge_iff_le, UInt8.le_iff_toNat_le]
  exact Iff.rfl

theorem octalDigit_iff : isOctalDigit b = true ↔ 48 ≤ b.toNat ∧ b.toNat ≤ 55 := by
  simp only [isOctalDigit, Bool.and_eq_true, decide_eq_true_eq, ge_iff_le, UInt8.le_iff_toNat_le]
  exact Iff.rfl

theorem hexDigit_iff : isHexDigit b = true ↔ (48 ≤ b.toNat ∧ b.toNat ≤ 57) ∨
    (97 ≤ b.toNat ∧ b.toNat ≤ 102) ∨ (65 ≤ b.toNat ∧ b.toNat ≤ 70) := by
  simp only [isHexDigit, Bool.or_eq_true, Bool.and_eq_true, decide_eq_true_eq, ge_iff_le,
    UInt8.le_iff_toNat_le, digit_iff, or_assoc]
  exact Iff.rfl

theorem alnum_iff : isAlnum b = true ↔ ((97 ≤ b.toNat ∧ b.toNat ≤ 122) ∨ (65 ≤ b.toNat ∧ b.toNat ≤ 90)) ∨
    (48 ≤ b.toNat ∧ b.toNat ≤ 57) ∨ b.toNat = 95 := by
  simp only [isAlnum, Bool.or_eq_true, beq_iff_eq, alpha_iff, digit_iff, or_assoc,
    eq_byteOf_iff (show '_'.toNat < 128 by decide)]
  exact Iff.rfl

theorem suffix_iff : isSuffix b = true ↔ b.toNat = 117 ∨ b.toNat = 85 ∨ b.toNat = 108 ∨ b.toNat = 76 ∨
    b.toNat = 102 ∨ b.toNat = 70 := by
  simp only [isSuffix, List.any_cons, List.any_nil, Bool.or_false, Bool.or_eq_true, beq_iff_eq,
    ← UInt8.toNat_inj]
  exact Iff.rfl

theorem space_iff : isSpace b = true ↔ b.toNat = 32 ∨ b.toNat = 9 ∨ b.toNat = 13 ∨ b.toNat = 10 ∨
    b.toNat = 11 ∨ b.toNat = 12 := by
  simp only [isSpace, List.any_cons, List.any_nil, Bool.or_false, Bool.or_eq_true, beq_iff_eq,
    ← UInt8.toNat_inj]
  exact Iff.rfl

end Bytes

namespace Lexer

variable {source : List UInt8}

def new (source : List UInt8) : Lexer source := ⟨0, by decide⟩

variable (l : Lexer source)

def currentByte : Option UInt8 := source[l.position]?

def peekByte (offset : ℕ) : Option (Option UInt8) :=
  if l.position + offset < 2 ^ 32 then some source[l.position + offset]? else none

def advance : Option (Lexer source) :=
  if h : l.position + 1 < 2 ^ 32 then some ⟨l.position + 1, h⟩ else none

/-- The rounds of a loop that moves the cursor in each: no more than there are bytes left. -/
def unread : ℕ := source.length - l.position

/-- `Token::new(kind, start, self.position, 0)` -/
def token (kind : TokenKind) (start : ℕ) : Token × Lexer source := (⟨kind, start, l.position, 0⟩, l)

/-- `while let Some(c) = self.current_byte()`, to the first byte outside of a class. -/
def advanceWhileFor (p : UInt8 → Bool) : ℕ → Lexer source → Option (Lexer source)
  | 0, l => some l
  | rounds + 1, l =>
    match l.currentByte with
    | some c => if p c then l.advance.bind (advanceWhileFor p rounds) else some l
    | none => some l

def advanceWhile (p : UInt8 → Bool) : Option (Lexer source) := advanceWhileFor p l.unread l

def skipWhitespace : Option (Token × Lexer source) := do
  let last ← l.advanceWhile isSpace
  return last.token .whiteSpace l.position

def readIdentifier : Option (Token × Lexer source) := do
  let last ← l.advanceWhile isAlnum
  return last.token .identifier l.position

/-- Behind the letter of an exponent. -/
def readExponent : Option (Lexer source) :=
  (if l.currentByte = some (byteOf '+') ∨ l.currentByte = some (byteOf '-') then l.advance
    else some l).bind (advanceWhile · isDigit)

/-- Behind the first zero. -/
def readOctal : Option (Lexer source) :=
  (l.advanceWhile isOctalDigit).bind fun l =>
    if l.currentByte = some (byteOf '8') ∨ l.currentByte = some (byteOf '9') then l.advanceWhile isDigit
    else some l

/-- The last loop of `read_numeric`. An exponent or a suffix ends it, so that it never sees
`has_exponent`. -/
def decimalLoop : ℕ → Bool → Lexer source → Option (Lexer source)
  | 0, _, l => some l
  | rounds + 1, hasDecimal, l =>
    match l.currentByte with
    | none => some l
    | some c =>
      if isDigit c then l.advance.bind (decimalLoop rounds hasDecimal)
      else if c = byteOf '.' ∧ hasDecimal = false then l.advance.bind (decimalLoop rounds true)
      else if c = byteOf 'e' ∨ c = byteOf 'E' then l.advance.bind readExponent
      else if isSuffix c then l.advance
      else some l

def readDecimal (hasDecimal : Bool) : Option (Lexer source) := decimalLoop l.unread hasDecimal l

/-- `read_numeric` up to the token, by the byte behind a first zero. -/
def readNumber : Option (Lexer source) :=
  if l.currentByte = some (byteOf '0') then
    l.advance.bind fun l =>
      match l.currentByte with
      | none => l.readDecimal false
      | some c =>
        if c = byteOf 'x' ∨ c = byteOf 'X' then l.advance.bind (advanceWhile · isHexDigit)
        else if c = byteOf '.' then l.advance.bind (readDecimal · true)
        else if isOctalDigit c then l.readOctal
        else l.readDecimal false
  else l.readDecimal false

def readNumeric : Option (Token × Lexer source) := do
  let last ← l.readNumber
  return last.token .numericConstant l.position

def literalLoop (quote : UInt8) : ℕ → Lexer source → Option (Lexer source)
  | 0, l => some l
  | rounds + 1, l =>
    match l.currentByte with
    | none => some l
    | some c =>
      if c = byteOf '\\' then do
        let l ← l.advance
        if l.currentByte.isSome then l.advance.bind (literalLoop quote rounds) else literalLoop quote rounds l
      else if c = quote then l.advance
      else l.advance.bind (literalLoop quote rounds)

def readStringLiteral : Option (Token × Lexer source) := do
  let quote := l.currentByte.getD (byteOf '"')
  let first ← l.advance
  let last ← literalLoop quote first.unread first
  return last.token .stringLiteral l.position

def readLineComment : Option (Token × Lexer source) := do
  let second ← l.advance
  let first ← second.advance
  let last ← first.advanceWhile (· != byteOf '\n')
  return last.token .comment l.position

def blockLoop : ℕ → Lexer source → Option (Lexer source)
  | 0, l => some l
  | rounds + 1, l =>
    match l.currentByte with
    | none => some l
    | some c => do
      let closes ← if c = byteOf '*' then (l.peekByte 1).map (· == some (byteOf '/')) else some false
      if closes then l.advance.bind advance else l.advance.bind (blockLoop rounds)

def readBlockComment : Option (Token × Lexer source) := do
  let second ← l.advance
  let first ← second.advance
  let last ← blockLoop first.unread first
  return last.token .comment l.position

def readPreprocessor : Option (Token × Lexer source) := do
  let last ← l.advanceWhile (· != byteOf '\n')
  return last.token .preprocessor l.position

/-- Two bytes more if the second byte from here on is `b`. The cursor stands behind the first byte
of the punctuator already. -/
def advanceThird (b : UInt8) : Option (Lexer source) := do
  let third ← l.peekByte 2
  if third = some b then l.advance.bind advance else some l

/-- Behind the first byte of a punctuator. -/
def readSecond (c next : UInt8) : Option (Lexer source) :=
  if c = byteOf '.' ∧ next = byteOf '.' then l.advanceThird (byteOf '.')
  else if c = byteOf '<' ∧ next = byteOf '<' then l.advanceThird (byteOf '=')
  else if c = byteOf '>' ∧ next = byteOf '>' then l.advanceThird (byteOf '=')
  else if isPair c next then l.advance
  else some l

def readPunctuator : Option (Token × Lexer source) := do
  let c := l.currentByte.getD (byteOf ' ')
  let second ← l.advance
  let last ← (if isPunctuator c then second.readSecond c (second.currentByte.getD (byteOf ' '))
    else some second)
  return last.token .punctuator l.position

def scanToken : Option (Token × Lexer source) :=
  match l.currentByte with
  | none => some (l.token .endOfFile l.position)
  | some c =>
    if isSpace c then l.skipWhitespace
    else if c = byteOf '/' then do
      if (← l.peekByte 1) = some (byteOf '/') then l.readLineComment
      else if (← l.peekByte 1) = some (byteOf '*') then l.readBlockComment
      else l.readPunctuator
    else if c = byteOf '#' then l.readPreprocessor
    else if c = byteOf '"' ∨ c = byteOf '\'' then l.readStringLiteral
    else if isAlpha c ∨ c = byteOf '_' then l.readIdentifier
    else if isDigit c then l.readNumeric
    else l.readPunctuator

def nextToken : ℕ → Lexer source → Option (Token × Lexer source)
  | 0, _ => none
  | fuel + 1, l => do
    let (token, l) ← l.scanToken
    if token.kind = .whiteSpace then nextToken fuel l else return (token, l)

/-- Calls of `next_token` up to the end of the file. -/
def tokens : ℕ → Lexer source → Option (List Token)
  | 0, _ => none
  | fuel + 1, l => do
    let (token, l) ← l.nextToken fuel
    if token.kind = .endOfFile then return [token]
    else
      let rest ← tokens fuel l
      return token :: rest

end Lexer

end OpticC.Lexing
