import OpticC.Frontend.TokenTexts
import OpticC.Lib.MaximalMunch

/-! The preprocessing tokens of C11 (6.4): the grammar of their texts, and a source text read by
maximal munch. Header names belong to `#include` directives alone and are not read here. -/

namespace OpticC.Preprocessor

inductive CTokenKind where
  | identifier
  | ppNumber
  | characterConstant
  | stringLiteral
  | punctuator
  | other
  deriving DecidableEq, Repr

def isHexDigit (c : Char) : Bool := c.isDigit || ('a' ≤ c && c ≤ 'f') || ('A' ≤ c && c ≤ 'F')

def isOctalDigit (c : Char) : Bool := '0' ≤ c && c ≤ '7'

inductive UniversalCharacterName : List Char → Prop
  | short {digits : List Char} (hlength : digits.length = 4) (h : ∀ d ∈ digits, isHexDigit d = true) :
    UniversalCharacterName ('\\' :: 'u' :: digits)
  | long {digits : List Char} (hlength : digits.length = 8) (h : ∀ d ∈ digits, isHexDigit d = true) :
    UniversalCharacterName ('\\' :: 'U' :: digits)

section Grammar

/-! `extended` are the implementation-defined characters of identifiers. -/

variable (extended : Char → Bool)

inductive IdentifierNondigit : List Char → Prop
  | nondigit {c} (h : isLetter c = true) : IdentifierNondigit [c]
  | universal {text} (h : UniversalCharacterName text) : IdentifierNondigit text
  | extended {c} (h : extended c = true) : IdentifierNondigit [c]

inductive Identifier : List Char → Prop
  | start {text} (h : IdentifierNondigit extended text) : Identifier text
  | nondigit {text next} (h : Identifier text) (hnext : IdentifierNondigit extended next) :
    Identifier (text ++ next)
  | digit {text c} (h : Identifier text) (hc : c.isDigit = true) : Identifier (text ++ [c])

inductive PpNumber : List Char → Prop
  | digit {c} (h : c.isDigit = true) : PpNumber [c]
  | dotDigit {c} (h : c.isDigit = true) : PpNumber ['.', c]
  | moreDigit {text c} (h : PpNumber text) (hc : c.isDigit = true) : PpNumber (text ++ [c])
  | nondigit {text next} (h : PpNumber text) (hnext : IdentifierNondigit extended next) :
    PpNumber (text ++ next)
  | sign {text e s} (h : PpNumber text) (he : e ∈ ['e', 'E', 'p', 'P']) (hs : s ∈ ['+', '-']) :
    PpNumber (text ++ [e, s])
  | dot {text} (h : PpNumber text) : PpNumber (text ++ ['.'])

inductive EscapeSequence : List Char → Prop
  | simple {c} (h : c ∈ ['\'', '"', '?', '\\', 'a', 'b', 'f', 'n', 'r', 't', 'v']) :
    EscapeSequence ['\\', c]
  | octal {digits : List Char} (hlength : 1 ≤ digits.length ∧ digits.length ≤ 3)
    (h : ∀ d ∈ digits, isOctalDigit d = true) : EscapeSequence ('\\' :: digits)
  | hexadecimal {digits : List Char} (hne : digits ≠ []) (h : ∀ d ∈ digits, isHexDigit d = true) :
    EscapeSequence ('\\' :: 'x' :: digits)
  | universal {text} (h : UniversalCharacterName text) : EscapeSequence text

/-- What may stand between the quotes. -/
inductive LiteralBody (quote : Char) : List Char → Prop
  | nil : LiteralBody quote []
  | char {c rest} (hc : c ≠ quote ∧ c ≠ '\\' ∧ c ≠ '\n') (h : LiteralBody quote rest) :
    LiteralBody quote (c :: rest)
  | escape {text rest} (htext : EscapeSequence text) (h : LiteralBody quote rest) :
    LiteralBody quote (text ++ rest)

def punctuators : List (List Char) :=
  ["[", "]", "(", ")", "\x7b", "\x7d", ".", "->", "++", "--", "&", "*", "+", "-", "~", "!", "/", "%",
    "<<", ">>", "<", ">", "<=", ">=", "==", "!=", "^", "|", "&&", "||", "?", ":", ";", "...", "=",
    "*=", "/=", "%=", "+=", "-=", "<<=", ">>=", "&=", "^=", "|=", ",", "#", "##", "<:", ":>", "<%",
    "%>", "%:", "%:%:"].map String.toList

/-- `L`, `u` and `U`, and `u8` for strings. -/
def encodingPrefixes : List (List Char) := [[], ['L'], ['u'], ['U']]

/-- The kinds of the grammar; what is left is one character. -/
inductive PpText : CTokenKind → List Char → Prop
  | identifier {text} (h : Identifier extended text) : PpText .identifier text
  | ppNumber {text} (h : PpNumber extended text) : PpText .ppNumber text
  | characterConstant {encoding body} (hencoding : encoding ∈ encodingPrefixes)
    (hbody : LiteralBody '\'' body) (hne : body ≠ []) :
    PpText .characterConstant (encoding ++ '\'' :: (body ++ ['\'']))
  | stringLiteral {encoding body} (hencoding : encoding ∈ ['u', '8'] :: encodingPrefixes)
    (hbody : LiteralBody '"' body) : PpText .stringLiteral (encoding ++ '"' :: (body ++ ['"']))
  | punctuator {text} (h : text ∈ punctuators) : PpText .punctuator text

/-- White space inside a line. The carriage return belongs to the end of a line. -/
def isCWhiteSpace (c : Char) : Bool := isBlank c || c == '\x0b' || c == '\x0c'

/-- `preprocessing-token`, without header names. -/
inductive PreprocessingToken : CTokenKind → List Char → Prop
  | text {kind text} (h : PpText extended kind text) : PreprocessingToken kind text
  | other {c} (hwhite : isCWhiteSpace c = false ∧ c ≠ '\n') (h : ∀ kind, ¬ PpText extended kind [c]) :
    PreprocessingToken .other [c]

/-- The kind of `PpToken` that stands for a kind of C's. -/
def ppKind (kind : CTokenKind) (text : List Char) : PpTokenKind :=
  match kind with
  | .identifier => .identifier
  | .ppNumber => .number
  | .characterConstant => .charLit
  | .stringLiteral => .stringLit
  | .punctuator =>
    if text = ['#'] ∨ text = ['%', ':'] then .hash
    else if text = ['#', '#'] ∨ text = ['%', ':', '%', ':'] then .hashHash
    else .punctuator
  | .other => .punctuator

/-- The tokens of a text without comments, line by line. -/
inductive Lexed : List Char → List Lexeme → Prop
  | nil : Lexed [] []
  | whiteSpace {c rest lexemes} (hc : isCWhiteSpace c = true) (hrest : Lexed rest lexemes) :
    Lexed (c :: rest) lexemes
  | newline {rest lexemes} (hrest : Lexed rest lexemes) :
    Lexed ('\n' :: rest) ((.newline, ['\n']) :: lexemes)
  | token {c rest kind text after lexemes} (hcomment : ¬ startsComment c rest)
    (h : MaximalMunch.Longest (PreprocessingToken extended) (c :: rest) kind text after)
    (hafter : Lexed after lexemes) : Lexed (c :: rest) ((ppKind kind text, text) :: lexemes)

end Grammar

section Heads

variable {extended : Char → Bool}

def OutsideAscii (extended : Char → Bool) : Prop := ∀ c, extended c = true → 128 ≤ c.toNat

theorem OutsideAscii.ne (hext : OutsideAscii extended) {c d : Char} (hc : extended c = true)
    (hd : d.toNat < 128) : c ≠ d := by
  rintro rfl
  exact absurd (hext c hc) (by omega)

theorem ascii_of_isLetter {c : Char} (h : isLetter c = true) : c.toNat < 128 := by
  rcases isLetter_iff.1 h with halpha | rfl
  · rw [isAlpha_iff] at halpha
    omega
  · decide

theorem ascii_of_isDigit {c : Char} (h : c.isDigit = true) : c.toNat < 128 := by
  rw [isDigit_iff] at h
  omega

theorem UniversalCharacterName.head {text : List Char} (h : UniversalCharacterName text) :
    ∃ tail, text = '\\' :: tail := by
  cases h with
  | short => exact ⟨_, rfl⟩
  | long => exact ⟨_, rfl⟩

theorem IdentifierNondigit.head {text : List Char} (h : IdentifierNondigit extended text) :
    ∃ c tail, text = c :: tail ∧ (isLetter c = true ∨ extended c = true ∨
      c = '\\' ∧ ∃ name, UniversalCharacterName name ∧ name <+: text) := by
  cases h with
  | nondigit h => exact ⟨_, _, rfl, .inl h⟩
  | universal h =>
    obtain ⟨tail, rfl⟩ := h.head
    exact ⟨_, _, rfl, .inr (.inr ⟨rfl, _, h, List.prefix_refl _⟩)⟩
  | extended h => exact ⟨_, _, rfl, .inr (.inl h)⟩

theorem Identifier.head {text : List Char} (h : Identifier extended text) :
    ∃ c tail, text = c :: tail ∧ (isLetter c = true ∨ extended c = true ∨
      c = '\\' ∧ ∃ name, UniversalCharacterName name ∧ name <+: text) := by
  have hmore : ∀ {text : List Char} (next : List Char),
      (∃ c tail, text = c :: tail ∧ (isLetter c = true ∨ extended c = true ∨
        c = '\\' ∧ ∃ name, UniversalCharacterName name ∧ name <+: text)) →
      ∃ c tail, text ++ next = c :: tail ∧ (isLetter c = true ∨ extended c = true ∨
        c = '\\' ∧ ∃ name, UniversalCharacterName name ∧ name <+: text ++ next) := by
    rintro text next ⟨c, tail, rfl, hc | hc | ⟨hc, name, hname, hfront⟩⟩
    · exact ⟨c, tail ++ next, rfl, .inl hc⟩
    · exact ⟨c, tail ++ next, rfl, .inr (.inl hc)⟩
    · exact ⟨c, tail ++ next, rfl, .inr (.inr ⟨hc, name, hname, hfront.trans ⟨next, rfl⟩⟩)⟩
  induction h with
  | start h => exact h.head
  | nondigit _ _ ih => exact hmore _ ih
  | digit _ _ ih => exact hmore _ ih

theorem PpNumber.head {text : List Char} (h : PpNumber extended text) :
    ∃ c tail, text = c :: tail ∧
      (c.isDigit = true ∨ c = '.' ∧ ∃ d more, tail = d :: more ∧ d.isDigit = true) := by
  have hmore : ∀ {text : List Char} (next : List Char), (∃ c tail, text = c :: tail ∧
        (c.isDigit = true ∨ c = '.' ∧ ∃ d more, tail = d :: more ∧ d.isDigit = true)) →
      ∃ c tail, text ++ next = c :: tail ∧
        (c.isDigit = true ∨ c = '.' ∧ ∃ d more, tail = d :: more ∧ d.isDigit = true) := by
    rintro text next ⟨c, tail, rfl, hc | ⟨hc, d, more, rfl, hd⟩⟩
    · exact ⟨c, tail ++ next, rfl, .inl hc⟩
    · exact ⟨c, d :: more ++ next, rfl, .inr ⟨hc, d, more ++ next, rfl, hd⟩⟩
  induction h with
  | digit h => exact ⟨_, _, rfl, .inl h⟩
  | dotDigit h => exact ⟨_, _, rfl, .inr ⟨rfl, _, _, rfl, h⟩⟩
  | moreDigit _ _ ih => exact hmore _ ih
  | nondigit _ _ ih => exact hmore _ ih
  | sign _ _ _ ih => exact hmore _ ih
  | dot _ ih => exact hmore _ ih

/-- The first characters of punctuators. -/
def punctuatorChars : List Char :=
  ['[', ']', '(', ')', '{', '}', '.', '-', '+', '&', '*', '~', '!', '/', '%', '<', '>', '=', '^',
    '|', '?', ':', ';', ',', '#']

theorem punctuator_chars (text : List Char) (h : text ∈ punctuators) :
    text ≠ [] ∧ ∀ c ∈ text, c ∈ punctuatorChars := by
  have hall : (punctuators.all fun text => !text.isEmpty && text.all punctuatorChars.contains) = true := by
    decide
  have htext := List.all_eq_true.1 hall text h
  rw [Bool.and_eq_true, List.all_eq_true] at htext
  exact ⟨by simpa using htext.1, fun c hc => by simpa using htext.2 c hc⟩

theorem punctuatorChars_class (c : Char) (h : c ∈ punctuatorChars) : c.toNat < 128 ∧
    isLetter c = false ∧ c.isDigit = false ∧ isCWhiteSpace c = false ∧ c ≠ '\n' ∧ c ≠ '"' ∧
      c ≠ '\'' ∧ c ≠ '\\' := by
  have hall : (punctuatorChars.all fun c => decide (c.toNat < 128) && !isLetter c && !c.isDigit &&
      !isCWhiteSpace c && !(['\n', '"', '\'', '\\'].contains c)) = true := by
    decide
  have hc := List.all_eq_true.1 hall c h
  simpa [not_or, and_assoc] using hc

end Heads

section Characters

/-! The characters of a token, and its kind from its text. -/

variable {extended : Char → Bool}

/-- The characters of names and numbers. -/
def IsWordChar (extended : Char → Bool) (c : Char) : Prop :=
  isLetter c = true ∨ c.isDigit = true ∨ extended c = true ∨ c = '\\' ∨ c = '.' ∨ c = '+' ∨ c = '-'

theorem isLetter_of_isHexDigit {c : Char} (h : isHexDigit c = true) :
    isLetter c = true ∨ c.isDigit = true := by
  simp only [isHexDigit, Bool.or_eq_true, Bool.and_eq_true, decide_eq_true_eq] at h
  rcases h with (h | ⟨hlow, hhigh⟩) | ⟨hlow, hhigh⟩
  · exact .inr h
  · refine .inl (isLetter_iff.2 (.inl ((isAlpha_iff c).2 (.inr ⟨?_, ?_⟩))))
    · exact Nat.le_trans (by decide) hlow
    · exact Nat.le_trans hhigh (by decide)
  · refine .inl (isLetter_iff.2 (.inl ((isAlpha_iff c).2 (.inl ⟨?_, ?_⟩))))
    · exact Nat.le_trans (by decide) hlow
    · exact Nat.le_trans hhigh (by decide)

theorem UniversalCharacterName.chars {text : List Char} (h : UniversalCharacterName text) :
    ∀ c ∈ text, IsWordChar extended c := by
  have hdigits : ∀ digits : List Char, (∀ d ∈ digits, isHexDigit d = true) →
      ∀ d ∈ digits, IsWordChar extended d := by
    intro digits h d hd
    rcases isLetter_of_isHexDigit (h d hd) with hletter | hdigit
    · exact .inl hletter
    · exact .inr (.inl hdigit)
  cases h with
  | short _ h =>
    rintro c (_ | ⟨_, _ | ⟨_, hc⟩⟩)
    · exact .inr (.inr (.inr (.inl rfl)))
    · exact .inl rfl
    · exact hdigits _ h c hc
  | long _ h =>
    rintro c (_ | ⟨_, _ | ⟨_, hc⟩⟩)
    · exact .inr (.inr (.inr (.inl rfl)))
    · exact .inl rfl
    · exact hdigits _ h c hc

theorem IdentifierNondigit.chars {text : List Char} (h : IdentifierNondigit extended text) :
    ∀ c ∈ text, IsWordChar extended c := by
  cases h with
  | nondigit h =>
    intro c hc
    obtain rfl := List.mem_singleton.1 hc
    exact .inl h
  | universal h => exact h.chars
  | extended h =>
    intro c hc
    obtain rfl := List.mem_singleton.1 hc
    exact .inr (.inr (.inl h))

theorem Identifier.chars {text : List Char} (h : Identifier extended text) :
    ∀ c ∈ text, IsWordChar extended c := by
  induction h with
  | start h => exact h.chars
  | nondigit _ hnext ih =>
    intro c hc
    rcases List.mem_append.1 hc with hc | hc
    · exact ih c hc
    · exact hnext.chars c hc
  | digit _ hd ih =>
    intro c hc
    rcases List.mem_append.1 hc with hc | hc
    · exact ih c hc
    · obtain rfl := List.mem_singleton.1 hc
      exact .inr (.inl hd)

theorem PpNumber.chars {text : List Char} (h : PpNumber extended text) :
    ∀ c ∈ text, IsWordChar extended c := by
  induction h with
  | digit h =>
    intro c hc
    obtain rfl := List.mem_singleton.1 hc
    exact .inr (.inl h)
  | dotDigit h =>
    rintro c (_ | ⟨_, hc⟩)
    · exact .inr (.inr (.inr (.inr (.inl rfl))))
    · obtain rfl := List.mem_singleton.1 hc
      exact .inr (.inl h)
  | moreDigit _ hd ih =>
    intro c hc
    rcases List.mem_append.1 hc with hc | hc
    · exact ih c hc
    · obtain rfl := List.mem_singleton.1 hc
      exact .inr (.inl hd)
  | nondigit _ hnext ih =>
    intro c hc
    rcases List.mem_append.1 hc with hc | hc
    · exact ih c hc
    · exact hnext.chars c hc
  | sign _ he hs ih =>
    intro c hc
    rcases List.mem_append.1 hc with hc | hc
    · exact ih c hc
    · rcases hc with _ | ⟨_, hc⟩
      · simp only [List.mem_cons, List.not_mem_nil, or_false] at he
        rcases he with rfl | rfl | rfl | rfl <;> exact .inl rfl
      · obtain rfl := List.mem_singleton.1 hc
        simp only [List.mem_cons, List.not_mem_nil, or_false] at hs
        exact .inr (.inr (.inr (.inr (.inr hs))))
  | dot _ ih =>
    intro c hc
    rcases List.mem_append.1 hc with hc | hc
    · exact ih c hc
    · obtain rfl := List.mem_singleton.1 hc
      exact .inr (.inr (.inr (.inr (.inl rfl))))

theorem IsWordChar.ne_quote (hext : OutsideAscii extended) {c : Char} (h : IsWordChar extended c) :
    c ≠ '"' ∧ c ≠ '\'' := by
  rcases h with h | h | h | rfl | rfl | rfl | rfl
  · exact ⟨ne_of_class h rfl, ne_of_class h rfl⟩
  · exact ⟨ne_of_class h rfl, ne_of_class h rfl⟩
  · exact ⟨hext.ne h (by decide), hext.ne h (by decide)⟩
  all_goals decide

/-- The kind that a text can belong to. -/
def kindOf (text : List Char) : CTokenKind :=
  if text.getLast? = some '"' then .stringLiteral
  else if text.getLast? = some '\'' then .characterConstant
  else if text.head?.any Char.isDigit then .ppNumber
  else if text.head? = some '.' ∧ (text.drop 1).head?.any Char.isDigit then .ppNumber
  else if text ∈ punctuators then .punctuator
  else .identifier

theorem PpText.kind_eq (hext : OutsideAscii extended) {kind : CTokenKind} {text : List Char}
    (h : PpText extended kind text) : kind = kindOf text := by
  have hlast : ∀ {text : List Char}, (∀ c ∈ text, IsWordChar extended c) →
      text.getLast? ≠ some '"' ∧ text.getLast? ≠ some '\'' := fun hchars =>
    ⟨fun h => ((hchars _ (List.mem_of_getLast? h)).ne_quote hext).1 rfl,
      fun h => ((hchars _ (List.mem_of_getLast? h)).ne_quote hext).2 rfl⟩
  cases h with
  | identifier h =>
    obtain ⟨hquote, hapostrophe⟩ := hlast h.chars
    obtain ⟨c, tail, rfl, hc⟩ := h.head
    have hclass : c.isDigit = false ∧ c ≠ '.' ∧ c ∉ punctuatorChars := by
      rcases hc with hc | hc | ⟨rfl, -⟩
      · refine ⟨isDigit_of_isLetter hc, ne_of_class hc rfl, fun hmem => ?_⟩
        rw [(punctuatorChars_class c hmem).2.1] at hc
        cases hc
      · refine ⟨?_, hext.ne hc (by decide), fun hmem => ?_⟩
        · by_contra hdigit
          exact absurd (ascii_of_isDigit (by simpa using hdigit)) (by have := hext c hc; omega)
        · exact absurd (punctuatorChars_class c hmem).1 (by have := hext c hc; omega)
      · decide
    have hpunctuator : c :: tail ∉ punctuators := fun hmem =>
      hclass.2.2 ((punctuator_chars _ hmem).2 c (List.mem_cons_self ..))
    simp [kindOf, hquote, hapostrophe, hclass.1, hclass.2.1, hpunctuator]
  | ppNumber h =>
    obtain ⟨hquote, hapostrophe⟩ := hlast h.chars
    obtain ⟨c, tail, rfl, hc | ⟨rfl, d, more, rfl, hd⟩⟩ := h.head
    · simp [kindOf, hquote, hapostrophe, hc]
    · rw [kindOf, if_neg hquote, if_neg hapostrophe]
      simp [hd]
  | characterConstant => simp [kindOf, List.getLast?_append, List.getLast?_cons]
  | stringLiteral => simp [kindOf, List.getLast?_append, List.getLast?_cons]
  | punctuator h =>
    revert text
    decide

theorem PreprocessingToken.kind_unique (hext : OutsideAscii extended) (kind kind' : CTokenKind)
    (text : List Char) (h : PreprocessingToken extended kind text)
    (h' : PreprocessingToken extended kind' text) : kind = kind' := by
  cases h with
  | text h =>
    cases h' with
    | text h' => exact (h.kind_eq hext).trans (h'.kind_eq hext).symm
    | other _ hnone => exact absurd h (hnone kind)
  | other _ hnone =>
    cases h' with
    | text h' => exact absurd h' (hnone kind')
    | other => rfl

end Characters

end OpticC.Preprocessor
