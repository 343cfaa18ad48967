import Mathlib.Data.List.Basic
import Mathlib.Tactic.Common
import OpticC.Frontend.Macro

/-! `tokenize_pp_source`: the characters of a source text as preprocessing tokens. -/

namespace OpticC.Preprocessor

def isTwoCharPunctuator (text : List Char) : Bool :=
  ["==", "!=", "<=", ">=", "&&", "||", "<<", ">>", "++", "--", "->", "+=", "-=", "*=", "/=", "%=",
    "&=", "|=", "^=", "##"].any fun p => p.toList == text

def isBlank (c : Char) : Bool := c == ' ' || c == '\t' || c == '\r'

def CharClasses.isAlphanumeric (classes : CharClasses) (c : Char) : Bool :=
  classes.isAlphabetic c || classes.isNumeric c

/-- On ASCII the classes are those of the language's own characters. -/
def CharClasses.OnAscii (classes : CharClasses) : Prop :=
  ∀ c : Char, c.toNat < 128 → classes.isAlphanumeric c = c.isAlphanum

theorem isDigit_iff (c : Char) : c.isDigit = true ↔ 48 ≤ c.toNat ∧ c.toNat ≤ 57 := by
  simp only [Char.isDigit, Bool.and_eq_true, decide_eq_true_eq, ge_iff_le, UInt32.le_iff_toNat_le]
  exact Iff.rfl

theorem isAlpha_iff (c : Char) : c.isAlpha = true ↔
    (65 ≤ c.toNat ∧ c.toNat ≤ 90) ∨ (97 ≤ c.toNat ∧ c.toNat ≤ 122) := by
  rw [show c.isAlpha = (decide (c.val ≥ 'A'.val ∧ c.val ≤ 'Z'.val) ||
    decide (c.val ≥ 'a'.val) && decide (c.val ≤ 'z'.val)) from rfl]
  simp only [Bool.or_eq_true, Bool.and_eq_true, decide_eq_true_eq, ge_iff_le,
    UInt32.le_iff_toNat_le]
  exact Iff.rfl

theorem isAlphanum_iff (c : Char) : c.isAlphanum = true ↔
    ((65 ≤ c.toNat ∧ c.toNat ≤ 90) ∨ (97 ≤ c.toNat ∧ c.toNat ≤ 122)) ∨
      (48 ≤ c.toNat ∧ c.toNat ≤ 57) := by
  rw [Char.isAlphanum, Bool.or_eq_true, isAlpha_iff, isDigit_iff]

section Loops

variable (classes : CharClasses)

def isNumberChar (c : Char) : Bool :=
  classes.isAlphanumeric c || c == '.' || c == 'x' || c == 'X'

def isIdentifierChar (c : Char) : Bool := classes.isAlphanumeric c || c == '_'

/-- A line that is continued by a backslash. -/
def skipSplice : List Char → Option (List Char)
  | '\\' :: '\n' :: rest => some rest
  | '\\' :: '\r' :: '\n' :: rest => some rest
  | _ => none

def quotedKind (quote : Char) : PpTokenKind := if quote = '"' then .stringLit else .charLit

/-- A string or character literal behind its opening quote, and what follows it. -/
def scanQuoted (quote : Char) : List Char → List Char × List Char
  | [] => ([], [])
  | c :: rest =>
    if c = quote then ([c], rest)
    else if c = '\\' then
      match rest with
      | [] => ([c], [])
      | escaped :: rest => (c :: escaped :: (scanQuoted quote rest).1, (scanQuoted quote rest).2)
    else (c :: (scanQuoted quote rest).1, (scanQuoted quote rest).2)

/-- The newline belongs to the comment. -/
def scanLineComment : List Char → List Char × List Char
  | [] => ([], [])
  | c :: rest =>
    if c = '\n' then ([c], rest)
    else (c :: (scanLineComment rest).1, (scanLineComment rest).2)

/-- A comment behind its `/*`, what follows it, and the line and column there. -/
def scanBlockComment : List Char → ℕ → ℕ → List Char × List Char × ℕ × ℕ
  | [], line, col => ([], [], line, col)
  | c :: rest, line, col =>
    if c = '*' ∧ rest.head? = some '/' then (['*', '/'], rest.drop 1, line, col + 2)
    else
      let next := if c = '\n' then scanBlockComment rest (line + 1) 1
        else scanBlockComment rest line (col + 1)
      (c :: next.1, next.2)

/-- The punctuator that begins with `c`. -/
def punctuatorAt (c : Char) (rest : List Char) : List Char :=
  if c = '.' ∧ rest.take 2 = ['.', '.'] then ['.', '.', '.']
  else match rest with
    | [] => [c]
    | next :: more =>
      if [c, next] = ['<', '<'] ∨ [c, next] = ['>', '>'] then
        if more.head? = some '=' then [c, next, '='] else [c, next]
      else if isTwoCharPunctuator [c, next] then [c, next]
      else [c]

/-- One round of the loop at the character `c`: the token, what follows it, and the line and
column there. The character that selects a loop is one that the loop takes. -/
def lexToken (c : Char) (rest : List Char) (line col : ℕ) : PpToken × List Char × ℕ × ℕ :=
  if c = '\n' then (⟨.newline, "\n", line, col⟩, rest, line + 1, 1)
  else if isBlank c then
    let ws := c :: rest.takeWhile isBlank
    (⟨.whitespace, String.ofList ws, line, col + ws.length⟩, rest.dropWhile isBlank, line,
      col + ws.length)
  else if c = '"' ∨ c = '\'' then
    let text := c :: (scanQuoted c rest).1
    (⟨quotedKind c, String.ofList text, line, col⟩,
      (scanQuoted c rest).2, line, col + text.length)
  else if c = '/' ∧ rest.head? = some '/' then
    let comment := scanLineComment rest
    (⟨.whitespace, String.ofList (c :: comment.1), line, col⟩, comment.2, line,
      col + 1 + comment.1.length)
  else if c = '/' ∧ rest.head? = some '*' then
    let comment := scanBlockComment (rest.drop 1) line (col + 2)
    (⟨.whitespace, String.ofList ('/' :: '*' :: comment.1), comment.2.2.1, col⟩, comment.2)
  else if c.isDigit then
    let num := c :: rest.takeWhile (isNumberChar classes)
    (⟨.number, String.ofList num, line, col⟩, rest.dropWhile (isNumberChar classes), line,
      col + num.length)
  else if c.isAlpha ∨ c = '_' then
    let id := c :: rest.takeWhile (isIdentifierChar classes)
    (⟨.identifier, String.ofList id, line, col⟩, rest.dropWhile (isIdentifierChar classes), line,
      col + id.length)
  else if c = '#' then
    if rest.head? = some '#' then (⟨.hashHash, "##", line, col⟩, rest.drop 1, line, col + 2)
    else (⟨.hash, "#", line, col⟩, rest, line, col + 1)
  else
    let text := punctuatorAt c rest
    (⟨.punctuator, String.ofList text, line, col⟩, (c :: rest).drop text.length, line,
      col + text.length)

theorem length_scanQuoted_le (quote : Char) (text : List Char) :
    (scanQuoted quote text).2.length ≤ text.length := by
  fun_induction scanQuoted quote text with
  | case1 => exact Nat.le_refl _
  | case2 => exact Nat.le_succ _
  | case3 => exact Nat.zero_le _
  | case4 _ _ _ ih => exact Nat.le_succ_of_le (Nat.le_succ_of_le ih)
  | case5 _ _ _ _ ih => exact Nat.le_succ_of_le ih

theorem length_scanLineComment_le (text : List Char) :
    (scanLineComment text).2.length ≤ text.length := by
  fun_induction scanLineComment text with
  | case1 => exact Nat.le_refl _
  | case2 => exact Nat.le_succ _
  | case3 _ _ _ ih => exact Nat.le_succ_of_le ih

theorem length_scanBlockComment_le (text : List Char) (line col : ℕ) :
    (scanBlockComment text line col).2.1.length ≤ text.length := by
  induction text generalizing line col with
  | nil => exact Nat.le_refl _
  | cons c rest ih =>
    unfold scanBlockComment
    split_ifs
    · exact Nat.le_succ_of_le (List.length_drop ▸ Nat.sub_le ..)
    · exact Nat.le_succ_of_le (ih _ _)
    · exact Nat.le_succ_of_le (ih _ _)

theorem punctuatorAt_ne_nil (c : Char) (rest : List Char) : punctuatorAt c rest ≠ [] := by
  unfold punctuatorAt
  split_ifs
  · exact List.cons_ne_nil _ _
  · split
    · exact List.cons_ne_nil _ _
    · split_ifs <;> exact List.cons_ne_nil _ _

/-- Each round takes a character at least. -/
theorem length_lexToken_le (c : Char) (rest : List Char) (line col : ℕ) :
    (lexToken classes c rest line col).2.1.length ≤ rest.length := by
  have hdrop (n : ℕ) : (rest.drop n).length ≤ rest.length := (List.drop_suffix n rest).length_le
  have hwhile (p : Char → Bool) : (rest.dropWhile p).length ≤ rest.length :=
    (List.dropWhile_suffix p).length_le
  unfold lexToken
  split_ifs
  · exact Nat.le_refl _
  · exact hwhile isBlank
  · exact length_scanQuoted_le c rest
  · exact length_scanLineComment_le rest
  · exact Nat.le_trans (length_scanBlockComment_le _ _ _) (hdrop 1)
  · exact hwhile (isNumberChar classes)
  · exact hwhile (isIdentifierChar classes)
  · exact hdrop 1
  · exact Nat.le_refl _
  · have htext := List.length_pos_iff.2 (punctuatorAt_ne_nil c rest)
    simp only [List.length_drop, List.length_cons]
    omega

theorem length_skipSplice_lt {text rest : List Char} (h : skipSplice text = some rest) :
    rest.length < text.length := by
  unfold skipSplice at h
  split at h
  · cases h
    exact Nat.lt_succ_of_lt (Nat.lt_succ_self _)
  · cases h
    exact Nat.lt_succ_of_lt (Nat.lt_succ_of_lt (Nat.lt_succ_self _))
  · cases h

/-- The loop of `tokenize_pp_source`. -/
def tokenizePpSource (text : List Char) (line col : ℕ) : List PpToken :=
  match _hsplice : skipSplice text with
  | some rest => tokenizePpSource rest (line + 1) 1
  | none =>
    match text with
    | [] => []
    | c :: rest =>
      have := length_lexToken_le classes c rest line col
      (lexToken classes c rest line col).1 ::
        tokenizePpSource (lexToken classes c rest line col).2.1
          (lexToken classes c rest line col).2.2.1 (lexToken classes c rest line col).2.2.2
termination_by text.length
decreasing_by
  · exact length_skipSplice_lt _hsplice
  · exact Nat.lt_succ_of_le this

theorem tokenizePpSource_nil (line col : ℕ) : tokenizePpSource classes [] line col = [] := by
  rw [tokenizePpSource]
  rfl

theorem tokenizePpSource_cons {c : Char} (hc : c ≠ '\\') (rest : List Char) (line col : ℕ) :
    tokenizePpSource classes (c :: rest) line col = (lexToken classes c rest line col).1 ::
      tokenizePpSource classes (lexToken classes c rest line col).2.1
        (lexToken classes c rest line col).2.2.1 (lexToken classes c rest line col).2.2.2 := by
  have hsplice : skipSplice (c :: rest) = none := by
    unfold skipSplice
    split
    · rename_i h
      exact absurd (List.cons.inj h).1 hc
    · rename_i h
      exact absurd (List.cons.inj h).1 hc
    · rfl
  rw [tokenizePpSource]
  split
  · rename_i h
    rw [hsplice] at h
    cases h
  · rfl

end Loops

end OpticC.Preprocessor
