import OpticC.Frontend.Tokenizer

/-! The kinds and texts of the tokens of a source text, without their positions. The texts are
the source text itself, but for the continuations between them. -/

namespace OpticC.Preprocessor

abbrev Lexeme := PpTokenKind × List Char

def PpToken.lexeme (t : PpToken) : Lexeme := (t.kind, t.text.toList)

section Reading

variable (classes : CharClasses)

/-- The token at the character `c` and what follows it. -/
def readToken (c : Char) (rest : List Char) : Lexeme × List Char :=
  ((lexToken classes c rest 1 1).1.lexeme, (lexToken classes c rest 1 1).2.1)

theorem scanBlockComment_pos (text : List Char) (line col line' col' : ℕ) :
    (scanBlockComment text line col).1 = (scanBlockComment text line' col').1 ∧
      (scanBlockComment text line col).2.1 = (scanBlockComment text line' col').2.1 := by
  induction text generalizing line col line' col' with
  | nil => exact ⟨rfl, rfl⟩
  | cons c rest ih =>
    unfold scanBlockComment
    split_ifs
    · exact ⟨rfl, rfl⟩
    · obtain ⟨htext, hrest⟩ := ih (line + 1) 1 (line' + 1) 1
      exact ⟨congrArg (List.cons c) htext, hrest⟩
    · obtain ⟨htext, hrest⟩ := ih line (col + 1) line' (col' + 1)
      exact ⟨congrArg (List.cons c) htext, hrest⟩

/-- The position does not matter for the text of a token. -/
theorem lexToken_pos (c : Char) (rest : List Char) (line col : ℕ) :
    (lexToken classes c rest line col).1.lexeme = (readToken classes c rest).1 ∧
      (lexToken classes c rest line col).2.1 = (readToken classes c rest).2 := by
  have hcomment := scanBlockComment_pos (rest.drop 1) line (col + 2) 1 3
  rw [readToken, lexToken, lexToken]
  by_cases hnl : c = '\n'
  · rw [if_pos hnl, if_pos hnl]
    exact ⟨rfl, rfl⟩
  rw [if_neg hnl, if_neg hnl]
  by_cases hblank : isBlank c = true
  · rw [if_pos hblank, if_pos hblank]
    exact ⟨rfl, rfl⟩
  rw [if_neg hblank, if_neg hblank]
  by_cases hquote : c = '"' ∨ c = '\''
  · rw [if_pos hquote, if_pos hquote]
    exact ⟨rfl, rfl⟩
  rw [if_neg hquote, if_neg hquote]
  by_cases hline : c = '/' ∧ rest.head? = some '/'
  · rw [if_pos hline, if_pos hline]
    exact ⟨rfl, rfl⟩
  rw [if_neg hline, if_neg hline]
  by_cases hblock : c = '/' ∧ rest.head? = some '*'
  · rw [if_pos hblock, if_pos hblock]
    simp only [PpToken.lexeme, hcomment.1]
    exact ⟨trivial, hcomment.2⟩
  rw [if_neg hblock, if_neg hblock]
  split_ifs <;> exact ⟨rfl, rfl⟩

/-- The kinds and texts of the tokens of `tokenize_pp_source`. -/
def readTokens (text : List Char) : List Lexeme :=
  (tokenizePpSource classes text 1 1).map PpToken.lexeme

theorem map_lexeme_tokenize (text : List Char) (line col : ℕ) :
    (tokenizePpSource classes text line col).map PpToken.lexeme = readTokens classes text := by
  suffices h : ∀ line' col', (tokenizePpSource classes text line col).map PpToken.lexeme =
      (tokenizePpSource classes text line' col').map PpToken.lexeme from h 1 1
  fun_induction tokenizePpSource classes text line col with
  | case1 text line col rest hsplice ih =>
    intro line' col'
    rw [ih (line' + 1) 1, tokenizePpSource.eq_def classes text]
    split
    · rename_i rest' hsplice'
      obtain rfl := Option.some.inj (hsplice.symm.trans hsplice')
      rfl
    · rename_i hnone
      rw [hsplice] at hnone
      cases hnone
  | case2 line col hsplice =>
    intro line' col'
    rw [tokenizePpSource_nil]
  | case3 line col c rest hsplice hle ih =>
    intro line' col'
    rw [tokenizePpSource.eq_def classes (c :: rest) line' col']
    split
    · rename_i rest' hsplice'
      rw [hsplice] at hsplice'
      cases hsplice'
    · obtain ⟨hlexeme, hrest⟩ := lexToken_pos classes c rest line col
      obtain ⟨hlexeme', hrest'⟩ := lexToken_pos classes c rest line' col'
      rw [List.map_cons, List.map_cons, hlexeme, hlexeme']
      rw [hrest] at ih ⊢
      rw [hrest', ih]

@[simp] theorem readTokens_nil : readTokens classes [] = [] := by
  rw [readTokens, tokenizePpSource_nil, List.map_nil]

theorem readTokens_skip {text rest : List Char} (h : skipSplice text = some rest) :
    readTokens classes text = readTokens classes rest := by
  rw [readTokens, tokenizePpSource.eq_def]
  split
  · rename_i rest' hsplice
    obtain rfl := Option.some.inj (h.symm.trans hsplice)
    exact map_lexeme_tokenize classes rest 2 1
  · rename_i hnone
    rw [h] at hnone
    cases hnone

theorem readTokens_cons {c : Char} {rest : List Char} (h : skipSplice (c :: rest) = none) :
    readTokens classes (c :: rest) =
      (readToken classes c rest).1 :: readTokens classes (readToken classes c rest).2 := by
  rw [readTokens, tokenizePpSource.eq_def]
  split
  · rename_i rest' hsplice
    rw [h] at hsplice
    cases hsplice
  · rw [List.map_cons, map_lexeme_tokenize]
    rfl

end Reading

section Arms

variable (classes : CharClasses)

theorem ne_of_class {p : Char → Bool} {c d : Char} (hc : p c = true) (hd : p d = false) :
    c ≠ d := by
  rintro rfl
  rw [hc] at hd
  cases hd

theorem isBlank_eq_false {c : Char} (hspace : c ≠ ' ') (htab : c ≠ '\t') (hreturn : c ≠ '\r') :
    isBlank c = false := by
  simp [isBlank, hspace, htab, hreturn]

/-- The characters that begin an identifier. -/
def isLetter (c : Char) : Bool := c.isAlpha || c == '_'

theorem isLetter_iff {c : Char} : isLetter c = true ↔ c.isAlpha = true ∨ c = '_' := by
  simp [isLetter]

theorem isDigit_of_isLetter {c : Char} (h : isLetter c = true) : c.isDigit = false := by
  rcases isLetter_iff.1 h with halpha | rfl
  · rw [isAlpha_iff] at halpha
    rw [← Bool.not_eq_true, isDigit_iff]
    omega
  · rfl

theorem toList_newline : "\n".toList = ['\n'] := by decide

theorem toList_hash : "#".toList = ['#'] := by decide

theorem toList_hashHash : "##".toList = ['#', '#'] := by decide

/-- The character of the last arm. -/
structure Other (c : Char) : Prop where
  newline : c ≠ '\n'
  blank : isBlank c = false
  quote : c ≠ '"' ∧ c ≠ '\''
  digit : c.isDigit = false
  letter : c.isAlpha = false ∧ c ≠ '_'
  hash : c ≠ '#'

/-- `//` or `/*` -/
def startsComment (c : Char) (rest : List Char) : Prop :=
  c = '/' ∧ (rest.head? = some '/' ∨ rest.head? = some '*')

instance (c : Char) (rest : List Char) : Decidable (startsComment c rest) :=
  inferInstanceAs (Decidable (_ ∧ _))

/-- The arms of the loop: the token that begins with a character, and what follows it. -/
inductive Arm : Char → List Char → Lexeme → List Char → Prop
  | newline (rest) : Arm '\n' rest (.newline, ['\n']) rest
  | blank {c} (rest) (h : isBlank c = true) :
    Arm c rest (.whitespace, c :: rest.takeWhile isBlank) (rest.dropWhile isBlank)
  | quoted {c} (rest) (h : c = '"' ∨ c = '\'') :
    Arm c rest (quotedKind c, c :: (scanQuoted c rest).1) (scanQuoted c rest).2
  | lineComment (rest) :
    Arm '/' ('/' :: rest) (.whitespace, '/' :: (scanLineComment ('/' :: rest)).1)
      (scanLineComment ('/' :: rest)).2
  | blockComment (rest) :
    Arm '/' ('*' :: rest) (.whitespace, '/' :: '*' :: (scanBlockComment rest 1 3).1)
      (scanBlockComment rest 1 3).2.1
  | number {c} (rest) (h : c.isDigit = true) :
    Arm c rest (.number, c :: rest.takeWhile (isNumberChar classes))
      (rest.dropWhile (isNumberChar classes))
  | identifier {c} (rest) (h : c.isAlpha = true ∨ c = '_') :
    Arm c rest (.identifier, c :: rest.takeWhile (isIdentifierChar classes))
      (rest.dropWhile (isIdentifierChar classes))
  | hashHash (rest) : Arm '#' ('#' :: rest) (.hashHash, ['#', '#']) rest
  | hash (rest) (h : rest.head? ≠ some '#') : Arm '#' rest (.hash, ['#']) rest
  | punctuator {c} (rest) (h : Other c) (hcomment : ¬ startsComment c rest) :
    Arm c rest (.punctuator, punctuatorAt c rest) ((c :: rest).drop (punctuatorAt c rest).length)

theorem arm_readToken (c : Char) (rest : List Char) :
    Arm classes c rest (readToken classes c rest).1 (readToken classes c rest).2 := by
  rw [readToken, lexToken]
  by_cases hnl : c = '\n'
  · rw [if_pos hnl]
    subst hnl
    simp only [PpToken.lexeme, toList_newline]
    exact .newline rest
  rw [if_neg hnl]
  by_cases hblank : isBlank c = true
  · rw [if_pos hblank]
    simp only [PpToken.lexeme, String.toList_ofList]
    exact .blank rest hblank
  rw [if_neg hblank]
  by_cases hquote : c = '"' ∨ c = '\''
  · rw [if_pos hquote]
    simp only [PpToken.lexeme, String.toList_ofList]
    exact .quoted rest hquote
  rw [if_neg hquote]
  by_cases hline : c = '/' ∧ rest.head? = some '/'
  · rw [if_pos hline]
    obtain ⟨rfl, hhead⟩ := hline
    obtain ⟨tail, rfl⟩ := List.head?_eq_some_iff.1 hhead
    simp only [PpToken.lexeme, String.toList_ofList]
    exact .lineComment tail
  rw [if_neg hline]
  by_cases hblock : c = '/' ∧ rest.head? = some '*'
  · rw [if_pos hblock]
    obtain ⟨rfl, hhead⟩ := hblock
    obtain ⟨tail, rfl⟩ := List.head?_eq_some_iff.1 hhead
    simp only [PpToken.lexeme, String.toList_ofList]
    exact .blockComment tail
  rw [if_neg hblock]
  by_cases hdigit : c.isDigit = true
  · rw [if_pos hdigit]
    simp only [PpToken.lexeme, String.toList_ofList]
    exact .number rest hdigit
  rw [if_neg hdigit]
  by_cases halpha : c.isAlpha = true ∨ c = '_'
  · rw [if_pos halpha]
    simp only [PpToken.lexeme, String.toList_ofList]
    exact .identifier rest halpha
  rw [if_neg halpha]
  by_cases hhash : c = '#'
  · rw [if_pos hhash]
    subst hhash
    by_cases hhash2 : rest.head? = some '#'
    · rw [if_pos hhash2]
      obtain ⟨tail, rfl⟩ := List.head?_eq_some_iff.1 hhash2
      simp only [PpToken.lexeme, toList_hashHash]
      exact .hashHash tail
    · rw [if_neg hhash2]
      simp only [PpToken.lexeme, toList_hash]
      exact .hash rest hhash2
  rw [if_neg hhash]
  simp only [PpToken.lexeme, String.toList_ofList]
  refine .punctuator rest ⟨hnl, by simpa using hblank, not_or.1 hquote, by simpa using hdigit, ?_, hhash⟩ ?_
  · simpa [not_or] using halpha
  · rintro ⟨rfl, hhead | hhead⟩
    · exact hline ⟨rfl, hhead⟩
    · exact hblock ⟨rfl, hhead⟩

theorem readToken_of_arm {c : Char} {rest after : List Char} {lexeme : Lexeme}
    (h : Arm classes c rest lexeme after) : readToken classes c rest = (lexeme, after) := by
  rw [readToken, lexToken]
  cases h with
  | newline =>
    rw [if_pos rfl]
    simp only [PpToken.lexeme, toList_newline]
  | blank _ h =>
    have hnl : c ≠ '\n' := by rintro rfl; exact absurd h (by decide)
    rw [if_neg hnl, if_pos h]
    simp only [PpToken.lexeme, String.toList_ofList]
  | quoted _ h =>
    rcases h with rfl | rfl
    · rw [if_neg (by decide), if_neg (by decide), if_pos (by decide)]
      simp only [PpToken.lexeme, String.toList_ofList]
    · rw [if_neg (by decide), if_neg (by decide), if_pos (by decide)]
      simp only [PpToken.lexeme, String.toList_ofList]
  | lineComment rest =>
    rw [if_neg (by decide), if_neg (by decide), if_neg (by decide), if_pos ⟨rfl, rfl⟩]
    simp only [PpToken.lexeme, String.toList_ofList]
  | blockComment rest =>
    rw [if_neg (by decide), if_neg (by decide), if_neg (by decide), if_neg (by simp),
      if_pos ⟨rfl, rfl⟩]
    simp only [PpToken.lexeme, String.toList_ofList, List.drop_one, List.tail_cons]
  | number _ h =>
    have hne : ∀ d : Char, d.isDigit = false → c ≠ d := fun d hd => ne_of_class h hd
    have hblank : isBlank c = false := isBlank_eq_false (hne _ rfl) (hne _ rfl) (hne _ rfl)
    rw [if_neg (hne _ rfl), if_neg (by simp [hblank]), if_neg (not_or.2 ⟨hne _ rfl, hne _ rfl⟩),
      if_neg fun hc => hne _ rfl hc.1, if_neg fun hc => hne _ rfl hc.1, if_pos h]
    simp only [PpToken.lexeme, String.toList_ofList]
  | identifier _ h =>
    have hne : ∀ d : Char, isLetter d = false → c ≠ d :=
      fun d hd => ne_of_class (isLetter_iff.2 h) hd
    have hblank : isBlank c = false := isBlank_eq_false (hne _ rfl) (hne _ rfl) (hne _ rfl)
    have hdigit : c.isDigit = false := isDigit_of_isLetter (isLetter_iff.2 h)
    rw [if_neg (hne _ rfl), if_neg (by simp [hblank]), if_neg (not_or.2 ⟨hne _ rfl, hne _ rfl⟩),
      if_neg fun hc => hne _ rfl hc.1, if_neg fun hc => hne _ rfl hc.1, if_neg (by simp [hdigit]),
      if_pos h]
    simp only [PpToken.lexeme, String.toList_ofList]
  | hashHash rest =>
    rw [if_neg (by decide), if_neg (by decide), if_neg (by decide), if_neg (by simp),
      if_neg (by simp), if_neg (by decide), if_neg (by decide), if_pos rfl, List.head?_cons, if_pos rfl]
    simp only [PpToken.lexeme, toList_hashHash, List.drop_one, List.tail_cons]
  | hash _ h =>
    rw [if_neg (by decide), if_neg (by decide), if_neg (by decide), if_neg (by simp),
      if_neg (by simp), if_neg (by decide), if_neg (by decide), if_pos rfl, if_neg h]
    simp only [PpToken.lexeme, toList_hash]
  | punctuator _ h hcomment =>
    obtain ⟨hnl, hblank, hquote, hdigit, hletter, hhash⟩ := h
    rw [if_neg hnl, if_neg (by simp [hblank]), if_neg (by simp [hquote]),
      if_neg fun hc => hcomment ⟨hc.1, .inl hc.2⟩, if_neg fun hc => hcomment ⟨hc.1, .inr hc.2⟩,
      if_neg (by simp [hdigit]), if_neg (by simp [hletter]), if_neg hhash]
    simp only [PpToken.lexeme, String.toList_ofList]

end Arms

section Texts

/-! What a loop took, followed by what it left, is what it began with; and it takes the same
from any text that goes on behind it, unless it was stopped by the end of the file. -/

theorem scanQuoted_close (quote : Char) (rest : List Char) :
    scanQuoted quote (quote :: rest) = ([quote], rest) := by
  rw [scanQuoted.eq_def]
  simp

theorem scanQuoted_escape {quote : Char} (h : '\\' ≠ quote) (escaped : Char) (rest : List Char) :
    scanQuoted quote ('\\' :: escaped :: rest) =
      ('\\' :: escaped :: (scanQuoted quote rest).1, (scanQuoted quote rest).2) := by
  rw [scanQuoted.eq_def]
  simp only [if_neg h, if_true]

theorem scanQuoted_other {quote c : Char} (h : c ≠ quote) (hesc : c ≠ '\\') (rest : List Char) :
    scanQuoted quote (c :: rest) = (c :: (scanQuoted quote rest).1, (scanQuoted quote rest).2) := by
  rw [scanQuoted.eq_def]
  simp only [if_neg h, if_neg hesc]

theorem scanQuoted_concat (quote : Char) (text : List Char) :
    (scanQuoted quote text).1 ++ (scanQuoted quote text).2 = text := by
  fun_induction scanQuoted quote text with
  | case1 => rfl
  | case2 => rfl
  | case3 => rfl
  | case4 _ _ _ ih =>
    simp only [List.cons_append]
    rw [ih]
  | case5 _ _ _ _ ih =>
    simp only [List.cons_append]
    rw [ih]

theorem scanLineComment_concat (text : List Char) :
    (scanLineComment text).1 ++ (scanLineComment text).2 = text := by
  fun_induction scanLineComment text with
  | case1 => rfl
  | case2 => rfl
  | case3 _ _ _ ih =>
    simp only [List.cons_append]
    rw [ih]

theorem scanBlockComment_concat (text : List Char) (line col : ℕ) :
    (scanBlockComment text line col).1 ++ (scanBlockComment text line col).2.1 = text := by
  induction text generalizing line col with
  | nil => rfl
  | cons c rest ih =>
    unfold scanBlockComment
    split_ifs with hclose hnl
    · obtain ⟨rfl, hhead⟩ := hclose
      obtain ⟨tail, rfl⟩ := List.head?_eq_some_iff.1 hhead
      rfl
    · simp only [List.cons_append]
      rw [ih]
    · simp only [List.cons_append]
      rw [ih]

theorem punctuatorAt_prefix (c : Char) (rest : List Char) :
    ∃ tail, punctuatorAt c rest = c :: tail ∧ tail <+: rest := by
  unfold punctuatorAt
  split_ifs with hdots
  · obtain ⟨rfl, htake⟩ := hdots
    exact ⟨['.', '.'], rfl, htake ▸ List.take_prefix 2 rest⟩
  · cases rest with
    | nil => exact ⟨[], rfl, List.prefix_refl _⟩
    | cons next more =>
      simp only
      split_ifs with hshift heq htwo
      · obtain ⟨last, rfl⟩ := List.head?_eq_some_iff.1 heq
        exact ⟨[next, '='], rfl, last, rfl⟩
      · exact ⟨[next], rfl, more, rfl⟩
      · exact ⟨[next], rfl, more, rfl⟩
      · exact ⟨[], rfl, List.nil_prefix⟩

variable {classes : CharClasses} {c : Char} {rest after : List Char} {lexeme : Lexeme}

/-- The text of a token is what is read. -/
theorem Arm.concat (h : Arm classes c rest lexeme after) : lexeme.2 ++ after = c :: rest := by
  cases h with
  | newline => rfl
  | blank _ h => exact congrArg (List.cons c) (List.takeWhile_append_dropWhile ..)
  | quoted _ h => exact congrArg (List.cons c) (scanQuoted_concat c rest)
  | lineComment rest => exact congrArg (List.cons '/') (scanLineComment_concat _)
  | blockComment rest =>
    exact congrArg (List.cons '/' ∘ List.cons '*') (scanBlockComment_concat rest 1 3)
  | number _ h => exact congrArg (List.cons c) (List.takeWhile_append_dropWhile ..)
  | identifier _ h => exact congrArg (List.cons c) (List.takeWhile_append_dropWhile ..)
  | hashHash rest => rfl
  | hash _ h => rfl
  | punctuator _ h hcomment =>
    obtain ⟨tail, htail, more, rfl⟩ := punctuatorAt_prefix c rest
    rw [htail]
    simp

theorem Arm.text_eq (h : Arm classes c rest lexeme after) : ∃ tail, lexeme.2 = c :: tail := by
  cases h with
  | punctuator _ h hcomment =>
    obtain ⟨tail, htail, -⟩ := punctuatorAt_prefix c rest
    exact ⟨tail, htail⟩
  | newline => exact ⟨_, rfl⟩
  | blank _ h => exact ⟨_, rfl⟩
  | quoted _ h => exact ⟨_, rfl⟩
  | lineComment rest => exact ⟨_, rfl⟩
  | blockComment rest => exact ⟨_, rfl⟩
  | number _ h => exact ⟨_, rfl⟩
  | identifier _ h => exact ⟨_, rfl⟩
  | hashHash rest => exact ⟨_, rfl⟩
  | hash _ h => exact ⟨_, rfl⟩

end Texts

end OpticC.Preprocessor
