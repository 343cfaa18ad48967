import OpticC.Frontend.ExpanderLexer
import OpticC.Frontend.MacroTermination
import Mathlib.Data.List.TakeWhile

/-! When the offsets of the lexer's tokens are the bytes that they are used as. The cursor is one
only before the first character of several bytes; but a literal that is not closed takes the cursor
to the length of the source, wherever it is. -/

namespace OpticC.Expander

open Preprocessor (CharClasses isIdentifierChar)

/-- The characters of a literal behind its opening quote, and those behind its closing one. -/
def closeLiteral : List Char → Option (List Char × List Char)
  | [] => none
  | '\\' :: '"' :: rest => (closeLiteral rest).map fun parts => ('\\' :: '"' :: parts.1, parts.2)
  | c :: rest =>
    if c = '"' then some (['"'], rest)
    else (closeLiteral rest).map fun parts => (c :: parts.1, parts.2)

/-- A text in which all characters are of one byte, but for those of a literal that is not
closed. -/
inductive Readable : List Char → Prop
  | nil : Readable []
  | plain {c : Char} {rest : List Char} (quote : c ≠ '"') (byte : c.utf8Size = 1) (more : Readable rest) :
    Readable (c :: rest)
  | closed {rest literal after : List Char} (close : closeLiteral rest = some (literal, after))
    (bytes : ∀ c ∈ literal, c.utf8Size = 1) (more : Readable after) : Readable ('"' :: rest)
  | opened {rest : List Char} (close : closeLiteral rest = none) : Readable ('"' :: rest)

def IsBoundary (source : List Char) (n : ℕ) : Prop := (splitAtByte n source).isSome

/-- A token stands for the characters in the source. -/
structure Exact (source : List Char) (token : Token) (text : List Char) : Prop where
  within : token.offset + token.length ≤ byteLength source
  starts : IsBoundary source token.offset
  ends : IsBoundary source (token.offset + token.length)
  text_eq : extractTokenText source token = some text

/-- The classes of the characters of one byte. -/
structure AsciiClasses (classes : CharClasses) : Prop where
  alphanumeric : classes.OnAscii
  numeric : ∀ c : Char, c.toNat < 128 → classes.isNumeric c = c.isDigit

namespace Lexer

variable {classes : CharClasses} {source before rest : List Char} {l l' : Lexer}

section Cursor

/-- The characters before the cursor, and those from there on. -/
structure At (source before rest : List Char) (l : Lexer) : Prop where
  split : source = before ++ rest
  offset : l.offset = before.length

theorem At.currentChar {c : Char} (h : l.At source before (c :: rest)) : l.currentChar source = c := by
  simp [Lexer.currentChar, h.split, h.offset]

theorem At.peekChar {c : Char} (h : l.At source before (c :: rest)) : l.peekChar source = rest.head? := by
  simp [Lexer.peekChar, h.split, h.offset, List.getElem?_append_right, List.head?_eq_getElem?]

theorem At.advance {c : Char} (h : l.At source before (c :: rest)) :
    l.advance.At source (before ++ [c]) rest :=
  ⟨by rw [h.split, List.append_assoc]; rfl, by rw [advance_offset, h.offset, List.length_append]; rfl⟩

/-- Behind the last character the lexer reads zeros. -/
theorem currentChar_end (h : source.length ≤ l.offset) : l.currentChar source = '\x00' := by
  simp [Lexer.currentChar, List.getElem?_eq_none h]

theorem At.lt {c : Char} (h : l.At source before (c :: rest)) : l.offset < byteLength source := by
  have := length_le_byteLength source
  have : source.length = before.length + (rest.length + 1) := by rw [h.split]; simp
  have := h.offset
  omega

theorem len32_eq (hshort : byteLength source < 2 ^ 32) : len32 source = byteLength source :=
  Nat.mod_eq_of_lt hshort

end Cursor

section Scans

variable (hshort : byteLength source < 2 ^ 32)
include hshort

theorem scanWhile_offset {p : Char → Bool} (hzero : p '\x00' = false) (h : l.At source before rest) :
    (l.scanWhile source p).offset = l.offset + (rest.takeWhile p).length := by
  induction rest generalizing before l with
  | nil =>
    have hend : source.length ≤ l.offset := by rw [h.split, h.offset, List.append_nil]
    rw [scanWhile, currentChar_end hend, hzero, if_neg (fun hp => Bool.false_ne_true hp.2)]
    rfl
  | cons c rest ih =>
    rw [scanWhile, h.currentChar, len32_eq hshort, List.takeWhile_cons]
    by_cases hc : p c = true
    · rw [if_pos ⟨h.lt, hc⟩, if_pos hc, ih h.advance, advance_offset, List.length_cons]
      omega
    · rw [if_neg (fun hp => hc hp.2), if_neg hc]
      rfl

/-- A literal that is not closed takes the cursor to the length of the source. -/
theorem scanLiteral_end (hend : source.length ≤ l.offset) (hle : l.offset ≤ byteLength source) :
    (l.scanLiteral source).offset = byteLength source := by
  induction hn : byteLength source - l.offset generalizing l with
  | zero =>
    rw [scanLiteral, len32_eq hshort, if_neg (by omega)]
    omega
  | succ n ih =>
    have hchar := currentChar_end hend
    have hguard : l.offset < byteLength source ∧ l.currentChar source ≠ '"' := by
      rw [hchar]
      exact ⟨by omega, by decide⟩
    have hescape : ¬ (l.currentChar source = '\\' ∧ l.peekChar source = some '"') := by
      rw [hchar]
      exact fun h => absurd h.1 (by decide)
    rw [scanLiteral, len32_eq hshort, if_pos hguard, if_neg hescape]
    refine ih ?_ ?_ ?_
    · exact Nat.le_succ_of_le hend
    · exact hguard.1
    · rw [advance_offset]
      omega

theorem At.scanLiteral_escape (h : l.At source before ('\\' :: '"' :: rest)) :
    l.scanLiteral source = l.advance.advance.scanLiteral source := by
  have hguard : l.offset < byteLength source ∧ l.currentChar source ≠ '"' :=
    ⟨h.lt, by rw [h.currentChar]; decide⟩
  rw [scanLiteral, len32_eq hshort, if_pos hguard, if_pos ⟨h.currentChar, h.peekChar⟩]

theorem At.scanLiteral_other {c : Char} (h : l.At source before (c :: rest)) (hquote : c ≠ '"')
    (hescape : ∀ tail, c = '\\' → rest = '"' :: tail → False) :
    l.scanLiteral source = l.advance.scanLiteral source := by
  have hguard : ¬ (c = '\\' ∧ l.peekChar source = some '"') := by
    rw [h.peekChar]
    rintro ⟨hc, hhead⟩
    obtain ⟨tail, htail⟩ := List.head?_eq_some_iff.1 hhead
    exact hescape tail hc htail
  rw [scanLiteral, len32_eq hshort, h.currentChar, if_pos ⟨h.lt, hquote⟩, if_neg hguard]

/-- A literal that is closed leaves the cursor at the closing quote. -/
theorem scanLiteral_closed {literal after : List Char} (h : l.At source before rest)
    (hclose : closeLiteral rest = some (literal, after)) :
    ∃ body, literal = body ++ ['"'] ∧ rest = literal ++ after ∧
      (l.scanLiteral source).At source (before ++ body) ('"' :: after) := by
  fun_induction closeLiteral rest generalizing before l literal after with
  | case1 => cases hclose
  | case2 rest ih =>
    obtain ⟨⟨literal', after'⟩, hclose', heq⟩ := Option.map_eq_some_iff.1 hclose
    cases heq
    obtain ⟨body, rfl, rfl, hat⟩ := ih h.advance.advance hclose'
    refine ⟨'\\' :: '"' :: body, rfl, rfl, ?_⟩
    rw [h.scanLiteral_escape hshort]
    simpa using hat
  | case3 rest hrest =>
    cases hclose
    refine ⟨[], rfl, rfl, ?_⟩
    rw [scanLiteral, h.currentChar, if_neg (fun hc => hc.2 rfl), List.append_nil]
    exact h
  | case4 c rest hrest hquote ih =>
    obtain ⟨⟨literal', after'⟩, hclose', heq⟩ := Option.map_eq_some_iff.1 hclose
    cases heq
    obtain ⟨body, rfl, rfl, hat⟩ := ih h.advance hclose'
    refine ⟨c :: body, rfl, rfl, ?_⟩
    rw [h.scanLiteral_other hshort hquote hrest]
    simpa using hat

theorem scanLiteral_opened (h : l.At source before rest) (hclose : closeLiteral rest = none) :
    (l.scanLiteral source).offset = byteLength source := by
  fun_induction closeLiteral rest generalizing before l with
  | case1 =>
    have hend : source.length = l.offset := by rw [h.split, h.offset, List.append_nil]
    exact scanLiteral_end hshort hend.le (hend ▸ length_le_byteLength source)
  | case2 rest ih =>
    rw [h.scanLiteral_escape hshort]
    exact ih h.advance.advance (Option.map_eq_none_iff.1 hclose)
  | case3 => cases hclose
  | case4 c rest hrest hquote ih =>
    rw [h.scanLiteral_other hshort hquote hrest]
    exact ih h.advance (Option.map_eq_none_iff.1 hclose)

end Scans

section Rounds

/-- What a round does at a text: the token that it pushes and where the cursor is behind it. -/
inductive Reads (source : List Char) (l : Lexer) : List Char → Option Token → Lexer → Prop
  | word {word after : List Char} {t : Token} {l' : Lexer} (ne : word ≠ []) (quote : '"' ∉ word)
    (kind : t.kind ≠ .endOfFile) (start : t.offset = l.offset) (length : t.length = word.length)
    (next : l'.offset = l.offset + word.length) : Reads source l (word ++ after) (some t) l'
  | blank {c : Char} {after : List Char} {l' : Lexer} (quote : c ≠ '"') (next : l'.offset = l.offset + 1) :
    Reads source l (c :: after) none l'
  | closed {rest literal after : List Char} {t : Token} {l' : Lexer}
    (close : closeLiteral rest = some (literal, after)) (kind : t.kind ≠ .endOfFile)
    (start : t.offset = l.offset) (length : t.length = literal.length + 1)
    (next : l'.offset = l.offset + (literal.length + 1)) : Reads source l ('"' :: rest) (some t) l'
  | opened {rest : List Char} {t : Token} {l' : Lexer} (close : closeLiteral rest = none)
    (kind : t.kind ≠ .endOfFile) (start : t.offset = l.offset)
    (length : t.length = byteLength source - l.offset) (next : l'.offset = byteLength source) :
    Reads source l ('"' :: rest) (some t) l'

theorem Reads.single {c : Char} {t : Token} (quote : c ≠ '"') (kind : t.kind ≠ .endOfFile)
    (start : t.offset = l.offset) (length : t.length = 1) (next : l'.offset = l.offset + 1) :
    Reads source l (c :: rest) (some t) l' :=
  @Reads.word _ _ [c] rest t l' (List.cons_ne_nil _ _) (by simpa using quote.symm) kind start length next

theorem isIdentifierChar_ascii (hascii : AsciiClasses classes) {c : Char} (hc : c.toNat < 128) :
    isIdentifierChar classes c = (c.isAlphanum || c == '_') := by
  rw [isIdentifierChar, hascii.alphanumeric c hc]

theorem isNumberChar_ascii (hascii : AsciiClasses classes) {c : Char} (hc : c.toNat < 128) :
    isNumberChar classes c =
      (c.isDigit || c == '.' || c == 'e' || c == 'E' || c == 'x' || c == 'X') := by
  rw [isNumberChar, hascii.numeric c hc]

theorem punctuators_pair {punc : List Char} (h : punc ∈ punctuators) : punc.length = 2 ∧ '"' ∉ punc := by
  have hall : punctuators.all (fun punc => punc.length == 2 && !punc.contains '"') = true := by decide
  simpa using List.all_eq_true.1 hall punc h

variable (hshort : byteLength source < 2 ^ 32)
include hshort

/-- The word of an identifier or a number. -/
theorem reads_scanWhile {p : Char → Bool} {kind : TokenKind} {c : Char} (hzero : p '\x00' = false)
    (hquote : p '"' = false) (hkind : kind ≠ .endOfFile) (hc : p c = true)
    (h : l.At source before (c :: rest)) :
    Reads source l (c :: rest) (some (l.tokenTo kind (l.scanWhile source p))) (l.scanWhile source p) := by
  have hoffset := scanWhile_offset hshort hzero h
  have hsplit := List.takeWhile_append_dropWhile (p := p) (l := c :: rest)
  have hreads : Reads source l ((c :: rest).takeWhile p ++ (c :: rest).dropWhile p)
      (some (l.tokenTo kind (l.scanWhile source p))) (l.scanWhile source p) := by
    refine .word ?_ (fun hmem => ?_) hkind rfl ?_ hoffset
    · rw [List.takeWhile_cons, if_pos hc]
      exact List.cons_ne_nil _ _
    · have hp := List.mem_takeWhile_imp hmem
      rw [hquote] at hp
      cases hp
    · rw [tokenTo, hoffset]
      exact Nat.add_sub_cancel_left ..
  rwa [hsplit] at hreads

theorem reads_literal (h : l.At source before ('"' :: rest)) :
    let inside := l.advance.scanLiteral source
    let l' := if inside.currentChar source = '"' then inside.advance else inside
    Reads source l ('"' :: rest) (some (l.tokenTo .stringLiteral l')) l' := by
  intro inside l'
  cases hclose : closeLiteral rest with
  | none =>
    have hoffset : inside.offset = byteLength source := scanLiteral_opened hshort h.advance hclose
    have hchar : inside.currentChar source = '\x00' :=
      currentChar_end (hoffset ▸ length_le_byteLength source)
    have hl' : l' = inside := if_neg (by rw [hchar]; decide)
    rw [hl']
    exact .opened hclose (by simp [tokenTo]) rfl (by rw [tokenTo, hoffset]) hoffset
  | some parts =>
    obtain ⟨body, hbody, -, hat⟩ := scanLiteral_closed hshort h.advance hclose
    have hl' : l' = inside.advance := if_pos hat.currentChar
    have hoffset : l'.offset = l.offset + (parts.1.length + 1) := by
      rw [hl', advance_offset, hat.offset, hbody, h.offset]
      simp
      omega
    exact .closed hclose (by simp [tokenTo]) rfl (by rw [tokenTo, hoffset]; exact Nat.add_sub_cancel_left ..) hoffset

theorem exists_readToken (hascii : AsciiClasses classes) {c : Char} (h : l.At source before (c :: rest))
    (hbytes : byteLength before = before.length) :
    ∃ token l', l.readToken classes source = some (token, l') ∧ Reads source l (c :: rest) token l' := by
  have hslice : slice source l.offset (byteLength source) = some (c :: rest) := by
    have := slice_append before (c :: rest) []
    rwa [List.append_nil, ← byteLength_append, ← h.split, hbytes, ← h.offset] at this
  unfold readToken
  rw [h.currentChar]
  by_cases hblank : c = ' ' ∨ c = '\t' ∨ c = '\r'
  · refine ⟨_, _, if_pos hblank, .single ?_ (by simp [makeToken]) rfl rfl rfl⟩
    rintro rfl
    exact absurd hblank (by decide)
  rw [if_neg hblank]
  by_cases hnewline : c = '\n'
  · refine ⟨_, _, if_pos hnewline, .single ?_ (by simp [makeToken]) rfl rfl rfl⟩
    rw [hnewline]
    decide
  rw [if_neg hnewline]
  by_cases hhash : c = '#'
  · rw [if_pos hhash, h.peekChar, hhash]
    by_cases hpair : rest.head? = some '#'
    · obtain ⟨tail, rfl⟩ := List.head?_eq_some_iff.1 hpair
      refine ⟨_, _, if_pos hpair, ?_⟩
      exact @Reads.word _ _ ['#', '#'] tail _ _ (List.cons_ne_nil _ _) (by decide) (by simp) rfl rfl rfl
    · exact ⟨_, _, if_neg hpair, .single (by decide) (by simp [makeToken]) rfl rfl rfl⟩
  rw [if_neg hhash]
  by_cases hquote : c = '"'
  · rw [if_pos hquote]
    subst hquote
    exact ⟨_, _, rfl, reads_literal hshort h⟩
  rw [if_neg hquote]
  by_cases hletter : c.isAlpha ∨ c = '_'
  · refine ⟨_, _, if_pos hletter, ?_⟩
    have hclass (d : Char) (hd : d.toNat < 128) := isIdentifierChar_ascii hascii hd
    refine reads_scanWhile hshort (hclass '\x00' (by decide)) (hclass '"' (by decide)) (by simp) ?_ h
    rcases hletter with halpha | rfl
    · rw [hclass c (by rw [Preprocessor.isAlpha_iff] at halpha; omega), Char.isAlphanum, halpha]
      rfl
    · exact hclass '_' (by decide)
  rw [if_neg hletter]
  by_cases hdigit : c.isDigit
  · refine ⟨_, _, if_pos hdigit, ?_⟩
    have hclass (d : Char) (hd : d.toNat < 128) := isNumberChar_ascii hascii hd
    refine reads_scanWhile hshort (hclass '\x00' (by decide)) (hclass '"' (by decide)) (by simp) ?_ h
    rw [hclass c (by rw [Preprocessor.isDigit_iff] at hdigit; omega), hdigit]
    rfl
  rw [if_neg hdigit]
  simp only [hslice, Option.bind_eq_bind, Option.bind_some]
  cases hfind : punctuators.find? fun punc => punc.isPrefixOf (c :: rest) with
  | some punc =>
    have hprefix := List.find?_some (p := fun punc : List Char => punc.isPrefixOf (c :: rest)) hfind
    obtain ⟨after, hafter⟩ := List.isPrefixOf_iff_prefix.1 hprefix
    obtain ⟨hlength, hmem⟩ := punctuators_pair (List.mem_of_find?_eq_some hfind)
    refine ⟨_, _, rfl, ?_⟩
    rw [← hafter]
    refine .word ?_ hmem (by simp) rfl rfl (advanceBy_offset _ _)
    rintro rfl
    cases hlength
  | none =>
    refine ⟨_, _, rfl, ?_⟩
    by_cases hspace : isWhitespace c
    · rw [if_pos hspace]
      exact .blank hquote rfl
    · rw [if_neg hspace]
      exact .single hquote (by simp) rfl rfl rfl

end Rounds

section Exactness

theorem isBoundary_byteLength (before after : List Char) :
    IsBoundary (before ++ after) (byteLength before) := by
  have h := splitAtByte_append before 0 after
  rw [Nat.add_zero] at h
  simp [IsBoundary, h, splitAtByte]

theorem isBoundary_of_slice {text : List Char} {start stop : ℕ} (h : slice source start stop = some text) :
    IsBoundary source start := by
  obtain ⟨parts, hparts, -⟩ := Option.bind_eq_some_iff.1 h
  rw [IsBoundary, hparts]
  rfl

/-- A token of the right length stands for its characters. -/
theorem exact_iff {word after : List Char} {t : Token} (hsource : source = before ++ (word ++ after))
    (hne : word ≠ []) (hstart : t.offset = byteLength before) :
    Exact source t word ↔ t.length = byteLength word := by
  constructor
  · intro h
    have htext := h.text_eq
    unfold extractTokenText at htext
    simp only at htext
    split_ifs at htext
    · rw [byteLength_of_slice htext]
      omega
    · exact absurd (Option.some.inj htext).symm hne
  · intro hlength
    have hpos : 0 < byteLength word := by
      have := length_le_byteLength word
      have := List.length_pos_iff.2 hne
      omega
    have hsum : byteLength source = byteLength before + (byteLength word + byteLength after) := by
      rw [hsource, byteLength_append, byteLength_append]
    refine ⟨by omega, ?_, ?_, ?_⟩
    · rw [hsource, hstart]
      exact isBoundary_byteLength before (word ++ after)
    · rw [hsource, hstart, hlength, ← byteLength_append, ← List.append_assoc]
      exact isBoundary_byteLength (before ++ word) after
    · unfold extractTokenText
      simp only
      rw [if_pos ⟨by omega, by omega⟩, hstart, hlength, hsource, ← List.append_assoc]
      exact slice_append before word after

theorem consumed_word {word after : List Char} (h : l.At source before (word ++ after))
    (hnext : l'.offset = l.offset + word.length) : l.consumed source l' = word := by
  rw [consumed, hnext, Nat.add_sub_cancel_left, h.offset, h.split, List.drop_left, List.take_left]

theorem consumed_rest (h : l.At source before rest) (hnext : l'.offset = byteLength source) :
    l.consumed source l' = rest := by
  have hlength := length_le_byteLength source
  have hsource : source.length = before.length + rest.length := by rw [h.split, List.length_append]
  have hdrop : source.drop before.length = rest := by rw [h.split, List.drop_left]
  rw [consumed, hnext, h.offset, hdrop]
  exact List.take_of_length_le (by omega)

theorem exact_endOfFile {line column : ℕ} :
    Exact source ⟨.endOfFile, byteLength source, 0, line, column⟩ [] := by
  have hends := isBoundary_byteLength source []
  rw [List.append_nil] at hends
  refine ⟨Nat.le_refl _, hends, hends, ?_⟩
  exact if_neg (fun h => Nat.lt_irrefl _ h.1)

end Exactness

section Words

theorem closeLiteral_split {literal after : List Char} (h : closeLiteral rest = some (literal, after)) :
    rest = literal ++ after := by
  fun_induction closeLiteral rest generalizing literal after with
  | case1 => cases h
  | case2 rest ih =>
    obtain ⟨⟨literal', after'⟩, hclose, heq⟩ := Option.map_eq_some_iff.1 h
    cases heq
    rw [ih hclose]
    rfl
  | case3 rest hrest =>
    cases h
    rfl
  | case4 c rest hrest hquote ih =>
    obtain ⟨⟨literal', after'⟩, hclose, heq⟩ := Option.map_eq_some_iff.1 h
    cases heq
    rw [ih hclose]
    rfl

theorem readable_word_iff {word after : List Char} (hquote : '"' ∉ word) :
    Readable (word ++ after) ↔ (∀ c ∈ word, c.utf8Size = 1) ∧ Readable after := by
  induction word with
  | nil => simp
  | cons c word ih =>
    have hne : c ≠ '"' := fun h => hquote (h ▸ List.mem_cons_self)
    rw [List.forall_mem_cons, and_assoc, ← ih (fun h => hquote (List.mem_cons_of_mem _ h))]
    refine ⟨fun h => ?_, fun h => .plain hne h.1 h.2⟩
    cases h with
    | plain _ byte more => exact ⟨byte, more⟩
    | closed => exact absurd rfl hne
    | opened => exact absurd rfl hne

theorem readable_closed_iff {literal after : List Char} (hclose : closeLiteral rest = some (literal, after)) :
    Readable ('"' :: rest) ↔ (∀ c ∈ '"' :: literal, c.utf8Size = 1) ∧ Readable after := by
  rw [List.forall_mem_cons]
  refine ⟨fun h => ?_, fun h => .closed hclose h.1.2 h.2⟩
  cases h with
  | plain quote => exact absurd rfl quote
  | closed close bytes more =>
    cases hclose.symm.trans close
    exact ⟨⟨by decide, bytes⟩, more⟩
  | opened close =>
    rw [hclose] at close
    cases close

theorem At.word {word after : List Char} (h : l.At source before (word ++ after))
    (hnext : l'.offset = l.offset + word.length) : l'.At source (before ++ word) after :=
  ⟨by rw [h.split, List.append_assoc], by rw [hnext, h.offset, List.length_append]⟩

theorem exact_word_iff {word after : List Char} {t : Token} (h : l.At source before (word ++ after))
    (hbytes : byteLength before = before.length) (hne : word ≠ []) (hstart : t.offset = l.offset)
    (hlength : t.length = word.length) (hnext : l'.offset = l.offset + word.length) :
    Exact source t (l.consumed source l') ↔ ∀ c ∈ word, c.utf8Size = 1 := by
  have hoffset : t.offset = byteLength before := by rw [hstart, h.offset, hbytes]
  rw [consumed_word h hnext, exact_iff h.split hne hoffset, hlength, ← byteLength_eq_length_iff]
  exact eq_comm

/-- A round reads a word, which is right when its characters are of one byte; or it reads the rest
of the source. -/
theorem Reads.split {text : List Char} {token : Option Token} (hreads : Reads source l text token l')
    (h : l.At source before text) (hbytes : byteLength before = before.length) :
    (l'.offset = byteLength source ∧ Readable text ∧
      ∃ t, token = some t ∧ t.kind ≠ .endOfFile ∧ Exact source t (l.consumed source l')) ∨
    ∃ word after, text = word ++ after ∧ word ≠ [] ∧ l'.At source (before ++ word) after ∧
      (Readable text ↔ (∀ c ∈ word, c.utf8Size = 1) ∧ Readable after) ∧
      (∀ t, token = some t → t.kind ≠ .endOfFile ∧
        (Exact source t (l.consumed source l') ↔ ∀ c ∈ word, c.utf8Size = 1)) ∧
      (token = none → ∃ c, word = [c]) := by
  cases hreads with
  | @word word after t _ ne quote kind start length next =>
    refine .inr ⟨word, after, rfl, ne, h.word next, readable_word_iff quote, ?_, (fun hnone => nomatch hnone)⟩
    intro t' ht
    obtain rfl := Option.some.inj ht
    exact ⟨kind, exact_word_iff h hbytes ne start length next⟩
  | @blank c after _ quote next =>
    have hquote : '"' ∉ [c] := by simpa using quote.symm
    have hat : l'.At source (before ++ [c]) after := At.word h next
    refine .inr ⟨[c], after, rfl, List.cons_ne_nil _ _, hat, readable_word_iff hquote,
      (fun _ hnone => nomatch hnone), (fun _ => ⟨c, rfl⟩)⟩
  | @closed rest literal after t _ close kind start length next =>
    obtain rfl := closeLiteral_split close
    have hat : l'.At source (before ++ '"' :: literal) after := At.word h next
    refine .inr ⟨'"' :: literal, after, rfl, List.cons_ne_nil _ _, hat,
      readable_closed_iff close, ?_, (fun hnone => nomatch hnone)⟩
    intro t' ht
    obtain rfl := Option.some.inj ht
    have hword : l.At source before ('"' :: literal ++ after) := h
    exact ⟨kind, exact_word_iff hword hbytes (List.cons_ne_nil _ _) start length next⟩
  | @opened rest t _ close kind start length next =>
    refine .inl ⟨next, .opened close, t, rfl, kind, ?_⟩
    have hsource : source = before ++ ('"' :: rest ++ []) := by rw [List.append_nil]; exact h.split
    have hoffset : t.offset = byteLength before := by rw [start, h.offset, hbytes]
    rw [consumed_rest h next, exact_iff hsource (List.cons_ne_nil _ _) hoffset, length, h.offset, ← hbytes,
      h.split, byteLength_append, Nat.add_sub_cancel_left]

end Words

section Runs

/-- Each token stands for the characters that were consumed for it, and the last one is at the end of
the source. -/
def Right (source : List Char) (tokens : List (Token × List Char)) : Prop :=
  ∀ t ∈ tokens, Exact source t.1 t.2 ∧ (t.1.kind = .endOfFile → t.1.offset = byteLength source)

/-- The lexer comes to its end without a panic, and its tokens are right. -/
def OffsetsAreBytes (classes : CharClasses) (source : List Char) : Prop :=
  ∃ fuel tokens, new.tokenize classes source fuel = some tokens ∧ Right source tokens

theorem tokenize_step {fuel : ℕ} {token : Option Token} {tokens : List (Token × List Char)}
    (hlt : l.offset < len32 source) (hread : l.readToken classes source = some (token, l'))
    (hnext : l'.offset < 2 ^ 32) (hmore : l'.tokenize classes source fuel = some tokens) :
    l.tokenize classes source (fuel + 1) =
      some (token.toList.map (fun t => (t, l.consumed source l')) ++ tokens) := by
  simp only [tokenize, if_pos hlt, hread, Option.bind_eq_bind, Option.bind_some, if_pos hnext, hmore]

theorem tokenize_end (classes : CharClasses) (hshort : byteLength source < 2 ^ 32) (hend : l.offset = byteLength source) :
    ∃ tokens, l.tokenize classes source 1 = some tokens ∧ Right source tokens := by
  have hguard : ¬ l.offset < len32 source := by rw [len32_eq hshort, hend]; exact Nat.lt_irrefl _
  refine ⟨_, if_neg hguard, fun t ht => ?_⟩
  obtain rfl := List.mem_singleton.1 ht
  rw [hend]
  exact ⟨exact_endOfFile, fun _ => rfl⟩

/-- A run goes on to the end or takes a round. -/
theorem tokenize_cases {fuel : ℕ} {tokens : List (Token × List Char)}
    (h : l.tokenize classes source fuel = some tokens) :
    ¬ l.offset < len32 source ∧ tokens = [(⟨.endOfFile, l.offset, 0, l.line, l.column⟩, [])] ∨
    ∃ fuel' token l' more, fuel = fuel' + 1 ∧ l.readToken classes source = some (token, l') ∧
      l'.offset < 2 ^ 32 ∧ l'.tokenize classes source fuel' = some more ∧
      tokens = token.toList.map (fun t => (t, l.consumed source l')) ++ more := by
  cases fuel with
  | zero => cases h
  | succ fuel =>
    rw [tokenize] at h
    split_ifs at h with hlt
    · obtain ⟨⟨token, l'⟩, hread, h⟩ := Option.bind_eq_some_iff.1 h
      simp only at h
      split_ifs at h with hnext
      · obtain ⟨more, hmore, heq⟩ := Option.bind_eq_some_iff.1 h
        exact .inr ⟨fuel, token, l', more, rfl, hread, hnext, hmore, (Option.some.inj heq).symm⟩
    · exact .inl ⟨hlt, (Option.some.inj h).symm⟩

/-- The last token is where the cursor is, and that is a `u32`. -/
theorem exists_endOfFile {fuel : ℕ} {tokens : List (Token × List Char)} (hfits : l.offset < 2 ^ 32)
    (h : l.tokenize classes source fuel = some tokens) :
    ∃ t ∈ tokens, t.1.kind = .endOfFile ∧ t.1.offset < 2 ^ 32 := by
  induction fuel generalizing l tokens with
  | zero => cases h
  | succ fuel ih =>
    obtain ⟨-, rfl⟩ | ⟨_, token, l', more, hfuel, -, hnext, hmore, rfl⟩ := tokenize_cases h
    · exact ⟨_, List.mem_singleton_self _, rfl, hfits⟩
    · cases hfuel
      obtain ⟨t, ht, hkind, hoffset⟩ := ih hnext hmore
      exact ⟨t, List.mem_append_right _ ht, hkind, hoffset⟩

/-- A token begins where the cursor was, and without one the source was cut there. -/
theorem readToken_offset {token : Option Token} (h : l.readToken classes source = some (token, l')) :
    (∀ t, token = some t → t.offset = l.offset) ∧ (token = none → IsBoundary source l.offset) := by
  have hpushed {t : Token} {l'' : Lexer} (ht : t.offset = l.offset)
      (heq : some (some t, l'') = some (token, l')) :
      (∀ t, token = some t → t.offset = l.offset) ∧ (token = none → IsBoundary source l.offset) := by
    cases heq
    exact ⟨fun t' ht' => Option.some.inj ht' ▸ ht, (fun hnone => nomatch hnone)⟩
  unfold readToken at h
  simp only at h
  split_ifs at h
  · exact hpushed rfl h
  · exact hpushed rfl h
  · exact hpushed rfl h
  · exact hpushed rfl h
  · exact hpushed rfl h
  · exact hpushed rfl h
  · exact hpushed rfl h
  · exact hpushed rfl h
  · obtain ⟨cut, hcut, h⟩ := Option.bind_eq_some_iff.1 h
    cases hfind : punctuators.find? fun punc => punc.isPrefixOf cut with
    | some punc =>
      rw [hfind] at h
      exact hpushed rfl h
    | none =>
      rw [hfind] at h
      cases h
      exact ⟨(fun t ht => nomatch ht), fun _ => isBoundary_of_slice hcut⟩
  · obtain ⟨cut, -, h⟩ := Option.bind_eq_some_iff.1 h
    cases hfind : punctuators.find? fun punc => punc.isPrefixOf cut with
    | some punc =>
      rw [hfind] at h
      exact hpushed rfl h
    | none =>
      rw [hfind] at h
      exact hpushed rfl h

theorem isBoundary_of_right {fuel : ℕ} {tokens : List (Token × List Char)}
    (h : l.tokenize classes source fuel = some tokens) (hright : Right source tokens) :
    IsBoundary source l.offset := by
  obtain ⟨-, rfl⟩ | ⟨_, token, l', more, -, hread, -, -, rfl⟩ := tokenize_cases h
  · exact (hright _ (List.mem_singleton_self _)).1.starts
  · obtain ⟨hsome, hnone⟩ := readToken_offset hread
    cases token with
    | none => exact hnone rfl
    | some t =>
      rw [← hsome t rfl]
      exact (hright (t, l.consumed source l') (List.mem_cons_self ..)).1.starts

/-- There is no cut behind the first byte of a longer character. -/
theorem utf8Size_of_isBoundary {c : Char} {after : List Char} (hsource : source = before ++ c :: after)
    (h : IsBoundary source (byteLength before + 1)) : c.utf8Size = 1 := by
  have hpos := c.utf8Size_pos
  rw [IsBoundary, hsource, splitAtByte_append] at h
  by_contra hne
  rw [splitAtByte, if_neg (by omega)] at h
  cases h

variable (hshort : byteLength source < 2 ^ 32) (hascii : AsciiClasses classes)
include hshort hascii

theorem tokenize_of_readable (h : l.At source before rest) (hbytes : byteLength before = before.length)
    (hread : Readable rest) :
    ∃ fuel tokens, l.tokenize classes source fuel = some tokens ∧ Right source tokens := by
  induction hn : rest.length using Nat.strongRecOn generalizing before rest l with
  | ind n ih =>
    cases rest with
    | nil =>
      have hend : l.offset = byteLength source := by rw [h.offset, h.split, List.append_nil, hbytes]
      exact ⟨1, tokenize_end classes hshort hend⟩
    | cons c rest =>
      have hlt : l.offset < len32 source := (len32_eq hshort).symm ▸ h.lt
      obtain ⟨token, l', hstep, hreads⟩ := exists_readToken hshort hascii h hbytes
      obtain ⟨hend, -, t, rfl, hkind, hexact⟩ | ⟨word, after, htext, hne, hat, hsplit, htoken, -⟩ :=
        hreads.split h hbytes
      · obtain ⟨tokens, hmore, hright⟩ := tokenize_end classes hshort hend
        refine ⟨_, _, tokenize_step hlt hstep (hend ▸ hshort) hmore, ?_⟩
        exact List.forall_mem_cons.2 ⟨⟨hexact, fun hk => absurd hk hkind⟩, hright⟩
      · obtain ⟨hword, hafter⟩ := hsplit.1 hread
        have hbytes' : byteLength (before ++ word) = (before ++ word).length := by
          rw [byteLength_append, List.length_append, hbytes, byteLength_eq_length_iff.2 hword]
        have hlength : after.length < n := by
          have := congrArg List.length htext
          have := List.length_pos_iff.2 hne
          rw [List.length_append] at *
          omega
        obtain ⟨fuel, tokens, hmore, hright⟩ := ih _ hlength hat hbytes' hafter rfl
        have hnext : l'.offset < 2 ^ 32 := by
          have := length_le_byteLength source
          have := congrArg List.length hat.split
          rw [List.length_append] at this
          have := hat.offset
          omega
        refine ⟨_, _, tokenize_step hlt hstep hnext hmore, fun t ht => ?_⟩
        rcases List.mem_append.1 ht with hmem | hmem
        · obtain ⟨t, hsome, rfl⟩ := List.mem_map.1 hmem
          obtain ⟨hkind, hexact⟩ := htoken t (Option.mem_toList.1 hsome)
          exact ⟨hexact.2 hword, fun hk => absurd hk hkind⟩
        · exact hright t hmem

theorem readable_of_tokenize {fuel : ℕ} {tokens : List (Token × List Char)} (h : l.At source before rest)
    (hbytes : byteLength before = before.length) (hrun : l.tokenize classes source fuel = some tokens)
    (hright : Right source tokens) : Readable rest := by
  induction fuel generalizing before rest l tokens with
  | zero => cases hrun
  | succ fuel ih =>
    cases rest with
    | nil => exact .nil
    | cons c rest =>
      obtain ⟨token, l', hstep, hreads⟩ := exists_readToken hshort hascii h hbytes
      obtain ⟨-, hread, -⟩ | ⟨word, after, htext, hne, hat, hsplit, htoken, hblank⟩ := hreads.split h hbytes
      · exact hread
      · obtain ⟨hend, -⟩ | ⟨_, token', l'', more, hfuel, hstep', -, hmore, rfl⟩ := tokenize_cases hrun
        · exact absurd h.lt (len32_eq hshort ▸ hend)
        · cases hfuel
          cases hstep.symm.trans hstep'
          have hmoreRight : Right source more := fun t ht => hright t (List.mem_append_right _ ht)
          have hword : ∀ c ∈ word, c.utf8Size = 1 := by
            cases token with
            | some t =>
              exact (htoken t rfl).2.1 (hright (t, l.consumed source l') (List.mem_cons_self ..)).1
            | none =>
              obtain ⟨d, rfl⟩ := hblank rfl
              have hcut := isBoundary_of_right hmore hmoreRight
              rw [hat.offset, List.length_append, ← hbytes] at hcut
              have hsource : source = before ++ d :: after := by rw [hat.split, List.append_assoc]; rfl
              exact List.forall_mem_singleton.2 (utf8Size_of_isBoundary hsource hcut)
          have hbytes' : byteLength (before ++ word) = (before ++ word).length := by
            rw [byteLength_append, List.length_append, hbytes, byteLength_eq_length_iff.2 hword]
          exact hsplit.2 ⟨hword, ih hat hbytes' hmore hmoreRight⟩

end Runs

/-- The tokens are right exactly when the source is shorter than a `u32` can count and has no character
of several bytes outside of a literal that is not closed. -/
theorem offsetsAreBytes_iff (classes : CharClasses) (hascii : AsciiClasses classes) (source : List Char) :
    OffsetsAreBytes classes source ↔ byteLength source < 2 ^ 32 ∧ Readable source := by
  have hat : new.At source [] source := ⟨rfl, rfl⟩
  constructor
  · rintro ⟨fuel, tokens, hrun, hright⟩
    obtain ⟨t, ht, hkind, hoffset⟩ := exists_endOfFile (show new.offset < 2 ^ 32 by decide) hrun
    have hshort : byteLength source < 2 ^ 32 := (hright t ht).2 hkind ▸ hoffset
    exact ⟨hshort, readable_of_tokenize hshort hascii hat rfl hrun hright⟩
  · rintro ⟨hshort, hread⟩
    exact tokenize_of_readable hshort hascii hat rfl hread

section Accents

theorem asciiClasses_ascii : AsciiClasses Preprocessor.ascii :=
  ⟨fun _ _ => rfl, fun _ _ => rfl⟩

/-- A literal that is not closed, with a character of two bytes. -/
theorem offsetsAreBytes_openLiteral : OffsetsAreBytes Preprocessor.ascii ['"', 'é'] :=
  (offsetsAreBytes_iff Preprocessor.ascii asciiClasses_ascii ['"', 'é']).2 ⟨by decide, .opened (by decide)⟩

/-- The character alone: its token is half of it, and the lexer goes on between its bytes. -/
theorem not_offsetsAreBytes_accent : ¬ OffsetsAreBytes Preprocessor.ascii ['é'] := by
  rintro ⟨fuel, tokens, hrun, hright⟩
  have hat : new.At ['é'] [] ['é'] := ⟨rfl, rfl⟩
  cases readable_of_tokenize (by decide) asciiClasses_ascii hat rfl hrun hright with
  | plain _ byte => exact absurd byte (by decide)

end Accents

end Lexer

end OpticC.Expander
