import OpticC.Frontend.BinaryChain
import OpticC.Frontend.MacroTermination
import OpticC.Frontend.Tokenizer
import Mathlib.Tactic.Ring

/-! Integer constants on their way from the source text to a node: the tokenizer, the choice
between integer and floating literals, the conversion of the token's kind and the reading of
the digits. A hexadecimal digit E makes the constant a floating literal, and what does not fit
into 32 bits becomes 0. -/

namespace OpticC

/-- `From<preprocessor::Token>` for the parser's tokens. -/
def Token.fromPreprocessor (t : Preprocessor.Token) : Token :=
  let kind : TokenKind := match t.kind with
    | .identifier => .identifier
    | .keyword => .keyword
    | .intLiteral => .intConstant
    | .floatLiteral => .floatConstant
    | .charLiteral => .charConstant
    | .stringLiteral => .stringLiteral
    | .punctuator | .preprocessor | .whitespace | .comment => .punctuator
    | .endOfFile => .eof
  ⟨kind, t.text, t.line, t.column, t.file⟩

section Digits

/-- The value of a character as a digit of some radix up to 16. -/
def digitOf (c : Char) : ℕ :=
  if 48 ≤ c.toNat ∧ c.toNat ≤ 57 then c.toNat - 48
  else if 97 ≤ c.toNat ∧ c.toNat ≤ 102 then c.toNat - 87
  else if 65 ≤ c.toNat ∧ c.toNat ≤ 70 then c.toNat - 55
  else 16

def IsDigit (radix : ℕ) (c : Char) : Prop := digitOf c < radix

instance (radix : ℕ) (c : Char) : Decidable (IsDigit radix c) :=
  inferInstanceAs (Decidable (digitOf c < radix))

def digitsValue (radix acc : ℕ) (digits : List Char) : ℕ :=
  digits.foldl (fun acc c => acc * radix + digitOf c) acc

theorem digitOf_cases {c : Char} (h : IsDigit 16 c) :
    (48 ≤ c.toNat ∧ c.toNat ≤ 57 ∧ digitOf c = c.toNat - 48) ∨
      (97 ≤ c.toNat ∧ c.toNat ≤ 102 ∧ digitOf c = c.toNat - 87) ∨
        (65 ≤ c.toNat ∧ c.toNat ≤ 70 ∧ digitOf c = c.toNat - 55) := by
  unfold IsDigit at h
  unfold digitOf at h ⊢
  split_ifs at h ⊢ with h0 ha hA
  · exact .inl ⟨h0.1, h0.2, rfl⟩
  · exact .inr (.inl ⟨ha.1, ha.2, rfl⟩)
  · exact .inr (.inr ⟨hA.1, hA.2, rfl⟩)
  · exact absurd h (Nat.lt_irrefl 16)

theorem IsDigit.toNat_lt {radix : ℕ} {c : Char} (h : IsDigit radix c) (hr : radix ≤ 16) :
    c.toNat < 128 := by
  rcases digitOf_cases (Nat.lt_of_lt_of_le h hr) with h | h | h <;> omega

def byteOf (c : Char) : UInt8 := UInt8.ofNat c.toNat

theorem byteOf_toNat {c : Char} (h : c.toNat < 128) : (byteOf c).toNat = c.toNat := by
  rw [byteOf, UInt8.toNat_ofNat']
  exact Nat.mod_eq_of_lt (by omega)

theorem byteOf_ne {c : Char} (hc : c.toNat < 128) {n : ℕ} (hn : n < 256) (hcn : c.toNat ≠ n) :
    byteOf c ≠ UInt8.ofNat n := by
  intro heq
  have hnat := congrArg UInt8.toNat heq
  rw [byteOf_toNat hc, UInt8.toNat_ofNat', Nat.mod_eq_of_lt (by omega)] at hnat
  exact hcn hnat

theorem textBytes_ofList {cs : List Char} (h : ∀ c ∈ cs, c.toNat < 128) :
    textBytes (String.ofList cs) = cs.map byteOf := by
  rw [textBytes, String.toByteArray_ofList, List.utf8Encode, List.data_toByteArray]
  induction cs with
  | nil => rfl
  | cons c rest ih =>
    have hc : String.utf8EncodeChar c = [byteOf c] :=
      if_pos (Nat.le_of_lt_succ (h c List.mem_cons_self))
    rw [List.flatMap_cons, hc, List.map_cons, ← ih fun d hd => h d (List.mem_cons_of_mem c hd)]
    rfl

theorem digitValue_byteOf {radix : ℕ} {c : Char} (h : IsDigit radix c) (hr : radix ≤ 16) :
    digitValue radix (byteOf c) = some (digitOf c) := by
  have hlt := h.toNat_lt hr
  have hvalue : (if 48 ≤ c.toNat ∧ c.toNat ≤ 57 then c.toNat - 48
      else if 97 ≤ c.toNat ∧ c.toNat ≤ 122 then c.toNat - 87
      else if 65 ≤ c.toNat ∧ c.toNat ≤ 90 then c.toNat - 55
      else radix) = digitOf c := by
    rcases digitOf_cases (Nat.lt_of_lt_of_le h hr) with ⟨h1, h2, hd⟩ | ⟨h1, h2, hd⟩ | ⟨h1, h2, hd⟩
    · rw [if_pos ⟨h1, h2⟩, hd]
    · rw [if_neg (by omega), if_pos ⟨h1, by omega⟩, hd]
    · rw [if_neg (by omega), if_neg (by omega), if_pos ⟨h1, by omega⟩, hd]
  unfold digitValue
  simp only [byteOf_toNat hlt, hvalue]
  exact if_pos h

theorem digitsValue_cons (radix acc : ℕ) (c : Char) (rest : List Char) :
    digitsValue radix acc (c :: rest) = digitsValue radix (acc * radix + digitOf c) rest := rfl

/-- Reading on never makes the value smaller. -/
theorem le_digitsValue {radix : ℕ} (hr : 0 < radix) (acc : ℕ) (digits : List Char) :
    acc ≤ digitsValue radix acc digits := by
  induction digits generalizing acc with
  | nil => exact Nat.le_refl acc
  | cons c rest ih =>
    calc acc ≤ acc * radix := Nat.le_mul_of_pos_right acc hr
      _ ≤ acc * radix + digitOf c := Nat.le_add_right _ _
      _ ≤ digitsValue radix acc (c :: rest) := ih _

/-- The digits are read as a number, and a number past the limit as none. -/
theorem foldlM_digits {radix limit : ℕ} (hpos : 0 < radix) (hr : radix ≤ 16) {digits : List Char}
    (hdigits : ∀ c ∈ digits, IsDigit radix c) {acc : ℕ} (hacc : acc < limit) :
    (digits.map byteOf).foldlM (fun acc b => (digitValue radix b).bind fun d =>
      if acc * radix + d < limit then some (acc * radix + d) else none) acc =
        if digitsValue radix acc digits < limit then some (digitsValue radix acc digits)
        else none := by
  induction digits generalizing acc with
  | nil => exact (if_pos hacc).symm
  | cons c rest ih =>
    rw [List.map_cons, List.foldlM_cons, digitValue_byteOf (hdigits c List.mem_cons_self) hr,
      Option.bind_some, digitsValue_cons]
    by_cases hstep : acc * radix + digitOf c < limit
    · rw [if_pos hstep]
      exact ih (fun d hd => hdigits d (List.mem_cons_of_mem c hd)) hstep
    · have hle := le_digitsValue hpos (acc * radix + digitOf c) rest
      rw [if_neg hstep, if_neg (by omega)]
      rfl

theorem u32FromStrRadix_digits {radix : ℕ} (hpos : 0 < radix) (hr : radix ≤ 16)
    {digits : List Char} (hne : digits ≠ []) (hdigits : ∀ c ∈ digits, IsDigit radix c) :
    u32FromStrRadix radix (digits.map byteOf) =
      if digitsValue radix 0 digits < 2 ^ 32 then some (digitsValue radix 0 digits) else none := by
  have hplus : ∀ c ∈ digits, byteOf c ≠ 43 := fun c hc =>
    have hcases := digitOf_cases (Nat.lt_of_lt_of_le (hdigits c hc) hr)
    byteOf_ne ((hdigits c hc).toNat_lt hr) (n := 43) (by decide) (by omega)
  rw [← foldlM_digits hpos hr hdigits (Nat.two_pow_pos 32)]
  match digits, hne with
  | [c], _ => simp only [u32FromStrRadix, List.map_cons, List.map_nil,
      if_neg (hplus c List.mem_cons_self)]
  | c :: d :: rest, _ => simp only [u32FromStrRadix, List.map_cons,
      if_neg (hplus c List.mem_cons_self)]

end Digits

inductive Base where
  | decimal | octal | hex (upper : Bool)
  deriving DecidableEq, Repr

namespace Base

def radix : Base → ℕ
  | decimal => 10
  | octal => 8
  | hex _ => 16

/-- What stands in front of the digits. -/
def lead : Base → List Char
  | decimal => []
  | octal => ['0']
  | hex upper => ['0', if upper then 'X' else 'x']

/-- A decimal constant begins with a digit other than 0, and 0 itself is octal. -/
def Shape : Base → List Char → Prop
  | decimal, digits => ∃ d rest, digits = d :: rest ∧ d ≠ '0'
  | octal, _ => True
  | hex _, digits => digits ≠ []

end Base

theorem noSuffix_valid : ∀ c ∈ ([] : List Char), c ∈ ['u', 'U', 'l', 'L'] :=
  fun _ h => absurd h List.not_mem_nil

/-- A C integer constant, with any suffix of the letters U and L. -/
structure IntConstant where
  base : Base
  digits : List Char
  suffix : List Char
  shape : base.Shape digits
  digits_valid : ∀ c ∈ digits, IsDigit base.radix c
  suffix_valid : ∀ c ∈ suffix, c ∈ ['u', 'U', 'l', 'L']

namespace IntConstant

variable (k : IntConstant)

def text : List Char := k.base.lead ++ k.digits ++ k.suffix

def value : ℕ := digitsValue k.base.radix 0 k.digits

def isSuffixByte (b : UInt8) : Bool := b == 117 || b == 85 || b == 108 || b == 76

theorem trimSuffix {front rear : List UInt8} (hrear : ∀ b ∈ rear, isSuffixByte b = true)
    (hfront : ∀ b ∈ front, isSuffixByte b = false) :
    ((front ++ rear).reverse.dropWhile isSuffixByte).reverse = front := by
  rw [List.reverse_append, List.dropWhile_append_of_pos fun b hb => hrear b (List.mem_reverse.1 hb)]
  have hkeep : front.reverse.dropWhile isSuffixByte = front.reverse := by
    cases hrev : front.reverse with
    | nil => rfl
    | cons b rest =>
      have hb : b ∈ front := List.mem_reverse.1 (hrev ▸ List.mem_cons_self)
      exact List.dropWhile_cons_of_neg (by rw [hfront b hb]; exact Bool.false_ne_true)
  rw [hkeep, List.reverse_reverse]

variable {k}

theorem radix_pos : 0 < k.base.radix := by
  cases k.base <;> exact Nat.succ_pos _

theorem radix_le : k.base.radix ≤ 16 := by
  cases k.base with
  | decimal => decide
  | octal => decide
  | hex upper => exact Nat.le_refl 16

theorem lead_cases {c : Char} (h : c ∈ k.base.lead) : c = '0' ∨ c = 'x' ∨ c = 'X' := by
  revert h
  cases k.base with
  | decimal => simp [Base.lead]
  | octal => simp +contextual [Base.lead]
  | hex upper => cases upper <;> simp [Base.lead] <;> rintro (rfl | rfl) <;> simp

theorem isSuffixByte_digit {c : Char} (h : IsDigit k.base.radix c) :
    isSuffixByte (byteOf c) = false := by
  have hlt := h.toNat_lt k.radix_le
  have hcases := digitOf_cases (Nat.lt_of_lt_of_le h k.radix_le)
  simp only [isSuffixByte, Bool.or_eq_false_iff, beq_eq_false_iff_ne]
  exact ⟨⟨⟨byteOf_ne hlt (n := 117) (by decide) (by omega),
    byteOf_ne hlt (n := 85) (by decide) (by omega)⟩,
    byteOf_ne hlt (n := 108) (by decide) (by omega)⟩,
    byteOf_ne hlt (n := 76) (by decide) (by omega)⟩

theorem text_ascii {c : Char} (h : c ∈ k.text) : c.toNat < 128 := by
  rw [text, List.mem_append, List.mem_append] at h
  rcases h with (h | h) | h
  · rcases k.lead_cases h with rfl | rfl | rfl <;> decide
  · exact (k.digits_valid c h).toNat_lt k.radix_le
  · have hc := k.suffix_valid c h
    simp only [List.mem_cons, List.not_mem_nil, or_false] at hc
    rcases hc with rfl | rfl | rfl | rfl <;> decide

theorem trimmed_bytes : ((textBytes (String.ofList k.text)).reverse.dropWhile fun b =>
    b == 117 || b == 85 || b == 108 || b == 76).reverse =
      (k.base.lead ++ k.digits).map byteOf := by
  rw [textBytes_ofList fun c hc => k.text_ascii hc, text, List.map_append]
  refine trimSuffix ?_ ?_
  · intro b hb
    obtain ⟨c, hc, rfl⟩ := List.mem_map.1 hb
    have hmem := k.suffix_valid c hc
    simp only [List.mem_cons, List.not_mem_nil, or_false] at hmem
    rcases hmem with rfl | rfl | rfl | rfl <;> decide
  · intro b hb
    obtain ⟨c, hc, rfl⟩ := List.mem_map.1 hb
    rcases List.mem_append.1 hc with hc | hc
    · rcases k.lead_cases hc with rfl | rfl | rfl <;> decide
    · exact isSuffixByte_digit (k.digits_valid c hc)

/-- The radix that the lead selects is the one of the constant; `octal` reads what is behind
the 0. -/
theorem read_lead {α : Type} (read : ℕ → List UInt8 → α) (octal : UInt8 → List UInt8 → α)
    {base : Base} {digits : List Char} (hshape : base.Shape digits)
    (hdigits : ∀ c ∈ digits, IsDigit base.radix c) (bytes : List UInt8) :
    bytes = (base.lead ++ digits).map byteOf →
    (match bytes with
      | 48 :: 120 :: hex => read 16 hex
      | 48 :: 88 :: hex => read 16 hex
      | 48 :: d :: rest => octal d rest
      | _ => read 10 bytes) =
        match base, digits with
        | .octal, [] => read 10 [48]
        | .octal, d :: rest => octal (byteOf d) (rest.map byteOf)
        | _, _ => read base.radix (digits.map byteOf) := by
  rintro rfl
  cases base with
  | decimal =>
    obtain ⟨d, rest, rfl, hd⟩ := hshape
    have hd48 : byteOf d ≠ 48 :=
      byteOf_ne ((hdigits d List.mem_cons_self).toNat_lt (by decide)) (n := 48) (by decide)
        fun h => hd (Char.toNat_inj.1 h)
    split
    · rename_i h
      exact absurd (List.cons.inj h).1 hd48
    · rename_i h
      exact absurd (List.cons.inj h).1 hd48
    · rename_i h
      exact absurd (List.cons.inj h).1 hd48
    · rfl
  | octal =>
    cases digits with
    | nil => rfl
    | cons d rest =>
      have hdigit := hdigits d List.mem_cons_self
      have hcases := digitOf_cases (Nat.lt_of_lt_of_le hdigit (by decide))
      unfold IsDigit Base.radix at hdigit
      split
      · rename_i h
        exact absurd (List.cons.inj (List.cons.inj h).2).1
          (byteOf_ne (by omega) (n := 120) (by decide) (by omega))
      · rename_i h
        exact absurd (List.cons.inj (List.cons.inj h).2).1
          (byteOf_ne (by omega) (n := 88) (by decide) (by omega))
      · rename_i h
        obtain ⟨hd, hrest⟩ := List.cons.inj (List.cons.inj h).2
        rw [← hd, ← hrest]
      · rename_i h
        exact absurd rfl (h _ _)
  | hex upper => cases upper <;> rfl

theorem intConstantValue_text : intConstantValue (String.ofList k.text) =
    if k.value < 2 ^ 32 then k.value else 0 := by
  refine Eq.trans (read_lead (fun radix bytes => (u32FromStrRadix radix bytes).getD 0)
    (fun d rest => (u32FromStrRadix 8 (d :: rest)).getD 0) k.shape k.digits_valid _
    k.trimmed_bytes) ?_
  have hread : k.digits ≠ [] → (u32FromStrRadix k.base.radix (k.digits.map byteOf)).getD 0 =
      if k.value < 2 ^ 32 then k.value else 0 := by
    intro hne
    rw [u32FromStrRadix_digits k.radix_pos k.radix_le hne k.digits_valid, value]
    split_ifs <;> rfl
  obtain ⟨base, digits, suffix, hshape, hdigits, hsuffix⟩ := k
  cases base with
  | decimal =>
    obtain ⟨d, rest, rfl, _⟩ := hshape
    exact hread (List.cons_ne_nil d rest)
  | octal =>
    cases digits with
    | nil => rfl
    | cons d rest => exact hread (List.cons_ne_nil d rest)
  | hex upper => exact hread hshape

/-- No digit is an E, where the digits are hexadecimal. -/
def NoExponent : Prop := ∀ c ∈ k.digits, c ≠ 'e' ∧ c ≠ 'E'

instance : Decidable k.NoExponent :=
  inferInstanceAs (Decidable (∀ c ∈ k.digits, c ≠ 'e' ∧ c ≠ 'E'))

theorem looksFloat_text : Preprocessor.looksFloat (String.ofList k.text) = true ↔ ¬k.NoExponent := by
  have hlead : ∀ c ∈ k.base.lead, c ≠ '.' ∧ c ≠ 'e' ∧ c ≠ 'E' := by
    intro c hc
    rcases k.lead_cases hc with rfl | rfl | rfl <;> decide
  have hrear : ∀ c ∈ k.suffix, c ≠ '.' ∧ c ≠ 'e' ∧ c ≠ 'E' := by
    intro c hc
    have hmem := k.suffix_valid c hc
    simp only [List.mem_cons, List.not_mem_nil, or_false] at hmem
    rcases hmem with rfl | rfl | rfl | rfl <;> decide
  have hdot : '.' ∉ k.digits := by
    intro h
    have hdigit := Nat.lt_of_lt_of_le (k.digits_valid '.' h) k.radix_le
    revert hdigit
    decide
  have hmem : ∀ c : Char, c = 'e' ∨ c = 'E' → (c ∈ k.text ↔ c ∈ k.digits) := by
    intro c hc
    rw [text, List.mem_append, List.mem_append]
    constructor
    · rintro ((h | h) | h)
      · exact absurd hc (not_or.2 (hlead c h).2)
      · exact h
      · exact absurd hc (not_or.2 (hrear c h).2)
    · exact fun h => .inl (.inr h)
  have hnodot : '.' ∉ k.text := by
    rw [text, List.mem_append, List.mem_append]
    rintro ((h | h) | h)
    · exact (hlead '.' h).1 rfl
    · exact hdot h
    · exact (hrear '.' h).1 rfl
  rw [Preprocessor.looksFloat, String.toList_ofList]
  simp only [Bool.or_eq_true, List.contains_iff_mem, hnodot, false_or, hmem _ (.inl rfl),
    hmem _ (.inr rfl), NoExponent, not_forall, not_and_or, not_not, exists_prop]
  constructor
  · rintro (h | h)
    · exact ⟨'e', h, .inl rfl⟩
    · exact ⟨'E', h, .inr rfl⟩
  · rintro ⟨c, h, rfl | rfl⟩
    · exact .inl h
    · exact .inr h

section Path

open Preprocessor

variable {classes : CharClasses}

theorem isNumberChar_of_mem (hascii : classes.OnAscii) {c : Char} (h : c ∈ k.text) :
    isNumberChar classes c = true := by
  have halnum : c.isAlphanum = true := by
    rw [text, List.mem_append, List.mem_append] at h
    rcases h with (h | h) | h
    · rcases k.lead_cases h with rfl | rfl | rfl <;> decide
    · have hcases := digitOf_cases (Nat.lt_of_lt_of_le (k.digits_valid c h) k.radix_le)
      rw [isAlphanum_iff]
      omega
    · have hmem := k.suffix_valid c h
      simp only [List.mem_cons, List.not_mem_nil, or_false] at hmem
      rcases hmem with rfl | rfl | rfl | rfl <;> decide
  rw [isNumberChar, hascii c (k.text_ascii h), halnum]
  rfl

theorem text_head (k : IntConstant) : ∃ c rest, k.text = c :: rest ∧ c.isDigit = true := by
  obtain ⟨base, digits, suffix, shape, hdigits, hsuffix⟩ := k
  cases base with
  | decimal =>
    obtain ⟨d, rest, rfl, hd⟩ := shape
    refine ⟨d, rest ++ suffix, rfl, ?_⟩
    have hdigit := hdigits d List.mem_cons_self
    have hcases := digitOf_cases (Nat.lt_of_lt_of_le hdigit (by decide))
    have hten : digitOf d < 10 := hdigit
    rw [isDigit_iff]
    omega
  | octal => exact ⟨'0', digits ++ suffix, rfl, by decide⟩
  | hex upper => exact ⟨'0', (if upper then 'X' else 'x') :: (digits ++ suffix), rfl, by decide⟩

/-- The tokenizer reads the whole constant, and nothing behind it. -/
theorem tokenize_text (hascii : classes.OnAscii) {after : List Char}
    (hafter : ∀ c ∈ after.head?, isNumberChar classes c = false) (line col : ℕ) :
    tokenizePpSource classes (k.text ++ after) line col =
      ⟨.number, String.ofList k.text, line, col⟩ ::
        tokenizePpSource classes after line (col + k.text.length) := by
  obtain ⟨c, rest, htext, hc⟩ := k.text_head
  have hrest : ∀ d ∈ rest, isNumberChar classes d = true := fun d hd =>
    isNumberChar_of_mem hascii (htext ▸ List.mem_cons_of_mem c hd)
  have hstop : after.takeWhile (isNumberChar classes) = [] ∧
      after.dropWhile (isNumberChar classes) = after := by
    cases after with
    | nil => exact ⟨rfl, rfl⟩
    | cons d more =>
      have hd := hafter d rfl
      exact ⟨List.takeWhile_cons_of_neg (by simp [hd]), List.dropWhile_cons_of_neg (by simp [hd])⟩
  have hne : ∀ d : Char, d.isDigit = false → c ≠ d := by
    rintro d hd rfl
    rw [hd] at hc
    cases hc
  rw [htext, List.cons_append, tokenizePpSource_cons classes (hne _ (by decide))]
  have hlex : lexToken classes c (rest ++ after) line col =
      (⟨.number, String.ofList (c :: rest), line, col⟩, after, line, col + (c :: rest).length) := by
    unfold lexToken
    rw [if_neg (hne _ (by decide)), if_neg (by simp [isBlank, hne]),
      if_neg (not_or.2 ⟨hne _ (by decide), hne _ (by decide)⟩),
      if_neg (fun h => hne _ (by decide) h.1), if_neg (fun h => hne _ (by decide) h.1), if_pos hc,
      List.takeWhile_append_of_pos hrest, List.dropWhile_append_of_pos hrest, hstop.1, hstop.2,
      List.append_nil]
  rw [hlex]

variable (k) in
/-- The token that the constant becomes, in a file at a line and column. -/
def token (file : String) (line col : ℕ) : Preprocessor.Token :=
  ⟨if looksFloat (String.ofList k.text) then .floatLiteral else .intLiteral, String.ofList k.text,
    line, col, file⟩

theorem ppTokensToTokens_text (hascii : classes.OnAscii) {after : List Char}
    (hafter : ∀ c ∈ after.head?, isNumberChar classes c = false) (file : String) (line col : ℕ) :
    ppTokensToTokens (tokenizePpSource classes (k.text ++ after) line col) file =
      k.token file line col ::
        ppTokensToTokens (tokenizePpSource classes after line (col + k.text.length)) file := by
  rw [tokenize_text hascii hafter]
  rfl

/-- A literal is no macro, and the expansion lets it through. -/
theorem scanToken_token (table : MacroTable) (expanding : List String)
    (rest : List Preprocessor.Token) (file : String) (line col : ℕ) :
    scanToken classes table expanding (k.token file line col) rest =
      (.push (k.token file line col), rest) := by
  refine if_pos ?_
  unfold token
  split_ifs <;> exact fun h => nomatch h

variable (k) in
/-- The constant in front of `after` becomes one token, which macro expansion leaves as it is,
and the parser at that token reports an error or makes a node with the constant's value. -/
def KeepsValue (classes : CharClasses) (after : List Char) (file : String) (line col : ℕ) : Prop :=
  ∃ t rest, ppTokensToTokens (tokenizePpSource classes (k.text ++ after) line col) file =
      t :: rest ∧ (∀ table, scanToken classes table [] t rest = (.push t, rest)) ∧
    ∀ (G : Productions) (fuel : ℕ) (p : Parser), p.current < p.tokens.length →
      p.currentToken = Token.fromPreprocessor t →
        (∃ e p', parsePrimaryExpression G (fuel + 1) p = .error e p') ∨
          parsePrimaryExpression G (fuel + 1) p = (do advance; allocNode 61 k.value 0 0 0) p

end Path

section Primary

variable {G : Productions} {fuel : ℕ} {p : Parser}

/-- A constant or a string literal is neither a punctuator nor a word. -/
theorem not_punct_of_constant {t : Token}
    (h : t.kind ∈ [.intConstant, .floatConstant, .charConstant, .stringLiteral]) :
    (∀ s, Parser.isPunct t s = false) ∧ Parser.isWord t = false := by
  simp only [List.mem_cons, List.not_mem_nil, or_false] at h
  rcases h with h | h | h | h <;> simp [Parser.isPunct, Parser.isWord, h]

theorem parsePrimary_intConstant (h : p.currentToken.kind = .intConstant) :
    parsePrimaryExpression G (fuel + 1) p =
      (do advance; allocNode 61 (intConstantValue p.currentToken.text) 0 0 0 : ParserM ℕ) p := by
  obtain ⟨hpunct, hword⟩ := not_punct_of_constant (t := p.currentToken) (by simp [h])
  rw [parsePrimaryExpression]
  simp only [get_bind, hpunct, hword, Bool.false_and, Bool.false_eq_true, if_false, h]

theorem parsePrimary_floatConstant (h : p.currentToken.kind = .floatConstant) :
    parsePrimaryExpression G (fuel + 1) p = .ok 0 p := by
  obtain ⟨hpunct, hword⟩ := not_punct_of_constant (t := p.currentToken) (by simp [h])
  rw [parsePrimaryExpression]
  simp only [get_bind, hpunct, hword, Bool.false_and, Bool.false_eq_true, if_false, h]
  rfl

end Primary

theorem advance_parserAt (t : Token) (data : ℕ) :
    (do advance; allocNode 61 data 0 0 0 : ParserM ℕ) (parserAt [t]) =
      .ok 1 { parserAt [t] with
        current := 1
        arena := ((((Arena.new 1024).get rfl).alloc ⟨61, true, 0, 0, 0, data⟩).get rfl).2 } := rfl

/-- The data of the first node that a run makes. -/
def firstData : EStateM.Result Fault Parser ℕ → ℕ
  | .ok _ p => (p.arena.nodes 1).data
  | .error _ _ => 0

open Preprocessor in
/-- The value is kept where no digit is an E and the value fits into 32 bits. -/
theorem keepsValue_iff (k : IntConstant) {classes : CharClasses} (hascii : classes.OnAscii)
    {after : List Char} (hafter : ∀ c ∈ after.head?, isNumberChar classes c = false)
    (file : String) (line col : ℕ) :
    k.KeepsValue classes after file line col ↔ k.NoExponent ∧ k.value < 2 ^ 32 := by
  have hpath := ppTokensToTokens_text (k := k) hascii hafter file line col
  constructor
  · rintro ⟨t, rest, htokens, -, hparse⟩
    rw [hpath] at htokens
    obtain ⟨rfl, -⟩ := List.cons.inj htokens
    have hrun := hparse noProductions 0 (parserAt [Token.fromPreprocessor (k.token file line col)])
      Nat.one_pos rfl
    rw [advance_parserAt] at hrun
    by_cases hexp : looksFloat (String.ofList k.text) = true
    · -- a floating literal is not consumed
      rw [parsePrimary_floatConstant (by simp [parserAt, Parser.currentToken, token, hexp,
        Token.fromPreprocessor])] at hrun
      rcases hrun with ⟨e, p', h⟩ | h
      · cases h
      · cases h
    · refine ⟨not_not.1 (mt k.looksFloat_text.2 hexp), ?_⟩
      rw [parsePrimary_intConstant (by simp [parserAt, Parser.currentToken, token, hexp,
        Token.fromPreprocessor]), advance_parserAt] at hrun
      rcases hrun with ⟨e, p', h⟩ | h
      · cases h
      · have hdata : intConstantValue (String.ofList k.text) = k.value := congrArg firstData h
        rw [k.intConstantValue_text] at hdata
        split_ifs at hdata with hlt
        · exact hlt
        · exact hdata ▸ Nat.two_pow_pos 32
  · rintro ⟨hexp, hvalue⟩
    have hint : looksFloat (String.ofList k.text) = false :=
      Bool.eq_false_iff.2 (mt k.looksFloat_text.1 (not_not.2 hexp))
    refine ⟨k.token file line col, _, hpath, fun table => scanToken_token table [] _ file line col,
      fun G fuel p _ hp => .inr ?_⟩
    rw [parsePrimary_intConstant (by simp [hp, token, hint, Token.fromPreprocessor]), hp]
    have htext : (Token.fromPreprocessor (k.token file line col)).text = String.ofList k.text := rfl
    rw [htext, k.intConstantValue_text, if_pos hvalue]

open Preprocessor

/-- `31ul;` -/
def thirtyOne : IntConstant :=
  ⟨.decimal, ['3', '1'], ['u', 'l'], ⟨'3', ['1'], rfl, by decide⟩,
    by simp [IsDigit, digitOf, Base.radix], by simp⟩

/-- `0x1e;` -/
def hexThirty : IntConstant :=
  ⟨.hex false, ['1', 'e'], [], List.cons_ne_nil _ _, by simp [IsDigit, digitOf, Base.radix],
    noSuffix_valid⟩

theorem ascii_onAscii : ascii.OnAscii := by
  intro c _
  rfl

theorem keepsValue_thirtyOne : thirtyOne.KeepsValue ascii [';'] "a.c" 1 1 :=
  (keepsValue_iff thirtyOne ascii_onAscii (by simp; decide) "a.c" 1 1).2
    ⟨by simp [NoExponent, thirtyOne], by decide⟩

/-- `0x1e` becomes a floating literal. -/
theorem not_keepsValue_hexThirty :
    hexThirty.value = 30 ∧ ¬hexThirty.KeepsValue ascii [';'] "a.c" 1 1 := by
  refine ⟨rfl, ?_⟩
  rintro ⟨t, rest, htokens, -, hparse⟩
  rw [ppTokensToTokens_text ascii_onAscii (by simp; decide)] at htokens
  obtain ⟨rfl, -⟩ := List.cons.inj htokens
  have hrun := hparse noProductions 0
    (parserAt [Token.fromPreprocessor (hexThirty.token "a.c" 1 1)]) Nat.one_pos rfl
  rw [advance_parserAt, parsePrimary_floatConstant rfl] at hrun
  rcases hrun with ⟨e, p', h⟩ | h
  · cases h
  · cases h

end IntConstant

end OpticC
