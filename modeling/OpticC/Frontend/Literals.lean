import OpticC.Frontend.IntegerConstants

/-! String literals and character constants of C11 (6.4.4.4, 6.4.5): the text that spells them,
the bytes they stand for, and what the three tables of the parser make of that text. -/

namespace OpticC

def simpleEscapeLetters : List Char := ['\'', '"', '?', '\\', 'a', 'b', 'f', 'n', 'r', 't', 'v']

def simpleEscapeValue (letter : Char) : ℕ :=
  match letter with
  | 'a' => 7 | 'b' => 8 | 'f' => 12 | 'n' => 10 | 'r' => 13 | 't' => 9 | 'v' => 11
  | c => c.toNat

/-- An escape sequence; the value of a numeric one fits into an `unsigned char`. -/
inductive Escape where
  | simple (letter : Char) (h : letter ∈ simpleEscapeLetters)
  | octal (digits : List Char) (hlength : 1 ≤ digits.length ∧ digits.length ≤ 3)
    (h : ∀ d ∈ digits, IsDigit 8 d) (hvalue : digitsValue 8 0 digits < 256)
  | hexadecimal (digits : List Char) (hne : digits ≠ []) (h : ∀ d ∈ digits, IsDigit 16 d)
    (hvalue : digitsValue 16 0 digits < 256)

namespace Escape

def spelling : Escape → List Char
  | simple letter _ => ['\\', letter]
  | octal digits _ _ _ => '\\' :: digits
  | hexadecimal digits _ _ _ => '\\' :: 'x' :: digits

def value : Escape → ℕ
  | simple letter _ => simpleEscapeValue letter
  | octal digits _ _ _ => digitsValue 8 0 digits
  | hexadecimal digits _ _ _ => digitsValue 16 0 digits

/-- The character behind the escape would belong to it. -/
def TakesUp : Escape → Char → Prop
  | simple _ _, _ => False
  | octal digits _ _ _, c => digits.length < 3 ∧ IsDigit 8 c
  | hexadecimal _ _ _ _, c => IsDigit 16 c

end Escape

/-- What a literal is made of. -/
inductive Element where
  | plain (c : Char)
  | escape (e : Escape)

namespace Element

def spelling : Element → List Char
  | plain c => [c]
  | escape e => e.spelling

/-- The bytes in C: the source character itself, or one byte for an escape. -/
def bytes : Element → List UInt8
  | plain c => String.utf8EncodeChar c
  | escape e => [UInt8.ofNat e.value]

def TakesUp : Element → Element → Prop
  | escape e, plain c => e.TakesUp c
  | _, _ => False

/-- The characters that the parser's loop with this table pushes for the element. -/
def decoded (escapes : Char → Option Char) : Element → List Char
  | plain c => [c]
  | escape (.simple letter _) => (escapes letter).elim ['\\', letter] fun c => [c]
  | escape (.octal digits _ _ _) =>
    match digits with
    | [] => []
    | d :: more => (escapes d).elim ['\\', d] (fun c => [c]) ++ more
  | escape (.hexadecimal digits _ _ _) => '\\' :: 'x' :: digits

end Element

/-- One string literal, read by maximal munch. -/
structure Segment where
  elements : List Element
  plain : ∀ c, Element.plain c ∈ elements → c ≠ '"' ∧ c ≠ '\\' ∧ c ≠ '\n'
  maximal : elements.IsChain fun x y => ¬x.TakesUp y

/-- A character constant of one character or escape. -/
structure CharacterConstant where
  element : Element
  plain : ∀ c, element = .plain c → c ≠ '\'' ∧ c ≠ '\\' ∧ c ≠ '\n'

namespace Segment

def text (s : Segment) : List Char := '"' :: (s.elements.flatMap Element.spelling ++ ['"'])

def bytes (s : Segment) : List UInt8 := s.elements.flatMap Element.bytes

def decoded (escapes : Char → Option Char) (s : Segment) : List Char :=
  s.elements.flatMap (Element.decoded escapes)

end Segment

namespace CharacterConstant

def text (k : CharacterConstant) : List Char := '\'' :: (k.element.spelling ++ ['\''])

/-- The value as an `unsigned char`; C leaves that of a character of several bytes open. -/
def value (k : CharacterConstant) : Option ℕ :=
  match k.element with
  | .plain c => if c.toNat < 128 then some c.toNat else none
  | .escape e => some e.value

end CharacterConstant

section Tables

/-- A table of the parser that knows the simple escapes but for the missing ones, and `\0`. -/
structure EscapeTable (escapes : Char → Option Char) (missing : List Char) : Prop where
  simple : ∀ c ∈ simpleEscapeLetters, c ∉ missing →
    ∃ d, escapes c = some d ∧ String.utf8EncodeChar d = [UInt8.ofNat (simpleEscapeValue c)]
  missing : ∀ c ∈ missing, escapes c = none
  zero : escapes '0' = some '\x00'
  digit : ∀ d, IsDigit 8 d → d ≠ '0' → escapes d = none
  hex : escapes 'x' = none

/-- A digit other than `0` is no letter of the tables. -/
theorem commonEscapes_digit {c : Char} (h : 49 ≤ c.toNat ∧ c.toNat ≤ 55) :
    commonEscapes c = none := by
  have hne : ∀ d : Char, ¬(49 ≤ d.toNat ∧ d.toNat ≤ 55) → c ≠ d := by
    rintro d hd rfl
    exact hd h
  unfold commonEscapes
  split
  case h_8 => rfl
  all_goals exact absurd rfl (hne _ (by decide))

theorem firstEscapes_digit {c : Char} (h : 49 ≤ c.toNat ∧ c.toNat ≤ 55) :
    firstEscapes c = none := by
  have hne : ∀ d : Char, ¬(49 ≤ d.toNat ∧ d.toNat ≤ 55) → c ≠ d := by
    rintro d hd rfl
    exact hd h
  unfold firstEscapes
  split
  case h_5 => exact commonEscapes_digit h
  all_goals exact absurd rfl (hne _ (by decide))

theorem octalDigit_cases {d : Char} (h : IsDigit 8 d) (hzero : d ≠ '0') :
    49 ≤ d.toNat ∧ d.toNat ≤ 55 := by
  have hlt : digitOf d < 8 := h
  have hne : d.toNat ≠ 48 := fun h => hzero (Char.toNat_inj.1 h)
  rcases digitOf_cases (Nat.lt_trans hlt (by decide)) with hc | hc | hc <;> omega

theorem simple_of_all {escapes : Char → Option Char} {missing : List Char}
    (h : simpleEscapeLetters.all (fun c => missing.contains c || (escapes c).any fun d =>
      String.utf8EncodeChar d == [UInt8.ofNat (simpleEscapeValue c)]) = true) :
    ∀ c ∈ simpleEscapeLetters, c ∉ missing →
      ∃ d, escapes c = some d ∧
        String.utf8EncodeChar d = [UInt8.ofNat (simpleEscapeValue c)] := by
  intro c hc hmissing
  have hany := List.all_eq_true.1 h c hc
  rw [Bool.or_eq_true, List.contains_iff_mem] at hany
  obtain ⟨hs, henc⟩ := (Option.any_eq_true_iff_get _ _).1 (hany.resolve_left hmissing)
  exact ⟨(escapes c).get hs, (Option.some_get hs).symm, eq_of_beq henc⟩

theorem firstEscapes_table : EscapeTable firstEscapes ['?'] where
  simple := simple_of_all (by decide)
  missing := List.forall_mem_singleton.2 rfl
  zero := rfl
  digit := fun _ h hzero => firstEscapes_digit (octalDigit_cases h hzero)
  hex := rfl

theorem commonEscapes_table : EscapeTable commonEscapes ['?', 'a', 'b', 'f', 'v'] where
  simple := simple_of_all (by decide)
  missing := by simp [commonEscapes]
  zero := rfl
  digit := fun _ h hzero => commonEscapes_digit (octalDigit_cases h hzero)
  hex := rfl

end Tables

section Unescaping

variable {escapes : Char → Option Char}

theorem unescape_plain {c : Char} (hc : c ≠ '\\') (rest : List Char) :
    unescape escapes (c :: rest) = c :: unescape escapes rest := by
  rw [unescape]
  · rintro rfl
    exact absurd rfl hc
  · rintro d rest' rfl
    exact absurd rfl hc

theorem unescape_escape (c : Char) (rest : List Char) :
    unescape escapes ('\\' :: c :: rest) =
      (escapes c).elim ['\\', c] (fun d => [d]) ++ unescape escapes rest := by
  rw [unescape]
  cases escapes c with
  | none => rfl
  | some d => rfl

theorem unescape_run {run : List Char} (h : ∀ c ∈ run, c ≠ '\\') (rest : List Char) :
    unescape escapes (run ++ rest) = run ++ unescape escapes rest := by
  induction run with
  | nil => rfl
  | cons c run ih =>
    rw [List.cons_append, unescape_plain (h c List.mem_cons_self),
      ih fun d hd => h d (List.mem_cons_of_mem c hd)]
    rfl

theorem IsDigit.ne_backslash {radix : ℕ} {d : Char} (h : IsDigit radix d) (hr : radix ≤ 16) :
    d ≠ '\\' := by
  rintro rfl
  have hlt : digitOf '\\' < radix := h
  have hvalue : digitOf '\\' = 16 := by decide
  omega

/-- One element in front of the rest. -/
theorem unescape_spelling {missing : List Char} (htable : EscapeTable escapes missing)
    {x : Element} (hx : ∀ c, x = .plain c → c ≠ '\\') (rest : List Char) :
    unescape escapes (x.spelling ++ rest) = x.decoded escapes ++ unescape escapes rest := by
  cases x with
  | plain c => exact unescape_plain (hx c rfl) rest
  | escape e =>
    cases e with
    | simple letter h => exact unescape_escape letter rest
    | octal digits hlength h hvalue =>
      match digits, hlength with
      | d :: more, _ =>
        have hmore : ∀ c ∈ more, c ≠ '\\' := fun c hc =>
          (h c (List.mem_cons_of_mem d hc)).ne_backslash (by decide)
        show unescape escapes ('\\' :: d :: (more ++ rest)) = _
        rw [unescape_escape, unescape_run hmore, ← List.append_assoc]
        rfl
    | hexadecimal digits hne h hvalue =>
      have hmore : ∀ c ∈ digits, c ≠ '\\' := fun c hc => (h c hc).ne_backslash (by decide)
      show unescape escapes ('\\' :: 'x' :: (digits ++ rest)) = _
      rw [unescape_escape, htable.hex, unescape_run hmore]
      rfl

theorem unescape_flatMap {missing : List Char} (htable : EscapeTable escapes missing)
    {elements : List Element} (h : ∀ c, Element.plain c ∈ elements → c ≠ '\\') :
    unescape escapes (elements.flatMap Element.spelling) =
      elements.flatMap (Element.decoded escapes) := by
  induction elements with
  | nil => rfl
  | cons x elements ih =>
    rw [List.flatMap_cons, List.flatMap_cons,
      unescape_spelling htable fun c hc => h c (hc ▸ List.mem_cons_self),
      ih fun c hc => h c (List.mem_cons_of_mem x hc)]

end Unescaping

section Bytes

/-- The UTF-8 bytes of characters. -/
def encoded (cs : List Char) : List UInt8 := cs.flatMap String.utf8EncodeChar

theorem textBytes_ofList_eq (cs : List Char) : textBytes (String.ofList cs) = encoded cs := by
  rw [textBytes, String.toByteArray_ofList, List.utf8Encode, List.data_toByteArray]
  rfl

@[simp] theorem encoded_append (cs ds : List Char) : encoded (cs ++ ds) = encoded cs ++ encoded ds :=
  List.flatMap_append

theorem encoded_length_ge (cs : List Char) : cs.length ≤ (encoded cs).length := by
  induction cs with
  | nil => exact Nat.le_refl _
  | cons c cs ih =>
    have hpos := Char.utf8Size_pos c
    show cs.length + 1 ≤ (String.utf8EncodeChar c ++ encoded cs).length
    rw [List.length_append, String.length_utf8EncodeChar]
    omega

/-- The element is one that the table reads as C does. -/
def Element.Supported (missing : List Char) : Element → Prop
  | .plain _ => True
  | .escape (.simple letter _) => letter ∉ missing
  | .escape (.octal digits _ _ _) => digits = ['0']
  | .escape (.hexadecimal _ _ _ _) => False

variable {escapes : Char → Option Char} {missing : List Char}

theorem decoded_length_pos (x : Element) : 1 ≤ (x.decoded escapes).length := by
  cases x with
  | plain c => exact Nat.le_refl 1
  | escape e =>
    cases e with
    | simple letter h =>
      show 1 ≤ ((escapes letter).elim ['\\', letter] fun c => [c]).length
      cases escapes letter <;> simp
    | octal digits hlength h hvalue =>
      match digits, hlength with
      | d :: more, _ =>
        show 1 ≤ ((escapes d).elim ['\\', d] (fun c => [c]) ++ more).length
        cases escapes d <;> simp
    | hexadecimal digits hne h hvalue =>
      show 1 ≤ digits.length + 1 + 1
      omega

/-- The parser's bytes for an element are never fewer than C's. -/
theorem bytes_length_le (x : Element) : x.bytes.length ≤ (encoded (x.decoded escapes)).length := by
  cases x with
  | plain c =>
    show (String.utf8EncodeChar c).length ≤ (String.utf8EncodeChar c ++ []).length
    rw [List.append_nil]
  | escape e => exact Nat.le_trans (decoded_length_pos (.escape e)) (encoded_length_ge _)

theorem encoded_singleton (c : Char) : encoded [c] = String.utf8EncodeChar c :=
  List.append_nil _

/-- The parser gives an element C's bytes exactly where its table knows the escape. -/
theorem encoded_decoded_iff (htable : EscapeTable escapes missing) (x : Element) :
    encoded (x.decoded escapes) = x.bytes ↔ x.Supported missing := by
  cases x with
  | plain c => exact iff_of_true (encoded_singleton c) trivial
  | escape e =>
    -- more than one character is more than one byte
    have hone : encoded (Element.decoded escapes (.escape e)) = (Element.escape e).bytes →
        (Element.decoded escapes (.escape e)).length ≤ 1 := fun heq => by
      have hle := encoded_length_ge (Element.decoded escapes (.escape e))
      rw [heq] at hle
      exact hle
    cases e with
    | simple letter h =>
      constructor
      · intro heq hmem
        have hlength := hone heq
        rw [Element.decoded, htable.missing letter hmem] at hlength
        have htwo : 2 ≤ 1 := hlength
        omega
      · intro hmem
        obtain ⟨d, hd, hbytes⟩ := htable.simple letter h hmem
        rw [Element.decoded, hd]
        exact (encoded_singleton d).trans hbytes
    | octal digits hlength h hvalue =>
      constructor
      · intro heq
        have hle := hone heq
        match digits, hlength with
        | d :: more, _ =>
          rw [Element.decoded] at hle
          by_cases hzero : d = '0'
          · rw [hzero, htable.zero] at hle
            have hmore : more = [] := by
              apply List.eq_nil_of_length_eq_zero
              have hle' : more.length + 1 ≤ 1 := hle
              omega
            show d :: more = ['0']
            rw [hzero, hmore]
          · rw [htable.digit d (h d List.mem_cons_self) hzero] at hle
            have hle' : more.length + 1 + 1 ≤ 1 := hle
            omega
      · intro hdigits
        have hzero : digits = ['0'] := hdigits
        subst hzero
        rw [Element.decoded, htable.zero]
        rfl
    | hexadecimal digits hne h hvalue =>
      constructor
      · intro heq
        have hle : digits.length + 1 + 1 ≤ 1 := hone heq
        omega
      · exact False.elim

/-- Where each part is at least as long as its counterpart, equal wholes have equal parts. -/
theorem append_eq_append_iff_of_length_le {α : Type} {a b a' b' : List α}
    (h : a'.length ≤ a.length) (h' : b'.length ≤ b.length) :
    a ++ b = a' ++ b' ↔ a = a' ∧ b = b' := by
  constructor
  · intro heq
    have hlength := congrArg List.length heq
    rw [List.length_append, List.length_append] at hlength
    exact List.append_inj heq (by omega)
  · rintro ⟨rfl, rfl⟩
    rfl

theorem flatMap_length_le {α β : Type} {f g : α → List β} {xs : List α}
    (h : ∀ x ∈ xs, (g x).length ≤ (f x).length) : (xs.flatMap g).length ≤ (xs.flatMap f).length := by
  induction xs with
  | nil => exact Nat.le_refl _
  | cons x xs ih =>
    rw [List.flatMap_cons, List.flatMap_cons, List.length_append, List.length_append]
    exact Nat.add_le_add (h x List.mem_cons_self) (ih fun y hy => h y (List.mem_cons_of_mem x hy))

theorem flatMap_eq_flatMap_iff {α β : Type} {f g : α → List β} {xs : List α}
    (h : ∀ x ∈ xs, (g x).length ≤ (f x).length) :
    xs.flatMap f = xs.flatMap g ↔ ∀ x ∈ xs, f x = g x := by
  induction xs with
  | nil => simp
  | cons x xs ih =>
    have hrest : ∀ y ∈ xs, (g y).length ≤ (f y).length := fun y hy => h y (List.mem_cons_of_mem x hy)
    rw [List.flatMap_cons, List.flatMap_cons,
      append_eq_append_iff_of_length_le (h x List.mem_cons_self) (flatMap_length_le hrest),
      ih hrest, List.forall_mem_cons]

namespace Segment

theorem encoded_decoded (s : Segment) :
    encoded (s.decoded escapes) = s.elements.flatMap fun x => encoded (x.decoded escapes) :=
  List.flatMap_assoc

theorem bytes_length_le (s : Segment) : s.bytes.length ≤ (encoded (s.decoded escapes)).length := by
  rw [encoded_decoded]
  exact flatMap_length_le fun x _ => OpticC.bytes_length_le x

theorem encoded_decoded_iff (htable : EscapeTable escapes missing) (s : Segment) :
    encoded (s.decoded escapes) = s.bytes ↔ ∀ x ∈ s.elements, x.Supported missing := by
  rw [encoded_decoded, Segment.bytes, flatMap_eq_flatMap_iff fun x _ => OpticC.bytes_length_le x]
  exact forall₂_congr fun x _ => OpticC.encoded_decoded_iff htable x

theorem ne_backslash (s : Segment) {c : Char} (h : Element.plain c ∈ s.elements) : c ≠ '\\' :=
  (s.plain c h).2.1

end Segment

end Bytes

section CharacterConstants

theorem stripQuotes_quoted {inner : List Char} (h : ∀ c ∈ inner, c.toNat < 128) :
    stripQuotes 39 (textBytes (String.ofList ('\'' :: (inner ++ ['\'']))) ) =
      some (inner.map byteOf) := by
  have hascii : ∀ c ∈ '\'' :: (inner ++ ['\'']), c.toNat < 128 := by
    intro c hc
    rw [List.mem_cons, List.mem_append, List.mem_singleton] at hc
    rcases hc with rfl | hc | rfl
    · decide
    · exact h c hc
    · decide
  rw [textBytes_ofList hascii, List.map_cons, List.map_append, List.map_singleton]
  have hquote : byteOf '\'' = 39 := rfl
  rw [hquote, stripQuotes, if_pos]
  · rw [List.drop_succ_cons, List.drop_zero, List.dropLast_concat]
  · refine ⟨?_, rfl, ?_⟩
    · rw [List.length_cons, List.length_append, List.length_singleton]
      omega
    · rw [← List.cons_append, List.getLast?_concat]

theorem charConstantValue_plain {c : Char} (h : c.toNat < 128) :
    charConstantValue (String.ofList ('\'' :: ([c] ++ ['\'']))) = c.toNat := by
  rw [charConstantValue, stripQuotes_quoted (by simpa using h), List.map_singleton]
  simp [byteOf_toNat h]

theorem charConstantValue_simple {letter : Char} (h : letter ∈ simpleEscapeLetters) :
    charConstantValue (String.ofList ('\'' :: (['\\', letter] ++ ['\'']))) =
      simpleEscapeValue letter := by
  have hall : simpleEscapeLetters.all (fun c =>
      charConstantValue (String.ofList ('\'' :: (['\\', c] ++ ['\'']))) == simpleEscapeValue c) =
        true := by decide
  exact eq_of_beq (List.all_eq_true.1 hall letter h)

theorem charConstantValue_octal {d : Char} {more : List Char} (h : ∀ c ∈ d :: more, IsDigit 8 c) :
    charConstantValue (String.ofList ('\'' :: (('\\' :: d :: more) ++ ['\'']))) =
      if d = '0' then 0 else d.toNat := by
  have hascii : ∀ c ∈ '\\' :: d :: more, c.toNat < 128 := by
    refine List.forall_mem_cons.2 ⟨by decide, fun c hc => (h c hc).toNat_lt (by decide)⟩
  rw [charConstantValue, stripQuotes_quoted hascii, List.map_cons, List.map_cons]
  by_cases hzero : d = '0'
  · rw [if_pos hzero, hzero]
    rfl
  · have hrange := octalDigit_cases (h d List.mem_cons_self) hzero
    have hd : d ∈ ['1', '2', '3', '4', '5', '6', '7'] := by
      have hcases : d.toNat = 49 ∨ d.toNat = 50 ∨ d.toNat = 51 ∨ d.toNat = 52 ∨ d.toNat = 53 ∨
          d.toNat = 54 ∨ d.toNat = 55 := by omega
      rcases hcases with h | h | h | h | h | h | h <;>
        · rw [← Char.ofNat_toNat d, h]
          decide
    rw [if_neg hzero]
    simp only [List.mem_cons, List.not_mem_nil, or_false] at hd
    rcases hd with rfl | rfl | rfl | rfl | rfl | rfl | rfl <;> rfl

theorem charConstantValue_hex {digits : List Char} (hne : digits ≠ [])
    (h : ∀ d ∈ digits, IsDigit 16 d) (hvalue : digitsValue 16 0 digits < 256) :
    charConstantValue (String.ofList ('\'' :: (('\\' :: 'x' :: digits) ++ ['\'']))) =
      digitsValue 16 0 digits := by
  have hascii : ∀ c ∈ '\\' :: 'x' :: digits, c.toNat < 128 := by
    refine List.forall_mem_cons.2 ⟨by decide, List.forall_mem_cons.2 ⟨by decide, fun c hc => ?_⟩⟩
    exact (h c hc).toNat_lt (by decide)
  rw [charConstantValue, stripQuotes_quoted hascii, List.map_cons, List.map_cons]
  show (u32FromStrRadix 16 (digits.map byteOf)).getD 0 = _
  rw [u32FromStrRadix_digits (by decide) (by decide) hne h, if_pos (by omega)]
  rfl

theorem octalDigit_toNat {d : Char} (h : IsDigit 8 d) : d.toNat = 48 + digitOf d ∧ digitOf d < 8 := by
  have hlt : digitOf d < 8 := h
  rcases digitOf_cases (Nat.lt_trans hlt (by decide)) with hc | hc | hc <;> omega

/-- `\66` has the value of the character `6`. -/
theorem digitsValue_eq_toNat_iff {d : Char} {more : List Char} (hlength : more.length ≤ 2)
    (h : ∀ c ∈ d :: more, IsDigit 8 c) (hzero : d ≠ '0') :
    digitsValue 8 0 (d :: more) = d.toNat ↔ d :: more = ['6', '6'] := by
  obtain ⟨hd, hlt⟩ := octalDigit_toNat (h d List.mem_cons_self)
  have hpos : 49 ≤ d.toNat := (octalDigit_cases (h d List.mem_cons_self) hzero).1
  have hsix : ∀ {c : Char}, IsDigit 8 c → digitOf c = 6 → c = '6' := by
    intro c hc hvalue
    apply Char.toNat_inj.1
    have hnat := (octalDigit_toNat hc).1
    rw [hvalue] at hnat
    exact hnat
  match more, hlength with
  | [], _ =>
    have hvalue : digitsValue 8 0 [d] = 0 * 8 + digitOf d := rfl
    refine iff_of_false (by omega) (by simp)
  | [b], _ =>
    have hb := octalDigit_toNat (h b (by simp))
    have hvalue : digitsValue 8 0 [d, b] = (0 * 8 + digitOf d) * 8 + digitOf b := rfl
    constructor
    · intro heq
      rw [hsix (h d (by simp)) (by omega), hsix (h b (by simp)) (by omega)]
    · intro heq
      obtain ⟨rfl, htail⟩ := List.cons.inj heq
      obtain ⟨rfl, -⟩ := List.cons.inj htail
      rfl
  | [b, c], _ =>
    have hb := octalDigit_toNat (h b (by simp))
    have hc := octalDigit_toNat (h c (by simp))
    have hvalue : digitsValue 8 0 [d, b, c] =
      ((0 * 8 + digitOf d) * 8 + digitOf b) * 8 + digitOf c := rfl
    exact iff_of_false (by omega) (by simp)

namespace CharacterConstant

/-- The constant is no octal escape, or one of `\66` and those of zeros. -/
def Supported (k : CharacterConstant) : Prop :=
  match k.element with
  | .escape (.octal digits _ _ _) =>
    digits = ['6', '6'] ∨ digits.head? = some '0' ∧ digitsValue 8 0 digits = 0
  | _ => True

theorem charConstantValue_iff (k : CharacterConstant) :
    (∀ v ∈ k.value, charConstantValue (String.ofList k.text) % 256 = v) ↔ k.Supported := by
  obtain ⟨x, hplain⟩ := k
  cases x with
  | plain c =>
    refine iff_of_true (fun v hv => ?_) trivial
    by_cases hc : c.toNat < 128
    · have hvalue : some c.toNat = some v := (if_pos hc).symm.trans hv
      rw [← Option.some.inj hvalue]
      have hparse := charConstantValue_plain hc
      exact (congrArg (· % 256) hparse).trans (Nat.mod_eq_of_lt (by omega))
    · have hvalue : none = some v := (if_neg hc).symm.trans hv
      cases hvalue
  | escape e =>
    cases e with
    | simple letter h =>
      refine iff_of_true (fun v hv => ?_) trivial
      have hall : simpleEscapeLetters.all (fun c => simpleEscapeValue c < 256) = true := by decide
      have hbound := of_decide_eq_true (List.all_eq_true.1 hall letter h)
      rw [← Option.some.inj hv]
      exact (congrArg (· % 256) (charConstantValue_simple h)).trans (Nat.mod_eq_of_lt hbound)
    | hexadecimal digits hne h hvalue =>
      refine iff_of_true (fun v hv => ?_) trivial
      rw [← Option.some.inj hv]
      exact (congrArg (· % 256) (charConstantValue_hex hne h hvalue)).trans (Nat.mod_eq_of_lt hvalue)
    | octal digits hlength h hvalue =>
      match digits, hlength with
      | d :: more, hlength =>
        have hparse := charConstantValue_octal h
        have hmore : more.length ≤ 2 := Nat.le_of_succ_le_succ hlength.2
        have hiff : (∀ v ∈ some (digitsValue 8 0 (d :: more)),
            (if d = '0' then 0 else d.toNat) % 256 = v) ↔
              (d :: more = ['6', '6'] ∨ (d :: more).head? = some '0' ∧
                digitsValue 8 0 (d :: more) = 0) := by
          simp only [Option.mem_some_iff, forall_eq']
          by_cases hzero : d = '0'
          · subst hzero
            simp [eq_comm]
          · have hd := octalDigit_cases (h d List.mem_cons_self) hzero
            rw [if_neg hzero, Nat.mod_eq_of_lt (by omega), eq_comm,
              digitsValue_eq_toNat_iff hmore h hzero]
            simp [hzero]
        rw [← hparse] at hiff
        exact hiff

end CharacterConstant

end CharacterConstants

end OpticC
