import OpticC.Frontend.LexerNumbers
import OpticC.Frontend.TokenAgreement

/-! The numbers and punctuators of the lexer against C's preprocessing tokens. A byte is read as
the character with its code. -/

namespace OpticC.Lexing

open Lexer MaximalMunch Preprocessor

section Characters

def charOf (b : UInt8) : Char := Char.ofNat b.toNat

def chars (bs : List UInt8) : List Char := bs.map charOf

variable {b : UInt8}

theorem charOf_toNat (b : UInt8) : (charOf b).toNat = b.toNat := by
  have hvalid : b.toNat.isValidChar := .inl (Nat.lt_trans b.toNat_lt (by decide))
  rw [charOf, Char.ofNat, dif_pos hvalid]
  rfl

theorem charOf_eq_iff {d : Char} (hd : d.toNat < 128) : charOf b = d ↔ b = byteOf d := by
  rw [← Char.toNat_inj, ← UInt8.toNat_inj, charOf_toNat, byteOf_toNat hd]

theorem isDigit_charOf (b : UInt8) : (charOf b).isDigit = isDigit b := by
  rw [Bool.eq_iff_iff, isDigit_iff, digit_iff, charOf_toNat]

theorem isLetter_charOf (b : UInt8) : isLetter (charOf b) = (isAlpha b || b == byteOf '_') := by
  rw [Bool.eq_iff_iff, isLetter_iff, isAlpha_iff, Bool.or_eq_true, alpha_iff, beq_iff_eq,
    charOf_eq_iff (by decide), charOf_toNat]
  exact or_congr_left or_comm

theorem isCWhiteSpace_charOf (h : isSpace b = false) : isCWhiteSpace (charOf b) = false ∧ charOf b ≠ '\n' := by
  rw [← Bool.not_eq_true, space_iff] at h
  simp (disch := decide) only [isCWhiteSpace, isBlank, ← Bool.not_eq_true, Bool.or_eq_true, beq_iff_eq, ne_eq,
    charOf_eq_iff, eq_byteOf_iff, Char.reduceToNat]
  omega

theorem chars_append (bs cs : List UInt8) : chars (bs ++ cs) = chars bs ++ chars cs := List.map_append

theorem chars_length (bs : List UInt8) : (chars bs).length = bs.length := List.length_map _

theorem head_chars (bs : List UInt8) : (chars bs).head? = bs.head?.map charOf := List.head?_map

end Characters

section Numbers

variable {extended : Char → Bool} {text behind : List UInt8}

theorem isLetter_of_exponent {e : Char} (he : e ∈ ['e', 'E', 'p', 'P']) : isLetter e = true :=
  List.all_eq_true.1 (show ['e', 'E', 'p', 'P'].all isLetter = true by decide) e he

theorem PpNumber.append_alnum {t : List Char} (h : PpNumber extended t) (bs : List UInt8)
    (hbs : ∀ b ∈ bs, isAlnum b = true) : PpNumber extended (t ++ chars bs) := by
  induction bs generalizing t with
  | nil => rwa [chars, List.map_nil, List.append_nil]
  | cons b bs ih =>
    have hone : PpNumber extended (t ++ [charOf b]) := by
      have hb := hbs b List.mem_cons_self
      by_cases hdigit : isDigit b = true
      · exact .moreDigit h (by rw [isDigit_charOf, hdigit])
      · refine .nondigit h (.nondigit ?_)
        rw [isLetter_charOf]
        simpa [isAlnum, hdigit] using hb
    have hmore := ih hone fun b' hb' => hbs b' (List.mem_cons_of_mem b hb')
    rwa [List.append_assoc] at hmore

theorem isAlnum_of_class {b : UInt8} (h : isDigit b = true ∨ isHexDigit b = true ∨ isOctalDigit b = true ∨
    isSuffix b = true ∨ (b = byteOf 'e' ∨ b = byteOf 'E') ∨ b = byteOf 'x' ∨ b = byteOf 'X') :
    isAlnum b = true := by
  by_contra halnum
  obtain ⟨hdigit, hhex, hoctal, hsuffix, he, hE, hx, hX⟩ := stops_of_not_alnum (Bool.eq_false_iff.2 halnum)
  rcases h with h | h | h | h | (h | h) | h | h
  · rw [hdigit] at h
    cases h
  · rw [hhex] at h
    cases h
  · rw [hoctal] at h
    cases h
  · rw [hsuffix] at h
    cases h
  · exact he h
  · exact hE h
  · exact hx h
  · exact hX h

theorem DecimalTail.ppNumber {hasDecimal : Bool} (h : DecimalTail hasDecimal text) {t : List Char}
    (ht : PpNumber extended t) : PpNumber extended (t ++ chars text) := by
  induction h generalizing t with
  | stop => rwa [chars, List.map_nil, List.append_nil]
  | @digit _ c bs hc _ ih =>
    have hmore := ih (PpNumber.moreDigit ht (c := charOf c) (by rw [isDigit_charOf, hc]))
    rwa [List.append_assoc] at hmore
  | point _ ih =>
    have hmore := ih (.dot ht)
    rwa [List.append_assoc] at hmore
  | @exponent _ e sign digits he hsign hdigits =>
    have hletter : isAlnum e = true := isAlnum_of_class (.inr (.inr (.inr (.inr (.inl he)))))
    have hall : ∀ b ∈ digits, isAlnum b = true := fun b hb => isAlnum_of_class (.inl (hdigits b hb))
    rcases hsign with rfl | hsign
    · exact PpNumber.append_alnum ht (e :: digits) (List.forall_mem_cons.2 ⟨hletter, hall⟩)
    · have hexponent : PpNumber extended (t ++ chars (e :: sign)) := by
        rcases he with rfl | rfl <;> rcases hsign with rfl | rfl
        · exact .sign ht (e := 'e') (s := '+') (by decide) (by decide)
        · exact .sign ht (e := 'e') (s := '-') (by decide) (by decide)
        · exact .sign ht (e := 'E') (s := '+') (by decide) (by decide)
        · exact .sign ht (e := 'E') (s := '-') (by decide) (by decide)
      have hmore := PpNumber.append_alnum hexponent digits hall
      rwa [List.append_assoc, ← chars_append] at hmore
  | suffix hc =>
    exact PpNumber.append_alnum ht [_] (List.forall_mem_singleton.2
      (isAlnum_of_class (.inr (.inr (.inr (.inl hc))))))

theorem NumberForm.ppNumber (h : NumberForm text) : PpNumber extended (chars text) := by
  have hzero : PpNumber extended ['0'] := .digit (by decide)
  cases h with
  | hexadecimal hx hdigits =>
    refine PpNumber.append_alnum hzero (_ :: _) (List.forall_mem_cons.2 ⟨?_, fun b hb => ?_⟩)
    · exact isAlnum_of_class (.inr (.inr (.inr (.inr (.inr hx)))))
    · exact isAlnum_of_class (.inr (.inl (hdigits b hb)))
  | octal ho hdigits =>
    refine PpNumber.append_alnum hzero (_ :: _) (List.forall_mem_cons.2 ⟨?_, fun b hb => ?_⟩)
    · exact isAlnum_of_class (.inr (.inr (.inl ho)))
    · exact isAlnum_of_class (.inl (hdigits b hb))
  | @decimal c bs hc _ h =>
    exact h.ppNumber (t := [charOf c]) (.digit (by rw [isDigit_charOf, hc]))

theorem NumberForm.head (h : NumberForm text) : ∃ c bs, text = c :: bs ∧ isDigit c = true := by
  cases h with
  | hexadecimal => exact ⟨_, _, rfl, by decide⟩
  | octal => exact ⟨_, _, rfl, by decide⟩
  | decimal hc => exact ⟨_, _, rfl, hc⟩

theorem DecimalTail.no_backslash {hasDecimal : Bool} (h : DecimalTail hasDecimal text) :
    byteOf '\\' ∉ text := by
  have hnot {b : UInt8} (hb : isAlnum b = true) : byteOf '\\' ≠ b := by
    rintro rfl
    exact absurd hb (by decide)
  induction h with
  | stop => exact List.not_mem_nil
  | digit hc _ ih => exact List.not_mem_cons_of_ne_of_not_mem (hnot (isAlnum_of_class (.inl hc))) ih
  | point _ ih => exact List.not_mem_cons_of_ne_of_not_mem (by decide) ih
  | exponent he hsign hdigits =>
    refine List.not_mem_cons_of_ne_of_not_mem
      (hnot (isAlnum_of_class (.inr (.inr (.inr (.inr (.inl he))))))) fun hmem => ?_
    rcases List.mem_append.1 hmem with hmem | hmem
    · rcases hsign with rfl | rfl | rfl
      · cases hmem
      · exact absurd hmem (by decide)
      · exact absurd hmem (by decide)
    · exact hnot (isAlnum_of_class (.inl (hdigits _ hmem))) rfl
  | suffix hc =>
    exact fun hmem => hnot (isAlnum_of_class (.inr (.inr (.inr (.inl hc))))) (List.mem_singleton.1 hmem)

theorem NumberForm.no_backslash (h : NumberForm text) : '\\' ∉ chars text := by
  have hbytes : byteOf '\\' ∉ text := by
    have hnot {b : UInt8} (hb : isAlnum b = true) : byteOf '\\' ≠ b := by
      rintro rfl
      exact absurd hb (by decide)
    cases h with
    | hexadecimal hx hdigits =>
      refine List.not_mem_cons_of_ne_of_not_mem (by decide)
        (List.not_mem_cons_of_ne_of_not_mem ?_ fun hmem => ?_)
      · exact hnot (isAlnum_of_class (.inr (.inr (.inr (.inr (.inr hx))))))
      · exact hnot (isAlnum_of_class (.inr (.inl (hdigits _ hmem)))) rfl
    | octal ho hdigits =>
      refine List.not_mem_cons_of_ne_of_not_mem (by decide)
        (List.not_mem_cons_of_ne_of_not_mem ?_ fun hmem => ?_)
      · exact hnot (isAlnum_of_class (.inr (.inr (.inl ho))))
      · exact hnot (isAlnum_of_class (.inl (hdigits _ hmem))) rfl
    | decimal hc _ h =>
      exact List.not_mem_cons_of_ne_of_not_mem (hnot (isAlnum_of_class (.inl hc))) h.no_backslash
  intro hmem
  obtain ⟨b, hb, heq⟩ := List.mem_map.1 hmem
  exact hbytes ((charOf_eq_iff (by decide)).1 heq ▸ hb)

/-- Nothing behind the text belongs to the same number in C. -/
structure Closed (extended : Char → Bool) (text behind : List UInt8) : Prop extends Ends text behind where
  extended : ∀ b, behind.head? = some b → extended (charOf b) = false
  universal : ∀ name, UniversalCharacterName name → ¬ name <+: chars behind

theorem Closed.no_name (h : Closed extended text behind) {next : List Char}
    (hnext : IdentifierNondigit extended next) : ¬ next <+: chars behind := by
  have hfirst {c : Char} (hfront : [c] <+: chars behind) : ∃ b, behind.head? = some b ∧ charOf b = c := by
    obtain ⟨more, hmore⟩ := hfront
    have hhead := head_chars behind
    rw [← hmore] at hhead
    exact Option.map_eq_some_iff.1 hhead.symm
  intro hfront
  cases hnext with
  | nondigit hc =>
    obtain ⟨b, hb, rfl⟩ := hfirst hfront
    have halnum := (h.word b hb).1
    rw [isLetter_charOf] at hc
    simp only [isAlnum, Bool.or_eq_false_iff] at halnum
    rw [halnum.1.1, halnum.2] at hc
    cases hc
  | universal hname => exact h.universal _ hname hfront
  | extended hc =>
    obtain ⟨b, hb, rfl⟩ := hfirst hfront
    rw [h.extended b hb] at hc
    cases hc

theorem Closed.no_char (h : Closed extended text behind) {c : Char} (hc : c.isDigit = true ∨ c = '.')
    {more : List Char} : ¬ c :: more <+: chars behind := by
  intro hfront
  have hhead := head_chars behind
  obtain ⟨rest, hrest⟩ := hfront
  rw [← hrest] at hhead
  obtain ⟨b, hb, rfl⟩ := Option.map_eq_some_iff.1 hhead.symm
  obtain ⟨halnum, hdot⟩ := h.word b hb
  rcases hc with hc | hc
  · rw [isDigit_charOf, (stops_of_not_alnum halnum).1] at hc
    cases hc
  · exact hdot ((charOf_eq_iff (by decide)).1 hc)

theorem Closed.no_sign (h : Closed extended text behind) {e s : Char} (he : e ∈ ['e', 'E', 'p', 'P'])
    (hs : s ∈ ['+', '-']) (hlast : (chars text).getLast? = some e) {more : List Char} :
    ¬ s :: more <+: chars behind := by
  rintro ⟨rest, hrest⟩
  have hhead := head_chars behind
  rw [← hrest] at hhead
  obtain ⟨b, hb, rfl⟩ := Option.map_eq_some_iff.1 hhead.symm
  rw [chars, List.getLast?_map] at hlast
  obtain ⟨d, hd, rfl⟩ := Option.map_eq_some_iff.1 hlast
  have hletter : d ∈ [byteOf 'e', byteOf 'E', byteOf 'p', byteOf 'P'] := by
    simpa [charOf_eq_iff] using he
  obtain ⟨hplus, hminus⟩ := h.sign d hd hletter
  simp only [List.mem_cons, List.not_mem_nil, or_false, charOf_eq_iff (d := '+') (by decide),
    charOf_eq_iff (d := '-') (by decide)] at hs
  rcases hs with rfl | rfl
  · exact hplus hb
  · exact hminus hb

/-- No number of C reaches beyond a text that is closed. -/
theorem Closed.within (h : Closed extended text behind) (hform : NumberForm text) {t : List Char}
    (ht : PpNumber extended t) (hfront : t <+: chars text ++ chars behind) : t <+: chars text := by
  obtain ⟨c₀, bs₀, rfl, hc₀⟩ := hform.head
  have hbackslash := hform.no_backslash
  have hinside {t next more : List Char} {first : Char} (heq : t ++ first :: more = chars (c₀ :: bs₀))
      (hnext : IdentifierNondigit extended next) (hfront : next <+: first :: more ++ chars behind) :
      next <+: first :: more := by
    refine hnext.inside (p := (· != '\\')) rfl ?_ hfront
    refine bne_iff_ne.2 fun hfirst => hbackslash ?_
    rw [← heq, hfirst]
    exact List.mem_append_right _ List.mem_cons_self
  induction ht with
  | digit hc => exact single_inside hfront
  | dotDigit hc =>
    obtain ⟨heq, -⟩ := List.cons_prefix_cons.1 hfront
    rw [← isDigit_charOf, ← heq] at hc₀
    exact absurd hc₀ (by decide)
  | moreDigit _ hc ih =>
    have htext := ih ((List.prefix_append _ _).trans hfront)
    exact append_prefix_run htext hfront (fun _ _ _ => single_inside) fun _ => h.no_char (.inl hc)
  | dot _ ih =>
    have htext := ih ((List.prefix_append _ _).trans hfront)
    exact append_prefix_run htext hfront (fun _ _ _ => single_inside) fun _ => h.no_char (.inr rfl)
  | nondigit _ hnext ih =>
    have htext := ih ((List.prefix_append _ _).trans hfront)
    exact append_prefix_run htext hfront (fun _ _ heq => hinside heq hnext) fun _ => h.no_name hnext
  | @sign t e s _ he hs ih =>
    have htext := ih ((List.prefix_append _ _).trans hfront)
    have hletter : isLetter e = true := isLetter_of_exponent he
    refine append_prefix_run htext hfront (fun first more heq hmore => ?_) fun _ hmore => ?_
    · obtain ⟨rfl, hsign⟩ := List.cons_prefix_cons.1 hmore
      refine List.cons_prefix_cons.2 ⟨rfl, ?_⟩
      cases more with
      | nil =>
        refine absurd hsign (h.no_sign he hs ?_)
        rw [← heq, List.getLast?_append]
        rfl
      | cons d more => exact single_inside hsign
    · exact h.no_name (.nondigit hletter) ((List.prefix_append [e] [s]).trans hmore)

/-- A number without its last letter. -/
theorem PpNumber.init {t : List Char} {e : Char} (h : PpNumber extended (t ++ [e]))
    (he : isLetter e = true) (hbackslash : '\\' ∉ t ++ [e]) : PpNumber extended t := by
  generalize hu : t ++ [e] = u at h
  have hlast {v : List Char} {c : Char} (heq : t ++ [e] = v ++ [c]) : t = v ∧ e = c := by
    obtain ⟨hinit, hsingle⟩ := List.append_inj' heq rfl
    exact ⟨hinit, (List.cons.inj hsingle).1⟩
  have hother {c : Char} (hc : isLetter c = false) : e ≠ c := by
    rintro rfl
    rw [hc] at he
    cases he
  have hdigit {c : Char} (hc : c.isDigit = true) : isLetter c = false := by
    by_contra hletter
    rw [isDigit_of_isLetter (Bool.not_eq_false _ ▸ hletter)] at hc
    cases hc
  cases h with
  | @digit c hc => exact absurd (hlast (v := []) hu).2 (hother (hdigit hc))
  | @dotDigit c hc => exact absurd (hlast (v := ['.']) hu).2 (hother (hdigit hc))
  | moreDigit _ hc => exact absurd (hlast hu).2 (hother (hdigit hc))
  | dot => exact absurd (hlast hu).2 (hother (by decide))
  | @sign text e' s _ _ hs =>
    refine absurd (hlast (v := text ++ [e']) (by rw [hu, List.append_assoc]; rfl)).2 (hother ?_)
    have hsigns : ['+', '-'].all (fun s => !isLetter s) = true := by decide
    simpa using List.all_eq_true.1 hsigns s hs
  | nondigit h hnext =>
    cases hnext with
    | nondigit => exact (hlast hu).1 ▸ h
    | extended => exact (hlast hu).1 ▸ h
    | universal hname =>
      obtain ⟨tail, rfl⟩ := hname.head
      exact absurd (hu ▸ List.mem_append_right _ List.mem_cons_self) hbackslash

/-- A constant of one of the forms stands there, and nothing behind it belongs to it in C. -/
def PlainNumber (extended : Char → Bool) (input : List UInt8) : Prop :=
  ∃ text behind, input = text ++ behind ∧ NumberForm text ∧ Closed extended text behind

/-- Where no longer number of C stands, the text is closed. -/
theorem Closed.of_longest {after : List Char} (hform : NumberForm text)
    (h : Longest (PreprocessingToken extended) (chars text ++ chars behind) .ppNumber (chars text) after) :
    Closed extended text behind := by
  have hnumber : PpNumber extended (chars text) := hform.ppNumber
  have hlonger {c : Char} (next : List Char) (hmore : PpNumber extended (chars text ++ c :: next))
      (hfront : c :: next <+: chars behind) : False := by
    have hle := h.longest .ppNumber _ (.text (.ppNumber hmore)) ((List.prefix_append_right_inj _).2 hfront)
    rw [List.length_append, List.length_cons] at hle
    omega
  have hfirst {b : UInt8} (hb : behind.head? = some b) : [charOf b] <+: chars behind := by
    obtain ⟨more, rfl⟩ := List.head?_eq_some_iff.1 hb
    exact ⟨chars more, rfl⟩
  refine ⟨⟨fun b hb => ⟨?_, ?_⟩, fun e hlast he => ?_⟩, fun b hb => ?_, fun name hname hfront => ?_⟩
  · by_contra halnum
    refine hlonger [] ?_ (hfirst hb)
    exact PpNumber.append_alnum hnumber [b] (List.forall_mem_singleton.2 (by simpa using halnum))
  · rintro rfl
    exact hlonger [] hnumber.dot (hfirst hb)
  · obtain ⟨init, rfl⟩ := List.getLast?_eq_some_iff.1 hlast
    have hsplit : chars (init ++ [e]) = chars init ++ [charOf e] := chars_append init [e]
    have hexponent : charOf e ∈ ['e', 'E', 'p', 'P'] := by
      simpa [charOf_eq_iff] using he
    have hinit : PpNumber extended (chars init) :=
      PpNumber.init (hsplit ▸ hnumber) (isLetter_of_exponent hexponent) (hsplit ▸ hform.no_backslash)
    have hsign {s : Char} (hs : s ∈ ['+', '-']) : PpNumber extended (chars (init ++ [e]) ++ [s]) := by
      rw [hsplit, List.append_assoc]
      exact hinit.sign hexponent hs
    exact ⟨fun hb => hlonger [] (hsign (s := '+') (by decide)) (hfirst hb),
      fun hb => hlonger [] (hsign (s := '-') (by decide)) (hfirst hb)⟩
  · by_contra hextended
    exact hlonger [] (hnumber.nondigit (.extended (by simpa using hextended))) (hfirst hb)
  · obtain ⟨tail, rfl⟩ := hname.head
    exact hlonger _ (hnumber.nondigit (.universal hname)) hfront

theorem Closed.longest (hext : OutsideAscii extended) (hform : NumberForm text)
    (h : Closed extended text behind) : Longest (PreprocessingToken extended)
      (chars text ++ chars behind) .ppNumber (chars text) (chars behind) := by
  refine ⟨rfl, .text (.ppNumber hform.ppNumber), fun kind' t htoken hfront => ?_⟩
  obtain ⟨c, bs, rfl, hc⟩ := hform.head
  rcases List.prefix_cons_iff.1 hfront with rfl | ⟨tail, rfl, -⟩
  · exact Nat.zero_le _
  · obtain ⟨-, hnumber⟩ := htoken.of_digit (by rw [isDigit_charOf, hc]) hext
    exact (h.within hform hnumber hfront).length_le

/-- The number that is read is C's where the text there is plain. -/
theorem readNumber_longest_iff (hext : OutsideAscii extended) {source : List UInt8}
    (hsource : source.length < 2 ^ 32) {l l' : Lexer source} (hread : l.readNumber = some l')
    (hpasses : Passes l text l') (hform : NumberForm text) :
    Longest (PreprocessingToken extended) (chars l.rest) .ppNumber (chars text) (chars l'.rest) ↔
      PlainNumber extended l.rest := by
  constructor
  · intro h
    rw [hpasses.rest, chars_append] at h
    exact ⟨text, l'.rest, hpasses.rest, hform, .of_longest hform h⟩
  · rintro ⟨text', behind', hrest, hform', hclosed⟩
    obtain ⟨l'', hpasses', rfl⟩ := exists_passes hsource hrest
    obtain rfl : l' = l'' := Option.some.inj (hread.symm.trans (readNumber_eq hform' hpasses' hclosed.toEnds))
    obtain rfl : text = text' := List.append_cancel_right (hpasses.rest.symm.trans hrest)
    rw [hrest, chars_append]
    exact hclosed.longest hext hform

end Numbers

section Punctuators

variable {extended : Char → Bool} {c : UInt8} {behind : List UInt8}

/-- The byte is none at which another reading function begins. -/
structure StartsPunctuator (c : UInt8) (behind : List UInt8) : Prop where
  space : isSpace c = false
  comment : c = byteOf '/' → behind.head? ≠ some (byteOf '/') ∧ behind.head? ≠ some (byteOf '*')
  other : c ≠ byteOf '#' ∧ c ≠ byteOf '"' ∧ c ≠ byteOf '\''
  letter : isAlpha c = false ∧ c ≠ byteOf '_'
  digit : isDigit c = false

/-- The operators of more than one byte that are read as they are in C. -/
structure PlainOperator (c : UInt8) (behind : List UInt8) : Prop where
  arrow : c = byteOf '-' → behind.head? ≠ some (byteOf '>')
  ellipsis : c = byteOf '.' → behind.head? = some (byteOf '.') →
    (behind[1]? = some (byteOf '.') ↔ behind[2]? = some (byteOf '.'))
  shift : c = byteOf '<' ∨ c = byteOf '>' → behind.head? = some c →
    behind[1]? = some (byteOf '=') ∧ behind[2]? = some (byteOf '=')

/-- How many bytes the lexer takes behind the first one of a punctuator. -/
def bytesBehind (c : UInt8) (behind : List UInt8) : ℕ :=
  if c = byteOf '.' ∧ behind.head? = some (byteOf '.') then
    if behind[2]? = some (byteOf '.') then 2 else 0
  else if (c = byteOf '<' ∨ c = byteOf '>') ∧ behind.head? = some c then
    if behind[2]? = some (byteOf '=') then 2 else 0
  else if behind.head?.any (isPair c) then 1
  else 0

theorem bytesBehind_le (c : UInt8) (behind : List UInt8) : bytesBehind c behind ≤ behind.length := by
  have hthird {b : UInt8} (h : behind[2]? = some b) : 2 ≤ behind.length := by
    obtain ⟨hlt, -⟩ := List.getElem?_eq_some_iff.1 h
    omega
  unfold bytesBehind
  split_ifs with _ hdot _ hshift hpair
  · exact hthird hdot
  · exact Nat.zero_le _
  · exact hthird hshift
  · exact Nat.zero_le _
  · cases behind with
    | nil => cases hpair
    | cons => exact Nat.succ_pos _
  · exact Nat.zero_le _

theorem byteOf_charOf (b : UInt8) : byteOf (charOf b) = b := by
  rw [byteOf, charOf_toNat, UInt8.ofNat_toNat]

/-- The pairs of the preprocessor, by those of the lexer. -/
theorem isTwoCharPunctuator_charOf (c next : UInt8) :
    isTwoCharPunctuator [charOf c, charOf next] = true ↔ isPair c next = true ∨
      c = byteOf '-' ∧ next = byteOf '>' ∨ (c = byteOf '<' ∨ c = byteOf '>') ∧ next = c := by
  constructor
  · intro h
    obtain ⟨p, hp, heq⟩ := List.any_eq_true.1 h
    rw [beq_iff_eq] at heq
    have hall : (["==", "!=", "<=", ">=", "&&", "||", "<<", ">>", "++", "--", "->", "+=", "-=", "*=",
        "/=", "%=", "&=", "|=", "^=", "##"].all fun p =>
        p.toList == ['-', '>'] || p.toList == ['<', '<'] || p.toList == ['>', '>'] ||
          isPair (byteOf (p.toList.headD ' ')) (byteOf ((p.toList.drop 1).headD ' '))) = true := by
      decide
    have hone := List.all_eq_true.1 hall p hp
    simp only [heq, List.headD_cons, List.drop_succ_cons, List.drop_zero, byteOf_charOf, Bool.or_eq_true,
      beq_iff_eq, List.cons.injEq, and_true, charOf_eq_iff (d := '-') (by decide),
      charOf_eq_iff (d := '<') (by decide), charOf_eq_iff (d := '>') (by decide)] at hone
    rcases hone with ((⟨rfl, rfl⟩ | ⟨rfl, rfl⟩) | ⟨rfl, rfl⟩) | hpair
    · exact .inr (.inl ⟨rfl, rfl⟩)
    · exact .inr (.inr ⟨.inl rfl, rfl⟩)
    · exact .inr (.inr ⟨.inr rfl, rfl⟩)
    · exact .inl hpair
  · rintro (hpair | ⟨rfl, rfl⟩ | ⟨rfl | rfl, rfl⟩)
    · obtain ⟨p, hp, heq⟩ := List.any_eq_true.1 hpair
      rw [Bool.and_eq_true, beq_iff_eq, beq_iff_eq] at heq
      have hall : (pairs.all fun p => isTwoCharPunctuator [charOf (byteOf p.1), charOf (byteOf p.2)]) = true := by
        decide
      rw [heq.1, heq.2]
      exact List.all_eq_true.1 hall p hp
    all_goals decide

theorem head_chars_eq_iff {bs : List UInt8} {d : Char} (hd : d.toNat < 128) :
    (chars bs).head? = some d ↔ bs.head? = some (byteOf d) := by
  rw [head_chars, Option.map_eq_some_iff]
  constructor
  · rintro ⟨b, hb, heq⟩
    rw [hb, (charOf_eq_iff hd).1 heq]
  · intro hb
    exact ⟨_, hb, (charOf_eq_iff hd).2 rfl⟩

/-- Two dots. -/
theorem punctuatorAt_dots (more : List UInt8) :
    (punctuatorAt '.' (chars (byteOf '.' :: more))).length = if more.head? = some (byteOf '.') then 3 else 1 := by
  have hchars : chars (byteOf '.' :: more) = '.' :: chars more := rfl
  have htwo : isTwoCharPunctuator ['.', '.'] = false := by decide
  rw [hchars, punctuatorAt]
  by_cases hdot : more.head? = some (byteOf '.')
  · obtain ⟨behind, rfl⟩ := List.head?_eq_some_iff.1 hdot
    rw [if_pos hdot]
    rfl
  · have htake : ('.' :: chars more).take 2 ≠ ['.', '.'] := by
      intro heq
      refine hdot ((head_chars_eq_iff (d := '.') (by decide)).1 ?_)
      cases hmore : chars more with
      | nil =>
        rw [hmore] at heq
        cases heq
      | cons d ds =>
        rw [hmore] at heq
        cases heq
        rfl
    rw [if_neg hdot, if_neg fun h => htake h.2]
    simp [htwo]

/-- Two shift characters. -/
theorem punctuatorAt_shift {c : UInt8} (hc : c = byteOf '<' ∨ c = byteOf '>') (more : List UInt8) :
    (punctuatorAt (charOf c) (chars (c :: more))).length = if more.head? = some (byteOf '=') then 3 else 2 := by
  have hchars : chars (c :: more) = charOf c :: chars more := rfl
  have hclass : charOf c ≠ '.' ∧ ([charOf c, charOf c] = ['<', '<'] ∨ [charOf c, charOf c] = ['>', '>']) := by
    rcases hc with rfl | rfl
    · exact ⟨by decide, .inl rfl⟩
    · exact ⟨by decide, .inr rfl⟩
  rw [hchars, punctuatorAt, if_neg fun h => hclass.1 h.1, if_pos hclass.2]
  simp only [head_chars_eq_iff (d := '=') (by decide)]
  split_ifs
  · rfl
  · rfl

/-- The lexer and the preprocessor take equally many bytes for a punctuator, if it is plain. -/
theorem punctuatorAt_length_iff (c : UInt8) (behind : List UInt8) :
    (punctuatorAt (charOf c) (chars behind)).length = bytesBehind c behind + 1 ↔ PlainOperator c behind := by
  by_cases hdots : c = byteOf '.' ∧ behind.head? = some (byteOf '.')
  · obtain ⟨rfl, hhead⟩ := hdots
    obtain ⟨more, rfl⟩ := List.head?_eq_some_iff.1 hhead
    have hplain : PlainOperator (byteOf '.') (byteOf '.' :: more) ↔
        (more.head? = some (byteOf '.') ↔ more[1]? = some (byteOf '.')) := by
      refine ⟨fun h => ?_, fun h => ⟨fun hc => absurd hc (by decide), fun _ _ => ?_,
        fun hc => absurd hc (by decide)⟩⟩
      · rw [List.head?_eq_getElem?]
        exact h.ellipsis rfl hhead
      · rw [List.head?_eq_getElem?] at h
        exact h
    have hbytes : bytesBehind (byteOf '.') (byteOf '.' :: more) =
        if more[1]? = some (byteOf '.') then 2 else 0 := if_pos ⟨rfl, rfl⟩
    rw [hplain, hbytes, show charOf (byteOf '.') = '.' from rfl, punctuatorAt_dots]
    split_ifs with h₁ h₂ h₂ <;> simp [h₁, h₂]
  · by_cases hshift : (c = byteOf '<' ∨ c = byteOf '>') ∧ behind.head? = some c
    · obtain ⟨hc, hhead⟩ := hshift
      obtain ⟨more, rfl⟩ := List.head?_eq_some_iff.1 hhead
      have hplain : PlainOperator c (c :: more) ↔
          more.head? = some (byteOf '=') ∧ more[1]? = some (byteOf '=') := by
        refine ⟨fun h => ?_, fun h => ⟨?_, ?_, fun _ _ => ?_⟩⟩
        · rw [List.head?_eq_getElem?]
          exact h.shift hc hhead
        · rintro rfl
          exact absurd hc (by decide)
        · rintro rfl
          exact absurd hc (by decide)
        · rw [List.head?_eq_getElem?] at h
          exact h
      have hbytes : bytesBehind c (c :: more) = if more[1]? = some (byteOf '=') then 2 else 0 := by
        rw [bytesBehind, if_neg hdots, if_pos ⟨hc, rfl⟩]
        rfl
      rw [hplain, hbytes, punctuatorAt_shift hc]
      split_ifs with h₁ h₂ h₂ <;> simp [h₁, h₂]
    · have hplain : PlainOperator c behind ↔ ¬ (c = byteOf '-' ∧ behind.head? = some (byteOf '>')) :=
        ⟨fun h harrow => h.arrow harrow.1 harrow.2, fun h => ⟨fun hc hhead => h ⟨hc, hhead⟩,
          fun hc hhead => absurd ⟨hc, hhead⟩ hdots, fun hc hhead => absurd ⟨hc, hhead⟩ hshift⟩⟩
      have hbytes : bytesBehind c behind = if behind.head?.any (isPair c) then 1 else 0 := by
        rw [bytesBehind, if_neg hdots, if_neg hshift]
      rw [hplain, hbytes]
      cases behind with
      | nil => simp [chars, punctuatorAt]
      | cons next more =>
        have htwo := isTwoCharPunctuator_charOf c next
        have hnot : ¬ (charOf c = '.' ∧ (charOf next :: chars more).take 2 = ['.', '.']) := by
          rintro ⟨hc, hnext⟩
          refine hdots ⟨(charOf_eq_iff (by decide)).1 hc, ?_⟩
          rw [List.take_succ_cons] at hnext
          exact congrArg some ((charOf_eq_iff (by decide)).1 (List.cons.inj hnext).1)
        have hnot' : ¬ ([charOf c, charOf next] = ['<', '<'] ∨ [charOf c, charOf next] = ['>', '>']) := by
          simp only [List.cons.injEq, and_true, charOf_eq_iff (d := '<') (by decide),
            charOf_eq_iff (d := '>') (by decide)]
          rintro (⟨rfl, rfl⟩ | ⟨rfl, rfl⟩)
          · exact hshift ⟨.inl rfl, rfl⟩
          · exact hshift ⟨.inr rfl, rfl⟩
        have hpunctuator : punctuatorAt (charOf c) (chars (next :: more)) =
            if isTwoCharPunctuator [charOf c, charOf next] = true then [charOf c, charOf next]
            else [charOf c] := by
          rw [show chars (next :: more) = charOf next :: chars more from rfl, punctuatorAt, if_neg hnot,
            if_neg hnot']
        have hsame : ¬ ((c = byteOf '<' ∨ c = byteOf '>') ∧ next = c) :=
          fun h => hshift ⟨h.1, congrArg some h.2⟩
        rw [hpunctuator]
        by_cases harrow : c = byteOf '-' ∧ next = byteOf '>'
        · obtain ⟨rfl, rfl⟩ := harrow
          rw [List.head?_cons, Option.any_some]
          exact iff_of_false (by decide) fun h => h ⟨rfl, rfl⟩
        · simp only [htwo, hsame, harrow, or_false, List.head?_cons, Option.any_some, Option.some.injEq]
          by_cases hpair : isPair c next = true
          · simp [hpair]
          · simp [hpair]

theorem bytesBehind_digraph (h : (chars (c :: behind)).take 2 ∈ digraphs) : bytesBehind c behind = 0 := by
  cases behind with
  | nil =>
    have hlength : ∀ text ∈ digraphs, text.length = 2 := by decide
    exact absurd (hlength _ h) (by simp [chars])
  | cons next more =>
    have hpair : [charOf c, charOf next] ∈ digraphs := h
    simp only [digraphs, List.mem_cons, List.not_mem_nil, or_false, List.cons.injEq, and_true] at hpair
    have hchar {b : UInt8} {d : Char} (hd : d.toNat < 128) (hb : charOf b = d) : b = byteOf d :=
      (charOf_eq_iff hd).1 hb
    rcases hpair with ⟨hc, hn⟩ | ⟨hc, hn⟩ | ⟨hc, hn⟩ | ⟨hc, hn⟩ | ⟨hc, hn⟩ <;>
      (obtain rfl := hchar (by decide) hc; obtain rfl := hchar (by decide) hn; rfl)

theorem StartsPunctuator.charOf (h : StartsPunctuator c behind) :
    (Lexing.charOf c ≠ '"' ∧ Lexing.charOf c ≠ '\'') ∧ (Lexing.charOf c).isDigit = false ∧
      isLetter (Lexing.charOf c) = false ∧ isCWhiteSpace (Lexing.charOf c) = false ∧ Lexing.charOf c ≠ '\n' := by
  refine ⟨⟨?_, ?_⟩, by rw [isDigit_charOf, h.digit], ?_, isCWhiteSpace_charOf h.space⟩
  · exact fun hc => h.other.2.1 ((charOf_eq_iff (by decide)).1 hc)
  · exact fun hc => h.other.2.2 ((charOf_eq_iff (by decide)).1 hc)
  · rw [isLetter_charOf, h.letter.1]
    simpa using h.letter.2

/-- A punctuator of the lexer is C's where the bytes there are plain. -/
theorem punctuator_longest_iff (hext : OutsideAscii extended) (hstart : StartsPunctuator c behind) :
    (∃ kind ∈ [CTokenKind.punctuator, .other], Longest (PreprocessingToken extended) (chars (c :: behind)) kind
        (chars (c :: behind.take (bytesBehind c behind))) (chars (behind.drop (bytesBehind c behind)))) ↔
      PlainPunctuator extended (charOf c) (chars behind) ∧ PlainOperator c behind := by
  obtain ⟨hquote, hdigit, hletter, hwhite⟩ := hstart.charOf
  have hlength : (chars (c :: behind.take (bytesBehind c behind))).length = bytesBehind c behind + 1 := by
    rw [chars_length, List.length_cons, List.length_take, Nat.min_eq_left (bytesBehind_le c behind)]
  obtain ⟨tail, htail, hfront⟩ := punctuatorAt_prefix (charOf c) (chars behind)
  have hprefix : punctuatorAt (charOf c) (chars behind) <+: chars (c :: behind) :=
    htail ▸ List.cons_prefix_cons.2 ⟨rfl, hfront⟩
  have htext : chars (c :: behind.take (bytesBehind c behind)) <+: chars (c :: behind) :=
    (List.cons_prefix_cons.2 ⟨rfl, List.take_prefix _ _⟩ : c :: _ <+: c :: behind).map charOf
  -- two fronts of one length are the same
  have heq (hsame : (punctuatorAt (charOf c) (chars behind)).length = bytesBehind c behind + 1) :
      chars (c :: behind.take (bytesBehind c behind)) = punctuatorAt (charOf c) (chars behind) :=
    (List.prefix_of_prefix_length_le htext hprefix (by rw [hlength, hsame])).eq_of_length
      (by rw [hlength, hsame])
  constructor
  · rintro ⟨kind, hkind, h⟩
    have hkind : kind = .punctuator ∨ kind = .other := by simpa using hkind
    have hdigraph : (charOf c :: chars behind).take 2 ∉ digraphs := by
      intro hdigraph
      have hpunctuator : ∀ text ∈ digraphs, text ∈ punctuators ∧ text.length = 2 := by decide
      obtain ⟨hin, htwo⟩ := hpunctuator _ hdigraph
      have hle := h.longest _ _ (.text (.punctuator hin)) (List.take_prefix 2 _)
      rw [hlength, htwo, bytesBehind_digraph hdigraph] at hle
      exact absurd hle (by decide)
    -- the two texts are equally long
    have hle : (punctuatorAt (charOf c) (chars behind)).length ≤ bytesBehind c behind + 1 := by
      rcases punctuatorAt_mem (charOf c) (chars behind) with hmem | hone
      · exact hlength ▸ h.longest _ _ (.text (.punctuator hmem)) hprefix
      · rw [hone]
        exact Nat.succ_le_succ (Nat.zero_le _)
    have hge : bytesBehind c behind + 1 ≤ (punctuatorAt (charOf c) (chars behind)).length := by
      have htoken := h.token
      have hshort : 1 ≤ (punctuatorAt (charOf c) (chars behind)).length := by
        rw [htail]
        exact Nat.succ_le_succ (Nat.zero_le _)
      rcases htoken.of_other hquote hdigit hletter with ⟨hword, -⟩ | ⟨-, hmem⟩ | ⟨-, hnil⟩
      · rcases hkind with rfl | rfl <;> rcases hword with hword | hword <;> cases hword
      · exact hlength ▸ length_le_punctuatorAt hdigraph hmem htext
      · rw [← hlength, chars_length, List.length_cons, List.map_eq_nil_iff.1 hnil]
        exact hshort
    have hsame : (punctuatorAt (charOf c) (chars behind)).length = bytesBehind c behind + 1 :=
      Nat.le_antisymm hle hge
    rw [heq hsame] at h
    exact ⟨plainPunctuator_of_longest hext hquote hdigit hletter hkind h, (punctuatorAt_length_iff c behind).1 hsame⟩
  · rintro ⟨hplain, hoperator⟩
    have hsame := (punctuatorAt_length_iff c behind).2 hoperator
    obtain ⟨kind, after, hkind, h⟩ := hplain.longest hquote hdigit hletter hwhite
    refine ⟨kind, ?_, ?_⟩
    · rcases hkind with rfl | ⟨rfl, -⟩
      · exact List.mem_cons_self
      · exact List.mem_cons_of_mem _ List.mem_cons_self
    · rw [heq hsame]
      have hafter : after = chars (behind.drop (bytesBehind c behind)) := by
        refine @List.append_cancel_left _ (punctuatorAt (charOf c) (chars behind)) _ _ ?_
        rw [h.split, ← heq hsame, ← chars_append, List.cons_append, List.take_append_drop]
        rfl
      exact hafter ▸ h

end Punctuators

end OpticC.Lexing
