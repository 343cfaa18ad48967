import OpticC.Frontend.LexerReads

/-! The texts that `read_numeric` takes: hexadecimal and octal digits without a suffix, decimal
digits with a point and then an exponent or one letter of a suffix. -/

namespace OpticC.Lexing

open Lexer

section Forms

/-- What follows the first digit of a decimal constant, with or without a point before it. -/
inductive DecimalTail : Bool → List UInt8 → Prop
  | stop {hasDecimal : Bool} : DecimalTail hasDecimal []
  | digit {hasDecimal : Bool} {c : UInt8} {bs : List UInt8} (hc : isDigit c = true)
    (h : DecimalTail hasDecimal bs) : DecimalTail hasDecimal (c :: bs)
  | point {bs : List UInt8} (h : DecimalTail true bs) : DecimalTail false (byteOf '.' :: bs)
  | exponent {hasDecimal : Bool} {e : UInt8} {sign digits : List UInt8} (he : e = byteOf 'e' ∨ e = byteOf 'E')
    (hsign : sign = [] ∨ sign = [byteOf '+'] ∨ sign = [byteOf '-'])
    (hdigits : ∀ b ∈ digits, isDigit b = true) : DecimalTail hasDecimal (e :: (sign ++ digits))
  | suffix {hasDecimal : Bool} {c : UInt8} (hc : isSuffix c = true) : DecimalTail hasDecimal [c]

inductive NumberForm : List UInt8 → Prop
  | hexadecimal {x : UInt8} {digits : List UInt8} (hx : x = byteOf 'x' ∨ x = byteOf 'X')
    (hdigits : ∀ b ∈ digits, isHexDigit b = true) : NumberForm (byteOf '0' :: x :: digits)
  | octal {o : UInt8} {digits : List UInt8} (ho : isOctalDigit o = true)
    (hdigits : ∀ b ∈ digits, isDigit b = true) : NumberForm (byteOf '0' :: o :: digits)
  | decimal {c : UInt8} {bs : List UInt8} (hc : isDigit c = true)
    (hoctal : c = byteOf '0' → ∀ o, bs.head? = some o → isOctalDigit o = false)
    (h : DecimalTail false bs) : NumberForm (c :: bs)

/-- No byte of C's numbers follows the text. -/
structure Ends (text behind : List UInt8) : Prop where
  word : ∀ b, behind.head? = some b → isAlnum b = false ∧ b ≠ byteOf '.'
  sign : ∀ e, text.getLast? = some e → e ∈ [byteOf 'e', byteOf 'E', byteOf 'p', byteOf 'P'] →
    behind.head? ≠ some (byteOf '+') ∧ behind.head? ≠ some (byteOf '-')

theorem Ends.tail {c : UInt8} {text behind : List UInt8} (h : Ends (c :: text) behind) :
    Ends text behind where
  word := h.word
  sign e he := h.sign e (by
    cases text with
    | nil => cases he
    | cons d text => rwa [List.getLast?_cons_cons])

/-- The bytes at which the loops stop. -/
theorem stops_of_not_alnum {b : UInt8} (h : isAlnum b = false) :
    isDigit b = false ∧ isHexDigit b = false ∧ isOctalDigit b = false ∧ isSuffix b = false ∧
      b ≠ byteOf 'e' ∧ b ≠ byteOf 'E' ∧ b ≠ byteOf 'x' ∧ b ≠ byteOf 'X' := by
  rw [← Bool.not_eq_true, alnum_iff] at h
  simp (disch := decide) only [← Bool.not_eq_true, digit_iff, hexDigit_iff, octalDigit_iff, suffix_iff, ne_eq,
    eq_byteOf_iff, Char.reduceToNat]
  omega

theorem isDigit_of_isOctalDigit {b : UInt8} (h : isOctalDigit b = true) : isDigit b = true := by
  rw [octalDigit_iff] at h
  rw [digit_iff]
  omega

end Forms

section Reading

variable {source : List UInt8} {l l' : Lexer source} {text bs behind : List UInt8} {c : UInt8}

theorem readExponent_eq {sign digits : List UInt8} (h : Passes l (sign ++ digits) l')
    (hsign : sign = [] ∨ sign = [byteOf '+'] ∨ sign = [byteOf '-'])
    (hdigits : ∀ b ∈ digits, isDigit b = true)
    (hends : ∀ b, l'.currentByte = some b → isDigit b = false)
    (hnone : sign = [] → digits = [] →
      l'.currentByte ≠ some (byteOf '+') ∧ l'.currentByte ≠ some (byteOf '-')) :
    l.readExponent = some l' := by
  unfold readExponent
  rcases hsign with rfl | hsign
  · have hbyte : ¬ (l.currentByte = some (byteOf '+') ∨ l.currentByte = some (byteOf '-')) := by
      cases digits with
      | nil =>
        obtain rfl : l = l' := eq_of_position (by rw [h.position]; rfl)
        exact not_or.2 (hnone rfl rfl)
      | cons d digits =>
        rw [(show Passes l (d :: digits) l' from h).currentByte]
        have hd := hdigits d List.mem_cons_self
        rintro (heq | heq) <;> cases heq <;> exact absurd hd (by decide)
    rw [if_neg hbyte, Option.bind_some]
    exact advanceWhile_eq h hdigits hends
  · obtain ⟨s, rfl, hs⟩ : ∃ s, sign = [s] ∧ (s = byteOf '+' ∨ s = byteOf '-') := by
      rcases hsign with rfl | rfl
      · exact ⟨_, rfl, .inl rfl⟩
      · exact ⟨_, rfl, .inr rfl⟩
    obtain ⟨l₁, hfirst, hmore⟩ := (show Passes l (s :: digits) l' from h).uncons
    have hbyte : l.currentByte = some (byteOf '+') ∨ l.currentByte = some (byteOf '-') := by
      rw [hfirst.currentByte]
      rcases hs with rfl | rfl
      · exact .inl rfl
      · exact .inr rfl
    rw [if_pos hbyte, hfirst.advance, Option.bind_some]
    exact advanceWhile_eq hmore hdigits hends

theorem decimalLoop_eq {hasDecimal : Bool} (h : DecimalTail hasDecimal bs) (hpasses : Passes l bs l')
    (hends : Ends bs l'.rest) {rounds : ℕ} (hrounds : l.unread ≤ rounds) :
    decimalLoop rounds hasDecimal l = some l' := by
  have hword (b : UInt8) (hb : l'.currentByte = some b) : isAlnum b = false ∧ b ≠ byteOf '.' :=
    hends.word b (currentByte_eq l' ▸ hb)
  induction h generalizing l rounds with
  | stop =>
    obtain rfl : l = l' := eq_of_position (by rw [hpasses.position]; rfl)
    cases rounds with
    | zero => rfl
    | succ rounds =>
      rw [decimalLoop]
      cases hbyte : l.currentByte with
      | none => rfl
      | some b =>
        obtain ⟨hdigit, -, -, hsuffix, he, hE, -⟩ := stops_of_not_alnum (hword b hbyte).1
        simp [hdigit, hsuffix, he, hE, (hword b hbyte).2]
  | digit hc _ ih =>
    obtain ⟨l₁, hfirst, hmore⟩ := hpasses.uncons
    have hunread := hfirst.unread
    rw [List.length_singleton] at hunread
    cases rounds with
    | zero => omega
    | succ rounds =>
      rw [decimalLoop, hfirst.currentByte]
      simp only [hc, if_true, hfirst.advance, Option.bind_some]
      exact ih hmore hends.tail (by omega)
  | point _ ih =>
    obtain ⟨l₁, hfirst, hmore⟩ := hpasses.uncons
    have hunread := hfirst.unread
    rw [List.length_singleton] at hunread
    cases rounds with
    | zero => omega
    | succ rounds =>
      rw [decimalLoop, hfirst.currentByte]
      simp only [show isDigit (byteOf '.') = false from by decide, Bool.false_eq_true, if_false,
        and_self, if_true, hfirst.advance, Option.bind_some]
      exact ih hmore hends.tail (by omega)
  | @exponent hasDecimal e sign digits he hsign hdigits =>
    obtain ⟨l₁, hfirst, hmore⟩ := hpasses.uncons
    have hunread := hfirst.unread
    rw [List.length_singleton] at hunread
    cases rounds with
    | zero => omega
    | succ rounds =>
      have hclass : isDigit e = false ∧ ¬ (e = byteOf '.' ∧ hasDecimal = false) := by
        rcases he with rfl | rfl
        · exact ⟨by decide, fun h => absurd h.1 (by decide)⟩
        · exact ⟨by decide, fun h => absurd h.1 (by decide)⟩
      rw [decimalLoop, hfirst.currentByte]
      simp only [hclass.1, Bool.false_eq_true, if_false, if_neg hclass.2, if_pos he, hfirst.advance,
        Option.bind_some]
      refine readExponent_eq hmore hsign hdigits
        (fun b hb => (stops_of_not_alnum (hword b hb).1).1) ?_
      rintro rfl rfl
      rw [currentByte_eq]
      refine hends.sign e rfl ?_
      rcases he with rfl | rfl <;> decide
  | @suffix hasDecimal c hc =>
    have hunread := hpasses.unread
    rw [List.length_singleton] at hunread
    cases rounds with
    | zero => omega
    | succ rounds =>
      have hclass : isDigit c = false ∧ c ≠ byteOf '.' ∧ ¬ (c = byteOf 'e' ∨ c = byteOf 'E') := by
        rw [suffix_iff] at hc
        simp (disch := decide) only [← Bool.not_eq_true, digit_iff, ne_eq, eq_byteOf_iff, Char.reduceToNat]
        omega
      rw [decimalLoop, hpasses.currentByte]
      simp only [hclass.1, Bool.false_eq_true, if_false, hclass.2.1, false_and, if_neg hclass.2.2, hc,
        if_true]
      exact hpasses.advance

theorem readOctal_eq {o : UInt8} {digits : List UInt8} (h : Passes l (o :: digits) l')
    (ho : isOctalDigit o = true) (hdigits : ∀ b ∈ digits, isDigit b = true)
    (hends : ∀ b, l'.currentByte = some b → isAlnum b = false) : l.readOctal = some l' := by
  have hall : ∀ b ∈ o :: digits, isDigit b = true :=
    List.forall_mem_cons.2 ⟨isDigit_of_isOctalDigit ho, hdigits⟩
  generalize o :: digits = text at h hall
  rw [← List.takeWhile_append_dropWhile (p := isOctalDigit) (l := text)] at h hall
  obtain ⟨l₁, hrun, hmore⟩ := h.split
  have hstop : ∀ b, (text.dropWhile isOctalDigit).head? = some b → isOctalDigit b = false := by
    intro b hb
    have hnot := List.head?_dropWhile_not isOctalDigit text
    rw [hb] at hnot
    exact hnot
  have hbehind : l₁.currentByte = ((text.dropWhile isOctalDigit).head?).or l'.currentByte := by
    rw [currentByte_eq, currentByte_eq, hmore.rest, List.head?_append]
  have hread : l.advanceWhile isOctalDigit = some l₁ := by
    refine advanceWhile_eq hrun (fun b hb => List.mem_takeWhile_imp hb) fun b hb => ?_
    rw [hbehind] at hb
    rcases Option.or_eq_some_iff.1 hb with hb | ⟨-, hb⟩
    · exact hstop b hb
    · exact (stops_of_not_alnum (hends b hb)).2.2.1
  rw [readOctal, hread, Option.bind_some]
  cases hdrop : text.dropWhile isOctalDigit with
  | nil =>
    rw [hdrop] at hmore hbehind
    obtain rfl : l₁ = l' := eq_of_position (by rw [hmore.position]; rfl)
    refine if_neg ?_
    rintro (hb | hb) <;> exact absurd (hends _ hb) (by decide)
  | cons d more =>
    rw [hdrop] at hmore hbehind hstop hall
    have hd : d = byteOf '8' ∨ d = byteOf '9' := by
      have hdigit := hall d (by simp)
      have hother := hstop d rfl
      rw [digit_iff] at hdigit
      rw [← Bool.not_eq_true, octalDigit_iff] at hother
      simp (disch := decide) only [eq_byteOf_iff, Char.reduceToNat]
      omega
    rw [if_pos (by rw [hbehind]; exact hd.imp (congrArg some) (congrArg some))]
    refine advanceWhile_eq hmore (fun b hb => hall b (List.mem_append_right _ hb)) fun b hb => ?_
    exact (stops_of_not_alnum (hends b hb)).1

theorem readDecimal_eq {hasDecimal : Bool} (h : DecimalTail hasDecimal bs) (hpasses : Passes l bs l')
    (hends : Ends bs l'.rest) : l.readDecimal hasDecimal = some l' :=
  decimalLoop_eq h hpasses hends (Nat.le_refl _)

/-- A decimal constant goes on with a point, or with a byte that `read_numeric` does not look for
behind a zero. -/
theorem DecimalTail.head_cases {b : UInt8} (h : DecimalTail false bs)
    (hoctal : ∀ o, bs.head? = some o → isOctalDigit o = false) (hb : bs.head? = some b) :
    (b = byteOf '.' ∧ ∃ tail, bs = byteOf '.' :: tail ∧ DecimalTail true tail) ∨
      (b ≠ byteOf 'x' ∧ b ≠ byteOf 'X') ∧ b ≠ byteOf '.' ∧ isOctalDigit b = false := by
  have hother (p : UInt8 → Bool) (hp : p b = true)
      (hx : p (byteOf 'x') = false ∧ p (byteOf 'X') = false ∧ p (byteOf '.') = false) :
      (b ≠ byteOf 'x' ∧ b ≠ byteOf 'X') ∧ b ≠ byteOf '.' ∧ isOctalDigit b = false := by
    refine ⟨⟨?_, ?_⟩, ?_, hoctal b hb⟩
    · rintro rfl
      rw [hx.1] at hp
      cases hp
    · rintro rfl
      rw [hx.2.1] at hp
      cases hp
    · rintro rfl
      rw [hx.2.2] at hp
      cases hp
  cases h with
  | stop => cases hb
  | digit hc =>
    cases hb
    exact .inr (hother isDigit hc (by decide))
  | point h =>
    cases hb
    exact .inl ⟨rfl, _, rfl, h⟩
  | exponent he =>
    cases hb
    exact .inr (hother (fun b => b == byteOf 'e' || b == byteOf 'E') (by simpa using he) (by decide))
  | suffix hc =>
    cases hb
    exact .inr (hother isSuffix hc (by decide))

/-- The byte behind a zero that is read as a decimal digit. -/
theorem readNumber_zero (h : DecimalTail false bs) (hpasses : Passes l (byteOf '0' :: bs) l')
    (hends : Ends bs l'.rest) (hoctal : ∀ o, bs.head? = some o → isOctalDigit o = false) :
    l.readNumber = some l' := by
  obtain ⟨l₁, hfirst, hmore⟩ := hpasses.uncons
  have hread := readDecimal_eq h hmore hends
  have hbyte : l₁.currentByte = bs.head?.or l'.currentByte := by
    rw [currentByte_eq, currentByte_eq, hmore.rest, List.head?_append]
  rw [readNumber, if_pos hfirst.currentByte, hfirst.advance, Option.bind_some]
  cases hcurrent : l₁.currentByte with
  | none => exact hread
  | some b =>
    dsimp only
    rw [hcurrent, eq_comm, Option.or_eq_some_iff] at hbyte
    have hcases : (b = byteOf '.' ∧ ∃ tail, bs = byteOf '.' :: tail ∧ DecimalTail true tail) ∨
        (b ≠ byteOf 'x' ∧ b ≠ byteOf 'X') ∧ b ≠ byteOf '.' ∧ isOctalDigit b = false := by
      rcases hbyte with hb | ⟨-, hb⟩
      · exact h.head_cases hoctal hb
      · obtain ⟨halnum, hdot⟩ := hends.word b (currentByte_eq l' ▸ hb)
        obtain ⟨-, -, ho, -, -, -, hx⟩ := stops_of_not_alnum halnum
        exact .inr ⟨hx, hdot, ho⟩
    rcases hcases with ⟨rfl, tail, rfl, htail⟩ | ⟨hx, hdot, ho⟩
    · obtain ⟨l₂, hpoint, hrest⟩ := hmore.uncons
      rw [if_neg (by decide), if_pos rfl, hpoint.advance, Option.bind_some]
      exact readDecimal_eq htail hrest hends.tail
    · rw [if_neg (not_or.2 hx), if_neg hdot, ho, if_neg Bool.false_ne_true]
      exact hread

/-- A constant of one of the forms is read as a whole where it ends for C. -/
theorem readNumber_eq (hform : NumberForm text) (hpasses : Passes l text l')
    (hends : Ends text l'.rest) : l.readNumber = some l' := by
  have halnum (b : UInt8) (hb : l'.currentByte = some b) : isAlnum b = false :=
    (hends.word b (currentByte_eq l' ▸ hb)).1
  cases hform with
  | hexadecimal hx hdigits =>
    obtain ⟨l₁, hzero, hmore⟩ := hpasses.uncons
    obtain ⟨l₂, hletter, hrest⟩ := hmore.uncons
    rw [readNumber, if_pos hzero.currentByte, hzero.advance, Option.bind_some, hletter.currentByte]
    dsimp only
    rw [if_pos hx, hletter.advance, Option.bind_some]
    exact advanceWhile_eq hrest hdigits fun b hb => (stops_of_not_alnum (halnum b hb)).2.1
  | @octal o digits ho hdigits =>
    obtain ⟨l₁, hzero, hmore⟩ := hpasses.uncons
    have hclass : ¬ (o = byteOf 'x' ∨ o = byteOf 'X') ∧ o ≠ byteOf '.' := by
      rw [octalDigit_iff] at ho
      simp (disch := decide) only [ne_eq, eq_byteOf_iff, Char.reduceToNat]
      omega
    rw [readNumber, if_pos hzero.currentByte, hzero.advance, Option.bind_some, hmore.currentByte]
    dsimp only
    rw [if_neg hclass.1, if_neg hclass.2, if_pos ho]
    exact readOctal_eq hmore ho hdigits halnum
  | @decimal c bs hc hoctal h =>
    by_cases hzero : c = byteOf '0'
    · subst hzero
      exact readNumber_zero h hpasses hends.tail (hoctal rfl)
    · rw [readNumber, if_neg (by rw [hpasses.currentByte]; exact fun heq => hzero (Option.some.inj heq))]
      exact readDecimal_eq (.digit hc h) hpasses hends

end Reading

section Forms

variable {source : List UInt8} {c : UInt8}

theorem exists_readExponent (hsource : source.length < 2 ^ 32) (l : Lexer source) :
    ∃ l' sign digits, l.readExponent = some l' ∧ Passes l (sign ++ digits) l' ∧
      (sign = [] ∨ sign = [byteOf '+'] ∨ sign = [byteOf '-']) ∧ ∀ b ∈ digits, isDigit b = true := by
  unfold readExponent
  by_cases hsign : l.currentByte = some (byteOf '+') ∨ l.currentByte = some (byteOf '-')
  · obtain ⟨s, hbyte, hs⟩ : ∃ s, l.currentByte = some s ∧ (s = byteOf '+' ∨ s = byteOf '-') := by
      rcases hsign with hsign | hsign
      · exact ⟨_, hsign, .inl rfl⟩
      · exact ⟨_, hsign, .inr rfl⟩
    obtain ⟨l₁, hadvance, hfirst⟩ := exists_advance hsource hbyte
    obtain ⟨l', hread, hmore, -⟩ := exists_advanceWhile hsource isDigit l₁
    refine ⟨l', [s], _, ?_, hfirst.trans hmore, .inr ?_, fun b hb => List.mem_takeWhile_imp hb⟩
    · rw [if_pos hsign, hadvance, Option.bind_some, hread]
    · exact hs.imp (congrArg fun s => [s]) (congrArg fun s => [s])
  · obtain ⟨l', hread, hmore, -⟩ := exists_advanceWhile hsource isDigit l
    refine ⟨l', [], _, ?_, hmore, .inl rfl, fun b hb => List.mem_takeWhile_imp hb⟩
    rw [if_neg hsign, Option.bind_some, hread]

theorem exists_decimalLoop (hsource : source.length < 2 ^ 32) (rounds : ℕ) (hasDecimal : Bool)
    (l : Lexer source) : ∃ l' bs, decimalLoop rounds hasDecimal l = some l' ∧ Passes l bs l' ∧
      DecimalTail hasDecimal bs := by
  have hstay (result : Option (Lexer source)) (h : result = some l) :
      ∃ l' bs, result = some l' ∧ Passes l bs l' ∧ DecimalTail hasDecimal bs :=
    ⟨l, [], h, .refl l, .stop⟩
  induction rounds generalizing l hasDecimal with
  | zero => exact hstay _ rfl
  | succ rounds ih =>
    rw [decimalLoop]
    cases hbyte : l.currentByte with
    | none => exact hstay _ rfl
    | some c =>
      dsimp only
      obtain ⟨l₁, hadvance, hfirst⟩ := exists_advance hsource hbyte
      rw [hadvance]
      split_ifs with hdigit hpoint hexponent hsuffix
      · obtain ⟨l', bs, hread, hmore, htail⟩ := ih hasDecimal l₁ fun result h =>
          ⟨l₁, [], h, .refl l₁, .stop⟩
        exact ⟨l', c :: bs, hread, hfirst.trans hmore, .digit hdigit htail⟩
      · obtain ⟨rfl, rfl⟩ := hpoint
        obtain ⟨l', bs, hread, hmore, htail⟩ := ih true l₁ fun result h => ⟨l₁, [], h, .refl l₁, .stop⟩
        exact ⟨l', _ :: bs, hread, hfirst.trans hmore, .point htail⟩
      · obtain ⟨l', sign, digits, hread, hmore, hsign, hdigits⟩ := exists_readExponent hsource l₁
        exact ⟨l', c :: (sign ++ digits), hread, hfirst.trans hmore, .exponent hexponent hsign hdigits⟩
      · exact ⟨l₁, [c], rfl, hfirst, .suffix hsuffix⟩
      · exact hstay _ rfl

theorem exists_readOctal (hsource : source.length < 2 ^ 32) {l : Lexer source} {o : UInt8}
    (hbyte : l.currentByte = some o) (ho : isOctalDigit o = true) :
    ∃ l' digits, l.readOctal = some l' ∧ Passes l (o :: digits) l' ∧ ∀ b ∈ digits, isDigit b = true := by
  obtain ⟨l₁, hread, hrun, -⟩ := exists_advanceWhile hsource isOctalDigit l
  obtain ⟨behind, hbehind⟩ := exists_rest hbyte
  rw [hbehind, List.takeWhile_cons_of_pos ho] at hrun
  have hdigits : ∀ b ∈ behind.takeWhile isOctalDigit, isDigit b = true :=
    fun b hb => isDigit_of_isOctalDigit (List.mem_takeWhile_imp hb)
  rw [readOctal, hread, Option.bind_some]
  split_ifs
  · obtain ⟨l', hread', hmore, -⟩ := exists_advanceWhile hsource isDigit l₁
    refine ⟨l', _, hread', hrun.trans hmore, fun b hb => ?_⟩
    rcases List.mem_append.1 hb with hb | hb
    · exact hdigits b hb
    · exact List.mem_takeWhile_imp hb
  · exact ⟨l₁, _, rfl, hrun, hdigits⟩

/-- What is read as a constant has one of the forms. -/
theorem exists_readNumber (hsource : source.length < 2 ^ 32) {l : Lexer source}
    (hbyte : l.currentByte = some c) (hc : isDigit c = true) :
    ∃ l' text, l.readNumber = some l' ∧ Passes l text l' ∧ NumberForm text := by
  by_cases hzero : c = byteOf '0'
  · subst hzero
    obtain ⟨l₁, hadvance, hfirst⟩ := exists_advance hsource hbyte
    rw [readNumber, if_pos hbyte, hadvance, Option.bind_some]
    have hdecimal (hoctal : ∀ o, l₁.currentByte = some o → isOctalDigit o = false) :
        ∃ l' text, l₁.readDecimal false = some l' ∧ Passes l text l' ∧ NumberForm text := by
      obtain ⟨l', bs, hread, hmore, htail⟩ := exists_decimalLoop hsource l₁.unread false l₁
      refine ⟨l', _, hread, hfirst.trans hmore, .decimal hc (fun _ o ho => hoctal o ?_) htail⟩
      rw [currentByte_eq, hmore.rest, List.head?_append, show bs.head? = some o from ho]
      rfl
    cases hbyte₁ : l₁.currentByte with
    | none => exact hdecimal fun o ho => absurd (hbyte₁.symm.trans ho) (by simp)
    | some d =>
      obtain ⟨l₂, hadvance₂, hsecond⟩ := exists_advance hsource hbyte₁
      dsimp only
      split_ifs with hx hpoint hoctal
      · obtain ⟨l', hread, hmore, -⟩ := exists_advanceWhile hsource isHexDigit l₂
        refine ⟨l', _, ?_, hfirst.trans (hsecond.trans hmore), .hexadecimal hx fun b hb => List.mem_takeWhile_imp hb⟩
        rw [hadvance₂, Option.bind_some, hread]
      · subst hpoint
        obtain ⟨l', bs, hread, hmore, htail⟩ := exists_decimalLoop hsource l₂.unread true l₂
        refine ⟨l', _, ?_, hfirst.trans (hsecond.trans hmore), .decimal hc (fun _ o ho => ?_) (.point htail)⟩
        · rw [hadvance₂, Option.bind_some]
          exact hread
        · cases ho
          decide
      · obtain ⟨l', digits, hread, hmore, hdigits⟩ := exists_readOctal hsource hbyte₁ hoctal
        exact ⟨l', _, hread, hfirst.trans hmore, .octal hoctal hdigits⟩
      · refine hdecimal fun o ho => ?_
        obtain rfl := Option.some.inj (hbyte₁.symm.trans ho)
        exact Bool.eq_false_iff.2 hoctal
  · rw [readNumber, if_neg (by rw [hbyte]; exact fun heq => hzero (Option.some.inj heq))]
    obtain ⟨l₁, -, hfirst⟩ := exists_advance hsource hbyte
    obtain ⟨l', bs, hread, hmore, htail⟩ := exists_decimalLoop hsource l₁.unread false l₁
    refine ⟨l', c :: bs, ?_, hfirst.trans hmore, .decimal hc (fun heq => absurd heq hzero) htail⟩
    -- the first digit is a round of the loop
    have hunread : l.unread = l₁.unread + 1 := by rw [hfirst.unread, List.length_singleton, Nat.add_comm]
    rw [readDecimal, hunread, decimalLoop, hbyte]
    dsimp only
    rw [if_pos hc, hfirst.advance, Option.bind_some]
    exact hread

end Forms

end OpticC.Lexing
