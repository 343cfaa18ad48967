import OpticC.Frontend.LexerTokens
import Mathlib.Logic.Relation

/-! A source in the lexer's tokens: they tile it, and where the bytes at each token are plain the
numbers and punctuators are C's longest ones. -/

namespace OpticC.Lexing

open Lexer MaximalMunch Preprocessor

section Specification

variable (extended : Char → Bool) (source : List UInt8)

/-- The kinds of C that a token can be. -/
def cKinds : TokenKind → List CTokenKind
  | .numericConstant => [.ppNumber]
  | .punctuator => [.punctuator, .other]
  | _ => []

/-- The bytes of the token are the longest token of C at its start. -/
def IsLongest (t : Token) : Prop :=
  ∃ kind ∈ cKinds t.kind, Longest (PreprocessingToken extended) (chars (source.drop t.start)) kind
    (chars ((source.take t.stop).drop t.start)) (chars (source.drop t.stop))

/-- White space from one position to another. -/
def SpaceBetween (p q : ℕ) : Prop := p ≤ q ∧ ∀ i, p ≤ i → i < q → ∃ b, source[i]? = some b ∧ isSpace b = true

/-- From a position on, tokens of one byte at least with white space between them, up to the end. -/
inductive Tiles : ℕ → List Token → Prop
  | endOfFile {p : ℕ} (hspace : SpaceBetween source p source.length) :
    Tiles p [⟨.endOfFile, source.length, source.length, 0⟩]
  | token {p : ℕ} {t : Token} {ts : List Token} (hspace : SpaceBetween source p t.start)
    (hne : t.start < t.stop) (hle : t.stop ≤ source.length) (hkind : t.kind ≠ .endOfFile ∧ t.kind ≠ .whiteSpace)
    (h : Tiles t.stop ts) : Tiles p (t :: ts)

/-- The calls of `next_token` end, with tokens that tile the source by maximal munch. -/
def Munches : Prop :=
  ∃ fuel ts, (Lexer.new source).tokens fuel = some ts ∧ Tiles source 0 ts ∧
    ∀ t ∈ ts, t.kind = .punctuator ∨ t.kind = .numericConstant → IsLongest extended source t

/-- A call of `scan_token`. -/
def Scans (l l' : Lexer source) : Prop := ∃ t, l.scanToken = some (t, l')

/-- The bytes at the cursor are read as in C, if a number or a punctuator begins there. -/
structure Plain (l : Lexer source) : Prop where
  number : ∀ c behind, l.rest = c :: behind → isDigit c = true → PlainNumber extended l.rest
  punctuator : ∀ c behind, l.rest = c :: behind → StartsPunctuator c behind →
    PlainPunctuator extended (charOf c) (chars behind) ∧ PlainOperator c behind
  inRange : l.rest = [byteOf '.', byteOf '.'] → l.position + 3 < 2 ^ 32

end Specification

section Steps

variable {extended : Char → Bool} {source : List UInt8} {l l' : Lexer source} {c b : UInt8}
  {bs behind : List UInt8}

theorem token_text (h : Passes l bs l') : (source.take l'.position).drop l.position = bs := by
  rw [List.drop_take, h.position, Nat.add_sub_cancel_left, show source.drop l.position = _ from h.rest,
    List.take_left]

theorem isLongest_iff {kind : TokenKind} (h : Passes l bs l') :
    IsLongest extended source ⟨kind, l.position, l'.position, 0⟩ ↔
      ∃ k ∈ cKinds kind, Longest (PreprocessingToken extended) (chars l.rest) k (chars bs) (chars l'.rest) := by
  simp only [IsLongest, token_text h]
  rfl

theorem advanceThird_eq (hsource : source.length < 2 ^ 32) (hlt : l.position + 2 < 2 ^ 32) (b : UInt8) :
    ∃ l', l.advanceThird b = some l' ∧
      Passes l (l.rest.take (if l.rest[2]? = some b then 2 else 0)) l' := by
  rw [advanceThird, peekByte_of_lt hlt]
  by_cases hthird : l.rest[2]? = some b
  · obtain ⟨hlength, -⟩ := List.getElem?_eq_some_iff.1 hthird
    cases hrest : l.rest with
    | nil =>
      rw [hrest] at hlength
      cases hlength
    | cons first more =>
      cases more with
      | nil =>
        rw [hrest] at hlength
        exact absurd hlength (by simp)
      | cons second more =>
        obtain ⟨l', hread, hpasses⟩ := exists_advance_two hsource hrest
        rw [hrest] at hthird
        refine ⟨l', ?_, ?_⟩
        · rw [Option.bind_eq_bind, Option.bind_some, if_pos hthird, hread]
        · rw [if_pos hthird]
          exact hpasses
  · refine ⟨l, ?_, ?_⟩
    · rw [Option.bind_eq_bind, Option.bind_some, if_neg hthird]
    · rw [if_neg hthird]
      exact .refl l

theorem isPunctuator_of_isPair {c next : UInt8} (h : isPair c next = true) : isPunctuator c = true := by
  obtain ⟨p, hp, heq⟩ := List.any_eq_true.1 h
  rw [Bool.and_eq_true, beq_iff_eq] at heq
  have hall : (pairs.all fun p => isPunctuator (byteOf p.1)) = true := by decide
  rw [heq.1]
  exact List.all_eq_true.1 hall p hp

theorem bytesBehind_of_other (h : isPunctuator c = false) (behind : List UInt8) :
    bytesBehind c behind = 0 := by
  have hne {d : Char} (hd : isPunctuator (byteOf d) = true) : c ≠ byteOf d := by
    rintro rfl
    rw [hd] at h
    cases h
  have hpair : behind.head?.any (isPair c) = false := by
    cases behind with
    | nil => rfl
    | cons next more =>
      by_contra hpair
      rw [Bool.not_eq_false] at hpair
      rw [isPunctuator_of_isPair hpair] at h
      cases h
  rw [bytesBehind, if_neg fun h => hne (d := '.') (by decide) h.1,
    if_neg fun h => h.1.elim (hne (d := '<') (by decide)) (hne (d := '>') (by decide)), hpair]
  rfl

/-- Room for the look ahead behind two equal bytes at the end. -/
def InRange (l : Lexer source) : Prop :=
  ∀ c ∈ [byteOf '.', byteOf '<', byteOf '>'], l.rest = [c, c] → l.position + 3 < 2 ^ 32

theorem readSecond_eq (hsource : source.length < 2 ^ 32) {second : Lexer source} (hfirst : Passes l [c] second)
    (hrange : InRange l) : ∃ l', second.readSecond c (second.currentByte.getD (byteOf ' ')) = some l' ∧
      Passes second (second.rest.take (bytesBehind c second.rest)) l' := by
  have hnext {b : UInt8} (hb : b ≠ byteOf ' ') :
      second.currentByte.getD (byteOf ' ') = b ↔ second.rest.head? = some b := by
    rw [currentByte_eq]
    cases second.rest.head? with
    | none => simp [hb.symm]
    | some d => simp
  have hlt {b : UInt8} (hb : b ∈ [byteOf '.', byteOf '<', byteOf '>']) (hc : c = b)
      (hhead : second.rest.head? = some b) : second.position + 2 < 2 ^ 32 := by
    subst hc
    obtain ⟨more, hmore⟩ := List.head?_eq_some_iff.1 hhead
    have hposition := hfirst.position
    rw [List.length_singleton] at hposition
    cases more with
    | nil =>
      have := hrange c hb (by rw [hfirst.rest, hmore]; rfl)
      omega
    | cons d more =>
      have hlength := congrArg List.length hmore
      rw [rest, List.length_drop, List.length_cons, List.length_cons] at hlength
      omega
  have hthird {b d : UInt8} (hb : b ∈ [byteOf '.', byteOf '<', byteOf '>']) (hc : c = b)
      (hhead : second.rest.head? = some b)
      (hbytes : bytesBehind c second.rest = if second.rest[2]? = some d then 2 else 0) :
      ∃ l', second.advanceThird d = some l' ∧
        Passes second (second.rest.take (bytesBehind c second.rest)) l' := by
    rw [hbytes]
    exact advanceThird_eq hsource (hlt hb hc hhead) d
  have hother (hdots : ¬ (c = byteOf '.' ∧ second.currentByte.getD (byteOf ' ') = byteOf '.'))
      (hless : ¬ (c = byteOf '<' ∧ second.currentByte.getD (byteOf ' ') = byteOf '<'))
      (hgreater : ¬ (c = byteOf '>' ∧ second.currentByte.getD (byteOf ' ') = byteOf '>')) :
      bytesBehind c second.rest = if second.rest.head?.any (isPair c) then 1 else 0 := by
    rw [hnext (by decide)] at hdots hless hgreater
    rw [bytesBehind, if_neg hdots, if_neg]
    rintro ⟨rfl | rfl, hhead⟩
    · exact hless ⟨rfl, hhead⟩
    · exact hgreater ⟨rfl, hhead⟩
  unfold readSecond
  split_ifs with hdots hless hgreater hpair
  · obtain ⟨hc, hhead⟩ := hdots
    rw [hnext (by decide)] at hhead
    exact hthird (by decide) hc hhead (if_pos ⟨hc, hhead⟩)
  · obtain ⟨rfl, hhead⟩ := hless
    rw [hnext (by decide)] at hhead
    refine hthird (by decide) rfl hhead ?_
    rw [bytesBehind, if_neg fun h => absurd h.1 (by decide), if_pos ⟨.inl rfl, hhead⟩]
  · obtain ⟨rfl, hhead⟩ := hgreater
    rw [hnext (by decide)] at hhead
    refine hthird (by decide) rfl hhead ?_
    rw [bytesBehind, if_neg fun h => absurd h.1 (by decide), if_pos ⟨.inr rfl, hhead⟩]
  · rw [hother hdots hless hgreater]
    cases hhead : second.rest.head? with
    | none =>
      rw [currentByte_eq, hhead, Option.getD_none] at hpair
      obtain ⟨p, hp, heq⟩ := List.any_eq_true.1 hpair
      rw [Bool.and_eq_true, beq_iff_eq, beq_iff_eq] at heq
      have hall : pairs.all (fun p => byteOf ' ' != byteOf p.2) = true := by decide
      exact absurd heq.2 (bne_iff_ne.1 (List.all_eq_true.1 hall p hp))
    | some d =>
      rw [currentByte_eq, hhead, Option.getD_some] at hpair
      rw [Option.any_some, if_pos hpair]
      obtain ⟨more, hmore⟩ := List.head?_eq_some_iff.1 hhead
      obtain ⟨l', hread, hpasses⟩ := exists_advance hsource (currentByte_eq second ▸ hhead)
      exact ⟨l', hread, by rw [hmore]; exact hpasses⟩
  · rw [hother hdots hless hgreater]
    have hnone : ¬ second.rest.head?.any (isPair c) = true := by
      rw [currentByte_eq] at hpair
      cases hhead : second.rest.head? with
      | none => exact Bool.false_ne_true
      | some d =>
        rw [hhead, Option.getD_some] at hpair
        exact hpair
    rw [if_neg hnone]
    exact ⟨second, rfl, .refl second⟩

theorem consumes_readPunctuator (hsource : source.length < 2 ^ 32) (hrest : l.rest = c :: behind)
    (hrange : InRange l) : ∃ l', l.readPunctuator = some (l'.token .punctuator l.position) ∧
      Passes l (c :: behind.take (bytesBehind c behind)) l' := by
  have hbyte : l.currentByte = some c := by rw [currentByte_eq, hrest, List.head?_cons]
  obtain ⟨second, hadvance, hfirst⟩ := exists_advance hsource hbyte
  have hsecond : second.rest = behind := by
    have hsplit := hfirst.rest
    rw [hrest] at hsplit
    exact (List.cons.inj hsplit).2.symm
  obtain ⟨l', hread, hpasses⟩ := readSecond_eq hsource hfirst hrange
  rw [hsecond] at hpasses
  simp only [readPunctuator, hbyte, Option.getD_some, hadvance, Option.bind_eq_bind, Option.bind_some]
  by_cases hc : isPunctuator c = true
  · rw [if_pos hc, hread]
    exact ⟨l', rfl, hfirst.trans hpasses⟩
  · rw [if_neg hc, bytesBehind_of_other (Bool.eq_false_iff.2 hc)]
    exact ⟨second, rfl, hfirst⟩

/-- Without room for the look ahead the lexer panics. -/
theorem readPunctuator_eq_none (hsource : source.length < 2 ^ 32) (hrange : ¬ InRange l) :
    l.readPunctuator = none ∧ ∃ c ∈ [byteOf '.', byteOf '<', byteOf '>'], l.rest = [c, c] ∧
      ¬ l.position + 3 < 2 ^ 32 := by
  unfold InRange at hrange
  push Not at hrange
  obtain ⟨c, hc, hrest, hfar⟩ := hrange
  have hbyte : l.currentByte = some c := by rw [currentByte_eq, hrest, List.head?_cons]
  obtain ⟨second, hadvance, hfirst⟩ := exists_advance hsource hbyte
  have hsecond : second.rest = [c] := by
    have hsplit := hfirst.rest
    rw [hrest] at hsplit
    exact (List.cons.inj hsplit).2.symm
  have hnext : second.currentByte = some c := by rw [currentByte_eq, hsecond, List.head?_cons]
  have hposition := hfirst.position
  rw [List.length_singleton] at hposition
  have hpeek (b : UInt8) : second.advanceThird b = none := by
    rw [advanceThird, peekByte, if_neg (by omega)]
    rfl
  refine ⟨?_, c, hc, hrest, by omega⟩
  simp only [readPunctuator, hbyte, Option.getD_some, hadvance, Option.bind_eq_bind, Option.bind_some, hnext]
  have hread : second.readSecond c c = none := by
    unfold readSecond
    simp only [List.mem_cons, List.not_mem_nil, or_false] at hc
    rcases hc with rfl | rfl | rfl
    · rw [if_pos ⟨rfl, rfl⟩, hpeek]
    · rw [if_neg (by decide), if_pos ⟨rfl, rfl⟩, hpeek]
    · rw [if_neg (by decide), if_neg (by decide), if_pos ⟨rfl, rfl⟩, hpeek]
  have hpunctuator : isPunctuator c = true := by
    have hall : [byteOf '.', byteOf '<', byteOf '>'].all isPunctuator = true := by decide
    exact List.all_eq_true.1 hall c hc
  rw [if_pos hpunctuator, hread]
  rfl

/-- What a call of `scan_token` does at the cursor. -/
inductive ScanResult (extended : Char → Bool) (l : Lexer source) : Prop
  | endOfFile (hrest : l.rest = []) (hscan : l.scanToken = some (l.token .endOfFile l.position))
  | panics (hscan : l.scanToken = none) (hplain : ¬ Plain extended source l)
  | token {kind : TokenKind} {l' : Lexer source} {c : UInt8} {bs : List UInt8}
    (hscan : l.scanToken = some (l'.token kind l.position)) (hpasses : Passes l (c :: bs) l')
    (hkind : kind ≠ .endOfFile) (hspace : kind = .whiteSpace → ∀ b ∈ c :: bs, isSpace b = true)
    (hplain : Plain extended source l ↔ (kind = .punctuator ∨ kind = .numericConstant →
      IsLongest extended source ⟨kind, l.position, l'.position, 0⟩))

theorem plain_of_other (hrest : l.rest = c :: behind) (hdigit : isDigit c = false)
    (hstart : ¬ StartsPunctuator c behind) (hdot : c ≠ byteOf '.') : Plain extended source l where
  number c' behind' hrest' hdigit' := by
    obtain ⟨rfl, -⟩ := List.cons.inj (hrest.symm.trans hrest')
    rw [hdigit] at hdigit'
    cases hdigit'
  punctuator c' behind' hrest' hstart' := by
    obtain ⟨rfl, rfl⟩ := List.cons.inj (hrest.symm.trans hrest')
    exact absurd hstart' hstart
  inRange hrest' := absurd (List.cons.inj (hrest.symm.trans hrest')).1 hdot

/-- A token that is neither a number nor a punctuator. -/
theorem ScanResult.of_consumes (kind : TokenKind) (hscan : Consumes l kind l.scanToken)
    (hkind : kind ≠ .endOfFile ∧ kind ≠ .whiteSpace ∧ kind ≠ .punctuator ∧ kind ≠ .numericConstant)
    (hplain : Plain extended source l) : ScanResult extended l := by
  obtain ⟨l', c, bs, hscan, hpasses⟩ := hscan
  refine .token hscan hpasses hkind.1 (fun h => absurd h hkind.2.1) ⟨fun _ h => ?_, fun _ => hplain⟩
  exact absurd h (not_or.2 hkind.2.2)

theorem scan_punctuator (hext : OutsideAscii extended) (hsource : source.length < 2 ^ 32)
    (hrest : l.rest = c :: behind) (hstart : StartsPunctuator c behind)
    (hscan : l.scanToken = l.readPunctuator) : ScanResult extended l := by
  by_cases hrange : InRange l
  · obtain ⟨l', hread, hpasses⟩ := consumes_readPunctuator hsource hrest hrange
    refine .token (hscan.trans hread) hpasses TokenKind.noConfusion TokenKind.noConfusion ?_
    have hafter : l'.rest = behind.drop (bytesBehind c behind) := by
      have hsplit := hpasses.rest
      rw [hrest, List.cons_append] at hsplit
      exact (List.append_cancel_left ((List.take_append_drop _ behind).trans (List.cons.inj hsplit).2)).symm
    have hlongest := punctuator_longest_iff hext hstart
    rw [← hrest, ← hafter] at hlongest
    constructor
    · intro hplain _
      exact (isLongest_iff hpasses).2 (hlongest.2 (hplain.punctuator c behind hrest hstart))
    · intro h
      refine ⟨fun c' behind' hrest' hdigit => ?_, fun c' behind' hrest' _ => ?_, fun hdots => ?_⟩
      · obtain ⟨rfl, -⟩ := List.cons.inj (hrest.symm.trans hrest')
        rw [hstart.digit] at hdigit
        cases hdigit
      · obtain ⟨rfl, rfl⟩ := List.cons.inj (hrest.symm.trans hrest')
        exact hlongest.1 ((isLongest_iff hpasses).1 (h (.inl rfl)))
      · exact hrange _ List.mem_cons_self hdots
  · obtain ⟨hread, d, hd, hrest', hfar⟩ := readPunctuator_eq_none hsource hrange
    refine .panics (hscan.trans hread) fun hplain => ?_
    obtain ⟨rfl, rfl⟩ := List.cons.inj (hrest.symm.trans hrest')
    simp only [List.mem_cons, List.not_mem_nil, or_false] at hd
    have hoperator := (hplain.punctuator c [c] hrest hstart).2
    rcases hd with rfl | rfl | rfl
    · exact hfar (hplain.inRange hrest)
    · exact absurd (hoperator.shift (.inl rfl) rfl).1 (by decide)
    · exact absurd (hoperator.shift (.inr rfl) rfl).1 (by decide)

theorem scan_number (hext : OutsideAscii extended) (hsource : source.length < 2 ^ 32)
    (hrest : l.rest = c :: behind) (hdigit : isDigit c = true)
    (hscan : l.scanToken = l.readNumeric) : ScanResult extended l := by
  have hbyte : l.currentByte = some c := by rw [currentByte_eq, hrest, List.head?_cons]
  obtain ⟨l', text, hread, hpasses, hform⟩ := exists_readNumber hsource hbyte hdigit
  obtain ⟨d, bs, rfl, -⟩ := hform.head
  have hscan' : l.scanToken = some (l'.token .numericConstant l.position) := by
    rw [hscan, readNumeric, hread]
    rfl
  refine .token hscan' hpasses TokenKind.noConfusion TokenKind.noConfusion ?_
  have hlongest := readNumber_longest_iff hext hsource hread hpasses hform
  have hstart : ¬ StartsPunctuator c behind := fun h => by
    have hnot := h.digit
    rw [hdigit] at hnot
    cases hnot
  constructor
  · intro hplain _
    exact (isLongest_iff hpasses).2 ⟨_, List.mem_cons_self, hlongest.2 (hplain.number c behind hrest hdigit)⟩
  · intro h
    obtain ⟨kind, hkind, hnumber⟩ := (isLongest_iff hpasses).1 (h (.inr rfl))
    obtain rfl := List.mem_singleton.1 hkind
    refine ⟨fun _ _ _ _ => hlongest.1 hnumber, fun c' behind' hrest' hstart' => ?_, fun hdots => ?_⟩
    · obtain ⟨rfl, rfl⟩ := List.cons.inj (hrest.symm.trans hrest')
      exact absurd hstart' hstart
    · obtain ⟨rfl, -⟩ := List.cons.inj (hrest.symm.trans hdots)
      exact absurd hdigit (by decide)

theorem scanResult (hext : OutsideAscii extended) (hsource : source.length < 2 ^ 32) (l : Lexer source) :
    ScanResult extended l := by
  cases hrest : l.rest with
  | nil =>
    have hbyte : l.currentByte = none := by rw [currentByte_eq, hrest, List.head?_nil]
    exact .endOfFile hrest (by rw [Lexer.scanToken, hbyte])
  | cons c behind =>
    have hbyte : l.currentByte = some c := by rw [currentByte_eq, hrest, List.head?_cons]
    have hother {p : UInt8 → Bool} (hc : p c = true) (h : p (byteOf '.') = false) : c ≠ byteOf '.' := by
      rintro rfl
      rw [h] at hc
      cases hc
    by_cases hspace : isSpace c = true
    · have hscan : l.scanToken = l.skipWhitespace := by
        rw [Lexer.scanToken, hbyte]
        exact if_pos hspace
      obtain ⟨l', bs, hread, hpasses, hall⟩ := consumes_advanceWhile hsource hbyte hspace
      have hdigit : isDigit c = false := by
        rw [space_iff] at hspace
        rw [← Bool.not_eq_true, digit_iff]
        omega
      refine .token (hscan.trans hread) hpasses TokenKind.noConfusion (fun _ => hall) ⟨fun _ h => ?_, fun _ => ?_⟩
      · rcases h with h | h <;> cases h
      · exact plain_of_other hrest hdigit (fun h => by rw [h.space] at hspace; cases hspace)
          (hother hspace (by decide))
    rw [Bool.not_eq_true] at hspace
    by_cases hslash : c = byteOf '/'
    · subst hslash
      have hpeek : l.peekByte 1 = some behind.head? := by
        rw [peekByte_eq hsource (by rw [hrest]; exact Nat.succ_pos _), hrest, List.getElem?_cons_succ,
          List.head?_eq_getElem?]
      have hscan : l.scanToken = if behind.head? = some (byteOf '/') then l.readLineComment
          else if behind.head? = some (byteOf '*') then l.readBlockComment else l.readPunctuator := by
        rw [Lexer.scanToken, hbyte]
        simp only [hspace, Bool.false_eq_true, if_false, if_true, hpeek, Option.bind_eq_bind, Option.bind_some]
      have hplain (h : behind.head? = some (byteOf '/') ∨ behind.head? = some (byteOf '*')) :
          Plain extended source l :=
        plain_of_other hrest (by decide)
          (fun hstart => h.elim (hstart.comment rfl).1 (hstart.comment rfl).2) (by decide)
      by_cases hline : behind.head? = some (byteOf '/')
      · obtain ⟨more, rfl⟩ := List.head?_eq_some_iff.1 hline
        refine .of_consumes .comment ?_ (by decide) (hplain (.inl hline))
        rw [hscan, if_pos hline]
        exact consumes_readLineComment hsource hrest
      · by_cases hblock : behind.head? = some (byteOf '*')
        · obtain ⟨more, rfl⟩ := List.head?_eq_some_iff.1 hblock
          refine .of_consumes .comment ?_ (by decide) (hplain (.inr hblock))
          rw [hscan, if_neg hline, if_pos hblock]
          exact consumes_readBlockComment hsource hrest
        · refine scan_punctuator hext hsource hrest ⟨by decide, fun _ => ⟨hline, hblock⟩, by decide, by decide,
            by decide⟩ ?_
          rw [hscan, if_neg hline, if_neg hblock]
    have hscan : l.scanToken = if c = byteOf '#' then l.readPreprocessor
        else if c = byteOf '"' ∨ c = byteOf '\'' then l.readStringLiteral
        else if isAlpha c ∨ c = byteOf '_' then l.readIdentifier
        else if isDigit c then l.readNumeric else l.readPunctuator := by
      rw [Lexer.scanToken, hbyte]
      simp only [hspace, Bool.false_eq_true, if_false, hslash]
    by_cases hhash : c = byteOf '#'
    · subst hhash
      refine .of_consumes .preprocessor ?_ (by decide)
        (plain_of_other hrest (by decide) (fun h => h.other.1 rfl) (by decide))
      rw [hscan, if_pos rfl]
      exact consumes_readPreprocessor hsource hbyte
    by_cases hquote : c = byteOf '"' ∨ c = byteOf '\''
    · refine .of_consumes .stringLiteral ?_ (by decide) (plain_of_other hrest ?_ (fun h => ?_) ?_)
      · rw [hscan, if_neg hhash, if_pos hquote]
        exact consumes_readStringLiteral hsource hbyte
      · rcases hquote with rfl | rfl <;> decide
      · exact hquote.elim h.other.2.1 h.other.2.2
      · rcases hquote with rfl | rfl <;> decide
    by_cases hletter : isAlpha c = true ∨ c = byteOf '_'
    · have hclass : isAlnum c = true ∧ isDigit c = false ∧ c ≠ byteOf '.' := by
        rw [alpha_iff, eq_byteOf_iff (by decide)] at hletter
        simp (disch := decide) only [alnum_iff, ← Bool.not_eq_true, digit_iff, ne_eq, eq_byteOf_iff,
          Char.reduceToNat] at hletter ⊢
        omega
      refine .of_consumes .identifier ?_ (by decide)
        (plain_of_other hrest hclass.2.1 (fun h => ?_) hclass.2.2)
      · rw [hscan, if_neg hhash, if_neg hquote, if_pos hletter]
        exact consumes_readIdentifier hsource hbyte hclass.1
      · rcases hletter with hletter | hletter
        · rw [h.letter.1] at hletter
          cases hletter
        · exact h.letter.2 hletter
    by_cases hdigit : isDigit c = true
    · refine scan_number hext hsource hrest hdigit ?_
      rw [hscan, if_neg hhash, if_neg hquote, if_neg hletter, if_pos hdigit]
    · obtain ⟨halpha, hunderscore⟩ := not_or.1 hletter
      obtain ⟨hstring, hcharacter⟩ := not_or.1 hquote
      refine scan_punctuator hext hsource hrest ⟨hspace, fun h => absurd h hslash, ⟨hhash, hstring, hcharacter⟩,
        ⟨Bool.eq_false_iff.2 halpha, hunderscore⟩, Bool.eq_false_iff.2 hdigit⟩ ?_
      rw [hscan, if_neg hhash, if_neg hquote, if_neg hletter, if_neg hdigit]

end Steps

section Runs

variable {extended : Char → Bool} {source : List UInt8} {l l' : Lexer source} {t : Token} {ts : List Token}

theorem plain_of_nil (h : l.rest = []) : Plain extended source l where
  number _ _ hrest := absurd (h.symm.trans hrest) (by simp)
  punctuator _ _ hrest := absurd (h.symm.trans hrest) (by simp)
  inRange hrest := absurd (h.symm.trans hrest) (by simp)

/-- The end of the file is found only behind the last byte. -/
theorem currentByte_of_endOfFile (h : l.scanToken = some (t, l')) (ht : t.kind = .endOfFile) :
    l.currentByte = none := by
  have htoken {r : Option (Lexer source)} {kind : TokenKind} {start : ℕ}
      (h : r.bind (fun last => some (last.token kind start)) = some (t, l')) : kind = .endOfFile := by
    obtain ⟨last, -, hlast⟩ := Option.bind_eq_some_iff.1 h
    rw [← ht, ← congrArg (fun r => r.1.kind) (Option.some.inj hlast)]
    rfl
  cases hbyte : l.currentByte with
  | none => rfl
  | some c =>
    exfalso
    simp only [Lexer.scanToken, hbyte] at h
    split_ifs at h
    · cases htoken h
    · obtain ⟨next, -, h⟩ := Option.bind_eq_some_iff.1 h
      split_ifs at h
      · obtain ⟨second, -, h⟩ := Option.bind_eq_some_iff.1 h
        obtain ⟨first, -, h⟩ := Option.bind_eq_some_iff.1 h
        cases htoken h
      · obtain ⟨next', -, h⟩ := Option.bind_eq_some_iff.1 h
        split_ifs at h
        · obtain ⟨second, -, h⟩ := Option.bind_eq_some_iff.1 h
          obtain ⟨first, -, h⟩ := Option.bind_eq_some_iff.1 h
          cases htoken h
        · obtain ⟨second, -, h⟩ := Option.bind_eq_some_iff.1 h
          cases htoken h
    · cases htoken h
    · obtain ⟨first, -, h⟩ := Option.bind_eq_some_iff.1 h
      cases htoken h
    · cases htoken h
    · cases htoken h
    · obtain ⟨second, -, h⟩ := Option.bind_eq_some_iff.1 h
      cases htoken h

theorem nextToken_endOfFile {fuel : ℕ} (h : l.nextToken fuel = some (t, l')) (ht : t.kind = .endOfFile) :
    ∃ l₁ : Lexer source, l₁.currentByte = none := by
  induction fuel generalizing l with
  | zero => cases h
  | succ fuel ih =>
    obtain ⟨⟨t₁, l₁⟩, hscan, h⟩ := Option.bind_eq_some_iff.1 h
    dsimp only at h
    split_ifs at h
    · exact ih h
    · cases h
      exact ⟨l, currentByte_of_endOfFile hscan ht⟩

/-- The end of a source is reached by a cursor that fits into 32 bits. -/
theorem length_lt_of_tokens {fuel : ℕ} (h : l.tokens fuel = some ts) : source.length < 2 ^ 32 := by
  induction fuel generalizing l ts with
  | zero => cases h
  | succ fuel ih =>
    obtain ⟨⟨t₁, l₁⟩, hnext, h⟩ := Option.bind_eq_some_iff.1 h
    dsimp only at h
    split_ifs at h with hend
    · obtain ⟨last, hlast⟩ := nextToken_endOfFile hnext hend
      exact Nat.lt_of_le_of_lt (List.getElem?_eq_none_iff.1 hlast) last.position_lt
    · obtain ⟨rest, hrest, -⟩ := Option.bind_eq_some_iff.1 h
      exact ih hrest

theorem nextToken_mono {fuel : ℕ} (h : l.nextToken fuel = some (t, l')) :
    l.nextToken (fuel + 1) = some (t, l') := by
  induction fuel generalizing l with
  | zero => cases h
  | succ fuel ih =>
    obtain ⟨⟨t₁, l₁⟩, hscan, h⟩ := Option.bind_eq_some_iff.1 h
    rw [nextToken, hscan]
    dsimp only at h ⊢
    simp only [Option.bind_eq_bind, Option.bind_some]
    split_ifs at h ⊢
    · exact ih h
    · exact h

theorem tokens_mono {fuel : ℕ} (h : l.tokens fuel = some ts) : l.tokens (fuel + 1) = some ts := by
  induction fuel generalizing l ts with
  | zero => cases h
  | succ fuel ih =>
    obtain ⟨⟨t₁, l₁⟩, hnext, h⟩ := Option.bind_eq_some_iff.1 h
    rw [Lexer.tokens, nextToken_mono hnext]
    dsimp only at h ⊢
    simp only [Option.bind_eq_bind, Option.bind_some]
    split_ifs at h ⊢
    · exact h
    · obtain ⟨rest, hrest, h⟩ := Option.bind_eq_some_iff.1 h
      rw [ih hrest]
      exact h

open Relation

/-- From a cursor on only the next one is reached, and what is reached from there. -/
theorem reaches_cases {l₁ : Lexer source} (hscan : l.scanToken = some (t, l₁))
    (h : ReflTransGen (Scans source) l l') : l' = l ∨ ReflTransGen (Scans source) l₁ l' := by
  rcases h.cases_head with rfl | ⟨l₂, ⟨t', hscan'⟩, hrest⟩
  · exact .inl rfl
  · obtain rfl : l₁ = l₂ := congrArg Prod.snd (Option.some.inj (hscan.symm.trans hscan'))
    exact .inr hrest

theorem reaches_end (hscan : l.scanToken = some (t, l)) (h : ReflTransGen (Scans source) l l') : l' = l := by
  induction h with
  | refl => rfl
  | tail _ hstep ih =>
    subst ih
    obtain ⟨t', ht'⟩ := hstep
    exact congrArg Prod.snd (Option.some.inj (ht'.symm.trans hscan))

/-- The bytes are plain at every cursor of a call that returns one of C's tokens. -/
theorem nextToken_plain (hext : OutsideAscii extended) (hsource : source.length < 2 ^ 32) {fuel : ℕ}
    (h : l.nextToken fuel = some (t, l'))
    (hgood : t.kind = .punctuator ∨ t.kind = .numericConstant → IsLongest extended source t) :
    (∀ l₁, ReflTransGen (Scans source) l l₁ → Plain extended source l₁ ∨ ReflTransGen (Scans source) l' l₁) ∧
      (t.kind = .endOfFile → l'.scanToken = some (t, l') ∧ l'.rest = []) := by
  induction fuel generalizing l with
  | zero => cases h
  | succ fuel ih =>
    rw [nextToken] at h
    cases scanResult hext hsource l with
    | endOfFile hrest hscan =>
      rw [hscan] at h
      cases h
      exact ⟨fun l₁ hl₁ => .inr hl₁, fun _ => ⟨hscan, hrest⟩⟩
    | panics hscan =>
      rw [hscan] at h
      cases h
    | @token kind next c bs hscan hpasses hkind hspace hplain =>
      rw [hscan] at h
      by_cases hwhite : kind = .whiteSpace
      · subst hwhite
        have hnext : next.nextToken fuel = some (t, l') := h
        obtain ⟨hreach, hend⟩ := ih hnext
        have hhere : Plain extended source l := hplain.2 fun h => by rcases h with h | h <;> cases h
        refine ⟨fun l₁ hl₁ => ?_, hend⟩
        rcases reaches_cases hscan hl₁ with rfl | hl₁
        · exact .inl hhere
        · exact hreach l₁ hl₁
      · have hsame : some (next.token kind l.position) = some (t, l') := by
          rw [← h]
          exact (if_neg hwhite).symm
        cases hsame
        refine ⟨fun l₁ hl₁ => ?_, fun hend => absurd hend hkind⟩
        rcases reaches_cases hscan hl₁ with rfl | hl₁
        · exact .inl (hplain.2 hgood)
        · exact .inr hl₁

theorem tokens_plain (hext : OutsideAscii extended) {fuel : ℕ} (h : l.tokens fuel = some ts)
    (hgood : ∀ t ∈ ts, t.kind = .punctuator ∨ t.kind = .numericConstant → IsLongest extended source t) :
    ∀ l', ReflTransGen (Scans source) l l' → Plain extended source l' := by
  have hsource := length_lt_of_tokens h
  induction fuel generalizing l ts with
  | zero => cases h
  | succ fuel ih =>
    obtain ⟨⟨t, l₁⟩, hnext, h⟩ := Option.bind_eq_some_iff.1 h
    dsimp only at h
    split_ifs at h with hend
    · cases h
      obtain ⟨hreach, hlast⟩ := nextToken_plain hext hsource hnext (hgood t List.mem_cons_self)
      obtain ⟨hscan, hrest⟩ := hlast hend
      intro l' hl'
      rcases hreach l' hl' with hplain | hl'
      · exact hplain
      · exact plain_of_nil (reaches_end hscan hl' ▸ hrest)
    · obtain ⟨rest, hrest, h⟩ := Option.bind_eq_some_iff.1 h
      cases h
      obtain ⟨hreach, -⟩ := nextToken_plain hext hsource hnext (hgood t List.mem_cons_self)
      intro l' hl'
      rcases hreach l' hl' with hplain | hl'
      · exact hplain
      · exact ih hrest (fun t' ht' => hgood t' (List.mem_cons_of_mem t ht')) l' hl'

theorem SpaceBetween.trans {p q r : ℕ} (h : SpaceBetween source p q) (h' : SpaceBetween source q r) :
    SpaceBetween source p r := by
  refine ⟨Nat.le_trans h.1 h'.1, fun i hp hr => ?_⟩
  by_cases hq : i < q
  · exact h.2 i hp hq
  · exact h'.2 i (Nat.le_of_not_lt hq) hr

theorem SpaceBetween.refl (p : ℕ) : SpaceBetween source p p :=
  ⟨Nat.le_refl p, fun _ hp hr => absurd (Nat.lt_of_le_of_lt hp hr) (Nat.lt_irrefl p)⟩

theorem spaceBetween_of_passes {bs : List UInt8} (h : Passes l bs l') (hall : ∀ b ∈ bs, isSpace b = true) :
    SpaceBetween source l.position l'.position := by
  have hposition := h.position
  refine ⟨by omega, fun i hl hl' => ?_⟩
  have hlt : i - l.position < bs.length := by omega
  refine ⟨bs[i - l.position], ?_, hall _ (List.getElem_mem hlt)⟩
  have hget := getElem_rest l (i - l.position)
  rw [h.rest, List.getElem?_append_left hlt, Nat.add_sub_cancel' hl] at hget
  rw [← hget, List.getElem?_eq_getElem hlt]

theorem Tiles.gap {p q : ℕ} (hspace : SpaceBetween source p q) (h : Tiles source q ts) : Tiles source p ts := by
  cases h with
  | endOfFile hspace' => exact .endOfFile (hspace.trans hspace')
  | token hspace' hne hle hkind h => exact .token (hspace.trans hspace') hne hle hkind h

theorem Passes.le_length {bs : List UInt8} (h : Passes l bs l') (hle : l.position ≤ source.length) :
    l'.position ≤ source.length := by
  have hlength := congrArg List.length h.rest
  rw [rest_length, unread, List.length_append] at hlength
  rw [h.position]
  omega

/-- White space in front of a token. -/
theorem tokens_whiteSpace {fuel : ℕ} (hscan : l.scanToken = some (t, l')) (ht : t.kind = .whiteSpace)
    (h : l'.tokens fuel = some ts) : l.tokens (fuel + 1) = some ts := by
  cases fuel with
  | zero => cases h
  | succ fuel =>
    obtain ⟨⟨t₁, l₁⟩, hnext, h⟩ := Option.bind_eq_some_iff.1 h
    have hnext' : l.nextToken (fuel + 1) = some (t₁, l₁) := by
      rw [nextToken, hscan, ← hnext]
      exact if_pos ht
    rw [Lexer.tokens, hnext']
    simp only [Option.bind_eq_bind, Option.bind_some]
    dsimp only at h
    split_ifs at h ⊢
    · exact h
    · obtain ⟨rest, hrest, h⟩ := Option.bind_eq_some_iff.1 h
      rw [tokens_mono hrest]
      exact h

theorem tokens_token {fuel : ℕ} (hscan : l.scanToken = some (t, l'))
    (ht : t.kind ≠ .endOfFile ∧ t.kind ≠ .whiteSpace) (h : l'.tokens fuel = some ts) :
    l.tokens (fuel + 1) = some (t :: ts) := by
  cases fuel with
  | zero => cases h
  | succ fuel =>
    have hnext : l.nextToken (fuel + 1) = some (t, l') := by
      rw [nextToken, hscan]
      exact if_neg ht.2
    rw [Lexer.tokens, hnext]
    simp only [Option.bind_eq_bind, Option.bind_some, if_neg ht.1, h]
    rfl

/-- Where the bytes are plain at every cursor, the calls end with C's tokens. -/
theorem tokens_of_plain (hext : OutsideAscii extended) (hsource : source.length < 2 ^ 32) (l : Lexer source)
    (hle : l.position ≤ source.length)
    (h : ∀ l', ReflTransGen (Scans source) l l' → Plain extended source l') :
    ∃ fuel ts, l.tokens fuel = some ts ∧ Tiles source l.position ts ∧
      ∀ t ∈ ts, t.kind = .punctuator ∨ t.kind = .numericConstant → IsLongest extended source t := by
  induction hn : l.unread using Nat.strong_induction_on generalizing l with
  | _ n ih =>
    cases scanResult hext hsource l with
    | endOfFile hrest hscan =>
      have hend : l.position = source.length :=
        Nat.le_antisymm hle (List.drop_eq_nil_iff.1 hrest)
      refine ⟨2, [⟨.endOfFile, l.position, l.position, 0⟩], ?_, ?_, fun t ht hkind => ?_⟩
      · simp only [Lexer.tokens, nextToken, hscan]
        rfl
      · rw [hend]
        exact .endOfFile (.refl _)
      · rw [List.mem_singleton.1 ht] at hkind
        rcases hkind with hkind | hkind <;> cases hkind
    | panics _ hplain => exact absurd (h l .refl) hplain
    | @token kind next c bs hscan hpasses hkind hspace hplain =>
      have hunread := hpasses.unread
      rw [List.length_cons] at hunread
      obtain ⟨fuel, ts, htokens, htiles, hgood⟩ := ih next.unread (by omega) next
        (Passes.le_length hpasses hle) (fun l' hl' => h l' (.head ⟨_, hscan⟩ hl')) rfl
      by_cases hwhite : kind = .whiteSpace
      · subst hwhite
        refine ⟨fuel + 1, ts, tokens_whiteSpace hscan rfl htokens, ?_, hgood⟩
        exact htiles.gap (spaceBetween_of_passes hpasses (hspace rfl))
      · refine ⟨fuel + 1, _ :: ts, tokens_token hscan ⟨hkind, hwhite⟩ htokens, ?_, ?_⟩
        · refine .token (.refl _) ?_ (Passes.le_length hpasses hle) ⟨hkind, hwhite⟩ htiles
          change l.position < next.position
          rw [hpasses.position, List.length_cons]
          omega
        · exact List.forall_mem_cons.2 ⟨hplain.1 (h l .refl), hgood⟩

/-- The lexer does maximal munch where the bytes are plain at every cursor of the scan. -/
theorem munches_iff (extended : Char → Bool) (hext : OutsideAscii extended) (source : List UInt8) :
    Munches extended source ↔ source.length < 2 ^ 32 ∧
      ∀ l, ReflTransGen (Scans source) (Lexer.new source) l → Plain extended source l := by
  constructor
  · rintro ⟨fuel, ts, htokens, -, hgood⟩
    exact ⟨length_lt_of_tokens htokens, tokens_plain hext htokens hgood⟩
  · rintro ⟨hsource, hplain⟩
    exact tokens_of_plain hext hsource (Lexer.new source) (Nat.zero_le _) hplain

/-- The constant `7u`. -/
theorem munches_suffix : Munches (fun _ => false) [byteOf '7', byteOf 'u'] := by
  have hext : OutsideAscii fun _ => false := fun _ h => absurd h Bool.false_ne_true
  refine (munches_iff _ hext [byteOf '7', byteOf 'u']).2 ⟨by decide, fun l hl => ?_⟩
  have hscan : (Lexer.new [byteOf '7', byteOf 'u']).scanToken =
      some (⟨.numericConstant, 0, 2, 0⟩, ⟨2, by decide⟩) := by decide
  have hend : (⟨2, by decide⟩ : Lexer [byteOf '7', byteOf 'u']).scanToken =
      some (⟨.endOfFile, 2, 2, 0⟩, ⟨2, by decide⟩) := by decide
  rcases reaches_cases hscan hl with rfl | hl
  · have hnumber : PlainNumber (fun _ => false) [byteOf '7', byteOf 'u'] := by
      refine ⟨[byteOf '7', byteOf 'u'], [], rfl, .decimal (by decide) (fun h => absurd h (by decide))
        (.suffix (by decide)), ⟨⟨(fun _ h => nomatch h), fun e he => ?_⟩,
        (fun _ h => nomatch h), fun name hname h => ?_⟩⟩
      · cases he
        decide
      · obtain ⟨tail, rfl⟩ := hname.head
        exact absurd (List.prefix_nil.1 h) (List.cons_ne_nil _ _)
    refine ⟨fun _ _ _ _ => hnumber, fun c behind hrest hstart => ?_, fun h => absurd h (by decide)⟩
    obtain ⟨rfl, -⟩ := List.cons.inj hrest
    exact absurd hstart.digit (by decide)
  · rw [reaches_end hend hl]
    exact plain_of_nil rfl

/-- The operator `<<`, which is read as two tokens. -/
theorem not_munches_shift : ¬ Munches (fun _ => false) [byteOf '<', byteOf '<'] := by
  rintro ⟨fuel, ts, htokens, -, hgood⟩
  have hext : OutsideAscii fun _ => false := fun _ h => absurd h Bool.false_ne_true
  have hplain := tokens_plain hext htokens hgood _ .refl
  have hstart : StartsPunctuator (byteOf '<') [byteOf '<'] :=
    ⟨by decide, fun h => absurd h (by decide), by decide, by decide, by decide⟩
  exact absurd ((hplain.punctuator _ _ rfl hstart).2.shift (.inl rfl) rfl).1 (by decide)

end Runs

end OpticC.Lexing
