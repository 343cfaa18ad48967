import Mathlib.Data.List.TakeWhile
import OpticC.Frontend.Lexer

/-! How far the reading functions of the lexer move the cursor: over bytes of the source, and over
one at least. -/

namespace OpticC.Lexing.Lexer

variable {source : List UInt8} {l l' l'' : Lexer source} {bs cs : List UInt8} {c : UInt8}

/-- The bytes from the cursor on. -/
def rest (l : Lexer source) : List UInt8 := source.drop l.position

/-- From one cursor to another these bytes are passed. -/
structure Passes (l : Lexer source) (bs : List UInt8) (l' : Lexer source) : Prop where
  position : l'.position = l.position + bs.length
  rest : l.rest = bs ++ l'.rest

section Passes

theorem Passes.refl (l : Lexer source) : Passes l [] l := ⟨rfl, rfl⟩

theorem Passes.trans (h : Passes l bs l') (h' : Passes l' cs l'') : Passes l (bs ++ cs) l'' where
  position := by rw [h'.position, h.position, List.length_append, Nat.add_assoc]
  rest := by rw [h.rest, h'.rest, List.append_assoc]

theorem eq_of_position (h : l.position = l'.position) : l = l' := by
  cases l
  cases l'
  cases h
  rfl

theorem rest_length (l : Lexer source) : l.rest.length = l.unread := List.length_drop

theorem currentByte_eq (l : Lexer source) : l.currentByte = l.rest.head? := by
  rw [currentByte, rest, List.head?_drop]

theorem getElem_rest (l : Lexer source) (i : ℕ) : l.rest[i]? = source[l.position + i]? := List.getElem?_drop

/-- In a source that is not too long the cursor can pass any bytes. -/
theorem exists_passes (hsource : source.length < 2 ^ 32) (h : l.rest = bs ++ cs) :
    ∃ l', Passes l bs l' ∧ l'.rest = cs := by
  have hlt : l.position + bs.length < 2 ^ 32 := by
    have hlength := congrArg List.length h
    rw [rest, List.length_drop, List.length_append] at hlength
    have := l.position_lt
    omega
  have hrest : source.drop (l.position + bs.length) = cs := by
    rw [← List.drop_drop, show source.drop l.position = bs ++ cs from h, List.drop_left]
  exact ⟨⟨l.position + bs.length, hlt⟩, ⟨rfl, by rw [h]; exact congrArg (bs ++ ·) hrest.symm⟩, hrest⟩

theorem Passes.currentByte (h : Passes l (c :: bs) l') : l.currentByte = some c := by
  rw [currentByte_eq, h.rest]
  rfl

theorem Passes.advance (h : Passes l [c] l') : l.advance = some l' := by
  have hlt : l.position + 1 < 2 ^ 32 := by
    have hposition := h.position
    rw [List.length_singleton] at hposition
    exact hposition ▸ l'.position_lt
  rw [Lexer.advance, dif_pos hlt]
  exact congrArg some (eq_of_position h.position.symm)

theorem Passes.split (h : Passes l (bs ++ cs) l'') : ∃ l', Passes l bs l' ∧ Passes l' cs l'' := by
  have hposition := h.position
  rw [List.length_append] at hposition
  have hlt : l.position + bs.length < 2 ^ 32 := by
    have := l''.position_lt
    omega
  have hrest : source.drop (l.position + bs.length) = cs ++ l''.rest := by
    rw [← List.drop_drop, show source.drop l.position = _ from h.rest, List.append_assoc, List.drop_left]
  refine ⟨⟨l.position + bs.length, hlt⟩, ⟨rfl, ?_⟩, ⟨?_, hrest⟩⟩
  · rw [h.rest, List.append_assoc]
    exact congrArg (bs ++ ·) hrest.symm
  · rw [hposition, Nat.add_assoc]

/-- The first byte of those that are passed. -/
theorem Passes.uncons (h : Passes l (c :: bs) l'') : ∃ l', Passes l [c] l' ∧ Passes l' bs l'' :=
  (show Passes l ([c] ++ bs) l'' from h).split

theorem Passes.unread (h : Passes l bs l') : l.unread = bs.length + l'.unread := by
  rw [← rest_length, ← rest_length, h.rest, List.length_append]

theorem peekByte_of_lt {i : ℕ} (h : l.position + i < 2 ^ 32) : l.peekByte i = some l.rest[i]? := by
  rw [peekByte, if_pos h, getElem_rest]

theorem peekByte_eq (hsource : source.length < 2 ^ 32) {i : ℕ} (h : i ≤ l.rest.length) :
    l.peekByte i = some l.rest[i]? := by
  refine peekByte_of_lt ?_
  rw [rest, List.length_drop] at h
  have := l.position_lt
  omega

end Passes

section Loops

theorem advanceWhileFor_eq {p : UInt8 → Bool} {rounds : ℕ} (h : Passes l bs l')
    (hrounds : l.unread ≤ rounds) (hall : ∀ b ∈ bs, p b = true)
    (hstop : ∀ b, l'.currentByte = some b → p b = false) : advanceWhileFor p rounds l = some l' := by
  induction bs generalizing l rounds with
  | nil =>
    obtain rfl : l = l' := eq_of_position (by rw [h.position]; rfl)
    cases rounds with
    | zero => rfl
    | succ rounds =>
      rw [advanceWhileFor]
      cases hbyte : l.currentByte with
      | none => rfl
      | some b => simp only [hstop b hbyte, Bool.false_eq_true, if_false]
  | cons b bs ih =>
    obtain ⟨l₁, hfirst, hmore⟩ := h.uncons
    have hunread := hfirst.unread
    rw [List.length_singleton] at hunread
    cases rounds with
    | zero => omega
    | succ rounds =>
      rw [advanceWhileFor, h.currentByte]
      simp only [hall b List.mem_cons_self, if_true, hfirst.advance, Option.bind_some]
      exact ih hmore (by omega) fun b' hb' => hall b' (List.mem_cons_of_mem b hb')

theorem advanceWhile_eq {p : UInt8 → Bool} (h : Passes l bs l') (hall : ∀ b ∈ bs, p b = true)
    (hstop : ∀ b, l'.currentByte = some b → p b = false) : l.advanceWhile p = some l' :=
  advanceWhileFor_eq h (Nat.le_refl _) hall hstop

/-- A loop over a class passes all bytes of the class. -/
theorem exists_advanceWhile (hsource : source.length < 2 ^ 32) (p : UInt8 → Bool) (l : Lexer source) :
    ∃ l', l.advanceWhile p = some l' ∧ Passes l (l.rest.takeWhile p) l' ∧
      l'.rest = l.rest.dropWhile p := by
  obtain ⟨l', hpasses, hrest⟩ := exists_passes hsource (List.takeWhile_append_dropWhile (p := p)).symm
  refine ⟨l', advanceWhile_eq hpasses (fun b hb => List.mem_takeWhile_imp hb) fun b hb => ?_, hpasses, hrest⟩
  have hnot := List.head?_dropWhile_not p l.rest
  rw [currentByte_eq, hrest] at hb
  rw [hb] at hnot
  exact hnot

/-- Some bytes are passed, or none. -/
def Moves (l : Lexer source) (result : Option (Lexer source)) : Prop :=
  ∃ l' bs, result = some l' ∧ Passes l bs l'

theorem Moves.stay (l : Lexer source) : Moves l (some l) := ⟨l, [], rfl, .refl l⟩

theorem Moves.bind {f : Lexer source → Option (Lexer source)} {result : Option (Lexer source)}
    (h : Moves l result) (hf : ∀ l', Moves l' (f l')) : Moves l (result.bind f) := by
  obtain ⟨l', bs, rfl, hpasses⟩ := h
  obtain ⟨l'', cs, hresult, hmore⟩ := hf l'
  exact ⟨l'', bs ++ cs, hresult, hpasses.trans hmore⟩

theorem moves_advanceWhile (hsource : source.length < 2 ^ 32) (p : UInt8 → Bool) (l : Lexer source) :
    Moves l (l.advanceWhile p) := by
  obtain ⟨l', hread, hpasses, -⟩ := exists_advanceWhile hsource p l
  exact ⟨l', _, hread, hpasses⟩

theorem exists_advance (hsource : source.length < 2 ^ 32) (h : l.currentByte = some c) :
    ∃ l', l.advance = some l' ∧ Passes l [c] l' := by
  rw [currentByte_eq, List.head?_eq_some_iff] at h
  obtain ⟨behind, hbehind⟩ := h
  obtain ⟨l', hpasses, -⟩ := exists_passes hsource (show l.rest = [c] ++ behind from hbehind)
  exact ⟨l', hpasses.advance, hpasses⟩

theorem moves_advance (hsource : source.length < 2 ^ 32) (h : l.currentByte = some c) :
    Moves l l.advance := by
  obtain ⟨l', hread, hpasses⟩ := exists_advance hsource h
  exact ⟨l', _, hread, hpasses⟩

theorem exists_rest (h : l.currentByte = some c) : ∃ behind, l.rest = c :: behind :=
  List.head?_eq_some_iff.1 (by rw [← currentByte_eq, h])

theorem exists_advance_two (hsource : source.length < 2 ^ 32) {d : UInt8} (h : l.rest = c :: d :: cs) :
    ∃ l', l.advance.bind advance = some l' ∧ Passes l [c, d] l' := by
  obtain ⟨l'', hpasses, -⟩ := exists_passes hsource (show l.rest = [c, d] ++ cs from h)
  obtain ⟨l', hfirst, hsecond⟩ := hpasses.uncons
  exact ⟨l'', by rw [hfirst.advance, Option.bind_some, hsecond.advance], hpasses⟩

theorem moves_literalLoop (hsource : source.length < 2 ^ 32) (quote : UInt8) (rounds : ℕ)
    (l : Lexer source) : Moves l (literalLoop quote rounds l) := by
  induction rounds generalizing l with
  | zero => exact .stay l
  | succ rounds ih =>
    rw [literalLoop]
    cases hbyte : l.currentByte with
    | none => exact .stay l
    | some c =>
      dsimp only
      split_ifs
      · refine (moves_advance hsource hbyte).bind fun l' => ?_
        cases hbyte' : l'.currentByte with
        | none => exact ih l'
        | some c' => exact (moves_advance hsource hbyte').bind ih
      · exact moves_advance hsource hbyte
      · exact (moves_advance hsource hbyte).bind ih

theorem moves_blockLoop (hsource : source.length < 2 ^ 32) (rounds : ℕ) (l : Lexer source) :
    Moves l (blockLoop rounds l) := by
  induction rounds generalizing l with
  | zero => exact .stay l
  | succ rounds ih =>
    rw [blockLoop]
    cases hbyte : l.currentByte with
    | none => exact .stay l
    | some c =>
      have hmore := (moves_advance hsource hbyte).bind ih
      by_cases hstar : c = byteOf '*'
      · obtain ⟨behind, hbehind⟩ := exists_rest hbyte
        have hone : 1 ≤ l.rest.length := by rw [hbehind]; exact Nat.succ_pos _
        simp only [if_pos hstar, peekByte_eq hsource hone, Option.map_some, Option.bind_eq_bind,
          Option.bind_some]
        split_ifs with hslash
        · rw [beq_iff_eq, hbehind, List.getElem?_cons_succ] at hslash
          cases behind with
          | nil => cases hslash
          | cons d behind =>
            obtain ⟨l', hread, hpasses⟩ := exists_advance_two hsource hbehind
            exact ⟨l', _, hread, hpasses⟩
        · exact hmore
      · simp only [if_neg hstar, Option.bind_eq_bind, Option.bind_some, Bool.false_eq_true, if_false]
        exact hmore

end Loops

section Tokens

variable {kind : TokenKind} {result : Option (Token × Lexer source)}

/-- A token that begins at the cursor and has at least one byte. -/
def Consumes (l : Lexer source) (kind : TokenKind) (result : Option (Token × Lexer source)) : Prop :=
  ∃ l' c bs, result = some (l'.token kind l.position) ∧ Passes l (c :: bs) l'

/-- The first byte is passed, and then some more. -/
theorem Consumes.of_advance (hsource : source.length < 2 ^ 32) (hbyte : l.currentByte = some c)
    {f : Lexer source → Option (Lexer source)} (hf : ∀ l', Passes l [c] l' → Moves l' (f l')) :
    Consumes l kind (l.advance.bind fun l' => (f l').bind fun last => some (last.token kind l.position)) := by
  obtain ⟨l', hread, hpasses⟩ := exists_advance hsource hbyte
  obtain ⟨l'', bs, hresult, hmore⟩ := hf l' hpasses
  exact ⟨l'', c, bs, by rw [hread, Option.bind_some, hresult, Option.bind_some], hpasses.trans hmore⟩

/-- A token of all bytes of a class. -/
theorem consumes_advanceWhile (hsource : source.length < 2 ^ 32) {p : UInt8 → Bool}
    (hbyte : l.currentByte = some c) (hc : p c = true) :
    ∃ l' bs, (l.advanceWhile p).bind (fun last => some (last.token kind l.position)) =
        some (l'.token kind l.position) ∧ Passes l (c :: bs) l' ∧ ∀ b ∈ c :: bs, p b = true := by
  obtain ⟨l', hread, hpasses, -⟩ := exists_advanceWhile hsource p l
  obtain ⟨behind, hbehind⟩ := exists_rest hbyte
  have htake : l.rest.takeWhile p = c :: behind.takeWhile p := by
    rw [hbehind, List.takeWhile_cons_of_pos hc]
  refine ⟨l', behind.takeWhile p, by rw [hread, Option.bind_some], htake ▸ hpasses, fun b hb => ?_⟩
  exact List.mem_takeWhile_imp (htake ▸ hb)

theorem consumes_readIdentifier (hsource : source.length < 2 ^ 32) (hbyte : l.currentByte = some c)
    (hc : isAlnum c = true) : Consumes l .identifier l.readIdentifier := by
  obtain ⟨l', bs, hread, hpasses, -⟩ := consumes_advanceWhile hsource hbyte hc
  exact ⟨l', c, bs, hread, hpasses⟩

theorem consumes_readPreprocessor (hsource : source.length < 2 ^ 32)
    (hbyte : l.currentByte = some (byteOf '#')) : Consumes l .preprocessor l.readPreprocessor := by
  obtain ⟨l', bs, hread, hpasses, -⟩ := consumes_advanceWhile hsource hbyte (p := (· != byteOf '\n')) rfl
  exact ⟨l', _, bs, hread, hpasses⟩

theorem consumes_readStringLiteral (hsource : source.length < 2 ^ 32) (hbyte : l.currentByte = some c) :
    Consumes l .stringLiteral l.readStringLiteral :=
  Consumes.of_advance hsource hbyte fun l' _ => moves_literalLoop hsource _ _ l'

/-- Comments, from their first two bytes on. -/
theorem Consumes.of_two (hsource : source.length < 2 ^ 32) {d : UInt8} (h : l.rest = c :: d :: cs)
    {f : Lexer source → Option (Lexer source)} (hf : ∀ l', Moves l' (f l')) :
    Consumes l kind (l.advance.bind fun second => second.advance.bind fun first =>
      (f first).bind fun last => some (last.token kind l.position)) := by
  obtain ⟨first, hread, hpasses⟩ := exists_advance_two hsource h
  obtain ⟨l', bs, hresult, hmore⟩ := hf first
  refine ⟨l', c, d :: bs, ?_, hpasses.trans hmore⟩
  obtain ⟨second, hsecond, hfirst⟩ := Option.bind_eq_some_iff.1 hread
  rw [hsecond, Option.bind_some, hfirst, Option.bind_some, hresult, Option.bind_some]

theorem consumes_readLineComment (hsource : source.length < 2 ^ 32) {d : UInt8}
    (h : l.rest = c :: d :: cs) : Consumes l .comment l.readLineComment :=
  Consumes.of_two hsource h (moves_advanceWhile hsource _)

theorem consumes_readBlockComment (hsource : source.length < 2 ^ 32) {d : UInt8}
    (h : l.rest = c :: d :: cs) : Consumes l .comment l.readBlockComment :=
  Consumes.of_two hsource h fun first => moves_blockLoop hsource _ first

end Tokens

end OpticC.Lexing.Lexer
