import OpticC.Frontend.TokenTexts
import Mathlib.Data.List.TakeWhile

/-! The tokenizer against line splicing: it skips a continuation in front of a token, and the
loops of the tokens do not know continuations. -/

namespace OpticC.Preprocessor

/-- The text without its continuations. -/
def splice (text : List Char) : List Char :=
  match _h : skipSplice text with
  | some rest => splice rest
  | none =>
    match text with
    | [] => []
    | c :: rest => c :: splice rest
termination_by text.length
decreasing_by
  · exact length_skipSplice_lt _h
  · exact Nat.lt_succ_self _

section Splice

@[simp] theorem splice_nil : splice [] = [] := by
  rw [splice]
  rfl

theorem splice_skip {text rest : List Char} (h : skipSplice text = some rest) :
    splice text = splice rest := by
  rw [splice]
  split
  · rename_i hsplice
    obtain rfl := Option.some.inj (h.symm.trans hsplice)
    rfl
  · rename_i hnone
    rw [h] at hnone
    cases hnone

theorem splice_cons {c : Char} {rest : List Char} (h : skipSplice (c :: rest) = none) :
    splice (c :: rest) = c :: splice rest := by
  rw [splice]
  split
  · rename_i hsplice
    rw [h] at hsplice
    cases hsplice
  · rfl

theorem skipSplice_of_ne {c : Char} (hc : c ≠ '\\') (rest : List Char) :
    skipSplice (c :: rest) = none := by
  unfold skipSplice
  split
  · rename_i h
    exact absurd (List.cons.inj h).1 hc
  · rename_i h
    exact absurd (List.cons.inj h).1 hc
  · rfl

/-- What a continuation is. -/
theorem skipSplice_eq_some {text rest : List Char} :
    skipSplice text = some rest ↔ text = '\\' :: '\n' :: rest ∨ text = '\\' :: '\r' :: '\n' :: rest := by
  constructor
  · intro h
    unfold skipSplice at h
    split at h
    · cases h
      exact .inl rfl
    · cases h
      exact .inr rfl
    · cases h
  · rintro (rfl | rfl)
    · rfl
    · rfl

theorem length_splice_le (text : List Char) : (splice text).length ≤ text.length := by
  fun_induction splice text with
  | case1 text rest h ih => exact Nat.le_trans ih (Nat.le_of_lt (length_skipSplice_lt h))
  | case2 => exact Nat.le_refl _
  | case3 c rest h ih => exact Nat.succ_le_succ ih

/-- A continuation lies across the end of the first text. -/
def Straddles (text rest : List Char) : Prop :=
  ∃ back ahead : List Char, back <:+ text ∧ ahead <+: rest ∧
    (back = ['\\'] ∧ ahead = ['\n'] ∨ back = ['\\'] ∧ ahead = ['\r', '\n'] ∨
      back = ['\\', '\r'] ∧ ahead = ['\n'])

theorem Straddles.of_suffix {text text' rest : List Char} (h : Straddles text rest)
    (hsuffix : text <:+ text') : Straddles text' rest := by
  obtain ⟨back, ahead, hback, hahead, hpair⟩ := h
  exact ⟨back, ahead, hback.trans hsuffix, hahead, hpair⟩

theorem skipSplice_append {text rest : List Char} (hne : text ≠ []) (h : ¬ Straddles text rest)
    (hnone : skipSplice text = none) : skipSplice (text ++ rest) = none := by
  cases hskip : skipSplice (text ++ rest) with
  | none => rfl
  | some behind =>
    exfalso
    obtain ⟨c, tail, rfl⟩ := List.exists_cons_of_ne_nil hne
    rcases skipSplice_eq_some.1 hskip with heq | heq
    · obtain ⟨rfl, htail⟩ := List.cons.inj heq
      cases tail with
      | nil => exact h ⟨['\\'], ['\n'], List.suffix_refl _, ⟨behind, htail.symm⟩, .inl ⟨rfl, rfl⟩⟩
      | cons d tail =>
        obtain ⟨rfl, -⟩ := List.cons.inj htail
        cases hnone
    · obtain ⟨rfl, htail⟩ := List.cons.inj heq
      cases tail with
      | nil =>
        exact h ⟨['\\'], ['\r', '\n'], List.suffix_refl _, ⟨behind, htail.symm⟩,
          .inr (.inl ⟨rfl, rfl⟩)⟩
      | cons d tail =>
        obtain ⟨rfl, hlast⟩ := List.cons.inj htail
        cases tail with
        | nil =>
          exact h ⟨['\\', '\r'], ['\n'], List.suffix_refl _, ⟨behind, hlast.symm⟩,
            .inr (.inr ⟨rfl, rfl⟩)⟩
        | cons d tail =>
          obtain ⟨rfl, -⟩ := List.cons.inj hlast
          cases hnone

theorem splice_append {text rest : List Char} (h : ¬ Straddles text rest) :
    splice (text ++ rest) = splice text ++ splice rest := by
  fun_induction splice text with
  | case1 text text' hsplice ih =>
    have hsuffix : text' <:+ text := by
      rcases skipSplice_eq_some.1 hsplice with rfl | rfl
      · exact ⟨['\\', '\n'], rfl⟩
      · exact ⟨['\\', '\r', '\n'], rfl⟩
    have happend : skipSplice (text ++ rest) = some (text' ++ rest) := by
      rcases skipSplice_eq_some.1 hsplice with rfl | rfl
      · rfl
      · rfl
    rw [splice_skip happend]
    exact ih fun hs => h (hs.of_suffix hsuffix)
  | case2 => rfl
  | case3 c text' hsplice ih =>
    have happend := skipSplice_append (List.cons_ne_nil c text') h hsplice
    rw [List.cons_append] at happend ⊢
    rw [splice_cons happend, ih fun hs => h (hs.of_suffix (List.suffix_cons c text')),
      List.cons_append]

end Splice

section Stability

variable {classes : CharClasses}

/-- The text of a token goes on in what follows it. `tail` is the text behind its first
character. -/
def GoesOn (classes : CharClasses) (c : Char) (tail next : List Char) : Prop :=
  if isBlank c then next.head?.any isBlank = true
  else if c.isDigit then next.head?.any (isNumberChar classes) = true
  else if isLetter c then next.head?.any (isIdentifierChar classes) = true
  else if c = '#' then tail = [] ∧ next.head? = some '#'
  else if c = '\n' ∨ c = '"' ∨ c = '\'' ∨ startsComment c tail then False
  else (skipSplice (c :: (tail ++ next))).isSome = true ∨ startsComment c (tail ++ next) ∨
    punctuatorAt c (tail ++ next) ≠ c :: tail

theorem takeWhile_append_stop {p : Char → Bool} (text next : List Char) :
    ((text.takeWhile p ++ next).takeWhile p = text.takeWhile p ∧
      (text.takeWhile p ++ next).dropWhile p = next) ↔ ¬ next.head?.any p = true := by
  have hall : ∀ c ∈ text.takeWhile p, p c = true := fun c hc => List.mem_takeWhile_imp hc
  rw [List.takeWhile_append_of_pos hall, List.dropWhile_append_of_pos hall]
  cases next with
  | nil => simp
  | cons c next => cases hc : p c <;> simp [hc]

theorem scanQuoted_append (quote : Char) (text next : List Char)
    (hend : (scanQuoted quote text).2 = [] → next = []) :
    scanQuoted quote ((scanQuoted quote text).1 ++ next) = ((scanQuoted quote text).1, next) := by
  fun_induction scanQuoted quote text with
  | case1 =>
    rw [hend rfl]
    rfl
  | case2 rest => exact scanQuoted_close quote next
  | case3 hne =>
    rw [hend rfl]
    simp [scanQuoted, hne]
  | case4 escaped rest hne ih =>
    simp only [List.cons_append]
    rw [scanQuoted_escape hne, ih hend]
  | case5 c rest hne hesc ih =>
    simp only [List.cons_append]
    rw [scanQuoted_other hne hesc, ih hend]

theorem scanLineComment_append (text next : List Char)
    (hend : (scanLineComment text).2 = [] → next = []) :
    scanLineComment ((scanLineComment text).1 ++ next) = ((scanLineComment text).1, next) := by
  fun_induction scanLineComment text with
  | case1 =>
    rw [hend rfl]
    rfl
  | case2 rest => rfl
  | case3 c rest hne ih =>
    simp only [List.cons_append]
    rw [scanLineComment, if_neg hne]
    simp only [ih hend]

theorem scanBlockComment_append (text next : List Char) (line col : ℕ)
    (hend : (scanBlockComment text line col).2.1 = [] → next = []) :
    (scanBlockComment ((scanBlockComment text line col).1 ++ next) line col).1 =
        (scanBlockComment text line col).1 ∧
      (scanBlockComment ((scanBlockComment text line col).1 ++ next) line col).2.1 = next := by
  induction text generalizing line col with
  | nil =>
    rw [hend rfl]
    exact ⟨rfl, rfl⟩
  | cons c rest ih =>
    by_cases hclose : c = '*' ∧ rest.head? = some '/'
    · simp only [scanBlockComment, if_pos hclose, List.cons_append, List.nil_append]
      simp
    · -- the comment does not end here in the other text either
      have hopen : ∀ line col, ((scanBlockComment rest line col).2.1 = [] → next = []) →
          ¬ (c = '*' ∧ ((scanBlockComment rest line col).1 ++ next).head? = some '/') := by
        rintro line col hend' ⟨hc, hhead⟩
        have hconcat := scanBlockComment_concat rest line col
        cases htaken : (scanBlockComment rest line col).1 with
        | nil =>
          have hrest : rest = [] := by
            cases rest with
            | nil => rfl
            | cons d rest =>
              unfold scanBlockComment at htaken
              split_ifs at htaken
          subst hrest
          rw [htaken, hend' rfl] at hhead
          cases hhead
        | cons d taken =>
          rw [htaken] at hconcat hhead
          apply hclose
          rw [← hconcat]
          exact ⟨hc, hhead⟩
      by_cases hnl : c = '\n'
      · simp only [scanBlockComment, if_neg hclose, if_pos hnl, List.cons_append] at hend ⊢
        rw [if_neg (hopen _ _ hend)]
        exact ⟨congrArg (List.cons c) (ih _ _ hend).1, (ih _ _ hend).2⟩
      · simp only [scanBlockComment, if_neg hclose, if_neg hnl, List.cons_append] at hend ⊢
        rw [if_neg (hopen _ _ hend)]
        exact ⟨congrArg (List.cons c) (ih _ _ hend).1, (ih _ _ hend).2⟩

section GoesOn

variable {c : Char} {tail next : List Char}

theorem goesOn_blank (h : isBlank c = true) :
    GoesOn classes c tail next ↔ next.head?.any isBlank = true := by
  rw [GoesOn, if_pos h]

theorem goesOn_digit (h : c.isDigit = true) :
    GoesOn classes c tail next ↔ next.head?.any (isNumberChar classes) = true := by
  have hne : ∀ d : Char, d.isDigit = false → c ≠ d := fun d hd => ne_of_class h hd
  have hblank := isBlank_eq_false (hne ' ' rfl) (hne '\t' rfl) (hne '\r' rfl)
  rw [GoesOn, if_neg (by rw [hblank]; decide), if_pos h]

theorem goesOn_letter (h : isLetter c = true) :
    GoesOn classes c tail next ↔ next.head?.any (isIdentifierChar classes) = true := by
  have hne : ∀ d : Char, isLetter d = false → c ≠ d := fun d hd => ne_of_class h hd
  have hblank := isBlank_eq_false (hne ' ' rfl) (hne '\t' rfl) (hne '\r' rfl)
  rw [GoesOn, if_neg (by rw [hblank]; decide), if_neg (by rw [isDigit_of_isLetter h]; decide),
    if_pos h]

theorem goesOn_hash : GoesOn classes '#' tail next ↔ tail = [] ∧ next.head? = some '#' := by
  rw [GoesOn, if_neg (by decide), if_neg (by decide), if_neg (by decide), if_pos rfl]

/-- Newlines, literals and comments end by themselves. -/
theorem not_goesOn (h : c = '\n' ∨ c = '"' ∨ c = '\'' ∨ startsComment c tail) :
    ¬ GoesOn classes c tail next := by
  have hclass : isBlank c = false ∧ c.isDigit = false ∧ isLetter c = false ∧ c ≠ '#' := by
    rcases h with rfl | rfl | rfl | ⟨rfl, -⟩ <;> decide
  obtain ⟨hblank, hdigit, hletter, hhash⟩ := hclass
  simp [GoesOn, hblank, hdigit, hletter, hhash, h]

theorem goesOn_other (h : Other c) (hcomment : ¬ startsComment c tail) :
    GoesOn classes c tail next ↔ (skipSplice (c :: (tail ++ next))).isSome = true ∨
      startsComment c (tail ++ next) ∨ punctuatorAt c (tail ++ next) ≠ c :: tail := by
  have hletter : isLetter c = false := by simp [isLetter, h.letter]
  have hnot : ¬ (c = '\n' ∨ c = '"' ∨ c = '\'' ∨ startsComment c tail) := by
    simp [h.newline, h.quote, hcomment]
  simp only [GoesOn, h.blank, h.digit, hletter, if_neg h.hash, if_neg hnot, Bool.false_eq_true,
    if_false]

end GoesOn

theorem startsComment.of_prefix {c : Char} {text text' : List Char} (h : startsComment c text)
    (hfront : text <+: text') : startsComment c text' := by
  obtain ⟨more, rfl⟩ := hfront
  obtain ⟨hc, hhead⟩ := h
  cases text with
  | nil => rcases hhead with hhead | hhead <;> cases hhead
  | cons d text => exact ⟨hc, hhead⟩

theorem Arm.punctuator_inv {c : Char} {rest after : List Char} {lexeme : Lexeme}
    (h : Arm classes c rest lexeme after) (hkind : lexeme.1 = .punctuator) :
    ¬ startsComment c rest ∧ lexeme.2 = punctuatorAt c rest := by
  cases h with
  | punctuator _ h hcomment => exact ⟨hcomment, rfl⟩
  | quoted _ h => rcases h with rfl | rfl <;> cases hkind
  | _ => cases hkind

/-- A token that is a first character and all that follows of a class. -/
theorem ends_word_iff {c : Char} {kind : PpTokenKind} {p : Char → Bool} (text next : List Char)
    (harm : ∀ rest, Arm classes c rest (kind, c :: rest.takeWhile p) (rest.dropWhile p))
    (hc : c ≠ '\\') :
    (skipSplice (c :: (text.takeWhile p ++ next)) = none ∧
      readToken classes c (text.takeWhile p ++ next) = ((kind, c :: text.takeWhile p), next)) ↔
      ¬ next.head?.any p = true := by
  rw [readToken_of_arm classes (harm _), ← takeWhile_append_stop text next]
  simp [skipSplice_of_ne hc]

/-- A token that ends by itself. -/
theorem ends_of_arm {c : Char} {tail next : List Char} {lexeme : Lexeme}
    (harm : Arm classes c (tail ++ next) lexeme next) (hc : c ≠ '\\')
    (hnot : ¬ GoesOn classes c tail next) :
    (skipSplice (c :: (tail ++ next)) = none ∧ readToken classes c (tail ++ next) = (lexeme, next)) ↔
      ¬ GoesOn classes c tail next :=
  ⟨fun _ => hnot, fun _ => ⟨skipSplice_of_ne hc _, readToken_of_arm classes harm⟩⟩

/-- A token ends at the same place in front of another text just when it does not go on there. -/
theorem ends_iff {c : Char} {rest after tail : List Char} {lexeme : Lexeme} (next : List Char)
    (h : Arm classes c rest lexeme after) (htext : lexeme.2 = c :: tail)
    (hend : after = [] → next = []) :
    (skipSplice (c :: (tail ++ next)) = none ∧ readToken classes c (tail ++ next) = (lexeme, next)) ↔
      ¬ GoesOn classes c tail next := by
  cases h with
  | newline =>
    obtain rfl := (List.cons.inj htext).2
    exact ends_of_arm (.newline next) (by decide) (not_goesOn (.inl rfl))
  | blank _ h =>
    obtain rfl := (List.cons.inj htext).2
    have hc : c ≠ '\\' := ne_of_class h rfl
    rw [goesOn_blank h]
    exact ends_word_iff rest next (fun rest => .blank rest h) hc
  | quoted _ h =>
    obtain rfl := (List.cons.inj htext).2
    have harm : Arm classes c ((scanQuoted c rest).1 ++ next)
        (quotedKind c, c :: (scanQuoted c rest).1) next := by
      have hread : Arm classes c _ _ _ := .quoted ((scanQuoted c rest).1 ++ next) h
      rwa [scanQuoted_append c rest next hend] at hread
    refine ends_of_arm harm ?_ (not_goesOn ?_)
    · rcases h with rfl | rfl <;> decide
    · rcases h with rfl | rfl <;> simp
  | lineComment rest =>
    obtain rfl := (List.cons.inj htext).2
    have htaken : scanLineComment ('/' :: rest) =
        ('/' :: (scanLineComment rest).1, (scanLineComment rest).2) := by
      rw [scanLineComment, if_neg (by decide)]
    have hscan := scanLineComment_append ('/' :: rest) next hend
    rw [htaken] at hscan ⊢
    have harm : Arm classes '/' _ _ _ := .lineComment ((scanLineComment rest).1 ++ next)
    rw [List.cons_append] at hscan
    rw [hscan] at harm
    exact ends_of_arm harm (by decide) (not_goesOn (.inr (.inr (.inr ⟨rfl, .inl rfl⟩))))
  | blockComment rest =>
    obtain rfl := (List.cons.inj htext).2
    obtain ⟨hscan, hnext⟩ := scanBlockComment_append rest next 1 3 hend
    have harm : Arm classes '/' _ _ _ := .blockComment ((scanBlockComment rest 1 3).1 ++ next)
    rw [hscan, hnext] at harm
    exact ends_of_arm harm (by decide) (not_goesOn (.inr (.inr (.inr ⟨rfl, .inr rfl⟩))))
  | number _ h =>
    obtain rfl := (List.cons.inj htext).2
    have hc : c ≠ '\\' := ne_of_class h rfl
    rw [goesOn_digit h]
    exact ends_word_iff rest next (fun rest => .number rest h) hc
  | identifier _ h =>
    obtain rfl := (List.cons.inj htext).2
    have hc : c ≠ '\\' := ne_of_class (isLetter_iff.2 h) rfl
    rw [goesOn_letter (isLetter_iff.2 h)]
    exact ends_word_iff rest next (fun rest => .identifier rest h) hc
  | hashHash rest =>
    obtain rfl := (List.cons.inj htext).2
    refine ends_of_arm (.hashHash next) (by decide) ?_
    rw [goesOn_hash]
    rintro ⟨hnil, -⟩
    cases hnil
  | hash _ h =>
    obtain rfl := (List.cons.inj htext).2
    rw [goesOn_hash]
    constructor
    · rintro ⟨-, hread⟩ ⟨-, hhead⟩
      obtain ⟨more, rfl⟩ := List.head?_eq_some_iff.1 hhead
      rw [List.nil_append, readToken_of_arm classes (.hashHash more)] at hread
      cases hread
    · intro hnot
      exact ⟨skipSplice_of_ne (by decide) _,
        readToken_of_arm classes (.hash next fun hhead => hnot ⟨rfl, hhead⟩)⟩
  | punctuator _ h hcomment =>
    have hfront : tail <+: rest := by
      obtain ⟨tail', htail', hfront⟩ := punctuatorAt_prefix c rest
      obtain rfl := (List.cons.inj (htail'.symm.trans htext)).2
      exact hfront
    rw [goesOn_other h (hcomment ∘ fun hstart => hstart.of_prefix hfront)]
    constructor
    · rintro ⟨hnone, hread⟩ hgoes
      have harm := arm_readToken classes c (tail ++ next)
      rw [hread] at harm
      obtain ⟨hstart, heq⟩ := harm.punctuator_inv rfl
      rcases hgoes with hsome | hstart' | hne
      · rw [hnone] at hsome
        cases hsome
      · exact hstart hstart'
      · exact hne (heq.symm.trans htext)
    · intro hnot
      rw [not_or, not_or, not_not, Option.not_isSome_iff_eq_none] at hnot
      obtain ⟨hnone, hstart, heq⟩ := hnot
      have harm : Arm classes c _ _ _ := .punctuator (tail ++ next) h hstart
      rw [heq] at harm
      refine ⟨hnone, (readToken_of_arm classes harm).trans ?_⟩
      have hsame : punctuatorAt c rest = c :: tail := htext
      simp [hsame]

end Stability

section Tokens

variable {classes : CharClasses}

/-! No continuation lies across the end of a token: a backslash ends a token only where it is
the whole token, and then it does not begin a continuation, or where the file ends. -/

theorem not_straddles_of_not_mem {text : List Char} (h : '\\' ∉ text) (rest : List Char) :
    ¬ Straddles text rest := by
  rintro ⟨back, ahead, hback, -, ⟨rfl, -⟩ | ⟨rfl, -⟩ | ⟨rfl, -⟩⟩ <;>
    exact h (hback.subset (List.mem_cons_self ..))

theorem not_straddles_nil (text : List Char) : ¬ Straddles text [] := by
  rintro ⟨back, ahead, -, hahead, hpair⟩
  obtain rfl := List.prefix_nil.1 hahead
  rcases hpair with ⟨-, h⟩ | ⟨-, h⟩ | ⟨-, h⟩ <;> cases h

theorem not_straddles_of_last {text : List Char} (last : Char) (h : text.getLast? = some last)
    (hesc : last ≠ '\\') (hreturn : last ≠ '\r') (rest : List Char) : ¬ Straddles text rest := by
  rintro ⟨back, ahead, ⟨front, rfl⟩, -, ⟨rfl, -⟩ | ⟨rfl, -⟩ | ⟨rfl, -⟩⟩
  · exact hesc (by simpa using h.symm)
  · exact hesc (by simpa using h.symm)
  · exact hreturn (by simpa using h.symm)

theorem not_mem_takeWhile {p : Char → Bool} {c : Char} (h : p c = false) (text : List Char) :
    c ∉ text.takeWhile p :=
  fun hmem => absurd (List.mem_takeWhile_imp hmem) (by rw [h]; decide)

theorem last_scanQuoted (quote : Char) (text : List Char) (h : (scanQuoted quote text).2 ≠ []) :
    (scanQuoted quote text).1.getLast? = some quote := by
  fun_induction scanQuoted quote text with
  | case1 => exact absurd rfl h
  | case2 => rfl
  | case3 => exact absurd rfl h
  | case4 escaped rest _ ih => simp [List.getLast?_cons, ih h]
  | case5 c rest _ _ ih => simp [List.getLast?_cons, ih h]

theorem last_scanLineComment (text : List Char) (h : (scanLineComment text).2 ≠ []) :
    (scanLineComment text).1.getLast? = some '\n' := by
  fun_induction scanLineComment text with
  | case1 => exact absurd rfl h
  | case2 => rfl
  | case3 c rest _ ih => simp [List.getLast?_cons, ih h]

theorem last_scanBlockComment (text : List Char) (line col : ℕ)
    (h : (scanBlockComment text line col).2.1 ≠ []) :
    (scanBlockComment text line col).1.getLast? = some '/' := by
  induction text generalizing line col with
  | nil => exact absurd rfl h
  | cons c rest ih =>
    unfold scanBlockComment at h ⊢
    split_ifs at h ⊢ with hclose hnl
    · rfl
    · simp [List.getLast?_cons, ih _ _ h]
    · simp [List.getLast?_cons, ih _ _ h]

theorem isTwoCharPunctuator_not_mem {text : List Char} (h : isTwoCharPunctuator text = true) :
    '\\' ∉ text := by
  obtain ⟨p, hp, heq⟩ := List.any_eq_true.1 h
  rw [beq_iff_eq] at heq
  subst heq
  revert p
  decide

theorem not_straddles_punctuator {c : Char} {rest : List Char} (h : skipSplice (c :: rest) = none) :
    ¬ Straddles (punctuatorAt c rest) ((c :: rest).drop (punctuatorAt c rest).length) := by
  have hsingle : ∀ rest, skipSplice (c :: rest) = none → ¬ Straddles [c] rest := by
    rintro rest hnone ⟨back, ahead, hback, ⟨more, rfl⟩, hpair⟩
    rcases hpair with ⟨rfl, rfl⟩ | ⟨rfl, rfl⟩ | ⟨rfl, -⟩
    · obtain rfl : '\\' = c := by simpa using hback.subset (List.mem_cons_self ..)
      cases hnone
    · obtain rfl : '\\' = c := by simpa using hback.subset (List.mem_cons_self ..)
      cases hnone
    · exact absurd hback.length_le (by simp)
  unfold punctuatorAt
  split_ifs with hdots
  · exact not_straddles_of_not_mem (by decide) _
  · cases rest with
    | nil => exact hsingle [] h
    | cons next more =>
      simp only
      split_ifs with hshift heq htwo
      · refine not_straddles_of_not_mem ?_ _
        rcases hshift with hshift | hshift <;> cases hshift <;> decide
      · refine not_straddles_of_not_mem ?_ _
        rcases hshift with hshift | hshift <;> cases hshift <;> decide
      · exact not_straddles_of_not_mem (isTwoCharPunctuator_not_mem htwo) _
      · exact hsingle _ h

theorem not_alphanumeric (hascii : classes.OnAscii) : classes.isAlphanumeric '\\' = false := by
  rw [hascii '\\' (by decide)]
  decide

theorem not_straddles {c : Char} {rest after : List Char} {lexeme : Lexeme}
    (hascii : classes.OnAscii) (h : Arm classes c rest lexeme after)
    (hnone : skipSplice (c :: rest) = none) : ¬ Straddles lexeme.2 after := by
  have hclass := not_alphanumeric hascii
  by_cases hafter : after = []
  · subst hafter
    exact not_straddles_nil _
  have hword : ∀ {p : Char → Bool}, c ≠ '\\' → p '\\' = false →
      ¬ Straddles (c :: rest.takeWhile p) after := by
    intro p hc hp
    refine not_straddles_of_not_mem ?_ _
    rw [List.mem_cons, not_or]
    exact ⟨hc.symm, not_mem_takeWhile hp rest⟩
  cases h with
  | newline => exact not_straddles_of_not_mem (by decide) _
  | blank _ h => exact hword (ne_of_class h rfl) rfl
  | quoted _ h =>
    have hlast := last_scanQuoted c rest hafter
    refine not_straddles_of_last c (by simp [List.getLast?_cons, hlast]) ?_ ?_ _
    · rcases h with rfl | rfl <;> decide
    · rcases h with rfl | rfl <;> decide
  | lineComment rest =>
    have hlast := last_scanLineComment ('/' :: rest) hafter
    exact not_straddles_of_last '\n' (by simp [List.getLast?_cons, hlast]) (by decide)
      (by decide) _
  | blockComment rest =>
    have hlast := last_scanBlockComment rest 1 3 hafter
    exact not_straddles_of_last '/' (by simp [List.getLast?_cons, hlast]) (by decide)
      (by decide) _
  | number _ h => exact hword (ne_of_class h rfl) (by simp [isNumberChar, hclass])
  | identifier _ h =>
    exact hword (ne_of_class (isLetter_iff.2 h) rfl) (by simp [isIdentifierChar, hclass])
  | hashHash rest => exact not_straddles_of_not_mem (by decide) _
  | hash _ h => exact not_straddles_of_not_mem (by decide) _
  | punctuator _ h hcomment => exact not_straddles_punctuator hnone

theorem splice_token {c : Char} {rest after : List Char} {lexeme : Lexeme}
    (hascii : classes.OnAscii) (h : Arm classes c rest lexeme after)
    (hnone : skipSplice (c :: rest) = none) :
    splice (c :: rest) = splice lexeme.2 ++ splice after := by
  rw [← h.concat]
  exact splice_append (not_straddles hascii h hnone)

end Tokens

section Lengths

variable {classes : CharClasses}

theorem splice_eq_of_length {text : List Char} (h : (splice text).length = text.length) :
    splice text = text := by
  fun_induction splice text with
  | case1 text rest hsplice ih =>
    have hle := length_splice_le rest
    have hlt := length_skipSplice_lt hsplice
    omega
  | case2 => rfl
  | case3 c rest hsplice ih => rw [ih (Nat.succ.inj h)]

def textLength (lexemes : List Lexeme) : ℕ := (lexemes.map fun lexeme => lexeme.2.length).sum

@[simp] theorem textLength_nil : textLength [] = 0 := rfl

@[simp] theorem textLength_cons (lexeme : Lexeme) (lexemes : List Lexeme) :
    textLength (lexeme :: lexemes) = lexeme.2.length + textLength lexemes := rfl

/-- A text is read from its end backwards: behind a continuation, or behind a token. -/
theorem text_induction (classes : CharClasses) {motive : List Char → Prop} (nil : motive [])
    (skip : ∀ text rest, skipSplice text = some rest → motive rest → motive text)
    (token : ∀ c rest lexeme after, skipSplice (c :: rest) = none →
      readToken classes c rest = (lexeme, after) → Arm classes c rest lexeme after →
      motive after → motive (c :: rest)) (text : List Char) : motive text := by
  induction hlen : text.length using Nat.strong_induction_on generalizing text with
  | _ n ih =>
    cases hsplice : skipSplice text with
    | some rest =>
      exact skip text rest hsplice (ih rest.length (hlen ▸ length_skipSplice_lt hsplice) rest rfl)
    | none =>
      cases text with
      | nil => exact nil
      | cons c rest =>
        have hlt : (readToken classes c rest).2.length < n :=
          hlen ▸ Nat.lt_succ_of_le (length_lexToken_le classes c rest 1 1)
        exact token c rest _ _ hsplice rfl (arm_readToken classes c rest) (ih _ hlt _ rfl)

theorem Arm.length {c : Char} {rest after : List Char} {lexeme : Lexeme}
    (h : Arm classes c rest lexeme after) : lexeme.2.length + after.length = rest.length + 1 := by
  rw [← List.length_append, h.concat, List.length_cons]

theorem textLength_readTokens_le (classes : CharClasses) (text : List Char) :
    textLength (readTokens classes text) ≤ text.length := by
  induction text using text_induction classes with
  | nil => simp
  | skip text rest hsplice ih =>
    rw [readTokens_skip classes hsplice]
    exact Nat.le_trans ih (Nat.le_of_lt (length_skipSplice_lt hsplice))
  | token c rest lexeme after hnone hread harm ih =>
    have hlength := harm.length
    rw [readTokens_cons classes hnone, hread, textLength_cons, List.length_cons]
    dsimp only
    omega

theorem length_splice_le_textLength (hascii : classes.OnAscii) (text : List Char) :
    (splice text).length ≤ textLength (readTokens classes text) := by
  induction text using text_induction classes with
  | nil => simp
  | skip text rest hsplice ih =>
    rw [readTokens_skip classes hsplice, splice_skip hsplice]
    exact ih
  | token c rest lexeme after hnone hread harm ih =>
    have hle := length_splice_le lexeme.2
    rw [readTokens_cons classes hnone, hread, textLength_cons, splice_token hascii harm hnone,
      List.length_append]
    dsimp only
    omega

end Lengths

/-- No continuation stands inside a token, and what stands behind the continuations that
follow a token does not go on with its text. -/
inductive Unbroken (classes : CharClasses) : List Char → Prop
  | nil : Unbroken classes []
  | skip {text rest} (hsplice : skipSplice text = some rest) (hrest : Unbroken classes rest) :
    Unbroken classes text
  | token {c rest kind tail after} (hnone : skipSplice (c :: rest) = none)
    (harm : Arm classes c rest (kind, c :: tail) after) (hwhole : splice (c :: tail) = c :: tail)
    (hends : ¬ GoesOn classes c tail (splice after)) (hafter : Unbroken classes after) :
    Unbroken classes (c :: rest)

section Main

variable {classes : CharClasses}

theorem readTokens_splice_of_unbroken (hascii : classes.OnAscii) {text : List Char}
    (h : Unbroken classes text) : readTokens classes (splice text) = readTokens classes text := by
  induction h with
  | nil => rw [splice_nil]
  | skip hsplice _ ih => rw [splice_skip hsplice, ih, readTokens_skip classes hsplice]
  | @token c rest kind tail after hnone harm hwhole hends _ ih =>
    obtain ⟨hsplice, hread⟩ :=
      (ends_iff (splice after) harm rfl (fun h => by rw [h, splice_nil])).2 hends
    rw [splice_token hascii harm hnone]
    simp only [hwhole, List.cons_append]
    rw [readTokens_cons classes hsplice, hread, readTokens_cons classes hnone,
      readToken_of_arm classes harm, ih]

/-- What the lengths force: every text of a token survives, and no continuation is left in
front of the next one. -/
theorem unbroken_of_readTokens_splice (hascii : classes.OnAscii) (text : List Char)
    (h : readTokens classes (splice text) = readTokens classes text) : Unbroken classes text := by
  induction text using text_induction classes with
  | nil => exact .nil
  | skip text rest hsplice ih =>
    rw [splice_skip hsplice, readTokens_skip classes hsplice] at h
    exact .skip hsplice (ih h)
  | token c rest lexeme after hnone hread harm ih =>
    obtain ⟨tail, htail⟩ := harm.text_eq
    obtain ⟨kind, t⟩ := lexeme
    subst htail
    have hpieces := splice_token hascii harm hnone
    have hspliced := textLength_readTokens_le classes (splice (c :: rest))
    have hbehind := length_splice_le_textLength hascii after
    rw [readTokens_cons classes hnone, hread] at h
    -- nothing is removed inside the token
    have hwhole : splice (c :: tail) = c :: tail := by
      apply splice_eq_of_length
      have hle := length_splice_le (c :: tail)
      have hlength : (splice (c :: rest)).length = (splice (c :: tail)).length + (splice after).length := by
        rw [hpieces, List.length_append]
      rw [h, textLength_cons] at hspliced
      simp only at hspliced
      omega
    rw [hpieces] at h
    simp only [hwhole, List.cons_append] at h
    have hsplice : skipSplice (c :: (tail ++ splice after)) = none := by
      cases hskip : skipSplice (c :: (tail ++ splice after)) with
      | none => rfl
      | some more =>
        exfalso
        have hlt := length_skipSplice_lt hskip
        have hle := textLength_readTokens_le classes more
        rw [readTokens_skip classes hskip] at h
        rw [h, textLength_cons] at hle
        simp only [List.length_cons, List.length_append] at hle hlt
        omega
    rw [readTokens_cons classes hsplice] at h
    obtain ⟨hlexeme, hrest⟩ := List.cons.inj h
    have hafter : (readToken classes c (tail ++ splice after)).2 = splice after := by
      have hconcat := (arm_readToken classes c (tail ++ splice after)).concat
      rw [hlexeme, ← List.cons_append] at hconcat
      exact List.append_cancel_left hconcat
    rw [hafter] at hrest
    have hends := (ends_iff (splice after) harm rfl (fun h => by rw [h, splice_nil])).1
      ⟨hsplice, Prod.ext hlexeme hafter⟩
    exact .token hnone harm hwhole hends (ih hrest)

/-- The tokens of a text are those of the spliced text just when no continuation breaks one. -/
theorem tokenizePpSource_splice_iff (hascii : classes.OnAscii) (text : List Char) (line col : ℕ) :
    (tokenizePpSource classes (splice text) line col).map PpToken.lexeme =
        (tokenizePpSource classes text line col).map PpToken.lexeme ↔
      Unbroken classes text := by
  rw [map_lexeme_tokenize, map_lexeme_tokenize]
  exact ⟨unbroken_of_readTokens_splice hascii text, readTokens_splice_of_unbroken hascii⟩

/-- A continuation between two tokens that do not go on in one another. -/
theorem splice_betweenTokens :
    (tokenizePpSource ⟨Char.isAlpha, Char.isDigit⟩ (splice ['x', '\\', '\n', '+']) 1 1).map
        PpToken.lexeme =
      (tokenizePpSource ⟨Char.isAlpha, Char.isDigit⟩ ['x', '\\', '\n', '+'] 1 1).map
        PpToken.lexeme := by
  refine (tokenizePpSource_splice_iff (fun _ _ => rfl) _ 1 1).2 ?_
  have hplus : Arm ⟨Char.isAlpha, Char.isDigit⟩ '+' [] (.punctuator, ['+']) [] :=
    .punctuator [] ⟨by decide, rfl, by decide, rfl, by decide, by decide⟩ (by decide)
  have hx : Arm ⟨Char.isAlpha, Char.isDigit⟩ 'x' ['\\', '\n', '+'] (.identifier, ['x'])
      ['\\', '\n', '+'] :=
    .identifier _ (.inl rfl)
  have hspliced : splice ['\\', '\n', '+'] = ['+'] := by
    rw [splice_skip rfl, splice_cons rfl, splice_nil]
  have hone : ∀ c, c ≠ '\\' → splice [c] = [c] := fun c hc => by
    rw [splice_cons (skipSplice_of_ne hc []), splice_nil]
  refine .token rfl hx (hone _ (by decide)) ?_ (.skip rfl (.token rfl hplus (hone _ (by decide)) ?_ .nil))
  · rw [hspliced, goesOn_letter rfl]
    decide
  · rw [splice_nil]
    simp [GoesOn, skipSplice, startsComment, punctuatorAt, isBlank, isLetter]

/-- An identifier that goes on in the next line. -/
theorem not_splice_brokenIdentifier :
    ¬ (tokenizePpSource ⟨Char.isAlpha, Char.isDigit⟩ (splice ['x', '\\', '\n', 'y']) 1 1).map
        PpToken.lexeme =
      (tokenizePpSource ⟨Char.isAlpha, Char.isDigit⟩ ['x', '\\', '\n', 'y'] 1 1).map
        PpToken.lexeme := by
  decide +kernel

end Main

end OpticC.Preprocessor
