import OpticC.Frontend.LineSplicing

/-! `tokenize_pp_source` loses nothing of a source text but the continuations between its tokens. -/

namespace OpticC.Preprocessor

section Punctuators

/-- The last arm of the loop, with its two tests in turn: the text of the token and the characters that
are left behind `ch`. -/
def punctuatorArm (ch : Char) (chars : List Char) : List Char × List Char :=
  let ellipsis := ch = '.' ∧ chars.head? = some '.' ∧ (chars.drop 1).head? = some '.'
  let text := if ellipsis then ['.', '.', '.'] else [ch]
  let chars := if ellipsis then chars.drop 2 else chars
  match chars with
  | [] => (text, [])
  | next :: more =>
    let twoChar := [ch, next]
    if twoChar = ['<', '<'] ∨ twoChar = ['>', '>'] then
      if more.head? = some '=' then (twoChar ++ ['='], more.drop 1) else (twoChar, more)
    else if isTwoCharPunctuator twoChar then (twoChar, more)
    else (text, next :: more)

/-- The second test never follows the first: no pair begins with a dot. -/
theorem isTwoCharPunctuator_dot (next : Char) : isTwoCharPunctuator ['.', next] = false := by
  rw [Bool.eq_false_iff]
  intro h
  have hall : ["==", "!=", "<=", ">=", "&&", "||", "<<", ">>", "++", "--", "->", "+=", "-=", "*=", "/=", "%=",
    "&=", "|=", "^=", "##"].all (fun p => p.toList.head? != some '.') = true := by decide
  obtain ⟨p, hp, heq⟩ := List.any_eq_true.1 h
  have hne := List.all_eq_true.1 hall p hp
  rw [beq_iff_eq.1 heq] at hne
  cases hne

/-- The arm takes the characters of its text. -/
theorem punctuatorArm_eq (ch : Char) (chars : List Char) :
    punctuatorArm ch chars =
      (punctuatorAt ch chars, (ch :: chars).drop (punctuatorAt ch chars).length) := by
  unfold punctuatorArm punctuatorAt
  by_cases hdots : ch = '.' ∧ chars.take 2 = ['.', '.']
  · obtain ⟨rfl, htake⟩ := hdots
    obtain ⟨rest, rfl⟩ : ∃ rest, chars = '.' :: '.' :: rest :=
      ⟨chars.drop 2, by simpa [htake] using (List.take_append_drop 2 chars).symm⟩
    cases rest with
    | nil => rfl
    | cons next more => simp [isTwoCharPunctuator_dot]
  · have hellipsis : ¬ (ch = '.' ∧ chars.head? = some '.' ∧ (chars.drop 1).head? = some '.') := by
      rintro ⟨hch, hfirst, hsecond⟩
      obtain ⟨rest, rfl⟩ := List.head?_eq_some_iff.1 hfirst
      obtain ⟨more, hmore⟩ := List.head?_eq_some_iff.1 hsecond
      obtain rfl : rest = '.' :: more := hmore
      exact hdots ⟨hch, rfl⟩
    simp only [if_neg hellipsis, if_neg hdots]
    cases chars with
    | nil => rfl
    | cons next more =>
      simp only
      split_ifs with hshift heq htwo
      · obtain ⟨rest, rfl⟩ := List.head?_eq_some_iff.1 heq
        rfl
      · rfl
      · rfl
      · rfl

/-- The token of the arm, as the loop of the model reads it. -/
theorem readToken_punctuator {classes : CharClasses} {c : Char} {rest : List Char} (h : Other c)
    (hcomment : ¬ startsComment c rest) : readToken classes c rest =
      ((.punctuator, (punctuatorArm c rest).1), (punctuatorArm c rest).2) := by
  rw [readToken_of_arm classes (.punctuator rest h hcomment), punctuatorArm_eq]

end Punctuators

section Conservation

/-- The words of a text, in order: all of the text but the continuations between them. No word begins
where a continuation does. -/
inductive Splices : List Char → List (List Char) → Prop
  | nil : Splices [] []
  | newline {rest : List Char} {words : List (List Char)} (more : Splices rest words) :
    Splices ('\\' :: '\n' :: rest) words
  | carriage {rest : List Char} {words : List (List Char)} (more : Splices rest words) :
    Splices ('\\' :: '\r' :: '\n' :: rest) words
  | word {word rest : List Char} {words : List (List Char)} (ne : word ≠ [])
    (newline : ¬ ['\\', '\n'] <+: word ++ rest) (carriage : ¬ ['\\', '\r', '\n'] <+: word ++ rest)
    (more : Splices rest words) : Splices (word ++ rest) (word :: words)

theorem not_continuation {text : List Char} (h : skipSplice text = none) :
    ¬ ['\\', '\n'] <+: text ∧ ¬ ['\\', '\r', '\n'] <+: text := by
  constructor
  · rintro ⟨rest, rfl⟩
    cases h
  · rintro ⟨rest, rfl⟩
    cases h

theorem Splices.skip {text rest : List Char} {words : List (List Char)} (h : skipSplice text = some rest)
    (more : Splices rest words) : Splices text words := by
  rcases skipSplice_eq_some.1 h with rfl | rfl
  · exact .newline more
  · exact .carriage more

/-- Without a backslash the words are the whole text. -/
theorem Splices.flatten_eq {text : List Char} {words : List (List Char)} (h : Splices text words)
    (hplain : '\\' ∉ text) : words.flatten = text := by
  induction h with
  | nil => rfl
  | newline => exact absurd List.mem_cons_self hplain
  | carriage => exact absurd List.mem_cons_self hplain
  | word ne newline carriage more ih =>
    rw [List.flatten_cons, ih fun hmem => hplain (List.mem_append_right _ hmem)]

theorem splices_readTokens (classes : CharClasses) (text : List Char) :
    Splices text ((readTokens classes text).map Prod.snd) := by
  induction text using text_induction classes with
  | nil =>
    rw [readTokens_nil]
    exact .nil
  | skip text rest hsplice ih =>
    rw [readTokens_skip classes hsplice]
    exact .skip hsplice ih
  | token c rest lexeme after hnone hread harm ih =>
    obtain ⟨tail, htail⟩ := harm.text_eq
    obtain ⟨hnewline, hcarriage⟩ := not_continuation hnone
    rw [readTokens_cons classes hnone, hread, List.map_cons]
    rw [← harm.concat] at hnewline hcarriage ⊢
    exact .word (htail ▸ List.cons_ne_nil _ _) hnewline hcarriage ih

/-- The texts of the tokens are the source text without the continuations that stand between them. -/
theorem tokenizePpSource_splices (classes : CharClasses) (source : List Char) (line col : ℕ) :
    Splices source ((tokenizePpSource classes source line col).map fun t => t.text.toList) := by
  have h := splices_readTokens classes source
  rw [← map_lexeme_tokenize classes source line col, List.map_map] at h
  exact h

end Conservation

end OpticC.Preprocessor
