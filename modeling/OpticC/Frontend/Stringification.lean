import OpticC.Frontend.MacroArguments

/-! The string literal that `# x` makes of an argument. C puts one blank for the white space
between two tokens and escapes quotes and backslashes in literals only; `stringify_arg` puts a
blank for every white space token and one more in front of every token, unless the text so far
ends in a quote, and escapes in all tokens. -/

namespace OpticC.Preprocessor

section Spelling

/-- The text with a backslash in front of every quote and backslash. -/
def escapeText (text : String) : List Char :=
  text.toList.flatMap fun c => if c = '"' ∨ c = '\\' then ['\\', c] else [c]

def Token.IsLiteral (t : Token) : Prop := t.kind = .stringLiteral ∨ t.kind = .charLiteral

instance (t : Token) : Decidable t.IsLiteral := inferInstanceAs (Decidable (_ ∨ _))

/-- No character of the token would be escaped. -/
def Token.Unquoted (t : Token) : Prop := ∀ c ∈ t.text.toList, c ≠ '"' ∧ c ≠ '\\'

instance (t : Token) : Decidable t.Unquoted :=
  List.decidableBAll (fun c => c ≠ '"' ∧ c ≠ '\\') t.text.toList

/-- How a token stands in the string literal of C. -/
def Token.quoted (t : Token) : List Char :=
  if t.IsLiteral then escapeText t.text else t.text.toList

/-- Tokens as `spell` has them, with one blank for the white space between two of them. -/
def spellTokens (spell : Token → List Char) : List Token → List Char
  | [] => []
  | t :: rest =>
    (if t.isWhitespace then if rest.head?.any (fun n => !n.isWhitespace) then [' '] else []
      else spell t) ++ spellTokens spell rest

/-- The spelling of an argument. -/
def spelling (tokens : List Token) : List Char :=
  spellTokens (fun t => t.text.toList) (tokens.dropWhile Token.isWhitespace)

/-- What the characters between the quotes of a literal stand for. -/
def unescape : List Char → List Char
  | [] => []
  | [c] => [c]
  | c :: d :: rest => if c = '\\' then d :: unescape rest else c :: unescape (d :: rest)

theorem spellLoop_eq (tokens : List Token) : spellLoop tokens = spellTokens Token.quoted tokens := by
  induction tokens with
  | nil => rfl
  | cons t rest ih =>
    rw [spellLoop, spellTokens, ih]
    rfl

theorem unescape_char {c : Char} (h : c ≠ '\\') (rest : List Char) :
    unescape (c :: rest) = c :: unescape rest := by
  cases rest with
  | nil => rfl
  | cons d rest => rw [unescape, if_neg h]

theorem unescape_plain {text : List Char} (h : ∀ c ∈ text, c ≠ '\\') (rest : List Char) :
    unescape (text ++ rest) = text ++ unescape rest := by
  induction text with
  | nil => rfl
  | cons c text ih =>
    rw [List.forall_mem_cons] at h
    rw [List.cons_append, unescape_char h.1, ih h.2, List.cons_append]

theorem unescape_escapeText (text : String) (rest : List Char) :
    unescape (escapeText text ++ rest) = text.toList ++ unescape rest := by
  rw [escapeText]
  induction text.toList with
  | nil => rfl
  | cons c text ih =>
    rw [List.flatMap_cons, List.append_assoc]
    split_ifs with hc
    · rw [List.cons_append, List.cons_append, unescape, if_pos rfl, List.nil_append, ih]
      rfl
    · rw [List.cons_append, List.nil_append, unescape_char (not_or.1 hc).2, ih]
      rfl

/-- Outside of literals C leaves a backslash as it is, so the literal only gives the argument
back when there is none. -/
theorem unescape_spellTokens {tokens : List Token} (h : ∀ t ∈ tokens, t.IsLiteral ∨ t.Unquoted) :
    unescape (spellTokens Token.quoted tokens) = spellTokens (fun t => t.text.toList) tokens := by
  induction tokens with
  | nil => rfl
  | cons t rest ih =>
    rw [List.forall_mem_cons] at h
    rw [spellTokens, spellTokens, ← ih h.2]
    split_ifs
    · exact unescape_char (by decide) _
    · rfl
    · unfold Token.quoted
      split_ifs with hliteral
      · exact unescape_escapeText t.text _
      · exact unescape_plain (fun c hc => ((h.1.resolve_left hliteral) c hc).2) _

end Spelling

section Loop

/-- The tokens stand behind the text without white space, each behind a quote, and nothing but
literals has quotes or backslashes. -/
def Joins : List Char → List Token → Prop
  | _, [] => True
  | text, t :: rest =>
    t.isWhitespace = false ∧ text.getLast? = some '"' ∧ (t.IsLiteral ∨ t.Unquoted) ∧
      Joins (text ++ escapeText t.text) rest

instance decidableJoins : (text : List Char) → (tokens : List Token) → Decidable (Joins text tokens)
  | _, [] => inferInstanceAs (Decidable True)
  | text, t :: rest =>
    have := decidableJoins (text ++ escapeText t.text) rest
    inferInstanceAs (Decidable (_ ∧ _ ∧ _ ∧ _))

theorem stringifyLoop_blank {t : Token} (h : t.isWhitespace = true) (rest : List Token)
    (text : List Char) :
    stringifyLoop (t :: rest) false text = stringifyLoop rest false (text ++ [' ']) := by
  simp [stringifyLoop, h]

theorem stringifyLoop_token {t : Token} (h : t.isWhitespace = false) (rest : List Token)
    (text : List Char) :
    stringifyLoop (t :: rest) false text =
      stringifyLoop rest false
        ((if text.getLast? = some '"' then text else text ++ [' ']) ++ escapeText t.text) := by
  by_cases hlast : text.getLast? = some '"'
  · simp [stringifyLoop, h, hlast, escapeText]
  · simp [stringifyLoop, h, hlast, escapeText]

theorem length_escape_ge (text : List Char) :
    text.length ≤ (text.flatMap fun c => if c = '"' ∨ c = '\\' then ['\\', c] else [c]).length := by
  induction text with
  | nil => exact Nat.le_refl 0
  | cons c text ih =>
    rw [List.flatMap_cons, List.length_append, List.length_cons]
    split_ifs
    · rw [List.length_cons, List.length_singleton]
      omega
    · rw [List.length_singleton]
      omega

theorem length_quoted_le (t : Token) : t.quoted.length ≤ (escapeText t.text).length := by
  unfold Token.quoted
  split_ifs
  · exact Nat.le_refl _
  · exact length_escape_ge _

/-- Escaping leaves only what has nothing to escape as it is. -/
theorem escape_eq_self_iff (text : List Char) :
    (text.flatMap fun c => if c = '"' ∨ c = '\\' then ['\\', c] else [c]).length = text.length ↔
      ∀ c ∈ text, c ≠ '"' ∧ c ≠ '\\' := by
  induction text with
  | nil => exact iff_of_true rfl nofun
  | cons c text ih =>
    rw [List.forall_mem_cons, ← ih, List.flatMap_cons, List.length_append, List.length_cons]
    have hge := length_escape_ge text
    split_ifs with hc
    · refine iff_of_false (fun h => ?_) (fun h => hc.elim h.1.1 h.1.2)
      rw [List.length_cons, List.length_singleton] at h
      omega
    · rw [List.length_singleton]
      refine ⟨fun h => ⟨not_or.1 hc, by omega⟩, fun h => by omega⟩

theorem length_quoted_eq_iff (t : Token) :
    t.quoted.length = (escapeText t.text).length ↔ t.IsLiteral ∨ t.Unquoted := by
  unfold Token.quoted
  split_ifs with h
  · exact iff_of_true rfl (.inl h)
  · rw [eq_comm, escapeText, escape_eq_self_iff]
    exact (or_iff_right h).symm

theorem escapeText_eq_quoted {t : Token} (h : t.IsLiteral ∨ t.Unquoted) :
    escapeText t.text = t.quoted := by
  unfold Token.quoted
  split_ifs with hliteral
  · rfl
  · have hplain := h.resolve_left hliteral
    rw [escapeText]
    calc t.text.toList.flatMap _ = t.text.toList.flatMap (fun c => [c]) :=
          List.flatMap_congr fun c hc => if_neg (not_or.2 (hplain c hc))
      _ = t.text.toList := List.flatMap_singleton' _

/-- The loop puts at least what C does behind the text, and more when a token follows white
space. -/
theorem length_stringifyLoop_ge (tokens : List Token) (text : List Char) :
    text.length + (spellTokens Token.quoted tokens).length +
        (if tokens.head?.any (fun n => !n.isWhitespace) ∧ text.getLast? ≠ some '"' then 1 else 0) ≤
      (stringifyLoop tokens false text).length := by
  induction tokens generalizing text with
  | nil => simp [stringifyLoop, spellTokens]
  | cons t rest ih =>
    cases ht : t.isWhitespace with
    | true =>
      rw [stringifyLoop_blank ht]
      have hrest := ih (text ++ [' '])
      simp only [List.length_append, List.length_singleton, List.getLast?_append,
        List.getLast?_singleton, Option.some_or, ne_eq, Option.some.injEq,
        show ¬ ' ' = '"' by decide, not_false_eq_true, and_true] at hrest
      simp only [spellTokens, ht, if_true, List.length_append, List.head?_cons, Option.any_some,
        Bool.not_true, Bool.false_eq_true, false_and, if_false]
      split_ifs at hrest ⊢ with hnext
      · rw [List.length_singleton]
        omega
      · rw [List.length_nil]
        omega
    | false =>
      have hquoted := length_quoted_le t
      simp only [spellTokens, ht, Bool.false_eq_true, if_false, List.length_append, List.head?_cons,
        Option.any_some, Bool.not_false, true_and]
      rw [stringifyLoop_token ht]
      by_cases hlast : text.getLast? = some '"'
      · have hrest := ih (text ++ escapeText t.text)
        rw [List.length_append] at hrest
        rw [if_pos hlast, if_neg (not_not.2 hlast)]
        omega
      · have hrest := ih (text ++ [' '] ++ escapeText t.text)
        rw [List.length_append, List.length_append, List.length_singleton] at hrest
        rw [if_neg hlast, if_pos hlast]
        omega

/-- Behind the first token the loop writes what C does just when the tokens join. -/
theorem stringifyLoop_eq_iff (tokens : List Token) (text : List Char) :
    stringifyLoop tokens false text = text ++ spellTokens Token.quoted tokens ↔
      Joins text tokens := by
  induction tokens generalizing text with
  | nil => exact iff_of_true (List.append_nil text).symm trivial
  | cons t rest ih =>
    cases ht : t.isWhitespace with
    | true =>
      refine iff_of_false (fun h => ?_) (fun h => absurd (ht.symm.trans h.1) nofun)
      have hlength := congrArg List.length h
      rw [stringifyLoop_blank ht] at hlength
      have hge := length_stringifyLoop_ge rest (text ++ [' '])
      simp only [List.length_append, List.length_singleton, List.getLast?_append,
        List.getLast?_singleton, Option.some_or, ne_eq, Option.some.injEq,
        show ¬ ' ' = '"' by decide, not_false_eq_true, and_true] at hge
      simp only [spellTokens, ht, if_true, List.length_append] at hlength
      split_ifs at hge hlength
      · rw [List.length_singleton] at hlength
        omega
      · rw [List.length_nil] at hlength
        omega
    | false =>
      rw [stringifyLoop_token ht, Joins, spellTokens, ht]
      simp only [Bool.false_eq_true, if_false, true_and]
      have hquoted := length_quoted_le t
      have hge := length_stringifyLoop_ge rest
        ((if text.getLast? = some '"' then text else text ++ [' ']) ++ escapeText t.text)
      constructor
      · intro h
        have hlength := congrArg List.length h
        rw [List.length_append, List.length_append] at hlength
        rw [List.length_append] at hge
        have hlast : text.getLast? = some '"' := by
          by_contra hne
          rw [if_neg hne, List.length_append, List.length_singleton] at hge
          rw [if_neg hne] at hlength
          omega
        rw [if_pos hlast] at h hge hlength
        have htoken : t.IsLiteral ∨ t.Unquoted := (length_quoted_eq_iff t).1 (by omega)
        refine ⟨hlast, htoken, (ih _).1 ?_⟩
        rw [h, escapeText_eq_quoted htoken, List.append_assoc]
      · rintro ⟨hlast, htoken, hrest⟩
        rw [if_pos hlast, (ih _).2 hrest, escapeText_eq_quoted htoken, List.append_assoc]

end Loop

section Argument

/-- The literal that `stringify_arg` makes has the contents that C gives it, and they stand for
the spelling of the argument. -/
structure StringifiesAsC (tokens : List Token) : Prop where
  contents : stringifyArg tokens = cStringify tokens
  unescapes : ∃ contents, stringifyArg tokens = String.ofList ('"' :: contents ++ ['"']) ∧
    unescape contents = spelling tokens

/-- Behind the white space in front, the tokens of the argument join. -/
def JoinsUp (tokens : List Token) : Prop :=
  match tokens.dropWhile Token.isWhitespace with
  | [] => True
  | t :: rest => (t.IsLiteral ∨ t.Unquoted) ∧ Joins ('"' :: escapeText t.text) rest

instance (tokens : List Token) : Decidable (JoinsUp tokens) :=
  match h : tokens.dropWhile Token.isWhitespace with
  | [] => isTrue (by rw [JoinsUp, h]; trivial)
  | t :: rest =>
    decidable_of_iff ((t.IsLiteral ∨ t.Unquoted) ∧ Joins ('"' :: escapeText t.text) rest)
      (by rw [JoinsUp, h])

theorem stringifyLoop_leading (tokens : List Token) (text : List Char) :
    stringifyLoop tokens true text =
      stringifyLoop (tokens.dropWhile Token.isWhitespace) true text := by
  induction tokens with
  | nil => rfl
  | cons t rest ih =>
    cases ht : t.isWhitespace with
    | true =>
      rw [List.dropWhile_cons_of_pos ht, ← ih, stringifyLoop, ht]
      rfl
    | false => rw [List.dropWhile_cons_of_neg (by rw [ht]; decide)]

theorem stringifyLoop_first {t : Token} (h : t.isWhitespace = false) (rest : List Token)
    (text : List Char) :
    stringifyLoop (t :: rest) true text = stringifyLoop rest false (text ++ escapeText t.text) := by
  simp [stringifyLoop, h, escapeText]

theorem Joins.unquoted {text : List Char} {tokens : List Token} (h : Joins text tokens) :
    ∀ t ∈ tokens, t.IsLiteral ∨ t.Unquoted := by
  induction tokens generalizing text with
  | nil => nofun
  | cons t rest ih =>
    obtain ⟨-, -, htoken, hrest⟩ := h
    exact List.forall_mem_cons.2 ⟨htoken, ih hrest⟩

theorem stringifyArg_eq_iff (tokens : List Token) :
    stringifyArg tokens = cStringify tokens ↔ JoinsUp tokens := by
  rw [stringifyArg, cStringify, String.ofList_inj, List.append_cancel_right_eq, spellLoop_eq,
    stringifyLoop_leading, JoinsUp]
  cases hbody : tokens.dropWhile Token.isWhitespace with
  | nil => exact iff_of_true rfl trivial
  | cons t rest =>
    have ht : t.isWhitespace = false := by
      have hhead := List.head?_dropWhile_not Token.isWhitespace tokens
      rw [hbody] at hhead
      simpa using hhead
    have hquoted := length_quoted_le t
    have hge := length_stringifyLoop_ge rest ('"' :: escapeText t.text)
    rw [stringifyLoop_first ht, spellTokens, ht, if_neg Bool.false_ne_true]
    simp only [List.singleton_append]
    constructor
    · intro h
      have hlength := congrArg List.length h
      rw [List.length_cons] at hge
      rw [List.length_cons, List.length_append] at hlength
      have htoken : t.IsLiteral ∨ t.Unquoted := (length_quoted_eq_iff t).1 (by omega)
      refine ⟨htoken, (stringifyLoop_eq_iff rest _).1 ?_⟩
      rw [h, escapeText_eq_quoted htoken, List.cons_append]
    · rintro ⟨htoken, hrest⟩
      rw [(stringifyLoop_eq_iff rest _).2 hrest, escapeText_eq_quoted htoken, List.cons_append]

/-- An argument becomes the literal that C makes of it just when its tokens join. -/
theorem stringifiesAsC_iff (tokens : List Token) : StringifiesAsC tokens ↔ JoinsUp tokens := by
  constructor
  · exact fun h => (stringifyArg_eq_iff tokens).1 h.contents
  · intro h
    have hcontents := (stringifyArg_eq_iff tokens).2 h
    refine ⟨hcontents, spellTokens Token.quoted (tokens.dropWhile Token.isWhitespace), ?_, ?_⟩
    · rw [hcontents, cStringify, spellLoop_eq]
      rfl
    · refine unescape_spellTokens ?_
      rw [JoinsUp] at h
      cases hbody : tokens.dropWhile Token.isWhitespace with
      | nil => nofun
      | cons t rest =>
        rw [hbody] at h
        exact List.forall_mem_cons.2 ⟨h.1, h.2.unquoted⟩

/-- `STR(hello world)` -/
def helloWorld : List Token := [ident "hello", tokenOf .whitespace " ", ident "world"]

/-- Two blanks for one. -/
theorem not_stringifiesAsC_helloWorld : ¬ StringifiesAsC helloWorld := by
  intro h
  exact absurd ((stringifyArg_eq_iff helloWorld).1 h.contents) (by decide)

end Argument

end OpticC.Preprocessor
