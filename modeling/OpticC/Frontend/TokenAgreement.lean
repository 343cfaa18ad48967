import OpticC.Frontend.CTokens
import OpticC.Frontend.LineSplicing

/-! `tokenize_pp_source` against C's preprocessing tokens, one token at a time and then over a
whole text. -/

namespace OpticC.Preprocessor

open MaximalMunch

section Plain

variable (classes : CharClasses) (extended : Char → Bool)

def digraphs : List (List Char) := [['<', ':'], [':', '>'], ['<', '%'], ['%', '>'], ['%', ':']]

/-- The literal is closed before the end of its line, with C's escape sequences. -/
def PlainLiteral (c : Char) (rest : List Char) : Prop :=
  ∃ body after, rest = body ++ c :: after ∧ LiteralBody c body ∧ (c = '\'' → body ≠ [])

/-- The word consists of C's characters, and none of them follows it. -/
structure PlainWord (run behind : List Char) : Prop where
  chars : ∀ d ∈ run, d.toNat < 128 ∨ extended d = true
  stops : ∀ next, IdentifierNondigit extended next → ¬ next <+: behind

/-- No sign follows the letter of an exponent. -/
def PlainExponent (last : Char) (behind : List Char) : Prop :=
  ∀ s ∈ ['+', '-'], last ∈ ['e', 'E', 'p', 'P'] → behind.head? ≠ some s

structure PlainPunctuator (c : Char) (rest : List Char) : Prop where
  extended : extended c = false
  universal : ∀ name, UniversalCharacterName name → ¬ name <+: c :: rest
  number : ∀ d, c = '.' → rest.head? = some d → d.isDigit = false
  digraph : (c :: rest).take 2 ∉ digraphs

/-- What the text at a token is like where the tokenizer reads it as C does. -/
def PlainAt (c : Char) (rest : List Char) : Prop :=
  if c = '"' ∨ c = '\'' then PlainLiteral c rest
  else if c.isDigit then
    PlainWord extended (rest.takeWhile (isNumberChar classes)) (rest.dropWhile (isNumberChar classes)) ∧
      PlainExponent ((c :: rest.takeWhile (isNumberChar classes)).getLast (List.cons_ne_nil _ _))
        (rest.dropWhile (isNumberChar classes))
  else if isLetter c then
    PlainWord extended (rest.takeWhile (isIdentifierChar classes))
        (rest.dropWhile (isIdentifierChar classes)) ∧
      ∀ kind text, kind = .characterConstant ∨ kind = .stringLiteral → PpText extended kind text →
        ¬ text <+: c :: rest
  else PlainPunctuator extended c rest

end Plain

section Literals

variable {extended : Char → Bool}

/-- The tokens that begin with a quote. -/
theorem PreprocessingToken.of_quote (hext : OutsideAscii extended) {kind : CTokenKind} {c : Char}
    {tail : List Char} (hc : c = '"' ∨ c = '\'')
    (h : PreprocessingToken extended kind (c :: tail)) :
    kind = .other ∨ (∃ body, tail = body ++ [c] ∧ LiteralBody c body ∧ (c = '\'' → body ≠ [])) := by
  have hclass : isLetter c = false ∧ c.isDigit = false ∧ c ≠ '\\' ∧ c ≠ '.' ∧ c.toNat < 128 ∧
      c ∉ punctuatorChars := by
    rcases hc with rfl | rfl <;> decide
  obtain ⟨hletter, hdigit, hescape, hdot, hascii, hpunctuator⟩ := hclass
  generalize htext : c :: tail = text at h
  cases h with
  | other => exact .inl rfl
  | text h =>
    refine .inr ?_
    cases h with
    | identifier h =>
      exfalso
      obtain ⟨c', tail', heq, hc'⟩ := h.head
      obtain ⟨rfl, -⟩ := List.cons.inj (htext.trans heq)
      rcases hc' with hc' | hc' | ⟨hc', -⟩
      · rw [hletter] at hc'
        cases hc'
      · exact hext.ne hc' hascii rfl
      · exact hescape hc'
    | ppNumber h =>
      exfalso
      obtain ⟨c', tail', heq, hc' | ⟨hc', -⟩⟩ := h.head
      · obtain ⟨rfl, -⟩ := List.cons.inj (htext.trans heq)
        rw [hdigit] at hc'
        cases hc'
      · exact hdot ((List.cons.inj (htext.trans heq)).1.trans hc')
    | @characterConstant encoding body hencoding hbody hne =>
      cases encoding with
      | nil =>
        obtain ⟨rfl, rfl⟩ := List.cons.inj htext
        exact ⟨body, rfl, hbody, fun _ => hne⟩
      | cons d encoding =>
        exfalso
        obtain ⟨rfl, -⟩ := List.cons.inj htext
        rcases hc with rfl | rfl <;> simp [encodingPrefixes] at hencoding
    | @stringLiteral encoding body hencoding hbody =>
      cases encoding with
      | nil =>
        obtain ⟨rfl, rfl⟩ := List.cons.inj htext
        exact ⟨body, rfl, hbody, fun h => by cases h⟩
      | cons d encoding =>
        exfalso
        obtain ⟨rfl, -⟩ := List.cons.inj htext
        rcases hc with rfl | rfl <;> simp [encodingPrefixes] at hencoding
    | punctuator h =>
      subst htext
      exact absurd ((punctuator_chars _ h).2 c (List.mem_cons_self ..)) hpunctuator

theorem EscapeSequence.shape {text : List Char} (h : EscapeSequence text) :
    ∃ c more, text = '\\' :: c :: more ∧ ∀ d ∈ more, isHexDigit d = true := by
  have hoctal : ∀ d : Char, isOctalDigit d = true → isHexDigit d = true := by
    intro d hd
    simp only [isOctalDigit, Bool.and_eq_true, decide_eq_true_eq] at hd
    have hdigit : d.isDigit = true :=
      (isDigit_iff d).2 ⟨hd.1, Nat.le_trans hd.2 (by decide)⟩
    simp [isHexDigit, hdigit]
  cases h with
  | simple => exact ⟨_, [], rfl, fun d hd => absurd hd (List.not_mem_nil)⟩
  | @octal digits hlength h =>
    cases digits with
    | nil => exact absurd hlength.1 (by decide)
    | cons c more =>
      exact ⟨c, more, rfl, fun d hd => hoctal d (h d (List.mem_cons_of_mem c hd))⟩
  | hexadecimal _ h => exact ⟨_, _, rfl, h⟩
  | universal h =>
    cases h with
    | short _ h => exact ⟨_, _, rfl, h⟩
    | long _ h => exact ⟨_, _, rfl, h⟩

/-- The loop of literals leaves at the quote that ends the literal. -/
theorem scanQuoted_body {c : Char} (hc : c = '"' ∨ c = '\'') {body : List Char}
    (h : LiteralBody c body) (after : List Char) :
    scanQuoted c (body ++ c :: after) = (body ++ [c], after) := by
  have hescape : '\\' ≠ c := by
    rcases hc with rfl | rfl <;> decide
  have hdigits : ∀ (digits rest : List Char), (∀ d ∈ digits, isHexDigit d = true) →
      scanQuoted c (digits ++ rest) =
        (digits ++ (scanQuoted c rest).1, (scanQuoted c rest).2) := by
    intro digits rest hdigits
    induction digits with
    | nil => rfl
    | cons d digits ih =>
      have hd := hdigits d (List.mem_cons_self ..)
      have hne : d ≠ c := by rcases hc with rfl | rfl <;> exact ne_of_class hd rfl
      rw [List.cons_append, scanQuoted_other hne (ne_of_class hd rfl),
        ih fun d hd => hdigits d (List.mem_cons_of_mem _ hd)]
      rfl
  induction h with
  | nil => exact scanQuoted_close c after
  | char hd _ ih =>
    rw [List.cons_append, scanQuoted_other hd.1 hd.2.1, ih]
    rfl
  | escape htext _ ih =>
    obtain ⟨e, more, rfl, hmore⟩ := htext.shape
    simp only [List.append_assoc, List.cons_append]
    rw [scanQuoted_escape hescape, hdigits more _ hmore, ih]

theorem literal_agrees (hext : OutsideAscii extended) {c : Char} {rest text after : List Char}
    {kind : CTokenKind} (hc : c = '"' ∨ c = '\'')
    (h : Longest (PreprocessingToken extended) (c :: rest) kind text after) :
    (quotedKind c, c :: (scanQuoted c rest).1) = (ppKind kind text, text) ↔ PlainLiteral c rest := by
  constructor
  · intro heq
    obtain ⟨hkind, rfl⟩ := Prod.mk.inj heq
    rcases h.token.of_quote hext hc with rfl | ⟨body, htail, hbody, hne⟩
    · rcases hc with rfl | rfl <;> cases hkind
    · have hsplit : (scanQuoted c rest).1 ++ after = rest := (List.cons.inj h.split).2
      rw [htail, List.append_assoc] at hsplit
      exact ⟨body, after, hsplit.symm, hbody, hne⟩
  · rintro ⟨body, behind, rfl, hbody, hne⟩
    have hplain : Longest (PreprocessingToken extended) (c :: (body ++ c :: behind))
        (if c = '"' then .stringLiteral else .characterConstant) (c :: (body ++ [c])) behind := by
      refine ⟨by simp, ?_, ?_⟩
      · rcases hc with rfl | rfl
        · have htext : PpText extended .stringLiteral ([] ++ '"' :: (body ++ ['"'])) :=
            .stringLiteral (by simp [encodingPrefixes]) hbody
          exact .text htext
        · have htext : PpText extended .characterConstant ([] ++ '\'' :: (body ++ ['\''])) :=
            .characterConstant (by simp [encodingPrefixes]) hbody (hne rfl)
          exact .text htext
      · intro kind' text' htoken hfront
        rcases List.prefix_cons_iff.1 hfront with rfl | ⟨tail, rfl, htail⟩
        · exact Nat.zero_le _
        rcases htoken.of_quote hext hc with rfl | ⟨body', rfl, hbody', -⟩
        · cases htoken with
          | text h => cases h
          | other => simp
        · -- both bodies are what the loop takes
          obtain ⟨more, hmore⟩ := htail
          rw [List.append_assoc, List.singleton_append] at hmore
          have hscan := scanQuoted_body hc hbody behind
          rw [← hmore, scanQuoted_body hc hbody' more] at hscan
          rw [(Prod.mk.inj hscan).1]
    obtain ⟨rfl, rfl, -⟩ := h.unique (PreprocessingToken.kind_unique hext) hplain
    rw [scanQuoted_body hc hbody]
    rcases hc with rfl | rfl <;> rfl

end Literals

section Words

variable {classes : CharClasses} {extended : Char → Bool}

theorem alphanumeric_iff (hascii : classes.OnAscii) {c : Char} (hc : c.toNat < 128) :
    classes.isAlphanumeric c = true ↔ c.isAlpha = true ∨ c.isDigit = true := by
  rw [hascii c hc, Char.isAlphanum, Bool.or_eq_true]

theorem isNumberChar_iff (hascii : classes.OnAscii) {c : Char} (hc : c.toNat < 128) :
    isNumberChar classes c = true ↔ c.isAlpha = true ∨ c.isDigit = true ∨ c = '.' := by
  have hx : Char.isAlpha 'x' = true ∧ Char.isAlpha 'X' = true := by decide
  simp only [isNumberChar, Bool.or_eq_true, alphanumeric_iff hascii hc, beq_iff_eq]
  constructor
  · rintro ((((halpha | hdigit) | hdot) | rfl) | rfl)
    · exact .inl halpha
    · exact .inr (.inl hdigit)
    · exact .inr (.inr hdot)
    · exact .inl hx.1
    · exact .inl hx.2
  · rintro (halpha | hdigit | hdot)
    · exact .inl (.inl (.inl (.inl halpha)))
    · exact .inl (.inl (.inl (.inr hdigit)))
    · exact .inl (.inl (.inr hdot))

theorem isIdentifierChar_iff (hascii : classes.OnAscii) {c : Char} (hc : c.toNat < 128) :
    isIdentifierChar classes c = true ↔ isLetter c = true ∨ c.isDigit = true := by
  simp only [isIdentifierChar, Bool.or_eq_true, alphanumeric_iff hascii hc, beq_iff_eq, isLetter_iff]
  tauto

/-- Behind a run the class ends. -/
theorem not_class_behind {p : Char → Bool} {text behind : List Char} {c : Char}
    (h : text.dropWhile p = c :: behind) : p c = false := by
  have hnot := List.head?_dropWhile_not p text
  rw [h] at hnot
  exact hnot

/-- Characters of a word are C's own or implementation-defined. -/
theorem IsWordChar.own {c : Char} (h : IsWordChar extended c) : c.toNat < 128 ∨ extended c = true := by
  rcases h with h | h | h | rfl | rfl | rfl | rfl
  · exact .inl (ascii_of_isLetter h)
  · exact .inl (ascii_of_isDigit h)
  · exact .inr h
  all_goals exact .inl (by decide)

/-- A name's next character, taken inside a run that has no backslash. -/
theorem IdentifierNondigit.inside {p : Char → Bool} (hescape : p '\\' = false) {next behind : List Char}
    {first : Char} {more : List Char} (h : IdentifierNondigit extended next) (hfirst : p first = true)
    (hfront : next <+: first :: more ++ behind) : next <+: first :: more := by
  cases h with
  | nondigit => exact (List.cons_prefix_cons.1 hfront).1 ▸ List.cons_prefix_cons.2 ⟨rfl, List.nil_prefix⟩
  | extended => exact (List.cons_prefix_cons.1 hfront).1 ▸ List.cons_prefix_cons.2 ⟨rfl, List.nil_prefix⟩
  | universal h =>
    obtain ⟨tail, rfl⟩ := h.head
    obtain ⟨rfl, -⟩ := List.cons_prefix_cons.1 hfront
    rw [hescape] at hfirst
    cases hfirst

/-- One more character of the class. -/
theorem single_inside {c first : Char} {more behind : List Char}
    (hfront : [c] <+: first :: more ++ behind) : [c] <+: first :: more :=
  (List.cons_prefix_cons.1 hfront).1 ▸ List.cons_prefix_cons.2 ⟨rfl, List.nil_prefix⟩

theorem mem_of_append_eq {text more run : List Char} {c first : Char} (h : text ++ first :: more = c :: run)
    (hne : text ≠ []) : first ∈ run := by
  obtain ⟨d, tail, rfl⟩ := List.exists_cons_of_ne_nil hne
  obtain ⟨-, htail⟩ := List.cons.inj h
  rw [← htail]
  exact List.mem_append_right tail (List.mem_cons_self ..)

theorem PpNumber.ne_nil {text : List Char} (h : PpNumber extended text) : text ≠ [] := by
  obtain ⟨c, tail, rfl, -⟩ := h.head
  exact List.cons_ne_nil c tail

theorem Identifier.ne_nil {text : List Char} (h : Identifier extended text) : text ≠ [] := by
  obtain ⟨c, tail, rfl, -⟩ := h.head
  exact List.cons_ne_nil c tail

/-- No number reaches beyond a run of number characters that C's grammar does not leave. -/
theorem PpNumber.prefix_run (hascii : classes.OnAscii) {c : Char} {rest text : List Char}
    (hc : c.isDigit = true) (h : PpNumber extended text) (hfront : text <+: c :: rest)
    (hstops : ∀ next, IdentifierNondigit extended next →
      ¬ next <+: rest.dropWhile (isNumberChar classes))
    (hexponent : PlainExponent ((c :: rest.takeWhile (isNumberChar classes)).getLast
      (List.cons_ne_nil _ _)) (rest.dropWhile (isNumberChar classes))) :
    text <+: c :: rest.takeWhile (isNumberChar classes) := by
  have hrest : c :: rest = (c :: rest.takeWhile (isNumberChar classes)) ++
      rest.dropWhile (isNumberChar classes) := by
    rw [List.cons_append, List.takeWhile_append_dropWhile]
  have hinrun : ∀ {text more : List Char} {first : Char}, text ≠ [] →
      text ++ first :: more = c :: rest.takeWhile (isNumberChar classes) →
      isNumberChar classes first = true := fun hne heq =>
    List.mem_takeWhile_imp (mem_of_append_eq heq hne)
  have hbehind : ∀ {d : Char} {more : List Char}, isNumberChar classes d = true →
      ¬ d :: more <+: rest.dropWhile (isNumberChar classes) := by
    rintro d more hd ⟨behind, hbehind⟩
    rw [List.cons_append] at hbehind
    rw [not_class_behind hbehind.symm] at hd
    cases hd
  have hclass : ∀ {d : Char}, d.isDigit = true → isNumberChar classes d = true := fun hd =>
    (isNumberChar_iff hascii (ascii_of_isDigit hd)).2 (.inr (.inl hd))
  rw [hrest] at hfront
  induction h with
  | digit => exact (List.cons_prefix_cons.1 hfront).1 ▸ List.cons_prefix_cons.2 ⟨rfl, List.nil_prefix⟩
  | dotDigit =>
    obtain ⟨rfl, -⟩ := List.cons_prefix_cons.1 hfront
    cases hc
  | @moreDigit text d h hd ih =>
    have htext := ih ((List.prefix_append _ _).trans hfront)
    exact append_prefix_run htext hfront (fun _ _ _ => single_inside) fun _ => hbehind (hclass hd)
  | @nondigit text next h hnext ih =>
    have htext := ih ((List.prefix_append _ _).trans hfront)
    refine append_prefix_run htext hfront (fun first more heq => ?_) fun _ => hstops next hnext
    refine hnext.inside (p := isNumberChar classes) ?_ (hinrun h.ne_nil heq)
    rw [← Bool.not_eq_true, isNumberChar_iff hascii (by decide)]
    decide
  | @sign text e s h he hs ih =>
    have htext := ih ((List.prefix_append _ _).trans hfront)
    have hletter : isNumberChar classes e = true := by
      simp only [List.mem_cons, List.not_mem_nil, or_false] at he
      rcases he with rfl | rfl | rfl | rfl <;> exact (isNumberChar_iff hascii (by decide)).2 (by decide)
    refine append_prefix_run htext hfront (fun first more heq hnext => ?_) fun _ => hbehind hletter
    exfalso
    obtain ⟨rfl, hs'⟩ := List.cons_prefix_cons.1 hnext
    cases more with
    | nil =>
      -- the letter ends the run, and the sign follows it
      refine hexponent s hs ?_ ?_
      · have hlast : (c :: rest.takeWhile (isNumberChar classes)).getLast (List.cons_ne_nil _ _) = e := by
          simp only [← heq, List.getLast_append_of_ne_nil, ne_eq, List.cons_ne_nil, not_false_eq_true,
            List.getLast_singleton]
        rw [hlast]
        exact he
      · obtain ⟨behind, hbehind⟩ := hs'
        have hhead : s :: behind = rest.dropWhile (isNumberChar classes) := hbehind
        rw [← hhead]
        rfl
    | cons d more =>
      obtain ⟨rfl, -⟩ := List.cons_prefix_cons.1 hs'
      have hsplit : (text ++ [e]) ++ s :: more = c :: rest.takeWhile (isNumberChar classes) := by
        rw [← heq, List.append_assoc]
        rfl
      have hsign : isNumberChar classes s = true := hinrun (by simp) hsplit
      simp only [List.mem_cons, List.not_mem_nil, or_false] at hs
      rcases hs with rfl | rfl
      · exact absurd ((isNumberChar_iff hascii (by decide)).1 hsign) (by decide)
      · exact absurd ((isNumberChar_iff hascii (by decide)).1 hsign) (by decide)
  | @dot text h ih =>
    have htext := ih ((List.prefix_append _ _).trans hfront)
    refine append_prefix_run htext hfront (fun _ _ _ => single_inside) fun _ => hbehind ?_
    exact (isNumberChar_iff hascii (by decide)).2 (.inr (.inr rfl))

theorem PpNumber.append_run (hascii : classes.OnAscii) {text run : List Char}
    (h : PpNumber extended text)
    (hrun : ∀ d ∈ run, isNumberChar classes d = true ∧ (d.toNat < 128 ∨ extended d = true)) :
    PpNumber extended (text ++ run) := by
  induction run generalizing text with
  | nil => rwa [List.append_nil]
  | cons d run ih =>
    have hone : PpNumber extended (text ++ [d]) := by
      obtain ⟨hd, hown | hown⟩ := hrun d (List.mem_cons_self ..)
      · rcases (isNumberChar_iff hascii hown).1 hd with halpha | hdigit | rfl
        · exact .nondigit h (.nondigit (isLetter_iff.2 (.inl halpha)))
        · exact .moreDigit h hdigit
        · exact .dot h
      · exact .nondigit h (.extended hown)
    have hmore := ih hone fun d hd => hrun d (List.mem_cons_of_mem _ hd)
    rwa [List.append_assoc, List.singleton_append] at hmore

/-- No identifier reaches beyond a run of identifier characters that C's grammar does not leave. -/
theorem Identifier.prefix_run (hascii : classes.OnAscii) {c : Char} {rest text : List Char}
    (hc : isLetter c = true) (h : Identifier extended text) (hfront : text <+: c :: rest)
    (hstops : ∀ next, IdentifierNondigit extended next →
      ¬ next <+: rest.dropWhile (isIdentifierChar classes)) :
    text <+: c :: rest.takeWhile (isIdentifierChar classes) := by
  have hrest : c :: rest = (c :: rest.takeWhile (isIdentifierChar classes)) ++
      rest.dropWhile (isIdentifierChar classes) := by
    rw [List.cons_append, List.takeWhile_append_dropWhile]
  rw [hrest] at hfront
  induction h with
  | start h => exact h.inside (p := isLetter) rfl hc hfront
  | @nondigit text next h hnext ih =>
    have htext := ih ((List.prefix_append _ _).trans hfront)
    refine append_prefix_run htext hfront (fun first more heq => ?_) fun _ => hstops next hnext
    refine hnext.inside (p := isIdentifierChar classes) ?_
      (List.mem_takeWhile_imp (mem_of_append_eq heq h.ne_nil))
    rw [← Bool.not_eq_true, isIdentifierChar_iff hascii (by decide)]
    decide
  | @digit text d h hd ih =>
    have htext := ih ((List.prefix_append _ _).trans hfront)
    refine append_prefix_run htext hfront (fun _ _ _ => single_inside) fun _ => ?_
    rintro ⟨behind, hbehind⟩
    have hclass := not_class_behind hbehind.symm
    rw [← Bool.not_eq_true, isIdentifierChar_iff hascii (ascii_of_isDigit hd)] at hclass
    exact hclass (.inr hd)

theorem Identifier.append_run (hascii : classes.OnAscii) {text run : List Char}
    (h : Identifier extended text)
    (hrun : ∀ d ∈ run, isIdentifierChar classes d = true ∧ (d.toNat < 128 ∨ extended d = true)) :
    Identifier extended (text ++ run) := by
  induction run generalizing text with
  | nil => rwa [List.append_nil]
  | cons d run ih =>
    have hone : Identifier extended (text ++ [d]) := by
      obtain ⟨hd, hown | hown⟩ := hrun d (List.mem_cons_self ..)
      · rcases (isIdentifierChar_iff hascii hown).1 hd with hletter | hdigit
        · exact .nondigit h (.nondigit hletter)
        · exact .digit h hdigit
      · exact .nondigit h (.extended hown)
    have hmore := ih hone fun d hd => hrun d (List.mem_cons_of_mem _ hd)
    rwa [List.append_assoc, List.singleton_append] at hmore

/-- A literal begins with a letter of its encoding or with the quote. -/
theorem literal_head {encoding : List Char} (quote : Char) (body : List Char)
    (hencoding : encoding ∈ ['u', '8'] :: encodingPrefixes) :
    ∃ c tail, encoding ++ quote :: body = c :: tail ∧ (isLetter c = true ∨ c = quote) := by
  simp only [encodingPrefixes, List.mem_cons, List.not_mem_nil, or_false] at hencoding
  rcases hencoding with rfl | rfl | rfl | rfl | rfl
  · exact ⟨_, _, rfl, .inl (by decide)⟩
  · exact ⟨_, _, rfl, .inr rfl⟩
  · exact ⟨_, _, rfl, .inl (by decide)⟩
  · exact ⟨_, _, rfl, .inl (by decide)⟩
  · exact ⟨_, _, rfl, .inl (by decide)⟩

/-- The tokens that begin with a digit. -/
theorem PreprocessingToken.of_digit {kind : CTokenKind} {c : Char} {tail : List Char}
    (hc : c.isDigit = true) (hext : OutsideAscii extended)
    (h : PreprocessingToken extended kind (c :: tail)) :
    kind = .ppNumber ∧ PpNumber extended (c :: tail) := by
  have hliteral : ∀ {encoding body : List Char} {quote : Char}, quote.isDigit = false →
      encoding ∈ ['u', '8'] :: encodingPrefixes → encoding ++ quote :: body ≠ c :: tail := by
    intro encoding body quote hquote hencoding heq
    obtain ⟨c', tail', hhead, hletter | rfl⟩ := literal_head quote body hencoding
    · obtain ⟨rfl, -⟩ := List.cons.inj (hhead.symm.trans heq)
      rw [isDigit_of_isLetter hletter] at hc
      cases hc
    · obtain ⟨rfl, -⟩ := List.cons.inj (hhead.symm.trans heq)
      rw [hquote] at hc
      cases hc
  generalize htext : c :: tail = text at h
  cases h with
  | other _ hnone =>
    obtain ⟨rfl, rfl⟩ := List.cons.inj htext
    exact absurd (.ppNumber (.digit hc)) (hnone .ppNumber)
  | text h =>
    cases h with
    | ppNumber h => exact ⟨rfl, h⟩
    | identifier h =>
      exfalso
      obtain ⟨c', tail', heq, hc'⟩ := h.head
      obtain ⟨rfl, -⟩ := List.cons.inj (htext.trans heq)
      rcases hc' with hc' | hc' | ⟨rfl, -⟩
      · rw [isDigit_of_isLetter hc'] at hc
        cases hc
      · exact hext.ne hc' (ascii_of_isDigit hc) rfl
      · cases hc
    | characterConstant hencoding =>
      exact absurd htext.symm (hliteral (by decide) (List.mem_cons_of_mem _ hencoding))
    | stringLiteral hencoding => exact absurd htext.symm (hliteral (by decide) hencoding)
    | punctuator h =>
      subst htext
      have hclass := punctuatorChars_class c ((punctuator_chars _ h).2 c (List.mem_cons_self ..))
      rw [hclass.2.2.1] at hc
      cases hc

/-- The tokens that begin with a letter. -/
theorem PreprocessingToken.of_letter {kind : CTokenKind} {c : Char} {tail : List Char}
    (hc : isLetter c = true) (h : PreprocessingToken extended kind (c :: tail)) :
    kind = .identifier ∧ Identifier extended (c :: tail) ∨
      (kind = .characterConstant ∨ kind = .stringLiteral) ∧ PpText extended kind (c :: tail) := by
  generalize htext : c :: tail = text at h ⊢
  cases h with
  | other _ hnone =>
    obtain ⟨rfl, rfl⟩ := List.cons.inj htext
    exact absurd (.identifier (.start (.nondigit hc))) (hnone .identifier)
  | text h =>
    cases h with
    | identifier h => exact .inl ⟨rfl, h⟩
    | ppNumber h =>
      exfalso
      obtain ⟨c', tail', heq, hc' | ⟨hc', -⟩⟩ := h.head
      · obtain ⟨rfl, -⟩ := List.cons.inj (htext.trans heq)
        rw [isDigit_of_isLetter hc] at hc'
        cases hc'
      · obtain ⟨rfl, -⟩ := List.cons.inj (htext.trans heq)
        exact ne_of_class hc (by decide) hc'
    | characterConstant hencoding hbody hne =>
      exact .inr ⟨.inl rfl, .characterConstant hencoding hbody hne⟩
    | stringLiteral hencoding hbody => exact .inr ⟨.inr rfl, .stringLiteral hencoding hbody⟩
    | punctuator h =>
      subst htext
      have hclass := punctuatorChars_class c ((punctuator_chars _ h).2 c (List.mem_cons_self ..))
      rw [hclass.2.1] at hc
      cases hc

theorem number_agrees (hascii : classes.OnAscii) (hext : OutsideAscii extended) {c : Char}
    {rest text after : List Char} {kind : CTokenKind} (hc : c.isDigit = true)
    (h : Longest (PreprocessingToken extended) (c :: rest) kind text after) :
    (PpTokenKind.number, c :: rest.takeWhile (isNumberChar classes)) = (ppKind kind text, text) ↔
      PlainWord extended (rest.takeWhile (isNumberChar classes))
          (rest.dropWhile (isNumberChar classes)) ∧
        PlainExponent ((c :: rest.takeWhile (isNumberChar classes)).getLast (List.cons_ne_nil _ _))
          (rest.dropWhile (isNumberChar classes)) := by
  have hrest : (c :: rest.takeWhile (isNumberChar classes)) ++
      rest.dropWhile (isNumberChar classes) = c :: rest := by
    rw [List.cons_append, List.takeWhile_append_dropWhile]
  constructor
  · intro heq
    obtain ⟨-, rfl⟩ := Prod.mk.inj heq
    obtain ⟨rfl, hnumber⟩ := h.token.of_digit hc hext
    have hchars : ∀ d ∈ rest.takeWhile (isNumberChar classes), d.toNat < 128 ∨ extended d = true :=
      fun d hd => (hnumber.chars d (List.mem_cons_of_mem c hd)).own
    -- nothing longer is a number
    have hlonger : ∀ {text next : List Char}, PpNumber extended (text ++ next) →
        text = c :: rest.takeWhile (isNumberChar classes) → next ≠ [] →
        ¬ next <+: rest.dropWhile (isNumberChar classes) := by
      rintro text next hmore rfl hne hfront
      have hle := h.longest _ _ (.text (.ppNumber hmore))
        (hrest ▸ (List.prefix_append_right_inj _).2 hfront)
      rw [List.length_append] at hle
      have := List.length_pos_iff.2 hne
      omega
    refine ⟨⟨hchars, fun next hnext => ?_⟩, ?_⟩
    · obtain ⟨d, tail, rfl, -⟩ := hnext.head
      exact hlonger (.nondigit hnumber hnext) rfl (List.cons_ne_nil _ _)
    · intro s hs hlast hhead
      obtain ⟨behind, hbehind⟩ := List.head?_eq_some_iff.1 hhead
      have hsign : PpNumber extended ((c :: rest.takeWhile (isNumberChar classes)) ++ [s]) := by
        have hsplit := List.dropLast_append_getLast
          (List.cons_ne_nil c (rest.takeWhile (isNumberChar classes)))
        rw [← hsplit, List.append_assoc, List.singleton_append]
        refine .sign ?_ hlast hs
        cases hrun : rest.takeWhile (isNumberChar classes) with
        | nil =>
          simp only [hrun, List.getLast_singleton] at hlast
          exfalso
          revert hlast hc
          simp only [List.mem_cons, List.not_mem_nil, or_false]
          rintro hc (rfl | rfl | rfl | rfl) <;> cases hc
        | cons d run =>
          rw [List.dropLast_cons_of_ne_nil (List.cons_ne_nil d run)]
          refine PpNumber.append_run hascii (.digit hc) fun e he => ?_
          have hmem : e ∈ rest.takeWhile (isNumberChar classes) :=
            hrun ▸ List.mem_of_mem_dropLast he
          exact ⟨List.mem_takeWhile_imp hmem, hchars e hmem⟩
      exact hlonger hsign rfl (List.cons_ne_nil _ _) ⟨behind, hbehind.symm⟩
  · rintro ⟨⟨hchars, hstops⟩, hexponent⟩
    have hplain : Longest (PreprocessingToken extended) (c :: rest) .ppNumber
        (c :: rest.takeWhile (isNumberChar classes)) (rest.dropWhile (isNumberChar classes)) := by
      refine ⟨hrest, .text (.ppNumber ?_), fun kind' text' htoken hfront => ?_⟩
      · exact PpNumber.append_run hascii (.digit hc) fun d hd =>
          ⟨List.mem_takeWhile_imp hd, hchars d hd⟩
      · rcases List.prefix_cons_iff.1 hfront with rfl | ⟨tail, rfl, -⟩
        · exact Nat.zero_le _
        · obtain ⟨-, hnumber⟩ := htoken.of_digit hc hext
          exact (hnumber.prefix_run hascii hc hfront hstops hexponent).length_le
    obtain ⟨rfl, rfl, -⟩ := h.unique (PreprocessingToken.kind_unique hext) hplain
    rfl

theorem identifier_agrees (hascii : classes.OnAscii) (hext : OutsideAscii extended) {c : Char}
    {rest text after : List Char} {kind : CTokenKind} (hc : isLetter c = true)
    (h : Longest (PreprocessingToken extended) (c :: rest) kind text after) :
    (PpTokenKind.identifier, c :: rest.takeWhile (isIdentifierChar classes)) =
        (ppKind kind text, text) ↔
      PlainWord extended (rest.takeWhile (isIdentifierChar classes))
          (rest.dropWhile (isIdentifierChar classes)) ∧
        ∀ kind text, kind = .characterConstant ∨ kind = .stringLiteral →
          PpText extended kind text → ¬ text <+: c :: rest := by
  have hrest : (c :: rest.takeWhile (isIdentifierChar classes)) ++
      rest.dropWhile (isIdentifierChar classes) = c :: rest := by
    rw [List.cons_append, List.takeWhile_append_dropWhile]
  constructor
  · intro heq
    obtain ⟨hkind, rfl⟩ := Prod.mk.inj heq
    obtain ⟨rfl, hname⟩ : kind = .identifier ∧
        Identifier extended (c :: rest.takeWhile (isIdentifierChar classes)) := by
      rcases h.token.of_letter hc with hname | ⟨rfl | rfl, -⟩
      · exact hname
      · cases hkind
      · cases hkind
    refine ⟨⟨fun d hd => (hname.chars d (List.mem_cons_of_mem c hd)).own, fun next hnext hfront => ?_⟩,
      fun kind text hliteral htext hfront => ?_⟩
    · have hle := h.longest _ _ (.text (.identifier (.nondigit hname hnext)))
        (hrest ▸ (List.prefix_append_right_inj _).2 hfront)
      obtain ⟨d, tail, rfl, -⟩ := hnext.head
      simp only [List.length_append, List.length_cons] at hle
      omega
    · -- the literal would lie inside the word, with its quote
      have hinside : text <+: c :: rest.takeWhile (isIdentifierChar classes) :=
        List.prefix_of_prefix_length_le hfront h.text_front
          (h.longest _ _ (.text htext) hfront)
      have hquote : ∀ quote ∈ text, IsWordChar extended quote :=
        fun quote hmem => hname.chars quote (hinside.subset hmem)
      cases htext with
      | characterConstant => exact ((hquote '\'' (by simp)).ne_quote hext).2 rfl
      | stringLiteral => exact ((hquote '"' (by simp)).ne_quote hext).1 rfl
      | identifier => rcases hliteral with hliteral | hliteral <;> cases hliteral
      | ppNumber => rcases hliteral with hliteral | hliteral <;> cases hliteral
      | punctuator => rcases hliteral with hliteral | hliteral <;> cases hliteral
  · rintro ⟨⟨hchars, hstops⟩, hliteral⟩
    have hplain : Longest (PreprocessingToken extended) (c :: rest) .identifier
        (c :: rest.takeWhile (isIdentifierChar classes))
        (rest.dropWhile (isIdentifierChar classes)) := by
      refine ⟨hrest, .text (.identifier ?_), fun kind' text' htoken hfront => ?_⟩
      · exact Identifier.append_run hascii (.start (.nondigit hc)) fun d hd =>
          ⟨List.mem_takeWhile_imp hd, hchars d hd⟩
      · rcases List.prefix_cons_iff.1 hfront with rfl | ⟨tail, rfl, -⟩
        · exact Nat.zero_le _
        · rcases htoken.of_letter hc with ⟨-, hname⟩ | ⟨hkind, htext⟩
          · exact (hname.prefix_run hascii hc hfront hstops).length_le
          · exact absurd hfront (hliteral kind' _ hkind htext)
    obtain ⟨rfl, rfl, -⟩ := h.unique (PreprocessingToken.kind_unique hext) hplain
    rfl

end Words

section Punctuators

variable {classes : CharClasses} {extended : Char → Bool}

/-- The tokens that begin with another character. -/
theorem PreprocessingToken.of_other {kind : CTokenKind} {c : Char} {tail : List Char}
    (hquote : c ≠ '"' ∧ c ≠ '\'') (hdigit : c.isDigit = false) (hletter : isLetter c = false)
    (h : PreprocessingToken extended kind (c :: tail)) :
    (kind = .identifier ∨ kind = .ppNumber) ∧ (extended c = true ∨
        (∃ name, UniversalCharacterName name ∧ name <+: c :: tail) ∨
        c = '.' ∧ ∃ d more, tail = d :: more ∧ d.isDigit = true) ∨
      kind = .punctuator ∧ c :: tail ∈ punctuators ∨ kind = .other ∧ tail = [] := by
  have hliteral : ∀ {encoding body : List Char} {quote : Char}, c ≠ quote →
      encoding ∈ ['u', '8'] :: encodingPrefixes → c :: tail ≠ encoding ++ quote :: body := by
    intro encoding body quote hquote hencoding heq
    obtain ⟨c', tail', hhead, hfirst⟩ := literal_head quote body hencoding
    obtain ⟨rfl, -⟩ := List.cons.inj (heq.trans hhead)
    rcases hfirst with hfirst | hfirst
    · rw [hletter] at hfirst
      cases hfirst
    · exact hquote hfirst
  generalize htext : c :: tail = text at h
  cases h with
  | other =>
    obtain ⟨rfl, rfl⟩ := List.cons.inj htext
    exact .inr (.inr ⟨rfl, rfl⟩)
  | text h =>
    cases h with
    | identifier h =>
      obtain ⟨c', tail', heq, hc'⟩ := h.head
      obtain ⟨rfl, rfl⟩ := List.cons.inj (htext.trans heq)
      rcases hc' with hc' | hc' | ⟨-, hname⟩
      · rw [hletter] at hc'
        cases hc'
      · exact .inl ⟨.inl rfl, .inl hc'⟩
      · exact .inl ⟨.inl rfl, .inr (.inl (htext ▸ hname))⟩
    | ppNumber h =>
      obtain ⟨c', tail', heq, hc' | hc'⟩ := h.head
      · obtain ⟨rfl, -⟩ := List.cons.inj (htext.trans heq)
        rw [hdigit] at hc'
        cases hc'
      · obtain ⟨rfl, rfl⟩ := List.cons.inj (htext.trans heq)
        exact .inl ⟨.inr rfl, .inr (.inr hc')⟩
    | characterConstant hencoding =>
      exact absurd htext (hliteral hquote.2 (List.mem_cons_of_mem _ hencoding))
    | stringLiteral hencoding => exact absurd htext (hliteral hquote.1 hencoding)
    | punctuator h => exact .inr (.inl ⟨rfl, htext ▸ h⟩)

/-- The token of the last three arms. -/
def punctuatorLexeme (c : Char) (rest : List Char) : Lexeme :=
  (ppKind .punctuator (punctuatorAt c rest), punctuatorAt c rest)

theorem isTwoCharPunctuator_mem {text : List Char} (h : isTwoCharPunctuator text = true) :
    text ∈ punctuators := by
  obtain ⟨p, hp, heq⟩ := List.any_eq_true.1 h
  rw [beq_iff_eq] at heq
  subst heq
  revert p
  decide

theorem punctuatorAt_mem (c : Char) (rest : List Char) :
    punctuatorAt c rest ∈ punctuators ∨ punctuatorAt c rest = [c] := by
  unfold punctuatorAt
  split_ifs with hdots
  · exact .inl (by decide)
  · cases rest with
    | nil => exact .inr rfl
    | cons next more =>
      simp only
      split_ifs with hshift heq htwo
      · refine .inl ?_
        rcases hshift with hshift | hshift <;> cases hshift <;> decide
      · refine .inl ?_
        rcases hshift with hshift | hshift <;> cases hshift <;> decide
      · exact .inl (isTwoCharPunctuator_mem htwo)
      · exact .inr rfl

/-- How a punctuator of C is read: by one of the branches, or not at all. -/
theorem punctuators_read : ∀ text ∈ punctuators, text.length ≤ 1 ∨ text = ['.', '.', '.'] ∨
    text ∈ [['<', '<', '='], ['>', '>', '=']] ∨
    text.length = 2 ∧ isTwoCharPunctuator text = true ∨ text.take 2 ∈ digraphs := by
  decide

theorem two_le_punctuatorAt {a b : Char} (htwo : isTwoCharPunctuator [a, b] = true)
    (more : List Char) : 2 ≤ (punctuatorAt a (b :: more)).length := by
  unfold punctuatorAt
  split_ifs
  · exact Nat.le_succ 2
  · simp only [htwo, if_true]
    split_ifs
    · exact Nat.le_succ 2
    · exact Nat.le_refl 2
    · exact Nat.le_refl 2

/-- Only digraphs are cut short. -/
theorem length_le_punctuatorAt {c : Char} {rest text : List Char}
    (hdigraph : (c :: rest).take 2 ∉ digraphs) (h : text ∈ punctuators)
    (hfront : text <+: c :: rest) : text.length ≤ (punctuatorAt c rest).length := by
  obtain ⟨more, hmore⟩ := hfront
  rcases punctuators_read text h with hone | rfl | hshift | ⟨hlength, htwo⟩ | hdigraph'
  · exact Nat.le_trans hone (List.length_pos_iff.2 (punctuatorAt_ne_nil c rest))
  · obtain ⟨rfl, rfl⟩ := List.cons.inj hmore
    exact Nat.le_refl _
  · simp only [List.mem_cons, List.not_mem_nil, or_false] at hshift
    rcases hshift with rfl | rfl <;> obtain ⟨rfl, rfl⟩ := List.cons.inj hmore <;>
      exact Nat.le_refl _
  · obtain ⟨a, b, rfl⟩ := List.length_eq_two.1 hlength
    obtain ⟨rfl, rfl⟩ := List.cons.inj hmore
    exact two_le_punctuatorAt htwo more
  · exfalso
    apply hdigraph
    rw [← hmore]
    have htake : 2 ≤ text.length := by
      by_contra hshort
      have hlength : ∀ text ∈ digraphs, text.length = 2 := by decide
      have := hlength _ hdigraph'
      rw [List.length_take] at this
      omega
    rwa [List.take_append_of_le_length htake]

theorem length_punctuatorAt_le (c : Char) (rest : List Char) :
    (punctuatorAt c rest).length ≤ 4 := by
  rcases punctuatorAt_mem c rest with hmem | hone
  · have hlength : ∀ text ∈ punctuators, text.length ≤ 4 := by decide
    exact hlength _ hmem
  · rw [hone]
    exact Nat.succ_le_succ (Nat.zero_le 3)

/-- A digraph is read as its first character. -/
theorem punctuatorAt_digraph {c : Char} {rest : List Char} (h : (c :: rest).take 2 ∈ digraphs) :
    punctuatorAt c rest = [c] := by
  cases rest with
  | nil =>
    have hlength : ∀ text ∈ digraphs, text.length = 2 := by decide
    exact absurd (hlength _ h) (by simp)
  | cons next more =>
    have hnot : ∀ a b, [a, b] ∈ digraphs → a ≠ '.' ∧ isTwoCharPunctuator [a, b] = false ∧
        ¬ ([a, b] = ['<', '<'] ∨ [a, b] = ['>', '>']) := by
      intro a b hab
      simp only [digraphs, List.mem_cons, List.not_mem_nil, or_false, List.cons.injEq, and_true] at hab
      rcases hab with ⟨rfl, rfl⟩ | ⟨rfl, rfl⟩ | ⟨rfl, rfl⟩ | ⟨rfl, rfl⟩ | ⟨rfl, rfl⟩ <;> decide
    obtain ⟨hdot, htwo, hshift⟩ := hnot c next h
    simp only [punctuatorAt, hdot, false_and, if_false, if_neg hshift, htwo, Bool.false_eq_true]

/-- A longest token of C that is a punctuator, or no token of another kind, as it is read here. -/
theorem plainPunctuator_of_longest (hext : OutsideAscii extended) {c : Char} {rest after : List Char}
    {kind : CTokenKind} (hquote : c ≠ '"' ∧ c ≠ '\'') (hdigit : c.isDigit = false)
    (hletter : isLetter c = false) (hkind : kind = .punctuator ∨ kind = .other)
    (h : Longest (PreprocessingToken extended) (c :: rest) kind (punctuatorAt c rest) after) :
    PlainPunctuator extended c rest := by
  obtain ⟨tail, htail, hfront⟩ := punctuatorAt_prefix c rest
  have htoken := h.token
  rw [htail] at htoken
  have hmem : c :: tail ∈ punctuators ∨ kind = .other ∧ tail = [] := by
    rcases htoken.of_other hquote hdigit hletter with ⟨hword, -⟩ | ⟨-, hmem⟩ | hother
    · rcases hkind with rfl | rfl <;> rcases hword with hword | hword <;> cases hword
    · exact .inl hmem
    · exact .inr hother
  have hshort := length_punctuatorAt_le c rest
  have hlongest : ∀ kind' text', PpText extended kind' text' → text' <+: c :: rest →
      text'.length ≤ (punctuatorAt c rest).length := fun kind' text' htext' hfront' =>
    h.longest kind' text' (.text htext') hfront'
  refine ⟨?_, ?_, ?_, ?_⟩
  · by_contra hextended
    rw [Bool.not_eq_false] at hextended
    rcases hmem with hmem | ⟨rfl, rfl⟩
    · have hchar := (punctuator_chars _ hmem).2 c (List.mem_cons_self ..)
      exact hext.ne hextended (punctuatorChars_class c hchar).1 rfl
    · cases htoken with
      | text htext' => cases htext'
      | other _ hnone => exact hnone .identifier (.identifier (.start (.extended hextended)))
  · intro name hname hfront'
    have hle := hlongest _ _ (.identifier (.start (.universal hname))) hfront'
    have hlong : 6 ≤ name.length := by
      cases hname with
      | short hlength => simp [hlength]
      | long hlength => simp [hlength]
    omega
  · rintro d rfl hhead
    by_contra hd
    rw [Bool.not_eq_false] at hd
    obtain ⟨more, rfl⟩ := List.head?_eq_some_iff.1 hhead
    have hle := hlongest _ _ (.ppNumber (.dotDigit hd)) (by simp)
    rcases hmem with hmem | ⟨-, rfl⟩
    · cases tail with
      | nil =>
        rw [htail] at hle
        exact absurd hle (by simp)
      | cons e tail =>
        obtain ⟨rfl, -⟩ := List.cons_prefix_cons.1 hfront
        have hchar := (punctuator_chars _ hmem).2 e (by simp)
        rw [(punctuatorChars_class e hchar).2.2.1] at hd
        cases hd
    · rw [htail] at hle
      exact absurd hle (by simp)
  · intro hdigraph
    have hpunctuator : ∀ text ∈ digraphs, text ∈ punctuators ∧ text.length = 2 := by decide
    obtain ⟨hin, hlength⟩ := hpunctuator _ hdigraph
    have hle := hlongest _ _ (.punctuator hin) (List.take_prefix 2 _)
    rw [hlength, punctuatorAt_digraph hdigraph] at hle
    exact absurd hle (by simp)

/-- What is read here is the longest token of C. -/
theorem PlainPunctuator.longest {c : Char} {rest : List Char} (hquote : c ≠ '"' ∧ c ≠ '\'')
    (hdigit : c.isDigit = false) (hletter : isLetter c = false)
    (hwhite : isCWhiteSpace c = false ∧ c ≠ '\n') (h : PlainPunctuator extended c rest) :
    ∃ kind after, (kind = .punctuator ∨ kind = .other ∧ punctuatorAt c rest ∉ punctuators) ∧
      Longest (PreprocessingToken extended) (c :: rest) kind (punctuatorAt c rest) after := by
  obtain ⟨hextended, huniversal, hnumber, hdigraph⟩ := h
  obtain ⟨tail, htail, hfront⟩ := punctuatorAt_prefix c rest
  have hword : ∀ {tail : List Char}, c :: tail <+: c :: rest → ¬ (extended c = true ∨
      (∃ name, UniversalCharacterName name ∧ name <+: c :: tail) ∨
      c = '.' ∧ ∃ d more, tail = d :: more ∧ d.isDigit = true) := by
    rintro tail hfront' (hextended' | ⟨name, hname, hname'⟩ | ⟨hdot, d, more, rfl, hd⟩)
    · rw [hextended] at hextended'
      cases hextended'
    · exact huniversal name hname (hname'.trans hfront')
    · obtain ⟨-, behind, rfl⟩ := List.cons_prefix_cons.1 hfront'
      rw [hnumber d hdot rfl] at hd
      cases hd
  have hlongest : ∀ kind' text', PreprocessingToken extended kind' text' → text' <+: c :: rest →
      text'.length ≤ (punctuatorAt c rest).length := by
    intro kind' text' htoken hfront'
    rcases List.prefix_cons_iff.1 hfront' with rfl | ⟨tail', rfl, -⟩
    · exact Nat.zero_le _
    rcases htoken.of_other hquote hdigit hletter with ⟨-, hother⟩ | ⟨-, hmem⟩ | ⟨-, rfl⟩
    · exact absurd hother (hword hfront')
    · exact length_le_punctuatorAt hdigraph hmem hfront'
    · exact List.length_pos_iff.2 (punctuatorAt_ne_nil c rest)
  have hsplit : punctuatorAt c rest ++ (c :: rest).drop (punctuatorAt c rest).length = c :: rest := by
    obtain ⟨more, rfl⟩ := hfront
    rw [htail]
    simp
  by_cases hmem : punctuatorAt c rest ∈ punctuators
  · exact ⟨.punctuator, _, .inl rfl, hsplit, .text (.punctuator hmem), hlongest⟩
  · have hone : punctuatorAt c rest = [c] := (punctuatorAt_mem c rest).resolve_left hmem
    have hnone : ∀ kind', ¬ PpText extended kind' [c] := by
      intro kind' htext
      rcases (PreprocessingToken.text htext).of_other hquote hdigit hletter with
        ⟨-, hother⟩ | ⟨-, hmem'⟩ | ⟨rfl, -⟩
      · exact hword (by simp) hother
      · exact hmem (hone ▸ hmem')
      · cases htext
    have htoken : PreprocessingToken extended .other (punctuatorAt c rest) :=
      hone ▸ PreprocessingToken.other hwhite hnone
    exact ⟨.other, _, .inr ⟨rfl, hmem⟩, hsplit, htoken, hlongest⟩

theorem punctuator_agrees (hext : OutsideAscii extended) {c : Char} {rest text after : List Char}
    {kind : CTokenKind} (hquote : c ≠ '"' ∧ c ≠ '\'') (hdigit : c.isDigit = false)
    (hletter : isLetter c = false) (hwhite : isCWhiteSpace c = false ∧ c ≠ '\n')
    (h : Longest (PreprocessingToken extended) (c :: rest) kind text after) :
    punctuatorLexeme c rest = (ppKind kind text, text) ↔ PlainPunctuator extended c rest := by
  constructor
  · intro heq
    obtain ⟨hkind, rfl⟩ := Prod.mk.inj heq
    refine plainPunctuator_of_longest hext hquote hdigit hletter ?_ h
    simp only [ppKind] at hkind
    cases kind with
    | punctuator => exact .inl rfl
    | other => exact .inr rfl
    | identifier => split_ifs at hkind
    | ppNumber => split_ifs at hkind
    | characterConstant => split_ifs at hkind
    | stringLiteral => split_ifs at hkind
  · intro hplain
    obtain ⟨kind', after', hkind', hlongest⟩ := hplain.longest hquote hdigit hletter hwhite
    obtain ⟨rfl, rfl, -⟩ := h.unique (PreprocessingToken.kind_unique hext) hlongest
    rcases hkind' with rfl | ⟨rfl, hmem⟩
    · rfl
    · have hhash : punctuatorAt c rest ≠ ['#'] ∧ punctuatorAt c rest ≠ ['%', ':'] ∧
          punctuatorAt c rest ≠ ['#', '#'] ∧ punctuatorAt c rest ≠ ['%', ':', '%', ':'] := by
        refine ⟨?_, ?_, ?_, ?_⟩ <;> rintro heq <;> exact hmem (heq ▸ by decide)
      simp [punctuatorLexeme, ppKind, hhash]

theorem punctuatorAt_ne_digraph (c : Char) (rest : List Char) :
    punctuatorAt c rest ≠ ['%', ':'] ∧ punctuatorAt c rest ≠ ['%', ':', '%', ':'] := by
  unfold punctuatorAt
  split_ifs
  · decide
  · cases rest with
    | nil => simp
    | cons next more =>
      simp only
      split_ifs with hshift _ htwo
      · simp
      · rcases hshift with hshift | hshift <;> cases hshift <;> decide
      · refine ⟨fun heq => ?_, by simp⟩
        rw [heq] at htwo
        exact absurd htwo (by decide)
      · simp

theorem Arm.eq_punctuatorLexeme {c : Char} {rest after : List Char} {lexeme : Lexeme}
    (h : Arm classes c rest lexeme after) (hcomment : ¬ startsComment c rest)
    (hwhite : isBlank c = false ∧ c ≠ '\n') (hquote : c ≠ '"' ∧ c ≠ '\'')
    (hdigit : c.isDigit = false) (hletter : isLetter c = false) :
    lexeme = punctuatorLexeme c rest := by
  cases h with
  | newline => exact absurd rfl hwhite.2
  | blank _ h =>
    rw [hwhite.1] at h
    cases h
  | quoted _ h => rcases h with rfl | rfl <;> simp at hquote
  | lineComment => exact absurd ⟨rfl, .inl rfl⟩ hcomment
  | blockComment => exact absurd ⟨rfl, .inr rfl⟩ hcomment
  | number _ h =>
    rw [hdigit] at h
    cases h
  | identifier _ h =>
    rw [isLetter_iff.2 h] at hletter
    cases hletter
  | hashHash rest => rfl
  | hash _ h =>
    have hone : punctuatorAt '#' rest = ['#'] := by
      cases rest with
      | nil => rfl
      | cons next more =>
        have htwo : isTwoCharPunctuator ['#', next] = false := by
          rw [← Bool.not_eq_true]
          intro htwo
          obtain ⟨p, hp, heq⟩ := List.any_eq_true.1 htwo
          rw [beq_iff_eq] at heq
          have hhash : ∀ p ∈ ["==", "!=", "<=", ">=", "&&", "||", "<<", ">>", "++", "--", "->",
              "+=", "-=", "*=", "/=", "%=", "&=", "|=", "^=", "##"],
              p.toList.head? = some '#' → p.toList = ['#', '#'] := by decide
          have := hhash p hp (by rw [heq]; rfl)
          rw [heq] at this
          exact h (by simpa using this)
        simp [punctuatorAt, htwo]
    simp [punctuatorLexeme, hone, ppKind]
  | punctuator _ h =>
    obtain ⟨tail, htail, -⟩ := punctuatorAt_prefix c rest
    have hhash : punctuatorAt c rest ≠ ['#'] ∧ punctuatorAt c rest ≠ ['#', '#'] := by
      rw [htail]
      exact ⟨fun heq => h.hash (List.cons.inj heq).1, fun heq => h.hash (List.cons.inj heq).1⟩
    simp [punctuatorLexeme, ppKind, hhash, punctuatorAt_ne_digraph c rest]

end Punctuators

section Texts

variable {classes : CharClasses} {extended : Char → Bool}

/-- One token is read as C's where the text at it is plain. -/
theorem readToken_agrees (hascii : classes.OnAscii) (hext : OutsideAscii extended) {c : Char}
    {rest text after : List Char} {kind : CTokenKind} (hcomment : ¬ startsComment c rest)
    (hwhite : isCWhiteSpace c = false ∧ c ≠ '\n')
    (h : Longest (PreprocessingToken extended) (c :: rest) kind text after) :
    (readToken classes c rest).1 = (ppKind kind text, text) ↔ PlainAt classes extended c rest := by
  have harm := arm_readToken classes c rest
  have hblank : isBlank c = false := by
    have := hwhite.1
    simp only [isCWhiteSpace, Bool.or_eq_false_iff] at this
    exact this.1.1
  by_cases hquote : c = '"' ∨ c = '\''
  · rw [readToken_of_arm classes (.quoted rest hquote), PlainAt, if_pos hquote]
    exact literal_agrees hext hquote h
  · by_cases hdigit : c.isDigit = true
    · rw [readToken_of_arm classes (.number rest hdigit), PlainAt, if_neg hquote, if_pos hdigit]
      exact number_agrees hascii hext hdigit h
    · by_cases hletter : isLetter c = true
      · rw [readToken_of_arm classes (.identifier rest (isLetter_iff.1 hletter)), PlainAt,
          if_neg hquote, if_neg hdigit, if_pos hletter]
        exact identifier_agrees hascii hext hletter h
      · rw [PlainAt, if_neg hquote, if_neg hdigit, if_neg hletter]
        rw [Bool.not_eq_true] at hdigit hletter
        rw [harm.eq_punctuatorLexeme hcomment ⟨hblank, hwhite.2⟩ (not_or.1 hquote) hdigit hletter]
        exact punctuator_agrees hext (not_or.1 hquote) hdigit hletter hwhite h

/-- No continuation stands in the text. -/
def Unspliced (text : List Char) : Prop := ∀ rest, rest <:+ text → skipSplice rest = none

theorem Unspliced.suffix {text rest : List Char} (h : Unspliced text) (hsuffix : rest <:+ text) :
    Unspliced rest :=
  fun behind hbehind => h behind (hbehind.trans hsuffix)

theorem Unspliced.tail {c : Char} {rest : List Char} (h : Unspliced (c :: rest)) : Unspliced rest :=
  h.suffix (List.suffix_cons c rest)

/-- The tokens that are not white space. -/
def visible (lexemes : List Lexeme) : List Lexeme :=
  lexemes.filter fun lexeme => lexeme.1 ≠ .whitespace

/-- White space is horizontal, and every token of C is plain. -/
inductive PlainText (classes : CharClasses) (extended : Char → Bool) : List Char → Prop
  | nil : PlainText classes extended []
  | blank {c rest} (hc : isBlank c = true) (hrest : PlainText classes extended rest) :
    PlainText classes extended (c :: rest)
  | newline {rest} (hrest : PlainText classes extended rest) :
    PlainText classes extended ('\n' :: rest)
  | token {c rest kind text after}
    (h : Longest (PreprocessingToken extended) (c :: rest) kind text after)
    (hplain : PlainAt classes extended c rest) (hafter : PlainText classes extended after) :
    PlainText classes extended (c :: rest)

theorem isCWhiteSpace_iff {c : Char} :
    isCWhiteSpace c = true ↔ c ∈ [' ', '\t', '\r', '\x0b', '\x0c'] := by
  simp [isCWhiteSpace, isBlank]
  tauto

/-- No token begins with white space. -/
theorem PreprocessingToken.head (hext : OutsideAscii extended) {kind : CTokenKind} {text : List Char}
    (h : PreprocessingToken extended kind text) :
    ∃ c tail, text = c :: tail ∧ isCWhiteSpace c = false ∧ c ≠ '\n' := by
  have hne : ∀ {c : Char}, (∀ d, d ∈ [' ', '\t', '\r', '\x0b', '\x0c'] ∨ d = '\n' → c ≠ d) →
      isCWhiteSpace c = false ∧ c ≠ '\n' := by
    intro c hc
    refine ⟨?_, hc _ (.inr rfl)⟩
    rw [← Bool.not_eq_true, isCWhiteSpace_iff]
    exact fun hmem => hc c (.inl hmem) rfl
  have hwhite : ∀ d, d ∈ [' ', '\t', '\r', '\x0b', '\x0c'] ∨ d = '\n' →
      d.toNat < 128 ∧ isLetter d = false ∧ d.isDigit = false ∧ d ≠ '\\' ∧ d ≠ '.' := by
    intro d hd
    simp only [List.mem_cons, List.not_mem_nil, or_false] at hd
    rcases hd with (rfl | rfl | rfl | rfl | rfl) | rfl <;> decide
  have hliteral : ∀ (encoding body : List Char) (quote : Char), quote = '"' ∨ quote = '\'' →
      encoding ∈ ['u', '8'] :: encodingPrefixes →
      ∃ c tail, encoding ++ quote :: body = c :: tail ∧ isCWhiteSpace c = false ∧ c ≠ '\n' := by
    intro encoding body quote hquote hencoding
    obtain ⟨c, tail, hhead, hletter | rfl⟩ := literal_head quote body hencoding
    · exact ⟨c, tail, hhead, hne fun d hd => ne_of_class hletter (hwhite d hd).2.1⟩
    · refine ⟨c, tail, hhead, ?_⟩
      rcases hquote with rfl | rfl <;> decide
  cases h with
  | other hc => exact ⟨_, [], rfl, hc⟩
  | text h =>
    cases h with
    | identifier h =>
      obtain ⟨c, tail, rfl, hc⟩ := h.head
      refine ⟨c, tail, rfl, hne fun d hd => ?_⟩
      obtain ⟨hascii, hletter, -, hescape, -⟩ := hwhite d hd
      rcases hc with hc | hc | ⟨rfl, -⟩
      · exact ne_of_class hc hletter
      · exact hext.ne hc hascii
      · exact hescape.symm
    | ppNumber h =>
      obtain ⟨c, tail, rfl, hc⟩ := h.head
      refine ⟨c, tail, rfl, hne fun d hd => ?_⟩
      obtain ⟨-, -, hdigit, -, hdot⟩ := hwhite d hd
      rcases hc with hc | ⟨rfl, -⟩
      · exact ne_of_class hc hdigit
      · exact hdot.symm
    | characterConstant hencoding =>
      exact hliteral _ _ _ (.inr rfl) (List.mem_cons_of_mem _ hencoding)
    | stringLiteral hencoding => exact hliteral _ _ _ (.inl rfl) hencoding
    | punctuator h =>
      obtain ⟨hne, hchars⟩ := punctuator_chars _ h
      obtain ⟨c, tail, rfl⟩ := List.exists_cons_of_ne_nil hne
      obtain ⟨-, -, -, hwhite, hnl, -⟩ := punctuatorChars_class c (hchars c (List.mem_cons_self ..))
      exact ⟨c, tail, rfl, hwhite, hnl⟩

theorem longest_head (hext : OutsideAscii extended) {c : Char} {rest text after : List Char}
    {kind : CTokenKind} (h : Longest (PreprocessingToken extended) (c :: rest) kind text after) :
    (∃ tail, text = c :: tail) ∧ isCWhiteSpace c = false ∧ c ≠ '\n' := by
  obtain ⟨d, tail, rfl, hwhite⟩ := h.token.head hext
  obtain ⟨rfl, -⟩ := List.cons_prefix_cons.1 h.text_front
  exact ⟨⟨tail, rfl⟩, hwhite⟩

theorem isBlank_of_white {c : Char} (h : isCWhiteSpace c = false) : isBlank c = false := by
  simp only [isCWhiteSpace, Bool.or_eq_false_iff] at h
  exact h.1.1

/-- No token of C begins with white space. -/
theorem Lexed.heads (hext : OutsideAscii extended) {text : List Char} {lexemes : List Lexeme}
    (h : Lexed extended text lexemes) :
    ∀ lexeme ∈ lexemes, ∃ c tail, lexeme.2 = c :: tail ∧ isCWhiteSpace c = false := by
  induction h with
  | nil => exact fun lexeme h => absurd h List.not_mem_nil
  | whiteSpace _ _ ih => exact ih
  | newline _ ih =>
    rintro lexeme (_ | ⟨_, h⟩)
    · exact ⟨'\n', [], rfl, by decide⟩
    · exact ih lexeme h
  | @token c rest kind text after lexemes _ hlongest _ ih =>
    rintro lexeme (_ | ⟨_, h⟩)
    · obtain ⟨⟨tail, htail⟩, hwhite, -⟩ := longest_head hext hlongest
      exact ⟨c, tail, htail, hwhite⟩
    · exact ih lexeme h

/-- Only blanks and comments are white space to the tokenizer. -/
theorem Arm.not_whitespace {c : Char} {rest after : List Char} {lexeme : Lexeme}
    (h : Arm classes c rest lexeme after) (hblank : isBlank c = false)
    (hcomment : ¬ startsComment c rest) : lexeme.1 ≠ .whitespace := by
  cases h with
  | blank _ h =>
    rw [hblank] at h
    cases h
  | lineComment => exact absurd ⟨rfl, .inl rfl⟩ hcomment
  | blockComment => exact absurd ⟨rfl, .inr rfl⟩ hcomment
  | quoted _ h => rcases h with rfl | rfl <;> exact fun h => by cases h
  | _ => exact fun h => by cases h

theorem visible_readTokens_blank {c : Char} {rest : List Char} (hc : isBlank c = true)
    (hrest : skipSplice rest = none) :
    visible (readTokens classes (c :: rest)) = visible (readTokens classes rest) := by
  have hone : ∀ {c : Char} {rest : List Char}, isBlank c = true →
      visible (readTokens classes (c :: rest)) =
        visible (readTokens classes (rest.dropWhile isBlank)) := by
    intro c rest hc
    rw [readTokens_cons classes (skipSplice_of_ne (ne_of_class hc rfl) rest),
      readToken_of_arm classes (.blank rest hc)]
    rfl
  rw [hone hc]
  cases rest with
  | nil => rfl
  | cons d rest =>
    by_cases hd : isBlank d = true
    · rw [List.dropWhile_cons_of_pos hd, hone hd]
    · rw [List.dropWhile_cons_of_neg hd]

theorem visible_readTokens_cons {c : Char} {rest : List Char} (hnone : skipSplice (c :: rest) = none)
    (hblank : isBlank c = false) (hcomment : ¬ startsComment c rest) :
    visible (readTokens classes (c :: rest)) =
      (readToken classes c rest).1 :: visible (readTokens classes (readToken classes c rest).2) := by
  have hkind := (arm_readToken classes c rest).not_whitespace hblank hcomment
  rw [readTokens_cons classes hnone, visible, List.filter_cons_of_pos (by simpa using hkind), visible]

theorem visible_readTokens_iff (hascii : classes.OnAscii) (hext : OutsideAscii extended)
    {text : List Char} {lexemes : List Lexeme} (hlexed : Lexed extended text lexemes)
    (hsplice : Unspliced text) :
    visible (readTokens classes text) = lexemes ↔ PlainText classes extended text := by
  induction hlexed with
  | nil =>
    rw [readTokens_nil]
    exact ⟨fun _ => .nil, fun _ => rfl⟩
  | @whiteSpace c rest lexemes hc hrest ih =>
    have htoken : ∀ {kind text after},
        ¬ Longest (PreprocessingToken extended) (c :: rest) kind text after := by
      intro kind text after h
      rw [(longest_head hext h).2.1] at hc
      cases hc
    by_cases hblank : isBlank c = true
    · rw [visible_readTokens_blank hblank (hsplice rest (List.suffix_cons c rest)), ih hsplice.tail]
      constructor
      · exact .blank hblank
      · intro h
        cases h with
        | blank _ hrest => exact hrest
        | newline hrest => exact hrest
        | token h => exact absurd h htoken
    · -- a vertical tab or a form feed is a token to the tokenizer
      rw [Bool.not_eq_true] at hblank
      have hcomment : ¬ startsComment c rest := by
        rintro ⟨rfl, -⟩
        cases hc
      rw [visible_readTokens_cons (hsplice _ (List.suffix_refl _)) hblank hcomment]
      refine iff_of_false ?_ ?_
      · rintro rfl
        obtain ⟨tail, htail⟩ := (arm_readToken classes c rest).text_eq
        obtain ⟨d, tail', htail', hd⟩ := hrest.heads hext _ (List.mem_cons_self ..)
        rw [(List.cons.inj (htail.symm.trans htail')).1] at hc
        rw [hd] at hc
        cases hc
      · intro h
        cases h with
        | blank hc' =>
          rw [hblank] at hc'
          cases hc'
        | newline => cases hc
        | token h => exact htoken h
  | @newline rest lexemes _ ih =>
    rw [visible_readTokens_cons (skipSplice_of_ne (by decide) rest) rfl (by rintro ⟨h, -⟩; cases h),
      readToken_of_arm classes (.newline rest), List.cons.injEq, ih hsplice.tail]
    constructor
    · exact fun h => .newline h.2
    · intro h
      refine ⟨rfl, ?_⟩
      cases h with
      | blank hc => cases hc
      | newline hrest => exact hrest
      | token h => exact absurd rfl (longest_head hext h).2.2
  | @token c rest kind text after lexemes hcomment h _ ih =>
    obtain ⟨-, hwhite⟩ := longest_head hext h
    have hconcat := (arm_readToken classes c rest).concat
    have hagrees := readToken_agrees hascii hext hcomment hwhite h
    have hafter : after <:+ c :: rest := ⟨text, h.split⟩
    rw [visible_readTokens_cons (hsplice _ (List.suffix_refl _)) (isBlank_of_white hwhite.1) hcomment,
      List.cons.injEq]
    -- behind the same text both go on at the same place
    have hsame : (readToken classes c rest).1 = (ppKind kind text, text) →
        (readToken classes c rest).2 = after := by
      intro heq
      rw [heq] at hconcat
      exact List.append_cancel_left (hconcat.trans h.split.symm)
    constructor
    · rintro ⟨heq, htokens⟩
      rw [hsame heq] at htokens
      exact .token h (hagrees.1 heq) ((ih (hsplice.suffix hafter)).1 htokens)
    · intro hplain
      cases hplain with
      | blank hc =>
        rw [isBlank_of_white hwhite.1] at hc
        cases hc
      | newline => exact absurd rfl hwhite.2
      | token h' hplain hafter' =>
        obtain ⟨-, -, rfl⟩ := h.unique (PreprocessingToken.kind_unique hext) h'
        have heq := hagrees.2 hplain
        refine ⟨heq, ?_⟩
        rw [hsame heq]
        exact (ih (hsplice.suffix hafter)).2 hafter'

/-- The tokens of `tokenize_pp_source` but white space are C's preprocessing tokens just when the
text is plain at each of them. -/
theorem tokenizePpSource_isC_iff (hascii : classes.OnAscii) (hext : OutsideAscii extended)
    {text : List Char} {lexemes : List Lexeme} (hlexed : Lexed extended text lexemes)
    (hsplice : Unspliced text) (line col : ℕ) :
    visible ((tokenizePpSource classes text line col).map PpToken.lexeme) = lexemes ↔
      PlainText classes extended text := by
  rw [map_lexeme_tokenize]
  exact visible_readTokens_iff hascii hext hlexed hsplice

theorem tokenizePpSource_isC_assignment :
    visible ((tokenizePpSource ⟨Char.isAlpha, Char.isDigit⟩ ['+', '='] 1 1).map PpToken.lexeme) =
      [(.punctuator, ['+', '='])] := by
  have hlongest : Longest (PreprocessingToken fun _ => false) ['+', '='] .punctuator ['+', '='] [] :=
    .whole (.text (.punctuator (by decide)))
  have hlexed : Lexed (fun _ => false) ['+', '='] [(.punctuator, ['+', '='])] :=
    .token (by decide) hlongest .nil
  have hsplice : Unspliced ['+', '='] := by
    rintro rest hrest
    cases hskip : skipSplice rest with
    | none => rfl
    | some behind =>
      exfalso
      have hmem : '\\' ∈ ['+', '='] := by
        rcases skipSplice_eq_some.1 hskip with rfl | rfl
        · exact hrest.subset (List.mem_cons_self ..)
        · exact hrest.subset (List.mem_cons_self ..)
      exact absurd hmem (by decide)
  refine (tokenizePpSource_isC_iff (fun _ _ => rfl) (fun _ h => by cases h) hlexed hsplice 1 1).2 ?_
  refine .token hlongest ⟨rfl, fun name hname hfront => ?_, fun d hdot => ?_, by decide⟩ .nil
  · obtain ⟨tail, rfl⟩ := hname.head
    exact absurd (List.cons_prefix_cons.1 hfront).1 (by decide)
  · cases hdot

/-- The sign of an exponent: one number in C. -/
theorem not_isC_exponent :
    ¬ ∀ lexemes, Lexed (fun _ => false) ['1', 'e', '+', '5'] lexemes →
      visible ((tokenizePpSource ⟨Char.isAlpha, Char.isDigit⟩ ['1', 'e', '+', '5'] 1 1).map
        PpToken.lexeme) = lexemes := by
  intro h
  have hsign : PpNumber (fun _ => false) (['1'] ++ ['e', '+']) :=
    .sign (.digit (by decide)) (by decide) (by decide)
  have hnumber : PpNumber (fun _ => false) (['1', 'e', '+'] ++ ['5']) :=
    .moreDigit hsign (by decide)
  have hlexed : Lexed (fun _ => false) ['1', 'e', '+', '5'] [(.number, ['1', 'e', '+', '5'])] :=
    .token (by decide) (.whole (.text (.ppNumber hnumber))) .nil
  exact absurd (h _ hlexed) (by decide +kernel)

end Texts

end OpticC.Preprocessor
