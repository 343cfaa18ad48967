import Mathlib.Data.List.Forall2
import OpticC.Frontend.ArgumentLists
import OpticC.Frontend.LineSplicing

/-! The line of a token is that of the counter when the token is pushed. The counter misses the
newline of a `//` comment and those of a literal, and a `/* */` comment is pushed behind its own. -/

namespace OpticC.Preprocessor

section Definitions

variable (classes : CharClasses)

def newlines (text : List Char) : ℕ := text.count '\n'

/-- The source text in front of each token of `text`, which itself stands behind `front`. -/
def frontsOf (front text : List Char) : List (List Char) :=
  match _hsplice : skipSplice text with
  | some rest => frontsOf (front ++ text.take (text.length - rest.length)) rest
  | none =>
    match text with
    | [] => []
    | c :: rest =>
      have := length_lexToken_le classes c rest 1 1
      front :: frontsOf (front ++ (readToken classes c rest).1.2) (readToken classes c rest).2
termination_by text.length
decreasing_by
  · exact length_skipSplice_lt _hsplice
  · exact Nat.lt_succ_of_le this

/-- The token `__LINE__` of a text line becomes the number `line`. -/
def ExpandsTo (file : String) (t : PpToken) (line : ℕ) : Prop :=
  t.kind = .identifier → t.text = "__LINE__" → ∀ chars table fuel rest result,
    expandMacroTokens chars table (fuel + 1) rest = .ok result →
    ∃ literal : Token, literal.kind = .intLiteral ∧ literal.text = toString line ∧
      expandMacroTokens chars table (fuel + 1) (ppTokenToToken file t ++ rest) =
        .ok (literal :: result)

/-- Every token of a text carries the line of its first character. -/
structure LinesExact (text : List Char) (file : String) (baseLine : ℕ) : Prop where
  lines : List.Forall₂ (fun t front => t.line = baseLine + newlines front)
    (tokenizePpSource classes text baseLine 1) (frontsOf classes [] text)
  expands : List.Forall₂ (fun t front => ExpandsTo file t (baseLine + newlines front))
    (tokenizePpSource classes text baseLine 1) (frontsOf classes [] text)

def startsBlock (c : Char) (rest : List Char) : Prop := c = '/' ∧ rest.head? = some '*'

instance (c : Char) (rest : List Char) : Decidable (startsBlock c rest) :=
  inferInstanceAs (Decidable (_ ∧ _))

/-- Nothing but `/* */` comments of `missed` newlines each. -/
inductive CommentsOf (missed : ℕ) : List Char → Prop
  | nil : CommentsOf missed []
  | skip {text rest} (hsplice : skipSplice text = some rest) (hrest : CommentsOf missed rest) :
    CommentsOf missed text
  | comment {c rest lexeme after} (harm : Arm classes c rest lexeme after)
    (hblock : startsBlock c rest) (hcount : newlines lexeme.2 = missed)
    (hafter : CommentsOf missed after) : CommentsOf missed (c :: rest)

/-- No newline stands inside a token; a literal or a `//` comment with newlines in it may end the
text, with such comments behind it as have the same number of newlines. -/
inductive KeepsLines : List Char → Prop
  | nil : KeepsLines []
  | skip {text rest} (hsplice : skipSplice text = some rest) (hrest : KeepsLines rest) :
    KeepsLines text
  | newline {rest} (hrest : KeepsLines rest) : KeepsLines ('\n' :: rest)
  | token {c rest lexeme after} (hnone : skipSplice (c :: rest) = none)
    (harm : Arm classes c rest lexeme after) (hinside : '\n' ∉ lexeme.2)
    (hafter : KeepsLines after) : KeepsLines (c :: rest)
  | last {c rest lexeme after} (hnone : skipSplice (c :: rest) = none)
    (harm : Arm classes c rest lexeme after) (hnewline : c ≠ '\n') (hblock : ¬ startsBlock c rest)
    (hinside : '\n' ∈ lexeme.2) (hafter : CommentsOf classes (newlines lexeme.2) after) :
    KeepsLines (c :: rest)

end Definitions

section Counting

variable {classes : CharClasses}

@[simp] theorem newlines_nil : newlines [] = 0 := rfl

@[simp] theorem newlines_append (a b : List Char) :
    newlines (a ++ b) = newlines a + newlines b := List.count_append

theorem newlines_cons_ne {c : Char} (h : c ≠ '\n') (text : List Char) :
    newlines (c :: text) = newlines text := List.count_cons_of_ne h

theorem newlines_cons_newline (text : List Char) : newlines ('\n' :: text) = newlines text + 1 :=
  List.count_cons_self

theorem newlines_eq_zero_iff {text : List Char} : newlines text = 0 ↔ '\n' ∉ text :=
  List.count_eq_zero

/-- The counter takes every newline of a block comment. -/
theorem scanBlockComment_line (text : List Char) (line col : ℕ) :
    (scanBlockComment text line col).2.2.1 =
      line + newlines (scanBlockComment text line col).1 := by
  induction text generalizing line col with
  | nil => rfl
  | cons c rest ih =>
    unfold scanBlockComment
    split_ifs with hclose hnewline
    · rfl
    · dsimp only
      rw [ih, hnewline, newlines_cons_newline]
      omega
    · dsimp only
      rw [ih, newlines_cons_ne hnewline]

/-- What one round does to the counter, and what the counter was when its token was pushed. -/
theorem lexToken_line (c : Char) (rest : List Char) (line col : ℕ) :
    (lexToken classes c rest line col).1.line =
        line + (if startsBlock c rest then newlines (readToken classes c rest).1.2 else 0) ∧
      (lexToken classes c rest line col).2.2.1 =
        line + (if c = '\n' ∨ startsBlock c rest then newlines (readToken classes c rest).1.2
          else 0) := by
  by_cases hblock : startsBlock c rest
  · obtain ⟨rfl, hhead⟩ := hblock
    obtain ⟨tail, rfl⟩ := List.head?_eq_some_iff.1 hhead
    have hline := scanBlockComment_line tail line (col + 2)
    rw [(scanBlockComment_pos tail line (col + 2) 1 3).1] at hline
    rw [readToken_of_arm classes (.blockComment tail), if_pos ⟨rfl, rfl⟩, if_pos (.inr ⟨rfl, rfl⟩),
      newlines_cons_ne (by decide), newlines_cons_ne (by decide)]
    exact ⟨hline, hline⟩
  · rw [if_neg hblock]
    by_cases hnewline : c = '\n'
    · subst hnewline
      rw [readToken_of_arm classes (.newline rest), if_pos (.inl rfl)]
      exact ⟨rfl, rfl⟩
    · rw [if_neg (not_or.2 ⟨hnewline, hblock⟩)]
      unfold lexToken
      split_ifs with hblank hquote hline hslash
      · exact ⟨rfl, rfl⟩
      · exact ⟨rfl, rfl⟩
      · exact ⟨rfl, rfl⟩
      · exact absurd hslash hblock
      all_goals exact ⟨rfl, rfl⟩

end Counting

section Places

variable {classes : CharClasses}

theorem frontsOf_nil (front : List Char) : frontsOf classes front [] = [] := by
  rw [frontsOf]
  rfl

theorem skipSplice_split {text rest : List Char} (h : skipSplice text = some rest) :
    ∃ continuation, newlines continuation = 1 ∧ text = continuation ++ rest := by
  rcases skipSplice_eq_some.1 h with rfl | rfl
  · exact ⟨['\\', '\n'], rfl, rfl⟩
  · exact ⟨['\\', '\r', '\n'], rfl, rfl⟩

theorem frontsOf_skip (classes : CharClasses) (front : List Char) {text rest : List Char} (h : skipSplice text = some rest) :
    ∃ continuation, newlines continuation = 1 ∧ text = continuation ++ rest ∧
      frontsOf classes front text = frontsOf classes (front ++ continuation) rest := by
  obtain ⟨continuation, hone, rfl⟩ := skipSplice_split h
  refine ⟨continuation, hone, rfl, ?_⟩
  rw [frontsOf.eq_def]
  split
  · rename_i rest' hsplice
    obtain rfl := Option.some.inj (h.symm.trans hsplice)
    rw [List.length_append, Nat.add_sub_cancel, List.take_left]
  · rename_i hnone
    rw [h] at hnone
    cases hnone

theorem frontsOf_cons (front : List Char) {c : Char} {rest : List Char}
    (h : skipSplice (c :: rest) = none) :
    frontsOf classes front (c :: rest) =
      front :: frontsOf classes (front ++ (readToken classes c rest).1.2)
        (readToken classes c rest).2 := by
  rw [frontsOf.eq_def]
  split
  · rename_i rest' hsplice
    rw [h] at hsplice
    cases hsplice
  · rfl

theorem tokenizePpSource_skip {text rest : List Char} (h : skipSplice text = some rest)
    (line col : ℕ) :
    tokenizePpSource classes text line col = tokenizePpSource classes rest (line + 1) 1 := by
  rw [tokenizePpSource.eq_def]
  split
  · rename_i rest' hsplice
    obtain rfl := Option.some.inj (h.symm.trans hsplice)
    rfl
  · rename_i hnone
    rw [h] at hnone
    cases hnone

theorem tokenizePpSource_token (classes : CharClasses) {c : Char} {rest : List Char} (h : skipSplice (c :: rest) = none)
    (line col : ℕ) :
    ∃ t line' col', t.line = line + (if startsBlock c rest then
        newlines (readToken classes c rest).1.2 else 0) ∧
      t.lexeme = (readToken classes c rest).1 ∧
      line' = line + (if c = '\n' ∨ startsBlock c rest then
        newlines (readToken classes c rest).1.2 else 0) ∧
      tokenizePpSource classes (c :: rest) line col =
        t :: tokenizePpSource classes (readToken classes c rest).2 line' col' := by
  obtain ⟨hline, hnext⟩ := @lexToken_line classes c rest line col
  obtain ⟨hlexeme, hrest⟩ := lexToken_pos classes c rest line col
  refine ⟨_, _, (lexToken classes c rest line col).2.2.2, hline, hlexeme, hnext, ?_⟩
  rw [tokenizePpSource.eq_def]
  split
  · rename_i rest' hsplice
    rw [h] at hsplice
    cases hsplice
  · dsimp only
    rw [hrest]

/-- The tokens stand where their fronts end. -/
theorem frontsOf_spec (front text : List Char) (line col : ℕ) :
    List.Forall₂ (fun t before => before ++ t.text.toList <+: front ++ text)
      (tokenizePpSource classes text line col) (frontsOf classes front text) := by
  induction text using text_induction classes generalizing front line col with
  | nil =>
    rw [tokenizePpSource_nil, frontsOf_nil]
    exact .nil
  | skip text rest hsplice ih =>
    obtain ⟨continuation, -, rfl, hfronts⟩ := frontsOf_skip classes front hsplice
    rw [tokenizePpSource_skip hsplice, hfronts, ← List.append_assoc]
    exact ih _ _ _
  | token c rest lexeme after hnone hread harm ih =>
    obtain ⟨t, line', col', -, hlexeme, -, htokens⟩ := tokenizePpSource_token classes hnone line col
    rw [htokens, frontsOf_cons front hnone]
    rw [hread] at hlexeme ⊢
    have htext : t.text.toList = lexeme.2 := congrArg Prod.snd hlexeme
    rw [← harm.concat, ← List.append_assoc]
    refine .cons ?_ (ih _ _ _)
    rw [htext]
    exact List.prefix_append _ _

end Places

theorem Arm.unique {classes : CharClasses} {c : Char} {rest after after' : List Char}
    {lexeme lexeme' : Lexeme} (h : Arm classes c rest lexeme after)
    (h' : Arm classes c rest lexeme' after') : lexeme = lexeme' ∧ after = after' :=
  Prod.mk.inj ((readToken_of_arm classes h).symm.trans (readToken_of_arm classes h'))

section Readings

variable {classes : CharClasses} {missed : ℕ} {text rest after : List Char} {c : Char}
  {lexeme : Lexeme}

theorem commentsOf_skip_iff (hsplice : skipSplice text = some rest) :
    CommentsOf classes missed text ↔ CommentsOf classes missed rest := by
  refine ⟨fun h => ?_, .skip hsplice⟩
  cases h with
  | nil => cases hsplice
  | skip hsplice' hrest => rwa [Option.some.inj (hsplice.symm.trans hsplice')]
  | comment _ hblock =>
    obtain ⟨rfl, -⟩ := hblock
    rw [skipSplice_of_ne (by decide)] at hsplice
    cases hsplice

theorem commentsOf_token_iff (hnone : skipSplice (c :: rest) = none)
    (harm : Arm classes c rest lexeme after) :
    CommentsOf classes missed (c :: rest) ↔
      startsBlock c rest ∧ newlines lexeme.2 = missed ∧ CommentsOf classes missed after := by
  refine ⟨fun h => ?_, fun ⟨hblock, hcount, hafter⟩ => .comment harm hblock hcount hafter⟩
  cases h with
  | skip hsplice _ =>
    rw [hnone] at hsplice
    cases hsplice
  | comment harm' hblock hcount hafter =>
    obtain ⟨rfl, rfl⟩ := harm.unique harm'
    exact ⟨hblock, hcount, hafter⟩

theorem keepsLines_skip_iff (hsplice : skipSplice text = some rest) :
    KeepsLines classes text ↔ KeepsLines classes rest := by
  refine ⟨fun h => ?_, .skip hsplice⟩
  have hcons : ∀ {c rest}, text = c :: rest → skipSplice (c :: rest) ≠ none := by
    rintro c tail rfl hnone
    rw [hnone] at hsplice
    cases hsplice
  cases h with
  | nil => cases hsplice
  | skip hsplice' hrest => rwa [Option.some.inj (hsplice.symm.trans hsplice')]
  | newline => exact absurd (skipSplice_of_ne (by decide) _) (hcons rfl)
  | token hnone => exact absurd hnone (hcons rfl)
  | last hnone => exact absurd hnone (hcons rfl)

theorem keepsLines_token_iff (hnone : skipSplice (c :: rest) = none)
    (harm : Arm classes c rest lexeme after) :
    KeepsLines classes (c :: rest) ↔ (c = '\n' ∧ KeepsLines classes after) ∨
      ('\n' ∉ lexeme.2 ∧ KeepsLines classes after) ∨
      (c ≠ '\n' ∧ ¬ startsBlock c rest ∧ '\n' ∈ lexeme.2 ∧
        CommentsOf classes (newlines lexeme.2) after) := by
  constructor
  · intro h
    cases h with
    | skip hsplice _ =>
      rw [hnone] at hsplice
      cases hsplice
    | newline hrest =>
      obtain ⟨-, rfl⟩ := harm.unique (.newline rest)
      exact .inl ⟨rfl, hrest⟩
    | token _ harm' hinside hafter =>
      obtain ⟨rfl, rfl⟩ := harm.unique harm'
      exact .inr (.inl ⟨hinside, hafter⟩)
    | last _ harm' hnewline hblock hinside hafter =>
      obtain ⟨rfl, rfl⟩ := harm.unique harm'
      exact .inr (.inr ⟨hnewline, hblock, hinside, hafter⟩)
  · rintro (⟨rfl, hafter⟩ | ⟨hinside, hafter⟩ | ⟨hnewline, hblock, hinside, hafter⟩)
    · obtain ⟨-, rfl⟩ := harm.unique (.newline rest)
      exact .newline hafter
    · exact .token hnone harm hinside hafter
    · exact .last hnone harm hnewline hblock hinside hafter

end Readings

section Drift

variable (classes : CharClasses)

/-- The lines of the tokens of `text` behind `front`, when the counter stands at `line`. -/
def Exact (base : ℕ) (front text : List Char) (line col : ℕ) : Prop :=
  List.Forall₂ (fun t before => t.line = base + newlines before)
    (tokenizePpSource classes text line col) (frontsOf classes front text)

variable {classes} {base line missed : ℕ} {front : List Char}

theorem exact_nil {col : ℕ} : Exact classes base front [] line col := by
  rw [Exact, tokenizePpSource_nil, frontsOf_nil]
  exact .nil

theorem exact_skip (classes : CharClasses) (col : ℕ) {text rest : List Char} (h : skipSplice text = some rest)
    (hdrift : base + newlines front = line + missed) :
    ∃ front', base + newlines front' = line + 1 + missed ∧
      (Exact classes base front text line col ↔ Exact classes base front' rest (line + 1) 1) := by
  obtain ⟨continuation, hone, -, hfronts⟩ := frontsOf_skip classes front h
  refine ⟨front ++ continuation, ?_, ?_⟩
  · rw [newlines_append, hone]
    omega
  · rw [Exact, Exact, tokenizePpSource_skip h, hfronts]

/-- A token is exact when it is pushed behind as many newlines of its own as were missed. -/
theorem exact_token (col : ℕ) {c : Char} {rest after : List Char} {lexeme : Lexeme}
    (hnone : skipSplice (c :: rest) = none) (harm : Arm classes c rest lexeme after)
    (hdrift : base + newlines front = line + missed) :
    ∃ front' line' col', base + newlines front' = line' + (missed +
        if c = '\n' ∨ startsBlock c rest then 0 else newlines lexeme.2) ∧
      (Exact classes base front (c :: rest) line col ↔
        (if startsBlock c rest then newlines lexeme.2 else 0) = missed ∧
          Exact classes base front' after line' col') := by
  have hread := readToken_of_arm classes harm
  obtain ⟨t, line', col', hline, -, hnext, htokens⟩ :=
    tokenizePpSource_token classes hnone line col
  rw [hread] at hline hnext htokens
  refine ⟨front ++ lexeme.2, line', col', ?_, ?_⟩
  · rw [newlines_append, hnext]
    dsimp only
    split_ifs <;> omega
  · rw [Exact, Exact, htokens, frontsOf_cons front hnone, hread, List.forall₂_cons, hline, hdrift,
      Nat.add_left_cancel_iff]

/-- Once newlines are missed, only comments that make up for them are exact. -/
theorem exact_iff_commentsOf {col : ℕ} (hmissed : missed ≠ 0) (text : List Char)
    (hdrift : base + newlines front = line + missed) :
    Exact classes base front text line col ↔ CommentsOf classes missed text := by
  induction text using text_induction classes generalizing front line col with
  | nil => exact iff_of_true exact_nil .nil
  | skip text rest hsplice ih =>
    obtain ⟨front', hdrift', hiff⟩ := exact_skip classes col hsplice hdrift
    rw [hiff, ih hdrift', commentsOf_skip_iff hsplice]
  | token c rest lexeme after hnone hread harm ih =>
    obtain ⟨front', line', col', hdrift', hiff⟩ := exact_token col hnone harm hdrift
    rw [hiff, commentsOf_token_iff hnone harm]
    by_cases hblock : startsBlock c rest
    · rw [if_pos (.inr hblock)] at hdrift'
      rw [if_pos hblock, ih hdrift', and_iff_right hblock]
    · rw [if_neg hblock]
      exact iff_of_false (fun h => hmissed h.1.symm) (fun h => hblock h.1)

/-- Up to the first newline that the counter misses everything is exact. -/
theorem exact_iff_keepsLines {col : ℕ} (text : List Char) (hdrift : base + newlines front = line) :
    Exact classes base front text line col ↔ KeepsLines classes text := by
  induction text using text_induction classes generalizing front line col with
  | nil => exact iff_of_true exact_nil .nil
  | skip text rest hsplice ih =>
    obtain ⟨front', hdrift', hiff⟩ :=
      @exact_skip base line 0 front classes col _ _ hsplice hdrift
    rw [hiff, ih hdrift', keepsLines_skip_iff hsplice]
  | token c rest lexeme after hnone hread harm ih =>
    obtain ⟨front', line', col', hdrift', hiff⟩ :=
      @exact_token classes base line 0 front col _ _ _ _ hnone harm hdrift
    rw [Nat.zero_add] at hdrift'
    rw [hiff, keepsLines_token_iff hnone harm]
    by_cases hblock : startsBlock c rest
    · rw [if_pos (.inr hblock), Nat.add_zero] at hdrift'
      have hnewline : c ≠ '\n' := fun h => absurd (h.symm.trans hblock.1) (by decide)
      rw [if_pos hblock, ih hdrift', newlines_eq_zero_iff]
      exact ⟨fun h => .inr (.inl h), fun h => h.elim (fun h => absurd h.1 hnewline)
        fun h => h.elim id fun h => absurd hblock h.2.1⟩
    · rw [if_neg hblock, and_iff_right rfl]
      by_cases hnewline : c = '\n'
      · rw [if_pos (.inl hnewline), Nat.add_zero] at hdrift'
        rw [ih hdrift']
        exact ⟨fun h => .inl ⟨hnewline, h⟩, fun h => h.elim And.right
          fun h => h.elim And.right fun h => absurd hnewline h.1⟩
      · rw [if_neg (not_or.2 ⟨hnewline, hblock⟩)] at hdrift'
        by_cases hinside : '\n' ∈ lexeme.2
        · rw [exact_iff_commentsOf (mt newlines_eq_zero_iff.1 (not_not.2 hinside)) after hdrift']
          exact ⟨fun h => .inr (.inr ⟨hnewline, hblock, hinside, h⟩),
            fun h => h.elim (fun h => absurd h.1 hnewline)
              fun h => h.elim (fun h => absurd hinside h.1) fun h => h.2.2.2⟩
        · rw [newlines_eq_zero_iff.2 hinside, Nat.add_zero] at hdrift'
          rw [ih hdrift']
          exact ⟨fun h => .inr (.inl ⟨hinside, h⟩), fun h => h.elim And.right
            fun h => h.elim And.right fun h => absurd h.2.2.1 hinside⟩

end Drift

section Main

variable {classes : CharClasses}

theorem mapM_push {α : Type} {f : α → Except Fault (List Token)} {x : α} {l : List α}
    {here result : List Token} (hx : f x = .ok here)
    (h : (do let parts ← l.mapM f; return parts.flatten) = .ok result) :
    (do let parts ← (x :: l).mapM f; return parts.flatten) = .ok (here ++ result) := by
  rw [List.mapM_cons, hx]
  cases hparts : l.mapM f with
  | error e =>
    rw [hparts] at h
    cases h
  | ok parts =>
    rw [hparts] at h
    obtain rfl := Except.ok.inj h
    rfl

/-- The scan takes the line from the token. -/
theorem expandsTo_line {file : String} {t : PpToken} {line : ℕ} (h : t.line = line) :
    ExpandsTo file t line := by
  intro hkind htext chars table fuel rest result hresult
  have hkeyword : isKeyword t.text = false := by
    rw [htext]
    decide
  have htoken : ppTokenToToken file t = [⟨.identifier, t.text, t.line, t.column, file⟩] := by
    simp [ppTokenToToken, ppTokensToTokens, hkind, hkeyword]
  refine ⟨⟨.intLiteral, toString line, t.line, t.column, file⟩, rfl, rfl, ?_⟩
  have houtputs : outputs chars table [] (ppTokenToToken file t ++ rest) =
      .push ⟨.intLiteral, toString line, t.line, t.column, file⟩ :: outputs chars table [] rest := by
    rw [htoken, List.singleton_append, outputs]
    simp [scanToken, htext, h]
  rw [expandMacroTokens, expandMacroTokensWithStack] at hresult ⊢
  rw [houtputs]
  refine @mapM_push Output _ _ _ [_] _ ?_ hresult
  rfl

/-- The lines are exact just when no counted newline is missed in front of a token. -/
theorem linesExact_iff (text : List Char) (file : String) (baseLine : ℕ) :
    LinesExact classes text file baseLine ↔ KeepsLines classes text := by
  have hiff : Exact classes baseLine [] text baseLine 1 ↔ KeepsLines classes text :=
    exact_iff_keepsLines text rfl
  rw [← hiff]
  exact ⟨LinesExact.lines, fun h => ⟨h, h.imp fun _ _ => expandsTo_line⟩⟩

/-- The `x` in the second line. -/
theorem not_linesExact_lineComment :
    ¬ LinesExact ⟨Char.isAlpha, Char.isDigit⟩ ['/', '/', '\n', 'x'] "a.c" 1 := by
  intro h
  exact absurd h.lines (by decide +kernel)

end Main

end OpticC.Preprocessor
