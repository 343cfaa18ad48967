import OpticC.Frontend.IfExpression
import OpticC.Frontend.MacroArguments
import OpticC.Lib.BracketedLists

/-! Collecting the arguments of an invocation. The two loops drop an empty last argument behind
a comma when there are as many arguments in front of it as the macro has parameters. -/

namespace OpticC.Preprocessor

open BracketedLists

section Collecting

variable {α β : Type}

def argumentMarks (text : α → String) : Marks α :=
  ⟨fun t => text t == "(", fun t => text t == ")", fun t => text t == ","⟩

/-- The two loops: `emit` makes an argument of the tokens collected. -/
def collectWith (text : α → String) (emit : List α → β) (expectedParams : ℕ) (isVariadic : Bool) :
    List α → List β → List α → ℕ → List β × List α
  | [], args, _, _ => (args, [])
  | t :: rest, args, current, depth =>
    if text t = "(" then
      collectWith text emit expectedParams isVariadic rest args (current ++ [t]) (depth + 1)
    else if text t = ")" ∧ depth = 0 then
      if current ≠ [] ∨ args.length < expectedParams ∨ (isVariadic ∧ args = []) then
        (args ++ [emit current], rest)
      else (args, rest)
    else if text t = "," ∧ depth = 0 then
      collectWith text emit expectedParams isVariadic rest (args ++ [emit current]) [] depth
    else
      collectWith text emit expectedParams isVariadic rest args (current ++ [t])
        (if text t = ")" then depth - 1 else depth)

theorem collectArgs_eq (n : ℕ) (v : Bool) (tokens : List Token) (args : List (List Token))
    (current : List Token) (depth : ℕ) :
    collectArgs n v tokens args current depth =
      collectWith Token.text id n v tokens args current depth := by
  induction tokens generalizing args current depth with
  | nil => rfl
  | cons t rest ih =>
    rw [collectArgs, collectWith]
    simp only [ih]
    rfl

theorem collectPpMacroArgs_eq (n : ℕ) (v : Bool) (file : String) (tokens : List PpToken)
    (args : List (List Token)) (current : List PpToken) (depth : ℕ) :
    collectPpMacroArgs n v file tokens args current depth =
      collectWith PpToken.text (ppTokensToTokens · file) n v tokens args current depth := by
  induction tokens generalizing args current depth with
  | nil => rfl
  | cons t rest ih =>
    rw [collectPpMacroArgs, collectWith]
    simp only [ih]

/-- The last piece is kept unless it is empty and not needed. -/
def KeepsLast (expectedParams : ℕ) (isVariadic : Bool) (pieces : List (List α)) : Prop :=
  pieces.getLast? ≠ some [] ∨ pieces.length ≤ expectedParams ∨ isVariadic ∧ pieces.length = 1

instance [DecidableEq α] (n : ℕ) (v : Bool) (pieces : List (List α)) :
    Decidable (KeepsLast n v pieces) :=
  inferInstanceAs (Decidable (_ ≠ _ ∨ _ ≤ n ∨ v = true ∧ _))

open Classical in
/-- What the loop makes of the pieces of an argument list. -/
noncomputable def kept (n : ℕ) (v : Bool) (pieces : List (List α)) : List (List α) :=
  if KeepsLast n v pieces then pieces else pieces.dropLast

theorem collectWith_balanced (text : α → String) (emit : List α → β) (n : ℕ) (v : Bool)
    {inner rest : List α} {close : α} (hclose : text close = ")") (args : List (List α))
    (current : List α) (depth : ℕ) (h : Balanced (argumentMarks text) depth inner) :
    collectWith text emit n v (inner ++ close :: rest) (args.map emit) current depth =
      ((kept n v (args ++ lengthen current (pieces (argumentMarks text) depth inner))).map emit,
        rest) := by
  induction inner generalizing args current depth with
  | nil =>
    obtain rfl : depth = 0 := h
    have hcond : (current ≠ [] ∨ (args.map emit).length < n ∨ (v = true ∧ args.map emit = [])) ↔
        KeepsLast n v (args ++ [current]) := by
      rw [KeepsLast, List.getLast?_concat, List.length_append, List.length_singleton,
        List.length_map, List.map_eq_nil_iff, ← List.length_eq_zero_iff]
      refine or_congr (by simp) (or_congr Iff.rfl (and_congr_right fun _ => ?_))
      omega
    rw [List.nil_append, collectWith, if_neg (by rw [hclose]; decide), if_pos ⟨hclose, rfl⟩, pieces,
      lengthen, List.append_nil, kept]
    by_cases hkeeps : KeepsLast n v (args ++ [current])
    · rw [if_pos (hcond.2 hkeeps), if_pos hkeeps, List.map_append]
      rfl
    · rw [if_neg (hcond.not.2 hkeeps), if_neg hkeeps, List.dropLast_concat]
  | cons t inner ih =>
    obtain ⟨hpos, hrest⟩ := h
    rw [List.cons_append, collectWith]
    by_cases hopen : text t = "("
    · have hsep : ¬((argumentMarks text).isSep t = true ∧ depth = 0) := by
        simp [argumentMarks, hopen]
      have hdepth : (argumentMarks text).depth t depth = depth + 1 := by
        simp [Marks.depth, argumentMarks, hopen]
      rw [hdepth] at hrest
      rw [if_pos hopen, ih args (current ++ [t]) (depth + 1) hrest, pieces, if_neg hsep,
        lengthen_lengthen, hdepth]
    · have hdepth : (argumentMarks text).depth t depth =
          if text t = ")" then depth - 1 else depth := by
        simp [Marks.depth, argumentMarks, hopen]
      rw [hdepth] at hrest
      have hnot : ¬(text t = ")" ∧ depth = 0) := by
        rintro ⟨hc, rfl⟩
        exact Nat.lt_irrefl 0 (hpos (beq_iff_eq.2 hc) (beq_eq_false_iff_ne.2 hopen))
      rw [if_neg hopen, if_neg hnot, pieces]
      by_cases hsep : text t = "," ∧ depth = 0
      · have hmark : (argumentMarks text).isSep t = true ∧ depth = 0 :=
          ⟨beq_iff_eq.2 hsep.1, hsep.2⟩
        have hno : ¬ text t = ")" := by
          rw [hsep.1]
          decide
        rw [if_neg hno] at hrest
        have hstep := ih (args ++ [current]) [] depth hrest
        rw [List.map_append, List.map_singleton,
          lengthen_nil (pieces_ne_nil _ depth inner)] at hstep
        rw [if_pos hsep, if_pos hmark, hstep, lengthen, List.append_nil, List.append_assoc]
        rfl
      · have hmark : ¬((argumentMarks text).isSep t = true ∧ depth = 0) := fun hm =>
          hsep ⟨beq_iff_eq.1 hm.1, hm.2⟩
        rw [if_neg hsep, if_neg hmark, ih args (current ++ [t]) _ hrest, lengthen_lengthen, hdepth]

end Collecting

section Lossless

/-- What the arguments are compared by. -/
def texts (tokens : List Token) : List String := tokens.map Token.text

/-- The list behind the parenthesis is left just behind its end, the arguments joined by single
commas are the list, and the variable ones are what it has behind the others. -/
structure Lossless {α : Type} (n : ℕ) (inner behind : List Token) (rest : List α)
    (collected : List (List Token) × List α) : Prop where
  position : collected.2 = rest
  joined : JoinedBy (fun t : Token => t.text = ",") collected.1 inner
  variadic : ∀ t, texts (expandVariadicArgs collected.1 n t) = texts behind

theorem texts_intercalate {args : List (List Token)} {l : List Token} {comma : Token}
    (hcomma : comma.text = ",") (h : JoinedBy (fun t : Token => t.text = ",") args l) :
    texts ([comma].intercalate args) = texts l := by
  induction h with
  | none => rfl
  | one piece => simp [List.intercalate]
  | @more piece next rest more x hx hrest ih =>
    rw [List.intercalate_cons_cons]
    simp only [texts, List.map_append, List.map_cons, List.map_nil, hcomma, hx] at ih ⊢
    rw [ih]
    simp

/-- There is one argument, or the last one is not empty, or there are no more of them than
parameters. -/
def NoneLost {α : Type} (expectedParams : ℕ) (pieces : List (List α)) : Prop :=
  pieces.length = 1 ∨ pieces.getLast? ≠ some [] ∨ pieces.length ≤ expectedParams

theorem lossless_collectWith_iff {α : Type} {text : α → String} {f : α → List Token} (n : ℕ)
    (v : Bool) {inner rest : List α} {close : α} (hclose : text close = ")")
    (hbalanced : Balanced (argumentMarks text) 0 inner)
    (hcomma : ∀ x ∈ inner, text x = "," → ∃ t, f x = [t] ∧ t.text = ",") :
    Lossless n (inner.flatMap f) ((behindSeps (argumentMarks text) n 0 inner).flatMap f) rest
      (collectWith text (List.flatMap f) n v (inner ++ close :: rest) [] [] 0) ↔
      NoneLost n (pieces (argumentMarks text) 0 inner) := by
  have hpieces := pieces_ne_nil (argumentMarks text) 0 inner
  have hsep {l : List α} (hl : l <:+ inner) : ∀ x ∈ l, (argumentMarks text).isSep x = true →
      ∃ t, f x = [t] ∧ t.text = "," := fun x hx hmark =>
    hcomma x (hl.mem hx) (beq_iff_eq.1 hmark)
  have hjoined := ((joinedBy_pieces (argumentMarks text) 0 inner).imp
    (hsep (List.suffix_refl _))).flatMap f fun _ h => h
  have hvariadic := ((joinedBy_drop (argumentMarks text) n inner).imp
    (hsep (behindSeps_suffix _ n 0 inner))).flatMap f fun _ h => h
  have hcollect := @collectWith_balanced _ _ text (List.flatMap f) n v inner rest close hclose
    [] [] 0 hbalanced
  rw [List.nil_append, lengthen_nil hpieces, List.map_nil] at hcollect
  rw [hcollect]
  have hall : Lossless n (inner.flatMap f)
      ((behindSeps (argumentMarks text) n 0 inner).flatMap f) rest
      ((pieces (argumentMarks text) 0 inner).map (List.flatMap f), rest) := by
    refine ⟨rfl, hjoined, fun t => ?_⟩
    rw [expandVariadicArgs, ← List.map_drop]
    exact texts_intercalate rfl hvariadic
  rw [kept]
  split_ifs with hkeeps
  · refine iff_of_true hall ?_
    rcases hkeeps with hlast | hle | ⟨-, hone⟩
    · exact .inr (.inl hlast)
    · exact .inr (.inr hle)
    · exact .inl hone
  · simp only [KeepsLast, not_or, not_not] at hkeeps
    by_cases hone : (pieces (argumentMarks text) 0 inner).length = 1
    · refine iff_of_true ?_ (.inl hone)
      -- the one argument is empty: nothing stands between the parentheses
      obtain ⟨piece, hpiece⟩ := List.length_eq_one_iff.1 hone
      have hempty : piece = [] := by
        have hlast := hkeeps.1
        rw [hpiece] at hlast
        exact Option.some.inj hlast
      have hn : n = 0 := by omega
      have hinner := joinedBy_pieces (argumentMarks text) 0 inner
      rw [hpiece, hempty] at hinner
      cases hinner
      rw [hpiece, hn]
      exact ⟨rfl, .none, fun t => rfl⟩
    · refine iff_of_false (fun h => ?_) ?_
      · have hpos := List.length_pos_iff.2 hpieces
        exact hjoined.not_dropLast hkeeps.1 rfl (by omega) h.joined
      · rintro (h | h | h)
        · exact hone h
        · exact h hkeeps.1
        · exact hkeeps.2.1 h

end Lossless

section Collectors

/-- The token that `pp_tokens_to_tokens` makes of one, unless it ends a line. -/
def ppTokenToToken (file : String) (t : PpToken) : List Token := ppTokensToTokens [t] file

theorem ppTokensToTokens_eq (file : String) (tokens : List PpToken) :
    ppTokensToTokens tokens file = tokens.flatMap (ppTokenToToken file) := by
  induction tokens with
  | nil => rfl
  | cons t rest ih =>
    rw [List.flatMap_cons, ← ih, ppTokenToToken]
    simp only [ppTokensToTokens, List.filter_cons, List.filter_nil]
    split_ifs <;> rfl

theorem ppTokenToToken_comma {file : String} {t : PpToken} (hkind : t.kind ≠ .newline)
    (htext : t.text = ",") : ∃ u, ppTokenToToken file t = [u] ∧ u.text = "," := by
  rw [ppTokenToToken, ppTokensToTokens, List.filter_cons_of_pos (by simpa using hkind)]
  exact ⟨_, rfl, htext⟩

/-- The loops give back every token between the parentheses of a balanced list just when no
empty last argument is in excess of the parameters. -/
theorem argumentLists_lossless_iff (n : ℕ) (v : Bool) (file : String) {inner rest : List Token}
    {close : Token} {ppInner ppRest : List PpToken} {ppClose : PpToken}
    (hclose : close.text = ")") (hppClose : ppClose.text = ")")
    (hbalanced : Balanced (argumentMarks Token.text) 0 inner)
    (hppBalanced : Balanced (argumentMarks PpToken.text) 0 ppInner)
    (hnewline : ∀ t ∈ ppInner, t.kind = .newline → t.text = "
") :
    (Lossless n inner (behindSeps (argumentMarks Token.text) n 0 inner) rest
        (collectArgs n v (inner ++ close :: rest) [] [] 0) ↔
      NoneLost n (pieces (argumentMarks Token.text) 0 inner)) ∧
    (Lossless n (ppTokensToTokens ppInner file)
        (ppTokensToTokens (behindSeps (argumentMarks PpToken.text) n 0 ppInner) file) ppRest
        (collectPpMacroArgs n v file (ppInner ++ ppClose :: ppRest) [] [] 0) ↔
      NoneLost n (pieces (argumentMarks PpToken.text) 0 ppInner)) := by
  constructor
  · have hiff := @lossless_collectWith_iff _ _ (fun t => [t]) n v _ rest _ hclose hbalanced
      fun t _ h => ⟨t, rfl, h⟩
    have hid : (List.flatMap fun t : Token => [t]) = id := funext fun l => List.flatMap_singleton' l
    rw [hid] at hiff
    rw [collectArgs_eq]
    exact hiff
  · have hiff := @lossless_collectWith_iff _ _ (ppTokenToToken file) n v _ ppRest _ hppClose
      hppBalanced fun t ht h => ppTokenToToken_comma (fun hkind => by
        rw [hnewline t ht hkind] at h
        exact absurd h (by decide)) h
    have hemit : List.flatMap (ppTokenToToken file) = (ppTokensToTokens · file) :=
      funext fun l => (ppTokensToTokens_eq file l).symm
    rw [hemit] at hiff
    rw [collectPpMacroArgs_eq]
    exact hiff

end Collectors

section Examples

/-- `TRACE(f, x)` for `#define TRACE(fmt, ...)`, between the parentheses. -/
def traceArguments : List Token := [ident "f", punct ",", ident "x"]

def ppTraceArguments : List PpToken :=
  [⟨.identifier, "f", 1, 1⟩, ⟨.punctuator, ",", 1, 1⟩, ⟨.identifier, "x", 1, 1⟩]

theorem lossless_traceArguments :
    Lossless 1 traceArguments [ident "x"] ([] : List Token)
      (collectArgs 1 true (traceArguments ++ [punct ")"]) [] [] 0) ∧
    Lossless 1 (ppTokensToTokens ppTraceArguments "a.c")
      (ppTokensToTokens [⟨.identifier, "x", 1, 1⟩] "a.c") ([] : List PpToken)
      (collectPpMacroArgs 1 true "a.c" (ppTraceArguments ++ [⟨.punctuator, ")", 1, 1⟩]) [] [] 0) :=
  (argumentLists_lossless_iff 1 true "a.c" rfl rfl (by decide) (by decide) (by decide)).imp
    (fun h => h.2 (.inr (.inl (by decide)))) (fun h => h.2 (.inr (.inl (by decide))))

/-- `TRACE(f, x,)`: the variable arguments are `x,` and become `x`. -/
theorem not_lossless_trailingComma :
    collectArgs 1 true (traceArguments ++ [punct ",", punct ")"]) [] [] 0 =
      ([[ident "f"], [ident "x"]], []) ∧
    ¬ Lossless 1 (traceArguments ++ [punct ","]) [ident "x", punct ","] ([] : List Token)
      (collectArgs 1 true (traceArguments ++ [punct ",", punct ")"]) [] [] 0) := by
  have hargs : collectArgs 1 true (traceArguments ++ [punct ",", punct ")"]) [] [] 0 =
      ([[ident "f"], [ident "x"]], []) := by decide
  refine ⟨hargs, fun h => ?_⟩
  rw [hargs] at h
  exact absurd (h.variadic (punct ",")) (by decide)

end Examples

end OpticC.Preprocessor
