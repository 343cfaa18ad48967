import OpticC.Frontend.MacroArguments

/-! Token pasting. C joins the last token of the left operand of `##` and the first of the right
one; the loop joins what was put out last and the first token of what stands right behind `##`,
white space or not, and an object-like macro keeps its `##`. -/

namespace OpticC.Preprocessor

section Statement

/-- The spellings of the tokens that are no white space. -/
def visibleTexts (tokens : List Token) : List String :=
  (tokens.filter fun t => !t.isWhitespace).map Token.text

/-- The last of the left spellings and the first of the right ones made one. -/
def pasteSpellings (left right : List String) : List String :=
  match left.getLast?, right with
  | some l, r :: more => left.dropLast ++ (l ++ r) :: more
  | _, _ => left ++ right

/-- What C puts out for `##`: the output so far ends in the left operand, which may have no
token in it. -/
def pasted (blank : Bool) (output right : List String) : List String :=
  if blank then output ++ right else pasteSpellings output right

/-- The loop over the replacement, or the replacement as it is. -/
def expandReplacement (chars : CharClasses) (d : MacroDefinition) (args : List (List Token))
    (tokens result : List Token) : Except Fault (List Token) :=
  match d with
  | .objectLike _ => .ok (result ++ tokens)
  | .functionLike params isVariadic variadicParam _ =>
    expandFunctionMacroTokens chars params isVariadic variadicParam args tokens result

namespace MacroDefinition

def body : MacroDefinition → List Token
  | objectLike replacement => replacement
  | functionLike _ _ _ replacement => replacement

def operators : MacroDefinition → List String
  | objectLike _ => ["##"]
  | functionLike .. => ["#", "##"]

/-- What a token of the replacement stands for, an argument as it is written. -/
def standsFor (d : MacroDefinition) (args : List (List Token)) (t : Token) : List Token :=
  match d with
  | objectLike _ => [t]
  | functionLike params isVariadic variadicParam _ =>
    substituteToken t params isVariadic variadicParam args

/-- The literal that `# name` stands for. -/
def literal (d : MacroDefinition) (args : List (List Token)) (name : Token) : Option Token :=
  match d with
  | objectLike _ => none
  | functionLike params isVariadic variadicParam _ =>
    match stringifyParam name params isVariadic variadicParam args with
    | some (.ok text) => some ⟨.stringLiteral, text, name.line, name.column, name.file⟩
    | _ => none

/-- The tokens of an operand of `##`: a token that is no operator, or `#` and a parameter. -/
def operand (d : MacroDefinition) (args : List (List Token)) : List Token → Option (List Token)
  | [t] => if t.isWhitespace ∨ t.text ∈ d.operators then none else some (d.standsFor args t)
  | [hash, name] =>
    if hash.text = "#" ∧ hash.kind = .punctuator ∧ name.text ∉ d.operators then
      (d.literal args name).map fun t => [t]
    else none
  | _ => none

/-- No token is in the last operand of the list, with all that `##` joins to it. -/
def leftBlank (d : MacroDefinition) (args : List (List Token)) : List Token → Bool → Bool → Bool
  | [], _, blank => blank
  | [t], joins, blank =>
    if t.isWhitespace ∨ t.text = "##" then blank
    else (!joins || blank) && (visibleTexts (d.standsFor args t)).isEmpty
  | t :: next :: rest, joins, blank =>
    if t.isWhitespace then leftBlank d args (next :: rest) joins blank
    else if t.text = "##" then leftBlank d args (next :: rest) true blank
    else if t.text = "#" ∧ (d.literal args next).isSome then leftBlank d args rest false false
    else leftBlank d args (next :: rest) false
      ((!joins || blank) && (visibleTexts (d.standsFor args t)).isEmpty)

/-- The GNU form `, ## __VA_ARGS__`. -/
def GnuComma (d : MacroDefinition) (left : Token) (right : List Token) : Prop :=
  match d with
  | objectLike _ => False
  | functionLike _ isVariadic variadicParam _ =>
    left.text = "," ∧ isVariadic = true ∧ ∃ t, right = [t] ∧ isVariadicParam t variadicParam = true

end MacroDefinition

/-- A `##` of the replacement and its right operand, with what stands in front and behind. -/
structure PasteSite (d : MacroDefinition) (args : List (List Token)) where
  front : List Token
  hash : Token
  gap : List Token
  right : List Token
  behind : List Token
  left : Token
  value : List Token
  split : d.body = front ++ hash :: (gap ++ (right ++ behind))
  isPaste : hash.text = "##"
  gap_blank : ∀ t ∈ gap, t.isWhitespace = true
  left_last : (front.filter fun t => !t.isWhitespace).getLast? = some left
  left_operand : left.text ∉ d.operators
  right_value : d.operand args right = some value
  not_gnu : ¬ d.GnuComma left right

variable (chars : CharClasses) (d : MacroDefinition) (args : List (List Token))

/-- The expansion comes to the place behind the right operand with what C puts out there. -/
def PasteSite.Right {d : MacroDefinition} {args : List (List Token)} (s : PasteSite d args) :
    Prop :=
  ∀ output, expandReplacement chars d args s.front [] = .ok output →
    ∃ result,
      expandReplacement chars d args (s.front ++ s.hash :: (s.gap ++ s.right)) [] = .ok result ∧
      expandReplacement chars d args d.body [] =
        expandReplacement chars d args s.behind result ∧
      visibleTexts result =
        pasted (d.leftBlank args s.front false true) (visibleTexts output) (visibleTexts s.value)

def PastesRight : Prop := ∀ s : PasteSite d args, s.Right chars

/-- The output so far is empty; or the right operand is a single token right behind `##`, and
either it stands for nothing and the output ends in white space, or the left operand has a token
in it and neither the output ends nor the right operand starts with white space. -/
def Adjoins (blank : Bool) (output gap right value : List Token) : Prop :=
  output = [] ∨ gap = [] ∧ right.length = 1 ∧
    ((value = [] ∧ ∃ t ∈ output.getLast?, t.isWhitespace = true) ∨
      (blank = false ∧ (∃ t ∈ output.getLast?, t.isWhitespace = false) ∧
        ∃ t ∈ value.head?, t.isWhitespace = false))

def PasteSite.Adjoins {d : MacroDefinition} {args : List (List Token)} (s : PasteSite d args) :
    Prop :=
  match d with
  | .objectLike _ => False
  | .functionLike .. =>
    ∀ output, expandReplacement chars d args s.front [] = .ok output →
      Preprocessor.Adjoins (d.leftBlank args s.front false true) output s.gap s.right s.value

end Statement

section Segments

variable {chars : CharClasses} {params : List String} {isVariadic : Bool}
  {variadicParam : Option String} {args : List (List Token)}

/-- The loop works off a list up to a place that no operator reaches across. -/
theorem expandFunctionMacroTokens_append (front rest result : List Token)
    (hlast : ∀ t ∈ front.getLast?, t.text ≠ "#" ∧ t.text ≠ "##") :
    expandFunctionMacroTokens chars params isVariadic variadicParam args (front ++ rest) result =
      (expandFunctionMacroTokens chars params isVariadic variadicParam args front result).bind
        fun r => expandFunctionMacroTokens chars params isVariadic variadicParam args rest r := by
  induction hlength : front.length using Nat.strongRecOn generalizing front result with
  | ind n ih =>
    match front, hlast, hlength with
    | [], _, _ => rfl
    | [t], hlast, _ =>
      have ht := hlast t rfl
      rw [List.singleton_append, expandFunctionMacroTokens_cons, substituteRound_eq ht,
        expandFunctionMacroTokens, if_neg ht.2]
      rfl
    | t :: next :: more, hlast, hlength =>
      have hmore : ∀ u ∈ more.getLast?, u.text ≠ "#" ∧ u.text ≠ "##" := by
        intro u hu
        apply hlast u
        rw [List.getLast?_cons, List.getLast?_cons, Option.mem_def.1 hu]
        rfl
      have hnext : ∀ u ∈ (next :: more).getLast?, u.text ≠ "#" ∧ u.text ≠ "##" := by
        intro u hu
        apply hlast u
        rw [List.getLast?_cons, Option.mem_def.1 hu]
        rfl
      have hstep (r : List Token) := ih more.length
        (by rw [← hlength, List.length_cons, List.length_cons]; omega) more r hmore rfl
      have hstep' (r : List Token) := ih (next :: more).length (by simp [← hlength]) (next :: more) r
        hnext rfl
      rw [List.cons_append, List.cons_append, expandFunctionMacroTokens, expandFunctionMacroTokens]
      split_ifs
      · cases result.getLast? with
        | none => exact hstep' result
        | some left =>
          cases getParamReplacement next params isVariadic variadicParam args with
          | nil => exact hstep _
          | cons right tokens => exact hstep _
      · cases stringifyParam next params isVariadic variadicParam args with
        | none => exact hstep' _
        | some text =>
          cases text with
          | error e => rfl
          | ok text => exact hstep _
      · exact hstep' _

end Segments

section Rounds

variable {chars : CharClasses} {params : List String} {isVariadic : Bool}
  {variadicParam : Option String} {replacement : List Token} {args : List (List Token)}

/-- White space is spelled by blanks. -/
def Token.Blank (t : Token) : Prop :=
  t.isWhitespace = true → ∃ c more, t.text.toList = c :: more ∧ c.isWhitespace = true

theorem Token.Blank.not_operator {t : Token} (h : t.Blank) (ht : t.isWhitespace = true) :
    t.text ≠ "#" ∧ t.text ≠ "##" := by
  obtain ⟨c, more, htext, hc⟩ := h ht
  constructor <;> intro heq <;> rw [heq] at htext <;> cases htext <;> exact absurd hc (by decide)

theorem Token.Blank.append_ne {t : Token} (h : t.Blank) (ht : t.isWhitespace = true) (s : String) :
    s ++ t.text ≠ s ∧ t.text ++ s ≠ s := by
  obtain ⟨c, more, htext, -⟩ := h ht
  have hlength : t.text.toList.length = more.length + 1 := by rw [htext, List.length_cons]
  constructor <;> intro heq <;> have := congrArg (fun s => s.toList.length) heq <;>
    simp only [String.toList_append, List.length_append] at this <;> omega

theorem isWhitespace_kind {t : Token} (h : t.isWhitespace = true) : t.kind = .whitespace :=
  eq_of_beq h

theorem substituteToken_whitespace {t : Token} (h : t.isWhitespace = true) :
    substituteToken t params isVariadic variadicParam args = [t] := by
  rw [substituteToken, if_neg]
  rw [isWhitespace_kind h]
  decide

theorem getParamReplacement_whitespace {t : Token} (h : t.isWhitespace = true) :
    getParamReplacement t params isVariadic variadicParam args = [t] := by
  rw [getParamReplacement, if_neg]
  rw [isWhitespace_kind h]
  decide

theorem expandFunctionMacroTokens_singleton {t : Token} (h : t.text ≠ "##") (result : List Token) :
    expandFunctionMacroTokens chars params isVariadic variadicParam args [t] result =
      .ok (result ++ substituteToken t params isVariadic variadicParam args) := by
  rw [expandFunctionMacroTokens, if_neg h]

/-- White space that no operator reaches is put out. -/
theorem expandFunctionMacroTokens_gap {gap : List Token}
    (hgap : ∀ t ∈ gap, t.isWhitespace = true ∧ t.Blank) (rest result : List Token) :
    expandFunctionMacroTokens chars params isVariadic variadicParam args (gap ++ rest) result =
      expandFunctionMacroTokens chars params isVariadic variadicParam args rest (result ++ gap) := by
  induction gap generalizing result with
  | nil => rw [List.nil_append, List.append_nil]
  | cons t gap ih =>
    rw [List.forall_mem_cons] at hgap
    obtain ⟨ht, hblank⟩ := hgap.1
    rw [List.cons_append, expandFunctionMacroTokens_cons,
      substituteRound_eq (hblank.not_operator ht), substituteToken_whitespace ht]
    simp only [Except.bind]
    rw [ih hgap.2, List.append_assoc, List.singleton_append]

/-- Behind white space or nothing the right operand is put out as what it stands for. -/
theorem expandFunctionMacroTokens_operand {right value : List Token}
    (h : (MacroDefinition.functionLike params isVariadic variadicParam replacement).operand args
      right = some value) (result : List Token) :
    expandFunctionMacroTokens chars params isVariadic variadicParam args right result =
      .ok (result ++ value) := by
  match right, h with
  | [t], h =>
    simp only [MacroDefinition.operand] at h
    split_ifs at h with hop
    obtain rfl := Option.some.inj h
    refine expandFunctionMacroTokens_singleton (fun ht => hop (.inr ?_)) result
    rw [ht]
    exact List.mem_cons_of_mem _ List.mem_cons_self
  | [hash, name], h =>
    simp only [MacroDefinition.operand, MacroDefinition.literal] at h
    split_ifs at h with hop
    obtain ⟨hhash, -, -⟩ := hop
    obtain ⟨literal, hliteral, rfl⟩ := Option.map_eq_some_iff.1 h
    rw [expandFunctionMacroTokens, hhash, if_neg (by decide), if_pos rfl]
    split at hliteral
    · rename_i text hstring
      obtain rfl := Option.some.inj hliteral
      rw [hstring]
      rfl
    · cases hliteral

theorem operand_last {d : MacroDefinition} {right value : List Token}
    (h : d.operand args right = some value) : ∀ t ∈ right.getLast?, t.text ∉ d.operators := by
  match right, h with
  | [t], h =>
    simp only [MacroDefinition.operand] at h
    split_ifs at h with hop
    intro u hu
    obtain rfl := Option.some.inj hu
    exact fun hmem => hop (.inr hmem)
  | [hash, name], h =>
    simp only [MacroDefinition.operand] at h
    split_ifs at h with hop
    intro u hu
    obtain rfl := Option.some.inj hu
    exact hop.2.2

theorem operand_objectLike {right value : List Token}
    (h : (MacroDefinition.objectLike replacement).operand args right = some value) :
    right = value := by
  match right, h with
  | [t], h =>
    simp only [MacroDefinition.operand, MacroDefinition.standsFor] at h
    split_ifs at h
    exact Option.some.inj h
  | [hash, name], h =>
    simp only [MacroDefinition.operand, MacroDefinition.literal] at h
    split_ifs at h
    cases h

/-- No parameter has the name of the variable arguments. -/
def Apart (params : List String) (isVariadic : Bool) (variadicParam : Option String) : Prop :=
  isVariadic = true → "__VA_ARGS__" ∉ params ∧ ∀ name ∈ variadicParam, name ∉ params

theorem getParamReplacement_eq (h : Apart params isVariadic variadicParam) (t : Token) :
    getParamReplacement t params isVariadic variadicParam args =
      substituteToken t params isVariadic variadicParam args := by
  rw [getParamReplacement, substituteToken]
  split_ifs with hkind hvariadic
  · have hnot : t.text ∉ params := by
      obtain ⟨hva, hname⟩ := h hvariadic.1
      rw [isVariadicParam, Bool.or_eq_true, beq_iff_eq, Option.any_eq_true] at hvariadic
      rcases hvariadic.2 with htext | ⟨name, hmem, htext⟩
      · rw [htext]
        exact hva
      · rw [eq_of_beq htext]
        exact hname name hmem
    rw [List.idxOf?_eq_none_iff.2 hnot]
  · rfl
  · rfl

end Rounds

section Spellings

theorem visibleTexts_append (a b : List Token) :
    visibleTexts (a ++ b) = visibleTexts a ++ visibleTexts b := by
  rw [visibleTexts, List.filter_append, List.map_append]
  rfl

theorem visibleTexts_cons_blank {t : Token} (h : t.isWhitespace = true) (rest : List Token) :
    visibleTexts (t :: rest) = visibleTexts rest := by
  rw [visibleTexts, List.filter_cons_of_neg (by rw [h]; decide)]
  rfl

theorem visibleTexts_cons_token {t : Token} (h : t.isWhitespace = false) (rest : List Token) :
    visibleTexts (t :: rest) = t.text :: visibleTexts rest := by
  rw [visibleTexts, List.filter_cons_of_pos (by rw [h]; decide)]
  rfl

theorem visibleTexts_nil : visibleTexts [] = [] := rfl

theorem visibleTexts_gap {gap : List Token} (h : ∀ t ∈ gap, t.isWhitespace = true) :
    visibleTexts gap = [] := by
  rw [visibleTexts, List.filter_eq_nil_iff.2 fun t ht => by rw [h t ht]; decide]
  rfl

theorem pasteTokens_visibleTexts (chars : CharClasses) (l r : Token) (rest : List Token) :
    visibleTexts (pasteTokens chars l r :: rest) = (l.text ++ r.text) :: visibleTexts rest := by
  apply visibleTexts_cons_token
  unfold pasteTokens Token.isWhitespace
  dsimp only
  cases (l.text ++ r.text).toList.head? with
  | none => rfl
  | some c =>
    dsimp only
    split_ifs <;> rfl

theorem pasteSpellings_nil_left (right : List String) : pasteSpellings [] right = right := by
  simp [pasteSpellings]

theorem pasteSpellings_nil_right (left : List String) : pasteSpellings left [] = left := by
  simp [pasteSpellings]

theorem pasteSpellings_concat (left : List String) (l r : String) (more : List String) :
    pasteSpellings (left ++ [l]) (r :: more) = left ++ (l ++ r) :: more := by
  simp [pasteSpellings]

theorem length_pasted_le (blank : Bool) (output right : List String) :
    (pasted blank output right).length ≤ output.length + right.length := by
  cases blank with
  | true => exact Nat.le_of_eq List.length_append
  | false =>
    rw [pasted, if_neg Bool.false_ne_true]
    rcases List.eq_nil_or_concat output with rfl | ⟨front, l, rfl⟩
    · rw [pasteSpellings_nil_left]
      exact Nat.le_add_left _ _
    · cases right with
      | nil =>
        rw [pasteSpellings_nil_right]
        exact Nat.le_refl _
      | cons r more =>
        rw [List.concat_eq_append, pasteSpellings_concat]
        simp only [List.length_append, List.length_cons]
        omega

/-- Another spelling in the place of the output's last one is not what `##` puts out, unless it
is that one with the first of the right operand. -/
theorem ne_pasted_of_last {blank : Bool} {front right more : List String} {l s : String}
    (hs : s ≠ l) (hright : ∀ r ∈ right.head?, s ≠ l ++ r ∨ more.length = right.length) :
    front ++ s :: more ≠ pasted blank (front ++ [l]) right := by
  intro h
  cases right with
  | nil =>
    rw [pasted, pasteSpellings_nil_right, List.append_nil, ite_self] at h
    exact hs (List.cons.inj (List.append_cancel_left h)).1
  | cons r right =>
    cases blank with
    | true =>
      rw [pasted, if_pos rfl, List.append_assoc, List.singleton_append] at h
      exact hs (List.cons.inj (List.append_cancel_left h)).1
    | false =>
      rw [pasted, if_neg Bool.false_ne_true, pasteSpellings_concat] at h
      obtain ⟨hfirst, hmore⟩ := List.cons.inj (List.append_cancel_left h)
      rcases hright r rfl with hne | hlength
      · exact hne hfirst
      · rw [hmore, List.length_cons] at hlength
        omega

/-- Something else in the place of the right operand's first spelling. -/
theorem ne_pasted_of_first {blank : Bool} {output more more' : List String} {r s : String}
    (hs : s ≠ r) (hr : r ≠ "" ∨ more.length = more'.length) :
    output ++ s :: more ≠ pasted blank output (r :: more') := by
  intro h
  cases blank with
  | true =>
    rw [pasted, if_pos rfl] at h
    exact hs (List.cons.inj (List.append_cancel_left h)).1
  | false =>
    rw [pasted, if_neg Bool.false_ne_true] at h
    rcases List.eq_nil_or_concat output with rfl | ⟨front, l, rfl⟩
    · rw [pasteSpellings_nil_left] at h
      exact hs (List.cons.inj h).1
    · rw [List.concat_eq_append, pasteSpellings_concat, List.append_assoc] at h
      obtain ⟨hl, hmore⟩ := List.cons.inj (List.append_cancel_left h)
      rcases hr with hr | hlength
      · exact hr ((String.append_right_inj l).1 (hl.symm.trans String.append_empty.symm))
      · have hlong : (s :: more).length = more'.length := congrArg List.length hmore
        rw [List.length_cons] at hlong
        omega

/-- More spellings than both operands have. -/
theorem ne_pasted_of_length {blank : Bool} {spellings output right : List String}
    (h : output.length + right.length < spellings.length) :
    spellings ≠ pasted blank output right := by
  rintro rfl
  exact Nat.lt_irrefl _ (Nat.lt_of_lt_of_le h (length_pasted_le blank output right))

end Spellings

section Places

variable {chars : CharClasses} {params : List String} {isVariadic : Bool}
  {variadicParam : Option String} {replacement : List Token} {args : List (List Token)}
  {hash : Token} {gap right value : List Token} {blank : Bool}

/-- In front of everything `##` is left out. -/
theorem paste_first (hhash : hash.text = "##")
    (hgap : ∀ t ∈ gap, t.isWhitespace = true ∧ t.Blank)
    (hvalue : (MacroDefinition.functionLike params isVariadic variadicParam replacement).operand
      args right = some value) :
    expandFunctionMacroTokens chars params isVariadic variadicParam args
      (hash :: (gap ++ right)) [] = .ok (gap ++ value) := by
  have hne : gap ++ right ≠ [] := by
    intro h
    rw [(List.append_eq_nil_iff.1 h).2] at hvalue
    cases hvalue
  obtain ⟨next, rest, hrest⟩ := List.exists_cons_of_ne_nil hne
  rw [hrest, expandFunctionMacroTokens, if_pos hhash]
  dsimp only [List.getLast?_nil]
  rw [← hrest, expandFunctionMacroTokens_gap hgap, expandFunctionMacroTokens_operand hvalue]
  rfl

/-- Behind an output, white space behind `##` is pasted to its last token. -/
theorem paste_gap (hhash : hash.text = "##") {front : List Token} {left w : Token}
    (hgap : ∀ t ∈ w :: gap, t.isWhitespace = true ∧ t.Blank)
    (hvalue : (MacroDefinition.functionLike params isVariadic variadicParam replacement).operand
      args right = some value) :
    expandFunctionMacroTokens chars params isVariadic variadicParam args
      (hash :: (w :: gap ++ right)) (front ++ [left]) =
        .ok (front ++ [pasteTokens chars left w] ++ gap ++ value) := by
  rw [List.forall_mem_cons] at hgap
  rw [List.cons_append, expandFunctionMacroTokens, if_pos hhash, List.getLast?_concat]
  dsimp only
  rw [getParamReplacement_whitespace hgap.1.1, List.dropLast_concat]
  dsimp only
  rw [List.append_nil, expandFunctionMacroTokens_gap hgap.2,
    expandFunctionMacroTokens_operand hvalue]

/-- The output whose last token is `left`, with the tokens of a right operand pasted to it. -/
def pasteOnto (chars : CharClasses) (front : List Token) (left : Token) : List Token → List Token
  | first :: more => front ++ [pasteTokens chars left first] ++ more
  | [] => front

/-- Behind an output, the token behind `##` is pasted to its last token. -/
theorem paste_token (hparams : Apart params isVariadic variadicParam) (hhash : hash.text = "##")
    {front rest : List Token} {left r : Token} :
    expandFunctionMacroTokens chars params isVariadic variadicParam args (hash :: r :: rest)
      (front ++ [left]) =
        expandFunctionMacroTokens chars params isVariadic variadicParam args rest
          (pasteOnto chars front left
            (substituteToken r params isVariadic variadicParam args)) := by
  rw [expandFunctionMacroTokens, if_pos hhash, List.getLast?_concat]
  dsimp only
  rw [getParamReplacement_eq hparams, List.dropLast_concat]
  cases substituteToken r params isVariadic variadicParam args <;> rfl

end Places

section Equivalence

variable {chars : CharClasses} {params : List String} {isVariadic : Bool}
  {variadicParam : Option String} {replacement : List Token} {args : List (List Token)}
  {hash : Token} {gap right value : List Token}

/-- The text of a literal starts with its quote. -/
theorem stringifyLoop_prefix (tokens : List Token) (first : Bool) (text : List Char) :
    ∃ more, stringifyLoop tokens first text = text ++ more := by
  induction tokens generalizing first text with
  | nil => exact ⟨[], (List.append_nil text).symm⟩
  | cons t rest ih =>
    rw [stringifyLoop]
    split_ifs
    · exact ih _ _
    · obtain ⟨more, hmore⟩ := ih first (text ++ [' '])
      exact ⟨' ' :: more, by rw [hmore, List.append_assoc]; rfl⟩
    · obtain ⟨more, hmore⟩ := ih false (text ++ [' '] ++ t.text.toList.flatMap fun c =>
        if c = '"' ∨ c = '\\' then ['\\', c] else [c])
      exact ⟨_, hmore.trans (by rw [List.append_assoc, List.append_assoc])⟩
    · obtain ⟨more, hmore⟩ := ih false (text ++ t.text.toList.flatMap fun c =>
        if c = '"' ∨ c = '\\' then ['\\', c] else [c])
      exact ⟨_, hmore.trans (List.append_assoc _ _ _)⟩

theorem stringifyArg_head (tokens : List Token) : (stringifyArg tokens).toList.head? = some '"' := by
  obtain ⟨more, hmore⟩ := stringifyLoop_prefix tokens true ['"']
  rw [stringifyArg, hmore, String.toList_ofList]
  rfl

theorem stringifyParam_head {name : Token} {text : String}
    (h : stringifyParam name params isVariadic variadicParam args = some (.ok text)) :
    text.toList.head? = some '"' := by
  rw [stringifyParam] at h
  cases hi : params.idxOf? name.text with
  | none =>
    rw [hi] at h
    dsimp only at h
    split_ifs at h
    obtain rfl := Except.ok.inj (Option.some.inj h)
    exact stringifyArg_head _
  | some i =>
    rw [hi] at h
    dsimp only at h
    cases hget : args[i]? with
    | none =>
      rw [hget] at h
      split_ifs at h
      cases h
    | some arg =>
      rw [hget] at h
      split_ifs at h
      obtain rfl := Except.ok.inj (Option.some.inj h)
      exact stringifyArg_head _

/-- White space behind `##` is never what C pastes. -/
theorem paste_gap_ne (blank : Bool) {front : List Token} {left w : Token}
    (hw : w.isWhitespace = true) (hblank : w.Blank) (hgap : ∀ t ∈ gap, t.isWhitespace = true) :
    visibleTexts (front ++ [pasteTokens chars left w] ++ gap ++ value) ≠
      pasted blank (visibleTexts (front ++ [left])) (visibleTexts value) := by
  simp only [visibleTexts_append, visibleTexts_gap hgap, pasteTokens_visibleTexts,
    List.append_assoc, List.nil_append]
  cases hleft : left.isWhitespace with
  | true =>
    rw [visibleTexts_cons_blank hleft]
    apply ne_pasted_of_length
    simp only [visibleTexts, List.filter_nil, List.map_nil, List.append_nil, List.length_append,
      List.length_cons, List.length_nil]
    omega
  | false =>
    rw [visibleTexts_cons_token hleft]
    exact ne_pasted_of_last (hblank.append_ne hw left.text).1 fun r _ => .inr rfl

/-- A single token behind `##` is pasted as in C just when it adjoins. -/
theorem paste_token_iff (blank : Bool) {front : List Token} {left : Token} (hleft : left.Blank)
    (hvalue : ∀ t ∈ value, t.Blank) :
    visibleTexts (pasteOnto chars front left value) =
        pasted blank (visibleTexts (front ++ [left])) (visibleTexts value) ↔
      (value = [] ∧ left.isWhitespace = true) ∨
        (blank = false ∧ left.isWhitespace = false ∧ ∃ t ∈ value.head?, t.isWhitespace = false) := by
  cases value with
  | nil =>
    have hnone : ¬(blank = false ∧ left.isWhitespace = false ∧
        ∃ t ∈ ([] : List Token).head?, t.isWhitespace = false) := fun ⟨_, _, t, ht, _⟩ => nomatch ht
    rw [or_iff_left hnone, and_iff_right rfl, pasteOnto, visibleTexts_append, visibleTexts_nil,
      pasted, pasteSpellings_nil_right, List.append_nil, ite_self]
    cases hw : left.isWhitespace with
    | true =>
      rw [visibleTexts_cons_blank hw]
      exact iff_of_true (List.append_nil _).symm rfl
    | false =>
      rw [visibleTexts_cons_token hw]
      refine iff_of_false (fun h => ?_) nofun
      have hlength := congrArg List.length h
      rw [List.length_append, List.length_cons] at hlength
      omega
  | cons first more =>
    rw [List.forall_mem_cons] at hvalue
    simp only [pasteOnto, visibleTexts_append, pasteTokens_visibleTexts, List.append_assoc,
      List.nil_append, List.cons_append, List.head?_cons, Option.mem_some_iff, exists_eq_left',
      false_and, false_or, reduceCtorEq]
    cases hfirst : first.isWhitespace with
    | true =>
      refine iff_of_false ?_ (fun h => absurd h.2.2 nofun)
      have hne := @paste_gap_ne chars [] more blank front left first hfirst hvalue.1 nofun
      simp only [visibleTexts_append, pasteTokens_visibleTexts, List.append_assoc, List.nil_append,
        visibleTexts_nil] at hne
      rw [visibleTexts_cons_blank hfirst]
      simpa using hne
    | false =>
      rw [visibleTexts_cons_token hfirst]
      cases hw : left.isWhitespace with
      | true =>
        refine iff_of_false (fun h => ?_) (fun h => absurd h.2.1 nofun)
        rw [visibleTexts_cons_blank hw, visibleTexts_nil, List.append_nil] at h
        exact ne_pasted_of_first (hleft.append_ne hw first.text).2 (.inr rfl) h
      | false =>
        rw [visibleTexts_cons_token hw]
        cases blank with
        | true =>
          refine iff_of_false (fun h => ?_) (fun h => absurd h.1 nofun)
          have hlength := congrArg List.length h
          rw [pasted, if_pos rfl] at hlength
          simp only [List.length_append, List.length_cons] at hlength
          omega
        | false =>
          refine iff_of_true ?_ ⟨rfl, rfl, rfl⟩
          rw [visibleTexts_nil, pasted, if_neg Bool.false_ne_true, pasteSpellings_concat]

/-- `#` behind `##` is pasted as a token of its own. -/
theorem paste_hash_ne (blank : Bool) {front rest : List Token} {left sharp literal : Token}
    (hleft : left.Blank) (hsharp : sharp.text = "#") (hkind : literal.isWhitespace = false)
    (hliteral : literal.text.toList.head? = some '"') :
    visibleTexts (front ++ [pasteTokens chars left sharp] ++ rest) ≠
      pasted blank (visibleTexts (front ++ [left])) (visibleTexts [literal]) := by
  have hne : literal.text ≠ "" := by
    intro h
    rw [h] at hliteral
    cases hliteral
  simp only [visibleTexts_append, pasteTokens_visibleTexts, List.append_assoc,
    visibleTexts_cons_token hkind, visibleTexts_nil, List.cons_append, List.nil_append, hsharp]
  cases hw : left.isWhitespace with
  | true =>
    rw [visibleTexts_cons_blank hw, visibleTexts_nil, List.append_nil]
    refine ne_pasted_of_first (fun h => ?_) (.inl hne)
    obtain ⟨c, more, htext, hc⟩ := hleft hw
    rw [← h, String.toList_append, htext, List.cons_append] at hliteral
    obtain rfl := Option.some.inj hliteral
    exact absurd hc (by decide)
  | false =>
    rw [visibleTexts_cons_token hw, visibleTexts_nil]
    refine ne_pasted_of_last (fun h => ?_) fun r hr => .inl fun h => ?_
    · have hlength := congrArg String.length h
      rw [String.length_append, show "#".length = 1 from rfl] at hlength
      omega
    · obtain rfl := Option.some.inj hr
      rw [← (String.append_right_inj left.text).1 h] at hliteral
      exact absurd hliteral (by decide)

theorem mem_intercalate {u comma : Token} {l : List (List Token)}
    (h : u ∈ [comma].intercalate l) : u = comma ∨ u ∈ l.flatten := by
  induction l with
  | nil => cases h
  | cons a l ih =>
    cases l with
    | nil =>
      rw [List.intercalate_singleton] at h
      exact .inr (by simpa using h)
    | cons b l =>
      rw [List.intercalate_cons_cons, List.mem_append, List.mem_append, List.mem_singleton] at h
      rw [List.flatten_cons, List.mem_append]
      rcases h with (h | h) | h
      · exact .inr (.inl h)
      · exact .inl h
      · exact (ih h).imp_right .inr

theorem mem_substituteToken {t u : Token}
    (h : u ∈ substituteToken t params isVariadic variadicParam args) :
    u = t ∨ u ∈ args.flatten ∨ u.isWhitespace = false := by
  rw [substituteToken] at h
  split_ifs at h
  · rcases mem_intercalate h with rfl | hmem
    · exact .inr (.inr rfl)
    · obtain ⟨arg, harg, hu⟩ := List.mem_flatten.1 hmem
      exact .inr (.inl (List.mem_flatten.2 ⟨arg, List.mem_of_mem_drop harg, hu⟩))
  · cases hi : params.idxOf? t.text with
    | none =>
      rw [hi] at h
      exact .inl (List.mem_singleton.1 h)
    | some i =>
      rw [hi] at h
      simp only [List.getD_eq_getElem?_getD] at h
      cases hget : args[i]? with
      | none =>
        rw [hget] at h
        exact .inl (List.mem_singleton.1 h)
      | some arg =>
        rw [hget] at h
        exact .inr (.inl (List.mem_flatten.2 ⟨arg, List.mem_of_getElem? hget, h⟩))
  · exact .inl (List.mem_singleton.1 h)

theorem substituteToken_blank (hargs : ∀ t ∈ args.flatten, t.Blank) {t : Token} (ht : t.Blank) :
    ∀ u ∈ substituteToken t params isVariadic variadicParam args, u.Blank := by
  intro u hu
  rcases mem_substituteToken hu with rfl | hmem | hkind
  · exact ht
  · exact hargs u hmem
  · exact fun hw => absurd (hw.symm.trans hkind) nofun

end Equivalence

section Runs

variable {chars : CharClasses} {params : List String} {isVariadic : Bool}
  {variadicParam : Option String} {replacement : List Token} {args : List (List Token)}

theorem forall_blank_append {a b : List Token} (ha : ∀ t ∈ a, t.Blank) (hb : ∀ t ∈ b, t.Blank) :
    ∀ t ∈ a ++ b, t.Blank := by
  rw [List.forall_mem_append]
  exact ⟨ha, hb⟩

theorem pasteTokens_blank (l r : Token) : (pasteTokens chars l r).Blank := by
  intro hw
  have hvisible := pasteTokens_visibleTexts chars l r []
  rw [visibleTexts_cons_blank hw] at hvisible
  cases hvisible

/-- What one round puts out is spelled as the replacement and the arguments are. -/
theorem substituteRound_blank (hparams : Apart params isVariadic variadicParam)
    (hargs : ∀ t ∈ args.flatten, t.Blank) {t : Token} {rest result : List Token}
    {p : List Token × List Token} (ht : t.Blank) (hrest : ∀ u ∈ rest, u.Blank)
    (hresult : ∀ u ∈ result, u.Blank)
    (h : substituteRound chars params isVariadic variadicParam args t rest result = .ok p) :
    ∀ u ∈ p.2, u.Blank := by
  have htoken := forall_blank_append hresult
    (@substituteToken_blank params isVariadic variadicParam args hargs t ht)
  cases rest with
  | nil =>
    obtain rfl := Except.ok.inj h
    dsimp only
    split_ifs
    · exact hresult
    · exact htoken
  | cons next behind =>
    have hdrop : ∀ u ∈ result.dropLast, u.Blank := fun u hu =>
      hresult u ((List.dropLast_sublist result).subset hu)
    rw [substituteRound] at h
    split_ifs at h
    · cases hlast : result.getLast? with
      | none =>
        rw [hlast] at h
        obtain rfl := Except.ok.inj h
        exact hresult
      | some left =>
        rw [hlast, getParamReplacement_eq hparams] at h
        have hnext := @substituteToken_blank params isVariadic variadicParam args hargs next
          (hrest next List.mem_cons_self)
        dsimp only at h
        cases hvalue : substituteToken next params isVariadic variadicParam args with
        | nil =>
          rw [hvalue] at h
          obtain rfl := Except.ok.inj h
          exact hdrop
        | cons right more =>
          rw [hvalue] at h hnext
          obtain rfl := Except.ok.inj h
          refine forall_blank_append (forall_blank_append hdrop ?_) fun u hu =>
            hnext u (List.mem_cons_of_mem right hu)
          rw [List.forall_mem_singleton]
          exact pasteTokens_blank left right
    · cases htext : stringifyParam next params isVariadic variadicParam args with
      | none =>
        rw [htext] at h
        obtain rfl := Except.ok.inj h
        exact htoken
      | some text =>
        cases text with
        | error e =>
          rw [htext] at h
          cases h
        | ok text =>
          rw [htext] at h
          obtain rfl := Except.ok.inj h
          refine forall_blank_append hresult ?_
          rw [List.forall_mem_singleton]
          rintro ⟨⟩
    · obtain rfl := Except.ok.inj h
      exact htoken

theorem expandFunctionMacroTokens_blank (hparams : Apart params isVariadic variadicParam)
    (hargs : ∀ t ∈ args.flatten, t.Blank) {tokens result output : List Token}
    (htokens : ∀ t ∈ tokens, t.Blank) (hresult : ∀ t ∈ result, t.Blank)
    (h : expandFunctionMacroTokens chars params isVariadic variadicParam args tokens result =
      .ok output) : ∀ t ∈ output, t.Blank := by
  induction hlength : tokens.length using Nat.strongRecOn generalizing tokens result with
  | ind n ih =>
    cases tokens with
    | nil =>
      obtain rfl := Except.ok.inj h
      exact hresult
    | cons t rest =>
      rw [List.forall_mem_cons] at htokens
      rw [expandFunctionMacroTokens_cons] at h
      cases hround : substituteRound chars params isVariadic variadicParam args t rest result with
      | error e =>
        rw [hround] at h
        cases h
      | ok p =>
        rw [hround] at h
        have hsuffix : p.1 <:+ rest := by
          rcases substituteRound_fst hround with heq | ⟨heq, -⟩
          · exact heq ▸ List.suffix_refl _
          · exact heq ▸ List.tail_suffix rest
        have hshort := hsuffix.length_le
        refine ih p.1.length (by rw [← hlength, List.length_cons]; omega)
          (fun u hu => htokens.2 u (hsuffix.mem hu)) ?_ h rfl
        exact substituteRound_blank hparams hargs htokens.1 htokens.2 hresult hround

end Runs

section Equivalence

variable {chars : CharClasses} {args : List (List Token)}

/-- No parameter of a function-like macro has the name of the variable arguments. -/
def MacroDefinition.Apart : MacroDefinition → Prop
  | objectLike _ => True
  | functionLike params isVariadic variadicParam _ =>
    Preprocessor.Apart params isVariadic variadicParam

/-- What the loop puts out for `##` and its right operand is what C does just when they adjoin. -/
theorem adjoins_iff {params : List String} {isVariadic : Bool} {variadicParam : Option String}
    {replacement output gap right value : List Token} {hash : Token} (blank : Bool)
    (hparams : Apart params isVariadic variadicParam) (hargs : ∀ t ∈ args.flatten, t.Blank)
    (hhash : hash.text = "##") (houtput : ∀ t ∈ output, t.Blank)
    (hgap : ∀ t ∈ gap, t.isWhitespace = true ∧ t.Blank) (hright : ∀ t ∈ right, t.Blank)
    (hvalue : (MacroDefinition.functionLike params isVariadic variadicParam replacement).operand
      args right = some value) :
    ∃ result, expandFunctionMacroTokens chars params isVariadic variadicParam args
        (hash :: (gap ++ right)) output = .ok result ∧
      (visibleTexts result = pasted blank (visibleTexts output) (visibleTexts value) ↔
        Adjoins blank output gap right value) := by
  rcases List.eq_nil_or_concat output with rfl | ⟨front, left, rfl⟩
  · refine ⟨_, paste_first hhash hgap hvalue, iff_of_true ?_ (.inl rfl)⟩
    rw [visibleTexts_append, visibleTexts_gap fun t ht => (hgap t ht).1, visibleTexts_nil, pasted,
      pasteSpellings_nil_left]
    cases blank <;> rfl
  · rw [List.concat_eq_append] at houtput ⊢
    have hleft := houtput left (by simp)
    have hne : front ++ [left] ≠ [] := by simp
    rw [Adjoins, or_iff_right hne]
    simp only [List.getLast?_concat, Option.mem_some_iff, exists_eq_left']
    match gap, right, hvalue with
    | w :: gap, right, hvalue =>
      rw [List.forall_mem_cons] at hgap
      refine ⟨_, paste_gap hhash (List.forall_mem_cons.2 hgap) hvalue, iff_of_false ?_ nofun⟩
      exact paste_gap_ne blank hgap.1.1 hgap.1.2 fun t ht => (hgap.2 t ht).1
    | [], [r], hvalue =>
      simp only [MacroDefinition.operand, MacroDefinition.standsFor] at hvalue
      split_ifs at hvalue
      obtain rfl := Option.some.inj hvalue
      refine ⟨_, paste_token hparams hhash, ?_⟩
      rw [and_iff_right rfl, and_iff_right List.length_singleton]
      refine (paste_token_iff blank hleft (substituteToken_blank hargs ?_))
      exact hright r List.mem_cons_self
    | [], [sharp, name], hvalue =>
      simp only [MacroDefinition.operand, MacroDefinition.literal] at hvalue
      split_ifs at hvalue with hop
      obtain ⟨hsharp, hkind, hname⟩ := hop
      obtain ⟨literal, hliteral, rfl⟩ := Option.map_eq_some_iff.1 hvalue
      have htoken : substituteToken sharp params isVariadic variadicParam args = [sharp] := by
        rw [substituteToken, if_neg (by rw [hkind]; decide)]
      refine ⟨front ++ [pasteTokens chars left sharp] ++
        substituteToken name params isVariadic variadicParam args, ?_, iff_of_false ?_ ?_⟩
      · have hplain : name.text ≠ "##" := fun h => hname (by
          rw [h]
          exact List.mem_cons_of_mem _ List.mem_cons_self)
        rw [List.nil_append, paste_token hparams hhash, htoken,
          expandFunctionMacroTokens_singleton hplain, pasteOnto, List.append_nil]
      · cases hstring : stringifyParam name params isVariadic variadicParam args with
        | none =>
          rw [hstring] at hliteral
          cases hliteral
        | some text =>
          cases text with
          | error e =>
            rw [hstring] at hliteral
            cases hliteral
          | ok text =>
            rw [hstring] at hliteral
            obtain rfl := Option.some.inj hliteral
            exact paste_hash_ne blank hleft hsharp rfl (stringifyParam_head hstring)
      · exact fun h => nomatch h.2.1

theorem expandReplacement_append (chars : CharClasses) {d : MacroDefinition} {front : List Token}
    (rest result : List Token) (hlast : ∀ t ∈ front.getLast?, t.text ∉ ["#", "##"]) :
    expandReplacement chars d args (front ++ rest) result =
      (expandReplacement chars d args front result).bind
        fun r => expandReplacement chars d args rest r := by
  cases d with
  | objectLike replacement => exact congrArg Except.ok (List.append_assoc result front rest).symm
  | functionLike params isVariadic variadicParam replacement =>
    refine expandFunctionMacroTokens_append front rest result fun t ht => ?_
    have hnot := hlast t ht
    simp only [List.mem_cons, List.not_mem_nil, or_false, not_or] at hnot
    exact hnot

namespace PasteSite

theorem mem_body {d : MacroDefinition} (s : PasteSite d args) {t : Token}
    (h : t ∈ s.front ++ s.hash :: (s.gap ++ s.right)) : t ∈ d.body := by
  rw [s.split, ← List.append_assoc s.gap, ← List.cons_append, ← List.append_assoc]
  exact List.mem_append_left _ h

variable {params : List String} {isVariadic : Bool} {variadicParam : Option String}
  {replacement : List Token}

/-- The place behind a front that ends in an operand is not inside of an operator. -/
theorem front_last
    (s : PasteSite (.functionLike params isVariadic variadicParam replacement) args)
    (hbody : ∀ t ∈ replacement, t.Blank) : ∀ t ∈ s.front.getLast?, t.text ∉ ["#", "##"] := by
  intro t ht
  obtain ⟨init, hinit⟩ := List.getLast?_eq_some_iff.1 (Option.mem_def.1 ht)
  cases hw : t.isWhitespace with
  | true =>
    have hmem : t ∈ replacement := s.mem_body (by rw [hinit]; simp)
    have hnot := (hbody t hmem).not_operator hw
    simp only [List.mem_cons, List.not_mem_nil, or_false, not_or]
    exact hnot
  | false =>
    have hleft := s.left_last
    rw [hinit, List.filter_append, List.filter_cons_of_pos (by rw [hw]; decide), List.filter_nil,
      List.getLast?_concat] at hleft
    rw [Option.some.inj hleft]
    exact s.left_operand

/-- A `##` of a function-like macro is pasted as in C just when its operands adjoin. -/
theorem right_iff
    (s : PasteSite (.functionLike params isVariadic variadicParam replacement) args)
    (hparams : Apart params isVariadic variadicParam) (hbody : ∀ t ∈ replacement, t.Blank)
    (hargs : ∀ t ∈ args.flatten, t.Blank) : s.Right chars ↔ s.Adjoins chars := by
  have hfront := s.front_last hbody
  have hright : ∀ t ∈ s.right.getLast?, t.text ∉ ["#", "##"] := operand_last s.right_value
  refine forall_congr' fun output => forall_congr' fun houtput => ?_
  have hblank : ∀ t ∈ output, t.Blank := by
    refine expandFunctionMacroTokens_blank hparams hargs (fun t ht => ?_) (List.forall_mem_nil _)
      houtput
    exact hbody t (s.mem_body (List.mem_append_left _ ht))
  obtain ⟨result, hresult, hiff⟩ := @adjoins_iff chars _ _ _ _ _ _ _ _ _ _
    ((MacroDefinition.functionLike params isVariadic variadicParam replacement).leftBlank args
      s.front false true)
    hparams hargs s.isPaste hblank
    (fun t ht => ⟨s.gap_blank t ht, hbody t (s.mem_body (by simp [ht]))⟩)
    (fun t ht => hbody t (s.mem_body (by simp [ht]))) s.right_value
  rw [← hiff]
  have hthrough : expandReplacement chars
      (.functionLike params isVariadic variadicParam replacement) args
      (s.front ++ s.hash :: (s.gap ++ s.right)) [] = .ok result := by
    rw [expandReplacement_append chars _ _ hfront, houtput]
    exact hresult
  have hwhole : expandReplacement chars
      (.functionLike params isVariadic variadicParam replacement) args replacement [] =
      expandReplacement chars (.functionLike params isVariadic variadicParam replacement) args
        s.behind result := by
    have hlist : replacement = (s.front ++ s.hash :: (s.gap ++ s.right)) ++ s.behind := by
      have hsplit : replacement = _ := s.split
      simpa using hsplit
    have hlast : ∀ t ∈ (s.front ++ s.hash :: (s.gap ++ s.right)).getLast?,
        t.text ∉ ["#", "##"] := by
      obtain ⟨r, hr⟩ : ∃ r, s.right.getLast? = some r := by
        cases hempty : s.right with
        | nil =>
          have hvalue := s.right_value
          rw [hempty] at hvalue
          cases hvalue
        | cons r right => exact ⟨_, List.getLast?_cons⟩
      intro t ht
      rw [← List.cons_append, ← List.append_assoc, List.getLast?_append, hr] at ht
      exact hright t (by rw [hr]; exact ht)
    have hexpand := @expandReplacement_append args chars
      (.functionLike params isVariadic variadicParam replacement) _ s.behind [] hlast
    rw [hthrough, ← hlist] at hexpand
    exact hexpand
  constructor
  · rintro ⟨r, hr, -, hvisible⟩
    rw [hthrough] at hr
    obtain rfl := Except.ok.inj hr
    exact hvisible
  · exact fun h => ⟨result, hthrough, hwhole, h⟩

/-- An object-like macro keeps its `##`. -/
theorem not_right_objectLike (s : PasteSite (.objectLike replacement) args)
    (hbody : ∀ t ∈ replacement, t.Blank) : ¬ s.Right chars := by
  intro h
  obtain ⟨result, hresult, -, hvisible⟩ := h s.front rfl
  obtain rfl := Except.ok.inj hresult
  have hhash : s.hash.isWhitespace = false := by
    cases hw : s.hash.isWhitespace with
    | true =>
      have hnot := (hbody s.hash (s.mem_body (by simp))).not_operator hw
      exact absurd s.isPaste hnot.2
    | false => rfl
  have hright := operand_objectLike s.right_value
  rw [List.nil_append, visibleTexts_append, visibleTexts_cons_token hhash, visibleTexts_append,
    visibleTexts_gap s.gap_blank, hright] at hvisible
  refine ne_pasted_of_length ?_ hvisible
  simp only [List.length_append, List.length_cons, List.nil_append]
  omega

end PasteSite

end Equivalence

section Examples

/-- `#define CONCAT(a, b) a##b`, with nothing around `##`. -/
def concatMacro : MacroDefinition :=
  .functionLike ["a", "b"] false none [ident "a", punct "##", ident "b"]

/-- `#define CONCAT(a, b) a ## b` -/
def spacedConcat : MacroDefinition :=
  .functionLike ["a", "b"] false none
    [ident "a", tokenOf .whitespace " ", punct "##", tokenOf .whitespace " ", ident "b"]

theorem concatMacro_site {args : List (List Token)} (s : PasteSite concatMacro args) :
    s.front = [ident "a"] ∧ s.gap = [] ∧ s.right = [ident "b"] := by
  have hsplit : [ident "a", punct "##", ident "b"] = _ := s.split
  have hpaste := s.isPaste
  cases hfront : s.front with
  | nil =>
    rw [hfront] at hsplit
    rw [← (List.cons.inj hsplit).1] at hpaste
    exact absurd hpaste (by decide)
  | cons f front =>
    rw [hfront] at hsplit
    obtain ⟨rfl, htail⟩ := List.cons.inj hsplit
    cases front with
    | nil =>
      have hrest : [ident "b"] = s.gap ++ (s.right ++ s.behind) := (List.cons.inj htail).2
      have hvalue := s.right_value
      have hblank := s.gap_blank
      cases hgap : s.gap with
      | nil =>
        rw [hgap, List.nil_append] at hrest
        cases hright : s.right with
        | nil =>
          rw [hright] at hvalue
          cases hvalue
        | cons r more =>
          rw [hright] at hrest
          obtain ⟨rfl, hmore⟩ := List.cons.inj hrest
          rw [(List.append_eq_nil_iff.1 hmore.symm).1]
          exact ⟨rfl, rfl, rfl⟩
      | cons w gap =>
        rw [hgap] at hrest hblank
        rw [← (List.cons.inj hrest).1] at hblank
        exact absurd (hblank _ List.mem_cons_self) (by decide)
    | cons g front =>
      have hrest : [ident "b"] = front ++ s.hash :: (s.gap ++ (s.right ++ s.behind)) :=
        (List.cons.inj htail).2
      cases front with
      | nil =>
        rw [← (List.cons.inj hrest).1] at hpaste
        exact absurd hpaste (by decide)
      | cons h front => cases (List.append_eq_nil_iff.1 (List.cons.inj hrest).2.symm).2

/-- The site of `##` in the second definition, for the invocation `CONCAT(x, y)`. -/
def spacedSite : PasteSite spacedConcat [[ident "x"], [ident "y"]] where
  front := [ident "a", tokenOf .whitespace " "]
  hash := punct "##"
  gap := [tokenOf .whitespace " "]
  right := [ident "b"]
  behind := []
  left := ident "a"
  value := [ident "y"]
  split := rfl
  isPaste := rfl
  gap_blank := by decide
  left_last := rfl
  left_operand := by decide
  right_value := by decide
  not_gnu := fun h => absurd h.1 (by decide)

end Examples

end OpticC.Preprocessor
