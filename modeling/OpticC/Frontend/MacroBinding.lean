import Mathlib.Logic.Function.Basic
import OpticC.Frontend.ConditionalInclusion

/-! When the names in a replacement list are bound: `process_define` replaces object-like macros
at the definition, so the stored table is what was written only where there are none. -/

namespace OpticC.Preprocessor

section AsWritten

/-- The definitions in force, with their replacement lists as written. -/
abbrev MacroMap := String → Option MacroDefinition

def asMap (table : MacroTable) : MacroMap := fun name => table.lookup name

def MacroDefinition.replacement : MacroDefinition → List Token
  | objectLike replacement => replacement
  | functionLike _ _ _ replacement => replacement

/-- The definition with its replacement list bound to the macros of the table. -/
def MacroDefinition.bindEarly (table : MacroTable) : MacroDefinition → MacroDefinition
  | objectLike replacement => .objectLike (expandTokensInMacro table replacement)
  | functionLike params isVariadic variadicParam replacement =>
    .functionLike params isVariadic variadicParam (expandTokensInMacro table replacement)

/-- What a `#define` line says, and where the next line begins. -/
def definitionAsWritten (tokens : List PpToken) (file : String) :
    Except String ((String × MacroDefinition) × List PpToken) :=
  let define (name : String) (body : List PpToken) (make : List Token → MacroDefinition) :=
    ((name, make (ppTokensToTokens (body.takeWhile fun t => t.kind != .newline) file)),
      skipToDirectiveEnd body)
  match skipWhitespace tokens with
  | [] => .error "expected macro name after #define"
  | t :: rest =>
    if t.kind ≠ .identifier then .error "expected macro name after #define"
    else match rest with
      | paren :: inside =>
        if paren.text = "(" then do
          let (params, isVariadic, variadicParam, body) ← parseMacroParams file inside []
          return define t.text (skipWhitespace body)
            (.functionLike params isVariadic variadicParam)
        else return define t.text rest .objectLike
      | [] => return define t.text [] .objectLike

theorem processDefine_eq (table : MacroTable) (tokens : List PpToken) (file : String) :
    processDefine table tokens file = (definitionAsWritten tokens file).map fun r =>
      ((r.1.1, r.1.2.bindEarly table) :: table, r.2) := by
  unfold processDefine definitionAsWritten
  cases skipWhitespace tokens with
  | nil => rfl
  | cons t rest =>
    simp only
    split_ifs
    · rfl
    · cases rest with
      | nil => rfl
      | cons paren inside =>
        simp only
        split_ifs
        · cases parseMacroParams file inside [] <;> rfl
        · rfl

/-- The token is replaced when it stands in the list of a `#define`. -/
def BoundEarly (map : MacroMap) (t : Token) : Prop :=
  t.kind = .identifier ∧ (t.text = "__LINE__" ∨ t.text = "__FILE__" ∨
    t.text ≠ "__VA_ARGS__" ∧ ∃ replacement, map t.text = some (.objectLike replacement))

theorem expandTokensInMacro_eq_self {table : MacroTable} {tokens : List Token}
    (h : ∀ t ∈ tokens, ¬BoundEarly (asMap table) t) : expandTokensInMacro table tokens = tokens := by
  induction tokens with
  | nil => rfl
  | cons t rest ih =>
    obtain ⟨ht, hrest⟩ := List.forall_mem_cons.1 h
    rw [expandTokensInMacro, ih hrest]
    by_cases hmark : t.text = "##" ∨ t.text = "#" ∧ rest ≠ []
    · rw [if_pos hmark]
      rfl
    rw [if_neg hmark]
    by_cases hkind : t.kind = .identifier
    · have hline : t.text ≠ "__LINE__" := fun h => ht ⟨hkind, .inl h⟩
      have hfile : t.text ≠ "__FILE__" := fun h => ht ⟨hkind, .inr (.inl h)⟩
      rw [if_pos hkind, if_neg hline, if_neg hfile]
      by_cases hva : t.text = "__VA_ARGS__"
      · rw [if_pos hva]
        rfl
      rw [if_neg hva]
      cases hlookup : table.lookup t.text with
      | none => rfl
      | some m =>
        cases m with
        | objectLike replacement => exact absurd ⟨hkind, .inr (.inr ⟨hva, _, hlookup⟩)⟩ ht
        | functionLike => rfl
    · rw [if_neg hkind]
      rfl

theorem MacroDefinition.bindEarly_eq_self {table : MacroTable} {m : MacroDefinition}
    (h : ∀ t ∈ m.replacement, ¬BoundEarly (asMap table) t) : m.bindEarly table = m := by
  cases m with
  | objectLike replacement =>
    exact congrArg MacroDefinition.objectLike (expandTokensInMacro_eq_self h)
  | functionLike params isVariadic variadicParam replacement =>
    exact congrArg (MacroDefinition.functionLike params isVariadic variadicParam)
      (expandTokensInMacro_eq_self h)

end AsWritten

section Lookup

variable {table table' : MacroTable}

theorem scanToken_congr (h : asMap table = asMap table') (chars : CharClasses)
    (expanding : List String) (t : Token) (rest : List Token) :
    scanToken chars table expanding t rest = scanToken chars table' expanding t rest := by
  unfold scanToken
  rw [show table.lookup t.text = table'.lookup t.text from congrFun h t.text]

theorem outputs_congr (h : asMap table = asMap table') (chars : CharClasses)
    (expanding : List String) (tokens : List Token) :
    outputs chars table expanding tokens = outputs chars table' expanding tokens := by
  fun_induction outputs chars table expanding tokens with
  | case1 => rw [outputs]
  | case2 t rest ih =>
    rw [outputs]
    rw [scanToken_congr h] at ih ⊢
    rw [ih]

/-- Expansion asks the table for nothing but the definitions of names. -/
theorem expandMacroTokensWithStack_congr (h : asMap table = asMap table')
    (chars : CharClasses) (fuel : ℕ) (tokens : List Token) (expanding : List String) :
    expandMacroTokensWithStack chars table fuel tokens expanding =
      expandMacroTokensWithStack chars table' fuel tokens expanding := by
  induction fuel generalizing tokens expanding with
  | zero => rfl
  | succ fuel ih =>
    rw [expandMacroTokensWithStack, expandMacroTokensWithStack, outputs_congr h]
    congr 2
    funext o
    cases o with
    | push t => rfl
    | scan functionLike name tokens expanding => exact ih tokens expanding
    | fault e => rfl

theorem asMap_cons (name : String) (m : MacroDefinition) (table : MacroTable) :
    asMap ((name, m) :: table) = Function.update (asMap table) name (some m) := by
  funext n
  unfold asMap
  by_cases hn : n = name
  · rw [hn, Function.update_self, List.lookup_cons_self]
  · rw [Function.update_of_ne hn, List.lookup_cons, beq_false_of_ne hn]

theorem asMap_filter (name : String) (table : MacroTable) :
    asMap (table.filter fun entry => entry.1 != name) =
      Function.update (asMap table) name none := by
  funext n
  unfold asMap
  induction table with
  | nil => by_cases hn : n = name <;> simp [hn]
  | cons entry rest ih =>
    obtain ⟨key, m⟩ := entry
    by_cases hn : n = name
    · subst hn
      rw [Function.update_self] at ih ⊢
      by_cases hkey : key = n
      · rw [List.filter_cons_of_neg (by simp [hkey])]
        exact ih
      · rw [List.filter_cons_of_pos (by simp [hkey]), List.lookup_cons,
          beq_false_of_ne (Ne.symm hkey)]
        exact ih
    · rw [Function.update_of_ne hn] at ih ⊢
      by_cases hkey : key = name
      · rw [List.filter_cons_of_neg (by simp [hkey]), ih, List.lookup_cons,
          beq_false_of_ne (fun h => hn (h.trans hkey))]
      · rw [List.filter_cons_of_pos (by simp [hkey]), List.lookup_cons, List.lookup_cons, ih]

end Lookup

section Sources

/-- The directives of a source that has only macros and text. -/
inductive MacroDirective where
  | define (line : Line (.plain .define))
  | undef (line : Line (.plain .undef))

def MacroDirective.part : MacroDirective → Part
  | define line => .directive .define line
  | undef line => .directive .undef line

/-- A source of `#define`, `#undef` and text: each directive with the text in front of it. -/
abbrev MacroLines := List (List PpToken × MacroDirective)

/-- The lines with a last run of text behind them. -/
def groupOf : MacroLines → List PpToken → Group
  | [], text => .last text
  | (before, m) :: lines, text => .next before m.part (groupOf lines text)

variable {σ : Type} (S : Services σ) (file : String)

/-- The effect of a directive on the definitions in force, as written. -/
def MacroDirective.written (map : MacroMap) : MacroDirective → MacroMap
  | define line =>
    match definitionAsWritten line.rest file with
    | .ok ((name, m), _) => Function.update map name (some m)
    | .error _ => map
  | undef line =>
    match skipWhitespace line.rest with
    | t :: _ => if t.kind = .identifier then Function.update map t.text none else map
    | [] => map

/-- The definitions in force behind the lines. -/
def writtenMap : MacroMap → MacroLines → MacroMap
  | map, [] => map
  | map, (_, m) :: lines => writtenMap (m.written file map) lines

/-- Nothing is replaced in the list of the `#define`. -/
def MacroDirective.LateBound (map : MacroMap) : MacroDirective → Prop
  | define line => ∀ name m rest, definitionAsWritten line.rest file = .ok ((name, m), rest) →
      ∀ t ∈ m.replacement, ¬BoundEarly map t
  | undef _ => True

/-- No list of the source is replaced under the definitions in force at its line. -/
def LateBound : MacroMap → MacroLines → Prop
  | _, [] => True
  | map, (_, m) :: lines => m.LateBound file map ∧ LateBound (m.written file map) lines

/-- The unit and the output behind the lines. -/
def afterLines (d : Doc σ) : MacroLines → Except PreprocessorError (Doc σ)
  | [] => .ok d
  | (before, m) :: lines =>
    match emit S file d before with
    | .error f => .error (.fault f)
    | .ok d =>
      match m.part.run S file d 0 with
      | (_, .error e) => .error e.1
      | (d, .ok _) => afterLines d lines

/-- One directive, when nothing is bound early: the stored table stays what was written. -/
theorem MacroDirective.run_written {m : MacroDirective} {d d' : Doc σ} {carry : List PpToken}
    {left : ℕ} {map : MacroMap} (hmap : asMap d.unit.macros = map) (hlate : m.LateBound file map)
    (h : m.part.run S file d left = (d', .ok carry)) :
    asMap d'.unit.macros = m.written file map := by
  subst hmap
  cases m with
  | define line =>
    rw [MacroDirective.part, Part.run, perform, processDefine_eq] at h
    rw [MacroDirective.written]
    cases hdef : definitionAsWritten line.rest file with
    | error e =>
      rw [hdef] at h
      cases h
    | ok r =>
      obtain ⟨⟨name, m⟩, rest⟩ := r
      rw [hdef] at h
      cases h
      simp only
      rw [m.bindEarly_eq_self (hlate name m rest hdef), asMap_cons]
  | undef line =>
    rw [MacroDirective.part, Part.run, perform, processUndef] at h
    rw [MacroDirective.written]
    cases hskip : skipWhitespace line.rest with
    | nil =>
      rw [hskip] at h
      cases h
      rfl
    | cons t rest =>
      rw [hskip] at h
      simp only at h ⊢
      split_ifs at h ⊢
      · cases h
        exact asMap_filter t.text d.unit.macros
      · cases h
        rfl

/-- A run in which nothing is bound early: the stored table is what was written. -/
theorem afterLines_written {lines : MacroLines} {d d' : Doc σ} {map : MacroMap}
    (hmap : asMap d.unit.macros = map) (hlate : LateBound file map lines)
    (h : afterLines S file d lines = .ok d') :
    asMap d'.unit.macros = writtenMap file map lines := by
  induction lines generalizing d map with
  | nil =>
    cases h
    exact hmap
  | cons l lines ih =>
    obtain ⟨before, m⟩ := l
    rw [afterLines] at h
    cases hemit : emit S file d before with
    | error f =>
      rw [hemit] at h
      cases h
    | ok d₁ =>
      rw [hemit] at h
      simp only at h
      cases hrun : m.part.run S file d₁ 0 with
      | mk d₂ r =>
        rw [hrun] at h
        cases r with
        | error e => cases h
        | ok carry =>
          have hunit : d₁.unit = d.unit := by
            unfold emit at hemit
            split_ifs at hemit
            · cases hemit
              rfl
            · cases hexpand : S.expand d.unit.macros (ppTokensToTokens before file) with
              | error f =>
                rw [hexpand] at hemit
                cases hemit
              | ok tokens =>
                rw [hexpand] at hemit
                cases hemit
                rfl
          exact ih (m.run_written S file (hunit ▸ hmap) hlate.1 hrun) hlate.2 h

theorem definitionAsWritten_rest {d : Directive} (line : Line d) {r : String × MacroDefinition}
    {rest : List PpToken} (h : definitionAsWritten line.rest file = .ok (r, rest)) : rest = [] := by
  unfold definitionAsWritten at h
  simp only at h
  cases hname : skipWhitespace line.rest with
  | nil =>
    rw [hname] at h
    cases h
  | cons t behind =>
    have hbehind := skipWhitespace_cons_suffix hname
    rw [hname] at h
    simp only at h
    split_ifs at h
    cases behind with
    | nil =>
      cases h
      rfl
    | cons paren inside =>
      simp only at h
      split_ifs at h
      · cases hparams : parseMacroParams file inside [] with
        | error e =>
          rw [hparams] at h
          cases h
        | ok r =>
          have hbody := parseMacroParams_suffix file inside [] hparams
          rw [hparams] at h
          cases h
          exact line.skipToDirectiveEnd_suffix ((skipWhitespace_suffix _).trans
            (hbody.trans ((List.suffix_cons _ _).trans hbehind)))
      · cases h
        exact line.skipToDirectiveEnd_suffix hbehind

/-- Nothing is left of the line of a `#define` or `#undef`, wherever it stands. -/
theorem MacroDirective.run_ok {m : MacroDirective} {d d' : Doc σ} {carry : List PpToken}
    {left : ℕ} (h : m.part.run S file d left = (d', .ok carry)) (left' : ℕ) :
    m.part.run S file d left' = (d', .ok []) := by
  cases m with
  | define line =>
    rw [MacroDirective.part, Part.run, perform, processDefine_eq] at h ⊢
    cases hdef : definitionAsWritten line.rest file with
    | error e =>
      rw [hdef] at h
      cases h
    | ok r =>
      rw [hdef] at h
      cases h
      rw [← definitionAsWritten_rest file line hdef]
      rfl
  | undef line =>
    rw [MacroDirective.part, Part.run, perform, processUndef] at h ⊢
    cases hskip : skipWhitespace line.rest with
    | nil =>
      rw [hskip] at h
      cases h
      rfl
    | cons t rest =>
      rw [hskip] at h
      simp only at h ⊢
      split_ifs at h ⊢ with hname
      · cases h
        rw [line.skipToDirectiveEnd_suffix (skipWhitespace_cons_suffix hskip)]
      · cases h
        rw [line.skipToDirectiveEnd_suffix (hskip ▸ skipWhitespace_suffix line.rest)]

theorem groupOf_run {lines : MacroLines} {d d' : Doc σ} (h : afterLines S file d lines = .ok d')
    (text : List PpToken) (left : ℕ) :
    (groupOf lines text).run S file d [] left = (Group.last text).run S file d' [] left := by
  induction lines generalizing d with
  | nil =>
    cases h
    rfl
  | cons l lines ih =>
    obtain ⟨before, m⟩ := l
    generalize (Group.last text).run S file d' [] left = last at ih ⊢
    rw [afterLines] at h
    rw [groupOf, Group.run, List.nil_append]
    cases hemit : emit S file d before with
    | error f =>
      rw [hemit] at h
      cases h
    | ok d₁ =>
      rw [hemit] at h
      simp only at h ⊢
      cases hrun : m.part.run S file d₁ 0 with
      | mk d₂ r =>
        rw [hrun] at h
        cases r with
        | error e => cases h
        | ok carry =>
          rw [m.run_ok S file hrun]
          exact ih h

theorem groupOf_skipsNamed (lines : MacroLines) (text : List PpToken) (d : Doc σ)
    (carry : List PpToken) (left : ℕ) : (groupOf lines text).SkipsNamed S file d carry left := by
  induction lines generalizing d carry with
  | nil => trivial
  | cons l lines ih =>
    obtain ⟨before, m⟩ := l
    intro d₁ _
    refine ⟨?_, fun d₂ carry _ => ih d₂ carry⟩
    cases m <;> trivial

/-- The outcome of a file whose last text becomes `r`. -/
def withText (d : Doc σ) :
    Except Fault (List Token) → Doc σ × Except (PreprocessorError × ℕ) PUnit
  | .error f => (d, .error (.fault f, 0))
  | .ok tokens => (⟨d.unit, d.result ++ tokens⟩, .ok ())

theorem resolveIncludes_groupOf {lines : MacroLines} {text : List PpToken} {unit : PpState σ}
    {d : Doc σ} (hfits : (groupOf lines text).Fits S file [])
    (hrun : afterLines S file ⟨unit, []⟩ lines = .ok d) (htext : text ≠ []) :
    resolveIncludes S file unit (groupOf lines text).tokens =
      withText d (S.expand d.unit.macros (ppTokensToTokens text file)) := by
  rw [resolveIncludes_eq_run S file hfits unit (groupOf_skipsNamed S file lines text _ _ _),
    groupOf_run S file hrun, Group.run, List.nil_append, emit, if_neg htext]
  cases S.expand d.unit.macros (ppTokensToTokens text file) <;> rfl

/-- The services with the macro expansion of this development. -/
def expanding (chars : CharClasses) (fuel : ℕ) (S : Services σ) : Services σ :=
  { S with expand := fun table tokens => expandMacroTokens chars table fuel tokens }

end Sources

section Redefinition

/-- `#define name body`. -/
def defineLine (name : String) (body : PpToken)
    (h : body.kind ≠ .newline ∧ body.kind ≠ .hash) : MacroDirective :=
  .define (directiveLine "define"
    [piece .whitespace " ", piece .identifier name, piece .whitespace " ", body] rfl (by
      simpa [piece] using h))

def undefLine (name : String) : MacroDirective :=
  .undef (directiveLine "undef" [piece .whitespace " ", piece .identifier name] rfl (by
    simp [piece]))

/-- What `#define name body` says. -/
def definedAs (name : String) (body : Token) : String × MacroDefinition :=
  (name, .objectLike [⟨.whitespace, " ", 1, 1, "a.c"⟩, body])

def numberToken (text : String) : Token := ⟨.intLiteral, text, 1, 1, "a.c"⟩

def nameToken (text : String) : Token := ⟨.identifier, text, 1, 1, "a.c"⟩

/-- `A` is defined again between the definition of `B` and its use. -/
def redefinition : MacroLines :=
  [([], defineLine "A" (piece .number "1") (by simp [piece])),
    ([], defineLine "B" (piece .identifier "A") (by simp [piece])),
    ([], undefLine "A"),
    ([], defineLine "A" (piece .number "2") (by simp [piece]))]

def useOfB : List PpToken := [piece .identifier "B", piece .newline "\n"]

theorem useOfB_noDirective (following : List PpToken) : NoDirective useOfB following :=
  noDirective_of_hash (by simp [useOfB, piece]) following

theorem redefinition_fits :
    (groupOf redefinition useOfB).Fits (expanding ascii 3 noServices) "a.c" [] :=
  ⟨noDirective_nil _, ⟨directiveLine_endsBefore _, (nomatch ·)⟩, noDirective_nil _,
    ⟨directiveLine_endsBefore _, (nomatch ·)⟩, noDirective_nil _,
    ⟨directiveLine_endsBefore _, (nomatch ·)⟩, noDirective_nil _,
    ⟨directiveLine_endsBefore _, (nomatch ·)⟩, useOfB_noDirective _⟩

/-- The unit behind the lines: the list of `B` has the first value of `A`. -/
def redefined : Doc PUnit :=
  ⟨{ noMacros with macros :=
      [definedAs "A" (numberToken "2"),
        ("B", .objectLike [⟨.whitespace, " ", 1, 1, "a.c"⟩, ⟨.whitespace, " ", 1, 1, "a.c"⟩,
          numberToken "1"])] }, []⟩

theorem afterLines_redefinition :
    afterLines (expanding ascii 3 noServices) "a.c" ⟨noMacros, []⟩ redefinition =
      .ok redefined := rfl

def redefinitionAsWritten : MacroTable :=
  [definedAs "A" (numberToken "2"), definedAs "B" (nameToken "A")]

theorem redefinition_asWritten :
    asMap redefinitionAsWritten = writtenMap "a.c" (asMap noMacros.macros) redefinition := by
  have hmap : writtenMap "a.c" (asMap noMacros.macros) redefinition =
      Function.update (Function.update (Function.update (Function.update (asMap []) "A"
        (some (definedAs "A" (numberToken "1")).2)) "B" (some (definedAs "B" (nameToken "A")).2)) "A"
        none) "A"
        (some (definedAs "A" (numberToken "2")).2) := rfl
  have htable : asMap redefinitionAsWritten = Function.update (Function.update (asMap []) "B"
      (some (definedAs "B" (nameToken "A")).2)) "A" (some (definedAs "A" (numberToken "2")).2) := by
    rw [← asMap_cons, ← asMap_cons]
    rfl
  rw [hmap, htable]
  funext n
  by_cases hA : n = "A"
  · rw [hA, Function.update_self, Function.update_self]
  · simp only [Function.update_of_ne hA]
    by_cases hB : n = "B"
    · rw [hB, Function.update_self, Function.update_self]
    · simp only [Function.update_of_ne hB, Function.update_of_ne hA]

/-- With the stored table `B` is `1`, and as written it is `2`. -/
theorem expand_useOfB :
    expandMacroTokens ascii redefined.unit.macros 3 [nameToken "B"] =
        .ok [⟨.whitespace, " ", 1, 1, "a.c"⟩, ⟨.whitespace, " ", 1, 1, "a.c"⟩, numberToken "1"] ∧
      expandMacroTokens ascii redefinitionAsWritten 3 [nameToken "B"] =
        .ok [⟨.whitespace, " ", 1, 1, "a.c"⟩, ⟨.whitespace, " ", 1, 1, "a.c"⟩, numberToken "2"] := by
  constructor <;>
    simp [expandMacroTokens, expandMacroTokensWithStack, outputs, scanToken, redefined,
      redefinitionAsWritten, definedAs, nameToken, numberToken, List.lookup_cons] <;> rfl

/-- Two definitions, of which neither mentions a macro. -/
def definitions : MacroLines :=
  [([], defineLine "A" (piece .number "2") (by simp [piece])),
    ([], defineLine "B" (piece .identifier "C") (by simp [piece]))]

theorem definitions_lateBound : LateBound "a.c" (asMap noMacros.macros) definitions := by
  refine ⟨fun n m rest h t ht => ?_, fun n m rest h t ht => ?_, trivial⟩
  · cases h
    rcases List.mem_cons.1 ht with rfl | ht
    · exact fun hearly => nomatch hearly.1
    · rw [List.mem_singleton.1 ht]
      exact fun hearly => nomatch hearly.1
  · cases h
    rcases List.mem_cons.1 ht with rfl | ht
    · exact fun hearly => nomatch hearly.1
    · rw [List.mem_singleton.1 ht]
      rintro ⟨-, hline | hfile | ⟨-, replacement, hmacro⟩⟩
      · exact absurd hline (by decide)
      · exact absurd hfile (by decide)
      · cases hmacro

theorem definitions_fits :
    (groupOf definitions useOfB).Fits (expanding ascii 3 noServices) "a.c" [] :=
  ⟨noDirective_nil _, ⟨directiveLine_endsBefore _, (nomatch ·)⟩, noDirective_nil _,
    ⟨directiveLine_endsBefore _, (nomatch ·)⟩, useOfB_noDirective _⟩

end Redefinition

end OpticC.Preprocessor
