import Mathlib.Data.List.Basic
import Mathlib.Tactic.Common
import OpticC.Frontend.Macro

/-! The loop of `resolve_includes` over the tokens of one file: which directives are performed
and which text is emitted. The evaluation of conditions and the files behind `#include` are
parameters of the loop. -/

namespace OpticC.Preprocessor

inductive PreprocessorError where
  | fileNotFound (path : String)
  | includeError (file reason : String)
  | macroError (message : String)
  | conditionalError (message : String)
  /-- Macro expansion does not come to a result. -/
  | fault (f : Fault)
  deriving DecidableEq, Repr

def PreprocessorError.display : PreprocessorError → String
  | fileNotFound path => "file not found: " ++ path
  | includeError file reason => "include error in " ++ file ++ ": " ++ reason
  | macroError message => "macro error: " ++ message
  | conditionalError message => "conditional error: " ++ message
  | fault _ => ""

/-- What the directives of a file work on. `files` is what `#include` reads and records. -/
structure PpState (σ : Type) where
  macros : MacroTable
  pragmas : List String
  warnings : List String
  errors : List String
  allowMissingIncludes : Bool
  files : σ

structure Services (σ : Type) where
  /-- `expand_macro_tokens` -/
  expand : MacroTable → List Token → Except Fault (List Token)
  /-- `parse_if_conditional` on the tokens behind `#if`: the value, and how many it takes. -/
  condition : PpState σ → String → List PpToken → Except PreprocessorError (BitVec 64 × ℕ)
  /-- `resolve_include_file`, for a path in a file. -/
  resolveIncludeFile : PpState σ → String → String →
    PpState σ × Except PreprocessorError (Option (List Token))

section Lines

def isDirectiveStart : List PpToken → Bool
  | [] => false
  | t :: rest => t.kind == .hash && (skipWhitespace rest).head?.any fun n => n.kind == .identifier

/-- The name of the directive behind `#`, and where its line goes on. -/
def parseDirectiveName (rest : List PpToken) : String × List PpToken :=
  match skipWhitespace rest with
  | n :: after => if n.kind = .identifier then (n.text, after) else ("", n :: after)
  | [] => ("", [])

def skipToDirectiveEnd (tokens : List PpToken) : List PpToken :=
  (tokens.dropWhile fun t => t.kind != .newline).drop 1

def processUndef (table : MacroTable) (tokens : List PpToken) : MacroTable × List PpToken :=
  match skipWhitespace tokens with
  | t :: rest =>
    if t.kind = .identifier then (table.filter fun entry => entry.1 != t.text, skipToDirectiveEnd rest)
    else (table, skipToDirectiveEnd (t :: rest))
  | [] => (table, [])

def parseSimpleDirectiveArg (tokens : List PpToken) :
    Except PreprocessorError (String × List PpToken) :=
  match skipWhitespace tokens with
  | t :: rest =>
    if t.kind = .identifier then .ok (t.text, skipToDirectiveEnd rest)
    else .error (.conditionalError "expected identifier")
  | [] => .error (.conditionalError "expected identifier")

/-- `text[1..text.len() - 1]` -/
def betweenQuotes (text : String) : String :=
  if text.utf8ByteSize ≥ 2 then String.ofList (text.toList.drop 1).dropLast else text

def parseIncludePath (file : String) (tokens : List PpToken) :
    Except PreprocessorError (String × List PpToken) :=
  match skipWhitespace tokens with
  | [] => .error (.includeError file "expected include path")
  | t :: rest =>
    if t.text = "<" then
      let path := rest.takeWhile fun t => t.text != ">"
      .ok (String.join (path.map PpToken.text), (rest.dropWhile fun t => t.text != ">").drop 1)
    else if t.kind = .stringLit then .ok (betweenQuotes t.text, rest)
    else .error (.includeError file ("expected <file> or \"file\", found " ++ t.text))

/-- `char::is_whitespace` -/
def isWhiteSpace (c : Char) : Bool :=
  let n := c.toNat
  (9 ≤ n && n ≤ 13) || n == 32 || n == 133 || n == 160 || n == 5760 || (8192 ≤ n && n ≤ 8202) ||
    n == 8232 || n == 8233 || n == 8239 || n == 8287 || n == 12288

def trim (text : List Char) : List Char :=
  ((text.dropWhile isWhiteSpace).reverse.dropWhile isWhiteSpace).reverse

/-- The text of `#pragma`: whitespace in front is left out. -/
def parsePragmaText (tokens : List PpToken) : String × List PpToken :=
  let line := tokens.takeWhile fun t => t.kind != .newline
  let words := (skipWhitespace line).map fun t => t.text.toList
  (String.ofList (trim ([' '].intercalate words)), skipToDirectiveEnd tokens)

def parseDiagnosticText (tokens : List PpToken) : String × List PpToken :=
  let line := tokens.takeWhile fun t => t.kind != .newline
  let words := line.map fun t => t.text.toList
  (String.ofList (trim ([' '].intercalate words)), skipToDirectiveEnd tokens)

end Lines

/-- The directives that do not open, change or close a group. -/
inductive Plain where
  | includeFile | define | undef | pragma | error | warning
  /-- `#line` and what the preprocessor does not know. -/
  | other
  deriving DecidableEq, Repr

inductive Directive where
  | plain (p : Plain)
  | ifdef | ifndef | ifExpr | elif | elseGroup | endif
  deriving DecidableEq, Repr

def Directive.ofName (name : String) : Directive :=
  if name = "include" then .plain .includeFile
  else if name = "define" then .plain .define
  else if name = "undef" then .plain .undef
  else if name = "ifdef" then .ifdef
  else if name = "ifndef" then .ifndef
  else if name = "if" then .ifExpr
  else if name = "elif" then .elif
  else if name = "else" then .elseGroup
  else if name = "endif" then .endif
  else if name = "pragma" then .plain .pragma
  else if name = "error" then .plain .error
  else if name = "warning" then .plain .warning
  else .plain .other

/-- The unit and the tokens emitted so far. -/
structure Doc (σ : Type) where
  unit : PpState σ
  result : List Token

section Perform

variable {σ : Type} (S : Services σ) (file : String)

def performInclude (d : Doc σ) (after : List PpToken) :
    Doc σ × Except PreprocessorError (List PpToken) :=
  match parseIncludePath file after with
  | .error e => (d, .error e)
  | .ok (path, rest) =>
    match S.resolveIncludeFile d.unit path file with
    | (unit, .ok (some tokens)) => (⟨unit, d.result ++ tokens⟩, .ok rest)
    | (unit, .ok none) => (⟨unit, d.result⟩, .ok rest)
    | (unit, .error e) =>
      if unit.allowMissingIncludes then
        (⟨{ unit with
            warnings := unit.warnings ++ ["include skipped: " ++ path ++ " (" ++ e.display ++ ")"] },
          d.result⟩, .ok rest)
      else (⟨unit, d.result⟩, .error e)

/-- What a directive does in an active group, on the tokens behind its name. -/
def perform (p : Plain) (d : Doc σ) (after : List PpToken) :
    Doc σ × Except PreprocessorError (List PpToken) :=
  match p with
  | .includeFile => performInclude S file d after
  | .define =>
    match processDefine d.unit.macros after file with
    | .ok (macros, rest) => ({ d with unit := { d.unit with macros } }, .ok rest)
    | .error message => (d, .error (.macroError message))
  | .undef =>
    let (macros, rest) := processUndef d.unit.macros after
    ({ d with unit := { d.unit with macros } }, .ok rest)
  | .pragma =>
    let (text, rest) := parsePragmaText after
    ({ d with unit := { d.unit with pragmas := d.unit.pragmas ++ [text] } }, .ok rest)
  | .error =>
    let (message, _) := parseDiagnosticText after
    ({ d with unit := { d.unit with errors := d.unit.errors ++ [message] } },
      .error (.conditionalError ("#error: " ++ message)))
  | .warning =>
    let (message, rest) := parseDiagnosticText after
    ({ d with unit := { d.unit with warnings := d.unit.warnings ++ [message] } }, .ok rest)
  | .other => (d, .ok (skipToDirectiveEnd after))

/-- `parse_if_expression` -/
def parseIfExpression (unit : PpState σ) (after : List PpToken) :
    Except PreprocessorError (BitVec 64 × List PpToken) :=
  (S.condition unit file after).map fun (value, taken) => (value, skipToDirectiveEnd (after.drop taken))

theorem skipWhitespace_suffix (tokens : List PpToken) : skipWhitespace tokens <:+ tokens :=
  List.dropWhile_suffix _

theorem skipToDirectiveEnd_suffix (tokens : List PpToken) : skipToDirectiveEnd tokens <:+ tokens :=
  (List.drop_suffix 1 _).trans (List.dropWhile_suffix _)

theorem skipWhitespace_cons_suffix {tokens rest : List PpToken} {t : PpToken}
    (h : skipWhitespace tokens = t :: rest) : rest <:+ tokens :=
  (List.suffix_cons t rest).trans (h ▸ skipWhitespace_suffix tokens)

theorem length_skipWhitespace_cons {tokens rest : List PpToken} {t : PpToken}
    (h : skipWhitespace tokens = t :: rest) : rest.length < tokens.length := by
  have hle := length_skipWhitespace_le tokens
  rw [h, List.length_cons] at hle
  exact hle

theorem parseDirectiveName_suffix (rest : List PpToken) : (parseDirectiveName rest).2 <:+ rest := by
  unfold parseDirectiveName
  split
  · rename_i n after heq
    split_ifs
    · exact skipWhitespace_cons_suffix heq
    · exact heq ▸ skipWhitespace_suffix rest
  · exact List.nil_suffix

theorem skipClose_suffix (tokens : List PpToken) : skipClose tokens <:+ tokens := by
  unfold skipClose
  split
  · split_ifs
    · exact List.suffix_cons _ _
    · exact List.suffix_refl _
  · exact List.suffix_refl _

theorem parseMacroParams_suffix (file : String) (tokens : List PpToken) (params : List String)
    {r : List String × Bool × Option String × List PpToken}
    (h : parseMacroParams file tokens params = .ok r) : r.2.2.2 <:+ tokens := by
  have hclose : ∀ ts, skipClose (skipWhitespace ts) <:+ ts := fun ts =>
    (skipClose_suffix _).trans (skipWhitespace_suffix ts)
  fun_induction parseMacroParams file tokens params with
  | case1 =>
    cases h
    exact List.nil_suffix
  | case2 =>
    cases h
    rename_i heq _
    exact skipWhitespace_cons_suffix heq
  | case3 =>
    cases h
    rename_i heq _ _
    exact (hclose _).trans (skipWhitespace_cons_suffix heq)
  | case4 _ _ _ _ heq _ _ _ _ ih => exact (ih h).trans List.nil_suffix
  | case5 _ _ _ _ heq _ _ _ _ _ heq' =>
    cases h
    exact (hclose _).trans ((skipWhitespace_cons_suffix heq').trans (skipWhitespace_cons_suffix heq))
  | case6 _ _ _ _ heq _ _ _ _ _ heq' _ _ ih =>
    exact (ih h).trans ((skipWhitespace_cons_suffix heq').trans (skipWhitespace_cons_suffix heq))
  | case7 _ _ _ rest heq _ _ _ _ _ heq' _ _ ih =>
    exact (ih h).trans ((heq' ▸ skipWhitespace_suffix rest).trans (skipWhitespace_cons_suffix heq))
  | case8 => cases h

theorem processDefine_suffix {table macros : MacroTable} {tokens rest : List PpToken}
    (h : processDefine table tokens file = .ok (macros, rest)) : rest <:+ tokens := by
  unfold processDefine at h
  simp only at h
  cases hname : skipWhitespace tokens with
  | nil =>
    rw [hname] at h
    cases h
  | cons t behind =>
    have hbehind := skipWhitespace_cons_suffix hname
    rw [hname] at h
    simp only at h
    split_ifs at h
    cases behind with
    | nil =>
      cases h
      exact List.nil_suffix
    | cons paren inside =>
      simp only at h
      split_ifs at h
      · cases hparams : parseMacroParams file inside [] with
        | error e =>
          rw [hparams] at h
          cases h
        | ok r =>
          have hbody := parseMacroParams_suffix file inside [] hparams
          rw [hparams] at h
          cases h
          exact (skipToDirectiveEnd_suffix _).trans ((skipWhitespace_suffix _).trans
            (hbody.trans ((List.suffix_cons _ _).trans hbehind)))
      · cases h
        exact (skipToDirectiveEnd_suffix _).trans hbehind

theorem processUndef_suffix (table : MacroTable) (tokens : List PpToken) :
    (processUndef table tokens).2 <:+ tokens := by
  unfold processUndef
  split
  · rename_i heq
    split_ifs
    · exact (skipToDirectiveEnd_suffix _).trans (skipWhitespace_cons_suffix heq)
    · exact (skipToDirectiveEnd_suffix _).trans (heq ▸ skipWhitespace_suffix tokens)
  · exact List.nil_suffix

theorem parseIncludePath_suffix {tokens : List PpToken} {r : String × List PpToken}
    (h : parseIncludePath file tokens = .ok r) : r.2 <:+ tokens := by
  unfold parseIncludePath at h
  split at h
  · cases h
  · rename_i heq
    have hrest := skipWhitespace_cons_suffix heq
    split_ifs at h
    · cases h
      exact ((List.drop_suffix 1 _).trans (List.dropWhile_suffix _)).trans hrest
    · cases h
      exact hrest

theorem parseSimpleDirectiveArg_suffix {tokens : List PpToken} {r : String × List PpToken}
    (h : parseSimpleDirectiveArg tokens = .ok r) : r.2 <:+ tokens := by
  unfold parseSimpleDirectiveArg at h
  split at h
  · rename_i heq
    split_ifs at h
    cases h
    exact (skipToDirectiveEnd_suffix _).trans (skipWhitespace_cons_suffix heq)
  · cases h

theorem parseIfExpression_suffix {unit : PpState σ} {after : List PpToken}
    {r : BitVec 64 × List PpToken} (h : parseIfExpression S file unit after = .ok r) :
    r.2 <:+ after := by
  unfold parseIfExpression at h
  cases hcond : S.condition unit file after with
  | error e =>
    rw [hcond] at h
    cases h
  | ok c =>
    rw [hcond] at h
    cases h
    exact (skipToDirectiveEnd_suffix _).trans (List.drop_suffix _ _)

theorem perform_suffix {p : Plain} {d d' : Doc σ} {after rest : List PpToken}
    (h : perform S file p d after = (d', .ok rest)) : rest <:+ after := by
  cases p with
  | includeFile =>
    simp only [perform, performInclude] at h
    cases hpath : parseIncludePath file after with
    | error e =>
      rw [hpath] at h
      cases h
    | ok r =>
      have hrest := parseIncludePath_suffix file hpath
      rw [hpath] at h
      simp only at h
      split at h
      · cases h
        exact hrest
      · cases h
        exact hrest
      · split_ifs at h
        · cases h
          exact hrest
        · cases h
  | define =>
    simp only [perform] at h
    cases hdefine : processDefine d.unit.macros after file with
    | error e =>
      rw [hdefine] at h
      cases h
    | ok r =>
      rw [hdefine] at h
      cases h
      exact processDefine_suffix file hdefine
  | undef =>
    cases h
    exact processUndef_suffix _ _
  | pragma =>
    cases h
    exact skipToDirectiveEnd_suffix _
  | error => cases h
  | warning =>
    cases h
    exact skipToDirectiveEnd_suffix _
  | other =>
    cases h
    exact skipToDirectiveEnd_suffix _

end Perform

end OpticC.Preprocessor
