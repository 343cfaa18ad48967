import OpticC.Frontend.Macro

/-! `expand_macros` of `macro_expander.rs`, with its calls of function-like macros and the
substitution in their replacements. A token is a range of bytes of the source text. -/

namespace OpticC.Expander

open Preprocessor (CharClasses)

inductive TokenKind
  | endOfFile
  | identifier
  | number
  | stringLiteral
  | punctuator
  | whitespace
  | hash
  | hashHash
  deriving DecidableEq

structure Token where
  kind : TokenKind
  offset : ℕ
  length : ℕ
  line : ℕ
  column : ℕ
  deriving DecidableEq

inductive MacroDefinition
  | objectLike (replacement : List Token)
  | functionLike (params : List (List Char)) (isVariadic : Bool) (replacement : List Token)

section Texts

/-- The bytes of a text in UTF-8. -/
def byteLength (text : List Char) : ℕ := (text.map Char.utf8Size).sum

/-- The text before byte `n` and the text from there on. There is no such place within a
character. -/
def splitAtByte : ℕ → List Char → Option (List Char × List Char)
  | 0, text => some ([], text)
  | _ + 1, [] => none
  | n + 1, c :: text =>
    if c.utf8Size ≤ n + 1 then
      (splitAtByte (n + 1 - c.utf8Size) text).map fun parts => (c :: parts.1, parts.2)
    else none

@[simp] theorem byteLength_nil : byteLength [] = 0 := rfl

@[simp] theorem byteLength_cons (c : Char) (text : List Char) :
    byteLength (c :: text) = c.utf8Size + byteLength text := by
  simp [byteLength]

@[simp] theorem byteLength_append (text more : List Char) :
    byteLength (text ++ more) = byteLength text + byteLength more := by
  simp [byteLength]

theorem length_le_byteLength (text : List Char) : text.length ≤ byteLength text := by
  induction text with
  | nil => exact Nat.le_refl _
  | cons c text ih =>
    have := c.utf8Size_pos
    rw [List.length_cons, byteLength_cons]
    omega

/-- A text has as many bytes as characters when each of them is one byte. -/
theorem byteLength_eq_length_iff {text : List Char} :
    byteLength text = text.length ↔ ∀ c ∈ text, c.utf8Size = 1 := by
  induction text with
  | nil => simp
  | cons c text ih =>
    have := c.utf8Size_pos
    have := length_le_byteLength text
    rw [List.forall_mem_cons, ← ih, byteLength_cons, List.length_cons]
    omega

theorem splitAtByte_append (text : List Char) (n : ℕ) (more : List Char) :
    splitAtByte (byteLength text + n) (text ++ more) =
      (splitAtByte n more).map fun parts => (text ++ parts.1, parts.2) := by
  induction text with
  | nil => simp
  | cons c text ih =>
    have hpos := c.utf8Size_pos
    obtain ⟨k, hk⟩ : ∃ k, byteLength (c :: text) + n = k + 1 :=
      ⟨byteLength (c :: text) + n - 1, by rw [byteLength_cons]; omega⟩
    have hle : c.utf8Size ≤ k + 1 := by
      rw [← hk, byteLength_cons]
      omega
    have hrest : k + 1 - c.utf8Size = byteLength text + n := by
      rw [← hk, byteLength_cons]
      omega
    rw [hk, List.cons_append, splitAtByte, if_pos hle, hrest, ih, Option.map_map]
    rfl

theorem splitAtByte_eq_some {n : ℕ} {text before after : List Char}
    (h : splitAtByte n text = some (before, after)) : text = before ++ after ∧ byteLength before = n := by
  induction text generalizing n before with
  | nil =>
    cases n with
    | zero =>
      cases h
      exact ⟨rfl, rfl⟩
    | succ n => cases h
  | cons c text ih =>
    cases n with
    | zero =>
      cases h
      exact ⟨rfl, rfl⟩
    | succ n =>
      rw [splitAtByte] at h
      split_ifs at h with hle
      obtain ⟨⟨before', after'⟩, hsplit, heq⟩ := Option.map_eq_some_iff.1 h
      cases heq
      obtain ⟨rfl, hlength⟩ := ih hsplit
      refine ⟨rfl, ?_⟩
      simp only [byteLength_cons, hlength]
      omega

/-- `source[start..stop]`; `none` is a panic. -/
def slice (source : List Char) (start stop : ℕ) : Option (List Char) := do
  let (_, text) ← splitAtByte start source
  let (text, _) ← splitAtByte (stop - start) text
  some text

theorem slice_append (before text after : List Char) :
    slice (before ++ text ++ after) (byteLength before) (byteLength before + byteLength text) =
      some text := by
  have hbefore := splitAtByte_append before 0 (text ++ after)
  have htext := splitAtByte_append text 0 after
  simp only [Nat.add_zero, splitAtByte] at hbefore htext
  simp [slice, List.append_assoc, hbefore, htext]

theorem byteLength_of_slice {source text : List Char} {start stop : ℕ}
    (h : slice source start stop = some text) : byteLength text = stop - start := by
  obtain ⟨parts, -, h⟩ := Option.bind_eq_some_iff.1 h
  obtain ⟨⟨before, after⟩, hsplit, h⟩ := Option.bind_eq_some_iff.1 h
  cases h
  exact (splitAtByte_eq_some hsplit).2

def extractTokenText (source : List Char) (token : Token) : Option (List Char) :=
  let start := token.offset
  let stop := start + token.length
  if start < byteLength source ∧ stop ≤ byteLength source then slice source start stop else some []

/-- `format!("\"{}\"", text.replace("\"", "\\\""))` -/
def quoted (text : List Char) : List Char :=
  ['"'] ++ text.flatMap (fun c => if c = '"' then ['\\', '"'] else [c]) ++ ['"']

/-- `text.len() as u32` -/
def len32 (text : List Char) : ℕ := byteLength text % 2 ^ 32

end Texts

/-- What `expand_macros` reads of the expander and of its arguments. -/
structure MacroExpander where
  classes : CharClasses
  definitions : List Char → Option MacroDefinition
  source : List Char

namespace MacroExpander

variable (e : MacroExpander)

def isMacroDefined (name : List Char) : Bool := (e.definitions name).isSome

def tokenText (token : Token) : Option (List Char) := extractTokenText e.source token

section Operators

def stringifyArgument (token : Token) : Option Token := do
  let text ← e.tokenText token
  some { token with kind := .stringLiteral, length := len32 (quoted text) }

/-- The texts of the tokens behind the first one, with the spaces between them. -/
def joinTexts : List Token → Option (List Char)
  | [] => some []
  | token :: tokens => do
    let text ← e.tokenText token
    let texts ← joinTexts tokens
    some ((if token.kind = .whitespace then [] else [' ']) ++ text ++ texts)

def stringifyTokens : List Token → Option Token
  | [] => some ⟨.stringLiteral, 0, len32 (quoted []), 0, 0⟩
  | first :: tokens => do
    let text ← e.tokenText first
    let texts ← e.joinTexts tokens
    some { first with kind := .stringLiteral, length := len32 (quoted (text ++ texts)) }

def pastedKind (pasted : List Char) : TokenKind :=
  if pasted.head?.any e.classes.isAlphabetic then .identifier
  else if pasted.head?.any e.classes.isNumeric then .number
  else .punctuator

def pasteTokens (left right : Token) : Option Token := do
  let leftText ← e.tokenText left
  let rightText ← e.tokenText right
  let pasted := leftText ++ rightText
  some { left with kind := e.pastedKind pasted, length := len32 pasted }

/-- The replacement of an object-like macro; `result` is what the loop has pushed. -/
def substituteTokens (result : List Token) : List Token → Option (List Token)
  | [] => some result
  | token :: rest =>
    if token.kind = .hashHash then
      match result.getLast?, rest with
      | some last, next :: rest => do
        let pasted ← e.pasteTokens last next
        substituteTokens (result.dropLast ++ [pasted]) rest
      | _, rest => substituteTokens result rest
    else if token.kind = .hash then
      match rest with
      | next :: rest => do
        let stringified ← e.stringifyArgument next
        substituteTokens (result ++ [stringified]) rest
      | [] => substituteTokens (result ++ [token]) []
    else substituteTokens (result ++ [token]) rest

/-- `params.iter().position(|p| p == name)` with `param_idx < args.len()` -/
def argument (params : List (List Char)) (args : List (List Token)) (name : List Char) :
    Option (List Token) :=
  (params.findIdx? fun p => p == name).bind fun paramIdx => args[paramIdx]?

/-- The replacement of a function-like macro; `expand` is `expand_macros`. -/
def substituteTokensWithArgs (expand : List Token → Option (List Token)) (params : List (List Char))
    (args : List (List Token)) (result : List Token) : List Token → Option (List Token)
  | [] => some result
  | token :: rest =>
    match token.kind, rest with
    | .hashHash, rest =>
      match result.getLast?, rest with
      | some last, next :: rest => do
        let pasted ← e.pasteTokens last next
        substituteTokensWithArgs expand params args (result.dropLast ++ [pasted]) rest
      | _, rest => substituteTokensWithArgs expand params args result rest
    | .hash, next :: rest =>
      if next.kind = .identifier then do
        let argName ← e.tokenText next
        match argument params args argName with
        | some arg => do
          let stringified ← e.stringifyTokens arg
          substituteTokensWithArgs expand params args (result ++ [stringified]) rest
        | none => substituteTokensWithArgs expand params args (result ++ [token]) (next :: rest)
      else substituteTokensWithArgs expand params args (result ++ [token]) (next :: rest)
    | .identifier, rest => do
      let text ← e.tokenText token
      match argument params args text with
      | some arg => do
        let substituted ← expand arg
        substituteTokensWithArgs expand params args (result ++ substituted) rest
      | none => substituteTokensWithArgs expand params args (result ++ [token]) rest
    | _, rest => substituteTokensWithArgs expand params args (result ++ [token]) rest

end Operators

section Invocations

/-- The arguments of a call, read behind its `(`, and the tokens from its `)` on. -/
def collectArgs (depth : ℕ) (current : List Token) (args : List (List Token)) :
    List Token → Option (List (List Token) × List Token)
  | [] => some (args, [])
  | token :: rest => do
    let text ← e.tokenText token
    if text = ['('] then collectArgs (depth + 1) (current ++ [token]) args rest
    else if text = [')'] ∧ depth = 0 then
      some (if current.isEmpty then args else args ++ [current], token :: rest)
    else if text = [','] ∧ depth = 0 then collectArgs depth [] (args ++ [current]) rest
    else collectArgs (if text = [')'] then depth - 1 else depth) (current ++ [token]) args rest

/-- The expansion of a call and the tokens from the new index on. The outer `none` is for a call
that does not return; the inner one is the function's own `None`. -/
def expandFunctionMacro (expand : List (List Char) → List Token → Option (List Token))
    (active : List (List Char)) (name : List Char) (inside : List Token) :
    Option (Option (List Token × List Token)) :=
  match e.definitions name with
  | some (.functionLike params _ replacement) => do
    let (args, rest) ← e.collectArgs 0 [] [] inside
    if args.isEmpty then some none
    else do
      let expanded ←
        e.substituteTokensWithArgs (expand (active ++ [name])) params args [] replacement
      some (some (expanded, rest))
  | _ => some none

def expandObjectMacro (name : List Char) : Option (List Token) :=
  match e.definitions name with
  | some (.objectLike replacement) => e.substituteTokens [] replacement
  | _ => some []

end Invocations

section Loop

/-- What the loop looks at behind an identifier. -/
def invocation (expand : List (List Char) → List Token → Option (List Token))
    (active : List (List Char)) (name : List Char) : List Token →
    Option (Option (List Token × List Token))
  | [] => some none
  | next :: inside =>
    if next.kind = .whitespace ∨ next.kind = .punctuator then do
      let nextText ← e.tokenText next
      if nextText = ['('] ∧ e.isMacroDefined name then e.expandFunctionMacro expand active name inside
      else some none
    else some none

/-- The remaining tokens start with the `#` itself in the source. -/
def isStringificationOrPaste (rest : List Token) : Bool :=
  rest.head?.any fun next => next.kind == .hash || next.kind == .hashHash

def handleStringification : List Token → Option (Option (Token × List Token))
  | [] => some none
  | next :: rest =>
    if next.kind = .identifier then do
      let stringified ← e.stringifyArgument next
      some (some (stringified, rest))
    else some none

/-- One iteration of the loop, at a token and those behind it: the tokens pushed and the tokens
from the new index on. The index stays where it is behind an identifier that is no call. -/
def iteration (expand : List (List Char) → List Token → Option (List Token))
    (active : List (List Char)) (token : Token) (rest : List Token) :
    Option (List Token × List Token) :=
  match token.kind with
  | .identifier => do
    let identifier ← e.tokenText token
    let call ← e.invocation expand active identifier rest
    match call with
    | some expanded => some expanded
    | none =>
      if e.isMacroDefined identifier ∧ ¬active.contains identifier then do
        let expanded ← e.expandObjectMacro identifier
        some (expanded, token :: rest)
      else some ([token], token :: rest)
  | .hash =>
    if isStringificationOrPaste rest then some ([token], rest)
    else do
      let stringified ← e.handleStringification rest
      match stringified with
      | some (text, rest) => some ([text], rest)
      | none => some ([token], rest)
  | _ => some ([token], rest)

/-- `expand_macros`, for so many iterations. -/
def expandMacros : ℕ → List (List Char) → List Token → Option (List Token)
  | 0, _, _ => none
  | _ + 1, _, [] => some []
  | fuel + 1, active, token :: rest => do
    let (pushed, rest) ← e.iteration (expandMacros fuel) active token rest
    let expanded ← expandMacros fuel active rest
    some (pushed ++ expanded)

end Loop

end MacroExpander

end OpticC.Expander
