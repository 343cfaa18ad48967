import OpticC.Frontend.DirectiveLines

/-! Source files as trees of conditional groups, and what a file stands for: the groups that
are selected contribute their text and their directives, the others nothing. -/

namespace OpticC.Preprocessor

theorem noGap_kind : ∀ t ∈ ([] : List PpToken), t.kind = .whitespace :=
  fun _ h => absurd h List.not_mem_nil

/-- A line that begins with `#` and the name of the directive `d`. The last line of a file may
lack its newline. -/
structure Line (d : Directive) where
  hash : PpToken
  gap : List PpToken
  name : PpToken
  args : List PpToken
  ending : Option PpToken
  hash_kind : hash.kind = .hash
  gap_kind : ∀ t ∈ gap, t.kind = .whitespace
  name_kind : name.kind = .identifier
  names : Directive.ofName name.text = d
  args_kind : ∀ t ∈ args, t.kind ≠ .newline ∧ t.kind ≠ .hash
  ending_newline : ∀ t ∈ ending, t.kind = .newline ∧ t.text = "\n"

namespace Line

variable {d : Directive} (l : Line d)

/-- What stands behind the name. -/
def rest : List PpToken := l.args ++ l.ending.toList

def tokens : List PpToken := l.hash :: (l.gap ++ l.name :: l.rest)

/-- Only at the end of the file the newline may be missing. -/
def EndsBefore (following : List PpToken) : Prop := l.ending = none → following = []

end Line

/-- The directives that open a conditional. -/
inductive Opening where
  | ifdef | ifndef | ifExpr
  deriving DecidableEq

def Opening.directive : Opening → Directive
  | ifdef => .ifdef
  | ifndef => .ifndef
  | ifExpr => .ifExpr

mutual
/-- The text and the parts between two lines of a conditional, or of the file. -/
inductive Group where
  | last (text : List PpToken)
  | next (text : List PpToken) (part : Part) (behind : Group)
inductive Part where
  | directive (p : Plain) (line : Line (.plain p))
  | conditional (o : Opening) (line : Line o.directive) (group : Group) (arms : Arms)
/-- What follows a group of a conditional. -/
inductive Arms where
  | endif (line : Line .endif)
  | elseGroup (line : Line .elseGroup) (group : Group) (endif : Line .endif)
  | elif (line : Line .elif) (group : Group) (arms : Arms)
end

mutual
def Group.tokens : Group → List PpToken
  | .last text => text
  | .next text part behind => text ++ (part.tokens ++ behind.tokens)
def Part.tokens : Part → List PpToken
  | .directive _ line => line.tokens
  | .conditional _ line group arms => line.tokens ++ (group.tokens ++ arms.tokens)
def Arms.tokens : Arms → List PpToken
  | .endif line => line.tokens
  | .elseGroup line group endif => line.tokens ++ (group.tokens ++ endif.tokens)
  | .elif line group arms => line.tokens ++ (group.tokens ++ arms.tokens)
end

/-- No directive begins in the text. -/
def NoDirective (text following : List PpToken) : Prop :=
  ∀ t rest, t :: rest <:+ text → isDirectiveStart (t :: (rest ++ following)) = false

section Fits

variable {σ : Type} (S : Services σ) (file : String)

/-- Whatever the macros, the condition of the line is read within the line. -/
def Line.ConditionClosed {d : Directive} (l : Line d) (following : List PpToken) : Prop :=
  ∀ unit, S.condition unit file (l.rest ++ following) = S.condition unit file l.rest ∧
    ∀ value taken, S.condition unit file l.rest = .ok (value, taken) → taken ≤ l.args.length

mutual
/-- The pieces of the tree are what the tokens of the file show: each run of text is without
directives and each line ends before the next one. -/
def Group.Fits : Group → List PpToken → Prop
  | .last text, following => NoDirective text following
  | .next text part behind, following =>
    NoDirective text (part.tokens ++ (behind.tokens ++ following)) ∧
      part.Fits (behind.tokens ++ following) ∧ behind.Fits following
def Part.Fits : Part → List PpToken → Prop
  | .directive p line, following =>
    line.EndsBefore following ∧ (p = .includeFile → PathClosed file line.rest following)
  | .conditional o line group arms, following =>
    line.EndsBefore (group.tokens ++ (arms.tokens ++ following)) ∧
      (o = .ifExpr →
        line.ConditionClosed S file (group.tokens ++ (arms.tokens ++ following))) ∧
      group.Fits (arms.tokens ++ following) ∧ arms.Fits following
def Arms.Fits : Arms → List PpToken → Prop
  | .endif line, following => line.EndsBefore following
  | .elseGroup line group endif, following =>
    line.EndsBefore (group.tokens ++ (endif.tokens ++ following)) ∧
      group.Fits (endif.tokens ++ following) ∧ endif.EndsBefore following
  | .elif line group arms, following =>
    line.EndsBefore (group.tokens ++ (arms.tokens ++ following)) ∧
      line.ConditionClosed S file (group.tokens ++ (arms.tokens ++ following)) ∧
      group.Fits (arms.tokens ++ following) ∧ arms.Fits following
end

end Fits

section Run

variable {σ : Type} (S : Services σ) (file : String)

/-- The value of `#if` and `#elif`, read on the line alone. -/
def evalCondition (unit : PpState σ) (line : List PpToken) : Except PreprocessorError Bool :=
  (S.condition unit file line).map fun r => r.1 != 0

/-- Whether the group behind the opening line is selected. -/
def Opening.holds (o : Opening) (unit : PpState σ) (line : List PpToken) :
    Except PreprocessorError Bool :=
  match o with
  | .ifdef => (parseSimpleDirectiveArg line).map fun r => isMacroDefined unit r.1
  | .ifndef => (parseSimpleDirectiveArg line).map fun r => !isMacroDefined unit r.1
  | .ifExpr => evalCondition S file unit line

/-- The steps of a file one behind the other, up to the first error. -/
def andThen {α β ε : Type} (r : Doc σ × Except ε α) (k : Doc σ → α → Doc σ × Except ε β) :
    Doc σ × Except ε β :=
  match r with
  | (d, .error e) => (d, .error e)
  | (d, .ok a) => k d a

mutual
/-- What a selected group contributes. Text comes behind `carry`, what an `#include` in front
of it left of its line. `left` counts the tokens behind the group; an error tells how many
tokens are left. -/
def Group.run (d : Doc σ) (carry : List PpToken) :
    Group → ℕ → Doc σ × Except (PreprocessorError × ℕ) PUnit
  | .last text, left =>
    match emit S file d (carry ++ text) with
    | .error f => (d, .error (.fault f, left))
    | .ok d => (d, .ok ())
  | .next text part behind, left =>
    match emit S file d (carry ++ text) with
    | .error f => (d, .error (.fault f, part.tokens.length + (behind.tokens.length + left)))
    | .ok d =>
      andThen (part.run d (behind.tokens.length + left)) fun d carry => behind.run d carry left
/-- A directive is performed on its own line. Nothing of a conditional is left behind its
`#endif`. -/
def Part.run (d : Doc σ) :
    Part → ℕ → Doc σ × Except (PreprocessorError × ℕ) (List PpToken)
  | .directive p line, left =>
    match perform S file p d line.rest with
    | (d, .error e) => (d, .error (e, line.tokens.length + left))
    | (d, .ok carry) => (d, .ok carry)
  | .conditional o line group arms, left =>
    match o.holds S file d.unit line.rest with
    | .error e =>
      (d, .error (e, line.tokens.length + (group.tokens.length + (arms.tokens.length + left))))
    | .ok true => andThen (group.run d [] (arms.tokens.length + left)) fun d _ => (d, .ok [])
    | .ok false => andThen (arms.run d left) fun d _ => (d, .ok [])
/-- The first arm whose condition holds, the groups in front of it being passed over. -/
def Arms.run (d : Doc σ) : Arms → ℕ → Doc σ × Except (PreprocessorError × ℕ) PUnit
  | .endif _, _ => (d, .ok ())
  | .elseGroup _ group endif, left => group.run d [] (endif.tokens.length + left)
  | .elif line group arms, left =>
    match evalCondition S file d.unit line.rest with
    | .error e =>
      (d, .error (e, line.tokens.length + (group.tokens.length + (arms.tokens.length + left))))
    | .ok true => group.run d [] (arms.tokens.length + left)
    | .ok false => arms.run d left
end

/-- An `#ifdef` or `#ifndef` has a name to ask for. -/
def Opening.Named (o : Opening) (line : List PpToken) : Prop :=
  o = .ifExpr ∨ ∃ r, parseSimpleDirectiveArg line = .ok r

mutual
def Group.Named : Group → Prop
  | .last _ => True
  | .next _ part behind => part.Named ∧ behind.Named
def Part.Named : Part → Prop
  | .directive _ _ => True
  | .conditional o line group arms => o.Named line.rest ∧ group.Named ∧ arms.Named
def Arms.Named : Arms → Prop
  | .endif _ => True
  | .elseGroup _ group _ => group.Named
  | .elif _ group arms => group.Named ∧ arms.Named
end

mutual
/-- In every group that is passed over on the way, `#ifdef` and `#ifndef` have their name. -/
def Group.SkipsNamed (d : Doc σ) (carry : List PpToken) : Group → ℕ → Prop
  | .last _, _ => True
  | .next text part behind, left =>
    ∀ d₁, emit S file d (carry ++ text) = .ok d₁ →
      part.SkipsNamed d₁ (behind.tokens.length + left) ∧
        ∀ d₂ carry, part.run S file d₁ (behind.tokens.length + left) = (d₂, .ok carry) →
          behind.SkipsNamed d₂ carry left
def Part.SkipsNamed (d : Doc σ) : Part → ℕ → Prop
  | .directive _ _, _ => True
  | .conditional o line group arms, left =>
    match o.holds S file d.unit line.rest with
    | .error _ => True
    | .ok true =>
      group.SkipsNamed d [] (arms.tokens.length + left) ∧
        ∀ d₁, group.run S file d [] (arms.tokens.length + left) = (d₁, .ok ()) → arms.Named
    | .ok false => group.Named ∧ arms.SkipsNamed d left
def Arms.SkipsNamed (d : Doc σ) : Arms → ℕ → Prop
  | .endif _, _ => True
  | .elseGroup _ group endif, left => group.SkipsNamed d [] (endif.tokens.length + left)
  | .elif line group arms, left =>
    match evalCondition S file d.unit line.rest with
    | .error _ => True
    | .ok true =>
      group.SkipsNamed d [] (arms.tokens.length + left) ∧
        ∀ d₁, group.run S file d [] (arms.tokens.length + left) = (d₁, .ok ()) → arms.Named
    | .ok false => group.Named ∧ arms.SkipsNamed d left
end

end Run

end OpticC.Preprocessor
