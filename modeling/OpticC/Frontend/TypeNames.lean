import Mathlib.Algebra.Ring.Int.Defs
import Mathlib.Algebra.Ring.Nat
import Mathlib.Data.Nat.Notation
import Mathlib.Data.List.Induction
import Mathlib.Logic.Function.Basic

/-! Which identifiers are type names. C says it by the innermost declaration in scope; the
parser by a set of the typedef names it has seen, which only grows. -/

namespace OpticC.TypeNames

/-- A token among the specifiers of a declaration, as `parse_declaration_specifiers` tells
them apart, or the one after them. `keyword` is a type specifier that is no name, a tag with
its members included. -/
inductive SpecToken where
  | storage
  | qualifier
  | function
  | keyword
  | ident (name : String)
  | other
  deriving DecidableEq, Repr

section Parser

/-- `is_type_specifier`. -/
def isTypeSpecifier (typedefNames : String → Bool) : SpecToken → Bool
  | .keyword => true
  | .ident name => typedefNames name
  | _ => false

/-- The loop of `parse_declaration_specifiers`: the specifiers and the tokens left. A type
specifier is taken no matter how many there were. -/
def parseDeclarationSpecifiers (typedefNames : String → Bool) :
    List SpecToken → List SpecToken × List SpecToken
  | [] => ([], [])
  | token :: rest =>
    match token with
    | .storage | .qualifier | .function =>
      let (specs, left) := parseDeclarationSpecifiers typedefNames rest
      (token :: specs, left)
    | .keyword | .ident _ | .other =>
      if isTypeSpecifier typedefNames token then
        let (specs, left) := parseDeclarationSpecifiers typedefNames rest
        (token :: specs, left)
      else ([], token :: rest)

end Parser

/-- The specifiers of a declaration as C has them, and the identifier right after them, when
the first declarator is a bare one. -/
structure Specifiers where
  tokens : List SpecToken
  next : Option String
  known : .other ∉ tokens

/-- What the parser finds: the specifiers and one token more. -/
def Specifiers.text (s : Specifiers) : List SpecToken :=
  s.tokens ++ [(s.next.map SpecToken.ident).getD .other]

/-- Where a typedef stands. -/
inductive Place where
  | file
  | block
  deriving DecidableEq, Repr

/-- What a translation unit says about ordinary names, in the order of its text: the
specifiers of a declaration with the token after them; the end of a declarator, from which
its name is in scope; a name where the parser asks whether a declaration, a type name or an
expression begins; a label before a block item; what is inside a block, a parameter list or a
function. Names that the parser takes without asking, as after `.` or `goto`, are left out. -/
inductive Item where
  | specifiers (s : Specifiers)
  | declare (name : String)
  /-- `index` counts the declarators of the declaration, `keywordFirst` says that its first
  token is `typedef`. -/
  | typedefDecl (name : String) (place : Place) (index : ℕ) (keywordFirst : Bool)
  | start (name : String)
  | label (name : String)
  | scope (items : List Item)

/-- The classifications and registrations in the order of the text. `isTypeName` is what C
says about the name. -/
inductive Event where
  | specifiers (s : Specifiers)
  | start (name : String) (isTypeName : Bool)
  | label (name : String)
  | typedefDecl (name : String) (place : Place) (index : ℕ) (keywordFirst : Bool)

section Scopes

/-- Whether the innermost declaration of a name is a typedef. -/
abbrev Env := String → Bool

mutual

def itemEvents (env : Env) : Item → List Event × Env
  | .specifiers s => ([.specifiers s], env)
  | .declare name => ([], Function.update env name false)
  | .typedefDecl name place index keywordFirst =>
    ([.typedefDecl name place index keywordFirst], Function.update env name true)
  | .start name => ([.start name (env name)], env)
  | .label name => ([.label name], env)
  | .scope items => ((itemsEvents env items).1, env)

def itemsEvents (env : Env) : List Item → List Event × Env
  | [] => ([], env)
  | item :: rest =>
    let (events, env') := itemEvents env item
    let (events', env'') := itemsEvents env' rest
    (events ++ events', env'')

end

end Scopes

def events (unit : List Item) : List Event := (itemsEvents (fun _ => false) unit).1

section Classification

/-- A block-scope declaration registers each name, one of file scope the first; and both
know a typedef by the first token alone. -/
def registers (place : Place) (index : ℕ) (keywordFirst : Bool) : Bool :=
  keywordFirst && (place == .block || index == 0)

def register (typedefNames : String → Bool) : Event → String → Bool
  | .typedefDecl name place index keywordFirst =>
    if registers place index keywordFirst then Function.update typedefNames name true
    else typedefNames
  | _ => typedefNames

def namesAfter (before : List Event) : String → Bool := before.foldl register fun _ => false

/-- The parser classifies as C does: it takes the specifiers and no more, it takes a name for
a type name when that is what it is, and a label for none. -/
def Follows (typedefNames : String → Bool) : Event → Prop
  | .specifiers s =>
    (parseDeclarationSpecifiers typedefNames s.text).1 = s.tokens
  | .start name isTypeName => isTypeSpecifier typedefNames (.ident name) = isTypeName
  | .label name => isTypeSpecifier typedefNames (.ident name) = false
  | .typedefDecl _ _ _ _ => True

/-- Type names follow scope. -/
def FollowsScope (unit : List Item) : Prop :=
  ∀ before e after, events unit = before ++ e :: after → Follows (namesAfter before) e

/-- A typedef of the name that the parser registers stands before. -/
def Registered (before : List Event) (name : String) : Prop :=
  ∃ place index keywordFirst, .typedefDecl name place index keywordFirst ∈ before ∧
    registers place index keywordFirst

theorem register_iff {typedefNames : String → Bool} {e : Event} {name : String} :
    register typedefNames e name = true ↔
      typedefNames name = true ∨ ∃ place index keywordFirst,
        .typedefDecl name place index keywordFirst = e ∧ registers place index keywordFirst := by
  cases e with
  | typedefDecl n place index keywordFirst =>
    simp only [register, Event.typedefDecl.injEq]
    by_cases hr : registers place index keywordFirst
    · rw [if_pos hr]
      by_cases hn : name = n
      · subst hn
        rw [Function.update_self]
        exact iff_of_true rfl (Or.inr ⟨place, index, keywordFirst, ⟨rfl, rfl, rfl, rfl⟩, hr⟩)
      · rw [Function.update_of_ne hn]
        constructor
        · exact Or.inl
        · rintro (h | ⟨_, _, _, ⟨h, -⟩, -⟩)
          · exact h
          · exact absurd h hn
    · rw [if_neg hr]
      constructor
      · exact Or.inl
      · rintro (h | ⟨_, _, _, ⟨-, rfl, rfl, rfl⟩, h⟩)
        · exact h
        · exact absurd h hr
  | specifiers s => simp [register]
  | start n isTypeName => simp [register]
  | label n => simp [register]

theorem registered_append {before : List Event} {e : Event} {name : String} :
    Registered (before ++ [e]) name ↔ Registered before name ∨ ∃ place index keywordFirst,
      .typedefDecl name place index keywordFirst = e ∧ registers place index keywordFirst := by
  unfold Registered
  simp only [List.mem_append, List.mem_singleton, or_and_right, exists_or]

/-- The set holds what was registered somewhere before. -/
theorem namesAfter_iff {before : List Event} {name : String} :
    namesAfter before name = true ↔ Registered before name := by
  induction before using List.reverseRecOn with
  | nil =>
    constructor
    · intro h
      cases h
    · rintro ⟨_, _, _, h, -⟩
      cases h
  | append_singleton before e ih =>
    have hstep : namesAfter (before ++ [e]) = register (namesAfter before) e := by
      unfold namesAfter
      rw [List.foldl_append]
      rfl
    rw [hstep, register_iff, registered_append, ih]

theorem parse_fst_cons {typedefNames : String → Bool} {token : SpecToken} {rest : List SpecToken} :
    (parseDeclarationSpecifiers typedefNames (token :: rest)).1 =
      match token with
      | .storage | .qualifier | .function | .keyword =>
        token :: (parseDeclarationSpecifiers typedefNames rest).1
      | .ident name =>
        if typedefNames name then token :: (parseDeclarationSpecifiers typedefNames rest).1 else []
      | .other => [] := by
  cases token with
  | ident name =>
    by_cases h : typedefNames name = true
    · simp [parseDeclarationSpecifiers, isTypeSpecifier, h]
    · simp [parseDeclarationSpecifiers, isTypeSpecifier, h]
  | storage => rfl
  | qualifier => rfl
  | function => rfl
  | keyword => rfl
  | other => rfl

/-- The loop stops where the specifiers of C end exactly when it knows the names among them
and does not know the one after them. -/
theorem parse_text_iff {typedefNames : String → Bool} (s : Specifiers) :
    (parseDeclarationSpecifiers typedefNames s.text).1 = s.tokens ↔
      (∀ name, .ident name ∈ s.tokens → typedefNames name = true) ∧
        ∀ name, s.next = some name → typedefNames name = false := by
  obtain ⟨tokens, next, known⟩ := s
  unfold Specifiers.text
  induction tokens with
  | nil =>
    cases next with
    | none => simp [parse_fst_cons]
    | some name => simp [parse_fst_cons]
  | cons token tokens ih =>
    rw [List.mem_cons, not_or] at known
    have ih := ih known.2
    dsimp only at ih ⊢
    rw [List.cons_append, parse_fst_cons]
    cases token with
    | ident name =>
      dsimp only
      split_ifs with hname
      · rw [List.cons_inj_right, ih]
        simp [hname]
      · constructor
        · intro h
          cases h
        · rintro ⟨h, -⟩
          exact absurd (h name List.mem_cons_self) hname
    | storage => simpa using ih
    | qualifier => simpa using ih
    | function => simpa using ih
    | keyword => simpa using ih
    | other => exact absurd rfl known.1

/-- What the text must be like where the parser classifies. -/
def Fits (before : List Event) : Event → Prop
  | .specifiers s =>
    (∀ name, .ident name ∈ s.tokens → Registered before name) ∧
      ∀ name, s.next = some name → ¬Registered before name
  | .start name isTypeName => Registered before name ↔ isTypeName = true
  | .label name => ¬Registered before name
  | .typedefDecl _ _ _ _ => True

/-- `typedef int T; void f(void) { int T; }` -/
def redeclared : List Item :=
  [.specifiers ⟨[.storage, .keyword], some "T", by decide⟩, .typedefDecl "T" .file 0 true,
    .specifiers ⟨[.keyword], some "f", by decide⟩, .declare "f",
    .scope [.specifiers ⟨[.keyword], some "T", by decide⟩, .declare "T"]]

end Classification

end OpticC.TypeNames
