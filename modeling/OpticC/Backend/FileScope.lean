import OpticC.Backend.DeclaredTypes

/-! The objects of file scope. The lowering takes each declaration on its own and adds a
global for it; C has one object for all declarations of a name. -/

namespace OpticC.FileScope

/-- The type of a scalar part of an object. -/
inductive Scalar where
  | int (width : ℕ)
  | float
  | pointer
  deriving DecidableEq, Repr

/-- The value of a scalar part. `constant` is any that integers do not give: an address, a
fraction. -/
inductive Cell where
  | int (bits : ℕ)
  | float (n : ℕ)
  | constant (label : String)
  deriving DecidableEq, Repr

namespace Cell

def zero : Cell := int 0

/-- Zero is all bits zero. -/
def ofFloat (n : ℕ) : Cell := if n = 0 then zero else float n

end Cell

/-- An initializer, braces gone. `other` is what is neither an integer literal nor a string:
whether a type name in it has a pointer, the lengths of the arrays in type names, the part
that a designator names, and the values that C gives it. -/
inductive InitItem where
  | literal (value : ℕ)
  /-- `array` is the length when C takes the characters as an array. -/
  | string (bytes : List ℕ) (array : Option ℕ)
  | other (pointer : Bool) (arrays : List ℕ) (designator : Option ℕ) (cells : List Cell)
  deriving DecidableEq, Repr

structure Init where
  items : List InitItem
  nonempty : items ≠ []

inductive ObjectDeclarator where
  | ident (name : String)
  | pointer (d : ObjectDeclarator)
  | array (len : ℕ) (d : ObjectDeclarator)
  | function (d : ObjectDeclarator)
  deriving DecidableEq, Repr

namespace ObjectDeclarator

def findIdentName : ObjectDeclarator → String
  | ident name => name
  | pointer d | array _ d | function d => d.findIdentName

def isBare : ObjectDeclarator → Bool
  | ident _ => true
  | _ => false

def hasPointer : ObjectDeclarator → Bool
  | ident _ => false
  | pointer _ => true
  | array _ d | function d => d.hasPointer

def arrayLens : ObjectDeclarator → List ℕ
  | ident _ => []
  | array len d => len :: d.arrayLens
  | pointer d | function d => d.arrayLens

def hasFunction : ObjectDeclarator → Bool
  | ident _ => false
  | function _ => true
  | pointer d | array _ d => d.hasFunction

end ObjectDeclarator

/-- A file-scope declaration that is no typedef. `record` is the LLVM type found for a
`struct` or `union` specifier. -/
structure ObjectDecl where
  isExtern : Bool
  specKinds : List ℕ
  record : LlvmType
  first : ObjectDeclarator
  init : Option Init
  rest : List (ObjectDeclarator × Option Init)

inductive ExternalDecl where
  | object (d : ObjectDecl)
  /-- A function whose body is lowered, with the file-scope names used in it. -/
  | function (name : String) (uses : List String)

/-- `scalars` gives the types of the parts of each object. -/
structure TranslationUnit where
  decls : List ExternalDecl
  scalars : String → ℕ → Scalar

section Lowering

/-- The data of the literal's node: what does not parse as `u32` becomes 0. -/
def literalData (value : ℕ) : ℕ := if value < 2 ^ 32 then value else 0

/-- An element of an array constant. -/
def elementCell (elem : LlvmType) : InitItem → Cell
  | .literal value =>
    match elem with
    | .int w => .int (literalData value % 2 ^ w)
    | .float | .double => .ofFloat (literalData value)
    | _ => .zero
  | _ => .zero

def leadingStrings : List InitItem → List ℕ
  | .string bytes _ :: rest => bytes ++ leadingStrings rest
  | _ => []

def InitItem.pointers : InitItem → Bool
  | other pointer _ _ _ => pointer
  | _ => false

def InitItem.arrays : InitItem → List ℕ
  | other _ arrays _ _ => arrays
  | _ => []

namespace ObjectDecl

/-- `specifier_to_llvm_type` of the first specifier that counts. -/
def llvmType (d : ObjectDecl) : LlvmType :=
  match d.specKinds.find? isPlainSpecifier with
  | none => .int 32
  | some kind => if kind = 4 ∨ kind = 5 then d.record else nodeKindToLlvmType kind

/-- `scan_global_var_shape` goes on into the initializer. -/
def isPointer (d : ObjectDecl) (init : Init) : Bool :=
  d.first.hasPointer || d.specKinds.contains 7 || init.items.any InitItem.pointers

def arrayLens (d : ObjectDecl) (init : Init) : List ℕ :=
  d.first.arrayLens ++ init.items.flatMap InitItem.arrays

def arrayLen (d : ObjectDecl) (init : Init) : ℕ :=
  let len := ((d.arrayLens init).find? fun len => 0 < len).getD 0
  max 1 (if len = 0 then init.items.length else len)

/-- The constant of `lower_global_var`, its scalar parts in order; the others are zero. -/
def globalConstant (d : ObjectDecl) (init : Init) : List Cell :=
  -- after a specifier of kind 7 the initializer is not found
  if d.specKinds.contains 7 then []
  else match init.items with
    | .string bytes _ :: rest => (bytes ++ leadingStrings rest).map .int
    | items =>
      if d.arrayLens init ≠ [] then
        if d.isPointer init then []
        else (items.map (elementCell d.llvmType)).take (d.arrayLen init)
      else match items with
        | .literal value :: _ =>
          if d.isPointer init then []
          else match d.llvmType with
            | .int w => [.int (literalData value % 2 ^ w)]
            | .float | .double => [.int (literalData value)]
            | _ => []
        | _ => []

/-- The declarators that are parsed. An initializer on a later one ends the declaration, and
the parser skips to the next. -/
def parsedRest : List (ObjectDeclarator × Option Init) → List ObjectDeclarator
  | [] => []
  | (d, none) :: rest => d :: parsedRest rest
  | (d, some _) :: _ => [d]

def parsed (d : ObjectDecl) : List ObjectDeclarator := d.first :: parsedRest d.rest

/-- The name that `lower_func_decl` gives a function to. -/
def functionName (d : ObjectDecl) : Option String :=
  (d.parsed.reverse.find? ObjectDeclarator.hasFunction).map ObjectDeclarator.findIdentName

/-- What `lower_global_decl` adds: the names and the constants. -/
def added (d : ObjectDecl) : List (String × List Cell) :=
  match d.init with
  | some init => [(d.first.findIdentName, d.globalConstant init)]
  | none =>
    if d.specKinds.any isPlainSpecifier then
      (d.parsed.filter ObjectDeclarator.isBare).map fun declarator => (declarator.findIdentName, [])
    else []

end ObjectDecl

/-- A global of the module. `renamed` when its name was taken. All have an initializer. -/
structure Global where
  name : String
  renamed : Bool
  initial : Option (List Cell)

/-- `globalVariables` numbers the globals; `uses` are the uses lowered so far with what they
refer to. -/
structure Module where
  symbols : List String
  globals : List Global
  globalVariables : String → Option ℕ
  uses : List (String × Option ℕ)

namespace Module

def addGlobal (m : Module) (entry : String × List Cell) : Module where
  symbols := entry.1 :: m.symbols
  globals := m.globals ++ [⟨entry.1, m.symbols.contains entry.1, some entry.2⟩]
  globalVariables := Function.update m.globalVariables entry.1 (some m.globals.length)
  uses := m.uses

def lowerFuncDef (m : Module) (uses : List String) : Module :=
  { m with uses := m.uses ++ uses.map fun name => (name, m.globalVariables name) }

def lower (m : Module) : ExternalDecl → Module
  | .object d => d.added.foldl addGlobal m
  | .function _ uses => m.lowerFuncDef uses

end Module

namespace TranslationUnit

/-- The functions that the first pass adds. -/
def functionNames (u : TranslationUnit) : List String :=
  u.decls.filterMap fun
    | .object d => d.functionName
    | .function name _ => some name

def lowerTranslationUnit (u : TranslationUnit) : Module :=
  u.decls.foldl Module.lower ⟨u.functionNames, [], fun _ => none, []⟩

end TranslationUnit

end Lowering

section Meaning

namespace Scalar

/-- An integer constant converted to the type. -/
def cell : Scalar → ℕ → Cell
  | int w, value => .int (value % 2 ^ w)
  | float, value => .ofFloat value
  | pointer, value => .int (value % 2 ^ 64)

end Scalar

/-- The values that an initializer gives to consecutive parts. -/
def itemCells (scalar : Scalar) : InitItem → List Cell
  | .literal value => [scalar.cell value]
  | .string bytes (some len) => (bytes.map Cell.int ++ List.replicate len Cell.zero).take len
  | .string bytes none => [.constant (String.ofList (bytes.map Char.ofNat))]
  | .other _ _ _ cells => cells

/-- Later parts are set over earlier ones. -/
def setCells (value : ℕ → Cell) (start : ℕ) (cells : List Cell) : ℕ → Cell := fun i =>
  if start ≤ i then (cells[i - start]?).getD (value i) else value i

def initCells (scalars : ℕ → Scalar) : ℕ → List InitItem → (ℕ → Cell) → ℕ → Cell
  | _, [], value => value
  | i, item :: rest, value =>
    let start := match item with
      | .other _ _ (some designated) _ => designated
      | _ => i
    let cells := itemCells (scalars start) item
    initCells scalars (start + cells.length) rest (setCells value start cells)

namespace ObjectDecl

/-- The declarators as C reads them. -/
def declarators (d : ObjectDecl) : List (ObjectDeclarator × Option Init) :=
  (d.first, d.init) :: d.rest

/-- Declares the name, and not only as `extern`. -/
def Defines (d : ObjectDecl) (name : String) : Prop :=
  ∃ r ∈ d.declarators, r.1.findIdentName = name ∧ (d.isExtern = false ∨ r.2.isSome)

end ObjectDecl

namespace TranslationUnit

/-- Some declaration of the name is a definition, tentative or not. -/
def Defines (u : TranslationUnit) (name : String) : Prop :=
  ∃ d, .object d ∈ u.decls ∧ d.Defines name

/-- The initializers of the name. C allows one. -/
def inits (u : TranslationUnit) (name : String) : List Init :=
  u.decls.flatMap fun
    | .object d =>
      (d.declarators.filter fun r => r.1.findIdentName == name).filterMap fun r => r.2
    | .function _ _ => []

def initialValue (u : TranslationUnit) (name : String) : ℕ → Cell :=
  match (u.inits name).head? with
  | some init => initCells (u.scalars name) 0 init.items fun _ => .zero
  | none => fun _ => .zero

/-- One global stands for all declarations of the name. -/
def Merges (u : TranslationUnit) (name : String) : Prop :=
  ∃ i g, u.lowerTranslationUnit.globals[i]? = some g ∧ g.name = name ∧ g.renamed = false ∧
    (∀ j h, u.lowerTranslationUnit.globals[j]? = some h → h.name = name → j = i) ∧
    (g.initial.isSome ↔ u.Defines name) ∧
    (∀ cells, g.initial = some cells → ∀ k, (cells[k]?).getD .zero = u.initialValue name k) ∧
    ∀ target, (name, target) ∈ u.lowerTranslationUnit.uses → target = some i

end TranslationUnit

end Meaning

namespace ExternalDecl

def added : ExternalDecl → List (String × List Cell)
  | object d => d.added
  | function _ _ => []

def uses : ExternalDecl → List String
  | object _ => []
  | function _ uses => uses

end ExternalDecl

namespace Module

theorem lower_eq (m : Module) (e : ExternalDecl) :
    m.lower e = (e.added.foldl addGlobal m).lowerFuncDef e.uses := by
  cases e with
  | object d => simp [lower, lowerFuncDef, ExternalDecl.added, ExternalDecl.uses]
  | function name uses => rfl

variable {m : Module} {name : String} {target : Option ℕ}

theorem names_addGlobals (m : Module) (entries : List (String × List Cell)) :
    (entries.foldl addGlobal m).globals.map Global.name =
      m.globals.map Global.name ++ entries.map Prod.fst := by
  induction entries generalizing m with
  | nil => simp
  | cons entry entries ih =>
    rw [List.foldl_cons, ih]
    simp [addGlobal]

theorem names_lower (m : Module) (decls : List ExternalDecl) :
    (decls.foldl lower m).globals.map Global.name =
      m.globals.map Global.name ++ decls.flatMap fun e => e.added.map Prod.fst := by
  induction decls generalizing m with
  | nil => simp
  | cons e decls ih =>
    rw [List.foldl_cons, ih, lower_eq]
    have := names_addGlobals m e.added
    simp only [lowerFuncDef] at this ⊢
    rw [this, List.append_assoc, List.flatMap_cons]

theorem uses_addGlobals (m : Module) (entries : List (String × List Cell)) :
    (entries.foldl addGlobal m).uses = m.uses := by
  induction entries generalizing m with
  | nil => rfl
  | cons entry entries ih => rw [List.foldl_cons, ih]; rfl

theorem grows_addGlobals (m : Module) (entries : List (String × List Cell)) :
    ∃ more, (entries.foldl addGlobal m).globals = m.globals ++ more := by
  induction entries generalizing m with
  | nil => exact ⟨[], (List.append_nil _).symm⟩
  | cons entry entries ih =>
    obtain ⟨more, h⟩ := ih (m.addGlobal entry)
    exact ⟨_, h.trans (List.append_assoc _ _ _)⟩

theorem grows_lower (m : Module) (decls : List ExternalDecl) :
    ∃ more, (decls.foldl lower m).globals = m.globals ++ more := by
  induction decls generalizing m with
  | nil => exact ⟨[], (List.append_nil _).symm⟩
  | cons e decls ih =>
    obtain ⟨more, h⟩ := ih (m.lower e)
    obtain ⟨now, h'⟩ := grows_addGlobals m e.added
    refine ⟨now ++ more, ?_⟩
    rw [List.foldl_cons, h, lower_eq]
    simp only [lowerFuncDef]
    rw [h', List.append_assoc]

/-- Globals of other names leave a name as it was. -/
theorem others_addGlobals {entries : List (String × List Cell)}
    (h : name ∉ entries.map Prod.fst) :
    (entries.foldl addGlobal m).globalVariables name = m.globalVariables name ∧
      (name ∈ (entries.foldl addGlobal m).symbols ↔ name ∈ m.symbols) := by
  induction entries generalizing m with
  | nil => exact ⟨rfl, Iff.rfl⟩
  | cons entry entries ih =>
    rw [List.map_cons, List.mem_cons, not_or] at h
    obtain ⟨hvar, hsym⟩ := ih (m := m.addGlobal entry) h.2
    rw [List.foldl_cons, hvar, hsym]
    constructor
    · exact Function.update_of_ne h.1 _ _
    · simp [addGlobal, h.1]

theorem others_lower {decls : List ExternalDecl}
    (h : ∀ e ∈ decls, name ∉ e.added.map Prod.fst) :
    (decls.foldl lower m).globalVariables name = m.globalVariables name ∧
      (name ∈ (decls.foldl lower m).symbols ↔ name ∈ m.symbols) := by
  induction decls generalizing m with
  | nil => exact ⟨rfl, Iff.rfl⟩
  | cons e decls ih =>
    obtain ⟨hvar, hsym⟩ := ih (m := m.lower e) fun e' he' => h e' (List.mem_cons_of_mem _ he')
    rw [List.foldl_cons, hvar, hsym, lower_eq]
    exact others_addGlobals (h e List.mem_cons_self)

/-- As long as no global of a name is added, its uses refer to the one there is. -/
theorem mem_uses_lower {decls : List ExternalDecl}
    (h : ∀ e ∈ decls, name ∉ e.added.map Prod.fst) :
    (name, target) ∈ (decls.foldl lower m).uses ↔
      (name, target) ∈ m.uses ∨
        target = m.globalVariables name ∧ ∃ e ∈ decls, name ∈ e.uses := by
  induction decls generalizing m with
  | nil => simp
  | cons e decls ih =>
    have he := h e List.mem_cons_self
    have hvar : (m.lower e).globalVariables name = m.globalVariables name := by
      rw [lower_eq]
      exact (others_addGlobals he).1
    have huses : (name, target) ∈ (m.lower e).uses ↔
        (name, target) ∈ m.uses ∨ target = m.globalVariables name ∧ name ∈ e.uses := by
      rw [lower_eq]
      simp only [lowerFuncDef, List.mem_append, uses_addGlobals, List.mem_map, Prod.mk.injEq]
      constructor
      · rintro (h' | ⟨used, hu, rfl, rfl⟩)
        · exact Or.inl h'
        · exact Or.inr ⟨(others_addGlobals he).1, hu⟩
      · rintro (h' | ⟨rfl, hu⟩)
        · exact Or.inl h'
        · exact Or.inr ⟨name, hu, rfl, (others_addGlobals he).1⟩
    rw [List.foldl_cons, ih fun e' he' => h e' (List.mem_cons_of_mem _ he'), hvar, huses]
    simp only [List.mem_cons, exists_eq_or_imp]
    rw [or_assoc, ← and_or_left]

/-- The global of a name that is added once, and the uses of the name. -/
theorem lower_once {before after : List ExternalDecl} {e : ExternalDecl}
    {pre post : List (String × List Cell)} {cells : List Cell}
    (he : e.added = pre ++ (name, cells) :: post)
    (hothers : ∀ e' ∈ before ++ after, name ∉ e'.added.map Prod.fst)
    (hpre : name ∉ (pre ++ post).map Prod.fst) (hnone : m.globalVariables name = none)
    (huses : m.uses = []) (huse : e.uses = []) :
    ∃ i, ((before ++ e :: after).foldl lower m).globals[i]? =
        some ⟨name, m.symbols.contains name, some cells⟩ ∧
      ∀ target, (name, target) ∈ ((before ++ e :: after).foldl lower m).uses ↔
        target = none ∧ (∃ e' ∈ before, name ∈ e'.uses) ∨
          target = some i ∧ ∃ e' ∈ after, name ∈ e'.uses := by
  have hbefore : ∀ e' ∈ before, name ∉ e'.added.map Prod.fst := fun e' h' =>
    hothers e' (List.mem_append_left _ h')
  have hafter : ∀ e' ∈ after, name ∉ e'.added.map Prod.fst := fun e' h' =>
    hothers e' (List.mem_append_right _ h')
  rw [List.map_append, List.mem_append, not_or] at hpre
  obtain ⟨m₁, hm₁⟩ : ∃ m₁, m₁ = before.foldl lower m := ⟨_, rfl⟩
  obtain ⟨m₂, hm₂⟩ : ∃ m₂, m₂ = pre.foldl addGlobal m₁ := ⟨_, rfl⟩
  have hsym : name ∈ m₂.symbols ↔ name ∈ m.symbols := by
    rw [hm₂, hm₁]
    exact (others_addGlobals hpre.1).2.trans (others_lower hbefore).2
  have hlower : m₁.lower e = (post.foldl addGlobal (m₂.addGlobal (name, cells))) := by
    rw [lower_eq, huse, he, List.foldl_append, List.foldl_cons, ← hm₂]
    simp [lowerFuncDef]
  obtain ⟨more, hmore⟩ := grows_addGlobals (m₂.addGlobal (name, cells)) post
  obtain ⟨later, hlater⟩ := grows_lower (m₁.lower e) after
  refine ⟨m₂.globals.length, ?_, ?_⟩
  · rw [List.foldl_append, List.foldl_cons, ← hm₁, hlater, hlower, hmore]
    simp [addGlobal, hsym]
  · intro target
    have hvar : (m₁.lower e).globalVariables name = some m₂.globals.length := by
      rw [hlower, (others_addGlobals hpre.2).1]
      exact Function.update_self _ _ _
    have hsame : (m₁.lower e).uses = m₁.uses := by
      rw [hlower, uses_addGlobals]
      exact (congrArg uses hm₂).trans (uses_addGlobals m₁ pre)
    rw [List.foldl_append, List.foldl_cons, ← hm₁, mem_uses_lower hafter, hvar, hsame, hm₁,
      mem_uses_lower hbefore, hnone, huses]
    simp

end Module

namespace TranslationUnit

variable {u : TranslationUnit} {name : String}

/-- One declaration alone gives the name its global: no other is lowered to one, no function
that comes before uses the name and no function has it, and the literals of its initializer
are the value that C gives the object. -/
def LoweredOnce (u : TranslationUnit) (name : String) : Prop :=
  ∃ before d after pre cells post, u.decls = before ++ .object d :: after ∧
    d.added = pre ++ (name, cells) :: post ∧
    (∀ e ∈ before ++ after, name ∉ e.added.map Prod.fst) ∧
    name ∉ (pre ++ post).map Prod.fst ∧ (∀ e ∈ before, name ∉ e.uses) ∧
    name ∉ u.functionNames ∧ ∀ k, (cells[k]?).getD .zero = u.initialValue name k

theorem index_unique {α : Type*} {x : α} {left right : List α} {j : ℕ} (hl : x ∉ left)
    (hr : x ∉ right) (h : (left ++ x :: right)[j]? = some x) : j = left.length := by
  rcases Nat.lt_trichotomy j left.length with hj | hj | hj
  · rw [List.getElem?_append_left hj] at h
    exact absurd (List.mem_of_getElem? h) hl
  · exact hj
  · rw [List.getElem?_append_right (Nat.le_of_lt hj)] at h
    obtain ⟨k, hk⟩ : ∃ k, j - left.length = k + 1 := ⟨j - left.length - 1, by omega⟩
    rw [hk, List.getElem?_cons_succ] at h
    exact absurd (List.mem_of_getElem? h) hr

theorem names_eq (u : TranslationUnit) :
    u.lowerTranslationUnit.globals.map Global.name =
      u.decls.flatMap fun e => e.added.map Prod.fst :=
  Module.names_lower _ u.decls

theorem not_mem_of_index_unique {α : Type*} {x : α} {left right : List α} {i : ℕ}
    (h : ∀ j, (left ++ x :: right)[j]? = some x → j = i) : x ∉ left ∧ x ∉ right := by
  have hi : left.length = i := h _ (by simp)
  constructor
  · intro hx
    obtain ⟨j, hj⟩ := List.getElem?_of_mem hx
    have hlt : j < left.length := by
      by_contra hge
      rw [List.getElem?_eq_none (by omega)] at hj
      cases hj
    have := h j (by rw [List.getElem?_append_left hlt]; exact hj)
    omega
  · intro hx
    obtain ⟨j, hj⟩ := List.getElem?_of_mem hx
    have := h (left.length + (j + 1)) (by
      rw [List.getElem?_append_right (by omega), Nat.add_sub_cancel_left, List.getElem?_cons_succ]
      exact hj)
    omega

section Split

variable {before after : List ExternalDecl} {e : ExternalDecl}
  {pre post : List (String × List Cell)} {cells : List Cell}

def namesBefore (before : List ExternalDecl) (pre : List (String × List Cell)) : List String :=
  before.flatMap (fun e => e.added.map Prod.fst) ++ pre.map Prod.fst

def namesAfter (post : List (String × List Cell)) (after : List ExternalDecl) : List String :=
  post.map Prod.fst ++ after.flatMap fun e => e.added.map Prod.fst

theorem names_split (hdecls : u.decls = before ++ e :: after)
    (hadded : e.added = pre ++ (name, cells) :: post) :
    u.lowerTranslationUnit.globals.map Global.name =
      namesBefore before pre ++ name :: namesAfter post after := by
  rw [names_eq, hdecls, List.flatMap_append, List.flatMap_cons, hadded]
  simp [namesBefore, namesAfter]

theorem not_mem_names_iff :
    (name ∉ namesBefore before pre ∧ name ∉ namesAfter post after) ↔
      (∀ e ∈ before ++ after, name ∉ e.added.map Prod.fst) ∧ name ∉ (pre ++ post).map Prod.fst := by
  unfold namesBefore namesAfter
  simp only [List.mem_append, List.mem_flatMap, List.map_append, not_or, not_exists, not_and]
  constructor
  · rintro ⟨⟨hb, hpre⟩, hpost, ha⟩
    exact ⟨fun e he => he.elim (hb e) (ha e), hpre, hpost⟩
  · rintro ⟨h, hpre, hpost⟩
    exact ⟨⟨fun e he => h e (Or.inl he), hpre⟩, hpost, fun e he => h e (Or.inr he)⟩

end Split

theorem getElem?_name {i : ℕ} {g : Global} (h : u.lowerTranslationUnit.globals[i]? = some g) :
    (u.lowerTranslationUnit.globals.map Global.name)[i]? = some g.name := by
  rw [List.getElem?_map, h]
  rfl

theorem merges_of_loweredOnce (hdef : u.Defines name) (h : u.LoweredOnce name) :
    u.Merges name := by
  obtain ⟨before, d, after, pre, cells, post, hdecls, hadded, hothers, hpre, huse, hfun, hval⟩ := h
  obtain ⟨i, hi, huses⟩ := @Module.lower_once ⟨u.functionNames, [], fun _ => none, []⟩ name
    before after (.object d) pre post cells hadded hothers hpre rfl rfl rfl
  rw [← hdecls] at hi huses
  have hsplit := names_split (e := .object d) hdecls hadded
  obtain ⟨hleft, hright⟩ := not_mem_names_iff.2 ⟨hothers, hpre⟩
  have hindex : ∀ j g, u.lowerTranslationUnit.globals[j]? = some g → g.name = name →
      j = (namesBefore before pre).length := by
    rintro j g hg rfl
    have hj := getElem?_name hg
    rw [hsplit] at hj
    exact index_unique hleft hright hj
  refine ⟨i, _, hi, rfl, ?_, ?_, ?_, ?_, ?_⟩
  · simpa using hfun
  · intro j g hg hname
    rw [hindex j g hg hname]
    exact (hindex i _ hi rfl).symm
  · simp [hdef]
  · rintro cells' hcells
    obtain rfl : cells = cells' := Option.some.inj hcells
    exact hval
  · intro target htarget
    rcases (huses target).1 htarget with ⟨-, e, he, hname⟩ | ⟨h', -⟩
    · exact absurd hname (huse e he)
    · exact h'

theorem loweredOnce_of_merges (h : u.Merges name) : u.Defines name ∧ u.LoweredOnce name := by
  obtain ⟨i, g, hi, hname, hren, huniq, hdef, hval, huse⟩ := h
  have hmem : name ∈ u.decls.flatMap fun e => e.added.map Prod.fst := by
    rw [← names_eq, ← hname]
    exact List.mem_map_of_mem (List.mem_of_getElem? hi)
  obtain ⟨e, he, hin⟩ := List.mem_flatMap.1 hmem
  obtain ⟨⟨_, cells⟩, hentry, rfl⟩ := List.mem_map.1 hin
  obtain ⟨before, after, hdecls⟩ := List.append_of_mem he
  obtain ⟨pre, post, hadded⟩ := List.append_of_mem hentry
  cases e with
  | function f uses => cases hentry
  | object d =>
    have hsplit := names_split hdecls hadded
    have hothers := not_mem_names_iff.1 (not_mem_of_index_unique (i := i) (by
      intro j hj
      rw [← hsplit, List.getElem?_map] at hj
      obtain ⟨g', hg', hn⟩ := Option.map_eq_some_iff.1 hj
      exact huniq j g' hg' hn))
    obtain ⟨i', hi', huses⟩ := @Module.lower_once ⟨u.functionNames, [], fun _ => none, []⟩ _
      before after (.object d) pre post cells hadded hothers.1 hothers.2 rfl rfl rfl
    rw [← hdecls] at hi' huses
    obtain rfl : i' = i := huniq i' _ hi' rfl
    obtain rfl : g = _ := Option.some.inj (hi.symm.trans hi')
    refine ⟨hdef.1 rfl, before, d, after, pre, cells, post, hdecls, hadded, hothers.1, hothers.2,
      ?_, ?_, hval cells rfl⟩
    · intro e he hu
      cases huse none ((huses none).2 (Or.inl ⟨rfl, e, he, hu⟩))
    · simpa using hren

/-- `extern int x; int x;` -/
def externThenTentative : TranslationUnit where
  decls := [.object ⟨true, [102, 2], .int 32, .ident "x", none, []⟩,
    .object ⟨false, [2], .int 32, .ident "x", none, []⟩]
  scalars := fun _ _ => .int 32

end TranslationUnit

end OpticC.FileScope
