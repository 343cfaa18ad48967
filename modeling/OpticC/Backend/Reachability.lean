import OpticC.Lib.Worklist

/-! Which functions of a translation unit get their body. The collection of references walks
child links only, and its roots are functions only; what it misses is not emitted, and is
given a body that returns zero when the module declares it. -/

namespace OpticC

/-- A node of the syntax tree. `children` are what `first_child` and `next_sibling` lead to;
`apart` is what hangs off `data` or lost its link. `refers` says that C resolves the
identifier at the node to the file-scope name. -/
inductive SyntaxTree where
  | node (kind : ℕ) (text : String) (refers : Bool) (children apart : List SyntaxTree)

namespace SyntaxTree

def kind : SyntaxTree → ℕ
  | node kind _ _ _ _ => kind

def text : SyntaxTree → String
  | node _ text _ _ _ => text

def children : SyntaxTree → List SyntaxTree
  | node _ _ _ children _ => children

def ident (name : String) : SyntaxTree := node 60 name true [] []

/-- `(type_name){ ... }`: the initializer list is the `data` of the node. -/
def compoundLiteral (castType initList : List SyntaxTree) : SyntaxTree :=
  node 212 "" false castType initList

/-- `case LOW ... HIGH:`, with the upper bound in `data`. -/
def caseRange (expr highExpr : SyntaxTree) : SyntaxTree := node 54 "" false [expr] [highExpr]

/-- An `asm` statement, whose operands are its own siblings. A statement linked after it
takes their place. What stands in `first_child` is the template, which is no node. -/
def asmStmt (operands : List SyntaxTree) (followed : Bool) : List SyntaxTree :=
  if followed then [node 207 "" false [] operands] else node 207 "" false [] [] :: operands

/-- `some r` when the search for an identifier ends at the node, with the result. -/
def identStop (t : SyntaxTree) (inner : Option (Option String)) : Option (Option String) :=
  if t.kind = 60 then some (if t.text = "" then none else some t.text)
  else if t.kind ∈ [7, 8, 9, 73] then
    match inner with
    | some (some name) => some (some name)
    | _ => none
  else none

mutual

def findIdent : SyntaxTree → Option (Option String)
  | node kind text refers children apart =>
    identStop (node kind text refers children apart) (findIdentAmong children)

def findIdentAmong : List SyntaxTree → Option (Option String)
  | [] => none
  | t :: rest =>
    match findIdent t with
    | some r => some r
    | none => findIdentAmong rest

end

def findIdentName (t : SyntaxTree) : Option String := (findIdentAmong t.children).join

def findIdentNameIn (t : SyntaxTree) : Option String :=
  if t.kind = 60 then (if t.text = "" then none else some t.text)
  else if t.kind ∈ [7, 8, 9] then t.findIdentName
  else none

def isBuiltin (name : String) : Bool := "__builtin_".isPrefixOf name

/-- The name a call node adds. -/
def calleeName (t : SyntaxTree) : List String :=
  if t.kind = 67 then
    match t.children.head? with
    | none => []
    | some callee =>
      match (findIdentNameIn callee).or (findIdentName callee) with
      | none => []
      | some name => if isBuiltin name then [] else [name]
  else []

/-- The name an identifier node adds. -/
def bareName (t : SyntaxTree) : List String :=
  if t.kind = 60 ∧ t.text ≠ "" ∧ isBuiltin t.text = false then [t.text] else []

mutual

def directCallees : SyntaxTree → List String
  | node kind text refers children apart =>
    calleeName (node kind text refers children apart) ++
      bareName (node kind text refers children apart) ++ collectDirectCallees children

def collectDirectCallees : List SyntaxTree → List String
  | [] => []
  | t :: rest => directCallees t ++ collectDirectCallees rest

end

/-- The tree refers to the file-scope name, wherever the reference stands. -/
inductive Refers : SyntaxTree → String → Prop
  | here {kind : ℕ} {name : String} {children apart : List SyntaxTree} :
      Refers (node kind name true children apart) name
  | child {kind : ℕ} {text name : String} {refers : Bool} {children apart : List SyntaxTree}
      {t : SyntaxTree} : t ∈ children → Refers t name →
      Refers (node kind text refers children apart) name
  | apart {kind : ℕ} {text name : String} {refers : Bool} {children apart : List SyntaxTree}
      {t : SyntaxTree} : t ∈ apart → Refers t name →
      Refers (node kind text refers children apart) name

/-- The name stands in the tree at an identifier that child links lead to, and is no
builtin's. -/
inductive Linked : SyntaxTree → String → Prop
  | here {name : String} {refers : Bool} {children apart : List SyntaxTree} :
      name ≠ "" → isBuiltin name = false → Linked (node 60 name refers children apart) name
  | child {kind : ℕ} {text name : String} {refers : Bool} {children apart : List SyntaxTree}
      {t : SyntaxTree} : t ∈ children → Linked t name →
      Linked (node kind text refers children apart) name

theorem linked_node_iff {kind : ℕ} {text name : String} {refers : Bool}
    {children apart : List SyntaxTree} :
    Linked (node kind text refers children apart) name ↔
      name ∈ bareName (node kind text refers children apart) ∨ ∃ t ∈ children, Linked t name := by
  constructor
  · intro h
    cases h with
    | here hne hb => exact Or.inl (by simp [bareName, SyntaxTree.kind, SyntaxTree.text, hne, hb])
    | child ht h => exact Or.inr ⟨_, ht, h⟩
  · rintro (h | ⟨t, ht, h⟩)
    · unfold bareName at h
      split_ifs at h with hk
      · obtain ⟨hkind, hne, hb⟩ := hk
        obtain rfl : kind = 60 := hkind
        obtain rfl : name = text := List.mem_singleton.1 h
        exact Linked.here hne hb
      · cases h
    · exact Linked.child ht h

theorem linked_node_of_kind {kind : ℕ} {text name : String} {refers : Bool}
    {children apart : List SyntaxTree} (hk : kind ≠ 60) :
    Linked (node kind text refers children apart) name ↔ ∃ t ∈ children, Linked t name := by
  rw [linked_node_iff]
  constructor
  · rintro (h | h)
    · have hbare : bareName (node kind text refers children apart) = [] :=
        if_neg fun h => hk h.1
      rw [hbare] at h
      cases h
    · exact h
  · exact Or.inr

/-- The initializer list of a compound literal never counts. -/
theorem linked_compoundLiteral {castType initList : List SyntaxTree} {name : String} :
    Linked (compoundLiteral castType initList) name ↔ ∃ t ∈ castType, Linked t name :=
  linked_node_of_kind (by decide)

/-- Nor does the upper bound of a case range. -/
theorem linked_caseRange {expr highExpr : SyntaxTree} {name : String} :
    Linked (caseRange expr highExpr) name ↔ Linked expr name := by
  unfold caseRange
  rw [linked_node_of_kind (by decide)]
  simp

/-- The operands of an `asm` statement count only when it ends its block. -/
theorem linked_asmStmt {operands : List SyntaxTree} {followed : Bool} {name : String} :
    (∃ t ∈ asmStmt operands followed, Linked t name) ↔
      followed = false ∧ ∃ t ∈ operands, Linked t name := by
  cases followed with
  | true => simp [asmStmt, linked_node_of_kind]
  | false => simp [asmStmt, linked_node_of_kind]

theorem linked_of_kind {t : SyntaxTree} {name : String} (hb : isBuiltin name = false)
    (hk : t.kind = 60) (h : (if t.text = "" then none else some t.text) = some name) :
    Linked t name := by
  obtain ⟨kind, text, refers, children, apart⟩ := t
  obtain rfl : kind = 60 := hk
  split_ifs at h with htext
  obtain rfl : text = name := Option.some.inj h
  exact Linked.here htext hb

theorem identStop_eq_some {t : SyntaxTree} {inner : Option (Option String)} {name : String}
    (h : identStop t inner = some (some name)) :
    (t.kind = 60 ∧ (if t.text = "" then none else some t.text) = some name) ∨
      inner = some (some name) := by
  by_cases hk : t.kind = 60
  · unfold identStop at h
    rw [if_pos hk] at h
    exact Or.inl ⟨hk, Option.some.inj h⟩
  · unfold identStop at h
    rw [if_neg hk] at h
    split_ifs at h with hd
    split at h
    · exact Or.inr h
    · cases h

mutual

/-- An identifier that the search returns is one that the walk meets itself. -/
theorem linked_of_findIdent {name : String} (hb : isBuiltin name = false) :
    ∀ t : SyntaxTree, findIdent t = some (some name) → Linked t name
  | node kind text refers children apart, h => by
    unfold findIdent at h
    rcases identStop_eq_some h with ⟨hk, hname⟩ | hin
    · exact linked_of_kind hb hk hname
    · obtain ⟨t, ht, hl⟩ := linked_of_findIdentAmong hb children hin
      exact Linked.child ht hl

theorem linked_of_findIdentAmong {name : String} (hb : isBuiltin name = false) :
    ∀ ts : List SyntaxTree, findIdentAmong ts = some (some name) → ∃ t ∈ ts, Linked t name
  | [], h => by simp [findIdentAmong] at h
  | t :: rest, h => by
    unfold findIdentAmong at h
    cases hf : findIdent t with
    | some r =>
      rw [hf] at h
      dsimp only at h
      exact ⟨t, List.mem_cons_self, linked_of_findIdent hb t (hf.trans h)⟩
    | none =>
      rw [hf] at h
      dsimp only at h
      obtain ⟨u, hu, hl⟩ := linked_of_findIdentAmong hb rest h
      exact ⟨u, List.mem_cons_of_mem _ hu, hl⟩

end

theorem linked_of_findIdentName {t : SyntaxTree} {name : String} (hb : isBuiltin name = false)
    (h : findIdentName t = some name) : Linked t name := by
  obtain ⟨kind, text, refers, children, apart⟩ := t
  obtain ⟨u, hu, hl⟩ := linked_of_findIdentAmong hb children (Option.join_eq_some_iff.1 h)
  exact Linked.child hu hl

theorem linked_of_findIdentNameIn {t : SyntaxTree} {name : String} (hb : isBuiltin name = false)
    (h : findIdentNameIn t = some name) : Linked t name := by
  unfold findIdentNameIn at h
  by_cases hk : t.kind = 60
  · rw [if_pos hk] at h
    exact linked_of_kind hb hk h
  · rw [if_neg hk] at h
    split_ifs at h
    exact linked_of_findIdentName hb h

theorem linked_of_mem_calleeName {t : SyntaxTree} {name : String} (h : name ∈ calleeName t) :
    Linked t name := by
  obtain ⟨kind, text, refers, children, apart⟩ := t
  unfold calleeName at h
  split_ifs at h
  · split at h
    · cases h
    · rename_i callee hhead
      split at h
      · cases h
      · rename_i n hname
        split_ifs at h with hb
        · cases h
        · obtain rfl : name = n := List.mem_singleton.1 h
          have hb : isBuiltin name = false := by simpa using hb
          refine Linked.child (List.mem_of_mem_head? hhead) ?_
          rcases Option.or_eq_some_iff.1 hname with h' | ⟨_, h'⟩
          · exact linked_of_findIdentNameIn hb h'
          · exact linked_of_findIdentName hb h'
  · cases h

mutual

theorem mem_directCallees {name : String} :
    ∀ t : SyntaxTree, name ∈ directCallees t ↔ Linked t name
  | node kind text refers children apart => by
    unfold directCallees
    rw [List.mem_append, List.mem_append, linked_node_iff, mem_collectDirectCallees children]
    constructor
    · rintro ((h | h) | h)
      · exact linked_node_iff.1 (linked_of_mem_calleeName h)
      · exact Or.inl h
      · exact Or.inr h
    · rintro (h | h)
      · exact Or.inl (Or.inr h)
      · exact Or.inr h

/-- The walk collects what is linked, no more and no less. -/
theorem mem_collectDirectCallees {name : String} :
    ∀ ts : List SyntaxTree, name ∈ collectDirectCallees ts ↔ ∃ t ∈ ts, Linked t name
  | [] => by simp [collectDirectCallees]
  | t :: rest => by
    unfold collectDirectCallees
    rw [List.mem_append, mem_directCallees t, mem_collectDirectCallees rest]
    constructor
    · rintro (h | ⟨u, hu, h⟩)
      · exact ⟨t, List.mem_cons_self, h⟩
      · exact ⟨u, List.mem_cons_of_mem _ hu, h⟩
    · rintro ⟨u, hu, h⟩
      rcases List.mem_cons.1 hu with rfl | hu
      · exact Or.inl h
      · exact Or.inr ⟨u, hu, h⟩

end

end SyntaxTree

/-- The declarator of a function, parentheses gone. -/
inductive FunctionDeclarator where
  | ident (name : String)
  | pointer (d : FunctionDeclarator)
  | array (d : FunctionDeclarator)
  | function (d : FunctionDeclarator)
  deriving DecidableEq, Repr

namespace FunctionDeclarator

/-- What the outermost function declarator is applied to. -/
def findFunctionDeclarator : FunctionDeclarator → Option FunctionDeclarator
  | ident _ => none
  | pointer d | array d => d.findFunctionDeclarator
  | function d => some d

def findIdentName : FunctionDeclarator → String
  | ident name => name
  | pointer d | array d | function d => d.findIdentName

/-- The name read when the function declarator is applied to a bare identifier. -/
def signatureName (d : FunctionDeclarator) : String :=
  match d.findFunctionDeclarator with
  | some (ident name) => name
  | _ => "func"

end FunctionDeclarator

structure FunctionDef where
  isStatic : Bool
  attributes : List String
  declarator : FunctionDeclarator
  body : SyntaxTree

namespace FunctionDef

def name (f : FunctionDef) : String := f.declarator.findIdentName

/-- The name in `function_signature_info`, under which reachability knows the function. -/
def key (f : FunctionDef) : String := f.declarator.signatureName

def preserveRoot (f : FunctionDef) : Bool :=
  !f.isStatic || f.attributes.any fun attr =>
    attr ∈ ["section", "__section__", "constructor", "__constructor__", "destructor",
      "__destructor__", "used", "__used__"]

end FunctionDef

structure TranslationUnit where
  functions : List FunctionDef
  /-- The initializers of file-scope objects. -/
  initializers : List SyntaxTree
  typedefAliases : List String
  staticPrototypes : List String
  /-- The names for which the module holds a function once all is lowered. -/
  declared : List String

namespace TranslationUnit

open Worklist SyntaxTree

/-- The map from names to definitions; a later definition replaces an earlier one. -/
def defs (u : TranslationUnit) : String → Option (Bool × List String) :=
  u.functions.foldl
    (fun defs f => Function.update defs f.key
      (some (f.preserveRoot, collectDirectCallees [f.body])))
    (fun _ => none)

def keys (u : TranslationUnit) : List String := u.functions.map FunctionDef.key

def isRoot (u : TranslationUnit) (name : String) : Bool :=
  match u.defs name with
  | some (isRoot, _) => isRoot
  | none => false

/-- The callees of a reached name that have a definition. -/
def definedCallees (u : TranslationUnit) (name : String) : List String :=
  match u.defs name with
  | some (_, callees) => callees.filter fun callee => (u.defs callee).isSome
  | none => []

def computeReachable (u : TranslationUnit) : List String :=
  search u.definedCallees u.keys.length (u.keys.filter u.isRoot)

/-- The functions whose body is lowered. -/
def lowered (u : TranslationUnit) : List FunctionDef :=
  u.functions.filter fun f =>
    !(!u.computeReachable.isEmpty && !u.computeReachable.contains f.name)

def staticDeclared (u : TranslationUnit) : List String :=
  u.staticPrototypes ++ (u.functions.filter FunctionDef.isStatic).map FunctionDef.name

/-- The functions that `materialize_missing_function_body` gives a body. -/
def materialized (u : TranslationUnit) : List String :=
  (u.typedefAliases ++ u.staticDeclared ++ ["sqlite3OsDlSym"]).filter fun name =>
    u.declared.contains name && !(u.lowered.map FunctionDef.name).contains name

/-- The functions that may run: those that others can call, those whose address an object
starts with, and what these refer to. -/
inductive Used (u : TranslationUnit) : FunctionDef → Prop
  | root {f : FunctionDef} : f ∈ u.functions → f.preserveRoot → Used u f
  | initializer {f : FunctionDef} {t : SyntaxTree} : f ∈ u.functions → t ∈ u.initializers →
      Refers t f.name → Used u f
  | step {f g : FunctionDef} : Used u f → g ∈ u.functions → Refers f.body g.name → Used u g

/-- No used function is left without its body. -/
def KeepsUsed (u : TranslationUnit) : Prop :=
  ∀ f, Used u f → f.name ∈ u.computeReachable ∧ f ∈ u.lowered ∧ f.name ∉ u.materialized

/-- The definition that the map holds under its own name. -/
def Holds (u : TranslationUnit) (f : FunctionDef) : Prop :=
  ∃ before after, u.functions = before ++ f :: after ∧ ∀ g ∈ after, g.key ≠ f.key

/-- The name is that of a definition that a chain of linked references leads to from a
function others can call. -/
inductive Chained (u : TranslationUnit) : String → Prop
  | root {f : FunctionDef} : Holds u f → f.preserveRoot → Chained u f.key
  | step {f g : FunctionDef} : Chained u f.key → Holds u f → g ∈ u.functions →
      Linked f.body g.key → Chained u g.key

variable {u : TranslationUnit}

section Defs

/-- A definition keeps what the map holds under other names. -/
theorem foldl_defs (fs : List FunctionDef) (init : String → Option (Bool × List String))
    (name : String) :
    fs.foldl (fun (defs : String → Option (Bool × List String)) f =>
        Function.update defs f.key (some (f.preserveRoot, collectDirectCallees [f.body])))
        init name =
      match fs.reverse.find? fun f => f.key == name with
      | some f => some (f.preserveRoot, collectDirectCallees [f.body])
      | none => init name := by
  induction fs generalizing init with
  | nil => rfl
  | cons f fs ih =>
    rw [List.foldl_cons, ih, List.reverse_cons, List.find?_append]
    cases fs.reverse.find? fun f => f.key == name with
    | some g => rfl
    | none =>
      by_cases hk : f.key = name
      · rw [← hk, Function.update_self]
        simp
      · rw [Function.update_of_ne (Ne.symm hk)]
        simp [hk]

theorem defs_eq (u : TranslationUnit) (name : String) :
    u.defs name = (u.functions.reverse.find? fun f => f.key == name).map
      fun f => (f.preserveRoot, collectDirectCallees [f.body]) := by
  unfold defs
  rw [foldl_defs]
  cases u.functions.reverse.find? fun f => f.key == name with
  | some f => rfl
  | none => rfl

theorem find?_reverse_eq_some {name : String} {f : FunctionDef} :
    (u.functions.reverse.find? fun f => f.key == name) = some f ↔ Holds u f ∧ f.key = name := by
  rw [List.find?_eq_some_iff_append]
  constructor
  · rintro ⟨hkey, after, before, heq, hnot⟩
    have hkey : f.key = name := by simpa using hkey
    refine ⟨⟨before.reverse, after.reverse, ?_, ?_⟩, hkey⟩
    · rw [← List.reverse_reverse u.functions, heq]
      simp
    · intro g hg
      have := hnot g (List.mem_reverse.1 hg)
      rw [hkey]
      simpa using this
  · rintro ⟨⟨before, after, heq, hnot⟩, hkey⟩
    refine ⟨by simpa using hkey, after.reverse, before.reverse, ?_, ?_⟩
    · rw [heq]
      simp
    · intro g hg
      have := hnot g (List.mem_reverse.1 hg)
      rw [hkey] at this
      simpa using this

theorem defs_eq_some {name : String} {entry : Bool × List String} :
    u.defs name = some entry ↔ ∃ f, Holds u f ∧ f.key = name ∧
      entry = (f.preserveRoot, collectDirectCallees [f.body]) := by
  rw [defs_eq, Option.map_eq_some_iff]
  constructor
  · rintro ⟨f, hf, rfl⟩
    obtain ⟨hh, hk⟩ := find?_reverse_eq_some.1 hf
    exact ⟨f, hh, hk, rfl⟩
  · rintro ⟨f, hh, hk, rfl⟩
    exact ⟨f, find?_reverse_eq_some.2 ⟨hh, hk⟩, rfl⟩

theorem Holds.mem {f : FunctionDef} (h : Holds u f) : f ∈ u.functions := by
  obtain ⟨before, after, heq, -⟩ := h
  rw [heq]
  exact List.mem_append_right _ List.mem_cons_self

theorem Holds.defs {f : FunctionDef} (h : Holds u f) :
    u.defs f.key = some (f.preserveRoot, collectDirectCallees [f.body]) :=
  defs_eq_some.2 ⟨f, h, rfl, rfl⟩

theorem isSome_defs {name : String} : (u.defs name).isSome ↔ ∃ g ∈ u.functions, g.key = name := by
  rw [defs_eq, Option.isSome_map, List.find?_isSome]
  simp

end Defs

theorem mem_definedCallees {name callee : String} :
    callee ∈ u.definedCallees name ↔
      ∃ f g, Holds u f ∧ f.key = name ∧ g ∈ u.functions ∧ g.key = callee ∧
        Linked f.body callee := by
  unfold definedCallees
  cases hd : u.defs name with
  | none =>
    constructor
    · intro h
      cases h
    · rintro ⟨f, g, hf, rfl, -⟩
      rw [hf.defs] at hd
      cases hd
  | some entry =>
    obtain ⟨f, hf, hkey, rfl⟩ := defs_eq_some.1 hd
    dsimp only
    rw [List.mem_filter, isSome_defs, mem_collectDirectCallees]
    constructor
    · rintro ⟨⟨t, ht, hl⟩, g, hg, hgk⟩
      obtain rfl : t = f.body := List.mem_singleton.1 ht
      exact ⟨f, g, hf, hkey, hg, hgk, hl⟩
    · rintro ⟨f', g, hf', hkey', hg, hgk, hl⟩
      have hsame := hf'.defs
      rw [hkey', hd, Option.some.injEq, Prod.mk.injEq] at hsame
      have hcallee : callee ∈ collectDirectCallees [f.body] := by
        rw [hsame.2]
        exact (mem_collectDirectCallees _).2 ⟨_, List.mem_singleton.2 rfl, hl⟩
      exact ⟨(mem_collectDirectCallees _).1 hcallee, g, hg, hgk⟩

theorem isRoot_iff {name : String} :
    u.isRoot name = true ↔ ∃ f, Holds u f ∧ f.key = name ∧ f.preserveRoot = true := by
  unfold isRoot
  cases hd : u.defs name with
  | none =>
    constructor
    · intro h
      cases h
    · rintro ⟨f, hf, rfl, -⟩
      rw [hf.defs] at hd
      cases hd
  | some entry =>
    obtain ⟨f, hf, hkey, rfl⟩ := defs_eq_some.1 hd
    dsimp only
    constructor
    · intro h
      exact ⟨f, hf, hkey, h⟩
    · rintro ⟨f', hf', hkey', hroot⟩
      have hsame := hf'.defs
      rw [hkey', hd, Option.some.injEq, Prod.mk.injEq] at hsame
      rw [hsame.1]
      exact hroot

/-- The search computes the names that chains of linked references lead to. -/
theorem mem_computeReachable {name : String} : name ∈ u.computeReachable ↔ Chained u name := by
  have hroots : ∀ r ∈ u.keys.filter u.isRoot, r ∈ u.keys := by
    intro r hr
    exact (List.mem_filter.1 hr).1
  have hsucc : ∀ a b, b ∈ u.definedCallees a → b ∈ u.keys := by
    intro a b hb
    obtain ⟨f, g, -, -, hg, rfl, -⟩ := mem_definedCallees.1 hb
    exact List.mem_map_of_mem hg
  unfold computeReachable
  rw [mem_search hroots hsucc (Nat.le_refl _)]
  constructor
  · rintro ⟨r, hr, hpath⟩
    obtain ⟨f, hf, rfl, hroot⟩ := isRoot_iff.1 (List.mem_filter.1 hr).2
    induction hpath with
    | refl => exact Chained.root hf hroot
    | tail _ hstep ih =>
      obtain ⟨f', g, hf', rfl, hg, rfl, hl⟩ := mem_definedCallees.1 hstep
      exact Chained.step ih hf' hg hl
  · intro h
    induction h with
    | @root f hf hroot =>
      refine ⟨f.key, List.mem_filter.2 ⟨List.mem_map_of_mem hf.mem, ?_⟩, .refl⟩
      exact isRoot_iff.2 ⟨f, hf, rfl, hroot⟩
    | @step f g _ hf hg hl ih =>
      obtain ⟨r, hr, hpath⟩ := ih
      exact ⟨r, hr, hpath.tail (mem_definedCallees.2 ⟨f, g, hf, rfl, hg, rfl, hl⟩)⟩

theorem Used.mem {f : FunctionDef} (h : Used u f) : f ∈ u.functions := by
  cases h with
  | root hf _ => exact hf
  | initializer hf _ _ => exact hf
  | step _ hg _ => exact hg

/-- A function whose name is computed gets its body, and no other. -/
theorem lowered_of_mem {f : FunctionDef} (hf : f ∈ u.functions)
    (hmem : f.name ∈ u.computeReachable) : f ∈ u.lowered ∧ f.name ∉ u.materialized := by
  have hlow : f ∈ u.lowered := by
    refine List.mem_filter.2 ⟨hf, ?_⟩
    simp [hmem]
  refine ⟨hlow, ?_⟩
  intro hmat
  have hnot := (List.mem_filter.1 hmat).2
  have hname : f.name ∈ u.lowered.map FunctionDef.name := List.mem_map_of_mem hlow
  simp [hname] at hnot

/-- A name that no root has and no body links to is not found, whatever initializers say. -/
theorem not_chained {name : String} (hroot : ∀ f ∈ u.functions, f.key = name → f.preserveRoot = false)
    (hlink : ∀ f ∈ u.functions, ¬Linked f.body name) : ¬Chained u name := by
  intro h
  cases h with
  | root hf hr => rw [hroot _ hf.mem rfl] at hr; cases hr
  | step _ hf _ hl => exact hlink _ hf.mem hl

section Initializer

/-- `static int helper(void) {}` -/
def helper : FunctionDef := ⟨true, [], .function (.ident "helper"), .node 40 "" false [] []⟩

/-- `int (*p)(void) = helper; int main(void) { return p(); }` -/
def initializerOnly : TranslationUnit where
  functions :=
    [helper,
      ⟨false, [], .function (.ident "main"),
        .node 40 "" false [.node 44 "" false [.node 67 "" false [.ident "p"] []] []] []⟩]
  initializers := [.ident "helper"]
  typedefAliases := []
  staticPrototypes := []
  declared := ["helper", "main"]

theorem not_linked_of_collect {t : SyntaxTree} {name : String}
    (h : name ∉ collectDirectCallees [t]) : ¬Linked t name := fun hl =>
  h ((mem_collectDirectCallees _).2 ⟨t, List.mem_singleton.2 rfl, hl⟩)

end Initializer

end TranslationUnit

end OpticC
