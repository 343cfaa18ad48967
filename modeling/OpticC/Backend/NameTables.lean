import Mathlib.Algebra.Ring.Int.Defs
import Mathlib.Algebra.Ring.Nat
import Mathlib.Logic.Function.Basic
import Mathlib.Data.Nat.Notation

/-! The tables that the lowering looks names up in, and what it does to them: the part of
each declaration, statement and function that touches them, in the order of the lowering. -/

namespace OpticC

/-- The LLVM types, as far as they decide what is entered for a name. -/
inductive LlvmType where
  | int (width : ℕ)
  | float
  | double
  | ptr
  | array (len : ℕ) (elem : LlvmType)
  | struct (id : ℕ)
  deriving DecidableEq, Repr

def LlvmType.isPointer : LlvmType → Bool
  | ptr => true
  | _ => false

/-- `ptr` names the storage, `functionType` the type of a function that it points to. -/
structure VariableBinding where
  ptr : ℕ
  pointeeType : LlvmType
  functionType : Option ℕ
  deriving DecidableEq, Repr

structure NameTables where
  variables_ : String → Option VariableBinding
  globalVariables : String → Option VariableBinding
  structFields : String → Option (List String)
  pointerStructTypes : String → Option ℕ
  bytePointerVars : String → Bool
  varStructTag : String → Option String
  globalStructTags : String → Option String
  /-- For each open scope the bindings it has overwritten. -/
  scopeStack : List (String → Option (Option VariableBinding))

inductive Storage where
  | automatic
  | static
  | extern_
  | typedef_
  deriving DecidableEq, Repr

/-- A name in an expression: an occurrence, or the left side of an assignment that stores. -/
inductive NameUse where
  | occurs (name : String)
  | assigns (name : String) (rhsIdents : List String)
  deriving DecidableEq, Repr

structure Declarator where
  name : String
  /-- The storage made for it. -/
  ptr : ℕ
  /-- The type of the storage, `actual_alloca_type`. -/
  type : LlvmType
  functionType : Option ℕ
  /-- It is an init-declarator, kind 73. -/
  hasInit : Bool
  /-- The identifiers in the subtree at the initializer, with its siblings. -/
  initIdents : List String
  /-- The names in the initializer, as far as it is lowered. -/
  initUses : List NameUse
  deriving DecidableEq, Repr

structure Declaration where
  storage : Storage
  specKind : ℕ
  /-- The tag of the specifier. -/
  tag : Option String
  /-- `struct_info_for_spec`: the record type and the names of its fields. -/
  structInfo : Option (ℕ × List String)
  declarators : List Declarator
  deriving DecidableEq, Repr

structure Param where
  name : String
  ptr : ℕ
  type : LlvmType
  functionType : Option ℕ
  structInfo : Option (ℕ × List String)
  deriving DecidableEq, Repr

structure GlobalVar where
  name : String
  ptr : ℕ
  type : LlvmType
  /-- The tag that is recorded for it. -/
  tag : Option String
  deriving DecidableEq, Repr

/-- A statement, as far as names go: statements without a scope of their own are the
sequence of their parts. -/
inductive Item where
  | skip
  | expr (uses : List NameUse)
  | decl (d : Declaration)
  | seq (s t : Item)
  | compound (s : Item)
  | for_ (init rest : Item)
  | switch (s : Item)
  deriving Repr

inductive TopLevel where
  | global (g : GlobalVar)
  | func (params : List Param) (body : Item)
  deriving Repr

def isBytePointerName (name : String) : Bool := name.toList.head? == some 'z'

/-- The specifier is `char` or `unsigned char`. -/
def Declaration.isChar (d : Declaration) : Bool := d.specKind == 3 || d.specKind == 14

/-- The tag is recorded for the members of a struct or union only. -/
def Declaration.recordTag (d : Declaration) : Option String :=
  if d.specKind = 4 ∨ d.specKind = 5 then d.tag else none

def Declarator.binding (r : Declarator) : VariableBinding := ⟨r.ptr, r.type, r.functionType⟩

def Param.binding (p : Param) : VariableBinding := ⟨p.ptr, p.type, p.functionType⟩

def GlobalVar.binding (g : GlobalVar) : VariableBinding := ⟨g.ptr, g.type, none⟩

namespace NameTables

open Function

def pushScope (T : NameTables) : NameTables :=
  { T with scopeStack := (fun _ => none) :: T.scopeStack }

/-- The bindings that a scope has saved are put back. -/
def popScope (T : NameTables) : NameTables :=
  match T.scopeStack with
  | [] => T
  | saved :: stack =>
    { T with
      variables_ := fun x => (saved x).getD (T.variables_ x)
      scopeStack := stack }

/-- The first binding that a scope overwrites is saved. -/
def insertScopedVariable (T : NameTables) (name : String) (b : VariableBinding) : NameTables :=
  { T with
    variables_ := update T.variables_ name (some b)
    scopeStack := match T.scopeStack with
      | [] => []
      | saved :: stack =>
        update saved name (some ((saved name).getD (T.variables_ name))) :: stack }

/-- `struct_fields` and `pointer_struct_types` of a variable of the given type. -/
def recordStructInfo (T : NameTables) (name : String) (type : LlvmType) :
    Option (ℕ × List String) → NameTables
  | none => T
  | some (structType, fields) =>
    { T with
      structFields := update T.structFields name (some fields)
      pointerStructTypes := if type.isPointer then
        update T.pointerStructTypes name (some structType) else T.pointerStructTypes }

def recordStructTag (T : NameTables) (name : String) : Option String → NameTables
  | none => T
  | some tag => { T with varStructTag := update T.varStructTag name (some tag) }

def recordGlobalTag (T : NameTables) (name : String) : Option String → NameTables
  | none => T
  | some tag => { T with globalStructTags := update T.globalStructTags name (some tag) }

def recordBytePointer (T : NameTables) (name : String) (isByte : Bool) : NameTables :=
  if isByte then { T with bytePointerVars := update T.bytePointerVars name true } else T

def recordGlobal (T : NameTables) (name : String) (b : VariableBinding) : NameTables :=
  { T with globalVariables := update T.globalVariables name (some b) }

/-- `subtree_has_byte_pointer_ident` -/
def hasBytePointerIdent (T : NameTables) (idents : List String) : Bool :=
  idents.any fun n => T.bytePointerVars n || isBytePointerName n

/-- What an assignment does to the tables, behind its store. -/
def lowerUse (T : NameTables) : NameUse → NameTables
  | .occurs _ => T
  | .assigns name rhs =>
    T.recordBytePointer name
      ((T.variables_ name).any (·.pointeeType.isPointer) && T.hasBytePointerIdent rhs)

/-- A local variable that is not static. -/
def registerLocal (T : NameTables) (d : Declaration) (r : Declarator) : NameTables :=
  let T := T.recordStructInfo r.name r.type d.structInfo
  let T := T.recordStructTag r.name d.recordTag
  let T := T.insertScopedVariable r.name r.binding
  T.recordBytePointer r.name
    (r.type.isPointer && (d.isChar || T.hasBytePointerIdent r.initIdents))

/-- A static local variable; it becomes a global one too. -/
def registerStatic (T : NameTables) (d : Declaration) (r : Declarator) : NameTables :=
  let T := T.recordStructInfo r.name r.type d.structInfo
  let T := (T.recordStructTag r.name d.recordTag).recordGlobalTag r.name d.recordTag
  let T := (T.insertScopedVariable r.name r.binding).recordGlobal r.name r.binding
  T.recordBytePointer r.name (d.isChar && r.type.isPointer)

/-- The loop over the declarators. Behind a static variable without an initializer it ends. -/
def lowerDeclarators (d : Declaration) : List Declarator → NameTables → NameTables
  | [], T => T
  | r :: rest, T =>
    if d.storage = .static then
      if r.hasInit then lowerDeclarators d rest (T.registerStatic d r) else T.registerStatic d r
    else lowerDeclarators d rest (r.initUses.foldl lowerUse (T.registerLocal d r))

/-- `lower_var_decl` -/
def lowerVarDecl (d : Declaration) (T : NameTables) : NameTables :=
  if d.storage = .typedef_ then T else lowerDeclarators d d.declarators T

/-- `lower_stmt`. A `for` has no scope. -/
def lowerItem : Item → NameTables → NameTables
  | .skip, T => T
  | .expr uses, T => uses.foldl lowerUse T
  | .decl d, T => lowerVarDecl d T
  | .seq s t, T => lowerItem t (lowerItem s T)
  | .compound s, T => (lowerItem s T.pushScope).popScope
  | .for_ init rest, T => lowerItem rest (lowerItem init T)
  | .switch s, T => (lowerItem s T.pushScope).popScope

/-- The tables in front of a function: those of the file scope. -/
def enterFunction (T : NameTables) : NameTables :=
  { T with
    variables_ := T.globalVariables
    structFields := fun _ => none
    pointerStructTypes := fun _ => none
    bytePointerVars := fun _ => false
    varStructTag := T.globalStructTags }

def registerParam (T : NameTables) (p : Param) : NameTables :=
  let T := { T with variables_ := update T.variables_ p.name (some p.binding) }
  let T := T.recordBytePointer p.name (p.type.isPointer && isBytePointerName p.name)
  T.recordStructInfo p.name p.type p.structInfo

/-- `lower_global_var` -/
def lowerGlobalVar (T : NameTables) (g : GlobalVar) : NameTables :=
  let T := (T.recordGlobalTag g.name g.tag).recordGlobal g.name g.binding
  { T with variables_ := update T.variables_ g.name (some g.binding) }

/-- `lower_func_def` -/
def lowerFuncDef (T : NameTables) (params : List Param) (body : Item) : NameTables :=
  lowerItem body (params.foldl registerParam T.enterFunction)

def lowerTopLevel (T : NameTables) : TopLevel → NameTables
  | .global g => T.lowerGlobalVar g
  | .func params body => T.lowerFuncDef params body

/-- The tables of a new backend. -/
def initial : NameTables where
  variables_ _ := none
  globalVariables _ := none
  structFields _ := none
  pointerStructTypes _ := none
  bytePointerVars _ := false
  varStructTag _ := none
  globalStructTags _ := none
  scopeStack := []

end NameTables

end OpticC
