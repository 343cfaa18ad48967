import OpticC.Backend.NameTables
import Mathlib.Tactic.Common

/-! The scopes of C, and what the tables of the lowering have to say of a name by them. -/

namespace OpticC

open Function

/-- What the tables say of a name. -/
@[ext]
structure Entry where
  binding : Option VariableBinding
  fields : Option (List String)
  structType : Option ℕ
  tag : Option String
  bytePointer : Bool
  deriving DecidableEq, Repr

def Entry.unknown : Entry := ⟨none, none, none, none, false⟩

/-- Two entries differ in the binding at most. -/
def Entry.SameSides (a b : Entry) : Prop := { a with binding := b.binding } = b

/-- Whatever kind of fact `old` has, `new` has too. -/
structure Entry.Covers (new old : Entry) : Prop where
  fields : old.fields.isSome → new.fields.isSome
  structType : old.structType.isSome → new.structType.isSome
  tag : old.tag.isSome → new.tag.isSome
  bytePointer : old.bytePointer → new.bytePointer

def NameTables.entry (T : NameTables) (x : String) : Entry :=
  ⟨T.variables_ x, T.structFields x, T.pointerStructTypes x, T.varStructTag x, T.bytePointerVars x⟩

/-- The object that each name denotes, with what its declaration says of it. -/
abbrev Env := String → Entry

def NameUse.names : NameUse → List String
  | .occurs x => [x]
  | .assigns x rhs => x :: rhs

section Scopes

def Env.hasBytePointerIdent (e : Env) (idents : List String) : Bool :=
  idents.any fun n => (e n).bytePointer || isBytePointerName n

/-- A pointer that is given a byte pointer is one. -/
def Env.use (e : Env) : NameUse → Env
  | .occurs _ => e
  | .assigns x rhs =>
    if (e x).binding.any (·.pointeeType.isPointer) && e.hasBytePointerIdent rhs then
      update e x { e x with bytePointer := true }
    else e

/-- What a declaration says of the object it declares. -/
def Declaration.entry (d : Declaration) (r : Declarator) (e : Env) : Entry where
  binding := some r.binding
  fields := d.structInfo.map Prod.snd
  structType := if r.type.isPointer then d.structInfo.map Prod.fst else none
  tag := d.recordTag
  bytePointer := r.type.isPointer && (d.isChar || (d.storage ≠ .static &&
    Env.hasBytePointerIdent (update e r.name .unknown) r.initIdents))

def Param.entry (p : Param) : Entry where
  binding := some p.binding
  fields := p.structInfo.map Prod.snd
  structType := if p.type.isPointer then p.structInfo.map Prod.fst else none
  tag := none
  bytePointer := p.type.isPointer && isBytePointerName p.name

def GlobalVar.entry (g : GlobalVar) : Entry := ⟨some g.binding, none, none, g.tag, false⟩

def Env.param (e : Env) (p : Param) : Env := update e p.name p.entry

/-- A further declaration of a global variable is one of the same object. -/
def Env.declareGlobal (e : Env) (g : GlobalVar) : Env :=
  if (e g.name).binding.isSome then e else update e g.name g.entry

/-- The names in an initializer that is an expression to evaluate. -/
def Declaration.uses (d : Declaration) (r : Declarator) : List NameUse :=
  if d.storage = .static ∨ d.storage = .typedef_ then [] else r.initUses

variable (file : Env)

/-- The environment behind the name of a declarator; `file` is that of the file scope. -/
def Declaration.declare (d : Declaration) (r : Declarator) (e : Env) : Env :=
  match d.storage with
  | .typedef_ => update e r.name .unknown
  | .extern_ => update e r.name (file r.name)
  | .static => update e r.name (d.entry r e)
  | .automatic => update e r.name (d.entry r e)

def scopeDeclarators (d : Declaration) : List Declarator → Env → Env
  | [], e => e
  | r :: rest, e => scopeDeclarators d rest ((d.uses r).foldl Env.use (d.declare file r e))

/-- The environment behind a statement: that in front of it, but for declarations and
assignments outside of a block. -/
def Item.scope : Item → Env → Env
  | .skip, e => e
  | .expr uses, e => uses.foldl Env.use e
  | .decl d, e => scopeDeclarators file d d.declarators e
  | .seq s t, e => t.scope (s.scope e)
  | .compound _, e => e
  | .for_ _ _, e => e
  | .switch _, e => e

end Scopes

section Right

/-- The names are looked up as C has them. -/
def UsesRight : List NameUse → NameTables → Env → Prop
  | [], _, _ => True
  | u :: us, T, e => (∀ x ∈ u.names, T.entry x = e x) ∧ UsesRight us (T.lowerUse u) (e.use u)

/-- Behind a statement the tables say what they said in front of it. -/
def Restores (s : Item) (T : NameTables) : Prop :=
  ∀ x, (NameTables.lowerItem s T).entry x = T.entry x

variable (file : Env)

def DeclaratorsRight (d : Declaration) : List Declarator → NameTables → Env → Prop
  | [], _, _ => True
  | r :: rest, T, e =>
    if d.storage = .typedef_ then True
    else if d.storage = .static then
      r.hasInit → DeclaratorsRight d rest (T.registerStatic d r) (d.declare file r e)
    else
      UsesRight r.initUses (T.registerLocal d r) (d.declare file r e) ∧
        DeclaratorsRight d rest (r.initUses.foldl NameTables.lowerUse (T.registerLocal d r))
          (r.initUses.foldl Env.use (d.declare file r e))

/-- Every name in the statement is looked up as C has it, and every block, `for` and
switch restores the tables. -/
def Item.Right : Item → NameTables → Env → Prop
  | .skip, _, _ => True
  | .expr uses, T, e => UsesRight uses T e
  | .decl d, T, e => DeclaratorsRight file d d.declarators T e
  | .seq s t, T, e => s.Right T e ∧ t.Right (T.lowerItem s) (s.scope file e)
  | .compound s, T, e => s.Right T.pushScope e ∧ Restores (.compound s) T
  | .for_ init rest, T, e =>
    init.Right T e ∧ rest.Right (T.lowerItem init) (init.scope file e) ∧
      Restores (.for_ init rest) T
  | .switch s, T, e => s.Right T.pushScope e ∧ Restores (.switch s) T

end Right

section Fits

variable (file : Env)

def DeclaratorsFit (d : Declaration) : List Declarator → Env → Prop
  | [], _ => True
  | r :: rest, e =>
    match d.storage with
    | .typedef_ => e r.name = .unknown ∧ DeclaratorsFit d rest (d.declare file r e)
    | .extern_ => False
    | .static => (d.entry r e).Covers (e r.name) ∧ (r.hasInit ∨ rest = []) ∧
        DeclaratorsFit d rest (d.declare file r e)
    | .automatic => (d.entry r e).Covers (e r.name) ∧
        DeclaratorsFit d rest (r.initUses.foldl Env.use (d.declare file r e))

/-- A declaration says as much of its name as is known of it in front of it, a block leaves
nothing but bindings to restore, and a `for` nothing at all. -/
def Item.Fits : Item → Env → Prop
  | .skip, _ => True
  | .expr _, _ => True
  | .decl d, e => DeclaratorsFit file d d.declarators e
  | .seq s t, e => s.Fits e ∧ t.Fits (s.scope file e)
  | .compound s, e => s.Fits e ∧ ∀ x, (s.scope file e x).SameSides (e x)
  | .for_ init rest, e =>
    init.Fits e ∧ rest.Fits (init.scope file e) ∧
      ∀ x, rest.scope file (init.scope file e) x = e x
  | .switch s, e => s.Fits e ∧ ∀ x, (s.scope file e x).SameSides (e x)

def ParamsFit : List Param → Env → Prop
  | [], _ => True
  | p :: ps, e => p.entry.Covers (e p.name) ∧ ParamsFit ps (e.param p)

/-- The statement has no static variables. -/
def Item.NoStatic : Item → Prop
  | .decl d => d.storage ≠ .static
  | .seq s t => s.NoStatic ∧ t.NoStatic
  | .compound s => s.NoStatic
  | .for_ init rest => init.NoStatic ∧ rest.NoStatic
  | .switch s => s.NoStatic
  | _ => True

end Fits

section Units

def TopLevel.IsGlobal : TopLevel → Prop
  | .global _ => True
  | .func _ _ => False

/-- The names of a translation unit are right, and in front of each function the tables are
those of the file scope: no static variable of another function is in them. -/
def UnitRight : List TopLevel → NameTables → Env → Prop
  | [], _, _ => True
  | .global g :: rest, T, file => UnitRight rest (T.lowerGlobalVar g) (file.declareGlobal g)
  | .func params body :: rest, T, file =>
    (∀ x, T.enterFunction.entry x = file x) ∧
      body.Right file (params.foldl NameTables.registerParam T.enterFunction)
        (params.foldl Env.param file) ∧
      UnitRight rest (T.lowerFuncDef params body) file

/-- No global variable is declared twice, and only the last function has static variables. -/
def UnitFits : List TopLevel → Env → Prop
  | [], _ => True
  | .global g :: rest, file => file g.name = .unknown ∧ UnitFits rest (file.declareGlobal g)
  | .func params body :: rest, file =>
    ParamsFit params file ∧ body.Fits file (params.foldl Env.param file) ∧
      (body.NoStatic ∨ ∀ t ∈ rest, t.IsGlobal) ∧ UnitFits rest file

end Units

end OpticC
