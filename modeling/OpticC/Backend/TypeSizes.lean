import OpticC.Backend.RecordTypes
import OpticC.Lib.Layout

/-! The sizes of types. The backend computes them from declarations, from the LLVM types and,
for `sizeof` of a type name, from its first specifier; LLVM has its own. -/

namespace OpticC.Sizes

open Layout

/-- `size_of` of a float type is a constant expression; whether it is folded to an integer is
up to LLVM. -/
structure Folds where
  float : Bool
  double : Bool

/-- `size_of().get_zero_extended_constant().unwrap_or(default)`. -/
def Folds.floatSize (folds : Folds) (default : ℕ) : ℕ := if folds.float then 4 else default

def Folds.doubleSize (folds : Folds) (default : ℕ) : ℕ := if folds.double then 8 else default

section DataLayout

/-- The alignment of an integer on x86-64. -/
def intAlign (width : ℕ) : ℕ :=
  if width ≤ 8 then 1 else if width ≤ 16 then 2 else if width ≤ 32 then 4
  else if width ≤ 64 then 8 else 16

/-- A type as a field of a struct. -/
def fieldOf (packed : Bool) (c : Cell) : Cell := ⟨c.size, if packed then 1 else c.align⟩

mutual

/-- The allocation size and the ABI alignment that LLVM gives a type. -/
def allocCell : BasicType → Cell
  | .int width => ⟨roundUp ((width + 7) / 8) (intAlign width), intAlign width⟩
  | .float => ⟨4, 4⟩
  | .double => ⟨8, 8⟩
  | .ptr => ⟨8, 8⟩
  | .array elem len => ⟨(allocCell elem).size * len, (allocCell elem).align⟩
  | .struct packed fields =>
    let cells := (allocCells fields).map (fieldOf packed)
    ⟨structSize cells, maxAlign cells⟩

def allocCells : List BasicType → List Cell
  | [] => []
  | ty :: fields => allocCell ty :: allocCells fields

end

def allocSize (ty : BasicType) : ℕ := (allocCell ty).size

end DataLayout

section Placement

def alignUp (value align : ℕ) : ℕ :=
  if align ≤ 1 then value else (value + align - 1) / align * align

/-- The variables of the loops over fields. -/
structure Extent where
  offset : ℕ
  maxAlign : ℕ
  maxSize : ℕ

/-- One round: `field` has the size and the alignment of the field. -/
def Extent.place (isUnion packed : Bool) (e : Extent) (field : Cell) : Extent :=
  let align := if packed then 1 else max field.align 1
  if isUnion then ⟨e.offset, max e.maxAlign align, max e.maxSize field.size⟩
  else ⟨alignUp e.offset align + field.size, max e.maxAlign align, e.maxSize⟩

/-- The loop and what follows it. -/
def sizeAlignOf (isUnion packed : Bool) (fields : List Cell) : Cell :=
  let e := fields.foldl (Extent.place isUnion packed) ⟨0, 1, 0⟩
  let size :=
    if isUnion then (if packed then e.maxSize else alignUp e.maxSize e.maxAlign)
    else if packed then e.offset
    else alignUp e.offset e.maxAlign
  ⟨size, if packed then 1 else e.maxAlign⟩

end Placement

section FromLlvm

variable (folds : Folds)

mutual

/-- The size and the alignment of the elements of an array field. -/
def elemSizeAlign : BasicType → Cell
  | .int width => ⟨max width 8 / 8, max width 8 / 8⟩
  | .float => ⟨folds.floatSize 4, folds.floatSize 4⟩
  | .double => ⟨folds.doubleSize 4, folds.doubleSize 4⟩
  | .ptr => ⟨8, 8⟩
  | .array _ _ => ⟨4, 4⟩
  | .struct packed fields => sizeAlignOf false packed (fieldCells fields)

def fieldSizeAlign : BasicType → Cell
  | .int width => ⟨max width 8 / 8, max width 8 / 8⟩
  | .float => ⟨folds.floatSize 4, folds.floatSize 4⟩
  | .double => ⟨folds.doubleSize 4, folds.doubleSize 4⟩
  | .ptr => ⟨8, 8⟩
  | .array elem len => ⟨(elemSizeAlign elem).size * len, (elemSizeAlign elem).align⟩
  | .struct packed fields => sizeAlignOf false packed (fieldCells fields)

def fieldCells : List BasicType → List Cell
  | [] => []
  | ty :: fields => fieldSizeAlign ty :: fieldCells fields

end

def astRecordSizeAlignFromLlvm (st : StructType) : Cell :=
  sizeAlignOf false st.packed (fieldCells folds st.fields)

def llvmTypeSizeBytes : BasicType → ℕ
  | .int width => max width 8 / 8
  | .float => folds.floatSize 8
  | .double => folds.doubleSize 8
  | .ptr => 8
  | .array elem len => llvmTypeSizeBytes elem * len
  | .struct packed fields => (astRecordSizeAlignFromLlvm folds ⟨packed, fields⟩).size

end FromLlvm

section FromDeclaration

/-- `ast_type_size_align` of a specifier that is no record. -/
def scalarSizeAlign : ℕ → Option Cell
  | 1 => some ⟨0, 1⟩
  | 2 | 12 | 13 | 83 => some ⟨4, 4⟩
  | 3 | 14 => some ⟨1, 1⟩
  | 7 | 11 | 16 | 84 => some ⟨8, 8⟩
  | 10 => some ⟨2, 2⟩
  | _ => none

/-- What `ast_record_size_align` finds in a member declaration. -/
structure FieldScan where
  base : Cell
  isPointer : Bool
  arrayLen : Option ℕ
  bitfieldWidth : Option ℕ

namespace FieldScan

def start : FieldScan := ⟨⟨4, 4⟩, false, none, none⟩

def setArrayLen (s : FieldScan) (node : Node) : FieldScan :=
  match inferArrayDeclaratorLen node with
  | some len => { s with arrayLen := some len }
  | none => s

def cell (s : FieldScan) : Cell :=
  let base := if s.isPointer then ⟨8, 8⟩ else s.base
  let size := base.size * s.arrayLen.getD 1
  match s.bitfieldWidth with
  | some width => ⟨min ((width + 7) / 8) (max size 1), base.align⟩
  | none => ⟨size, base.align⟩

end FieldScan

/-- `1 | 2 | 3 | 10..=14 | 83 | 84`. -/
def isSizedSpecifier (kind : ℕ) : Bool :=
  1 ≤ kind && kind ≤ 3 || 10 ≤ kind && kind ≤ 14 || kind == 83 || kind == 84

variable (folds : Folds) (tags : Tags)

/-- `ast_record_size_align` of a record specifier: by the LLVM type that is registered for the
tag when there are no members, else by the cells of the members. -/
def recordSizeAlign (kind : ℕ) (tag : String) (children : List Node) (cells : List Cell) : Cell :=
  match if children.isEmpty && tag != "" then tags tag else none with
  | some st =>
    if st.fields.isEmpty then ⟨0, 1⟩
    else sizeAlignOf (kind == 5) st.packed (fieldCells folds st.fields)
  | none => sizeAlignOf (kind == 5) (isPacked children) cells

mutual

/-- The size and the alignment of a member. -/
def memberCell : Node → Option Cell
  | .mk kind _ _ children => if kind = 200 then none else some (fieldScan children .start).cell

def memberCells : List Node → List Cell
  | [] => []
  | member :: members => (memberCell member).toList ++ memberCells members

def fieldVisit : Node → FieldScan → FieldScan
  | .mk kind data text children, s =>
    if isSizedSpecifier kind then { s with base := (scalarSizeAlign kind).getD s.base }
    else if kind = 4 ∨ kind = 5 then
      { s with base := recordSizeAlign folds tags kind text children (memberCells children) }
    else if kind = 7 then { s with isPointer := true }
    else if kind = 8 then s.setArrayLen (.mk kind data text children)
    else if kind = 27 then { s with bitfieldWidth := some data }
    else s

def fieldScan : List Node → FieldScan → FieldScan
  | [], s => s
  | node :: rest, s => fieldScan rest (fieldVisit node s)

end

def astRecordSizeAlign (node : Node) : Option Cell :=
  if node.isRecord then
    some (recordSizeAlign folds tags node.kind node.text node.children
      (memberCells folds tags node.children))
  else none

mutual

/-- `sizeof_type_from_ast`, given what it is for the next sibling. -/
def sizeofTypeFromAst : Node → Option ℕ → ℕ
  | .mk kind data text children, next =>
    match kind with
    | 1 => if children.isEmpty then 0 else sizeofFirst children
    | 2 | 12 | 13 | 83 => 4
    | 3 | 14 => 1
    | 10 => 2
    | 11 | 84 => 8
    | 4 | 5 => ((astRecordSizeAlign folds tags (.mk kind data text children)).map Cell.size).getD 0
    | _ =>
      if !children.isEmpty && sizeofFirst children != 0 then sizeofFirst children
      else
        match next with
        | some n => if n ≠ 0 then n else 8
        | none => 8

/-- The first of siblings; 4 when there is none. -/
def sizeofFirst : List Node → ℕ
  | [] => 4
  | [node] => sizeofTypeFromAst node none
  | node :: siblings => sizeofTypeFromAst node (some (sizeofFirst siblings))

end

end FromDeclaration

end OpticC.Sizes
