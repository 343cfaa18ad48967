import OpticC.Backend.DeclaredTypes

/-! Record types: how the backend reads a `struct` or `union` specifier, and the LLVM type that
it makes of it. Three scans read the member declarations: one to register the tags of the
program, one to build the type of a record without a tag, one to compute its size. -/

namespace OpticC.Sizes

/-- A node of the tree with the nodes below it. `text` is the name that `data` refers to: the
tag of a record, an identifier, the name of an attribute. -/
inductive Node where
  | mk (kind data : ℕ) (text : String) (children : List Node)

namespace Node

def kind : Node → ℕ
  | mk kind _ _ _ => kind

def data : Node → ℕ
  | mk _ data _ _ => data

def text : Node → String
  | mk _ _ text _ => text

def children : Node → List Node
  | mk _ _ _ children => children

def isRecord (node : Node) : Bool := node.kind == 4 || node.kind == 5

end Node

/-- `BasicTypeEnum`, the vectors apart. -/
inductive BasicType where
  | int (width : ℕ)
  | float
  | double
  | ptr
  | array (elem : BasicType) (len : ℕ)
  | struct (packed : Bool) (fields : List BasicType)

structure StructType where
  packed : Bool
  fields : List BasicType

def StructType.asBasicType (st : StructType) : BasicType := .struct st.packed st.fields

/-- `struct_tag_types`. -/
abbrev Tags := String → Option StructType

/-- `node_kind_to_llvm_type`. -/
def basicTypeOfKind (kind : ℕ) : BasicType :=
  match nodeKindToLlvmType kind with
  | .int width => .int width
  | .float => .float
  | .double => .double
  | _ => .ptr

def nodeKindBitWidth : ℕ → ℕ
  | 1 | 3 => 8
  | 10 => 16
  | 11 => 64
  | _ => 32

section Attributes

/-- An attribute list is a node of kind 200 with a node for each attribute. -/
def nodeHasAttr (children : List Node) (names : List String) : Bool :=
  children.any fun child => child.kind == 200 &&
    child.children.any fun attr => attr.text != "" && names.contains attr.text

def isPacked (children : List Node) : Bool := nodeHasAttr children ["packed", "__packed__"]

end Attributes

section ArrayLength

def constUnary (op : ℕ) (operand : BitVec 64) : Option (BitVec 64) :=
  match op with
  | 1 => some (-operand)
  | 2 => some (if operand = 0 then 1 else 0)
  | 3 => some (~~~operand)
  | _ => none

def constBinary (op : ℕ) (lhs rhs : BitVec 64) : Option (BitVec 64) :=
  match op with
  | 1 => some (lhs + rhs)
  | 2 => some (lhs - rhs)
  | 3 => some (lhs * rhs)
  | 4 => if rhs = 0 then none else some (lhs.sdiv rhs)
  | 5 => if rhs = 0 then none else some (lhs.srem rhs)
  | 12 | 14 => some (lhs &&& rhs)
  | 13 | 15 => some (lhs ||| rhs)
  | 16 => some (lhs ^^^ rhs)
  | 17 => some (lhs <<< (rhs.toNat % 64))
  | 18 => some (lhs.sshiftRight (rhs.toNat % 64))
  | _ => none

mutual

/-- `eval_const_int_expr`, given what the next siblings come to. -/
def evalConstIntExpr : Node → Option (BitVec 64) → Option (BitVec 64)
  | .mk kind data _ children, next =>
    match kind with
    | 0 | 74 => evalFirst children
    | 61 | 80 | 62 => some (BitVec.ofNat 64 data)
    | 65 => (evalFirst children).bind (constUnary data)
    | 64 =>
      match children with
      | .mk 0 _ _ (lhs :: rest) :: rhs :: rest' =>
        (evalFirst (lhs :: rest)).bind fun l => (evalFirst (rhs :: rest')).bind (constBinary data l)
      | lhs :: rhs :: rest =>
        (evalFirst (lhs :: rhs :: rest)).bind fun l =>
          (evalFirst (rhs :: rest)).bind (constBinary data l)
      | children => (evalFirst children).bind fun l => next.bind (constBinary data l)
    | _ => none

/-- The first of siblings. -/
def evalFirst : List Node → Option (BitVec 64)
  | [] => none
  | node :: siblings => evalConstIntExpr node (evalFirst siblings)

end

def inferArrayDeclaratorLen (node : Node) : Option ℕ :=
  if node.kind ≠ 8 then none
  else if node.data > 0 then some node.data
  else (evalFirst node.children).bind fun v =>
    if v.toNat < 2 ^ 32 ∧ 0 < v.toNat then some v.toNat else none

end ArrayLength

section Fields

/-- The bit-fields put into one unit: their kind, the bits used and the capacity. -/
structure BitfieldGroup where
  kind : ℕ
  bitsUsed : ℕ
  capacity : ℕ

/-- What a scan of a member declaration finds. -/
structure MemberScan where
  baseKind : ℕ
  hasPointer : Bool
  arrayLen : Option ℕ
  bitfieldWidth : Option ℕ
  /-- The type of the last record specifier. -/
  nested : Option BasicType

namespace MemberScan

def start : MemberScan := ⟨2, false, none, none, none⟩

def setArrayLen (s : MemberScan) (node : Node) : MemberScan :=
  match inferArrayDeclaratorLen node with
  | some len => { s with arrayLen := some len }
  | none => s

def setBitfieldWidth (s : MemberScan) (width : ℕ) : MemberScan :=
  if width > 0 then { s with bitfieldWidth := some width } else s

/-- The type of the specifiers. -/
def baseType (s : MemberScan) : BasicType :=
  if s.baseKind = 4 ∨ s.baseKind = 5 then s.nested.getD (basicTypeOfKind s.baseKind)
  else basicTypeOfKind s.baseKind

/-- A bit-field that fits in the unit at hand takes no room of its own. -/
def addBitfield (s : MemberScan) (width : ℕ) (group : Option BitfieldGroup) :
    List BasicType × Option BitfieldGroup :=
  match group with
  | some g =>
    if g.kind = s.baseKind ∧ g.bitsUsed + width ≤ g.capacity then
      ([], some { g with bitsUsed := g.bitsUsed + width })
    else ([basicTypeOfKind s.baseKind], some ⟨s.baseKind, width, nodeKindBitWidth s.baseKind⟩)
  | none => ([basicTypeOfKind s.baseKind], some ⟨s.baseKind, width, nodeKindBitWidth s.baseKind⟩)

end MemberScan

/-- The specifiers that `build_struct_llvm_type` knows. -/
def isBuildSpecifier (kind : ℕ) : Bool :=
  1 ≤ kind && kind ≤ 6 || 10 ≤ kind && kind ≤ 13 || kind == 83 || kind == 84

/-- The specifiers that `register_struct_types_in_node` knows. -/
def isRegisterSpecifier (kind : ℕ) : Bool := isBuildSpecifier kind || kind == 16

end Fields

section Build

/-- The type of a field in `build_struct_llvm_type`. -/
def MemberScan.builtType (s : MemberScan) : BasicType :=
  if s.hasPointer then .ptr
  else match s.arrayLen with
    | some len => .array s.baseType len
    | none => s.baseType

/-- `build_struct_llvm_type`, from the fields. -/
def structOfFields (fields : List BasicType) (children : List Node) : BasicType :=
  if fields.isEmpty then .int 8 else .struct (isPacked children) fields

def BasicType.asStruct : BasicType → Option StructType
  | struct packed fields => some ⟨packed, fields⟩
  | _ => none

/-- `struct_info_for_spec` of a record specifier, from what building its type gives. -/
def structInfo (tags : Tags) (tag : String) (built : BasicType) : Option StructType :=
  ((if tag ≠ "" then tags tag else none).or built.asStruct)

/-- `specifier_to_llvm_type` of a record specifier. -/
def recordSpecifierType (tags : Tags) (tag : String) (built : BasicType) : BasicType :=
  ((structInfo tags tag built).map StructType.asBasicType).getD (.int 32)

mutual

/-- What a member declaration adds to the fields. -/
def buildField (tags : Tags) : Node → Option BitfieldGroup → List BasicType × Option BitfieldGroup
  | .mk kind _ _ children, group =>
    if kind = 200 then ([], group)
    else
      let s := buildScan tags children .start
      match s.bitfieldWidth with
      | some width => s.addBitfield width group
      | none => ([s.builtType], none)

def buildFields (tags : Tags) : List Node → Option BitfieldGroup → List BasicType
  | [], _ => []
  | member :: members, group =>
    (buildField tags member group).1 ++ buildFields tags members (buildField tags member group).2

/-- One node in the scan of a member. -/
def buildVisit (tags : Tags) : Node → MemberScan → MemberScan
  | .mk kind data text children, s =>
    if isBuildSpecifier kind then
      if kind = 4 ∨ kind = 5 then
        { s with
          baseKind := kind
          nested := some (recordSpecifierType tags text
            (structOfFields (buildFields tags children none) children)) }
      else { s with baseKind := kind }
    else if kind = 7 ∨ kind = 9 then { s with hasPointer := true }
    else if kind = 8 then s.setArrayLen (.mk kind data text children)
    else if kind = 27 then s.setBitfieldWidth data
    else s

def buildScan (tags : Tags) : List Node → MemberScan → MemberScan
  | [], s => s
  | node :: rest, s => buildScan tags rest (buildVisit tags node s)

end

def buildStructLlvmType (tags : Tags) (node : Node) : BasicType :=
  structOfFields (buildFields tags node.children none) node.children

def structInfoForSpec (tags : Tags) (node : Node) : Option StructType :=
  if node.kind = 60 then tags node.text
  else if node.isRecord then structInfo tags node.text (buildStructLlvmType tags node)
  else none

def specifierToLlvmType (tags : Tags) (node : Node) : BasicType :=
  if node.isRecord then recordSpecifierType tags node.text (buildStructLlvmType tags node)
  else if node.kind = 60 then ((tags node.text).map StructType.asBasicType).getD (basicTypeOfKind 60)
  else basicTypeOfKind node.kind

end Build

section Register

/-- One node in the scan of a member for its field. -/
def registerVisit (tags : Tags) (s : MemberScan) (node : Node) : MemberScan :=
  if isRegisterSpecifier node.kind then
    if node.isRecord then
      { s with baseKind := node.kind, nested := some (specifierToLlvmType tags node) }
    else { s with baseKind := node.kind }
  else if node.kind = 7 ∨ node.kind = 9 then { s with hasPointer := true }
  else if node.kind = 8 then s.setArrayLen node
  else if node.kind = 27 then s.setBitfieldWidth node.data
  else s

mutual

/-- The scan goes on with the nodes below. -/
def registerScanBelow (tags : Tags) : Node → MemberScan → MemberScan
  | .mk _ _ _ children, s =>
    registerScanBelowAll tags children (children.foldl (registerVisit tags) s)

/-- What is below siblings is on a stack, so the last of them comes first. -/
def registerScanBelowAll (tags : Tags) : List Node → MemberScan → MemberScan
  | [], s => s
  | node :: rest, s => registerScanBelow tags node (registerScanBelowAll tags rest s)

end

def registerScan (tags : Tags) (member : Node) : MemberScan := registerScanBelow tags member .start

/-- The type of a field in `register_struct_types_in_node`. -/
def MemberScan.registeredType (s : MemberScan) : BasicType :=
  match s.arrayLen with
  | some len => .array (if s.hasPointer then .ptr else s.baseType) len
  | none => if s.hasPointer then .ptr else s.baseType

def registerField (tags : Tags) (member : Node) (group : Option BitfieldGroup) :
    List BasicType × Option BitfieldGroup :=
  if member.kind = 200 then ([], group)
  else
    let s := registerScan tags member
    match s.bitfieldWidth with
    | some width => s.addBitfield width group
    | none => ([s.registeredType], none)

def registerFields (tags : Tags) : List Node → Option BitfieldGroup → List BasicType
  | [], _ => []
  | member :: members, group =>
    (registerField tags member group).1 ++
      registerFields tags members (registerField tags member group).2

def setTag (tags : Tags) (tag : String) (st : StructType) : Tags :=
  fun name => if name = tag then some st else tags name

/-- A record is registered when it has a field. -/
def registerRecord (tags : Tags) (tag : String) (members : List Node) : Tags :=
  let fields := registerFields tags members none
  if fields.isEmpty then tags else setTag tags tag ⟨isPacked members, fields⟩

/-- Whether a node defines a record with a tag. -/
def Node.definesTag (node : Node) : Bool :=
  node.isRecord && node.text != "" && !node.children.isEmpty

mutual

def registerStructTypesInNode : Node → Tags → Tags
  | .mk _ _ _ children, tags => registerChildren children tags

def registerChildren : List Node → Tags → Tags
  | [], tags => tags
  | .mk kind data text members :: rest, tags =>
    registerChildren rest <| registerStructTypesInNode (.mk kind data text members) <|
      if (Node.mk kind data text members).definesTag && (tags text).isNone then
        registerRecord (registerNested members tags) text members
      else tags

/-- The tags of the records defined in the members come first. -/
def registerNested : List Node → Tags → Tags
  | [], tags => tags
  | .mk kind data text specs :: members, tags =>
    registerNested members <|
      (specs.filter Node.definesTag).foldl
        (fun tags _ => registerStructTypesInNode (.mk kind data text specs) tags) tags

end

/-- The first pass over a program. -/
def registerTranslationUnit (nodes : List Node) : Tags :=
  nodes.foldl (fun tags node => registerStructTypesInNode node tags) fun _ => none

end Register

end OpticC.Sizes
