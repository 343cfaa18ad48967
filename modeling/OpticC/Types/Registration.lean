import OpticC.Types.TypeSystem

/-! The calls that enter types: `add_type`, the `register_*` functions of the resolver and
`compute_struct_layout`. A call that does not return, for an overflow that panics, a division by
zero or a type without end among the members, has no result. -/

namespace OpticC.Types

open StructLayout (Overflow StructMember LayoutInfo)

namespace TypeSystem

variable (o : Overflow) (T : TypeSystem)

/-- The size and the alignment of a member are found. -/
def measured (fuel : ℕ) (member : StructMember) : Bool :=
  (T.sizeOf o fuel member.typeId).isSome && (T.alignOf fuel member.typeId).isSome

/-- The sizes and alignments of this table. -/
def measures (fuel : ℕ) : StructLayout.TypeSystem where
  sizeOf id := (T.sizeOf o fuel id).getD 0
  alignOf id := (T.alignOf fuel id).getD 0

/-- `compute_layout_info`; it measures every member. -/
def computeLayoutInfo (fuel : ℕ) (members : List StructMember) (isUnion : Bool) : Option LayoutInfo :=
  if members.all (T.measured o fuel) then
    StructLayout.computeLayoutInfo o (T.measures o fuel) members isUnion
  else none

/-- The layout of a type that has none so far. -/
def layOut (fuel : ℕ) (id : TypeId) (members : List StructMember) (align : ℕ) (isUnion : Bool) :
    Option TypeSystem :=
  if align = 0 then do
    let computed ← T.computeLayoutInfo o fuel members isUnion
    return T.updateStructLayout id computed.size computed.align computed.members
  else return T

def computeStructLayout (fuel : ℕ) (id : TypeId) : Option TypeSystem :=
  match T.getType id with
  | some (.struct _ members _ align) => T.layOut o fuel id members align false
  | some (.union _ members _ align) => T.layOut o fuel id members align true
  | _ => some T

end TypeSystem

structure TypeResolver where
  types : TypeSystem
  typedefs : List (String × TypeId)
  structDefs : List (String × TypeId)

namespace TypeResolver

def new : TypeResolver := ⟨TypeSystem.new, [], []⟩

variable (o : Overflow) (R : TypeResolver)

def addType (ty : CType) : TypeId × TypeResolver :=
  let (id, types) := R.types.addType ty
  (id, { R with types := types })

def registerTypedef (name : String) (typeId : TypeId) : TypeResolver :=
  let (typedefId, R) := R.addType (.typedef name typeId)
  { R with typedefs := (name, typedefId) :: R.typedefs }

/-- `register_struct` and `register_union` of the type `ty`, which has no layout. -/
def registerRecord (fuel : ℕ) (name : String) (ty : CType) : Option (TypeId × TypeResolver) := do
  let (id, R) := R.addType ty
  let types ← R.types.computeStructLayout o fuel id
  return (id, { R with types := types, structDefs := (name, id) :: R.structDefs })

def registerStruct (fuel : ℕ) (name : String) (members : List StructMember) :
    Option (TypeId × TypeResolver) :=
  R.registerRecord o fuel name (.struct (some name) members 0 0)

def registerUnion (fuel : ℕ) (name : String) (members : List StructMember) :
    Option (TypeId × TypeResolver) :=
  R.registerRecord o fuel name (.union (some name) members 0 0)

def registerEnum (name : String) (underlying : TypeId) : TypeId × TypeResolver :=
  let (enumId, R) := R.addType (.enum (some name) underlying)
  (enumId, { R with structDefs := (name, enumId) :: R.structDefs })

def computeStructLayout (fuel : ℕ) (id : TypeId) : Option TypeResolver :=
  (R.types.computeStructLayout o fuel id).map fun types => { R with types := types }

end TypeResolver

inductive Call where
  | addType (ty : CType)
  | registerTypedef (name : String) (typeId : TypeId)
  | registerStruct (name : String) (members : List StructMember)
  | registerUnion (name : String) (members : List StructMember)
  | registerEnum (name : String) (underlying : TypeId)
  | computeStructLayout (id : TypeId)

namespace TypeResolver

def perform (o : Overflow) (fuel : ℕ) (R : TypeResolver) : Call → Option TypeResolver
  | .addType ty => some (R.addType ty).2
  | .registerTypedef name typeId => some (R.registerTypedef name typeId)
  | .registerStruct name members => (R.registerStruct o fuel name members).map Prod.snd
  | .registerUnion name members => (R.registerUnion o fuel name members).map Prod.snd
  | .registerEnum name underlying => some (R.registerEnum name underlying).2
  | .computeStructLayout id => R.computeStructLayout o fuel id

/-- The states after calls that all meet a condition. -/
inductive Reaches (o : Overflow) (Meets : TypeResolver → Call → Prop) : TypeResolver → Prop
  | new : Reaches o Meets new
  | call {R R' : TypeResolver} {call : Call} {fuel : ℕ} (h : Reaches o Meets R)
      (hmeets : Meets R call) (hperform : R.perform o fuel call = some R') : Reaches o Meets R'

end TypeResolver

namespace Call

/-- The type that a call enters. -/
def entered : Call → Option CType
  | addType ty => some ty
  | registerTypedef name typeId => some (.typedef name typeId)
  | registerStruct name members => some (.struct (some name) members 0 0)
  | registerUnion name members => some (.union (some name) members 0 0)
  | registerEnum name underlying => some (.enum (some name) underlying)
  | computeStructLayout _ => none

/-- The id of the type that a call lays out. -/
def laidOut (R : TypeResolver) : Call → Option TypeId
  | registerStruct name members => some (R.types.addType (.struct (some name) members 0 0)).1
  | registerUnion name members => some (R.types.addType (.union (some name) members 0 0)).1
  | computeStructLayout id => some id
  | _ => none

end Call

namespace CType

/-- A union or a struct. -/
def record (isUnion : Bool) (name : Option String) (members : List StructMember)
    (size align : ℕ) : CType :=
  if isUnion then union name members size align else struct name members size align

theorem signature_record (isUnion : Bool) (name : Option String) (members : List StructMember)
    (size align : ℕ) : (record isUnion name members size align).signature = none := by
  cases isUnion <;> rfl

theorem withLayout_record (isUnion : Bool) (name : Option String) (members members' : List StructMember)
    (size size' align align' : ℕ) :
    (record isUnion name members size align).withLayout size' align' members' =
      record isUnion name members' size' align' := by
  cases isUnion <;> rfl

/-- A type with a signature is its own signature, and no layout changes it. -/
theorem eq_of_signature {ty sig : CType} (h : ty.signature = some sig) : ty = sig := by
  cases ty <;> cases h <;> rfl

theorem withLayout_of_signature {ty sig : CType} (h : ty.signature = some sig) (size align : ℕ)
    (members : List StructMember) : ty.withLayout size align members = ty := by
  cases ty <;> cases h <;> rfl

end CType

section Steps

namespace TypeSystem

variable {o : Overflow} {T T' : TypeSystem} {fuel : ℕ} {id : TypeId}

theorem addType_hit {ty : CType} (h : T.cachedType ty = some id) : T.addType ty = (id, T) := by
  unfold addType
  split
  · next found hfound =>
    rw [h] at hfound
    cases hfound
    rfl
  · next hfound =>
    rw [h] at hfound
    cases hfound

theorem addType_miss {ty : CType} (h : T.cachedType ty = none) :
    T.addType ty = (T.types.length % 2 ^ 32, T.push ty h) := by
  unfold addType
  split
  · next found hfound =>
    rw [h] at hfound
    cases hfound
  · rfl

theorem cachedType_record (T : TypeSystem) (isUnion : Bool) (name : Option String)
    (members : List StructMember) (size align : ℕ) :
    T.cachedType (.record isUnion name members size align) = none := by
  rw [cachedType, CType.signature_record]
  rfl

theorem getType_push_lt {ty : CType} (h : T.cachedType ty = none) (hid : id < T.types.length) :
    (T.push ty h).getType id = T.getType id := List.getElem?_append_left hid

theorem getType_push_length {ty : CType} (h : T.cachedType ty = none) :
    (T.push ty h).getType T.types.length = some ty := List.getElem?_concat_length

theorem typeCache_push {ty sig : CType} (h : T.cachedType ty = none) (hsig : ty.signature = some sig) :
    (T.push ty h).typeCache = (sig, T.types.length % 2 ^ 32) :: T.typeCache := by
  simp only [push, hsig]

theorem getType_lt {ty : CType} (h : T.getType id = some ty) : id < T.types.length :=
  (List.getElem?_eq_some_iff.1 h).1

theorem getType_update (T : TypeSystem) (id : TypeId) (size align : ℕ) (members : List StructMember)
    (i : TypeId) :
    (T.updateStructLayout id size align members).getType i =
      if id = i then (T.getType i).map (CType.withLayout · size align members) else T.getType i := by
  refine (List.getElem?_modify _ _ _ _).trans ?_
  split_ifs
  · rfl
  · exact Option.map_id_apply

/-- A call of `compute_struct_layout` changes nothing, or lays out a record without a layout. -/
theorem computeStructLayout_cases (h : T.computeStructLayout o fuel id = some T') :
    T' = T ∨ ∃ isUnion name members size computed,
      T.getType id = some (.record isUnion name members size 0) ∧
      T.computeLayoutInfo o fuel members isUnion = some computed ∧
      T' = T.updateStructLayout id computed.size computed.align computed.members := by
  have hrecord (isUnion : Bool) {name : Option String} {members : List StructMember} {size align : ℕ}
      (htype : T.getType id = some (.record isUnion name members size align))
      (hlay : T.layOut o fuel id members align isUnion = some T') :
      T' = T ∨ ∃ isUnion name members size computed,
        T.getType id = some (.record isUnion name members size 0) ∧
        T.computeLayoutInfo o fuel members isUnion = some computed ∧
        T' = T.updateStructLayout id computed.size computed.align computed.members := by
    unfold layOut at hlay
    split_ifs at hlay with halign
    · obtain ⟨computed, hcomputed, hresult⟩ := Option.bind_eq_some_iff.1 hlay
      rw [halign] at htype
      exact .inr ⟨isUnion, name, members, size, computed, htype, hcomputed,
        (Option.some.inj hresult).symm⟩
    · exact .inl (Option.some.inj hlay).symm
  unfold computeStructLayout at h
  split at h
  · next name members size align htype => exact hrecord false htype h
  · next name members size align htype => exact hrecord true htype h
  · exact .inl (Option.some.inj h).symm

theorem computeStructLayout_record {isUnion : Bool} {name : Option String}
    {members : List StructMember} {size : ℕ}
    (h : T.getType id = some (.record isUnion name members size 0)) :
    T.computeStructLayout o fuel id = (T.computeLayoutInfo o fuel members isUnion).map fun computed =>
      T.updateStructLayout id computed.size computed.align computed.members := by
  unfold computeStructLayout
  rw [h]
  cases isUnion <;> exact (if_pos rfl).trans (Option.map_eq_bind).symm

end TypeSystem

namespace TypeResolver

variable {o : Overflow} {R R' : TypeResolver} {call : Call} {fuel : ℕ}

/-- The table with the type that a call enters. -/
def enter (R : TypeResolver) (call : Call) : TypeSystem :=
  call.entered.elim R.types fun ty => (R.types.addType ty).2

/-- A call enters a type, or not, and then lays a type out, or not. -/
theorem types_of_perform (h : R.perform o fuel call = some R') :
    (call.laidOut R).elim (some (R.enter call)) ((R.enter call).computeStructLayout o fuel) =
      some R'.types := by
  have hrecord {name : String} {ty : CType}
      (h : (R.registerRecord o fuel name ty).map Prod.snd = some R') :
      (R.types.addType ty).2.computeStructLayout o fuel (R.types.addType ty).1 = some R'.types := by
    obtain ⟨⟨id, result⟩, hregister, rfl⟩ := Option.map_eq_some_iff.1 h
    obtain ⟨types, htypes, hresult⟩ := Option.bind_eq_some_iff.1 hregister
    cases hresult
    exact htypes
  cases call with
  | addType ty => exact congrArg some (congrArg types (Option.some.inj h))
  | registerTypedef name typeId => exact congrArg some (congrArg types (Option.some.inj h))
  | registerStruct name members => exact hrecord h
  | registerUnion name members => exact hrecord h
  | registerEnum name underlying => exact congrArg some (congrArg types (Option.some.inj h))
  | computeStructLayout id =>
    obtain ⟨types, htypes, rfl⟩ := Option.map_eq_some_iff.1 h
    exact htypes

end TypeResolver

end Steps

end OpticC.Types
