import Mathlib.Data.Finset.Card
import Mathlib.Data.Finset.Range
import OpticC.Types.StructLayout

/-! The table of types. The first sixteen entries are the arithmetic types and `void`, and the
cache keeps them from being entered again. -/

namespace OpticC.Types

open StructLayout (Overflow StructMember)

abbrev TypeId := ℕ

namespace TypeId

def INT : TypeId := 7

def UINT : TypeId := 8

def LONG : TypeId := 9

def ULONG : TypeId := 10

def LONGLONG : TypeId := 11

def ULONGLONG : TypeId := 12

end TypeId

structure ParamType where
  name : Option String
  typeId : TypeId
  deriving DecidableEq

inductive CType where
  | void | bool
  | char (signed : Bool)
  | short (signed : Bool)
  | int (signed : Bool)
  | long (signed : Bool)
  | longLong (signed : Bool)
  | float | double | longDouble
  | pointer (base : TypeId)
  | array (element : TypeId) (size : Option ℕ)
  | struct (name : Option String) (members : List StructMember) (size align : ℕ)
  | union (name : Option String) (members : List StructMember) (size align : ℕ)
  | enum (name : Option String) (underlying : TypeId)
  | function (returnType : TypeId) (params : List ParamType) (variadic : Bool)
  | typedef (name : String) (underlying : TypeId)
  | qualified (qualifiers : ℕ) (base : TypeId)
  deriving DecidableEq

namespace CType

/-- `TypeSignature::from_ctype`: structs and unions have none. -/
def signature : CType → Option CType
  | struct .. => none
  | union .. => none
  | ty => some ty

/-- The types that every table begins with. -/
def primitives : List CType :=
  [void, bool, char false, char true, char false, short true, short false, int true, int false,
    long true, long false, longLong true, longLong false, float, double, longDouble]

theorem signature_primitive : ∀ ty ∈ primitives, ty.signature = some ty := by decide

/-- A record with another layout. -/
def withLayout (ty : CType) (size align : ℕ) (members : List StructMember) : CType :=
  match ty with
  | struct name _ _ _ => struct name members size align
  | union name _ _ _ => union name members size align
  | ty => ty

theorem withLayout_primitive (size align : ℕ) (members : List StructMember) :
    ∀ ty ∈ primitives, ty.withLayout size align members = ty := by
  simp [primitives, withLayout]

theorem primitive_of_withLayout {ty : CType} {size align : ℕ} {members : List StructMember}
    (h : ty.withLayout size align members ∈ primitives) : ty ∈ primitives := by
  cases ty with
  | struct => simp [withLayout, primitives] at h
  | union => simp [withLayout, primitives] at h
  | _ => exact h

end CType

structure TypeSystem where
  types : List CType
  typeCache : List (CType × TypeId)
  primitives_first : CType.primitives <+: types
  primitives_cached : ∀ ty ∈ CType.primitives, (typeCache.lookup ty).isSome
  primitives_once : ∀ ty ∈ types.drop 16, ty ∉ CType.primitives

namespace TypeSystem

def new : TypeSystem where
  types := CType.primitives
  typeCache := (CType.primitives.zip (List.range 16)).reverse
  primitives_first := List.prefix_refl _
  primitives_cached := by decide
  primitives_once := by decide

def getType (T : TypeSystem) (id : TypeId) : Option CType := T.types[id]?

/-- The type that the cache has for a signature. -/
def cachedType (T : TypeSystem) (ty : CType) : Option TypeId := ty.signature.bind fun sig => T.typeCache.lookup sig

theorem sixteen_le (T : TypeSystem) : 16 ≤ T.types.length := T.primitives_first.length_le

/-- `add_type` of a type that the cache does not have. -/
def push (T : TypeSystem) (ty : CType) (h : T.cachedType ty = none) : TypeSystem where
  types := T.types ++ [ty]
  typeCache :=
    match ty.signature with
    | some sig => (sig, T.types.length % 2 ^ 32) :: T.typeCache
    | none => T.typeCache
  primitives_first := T.primitives_first.trans (List.prefix_append _ _)
  primitives_cached := by
    intro primitive hprimitive
    have hcached := T.primitives_cached primitive hprimitive
    cases ty.signature with
    | none => exact hcached
    | some sig =>
      simp only [List.lookup_cons]
      cases primitive == sig
      · exact hcached
      · rfl
  primitives_once := by
    rw [List.drop_append_of_le_length T.sixteen_le, List.forall_mem_append]
    refine ⟨T.primitives_once, List.forall_mem_singleton.2 fun hprimitive => ?_⟩
    have hcached := T.primitives_cached ty hprimitive
    rw [cachedType, CType.signature_primitive ty hprimitive, Option.bind_some] at h
    rw [h] at hcached
    cases hcached

def addType (T : TypeSystem) (ty : CType) : TypeId × TypeSystem :=
  match h : T.cachedType ty with
  | some id => (id, T)
  | none => (T.types.length % 2 ^ 32, T.push ty h)

/-- `update_struct_layout`: another layout for a struct or a union. -/
def updateStructLayout (T : TypeSystem) (id : TypeId) (size align : ℕ)
    (members : List StructMember) : TypeSystem where
  types := T.types.modify id fun ty => ty.withLayout size align members
  typeCache := T.typeCache
  primitives_first := by
    rw [List.prefix_iff_getElem?]
    intro i hi
    rw [List.getElem?_modify, List.prefix_iff_getElem?.1 T.primitives_first i hi]
    have hsame := CType.withLayout_primitive size align members _ (List.getElem_mem hi)
    split_ifs
    · rw [Option.map_eq_map, Option.map_some, hsame]
    · rfl
  primitives_cached := T.primitives_cached
  primitives_once := by
    intro ty hty hprimitive
    obtain ⟨i, hi⟩ := List.mem_iff_getElem?.1 hty
    rw [List.getElem?_drop, List.getElem?_modify] at hi
    obtain ⟨old, hold, rfl⟩ := Option.map_eq_some_iff.1 hi
    have hfresh : old ∉ CType.primitives :=
      T.primitives_once old (List.mem_iff_getElem?.2 ⟨i, by rw [List.getElem?_drop, hold]⟩)
    split_ifs at hprimitive
    · exact hfresh (CType.primitive_of_withLayout hprimitive)
    · exact hfresh hprimitive

section Lookups

variable (o : Overflow) (T : TypeSystem)

/-- The ids that the loop of `resolve_typedef` has not visited. -/
def unvisited (visited : List TypeId) : Finset TypeId :=
  (Finset.range T.types.length).filter fun id => id ∉ visited

theorem unvisited_lt {T : TypeSystem} {visited : List TypeId} {current : TypeId} {ty : CType}
    (hfresh : current ∉ visited) (h : T.getType current = some ty) :
    (T.unvisited (visited ++ [current])).card < (T.unvisited visited).card := by
  obtain ⟨hlt, -⟩ := List.getElem?_eq_some_iff.1 h
  apply Finset.card_lt_card
  refine (Finset.ssubset_iff_of_subset fun id hid => ?_).2 ⟨current, ?_, ?_⟩
  · rw [unvisited, Finset.mem_filter] at hid ⊢
    exact ⟨hid.1, fun h => hid.2 (List.mem_append_left _ h)⟩
  · exact Finset.mem_filter.2 ⟨Finset.mem_range.2 hlt, hfresh⟩
  · simp [unvisited]

/-- The loop of `resolve_typedef`. -/
def resolveLoop (visited : List TypeId) (current : TypeId) : TypeId :=
  if _hfresh : current ∈ visited then current
  else
    match _htype : T.getType current with
    | some (.typedef _ underlying) => resolveLoop (visited ++ [current]) underlying
    | some (.qualified _ base) => resolveLoop (visited ++ [current]) base
    | _ => current
termination_by (T.unvisited visited).card
decreasing_by
  · exact unvisited_lt _hfresh _htype
  · exact unvisited_lt _hfresh _htype

def resolveTypedef (id : TypeId) : TypeId := T.resolveLoop [] id

/-- `size_of`; `fuel` bounds the depth of the recursion, which a type may not end. -/
def sizeOf : ℕ → TypeId → Option ℕ
  | 0, _ => none
  | fuel + 1, id =>
    match T.getType id with
    | none => some 0
    | some .void => some 0
    | some .bool => some 1
    | some (.char _) => some 1
    | some (.short _) => some 2
    | some (.int _) => some 4
    | some (.long _) => some 8
    | some (.longLong _) => some 8
    | some .float => some 4
    | some .double => some 8
    | some .longDouble => some 16
    | some (.pointer _) => some 8
    | some (.array element size) => do
      let elemSize ← sizeOf fuel element
      match size with
      | some n => o.mul 64 elemSize n
      | none => some 0
    | some (.struct _ _ size _) => some size
    | some (.union _ _ size _) => some size
    | some (.enum _ underlying) => sizeOf fuel underlying
    | some (.function ..) => some 0
    | some (.typedef _ underlying) => sizeOf fuel underlying
    | some (.qualified _ base) => sizeOf fuel base

/-- `align_of`, which recurses as `size_of` does. -/
def alignOf : ℕ → TypeId → Option ℕ
  | 0, _ => none
  | fuel + 1, id =>
    match T.getType id with
    | none => some 1
    | some .void => some 1
    | some .bool => some 1
    | some (.char _) => some 1
    | some (.short _) => some 2
    | some (.int _) => some 4
    | some (.long _) => some 8
    | some (.longLong _) => some 8
    | some .float => some 4
    | some .double => some 8
    | some .longDouble => some 16
    | some (.pointer _) => some 8
    | some (.array element _) => alignOf fuel element
    | some (.struct _ _ _ align) => some align
    | some (.union _ _ _ align) => some align
    | some (.enum _ underlying) => alignOf fuel underlying
    | some (.function ..) => some 1
    | some (.typedef _ underlying) => alignOf fuel underlying
    | some (.qualified _ base) => alignOf fuel base

/-- `is_integer`, which does not look for cycles either. -/
def isInteger : ℕ → TypeId → Option Bool
  | 0, _ => none
  | fuel + 1, id =>
    match T.getType id with
    | some .bool | some (.char _) | some (.short _) | some (.int _) | some (.long _)
    | some (.longLong _) => some true
    | some (.enum ..) => some true
    | some (.qualified _ base) => isInteger fuel base
    | some (.typedef _ underlying) => isInteger fuel underlying
    | _ => some false

/-- The loop of `strip_qualifiers`. -/
def stripQualifiers : ℕ → TypeId → Option TypeId
  | 0, _ => none
  | fuel + 1, current =>
    match T.getType current with
    | some (.qualified _ base) => stripQualifiers fuel base
    | _ => some current

def isFloating (id : TypeId) : Bool :=
  match T.getType id with
  | some .float | some .double | some .longDouble => true
  | _ => false

def isPointer (id : TypeId) : Bool :=
  match T.getType id with
  | some (.pointer _) => true
  | _ => false

def isArithmetic (fuel : ℕ) (id : TypeId) : Option Bool :=
  T.isInteger fuel id <||> some (T.isFloating id)

def integerRank (id : TypeId) : ℕ :=
  match T.getType (T.resolveTypedef id) with
  | some .bool => 0
  | some (.char _) => 1
  | some (.short _) => 2
  | some (.int _) => 3
  | some (.long _) => 4
  | some (.longLong _) => 5
  | some .float => 6
  | some .double => 7
  | some .longDouble => 8
  | _ => 3

def isSigned (id : TypeId) : Bool :=
  match T.getType (T.resolveTypedef id) with
  | some .bool => false
  | some (.char signed) => signed
  | some (.short signed) => signed
  | some (.int signed) => signed
  | some (.long signed) => signed
  | some (.longLong signed) => signed
  | _ => false

/-- `integer_promotion` -/
def integerPromotion (fuel : ℕ) (id : TypeId) : Option TypeId :=
  let base := T.resolveTypedef id
  match T.getType base with
  | some .bool => some TypeId.INT
  | some (.char _) => some TypeId.INT
  | some (.short signed) =>
    if signed then some TypeId.INT
    else do
      let intSize ← T.sizeOf o fuel TypeId.INT
      let ownSize ← T.sizeOf o fuel base
      if intSize ≥ ownSize then some TypeId.UINT else some base
  | _ => some base

/-- The table for a signed type that does not hold the unsigned one. -/
def unsignedWider (unsignedType : TypeId) : TypeId :=
  if unsignedType = TypeId.INT then TypeId.LONG
  else if unsignedType = TypeId.UINT then TypeId.ULONG
  else if unsignedType = TypeId.LONG then TypeId.LONGLONG
  else if unsignedType = TypeId.ULONG then TypeId.ULONGLONG
  else unsignedType

/-- `usual_arithmetic_conversions`, which reports no errors. -/
def usualArithmeticConversions (fuel : ℕ) (lhs rhs : TypeId) : Option TypeId := do
  let lhsPromoted ← T.integerPromotion o fuel lhs
  let rhsPromoted ← T.integerPromotion o fuel rhs
  if lhsPromoted = rhsPromoted then return lhsPromoted
  let lhsBase := T.resolveTypedef lhsPromoted
  let rhsBase := T.resolveTypedef rhsPromoted
  if T.isFloating lhsBase ∨ T.isFloating rhsBase then
    return if T.integerRank lhsBase ≥ T.integerRank rhsBase then lhsBase else rhsBase
  if T.isSigned lhsBase = T.isSigned rhsBase then
    return if T.integerRank lhsBase ≥ T.integerRank rhsBase then lhsBase else rhsBase
  let (signedType, unsignedType) :=
    if T.isSigned lhsBase then (lhsBase, rhsBase) else (rhsBase, lhsBase)
  if T.integerRank unsignedType ≥ T.integerRank signedType then return unsignedType
  let signedSize ← T.sizeOf o fuel signedType
  let unsignedSize ← T.sizeOf o fuel unsignedType
  return if signedSize > unsignedSize then signedType else unsignedWider unsignedType

end Lookups

end TypeSystem

end OpticC.Types
