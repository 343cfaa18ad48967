import OpticC.Lib.Layout
import Mathlib.Tactic.Common

/-! `compute_layout_info` of the type system: the offsets of the members of a struct or a union,
its size and its alignment. The offsets are `u64` and the bit counts `u32`; an overflow panics
in a development build and wraps in a release build. -/

namespace OpticC.StructLayout

open Layout

/-- What integer arithmetic does when a result does not fit. -/
inductive Overflow
  | panics
  | wraps
  deriving DecidableEq, Repr

namespace Overflow

/-- A result as an unsigned integer of `w` bits; `none` is a panic. -/
def word (o : Overflow) (w n : ℕ) : Option ℕ :=
  if n < 2 ^ w then some n else
    match o with
    | panics => none
    | wraps => some (n % 2 ^ w)

def add (o : Overflow) (w a b : ℕ) : Option ℕ := o.word w (a + b)

def mul (o : Overflow) (w a b : ℕ) : Option ℕ := o.word w (a * b)

def sub (o : Overflow) (w a b : ℕ) : Option ℕ :=
  if b ≤ a then some (a - b) else
    match o with
    | panics => none
    | wraps => some (a + 2 ^ w - b)

end Overflow

structure StructMember where
  name : String
  typeId : ℕ
  offset : ℕ
  bitOffset : Option ℕ
  bitWidth : Option ℕ
  deriving DecidableEq, Repr

/-- `size_of` and `align_of`, in bytes. -/
structure TypeSystem where
  sizeOf : ℕ → ℕ
  alignOf : ℕ → ℕ

structure LayoutInfo where
  size : ℕ
  align : ℕ
  members : List StructMember
  deriving DecidableEq, Repr

/-- The variables of the loop over the members of a struct. -/
structure LayoutState where
  offset : ℕ
  maxAlign : ℕ
  bitfieldBaseOffset : Option ℕ
  bitfieldBitsUsed : ℕ
  bitfieldTypeSize : ℕ
  newMembers : List StructMember

def LayoutState.start : LayoutState := ⟨0, 1, none, 0, 0, []⟩

section Code

variable (o : Overflow) (T : TypeSystem)

/-- `(offset + align - 1) / align * align`; a division by zero panics in every build. -/
def alignOffset (offset align : ℕ) : Option ℕ := do
  let sum ← o.add 64 offset align
  let last ← o.sub 64 sum 1
  if align = 0 then none else o.mul 64 (last / align) align

/-- Leaves the open bit-field unit, if there is one. -/
def closeUnit (st : LayoutState) : Option LayoutState :=
  match st.bitfieldBaseOffset with
  | some base => do
    let offset ← o.add 64 base st.bitfieldTypeSize
    return { st with offset := offset, bitfieldBaseOffset := none, bitfieldBitsUsed := 0 }
  | none => some st

/-- A unit without room for the bit-field is closed. -/
def closeFullUnit (bitWidth : ℕ) (st : LayoutState) : Option LayoutState :=
  match st.bitfieldBaseOffset with
  | some _ => do
    let bits ← o.mul 64 st.bitfieldTypeSize 8
    let remaining ← o.sub 32 (bits % 2 ^ 32) st.bitfieldBitsUsed
    if remaining < bitWidth then closeUnit o st else return st
  | none => some st

/-- A unit is opened unless one is open. -/
def openUnit (align size : ℕ) (st : LayoutState) : Option LayoutState :=
  match st.bitfieldBaseOffset with
  | some _ => some st
  | none => do
    let offset ← alignOffset o st.offset align
    return { st with
      offset := offset, bitfieldBaseOffset := some offset, bitfieldTypeSize := size,
      bitfieldBitsUsed := 0 }

/-- The arm of a bit-field that shares a unit. -/
def placeBitField (member : StructMember) (bitWidth : ℕ) (st : LayoutState) :
    Option LayoutState := do
  let st ← closeFullUnit o bitWidth st
  let st ← openUnit o (T.alignOf member.typeId) (T.sizeOf member.typeId) st
  let placed : StructMember :=
    ⟨member.name, member.typeId, st.bitfieldBaseOffset.getD 0, some st.bitfieldBitsUsed,
      some bitWidth⟩
  let used ← o.add 32 st.bitfieldBitsUsed bitWidth
  return { st with newMembers := st.newMembers ++ [placed], bitfieldBitsUsed := used }

/-- The arms of a member with bytes of its own. -/
def placeBytes (member : StructMember) (bitOffset bitWidth : Option ℕ) (st : LayoutState) :
    Option LayoutState := do
  let st ← closeUnit o st
  let offset ← alignOffset o st.offset (T.alignOf member.typeId)
  let placed : StructMember := ⟨member.name, member.typeId, offset, bitOffset, bitWidth⟩
  let next ← o.add 64 offset (T.sizeOf member.typeId)
  return { st with offset := next, newMembers := st.newMembers ++ [placed] }

/-- One round of the loop. -/
def layoutMember (st : LayoutState) (member : StructMember) : Option LayoutState :=
  let align := T.alignOf member.typeId
  let st := { st with maxAlign := if align > st.maxAlign then align else st.maxAlign }
  match member.bitOffset, member.bitWidth with
  | some bitOff, some bitWidth =>
    if bitOff = 0 ∧ 0 < bitWidth then placeBitField o T member bitWidth st
    else placeBytes o T member member.bitOffset member.bitWidth st
  | _, _ => placeBytes o T member none none st

def roundSize (size maxAlign : ℕ) : Option ℕ :=
  if maxAlign > 0 then alignOffset o size maxAlign else some size

def structInfo (members : List StructMember) : Option LayoutInfo := do
  let st ← members.foldlM (layoutMember o T) .start
  let st ← closeUnit o st
  let size ← roundSize o st.offset st.maxAlign
  return ⟨size, st.maxAlign, st.newMembers⟩

def unionInfo (members : List StructMember) : Option LayoutInfo := do
  let maxAlign := members.foldl (fun a m =>
    if T.alignOf m.typeId > a then T.alignOf m.typeId else a) 1
  let maxSize := members.foldl (fun n m =>
    if T.sizeOf m.typeId > n then T.sizeOf m.typeId else n) 0
  let size ← roundSize o maxSize maxAlign
  return ⟨size, maxAlign, members.map fun m => { m with offset := 0 }⟩

/-- `compute_layout_info` -/
def computeLayoutInfo (members : List StructMember) (isUnion : Bool) : Option LayoutInfo :=
  if isUnion then unionInfo o T members else structInfo o T members

end Code

section Storage

/-- The member is a bit-field of a shared unit. -/
def StructMember.Shares (m : StructMember) : Prop :=
  m.bitOffset = some 0 ∧ 0 < m.bitWidth.getD 0

instance (m : StructMember) : Decidable m.Shares := inferInstanceAs (Decidable (_ ∧ _))

variable (T : TypeSystem)

/-- The bits that a laid out member has: those of its width inside the unit for a bit-field
of a shared unit, else those of its bytes. -/
def storage (m placed : StructMember) : Range :=
  if m.Shares then
    ⟨8 * placed.offset + placed.bitOffset.getD 0,
      8 * placed.offset + placed.bitOffset.getD 0 + m.bitWidth.getD 0⟩
  else ⟨8 * placed.offset, 8 * (placed.offset + T.sizeOf m.typeId)⟩

def storages (ms placed : List StructMember) : List Range := List.zipWith (storage T) ms placed

def maxAlignOf (ms : List StructMember) : ℕ := maxAlign (ms.map fun m => ⟨0, T.alignOf m.typeId⟩)

/-- The laid out member is the member, at a multiple of its alignment unless it shares a unit. -/
structure Placed (m placed : StructMember) : Prop where
  name : placed.name = m.name
  typeId : placed.typeId = m.typeId
  width : m.Shares → placed.bitWidth = m.bitWidth
  aligned : ¬ m.Shares → T.alignOf m.typeId ∣ placed.offset

structure SoundStruct (ms : List StructMember) (info : LayoutInfo) : Prop where
  placed : List.Forall₂ (Placed T) ms info.members
  ordered : (storages T ms info.members).Pairwise Range.Before
  inside : ∀ r ∈ storages T ms info.members, r.start ≤ r.stop ∧ r.stop ≤ 8 * info.size
  dvd : info.align ∣ info.size
  align : info.align = maxAlignOf T ms

structure SoundUnion (ms : List StructMember) (info : LayoutInfo) : Prop where
  members : info.members = ms.map fun m => { m with offset := 0 }
  fits : ∀ m ∈ ms, T.sizeOf m.typeId ≤ info.size
  dvd : info.align ∣ info.size
  align : info.align = maxAlignOf T ms

def Sound (isUnion : Bool) (ms : List StructMember) (info : LayoutInfo) : Prop :=
  if isUnion then SoundUnion T ms info else SoundStruct T ms info

/-- The members of the type: alignments are positive, and a bit-field is no wider than its
type. -/
structure Declared (m : StructMember) : Prop where
  align_pos : 0 < T.alignOf m.typeId
  width_le : m.bitWidth.getD 0 ≤ 8 * T.sizeOf m.typeId
  width_u32 : m.bitWidth.getD 0 < 2 ^ 32

end Storage

end OpticC.StructLayout
