import OpticC.Lib.HashConsing
import OpticC.Types.ArithmeticConversions
import OpticC.Types.LayoutMembers
import OpticC.Types.Registration

/-! The table over whole runs. A type without members is entered once and stays as it is, as long
as the number of types fits in an id, which `add_type` cuts to 32 bits. A layout changes offsets
only, as long as every member of a struct with a bit width has a bit offset too:
`compute_layout_info` clears both where one is missing, though for a union it keeps them. -/

namespace OpticC.Types

open StructLayout (Overflow StructMember LayoutInfo)

section Definitions

namespace CType

structure SameMember (m m' : StructMember) : Prop where
  name : m'.name = m.name
  typeId : m'.typeId = m.typeId
  bitWidth : m'.bitWidth = m.bitWidth

/-- The same type, but for the size, the alignment and the offsets of the members of a record. -/
inductive SameButLayout : CType → CType → Prop
  | refl (ty : CType) : SameButLayout ty ty
  | record {isUnion : Bool} {name : Option String} {members members' : List StructMember}
      {size size' align align' : ℕ} (h : List.Forall₂ SameMember members members') :
      SameButLayout (record isUnion name members size align) (record isUnion name members' size' align')

theorem sameButLayout_struct {name : Option String} {members : List StructMember} {size align : ℕ}
    {ty' : CType} (h : SameButLayout (struct name members size align) ty') :
    ∃ members' size' align', ty' = struct name members' size' align' ∧
      List.Forall₂ SameMember members members' := by
  generalize hty : struct name members size align = ty at h
  cases h with
  | refl =>
    subst hty
    exact ⟨members, size, align, rfl, List.forall₂_same.2 fun _ _ => ⟨rfl, rfl, rfl⟩⟩
  | @record isUnion _ _ members' _ size' _ align' h =>
    cases isUnion with
    | true => cases hty
    | false =>
      cases hty
      exact ⟨members', size', align', rfl, h⟩

end CType

namespace TypeSystem

variable (T : TypeSystem)

/-- Every entry of the cache is the id of a type with the signature. -/
def Interned : Prop := HashConsing.Sound CType.signature T.types T.typeCache

/-- `add_type` returns an id of the type, and the same id again without another entry. -/
structure StoresOnce (ty : CType) : Prop where
  stored : (T.addType ty).2.getType (T.addType ty).1 = some ty
  again : (T.addType ty).2.addType ty = T.addType ty

end TypeSystem

namespace TypeResolver

/-- The call changes no more of the types there are than the layout of the record it lays out,
and stores the type that it enters. -/
structure Keeps (R : TypeResolver) (call : Call) (R' : TypeResolver) : Prop where
  existing : ∀ id ty, R.types.getType id = some ty → ∃ ty', R'.types.getType id = some ty' ∧
    (ty' = ty ∨ (call.laidOut R = some id ∧ ty.SameButLayout ty'))
  entered : ∀ ty, call.entered = some ty → ∃ ty', R'.types.getType (R.types.addType ty).1 = some ty' ∧
    ty.SameButLayout ty'

end TypeResolver

namespace Call

/-- The members of the struct without a layout that a call lays out. -/
def structMembers (R : TypeResolver) : Call → List StructMember
  | registerStruct _ members => members
  | computeStructLayout id =>
    match R.types.getType id with
    | some (.struct _ members _ 0) => members
    | _ => []
  | _ => []

/-- There is an id for the type that is entered, and no width without an offset. -/
structure Fits (R : TypeResolver) (call : Call) : Prop where
  room : ∀ ty, call.entered = some ty → R.types.cachedType ty = none →
    R.types.types.length < 2 ^ 32
  widths : ∀ m ∈ call.structMembers R, m.bitOffset = none → m.bitWidth = none

end Call

/-- The table is interned, types without members are entered once, and calls that meet the
condition keep what there is. -/
structure TypeResolver.SoundTable (o : Overflow) (Meets : TypeResolver → Call → Prop)
    (R : TypeResolver) : Prop where
  interned : R.types.Interned
  stores : ∀ ty, ty.signature.isSome → Meets R (.addType ty) → R.types.StoresOnce ty
  keeps : ∀ fuel call R', Meets R call → R.perform o fuel call = some R' → R.Keeps call R'

end Definitions

section Tables

namespace TypeSystem

variable {o : Overflow} {T T' : TypeSystem} {ty : CType} {fuel : ℕ} {id : TypeId}

theorem interned_new : TypeSystem.new.Interned := by
  have hentries : ∀ entry ∈ TypeSystem.new.typeCache, ∃ ty, CType.primitives[entry.2]? = some ty ∧
      ty.signature = some entry.1 := by
    decide
  intro sig id h
  obtain ⟨before, after, heq, -⟩ := List.lookup_eq_some_iff.1 h
  have hmem : (sig, id) ∈ TypeSystem.new.typeCache := by
    rw [heq]
    exact List.mem_append_right _ List.mem_cons_self
  exact hentries (sig, id) hmem

theorem interned_push (hT : T.Interned) (h : T.cachedType ty = none) (hroom : T.types.length < 2 ^ 32) :
    (T.push ty h).Interned := by
  unfold Interned push
  dsimp only
  cases hsig : ty.signature with
  | none => exact hT.append [ty]
  | some sig =>
    dsimp only
    rw [Nat.mod_eq_of_lt hroom]
    exact hT.insert hsig

theorem interned_addType (hT : T.Interned) (hroom : T.cachedType ty = none → T.types.length < 2 ^ 32) :
    (T.addType ty).2.Interned := by
  cases h : T.cachedType ty with
  | some id =>
    rw [addType_hit h]
    exact hT
  | none =>
    rw [addType_miss h]
    exact interned_push hT h (hroom h)

theorem interned_update (hT : T.Interned) (id : TypeId) (size align : ℕ) (members : List StructMember) :
    (T.updateStructLayout id size align members).Interned :=
  hT.modify (fun _ _ h => CType.withLayout_of_signature h size align members) id

theorem interned_computeStructLayout (hT : T.Interned)
    (h : T.computeStructLayout o fuel id = some T') : T'.Interned := by
  rcases computeStructLayout_cases h with rfl | ⟨_, _, _, _, computed, -, -, rfl⟩
  · exact hT
  · exact interned_update hT id _ _ _

theorem cachedType_plain {sig : CType} (h : ty.signature = some sig) :
    T.cachedType ty = T.typeCache.lookup ty := by
  rw [cachedType, h, Option.bind_some, CType.eq_of_signature h]

/-- A type of the table stays where it is when another is entered. -/
theorem getType_addType {old : CType} (h : T.getType id = some old) :
    (T.addType ty).2.getType id = some old := by
  cases hcached : T.cachedType ty with
  | some found =>
    rw [addType_hit hcached]
    exact h
  | none =>
    rw [addType_miss hcached]
    exact (getType_push_lt hcached (getType_lt h)).trans h

theorem stored_addType (hT : T.Interned) (hroom : T.cachedType ty = none → T.types.length < 2 ^ 32) :
    (T.addType ty).2.getType (T.addType ty).1 = some ty := by
  cases hcached : T.cachedType ty with
  | some id =>
    rw [addType_hit hcached]
    obtain ⟨sig, hsig, hlookup⟩ := Option.bind_eq_some_iff.1 hcached
    refine HashConsing.Sound.hit hT (fun other hother => ?_) hlookup
    rw [CType.eq_of_signature hother, CType.eq_of_signature hsig]
  | none =>
    rw [addType_miss hcached, Nat.mod_eq_of_lt (hroom hcached)]
    exact getType_push_length hcached

/-- A full table gives a new type the id of the first one, `void`. -/
theorem getType_addType_full (hfull : T.types.length = 2 ^ 32) (hmiss : T.cachedType ty = none) :
    (T.addType ty).2.getType (T.addType ty).1 = some .void := by
  rw [addType_miss hmiss, hfull, Nat.mod_self]
  exact getType_primitive _ rfl

theorem again_addType (hplain : ty.signature.isSome) :
    (T.addType ty).2.addType ty = T.addType ty := by
  obtain ⟨sig, hsig⟩ := Option.isSome_iff_exists.1 hplain
  cases hcached : T.cachedType ty with
  | some id => rw [addType_hit hcached, addType_hit hcached]
  | none =>
    rw [addType_miss hcached]
    refine addType_hit ?_
    rw [cachedType_plain hsig, typeCache_push hcached hsig, CType.eq_of_signature hsig]
    exact List.lookup_cons_self

theorem kept_layout {ms ms' : List StructMember} (h : List.Forall₂ StructLayout.Kept ms ms')
    (hwidths : ∀ m ∈ ms, m.bitOffset = none → m.bitWidth = none) :
    List.Forall₂ CType.SameMember ms ms' := by
  induction h with
  | nil => exact .nil
  | @cons m m' ms ms' hm _ ih =>
    refine .cons ⟨hm.name, hm.typeId, hm.bitWidth (hwidths m List.mem_cons_self)⟩ ?_
    exact ih fun m hm => hwidths m (List.mem_cons_of_mem _ hm)

/-- A union keeps both parts of a bit-field, so that only the widths of a struct matter. -/
theorem sameMembers {ms : List StructMember} {isUnion : Bool} {computed : LayoutInfo}
    (h : T.computeLayoutInfo o fuel ms isUnion = some computed)
    (hwidths : isUnion = false → ∀ m ∈ ms, m.bitOffset = none → m.bitWidth = none) :
    List.Forall₂ CType.SameMember ms computed.members := by
  unfold computeLayoutInfo at h
  split_ifs at h
  cases isUnion with
  | true =>
    obtain ⟨size, -, hinfo⟩ := Option.bind_eq_some_iff.1 h
    cases hinfo
    rw [List.forall₂_map_right_iff, List.forall₂_same]
    exact fun m _ => ⟨rfl, rfl, rfl⟩
  | false =>
    have hkept := StructLayout.computeLayoutInfo_keeps (p := fun _ => True) trivial
      (fun _ _ => trivial) h
    exact kept_layout hkept.2 (hwidths rfl)

/-- A layout keeps every type but that of its record, of which it changes the layout. -/
theorem keeps_computeStructLayout (h : T.computeStructLayout o fuel id = some T')
    (hwidths : ∀ name members size, T.getType id = some (.struct name members size 0) →
      ∀ m ∈ members, m.bitOffset = none → m.bitWidth = none)
    {i : TypeId} {old : CType} (hold : T.getType i = some old) :
    ∃ new, T'.getType i = some new ∧ (new = old ∨ (id = i ∧ old.SameButLayout new)) := by
  rcases computeStructLayout_cases h with rfl | ⟨isUnion, name, members, size, computed, htype, hlay, rfl⟩
  · exact ⟨old, hold, .inl rfl⟩
  rw [getType_update]
  by_cases hi : id = i
  · subst hi
    rw [if_pos rfl, hold]
    obtain rfl : CType.record isUnion name members size 0 = old := by simpa [htype] using hold
    refine ⟨_, rfl, .inr ⟨rfl, ?_⟩⟩
    dsimp only
    rw [CType.withLayout_record]
    refine .record (sameMembers hlay fun hstruct => ?_)
    subst hstruct
    exact hwidths name members size htype
  · rw [if_neg hi]
    exact ⟨old, hold, .inl rfl⟩

end TypeSystem

end Tables

section Runs

namespace TypeResolver

variable {o : Overflow} {R R' : TypeResolver} {call : Call} {fuel : ℕ}

theorem enter_eq (R : TypeResolver) {ty : CType} (h : call.entered = some ty) :
    R.enter call = (R.types.addType ty).2 := by
  rw [enter, h]
  rfl

theorem enter_none (R : TypeResolver) (h : call.entered = none) : R.enter call = R.types := by
  rw [enter, h]
  rfl

theorem interned_enter (hR : R.types.Interned) (hfits : call.Fits R) : (R.enter call).Interned := by
  cases hentered : call.entered with
  | none =>
    rw [enter_none R hentered]
    exact hR
  | some ty =>
    rw [enter_eq R hentered]
    exact TypeSystem.interned_addType hR (hfits.room ty hentered)

theorem interned_perform (hR : R.types.Interned) (hfits : call.Fits R)
    (h : R.perform o fuel call = some R') : R'.types.Interned := by
  have htypes := types_of_perform h
  have henter := interned_enter hR hfits
  cases hlaid : call.laidOut R with
  | none =>
    rw [hlaid] at htypes
    rw [← Option.some.inj htypes]
    exact henter
  | some id =>
    rw [hlaid] at htypes
    exact TypeSystem.interned_computeStructLayout henter htypes

theorem getType_enter (R : TypeResolver) (call : Call) {id : TypeId} {ty : CType}
    (h : R.types.getType id = some ty) : (R.enter call).getType id = some ty := by
  cases hentered : call.entered with
  | none => rwa [enter_none R hentered]
  | some new =>
    rw [enter_eq R hentered]
    exact TypeSystem.getType_addType h

/-- The struct that a call lays out has the members that the condition speaks of. -/
theorem structMembers_eq (hR : R.types.Interned) (hfits : call.Fits R) {id : TypeId}
    {name : Option String} {members : List StructMember} {size : ℕ} (hlaid : call.laidOut R = some id)
    (h : (R.enter call).getType id = some (.struct name members size 0)) :
    call.structMembers R = members := by
  have hstored {ty : CType} (hentered : call.entered = some ty) :
      (R.enter call).getType (R.types.addType ty).1 = some ty := by
    rw [enter_eq R hentered]
    exact TypeSystem.stored_addType hR (hfits.room ty hentered)
  cases call with
  | registerStruct name' members' =>
    cases hlaid
    rw [hstored rfl] at h
    cases h
    rfl
  | registerUnion name' members' =>
    cases hlaid
    rw [hstored rfl] at h
    cases h
  | computeStructLayout id' =>
    cases hlaid
    have htype : R.types.getType id = some (.struct name members size 0) := h
    simp only [Call.structMembers, htype]
  | _ => cases hlaid

theorem keeps_types (hR : R.types.Interned) (hfits : call.Fits R)
    (h : R.perform o fuel call = some R') {id : TypeId} {ty : CType}
    (hty : (R.enter call).getType id = some ty) :
    ∃ ty', R'.types.getType id = some ty' ∧
      (ty' = ty ∨ (call.laidOut R = some id ∧ ty.SameButLayout ty')) := by
  have htypes := types_of_perform h
  cases hlaid : call.laidOut R with
  | none =>
    rw [hlaid] at htypes
    rw [← Option.some.inj htypes]
    exact ⟨ty, hty, .inl rfl⟩
  | some laid =>
    rw [hlaid] at htypes
    have hwidths : ∀ name members size,
        (R.enter call).getType laid = some (.struct name members size 0) →
        ∀ m ∈ members, m.bitOffset = none → m.bitWidth = none := by
      intro name members size hstruct
      rw [← structMembers_eq hR hfits hlaid hstruct]
      exact hfits.widths
    obtain ⟨new, hnew, hsame⟩ := TypeSystem.keeps_computeStructLayout htypes hwidths hty
    exact ⟨new, hnew, hsame.imp_right fun hlayout => ⟨congrArg some hlayout.1, hlayout.2⟩⟩

theorem keeps_perform (hR : R.types.Interned) (hfits : call.Fits R)
    (h : R.perform o fuel call = some R') : R.Keeps call R' where
  existing := fun _ _ hty => keeps_types hR hfits h (getType_enter R call hty)
  entered := by
    intro ty hentered
    have hstored : (R.enter call).getType (R.types.addType ty).1 = some ty := by
      rw [enter_eq R hentered]
      exact TypeSystem.stored_addType hR (hfits.room ty hentered)
    obtain ⟨ty', hty', hsame⟩ := keeps_types hR hfits h hstored
    refine ⟨ty', hty', ?_⟩
    rcases hsame with rfl | ⟨-, hlayout⟩
    · exact .refl ty'
    · exact hlayout

theorem interned_of_reaches (h : Reaches o Call.Fits R) : R.types.Interned := by
  induction h with
  | new => exact TypeSystem.interned_new
  | call _ hfits hperform ih => exact interned_perform ih hfits hperform

/-- Along calls that all fit, the table is sound. -/
theorem soundTable_of_reaches {o : Overflow} {R : TypeResolver} (h : Reaches o Call.Fits R) :
    R.SoundTable o Call.Fits where
  interned := interned_of_reaches h
  stores := fun ty hplain hfits =>
    ⟨TypeSystem.stored_addType (interned_of_reaches h) (hfits.room ty rfl),
      TypeSystem.again_addType hplain⟩
  keeps := fun _ _ _ hfits hperform => keeps_perform (interned_of_reaches h) hfits hperform

/-- `struct flags { unsigned x : 3; unsigned y : 5; }` -/
def flags : Call :=
  .registerStruct "flags" [⟨"x", TypeId.UINT, 0, some 0, some 3⟩, ⟨"y", TypeId.UINT, 0, some 0, some 5⟩]

theorem soundTable_flags : ∃ R, TypeResolver.new.perform .panics 1 flags = some R ∧
    R.SoundTable .panics Call.Fits := by
  have hfits : flags.Fits TypeResolver.new := by
    refine ⟨fun ty _ _ => by decide, ?_⟩
    simp [flags, Call.structMembers]
  have hperform : ∃ R, TypeResolver.new.perform .panics 1 flags = some R := ⟨_, rfl⟩
  obtain ⟨R, hR⟩ := hperform
  exact ⟨R, hR, soundTable_of_reaches (.call .new hfits hR)⟩

/-- A member with a width and no offset. -/
def widthOnly : Call := .registerStruct "s" [⟨"x", TypeId.UINT, 0, none, some 3⟩]

theorem not_soundTable_widthOnly :
    ¬ ∀ R, Reaches .panics (fun _ _ => True) R → R.SoundTable .panics fun _ _ => True := by
  intro h
  have hkeeps := (h TypeResolver.new .new).keeps 1 widthOnly _ trivial rfl
  obtain ⟨ty', hty', hsame⟩ := hkeeps.entered _ rfl
  obtain ⟨members', size', align', rfl, hmembers⟩ := CType.sameButLayout_struct hsame
  cases hty'
  obtain ⟨hm, -⟩ := List.forall₂_cons.1 hmembers
  cases hm.bitWidth

end TypeResolver

end Runs

end OpticC.Types
