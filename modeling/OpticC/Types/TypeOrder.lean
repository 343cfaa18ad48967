import Mathlib.Data.Nat.Prime.Basic
import OpticC.Lib.IndexedRecursion
import OpticC.Types.Assignability
import OpticC.Types.LayoutMembers
import OpticC.Types.Registration

/-! Tables whose types refer to earlier types only. The recursions over such a table end, every
alignment is one of 1, 2, 4, 8 and 16, and every size is a multiple of its alignment, which a
product that wraps leaves true, as 16 divides the modulus. -/

namespace OpticC.Types

open StructLayout (Overflow StructMember LayoutInfo)

section Definitions

namespace CType

/-- The types that a type refers to. -/
def components : CType → List TypeId
  | pointer base => [base]
  | array element _ => [element]
  | struct _ members _ _ => members.map StructMember.typeId
  | union _ members _ _ => members.map StructMember.typeId
  | enum _ underlying => [underlying]
  | function returnType params _ => returnType :: params.map ParamType.typeId
  | typedef _ underlying => [underlying]
  | qualified _ base => [base]
  | _ => []

/-- A record has a layout. -/
def LaidOut : CType → Prop
  | struct _ _ size align => align ∣ 16 ∧ align ∣ size
  | union _ _ size align => align ∣ 16 ∧ align ∣ size
  | _ => True

end CType

/-- The components of the type that a call enters are in the table, and it is no record when
`add_type` is called for it. -/
structure Call.Closed (R : TypeResolver) (call : Call) : Prop where
  plain : ∀ ty, call = .addType ty → ty.signature.isSome
  components : ∀ ty, call.entered = some ty → ∀ id ∈ ty.components, id < R.types.types.length

namespace TypeSystem

variable (o : Overflow) (T : TypeSystem)

/-- Every type below `n` refers to smaller ids, and every record below `n` has a layout. -/
structure Ordered (n : ℕ) : Prop where
  components : ∀ id < n, ∀ ty, T.getType id = some ty → ∀ c ∈ ty.components, c < id
  laidOut : ∀ id < n, ∀ ty, T.getType id = some ty → ty.LaidOut

/-- An array type up to `id` has a size that is no `u64`. -/
def ArrayOverflows (id : TypeId) : Prop :=
  ∃ i ≤ id, ∃ element count elemSize fuel, T.getType i = some (.array element (some count)) ∧
    T.sizeOf .wraps fuel element = some elemSize ∧ 2 ^ 64 ≤ elemSize * count

/-- Sizes and alignments of a type. A development build, which may panic for an array, returns the
same sizes as a release build. -/
structure WellFormed (id : TypeId) : Prop where
  measured : ∃ size k, 2 ^ k ∣ size ∧ ∀ fuel > id,
    T.sizeOf .wraps fuel id = some size ∧ T.alignOf fuel id = some (2 ^ k)
  checked : ∀ fuel > id, T.sizeOf .panics fuel id = T.sizeOf .wraps fuel id ∨
    (T.sizeOf .panics fuel id = none ∧ T.ArrayOverflows id)
  integer : ∃ b, ∀ fuel > id, T.isInteger fuel id = some b
  stripped : ∃ t, ∀ fuel > id, T.stripQualifiers fuel id = some t
  resolved : ∀ next, ¬ T.Unwraps (T.resolveTypedef id) next

/-- The layout of members with these ids is computed without a division by zero, which is all that
stops it where sums and products wrap. -/
def LaysOut : Prop :=
  ∀ fuel members isUnion, (∀ m ∈ members, m.typeId < 2 ^ 32 ∧ m.typeId < fuel) →
    (T.computeLayoutInfo .wraps fuel members isUnion).isSome

end TypeSystem

end Definitions

namespace TypeSystem

section Recursions

variable {o : Overflow} {T : TypeSystem} {n : ℕ}

theorem alignOf_local (h : T.Ordered n) : IndexedRecursion.Local T.alignOf n := by
  intro id hid f g hfg
  have hcomponents := h.components id hid
  rw [alignOf, alignOf]
  cases htype : T.getType id with
  | none => rfl
  | some ty =>
    cases ty with
    | array element _ => exact hfg _ (hcomponents _ htype _ (List.mem_singleton_self _))
    | enum _ underlying => exact hfg _ (hcomponents _ htype _ (List.mem_singleton_self _))
    | typedef _ underlying => exact hfg _ (hcomponents _ htype _ (List.mem_singleton_self _))
    | qualified _ base => exact hfg _ (hcomponents _ htype _ (List.mem_singleton_self _))
    | _ => rfl

theorem alignOf_total (h : T.Ordered n) : IndexedRecursion.Total T.alignOf n := by
  intro id hid f hf
  have hcomponents := h.components id hid
  rw [alignOf]
  cases htype : T.getType id with
  | none => rfl
  | some ty =>
    cases ty with
    | array element _ => exact hf _ (hcomponents _ htype _ (List.mem_singleton_self _))
    | enum _ underlying => exact hf _ (hcomponents _ htype _ (List.mem_singleton_self _))
    | typedef _ underlying => exact hf _ (hcomponents _ htype _ (List.mem_singleton_self _))
    | qualified _ base => exact hf _ (hcomponents _ htype _ (List.mem_singleton_self _))
    | _ => rfl

theorem sizeOf_local (h : T.Ordered n) : IndexedRecursion.Local (T.sizeOf o) n := by
  intro id hid f g hfg
  have hcomponents := h.components id hid
  rw [sizeOf, sizeOf]
  cases htype : T.getType id with
  | none => rfl
  | some ty =>
    cases ty with
    | array element count =>
      dsimp only
      rw [hfg _ (hcomponents _ htype _ (List.mem_singleton_self _))]
    | enum _ underlying => exact hfg _ (hcomponents _ htype _ (List.mem_singleton_self _))
    | typedef _ underlying => exact hfg _ (hcomponents _ htype _ (List.mem_singleton_self _))
    | qualified _ base => exact hfg _ (hcomponents _ htype _ (List.mem_singleton_self _))
    | _ => rfl

theorem sizeOf_total (h : T.Ordered n) : IndexedRecursion.Total (T.sizeOf .wraps) n := by
  intro id hid f hf
  have hcomponents := h.components id hid
  rw [sizeOf]
  cases htype : T.getType id with
  | none => rfl
  | some ty =>
    cases ty with
    | array element count =>
      refine StructLayout.isSome_bind (hf _ (hcomponents _ htype _ (List.mem_singleton_self _))) ?_
      intro elemSize
      cases count with
      | none => rfl
      | some count => exact StructLayout.word_wraps _ _
    | enum _ underlying => exact hf _ (hcomponents _ htype _ (List.mem_singleton_self _))
    | typedef _ underlying => exact hf _ (hcomponents _ htype _ (List.mem_singleton_self _))
    | qualified _ base => exact hf _ (hcomponents _ htype _ (List.mem_singleton_self _))
    | _ => rfl

theorem isInteger_local (h : T.Ordered n) : IndexedRecursion.Local T.isInteger n := by
  intro id hid f g hfg
  have hcomponents := h.components id hid
  rw [isInteger, isInteger]
  cases htype : T.getType id with
  | none => rfl
  | some ty =>
    cases ty with
    | typedef _ underlying => exact hfg _ (hcomponents _ htype _ (List.mem_singleton_self _))
    | qualified _ base => exact hfg _ (hcomponents _ htype _ (List.mem_singleton_self _))
    | _ => rfl

theorem isInteger_total (h : T.Ordered n) : IndexedRecursion.Total T.isInteger n := by
  intro id hid f hf
  have hcomponents := h.components id hid
  rw [isInteger]
  cases htype : T.getType id with
  | none => rfl
  | some ty =>
    cases ty with
    | typedef _ underlying => exact hf _ (hcomponents _ htype _ (List.mem_singleton_self _))
    | qualified _ base => exact hf _ (hcomponents _ htype _ (List.mem_singleton_self _))
    | _ => rfl

theorem stripQualifiers_local (h : T.Ordered n) : IndexedRecursion.Local T.stripQualifiers n := by
  intro id hid f g hfg
  have hcomponents := h.components id hid
  rw [stripQualifiers, stripQualifiers]
  cases htype : T.getType id with
  | none => rfl
  | some ty =>
    cases ty with
    | qualified _ base => exact hfg _ (hcomponents _ htype _ (List.mem_singleton_self _))
    | _ => rfl

theorem stripQualifiers_total (h : T.Ordered n) : IndexedRecursion.Total T.stripQualifiers n := by
  intro id hid f hf
  have hcomponents := h.components id hid
  rw [stripQualifiers]
  cases htype : T.getType id with
  | none => rfl
  | some ty =>
    cases ty with
    | qualified _ base => exact hf _ (hcomponents _ htype _ (List.mem_singleton_self _))
    | _ => rfl

end Recursions

section Values

variable {o : Overflow} {T : TypeSystem} {n fuel : ℕ} {id : TypeId}

theorem alignOf_dvd (h : T.Ordered n) (hid : id < n) {align : ℕ} (ha : T.alignOf fuel id = some align) :
    align ∣ 16 := by
  induction fuel generalizing id with
  | zero => cases ha
  | succ fuel ih =>
    rw [alignOf] at ha
    cases htype : T.getType id with
    | none =>
      rw [htype] at ha
      cases ha
      decide
    | some ty =>
      rw [htype] at ha
      have hlower : ∀ c ∈ ty.components, c < n := fun c hc =>
        Nat.lt_trans (h.components id hid ty htype c hc) hid
      have hlaid := h.laidOut id hid ty htype
      cases ty with
      | array element _ => exact ih (hlower element (List.mem_singleton_self _)) ha
      | enum _ underlying => exact ih (hlower underlying (List.mem_singleton_self _)) ha
      | typedef _ underlying => exact ih (hlower underlying (List.mem_singleton_self _)) ha
      | qualified _ base => exact ih (hlower base (List.mem_singleton_self _)) ha
      | struct =>
        cases ha
        exact hlaid.1
      | union =>
        cases ha
        exact hlaid.1
      | _ =>
        cases ha
        decide

/-- A size is a multiple of the alignment, whether a product wraps or not. -/
theorem sizeOf_dvd (h : T.Ordered n) (hid : id < n) {size align : ℕ}
    (hs : T.sizeOf o fuel id = some size) (ha : T.alignOf fuel id = some align) : align ∣ size := by
  induction fuel generalizing id size with
  | zero => cases hs
  | succ fuel ih =>
    have hmodulus : align ∣ 2 ^ 64 := (alignOf_dvd h hid ha).trans (by decide)
    rw [sizeOf] at hs
    rw [alignOf] at ha
    cases htype : T.getType id with
    | none =>
      rw [htype] at hs
      cases hs
      exact Nat.dvd_zero align
    | some ty =>
      rw [htype] at hs ha
      have hlower : ∀ c ∈ ty.components, c < n := fun c hc =>
        Nat.lt_trans (h.components id hid ty htype c hc) hid
      have hlaid := h.laidOut id hid ty htype
      cases ty with
      | array element count =>
        obtain ⟨elemSize, helem, hs⟩ := Option.bind_eq_some_iff.1 hs
        cases count with
        | none =>
          cases hs
          exact Nat.dvd_zero align
        | some count =>
          have helement := ih (hlower element (List.mem_singleton_self _)) helem ha
          exact StructLayout.Overflow.word_dvd (helement.mul_right count) hmodulus hs
      | enum _ underlying => exact ih (hlower underlying (List.mem_singleton_self _)) hs ha
      | typedef _ underlying => exact ih (hlower underlying (List.mem_singleton_self _)) hs ha
      | qualified _ base => exact ih (hlower base (List.mem_singleton_self _)) hs ha
      | struct =>
        cases hs
        cases ha
        exact hlaid.2
      | union =>
        cases hs
        cases ha
        exact hlaid.2
      | _ =>
        cases hs
        cases ha
        decide

theorem ArrayOverflows.mono {i j : TypeId} (hij : i ≤ j) (h : T.ArrayOverflows i) :
    T.ArrayOverflows j := by
  obtain ⟨k, hk, hrest⟩ := h
  exact ⟨k, hk.trans hij, hrest⟩

/-- Where a development build panics, a product of `size_of` has overflowed. -/
theorem sizeOf_checked (h : T.Ordered n) (hid : id < n) (hfuel : id < fuel) :
    T.sizeOf .panics fuel id = T.sizeOf .wraps fuel id ∨
      (T.sizeOf .panics fuel id = none ∧ T.ArrayOverflows id) := by
  induction fuel generalizing id with
  | zero => exact absurd hfuel (Nat.not_lt_zero id)
  | succ fuel ih =>
    have hcomponents := h.components id hid
    have hbelow {c : TypeId} (hc : c < id) :
        T.sizeOf .panics fuel c = T.sizeOf .wraps fuel c ∨
          (T.sizeOf .panics fuel c = none ∧ T.ArrayOverflows id) :=
      (ih (Nat.lt_trans hc hid) (Nat.lt_of_lt_of_le hc (Nat.le_of_lt_succ hfuel))).imp_right fun hpanics =>
        ⟨hpanics.1, hpanics.2.mono (Nat.le_of_lt hc)⟩
    rw [sizeOf, sizeOf]
    cases htype : T.getType id with
    | none => exact .inl rfl
    | some ty =>
      cases ty with
      | array element count =>
        rcases hbelow (hcomponents _ htype element (List.mem_singleton_self _)) with heq | ⟨hnone, hover⟩
        · dsimp only
          rw [heq]
          cases helem : T.sizeOf .wraps fuel element with
          | none => exact .inl rfl
          | some elemSize =>
            cases count with
            | none => exact .inl rfl
            | some count =>
              by_cases hfits : elemSize * count < 2 ^ 64
              · refine .inl ?_
                change Overflow.panics.word 64 _ = Overflow.wraps.word 64 _
                simp only [Overflow.word, if_pos hfits]
              · refine .inr ⟨?_, id, Nat.le_refl id, element, count, elemSize, fuel, htype, helem,
                  Nat.le_of_not_gt hfits⟩
                change Overflow.panics.word 64 _ = none
                rw [Overflow.word, if_neg hfits]
        · dsimp only
          rw [hnone]
          exact .inr ⟨rfl, hover⟩
      | enum _ underlying => exact hbelow (hcomponents _ htype underlying (List.mem_singleton_self _))
      | typedef _ underlying => exact hbelow (hcomponents _ htype underlying (List.mem_singleton_self _))
      | qualified _ base => exact hbelow (hcomponents _ htype base (List.mem_singleton_self _))
      | _ => exact .inl rfl

theorem unwraps_lt (h : T.Ordered n) (hid : id < n) {next : TypeId} (hstep : T.Unwraps id next) :
    next < id := by
  rcases hstep with ⟨name, htype⟩ | ⟨qualifiers, htype⟩
  · exact h.components id hid _ htype next (List.mem_singleton_self next)
  · exact h.components id hid _ htype next (List.mem_singleton_self next)

theorem wraps_lt (h : T.Ordered n) (hid : id < n) {base : TypeId}
    (hwraps : Relation.TransGen T.Unwraps id base) : base < id := by
  induction hwraps with
  | single hstep => exact unwraps_lt h hid hstep
  | tail _ hstep ih => exact (unwraps_lt h (Nat.lt_trans ih hid) hstep).trans ih

/-- Without cycles `resolve_typedef` ends at a type that is no typedef. -/
theorem resolveTypedef_ends (h : T.Ordered n) (hid : id < n) (next : TypeId) :
    ¬ T.Unwraps (T.resolveTypedef id) next := by
  have hwraps : T.Wraps id (T.resolveTypedef id) := wraps_resolveLoop T [] id
  have hbase : T.resolveTypedef id < n := by
    rcases Relation.reflTransGen_iff_eq_or_transGen.1 hwraps with heq | htrans
    · rw [heq]
      exact hid
    · exact Nat.lt_trans (wraps_lt h hid htrans) hid
  rcases resolveLoop_ends (T := T) [] id (List.forall_mem_nil _) with hend | hloop
  · exact hend next
  · exact absurd (wraps_lt h hbase hloop) (Nat.lt_irrefl _)

theorem wellFormed_of_ordered (h : T.Ordered n) (hid : id < n) : T.WellFormed id := by
  obtain ⟨size, hsize⟩ := IndexedRecursion.exists_result (sizeOf_local h) (sizeOf_total h) hid
  obtain ⟨align, halign⟩ := IndexedRecursion.exists_result (alignOf_local h) (alignOf_total h) hid
  have hlast := Nat.lt_succ_self id
  obtain ⟨k, -, rfl⟩ := (Nat.dvd_prime_pow Nat.prime_two).1
    (show align ∣ 2 ^ 4 from alignOf_dvd h hid (halign _ hlast))
  exact
    { measured := ⟨size, k, sizeOf_dvd h hid (hsize _ hlast) (halign _ hlast),
        fun fuel hfuel => ⟨hsize fuel hfuel, halign fuel hfuel⟩⟩
      checked := fun _ hfuel => sizeOf_checked h hid hfuel
      integer := IndexedRecursion.exists_result (isInteger_local h) (isInteger_total h) hid
      stripped := IndexedRecursion.exists_result (stripQualifiers_local h) (stripQualifiers_total h) hid
      resolved := resolveTypedef_ends h hid }

theorem laysOut_of_ordered (h : T.Ordered (2 ^ 32)) : T.LaysOut := by
  intro fuel members isUnion hmembers
  have hmeasured : members.all (T.measured .wraps fuel) = true := by
    rw [List.all_eq_true]
    intro m hm
    obtain ⟨hlt, hfuel⟩ := hmembers m hm
    rw [measured, (sizeOf_total h).isSome hlt hfuel, (alignOf_total h).isSome hlt hfuel]
    rfl
  rw [computeLayoutInfo, if_pos hmeasured]
  refine StructLayout.computeLayoutInfo_wraps (fun m hm => ?_) isUnion
  obtain ⟨hlt, hfuel⟩ := hmembers m hm
  obtain ⟨align, halign⟩ := Option.isSome_iff_exists.1 ((alignOf_total h).isSome hlt hfuel)
  change (T.alignOf fuel m.typeId).getD 0 ≠ 0
  rw [halign]
  exact Nat.ne_of_gt (Nat.pos_of_dvd_of_pos (alignOf_dvd h hlt halign) (by decide))

end Values

section Tables

variable {o : Overflow} {T T' : TypeSystem} {ty : CType} {fuel : ℕ} {id : TypeId}

theorem Ordered.anti {m n : ℕ} (hmn : m ≤ n) (h : T.Ordered n) : T.Ordered m :=
  ⟨fun id hid => h.components id (Nat.lt_of_lt_of_le hid hmn),
    fun id hid => h.laidOut id (Nat.lt_of_lt_of_le hid hmn)⟩

/-- One more type in order. -/
theorem Ordered.succ {n : ℕ} (h : T.Ordered n) (hn : ∀ ty, T.getType n = some ty →
    (∀ c ∈ ty.components, c < n) ∧ ty.LaidOut) : T.Ordered (n + 1) := by
  refine ⟨fun id hid ty hty => ?_, fun id hid ty hty => ?_⟩
  · rcases Nat.lt_succ_iff_lt_or_eq.1 hid with hlt | rfl
    · exact h.components id hlt ty hty
    · exact (hn ty hty).1
  · rcases Nat.lt_succ_iff_lt_or_eq.1 hid with hlt | rfl
    · exact h.laidOut id hlt ty hty
    · exact (hn ty hty).2

/-- Behind the end of the table there is nothing. -/
theorem Ordered.of_length (h : T.Ordered T.types.length) (n : ℕ) : T.Ordered n :=
  ⟨fun id _ ty hty => h.components id (getType_lt hty) ty hty,
    fun id _ ty hty => h.laidOut id (getType_lt hty) ty hty⟩

theorem Ordered.congr {n : ℕ} (h : T.Ordered n) (heq : ∀ id < n, T'.getType id = T.getType id) :
    T'.Ordered n :=
  ⟨fun id hid ty hty => h.components id hid ty ((heq id hid).symm.trans hty),
    fun id hid ty hty => h.laidOut id hid ty ((heq id hid).symm.trans hty)⟩

theorem ordered_new : TypeSystem.new.Ordered (2 ^ 32) := by
  have hprimitive : ∀ ty ∈ CType.primitives, ty.components = [] ∧ ty.LaidOut := by
    simp [CType.primitives, CType.components, CType.LaidOut]
  refine ⟨fun id _ ty hty c hc => ?_, fun id _ ty hty => ?_⟩
  · rw [(hprimitive ty (List.mem_of_getElem? hty)).1] at hc
    cases hc
  · exact (hprimitive ty (List.mem_of_getElem? hty)).2

theorem laidOut_plain (h : ty.signature.isSome) : ty.LaidOut := by
  cases ty with
  | struct => cases h
  | union => cases h
  | _ => trivial

/-- What is pushed does not change the order of what is there. -/
theorem ordered_push {n : ℕ} (h : T.Ordered n) (hmiss : T.cachedType ty = none) :
    (T.push ty hmiss).Ordered (min n T.types.length) :=
  (h.anti (Nat.min_le_left _ _)).congr fun _ hid =>
    getType_push_lt hmiss (Nat.lt_of_lt_of_le hid (Nat.min_le_right _ _))

theorem ordered_addType {n : ℕ} (h : T.Ordered n) (hplain : ty.LaidOut)
    (hcomponents : ∀ c ∈ ty.components, c < T.types.length) : (T.addType ty).2.Ordered n := by
  cases hcached : T.cachedType ty with
  | some id =>
    rw [addType_hit hcached]
    exact h
  | none =>
    rw [addType_miss hcached]
    have hbefore := ordered_push h hcached
    rcases Nat.lt_or_ge T.types.length n with hlt | hge
    · rw [Nat.min_eq_right (Nat.le_of_lt hlt)] at hbefore
      refine Ordered.of_length (T := T.push ty hcached) ?_ n
      rw [show (T.push ty hcached).types.length = T.types.length + 1 from List.length_append]
      refine hbefore.succ fun new hnew => ?_
      obtain rfl := Option.some.inj ((getType_push_length hcached).symm.trans hnew)
      exact ⟨hcomponents, hplain⟩
    · rwa [Nat.min_eq_left hge] at hbefore

theorem typeIds_kept {members placed : List StructMember}
    (h : List.Forall₂ StructLayout.Kept members placed) :
    placed.map StructMember.typeId = members.map StructMember.typeId := by
  induction h with
  | nil => rfl
  | cons hm _ ih => rw [List.map_cons, List.map_cons, ih, hm.typeId]

/-- The layout of the record at the end of an ordered table. -/
theorem laidOut_computed {isUnion : Bool} {members : List StructMember} {computed : LayoutInfo} {n : ℕ}
    (h : T.Ordered n) (hmembers : ∀ m ∈ members, m.typeId < n)
    (hcomputed : T.computeLayoutInfo o fuel members isUnion = some computed) :
    computed.align ∣ 16 ∧ computed.align ∣ computed.size ∧
      computed.members.map StructMember.typeId = members.map StructMember.typeId := by
  unfold computeLayoutInfo at hcomputed
  split_ifs at hcomputed with hmeasured
  have halign : ∀ m ∈ members, (T.measures o fuel).alignOf m.typeId ∣ 16 := by
    intro m hm
    have hm' := List.all_eq_true.1 hmeasured m hm
    rw [measured, Bool.and_eq_true] at hm'
    obtain ⟨align, ha⟩ := Option.isSome_iff_exists.1 hm'.2
    change (T.alignOf fuel m.typeId).getD 0 ∣ 16
    rw [ha]
    exact alignOf_dvd h (hmembers m hm) ha
  obtain ⟨hdvd, hkept⟩ := StructLayout.computeLayoutInfo_keeps (p := (· ∣ 16)) (by decide) halign hcomputed
  refine ⟨hdvd, StructLayout.computeLayoutInfo_dvd (hdvd.trans (by decide)) hcomputed, ?_⟩
  exact typeIds_kept hkept

theorem components_record (isUnion : Bool) (name : Option String) (members : List StructMember)
    (size align : ℕ) :
    (CType.record isUnion name members size align).components = members.map StructMember.typeId := by
  cases isUnion <;> rfl

theorem laidOut_record (isUnion : Bool) (name : Option String) (members : List StructMember)
    (size align : ℕ) :
    (CType.record isUnion name members size align).LaidOut ↔ align ∣ 16 ∧ align ∣ size := by
  cases isUnion <;> rfl

theorem length_update (T : TypeSystem) (id : TypeId) (size align : ℕ) (members : List StructMember) :
    (T.updateStructLayout id size align members).types.length = T.types.length :=
  List.length_modify _ _ _

/-- A record that has a layout is not laid out again. -/
theorem ordered_computeStructLayout {n : ℕ} (h : T.Ordered n)
    (hcompute : T.computeStructLayout o fuel id = some T') : T'.Ordered n := by
  rcases computeStructLayout_cases hcompute with
    rfl | ⟨isUnion, name, members, size, computed, htype, -, rfl⟩
  · exact h
  refine h.congr fun i hi => ?_
  rw [getType_update, if_neg]
  rintro rfl
  have hzero := ((laidOut_record isUnion name members size 0).1 (h.laidOut id hi _ htype)).1
  exact absurd hzero (by decide)

/-- A record that is entered, with all that it is made of in the table, is laid out with it. -/
theorem ordered_registered (isUnion : Bool) {name : Option String} {members : List StructMember}
    (h : T.Ordered (2 ^ 32)) (hmembers : ∀ m ∈ members, m.typeId < T.types.length)
    (hcompute : (T.addType (.record isUnion name members 0 0)).2.computeStructLayout o fuel
      (T.addType (.record isUnion name members 0 0)).1 = some T') : T'.Ordered (2 ^ 32) := by
  have hmiss := T.cachedType_record isUnion name members 0 0
  rw [addType_miss hmiss] at hcompute
  have hbefore := ordered_push h hmiss
  rcases Nat.lt_or_ge T.types.length (2 ^ 32) with hlt | hge
  · rw [Nat.min_eq_right (Nat.le_of_lt hlt)] at hbefore
    dsimp only at hcompute
    rw [Nat.mod_eq_of_lt hlt, computeStructLayout_record (getType_push_length hmiss)] at hcompute
    obtain ⟨computed, hcomputed, rfl⟩ := Option.map_eq_some_iff.1 hcompute
    obtain ⟨halign, hsize, htypes⟩ := laidOut_computed hbefore hmembers hcomputed
    have hother (i : TypeId) (hi : i < T.types.length) :
        ((T.push (.record isUnion name members 0 0) hmiss).updateStructLayout T.types.length computed.size
          computed.align computed.members).getType i =
          (T.push (.record isUnion name members 0 0) hmiss).getType i := by
      rw [getType_update, if_neg (Nat.ne_of_gt hi)]
    refine Ordered.of_length ?_ _
    rw [length_update, show (T.push _ hmiss).types.length = T.types.length + 1 from List.length_append]
    refine (hbefore.congr hother).succ fun new hnew => ?_
    rw [getType_update, if_pos rfl, getType_push_length hmiss, Option.map_some,
      CType.withLayout_record] at hnew
    obtain rfl := Option.some.inj hnew
    refine ⟨?_, (laidOut_record _ _ _ _ _).2 ⟨halign, hsize⟩⟩
    rw [components_record, htypes]
    exact List.forall_mem_map.2 hmembers
  · rw [Nat.min_eq_left hge] at hbefore
    -- the id is cut to one of the table, whose record has its layout
    exact ordered_computeStructLayout hbefore hcompute

end Tables

end TypeSystem

namespace TypeResolver

section Runs

variable {o : Overflow} {R R' : TypeResolver} {call : Call} {fuel : ℕ}

theorem ordered_perform (h : R.types.Ordered (2 ^ 32)) (hclosed : call.Closed R)
    (hperform : R.perform o fuel call = some R') : R'.types.Ordered (2 ^ 32) := by
  have htypes := types_of_perform hperform
  cases call with
  | addType ty =>
    rw [← Option.some.inj htypes]
    exact TypeSystem.ordered_addType h (TypeSystem.laidOut_plain (hclosed.plain ty rfl))
      (hclosed.components ty rfl)
  | registerTypedef name typeId =>
    rw [← Option.some.inj htypes]
    exact TypeSystem.ordered_addType h trivial (hclosed.components _ rfl)
  | registerEnum name underlying =>
    rw [← Option.some.inj htypes]
    exact TypeSystem.ordered_addType h trivial (hclosed.components _ rfl)
  | registerStruct name members =>
    have hmembers := hclosed.components _ rfl
    exact TypeSystem.ordered_registered false h (List.forall_mem_map.1 hmembers) htypes
  | registerUnion name members =>
    have hmembers := hclosed.components _ rfl
    exact TypeSystem.ordered_registered true h (List.forall_mem_map.1 hmembers) htypes
  | computeStructLayout id => exact TypeSystem.ordered_computeStructLayout h htypes

theorem ordered_of_reaches (h : Reaches o Call.Closed R) : R.types.Ordered (2 ^ 32) := by
  induction h with
  | new => exact TypeSystem.ordered_new
  | call _ hclosed hperform ih => exact ordered_perform ih hclosed hperform

/-- Every type of a table whose types were entered behind their components has a size and an
alignment, and layouts are computed for all of them. -/
theorem wellFormed_of_reaches {o : Overflow} {R : TypeResolver} (h : Reaches o Call.Closed R) :
    (∀ id < 2 ^ 32, R.types.WellFormed id) ∧ R.types.LaysOut :=
  ⟨fun _ hid => TypeSystem.wellFormed_of_ordered (ordered_of_reaches h) hid,
    TypeSystem.laysOut_of_ordered (ordered_of_reaches h)⟩

/-- `struct point { char tag; long x; }` -/
def point : Call :=
  .registerStruct "point" [⟨"tag", 4, 0, none, none⟩, ⟨"x", TypeId.LONG, 0, none, none⟩]

theorem wellFormed_point : ∃ R, TypeResolver.new.perform .panics 1 point = some R ∧
    (∀ id < 2 ^ 32, R.types.WellFormed id) ∧ R.types.LaysOut := by
  have hclosed : point.Closed TypeResolver.new := by
    refine ⟨?_, fun ty h => ?_⟩
    · rintro ty ⟨⟩
    · obtain rfl := Option.some.inj h
      decide
  have hperform : ∃ R, TypeResolver.new.perform .panics 1 point = some R := ⟨_, rfl⟩
  obtain ⟨R, hR⟩ := hperform
  exact ⟨R, hR, wellFormed_of_reaches (.call .new hclosed hR)⟩

end Runs

end TypeResolver

end OpticC.Types
