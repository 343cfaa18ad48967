import OpticC.Backend.TypeSizes
import Mathlib.Data.List.Basic

/-! LLVM types as the backend makes them, and where its sizes of them are LLVM's. -/

namespace OpticC.Sizes

open Layout

section Shapes

def BasicType.isArray : BasicType → Bool
  | array _ _ => true
  | _ => false

mutual

/-- The types that the backend makes: integers of the sizes of C, no arrays of arrays, no empty
arrays or structs. -/
def Shaped : BasicType → Prop
  | .int width => width = 8 ∨ width = 16 ∨ width = 32 ∨ width = 64
  | .float | .double | .ptr => True
  | .array elem len => 0 < len ∧ Shaped elem ∧ elem.isArray = false
  | .struct _ fields => fields ≠ [] ∧ AllShaped fields

def AllShaped : List BasicType → Prop
  | [] => True
  | ty :: fields => Shaped ty ∧ AllShaped fields

end

/-- What an array may have as elements. -/
def ShapedElem (ty : BasicType) : Prop := Shaped ty ∧ ty.isArray = false

def StructType.Shaped (st : StructType) : Prop := st.fields ≠ [] ∧ AllShaped st.fields

def TagsShaped (tags : Tags) : Prop := ∀ tag st, tags tag = some st → st.Shaped

theorem allShaped_append {fields fields' : List BasicType} (h : AllShaped fields)
    (h' : AllShaped fields') : AllShaped (fields ++ fields') := by
  induction fields with
  | nil => exact h'
  | cons ty fields ih => exact ⟨h.1, ih h.2⟩

theorem shapedElem_ofKind (kind : ℕ) : ShapedElem (basicTypeOfKind kind) := by
  unfold basicTypeOfKind nodeKindToLlvmType
  split <;> rename_i h
  · split at h <;> cases h <;> simp [ShapedElem, Shaped, BasicType.isArray]
  all_goals exact ⟨trivial, rfl⟩

theorem StructType.Shaped.elem {st : StructType} (h : st.Shaped) : ShapedElem st.asBasicType :=
  ⟨h, rfl⟩

end Shapes

section Scans

/-- What a scan has found can be made into a field. -/
structure MemberScan.Shaped (s : MemberScan) : Prop where
  nested : ∀ ty, s.nested = some ty → ShapedElem ty
  arrayLen : ∀ len, s.arrayLen = some len → 0 < len

theorem inferArrayDeclaratorLen_pos {node : Node} {len : ℕ}
    (h : inferArrayDeclaratorLen node = some len) : 0 < len := by
  unfold inferArrayDeclaratorLen at h
  split_ifs at h with hkind hdata
  · cases h
    exact hdata
  · obtain ⟨v, -, hv⟩ := Option.bind_eq_some_iff.1 h
    split_ifs at hv with hpos
    cases hv
    exact hpos.2

namespace MemberScan

theorem shaped_start : start.Shaped := ⟨nofun, nofun⟩

variable {s : MemberScan}

theorem Shaped.setArrayLen (h : s.Shaped) (node : Node) : (s.setArrayLen node).Shaped := by
  unfold MemberScan.setArrayLen
  split
  · rename_i len hlen
    refine ⟨h.nested, ?_⟩
    rintro len' ⟨⟩
    exact inferArrayDeclaratorLen_pos hlen
  · exact h

theorem Shaped.setBitfieldWidth (h : s.Shaped) (width : ℕ) : (s.setBitfieldWidth width).Shaped := by
  unfold MemberScan.setBitfieldWidth
  split_ifs
  · exact ⟨h.nested, h.arrayLen⟩
  · exact h

theorem Shaped.baseType (h : s.Shaped) : ShapedElem s.baseType := by
  unfold MemberScan.baseType
  split_ifs
  · rcases hn : s.nested with _ | ty
    · exact shapedElem_ofKind _
    · exact h.nested ty hn
  · exact shapedElem_ofKind _

theorem shapedElem_ptr : ShapedElem .ptr := ⟨trivial, rfl⟩

theorem Shaped.builtType (h : s.Shaped) : Sizes.Shaped s.builtType := by
  unfold MemberScan.builtType
  split_ifs
  · trivial
  · split
    · rename_i len hlen
      exact ⟨h.arrayLen len hlen, h.baseType⟩
    · exact h.baseType.1

theorem Shaped.registeredType (h : s.Shaped) : Sizes.Shaped s.registeredType := by
  have helem : ShapedElem (if s.hasPointer then .ptr else s.baseType) := by
    split_ifs
    · exact shapedElem_ptr
    · exact h.baseType
  unfold MemberScan.registeredType
  split
  · rename_i len hlen
    exact ⟨h.arrayLen len hlen, helem⟩
  · exact helem.1

theorem allShaped_addBitfield (s : MemberScan) (width : ℕ) (group : Option BitfieldGroup) :
    AllShaped (s.addBitfield width group).1 := by
  have hunit : AllShaped [basicTypeOfKind s.baseKind] := ⟨(shapedElem_ofKind _).1, trivial⟩
  unfold addBitfield
  split
  · split_ifs
    · trivial
    · exact hunit
  · exact hunit

end MemberScan

theorem structInfo_shaped {tags : Tags} (h : TagsShaped tags) {tag : String} {fields : List BasicType}
    (hfields : AllShaped fields) {children : List Node} {st : StructType}
    (hst : structInfo tags tag (structOfFields fields children) = some st) : st.Shaped := by
  unfold structInfo at hst
  rcases Option.or_eq_some_iff.1 hst with htag | ⟨-, hbuilt⟩
  · split_ifs at htag
    exact h tag st htag
  · unfold structOfFields at hbuilt
    split_ifs at hbuilt with hempty
    · cases hbuilt
    · cases hbuilt
      exact ⟨fun hnil => hempty (List.isEmpty_iff.2 hnil), hfields⟩

theorem recordSpecifierType_shaped {tags : Tags} (h : TagsShaped tags) (tag : String)
    {fields : List BasicType} (hfields : AllShaped fields) (children : List Node) :
    ShapedElem (recordSpecifierType tags tag (structOfFields fields children)) := by
  unfold recordSpecifierType
  rcases hst : structInfo tags tag (structOfFields fields children) with _ | st
  · exact ⟨.inr (.inr (.inl rfl)), rfl⟩
  · exact (structInfo_shaped h hfields hst).elem

mutual

theorem buildField_shaped {tags : Tags} (h : TagsShaped tags) :
    ∀ (member : Node) (group : Option BitfieldGroup), AllShaped (buildField tags member group).1
  | .mk kind _ _ children, group => by
    rw [buildField]
    have hscan := buildScan_shaped h children .start MemberScan.shaped_start
    split_ifs
    · trivial
    · dsimp only
      split
      · exact MemberScan.allShaped_addBitfield _ _ _
      · exact ⟨hscan.builtType, trivial⟩

theorem buildFields_shaped {tags : Tags} (h : TagsShaped tags) :
    ∀ (members : List Node) (group : Option BitfieldGroup), AllShaped (buildFields tags members group)
  | [], _ => trivial
  | member :: members, group =>
    allShaped_append (buildField_shaped h member group) (buildFields_shaped h members _)

theorem buildVisit_shaped {tags : Tags} (h : TagsShaped tags) :
    ∀ (node : Node) (s : MemberScan), s.Shaped → (buildVisit tags node s).Shaped
  | .mk kind data text children, s, hs => by
    rw [buildVisit]
    have hfields := buildFields_shaped h children none
    split_ifs
    · refine ⟨?_, hs.arrayLen⟩
      rintro ty ⟨⟩
      exact recordSpecifierType_shaped h text hfields children
    · exact ⟨hs.nested, hs.arrayLen⟩
    · exact ⟨hs.nested, hs.arrayLen⟩
    · exact hs.setArrayLen _
    · exact hs.setBitfieldWidth data
    · exact hs

theorem buildScan_shaped {tags : Tags} (h : TagsShaped tags) :
    ∀ (nodes : List Node) (s : MemberScan), s.Shaped → (buildScan tags nodes s).Shaped
  | [], _, hs => hs
  | node :: rest, s, hs => buildScan_shaped h rest _ (buildVisit_shaped h node s hs)

end

theorem specifierToLlvmType_shaped {tags : Tags} (h : TagsShaped tags) (node : Node) :
    ShapedElem (specifierToLlvmType tags node) := by
  unfold specifierToLlvmType
  split_ifs
  · exact recordSpecifierType_shaped h _ (buildFields_shaped h node.children none) _
  · rcases hst : tags node.text with _ | st
    · exact shapedElem_ofKind 60
    · exact (h _ st hst).elem
  · exact shapedElem_ofKind _

theorem registerVisit_shaped {tags : Tags} (h : TagsShaped tags) {s : MemberScan} (hs : s.Shaped)
    (node : Node) : (registerVisit tags s node).Shaped := by
  unfold registerVisit
  split_ifs
  · refine ⟨?_, hs.arrayLen⟩
    rintro ty ⟨⟩
    exact specifierToLlvmType_shaped h node
  · exact ⟨hs.nested, hs.arrayLen⟩
  · exact ⟨hs.nested, hs.arrayLen⟩
  · exact hs.setArrayLen _
  · exact hs.setBitfieldWidth _
  · exact hs

theorem foldl_registerVisit_shaped {tags : Tags} (h : TagsShaped tags) (nodes : List Node)
    {s : MemberScan} (hs : s.Shaped) : (nodes.foldl (registerVisit tags) s).Shaped := by
  induction nodes generalizing s with
  | nil => exact hs
  | cons node nodes ih => exact ih (registerVisit_shaped h hs node)

mutual

theorem registerScanBelow_shaped {tags : Tags} (h : TagsShaped tags) :
    ∀ (node : Node) (s : MemberScan), s.Shaped → (registerScanBelow tags node s).Shaped
  | .mk _ _ _ children, s, hs => by
    rw [registerScanBelow]
    apply registerScanBelowAll_shaped h children
    exact foldl_registerVisit_shaped h children hs

theorem registerScanBelowAll_shaped {tags : Tags} (h : TagsShaped tags) :
    ∀ (nodes : List Node) (s : MemberScan), s.Shaped → (registerScanBelowAll tags nodes s).Shaped
  | [], _, hs => hs
  | node :: rest, s, hs => by
    rw [registerScanBelowAll]
    apply registerScanBelow_shaped h node
    exact registerScanBelowAll_shaped h rest s hs

end

theorem registerField_shaped {tags : Tags} (h : TagsShaped tags) (member : Node)
    (group : Option BitfieldGroup) : AllShaped (registerField tags member group).1 := by
  have hscan := registerScanBelow_shaped h member .start MemberScan.shaped_start
  unfold registerField
  split_ifs
  · trivial
  · dsimp only
    split
    · exact MemberScan.allShaped_addBitfield _ _ _
    · exact ⟨hscan.registeredType, trivial⟩

theorem registerFields_shaped {tags : Tags} (h : TagsShaped tags) (members : List Node)
    (group : Option BitfieldGroup) : AllShaped (registerFields tags members group) := by
  induction members generalizing group with
  | nil => trivial
  | cons member members ih => exact allShaped_append (registerField_shaped h member group) (ih _)

end Scans

section Registration

theorem registerRecord_shaped {tags : Tags} (h : TagsShaped tags) (tag : String)
    (members : List Node) : TagsShaped (registerRecord tags tag members) := by
  unfold registerRecord
  dsimp only
  split_ifs with hempty
  · exact h
  · intro name st hst
    unfold setTag at hst
    split_ifs at hst
    · cases hst
      exact ⟨fun hnil => hempty (List.isEmpty_iff.2 hnil), registerFields_shaped h members none⟩
    · exact h name st hst

mutual

theorem registerStructTypesInNode_shaped :
    ∀ (node : Node) (tags : Tags), TagsShaped tags → TagsShaped (registerStructTypesInNode node tags)
  | .mk _ _ _ children, tags, h => registerChildren_shaped children tags h

theorem registerChildren_shaped :
    ∀ (nodes : List Node) (tags : Tags), TagsShaped tags → TagsShaped (registerChildren nodes tags)
  | [], _, h => h
  | .mk kind data text members :: rest, tags, h => by
    rw [registerChildren]
    apply registerChildren_shaped rest
    apply registerStructTypesInNode_shaped (.mk kind data text members)
    split_ifs
    · exact registerRecord_shaped (registerNested_shaped members tags h) text members
    · exact h

theorem registerNested_shaped :
    ∀ (nodes : List Node) (tags : Tags), TagsShaped tags → TagsShaped (registerNested nodes tags)
  | [], _, h => h
  | .mk kind data text specs :: members, tags, h => by
    rw [registerNested]
    apply registerNested_shaped members
    apply List.foldlRecOn (motive := TagsShaped) _ _ h
    intro tags' h' node _
    exact registerStructTypesInNode_shaped (.mk kind data text specs) tags' h'

end

/-- The tags of a program have the types that the backend makes. -/
theorem registerTranslationUnit_shaped (nodes : List Node) :
    TagsShaped (registerTranslationUnit nodes) := by
  apply List.foldlRecOn (motive := TagsShaped)
  · exact nofun
  · intro tags h node _
    exact registerStructTypesInNode_shaped node tags h

end Registration

section Layouts

/-- The cells as the loops place them. -/
def placed (packed : Bool) (cells : List Cell) : List Cell :=
  cells.map fun c => ⟨c.size, if packed then 1 else max c.align 1⟩

theorem alignUp_eq_roundUp (value align : ℕ) : alignUp value align = roundUp value (max align 1) := by
  unfold alignUp
  split_ifs with h
  · rw [Nat.max_eq_right h, roundUp_one]
  · rw [Nat.max_eq_left (by omega), roundUp]

theorem maxAlign_placed_packed (cells : List Cell) : maxAlign (placed true cells) = 1 := by
  induction cells with
  | nil => rfl
  | cons c cells ih =>
    have : maxAlign (placed true (c :: cells)) = max 1 (maxAlign (placed true cells)) := rfl
    rw [this, ih]
    rfl

theorem foldl_place_struct (packed : Bool) (cells : List Cell) (e : Extent) (he : 1 ≤ e.maxAlign) :
    cells.foldl (Extent.place false packed) e =
      ⟨endOf e.offset (placed packed cells), max e.maxAlign (maxAlign (placed packed cells)),
        e.maxSize⟩ := by
  induction cells generalizing e with
  | nil => simp [placed, endOf, maxAlign, Nat.max_eq_left he]
  | cons c cells ih =>
    have hpos : 1 ≤ if packed then 1 else max c.align 1 := by
      split_ifs
      · exact Nat.le_refl 1
      · exact Nat.le_max_right _ _
    have hround := alignUp_eq_roundUp e.offset (if packed then 1 else max c.align 1)
    rw [Nat.max_eq_left hpos] at hround
    rw [List.foldl_cons, ih _ (Nat.le_trans he (Nat.le_max_left _ _))]
    simp [Extent.place, placed, endOf, maxAlign, hround, Nat.max_assoc]

theorem foldl_place_union (packed : Bool) (cells : List Cell) (e : Extent) (he : 1 ≤ e.maxAlign) :
    cells.foldl (Extent.place true packed) e =
      ⟨e.offset, max e.maxAlign (maxAlign (placed packed cells)),
        max e.maxSize (maxSize (placed packed cells))⟩ := by
  induction cells generalizing e with
  | nil => simp [placed, maxAlign, maxSize, Nat.max_eq_left he]
  | cons c cells ih =>
    rw [List.foldl_cons, ih _ (Nat.le_trans he (Nat.le_max_left _ _))]
    simp [Extent.place, placed, maxAlign, maxSize, Nat.max_assoc]

theorem roundUp_maxAlign (packed : Bool) (cells : List Cell) (n : ℕ) :
    (if packed then n else alignUp n (maxAlign (placed packed cells))) =
      roundUp n (maxAlign (placed packed cells)) := by
  split_ifs with hpacked
  · rw [hpacked, maxAlign_placed_packed, roundUp_one]
  · rw [alignUp_eq_roundUp, Nat.max_eq_left (one_le_maxAlign _)]

theorem align_placed (packed : Bool) (cells : List Cell) :
    (if packed then 1 else maxAlign (placed packed cells)) = maxAlign (placed packed cells) := by
  split_ifs with hpacked
  · rw [hpacked, maxAlign_placed_packed]
  · rfl

theorem max_one_maxAlign (cells : List Cell) : max 1 (maxAlign cells) = maxAlign cells :=
  Nat.max_eq_right (one_le_maxAlign cells)

/-- The loops lay out a struct, and put the fields of a union at its start. -/
theorem sizeAlignOf_struct (packed : Bool) (cells : List Cell) :
    sizeAlignOf false packed cells =
      ⟨structSize (placed packed cells), maxAlign (placed packed cells)⟩ := by
  unfold sizeAlignOf
  rw [foldl_place_struct packed cells _ (Nat.le_refl 1)]
  simp only [max_one_maxAlign, align_placed, Bool.false_eq_true, if_false, roundUp_maxAlign]
  rfl

theorem sizeAlignOf_union (packed : Bool) (cells : List Cell) :
    sizeAlignOf true packed cells =
      ⟨unionSize (placed packed cells), maxAlign (placed packed cells)⟩ := by
  unfold sizeAlignOf
  rw [foldl_place_union packed cells _ (Nat.le_refl 1)]
  simp only [max_one_maxAlign, align_placed, if_true, roundUp_maxAlign, Nat.zero_max]
  rfl

theorem fieldOf_proper (packed : Bool) {cells : List Cell} (h : ∀ c ∈ cells, c.Proper) :
    ∀ c ∈ cells.map (fieldOf packed), c.Proper := by
  intro c hc
  obtain ⟨d, hd, rfl⟩ := List.mem_map.1 hc
  cases packed with
  | true => exact ⟨(h d hd).size_pos, Nat.one_pos, Nat.one_dvd _⟩
  | false => exact h d hd

/-- On cells of types the loops take the alignments as they are. -/
theorem placed_eq (packed : Bool) {cells : List Cell} (h : ∀ c ∈ cells, c.Proper) :
    placed packed cells = cells.map (fieldOf packed) := by
  apply List.map_congr_left
  intro c hc
  rw [fieldOf, Nat.max_eq_left (h c hc).align_pos]

/-- A record is one size as a struct and as a union just when it has one field. -/
theorem size_union_eq_struct_iff {packed : Bool} {cells : List Cell} (h : ∀ c ∈ cells, c.Proper)
    (hne : cells ≠ []) :
    (sizeAlignOf true packed cells).size = (sizeAlignOf false packed cells).size ↔
      cells.length = 1 := by
  have hne' : cells.map (fieldOf packed) ≠ [] := fun hnil => hne (List.map_eq_nil_iff.1 hnil)
  rw [sizeAlignOf_union, sizeAlignOf_struct, placed_eq packed h]
  exact (unionSize_eq_structSize_iff (fieldOf_proper packed h) hne').trans (by rw [List.length_map])

end Layouts

section Allocation

mutual

def hasDouble : BasicType → Bool
  | .double => true
  | .array elem _ => hasDouble elem
  | .struct _ fields => anyDouble fields
  | _ => false

def anyDouble : List BasicType → Bool
  | [] => false
  | ty :: fields => hasDouble ty || anyDouble fields

end

mutual

theorem allocCell_proper : ∀ ty : BasicType, Shaped ty → (allocCell ty).Proper
  | .int width, h => by
    rcases h with rfl | rfl | rfl | rfl <;> exact ⟨by decide, by decide, by decide⟩
  | .float, _ => ⟨by decide, by decide, by decide⟩
  | .double, _ => ⟨by decide, by decide, by decide⟩
  | .ptr, _ => ⟨by decide, by decide, by decide⟩
  | .array elem len, h => by
    have helem := allocCell_proper elem h.2.1
    exact ⟨Nat.mul_pos helem.size_pos h.1, helem.align_pos, Nat.dvd_mul_right_of_dvd helem.dvd len⟩
  | .struct packed fields, h => by
    have hcells := fieldOf_proper packed (allocCells_proper fields h.2)
    refine ⟨structSize_pos hcells ?_, one_le_maxAlign _, maxAlign_dvd_structSize _⟩
    obtain ⟨ty, rest, hfields⟩ := List.exists_cons_of_ne_nil h.1
    rw [hfields]
    exact nofun

theorem allocCells_proper : ∀ fields : List BasicType, AllShaped fields →
    ∀ c ∈ allocCells fields, c.Proper
  | [], _ => nofun
  | ty :: fields, h => by
    intro c hc
    rcases List.mem_cons.1 hc with rfl | hc
    · exact allocCell_proper ty h.1
    · exact allocCells_proper fields h.2 c hc

end

theorem allocCells_ne_nil {fields : List BasicType} (h : fields ≠ []) : allocCells fields ≠ [] := by
  obtain ⟨ty, rest, rfl⟩ := List.exists_cons_of_ne_nil h
  exact nofun

variable {folds : Folds}

theorem sizeAlignOf_allocCells (packed : Bool) {fields : List BasicType} (h : AllShaped fields) :
    sizeAlignOf false packed (allocCells fields) = allocCell (.struct packed fields) := by
  rw [sizeAlignOf_struct, placed_eq packed (allocCells_proper fields h)]
  rfl

mutual

/-- The table for fields is LLVM's own, if the sizes of the doubles in it are known. -/
theorem fieldSizeAlign_eq : ∀ ty : BasicType, Shaped ty →
    (hasDouble ty = true → folds.double = true) → fieldSizeAlign folds ty = allocCell ty
  | .int width, h, _ => by rcases h with rfl | rfl | rfl | rfl <;> rfl
  | .float, _, _ => by
    rcases folds with ⟨_ | _, _⟩ <;> rfl
  | .double, _, hd => by
    rcases folds with ⟨_, _ | _⟩
    · exact absurd (hd rfl) Bool.false_ne_true
    · rfl
  | .ptr, _, _ => rfl
  | .array elem len, h, hd => by
    rw [fieldSizeAlign, elemSizeAlign_eq elem h.2.1 h.2.2 hd]
    rfl
  | .struct packed fields, h, hd => by
    rw [fieldSizeAlign, fieldCells_eq fields h.2 hd, sizeAlignOf_allocCells packed h.2]

theorem elemSizeAlign_eq : ∀ ty : BasicType, Shaped ty → ty.isArray = false →
    (hasDouble ty = true → folds.double = true) → elemSizeAlign folds ty = allocCell ty
  | .int width, h, _, _ => by rcases h with rfl | rfl | rfl | rfl <;> rfl
  | .float, _, _, _ => by
    rcases folds with ⟨_ | _, _⟩ <;> rfl
  | .double, _, _, hd => by
    rcases folds with ⟨_, _ | _⟩
    · exact absurd (hd rfl) Bool.false_ne_true
    · rfl
  | .ptr, _, _, _ => rfl
  | .array _ _, _, harray, _ => nomatch harray
  | .struct packed fields, h, _, hd => by
    rw [elemSizeAlign, fieldCells_eq fields h.2 hd, sizeAlignOf_allocCells packed h.2]

theorem fieldCells_eq : ∀ fields : List BasicType, AllShaped fields →
    (anyDouble fields = true → folds.double = true) → fieldCells folds fields = allocCells fields
  | [], _, _ => rfl
  | ty :: fields, h, hd => by
    rw [fieldCells, allocCells, fieldSizeAlign_eq ty h.1 fun hty => hd (by simp [anyDouble, hty]),
      fieldCells_eq fields h.2 fun hfields => hd (by simp [anyDouble, hfields])]

end

end Allocation

end OpticC.Sizes
