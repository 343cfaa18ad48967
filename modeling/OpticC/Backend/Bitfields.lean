import OpticC.Backend.Assignments
import OpticC.Backend.RecordLayouts

/-! Records with bit-fields. The first pass packs consecutive bit-fields of one kind into storage
units and notes for each member the index of its LLVM field and the bits it has there. -/

namespace OpticC.Bitfields

open Sizes Assignment ByteMemory Layout

/-- The bits of a value of the type. -/
def typeBits : CIntType → ℕ
  | .bool => 1
  | .int t => t.width

/-- `specifiers name : width;` -/
structure BitfieldDecl where
  name : String
  type : DeclaredType
  width : ℕ
  width_pos : 0 < width
  width_le : width ≤ typeBits type.type

def specifierNode (s : TypeSpecifier) : Node := .mk s.kind 0 "" []

def BitfieldDecl.node (d : BitfieldDecl) : Node :=
  .mk 25 0 "" (d.type.specs.map specifierNode ++ [.mk 27 d.width "" [.mk 60 0 d.name []]])

/-- A declaration of one member; `name` is what `collect_struct_field_names` finds in it. -/
inductive Member where
  | bitfield (d : BitfieldDecl)
  | plain (name : String) (decl : Node)

namespace Member

def name : Member → String
  | bitfield d => d.name
  | plain name _ => name

def node : Member → Node
  | bitfield d => d.node
  | plain _ decl => decl

end Member

/-- A record with a tag. -/
structure Record (tags : Tags) where
  packed : Bool
  members : List Member
  nodup : (members.map Member.name).Nodup
  plain : ∀ name decl, .plain name decl ∈ members →
    decl.kind ≠ 200 ∧ (registerScan tags decl).bitfieldWidth = none

/-- The LLVM field of a member, and its first bit and width there if it is a bit-field. -/
structure Slot where
  index : ℕ
  bitfield : Option (ℕ × ℕ)

section Registration

variable (tags : Tags)

/-- The entry for `gep_info`, when `idx` fields are there. -/
def gepSlot (member : Node) (idx : ℕ) (group : Option BitfieldGroup) : Slot :=
  let s := registerScan tags member
  match s.bitfieldWidth with
  | some bw =>
    match group with
    | some g =>
      if g.kind = s.baseKind ∧ g.bitsUsed + bw ≤ g.capacity then ⟨idx - 1, some (g.bitsUsed, bw)⟩
      else ⟨idx, some (0, bw)⟩
    | none => ⟨idx, some (0, bw)⟩
  | none => ⟨idx, none⟩

/-- `gep_info`, in the order of the members. -/
def gepInfo : List Member → ℕ → Option BitfieldGroup → List (Member × Slot)
  | [], _, _ => []
  | m :: ms, idx, group =>
    let field := registerField tags m.node group
    (m, gepSlot tags m.node idx group) :: gepInfo ms (idx + field.1.length) field.2

/-- The kind that the first pass takes for a bit-field: the last specifier that it knows. -/
def unitKind (specs : List TypeSpecifier) : ℕ :=
  ((specs.map TypeSpecifier.kind).reverse.find? isRegisterSpecifier).getD 2

/-- The bits of the storage unit. -/
def unitBits (d : BitfieldDecl) : ℕ := nodeKindBitWidth (unitKind d.type.specs)

theorem foldl_specifiers (specs : List TypeSpecifier) (s : MemberScan) :
    (specs.map specifierNode).foldl (registerVisit tags) s =
      { s with baseKind :=
        ((specs.map TypeSpecifier.kind).reverse.find? isRegisterSpecifier).getD s.baseKind } := by
  induction specs generalizing s with
  | nil => rfl
  | cons spec specs ih =>
    rw [List.map_cons, List.foldl_cons, ih, List.map_cons, List.reverse_cons, List.find?_append]
    have hvisit : registerVisit tags s (specifierNode spec) =
        { s with baseKind := if isRegisterSpecifier spec.kind then spec.kind else s.baseKind } := by
      cases spec <;> rfl
    rw [hvisit]
    cases (specs.map TypeSpecifier.kind).reverse.find? isRegisterSpecifier with
    | none => cases spec <;> rfl
    | some kind => rfl

theorem registerScan_bitfield (d : BitfieldDecl) :
    registerScan tags d.node = ⟨unitKind d.type.specs, false, none, some d.width, none⟩ := by
  have hbelow : ∀ (specs : List TypeSpecifier) (s : MemberScan),
      registerScanBelowAll tags
        (specs.map specifierNode ++ [.mk 27 d.width "" [.mk 60 0 d.name []]]) s = s := by
    intro specs s
    induction specs with
    | nil => simp [registerScanBelowAll, registerScanBelow, registerVisit, Node.kind,
        isRegisterSpecifier, isBuildSpecifier]
    | cons spec specs ih =>
      rw [List.map_cons, List.cons_append, registerScanBelowAll, ih]
      rfl
  rw [registerScan, BitfieldDecl.node, registerScanBelow, hbelow, List.foldl_append,
    foldl_specifiers]
  show MemberScan.setBitfieldWidth _ d.width = _
  rw [MemberScan.setBitfieldWidth, if_pos d.width_pos]
  rfl

theorem unitType (d : BitfieldDecl) : basicTypeOfKind (unitKind d.type.specs) = .int (unitBits d) := by
  have hkind : unitKind d.type.specs = 2 ∨ ∃ spec : TypeSpecifier, unitKind d.type.specs = spec.kind := by
    unfold unitKind
    cases hfind : (d.type.specs.map TypeSpecifier.kind).reverse.find? isRegisterSpecifier with
    | none => exact .inl rfl
    | some kind =>
      have hmem := List.mem_of_find?_eq_some hfind
      rw [List.mem_reverse, List.mem_map] at hmem
      obtain ⟨spec, -, hspec⟩ := hmem
      exact .inr ⟨spec, hspec.symm⟩
  unfold unitBits
  rcases hkind with h | ⟨spec, h⟩
  · rw [h]
    rfl
  · rw [h]
    cases spec <;> rfl

end Registration

section Units

variable {tags : Tags}

/-- The declaration is no attribute list, and a plain one has no bit-field in it. -/
def Member.Valid (tags : Tags) : Member → Prop
  | bitfield _ => True
  | plain _ decl => decl.kind ≠ 200 ∧ (registerScan tags decl).bitfieldWidth = none

/-- The LLVM type of the field. -/
def fieldType (tags : Tags) : Member → BasicType
  | .bitfield d => .int (unitBits d)
  | .plain _ decl => (registerScan tags decl).registeredType

/-- What a member adds: it joins the unit at hand, or it gets a field of its own. -/
inductive Adds (tags : Tags) (idx : ℕ) (group : Option BitfieldGroup) (m : Member) : Prop
  | joins (d : BitfieldDecl) (g : BitfieldGroup) (hm : m = .bitfield d) (hg : group = some g)
    (hkind : g.kind = unitKind d.type.specs)
    (hslot : gepSlot tags m.node idx group = ⟨idx - 1, some (g.bitsUsed, d.width)⟩)
    (hfield : registerField tags m.node group =
      ([], some { g with bitsUsed := g.bitsUsed + d.width }))
    (hcapacity : g.bitsUsed + d.width ≤ g.capacity)
  | opens (d : BitfieldDecl) (hm : m = .bitfield d)
    (hslot : gepSlot tags m.node idx group = ⟨idx, some (0, d.width)⟩)
    (hfield : registerField tags m.node group = ([fieldType tags m],
      some ⟨unitKind d.type.specs, d.width, unitBits d⟩))
  | takes (name : String) (decl : Node) (hm : m = .plain name decl)
    (hslot : gepSlot tags m.node idx group = ⟨idx, none⟩)
    (hfield : registerField tags m.node group = ([fieldType tags m], none))

theorem adds (idx : ℕ) (group : Option BitfieldGroup) {m : Member} (hm : m.Valid tags) :
    Adds tags idx group m := by
  cases m with
  | bitfield d =>
    have hscan := registerScan_bitfield tags d
    have htype := unitType d
    have hfield : registerField tags d.node group =
        (⟨unitKind d.type.specs, false, none, some d.width, none⟩ : MemberScan).addBitfield
          d.width group := by
      have hkind : d.node.kind ≠ 200 := by
        show 25 ≠ 200
        decide
      rw [registerField, if_neg hkind]
      simp only [hscan]
    have hopens (hslot : gepSlot tags d.node idx group = ⟨idx, some (0, d.width)⟩)
        (hadd : (⟨unitKind d.type.specs, false, none, some d.width, none⟩ : MemberScan).addBitfield
          d.width group =
            ([.int (unitBits d)], some ⟨unitKind d.type.specs, d.width, unitBits d⟩)) :
        Adds tags idx group (.bitfield d) :=
      .opens d rfl hslot (hfield.trans hadd)
    cases group with
    | none =>
      apply hopens
      · simp only [gepSlot, hscan]
      · rw [← htype]
        rfl
    | some g =>
      by_cases hfits : g.kind = unitKind d.type.specs ∧ g.bitsUsed + d.width ≤ g.capacity
      · refine .joins d g rfl rfl hfits.1 ?_ (hfield.trans (if_pos hfits)) hfits.2
        · show gepSlot tags d.node idx (some g) = _
          simp only [gepSlot, hscan]
          exact if_pos hfits
      · apply hopens
        · simp only [gepSlot, hscan]
          exact if_neg hfits
        · rw [← htype]
          exact if_neg hfits
  | plain name decl =>
    obtain ⟨hkind, hwidth⟩ := hm
    refine .takes name decl rfl ?_ ?_
    · show gepSlot tags decl idx group = _
      simp only [gepSlot, hwidth]
    · show registerField tags decl group = _
      rw [registerField, if_neg hkind]
      simp only [hwidth]
      rfl

/-- The slots share no bit: they lie in different fields, or side by side in one unit. -/
def Slot.Apart (a b : Slot) : Prop :=
  a.index ≠ b.index ∨ ∃ f g, a.bitfield = some f ∧ b.bitfield = some g ∧
    (f.1 + f.2 ≤ g.1 ∨ g.1 + g.2 ≤ f.1)

/-- The slot lies behind the fields and the bits that are given away. -/
def Slot.Behind (idx : ℕ) (group : Option BitfieldGroup) (a : Slot) : Prop :=
  idx ≤ a.index ∨ ∃ g f, group = some g ∧ a.index + 1 = idx ∧ a.bitfield = some f ∧ g.bitsUsed ≤ f.1

theorem gepInfo_behind {ms : List Member} (hms : ∀ m ∈ ms, m.Valid tags) {idx : ℕ}
    {group : Option BitfieldGroup} (hidx : group ≠ none → 0 < idx) :
    ∀ e ∈ gepInfo tags ms idx group, e.2.Behind idx group := by
  induction ms generalizing idx group with
  | nil => exact fun e he => absurd he List.not_mem_nil
  | cons m ms ih =>
    intro e he
    have hrest := fun {i : ℕ} {g : Option BitfieldGroup} =>
      @ih (fun m' hm' => hms m' (List.mem_cons_of_mem m hm')) i g
    rw [gepInfo, List.mem_cons] at he
    cases adds idx group (hms m List.mem_cons_self) with
    | joins d g _ hg _ hslot hfield _ =>
      have hpos := hidx (by rw [hg]; exact Option.some_ne_none g)
      rw [hslot, hfield] at he
      rcases he with rfl | he
      · exact .inr ⟨g, _, hg, by simp only; omega, rfl, Nat.le_refl _⟩
      · rcases hrest (fun _ => hpos) e he with h | ⟨g', f, hg', hindex, hf, hle⟩
        · exact .inl h
        · cases hg'
          exact .inr ⟨g, f, hg, hindex, hf, by simp only at hle; omega⟩
    | opens d _ hslot hfield =>
      rw [hslot, hfield] at he
      rcases he with rfl | he
      · exact .inl (Nat.le_refl idx)
      · rcases hrest (fun _ => Nat.succ_pos idx) e he with h | ⟨g', f, -, hindex, -, -⟩
        · exact .inl (Nat.le_of_succ_le h)
        · exact .inl (Nat.le_of_eq (Nat.succ.inj hindex).symm)
    | takes _ _ _ hslot hfield =>
      rw [hslot, hfield] at he
      rcases he with rfl | he
      · exact .inl (Nat.le_refl idx)
      · rcases hrest (fun h => absurd rfl h) e he with h | ⟨g', f, hg', -, -, -⟩
        · exact .inl (Nat.le_of_succ_le h)
        · cases hg'

/-- No two members share a bit. -/
theorem gepInfo_apart {ms : List Member} (hms : ∀ m ∈ ms, m.Valid tags) {idx : ℕ}
    {group : Option BitfieldGroup} (hidx : group ≠ none → 0 < idx) :
    (gepInfo tags ms idx group).Pairwise fun a b => a.2.Apart b.2 := by
  induction ms generalizing idx group with
  | nil => exact List.Pairwise.nil
  | cons m ms ih =>
    have hrest : ∀ m' ∈ ms, m'.Valid tags := fun m' hm' => hms m' (List.mem_cons_of_mem m hm')
    rw [gepInfo, List.pairwise_cons]
    cases adds idx group (hms m List.mem_cons_self) with
    | joins d g _ hg _ hslot hfield _ =>
      have hpos := hidx (by rw [hg]; exact Option.some_ne_none g)
      rw [hslot, hfield]
      refine ⟨fun e he => ?_, ih hrest fun _ => hpos⟩
      rcases gepInfo_behind hrest (fun _ => hpos) e he with h | ⟨g', f, hg', -, hf, hle⟩
      · have hle : idx ≤ e.2.index := h
        exact .inl (show idx - 1 ≠ e.2.index by omega)
      · cases hg'
        exact .inr ⟨_, f, rfl, hf, .inl hle⟩
    | opens d _ hslot hfield =>
      rw [hslot, hfield]
      refine ⟨fun e he => ?_, ih hrest fun _ => Nat.succ_pos idx⟩
      rcases gepInfo_behind hrest (fun _ => Nat.succ_pos idx) e he with h | ⟨g', f, hg', -, hf, hle⟩
      · have hle : idx + 1 ≤ e.2.index := h
        exact .inl (show idx ≠ e.2.index by omega)
      · cases hg'
        exact .inr ⟨_, f, rfl, hf, .inl (by simp only at hle ⊢; omega)⟩
    | takes _ _ _ hslot hfield =>
      rw [hslot, hfield]
      refine ⟨fun e he => ?_, ih hrest fun h => absurd rfl h⟩
      rcases gepInfo_behind hrest (fun h => absurd rfl h) e he with h | ⟨g', f, hg', -, -, -⟩
      · have hle : idx + 1 ≤ e.2.index := h
        exact .inl (show idx ≠ e.2.index by omega)
      · cases hg'

/-- What is known of the unit at hand. -/
structure Open (types : List BasicType) (group : Option BitfieldGroup) : Prop where
  last : ∀ g, group = some g → types.getLast? = some (basicTypeOfKind g.kind)
  capacity : ∀ g, group = some g → g.capacity = nodeKindBitWidth g.kind

/-- The slot of a member in the fields of the record. -/
structure Slot.Holds (tags : Tags) (types : List BasicType) (m : Member) (a : Slot) : Prop where
  type : types[a.index]? = some (fieldType tags m)
  bitfield : ∀ d, m = .bitfield d →
    ∃ off, a.bitfield = some (off, d.width) ∧ (off = 0 ∨ off + d.width ≤ unitBits d)
  plain : ∀ name decl, m = .plain name decl → a.bitfield = none

theorem Slot.Holds.append {types : List BasicType} {m : Member} {a : Slot}
    (h : a.Holds tags types m) (more : List BasicType) : a.Holds tags (types ++ more) m := by
  refine ⟨?_, h.bitfield, h.plain⟩
  obtain ⟨hlt, -⟩ := List.getElem?_eq_some_iff.1 h.type
  rw [List.getElem?_append_left hlt]
  exact h.type

theorem getElem?_concat_length {α : Type} (xs : List α) (x : α) : (xs ++ [x])[xs.length]? = some x := by
  simp

/-- The step: the slot of the next member holds, and the unit at hand is known again. -/
theorem adds_holds {types : List BasicType} {group : Option BitfieldGroup} (hopen : Open types group)
    {m : Member} (hm : m.Valid tags) :
    (gepSlot tags m.node types.length group).Holds tags
        (types ++ (registerField tags m.node group).1) m ∧
      Open (types ++ (registerField tags m.node group).1) (registerField tags m.node group).2 := by
  cases adds types.length group hm with
  | joins d g hd hg hkind hslot hfield hcapacity =>
    have hlast := hopen.last g hg
    have hcap := hopen.capacity g hg
    subst hd
    rw [hslot, hfield, List.append_nil]
    refine ⟨⟨?_, ?_, nofun⟩, ?_, ?_⟩
    · rw [← List.getLast?_eq_getElem?, hlast, hkind, unitType]
      rfl
    · rintro d' heq
      cases heq
      refine ⟨g.bitsUsed, rfl, .inr ?_⟩
      rw [hcap, hkind] at hcapacity
      exact hcapacity
    · rintro g' hg'
      cases hg'
      exact hlast
    · rintro g' hg'
      cases hg'
      exact hcap
  | opens d hd hslot hfield =>
    subst hd
    rw [hslot, hfield]
    refine ⟨⟨getElem?_concat_length _ _, ?_, nofun⟩, ?_, ?_⟩
    · rintro d' heq
      cases heq
      exact ⟨0, rfl, .inl rfl⟩
    · rintro g' hg'
      cases hg'
      rw [List.getLast?_concat, unitType]
      rfl
    · rintro g' hg'
      cases hg'
      rfl
  | takes name decl hplain hslot hfield =>
    subst hplain
    rw [hslot, hfield]
    exact ⟨⟨getElem?_concat_length _ _, nofun, fun _ _ _ => rfl⟩, nofun, nofun⟩

theorem gepInfo_holds {ms : List Member} (hms : ∀ m ∈ ms, m.Valid tags) {types : List BasicType}
    {group : Option BitfieldGroup} (hopen : Open types group) :
    ∀ e ∈ gepInfo tags ms types.length group,
      e.2.Holds tags (types ++ registerFields tags (ms.map Member.node) group) e.1 := by
  induction ms generalizing types group with
  | nil => exact fun e he => absurd he List.not_mem_nil
  | cons m ms ih =>
    intro e he
    have hstep := adds_holds hopen (hms m List.mem_cons_self)
    rw [List.map_cons, registerFields, ← List.append_assoc]
    rw [gepInfo, List.mem_cons] at he
    rcases he with rfl | he
    · exact hstep.1.append _
    · rw [← List.length_append] at he
      exact ih (fun m' hm' => hms m' (List.mem_cons_of_mem m hm')) hstep.2 e he

end Units

end OpticC.Bitfields
