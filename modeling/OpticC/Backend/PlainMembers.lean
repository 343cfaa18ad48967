import OpticC.Backend.SizeAgreement

/-! Members that every scan reads alike: scalar words that all know, a record by its tag, and
declarators of one level. A record of them has one list of cells. -/

namespace OpticC.Sizes

open Layout

section Plain

variable (folds : Folds) (tags : Tags)

/-- A leaf that no scan looks at. -/
def Inert (node : Node) : Prop := node.kind = 60 ∧ node.children = []

/-- A specifier with one size in a declaration and as a field. -/
inductive PlainSpecifier : Node → Prop
  | word (w : Word) (hsize : isSizedSpecifier w.kind = true) (hkind : w.kind ≠ 1 ∧ w.kind ≠ 14) :
    PlainSpecifier w.node
  | qualifier (w : Word) (h : w.isQualifier = true) : PlainSpecifier w.node
  | struct (tag : String) (st : StructType) (htag : tag ≠ "") (hst : tags tag = some st) :
    PlainSpecifier (.mk 4 0 tag [])
  | union (tag : String) (packed : Bool) (field : BasicType) (htag : tag ≠ "")
      (hst : tags tag = some ⟨packed, [field]⟩) : PlainSpecifier (.mk 5 0 tag [])

/-- A name, a pointer to one, or an array of one dimension. -/
inductive PlainDeclarator : Node → Prop
  | ident (node : Node) (h : Inert node) : PlainDeclarator node
  | pointer (depth : ℕ) (node : Node) (h : Inert node) : PlainDeclarator (.mk 7 depth "" [node])
  | array (len : ℕ) (hlen : 0 < len) (node : Node) (h : Inert node) :
    PlainDeclarator (.mk 8 len "" [node])

/-- A member declaration, or an attribute. -/
inductive PlainMember : Node → Prop
  | declaration (children : List Node)
      (h : ∀ child ∈ children, PlainSpecifier tags child ∨ PlainDeclarator child) :
    PlainMember (.mk 25 0 "" children)
  | attributes (children : List Node) (h : ∀ child ∈ children, child.children = []) :
    PlainMember (.mk 200 0 "" children)

end Plain

/-- What is registered stays so. -/
def Extends (before tags : Tags) : Prop := ∀ tag st, before tag = some st → tags tag = some st

section Scans

-- `before` is the table when the record is registered, `tags` a later one
variable {folds : Folds} {before tags : Tags}

/-- The two scans have found the same. -/
structure SameScan (folds : Folds) (s : FieldScan) (m : MemberScan) : Prop where
  base : s.base = fieldSizeAlign folds m.baseType
  elem : ShapedElem m.baseType
  pointer : s.isPointer = m.hasPointer
  array : s.arrayLen = m.arrayLen
  noBitfield : s.bitfieldWidth = none ∧ m.bitfieldWidth = none

theorem sameScan_start : SameScan folds .start .start :=
  ⟨rfl, shapedElem_ofKind 2, rfl, rfl, rfl, rfl⟩

variable {s : FieldScan} {m : MemberScan}

namespace SameScan

theorem word (h : SameScan folds s m) (hdouble : folds.double = true) {w : Word}
    (hsize : isSizedSpecifier w.kind = true) (hkind : w.kind ≠ 1 ∧ w.kind ≠ 14) :
    SameScan folds (fieldVisit folds tags w.node s) (registerVisit before m w.node) := by
  rcases folds with ⟨float, double⟩
  cases hdouble
  have harray := h.array
  have hpointer := h.pointer
  have hbits := h.noBitfield
  cases w
  case void => exact absurd rfl hkind.1
  case bool => exact absurd rfl hkind.2
  case float => exact ⟨by cases float <;> rfl, shapedElem_ofKind 83, hpointer, harray, hbits⟩
  case int => exact ⟨rfl, shapedElem_ofKind 2, hpointer, harray, hbits⟩
  case char => exact ⟨rfl, shapedElem_ofKind 3, hpointer, harray, hbits⟩
  case short => exact ⟨rfl, shapedElem_ofKind 10, hpointer, harray, hbits⟩
  case long => exact ⟨rfl, shapedElem_ofKind 11, hpointer, harray, hbits⟩
  case signed => exact ⟨rfl, shapedElem_ofKind 12, hpointer, harray, hbits⟩
  case unsigned => exact ⟨rfl, shapedElem_ofKind 13, hpointer, harray, hbits⟩
  case double => exact ⟨rfl, shapedElem_ofKind 84, hpointer, harray, hbits⟩
  all_goals cases hsize

theorem qualifier (h : SameScan folds s m) {w : Word} (hw : w.isQualifier = true) :
    SameScan folds (fieldVisit folds tags w.node s) (registerVisit before m w.node) := by
  cases w <;> first | exact h | cases hw

/-- A record by its tag has the size of its struct type, if it is no union of several fields. -/
theorem record (h : SameScan folds s m) {kind : ℕ} {tag : String} {st : StructType}
    (hkind : kind = 4 ∨ kind = 5) (htag : tag ≠ "") (hst : before tag = some st) (hst' : tags tag = some st)
    (hshaped : st.Shaped) (hsize : sizeAlignOf (kind == 5) st.packed (fieldCells folds st.fields) =
      sizeAlignOf false st.packed (fieldCells folds st.fields)) :
    SameScan folds (fieldVisit folds tags (.mk kind 0 tag []) s)
      (registerVisit before m (.mk kind 0 tag [])) := by
  have hspec : specifierToLlvmType before (.mk kind 0 tag []) = st.asBasicType := by
    apply specifierToLlvmType_record
    · rcases hkind with rfl | rfl <;> rfl
    · rw [structInfoForSpec_record (by rcases hkind with rfl | rfl <;> rfl)]
      simp [structInfo, Node.text, htag, hst]
  have hcell : recordSizeAlign folds tags kind tag [] (memberCells folds tags []) =
      fieldSizeAlign folds st.asBasicType := by
    simp only [recordSizeAlign, List.isEmpty_nil, bne_iff_ne, ne_eq, htag, not_false_eq_true,
      Bool.true_and, if_true, hst', List.isEmpty_iff, hshaped.1, if_false, hsize]
    rfl
  have hfield : fieldVisit folds tags (.mk kind 0 tag []) s =
      { s with base := fieldSizeAlign folds st.asBasicType } := by
    rw [← hcell]
    rcases hkind with rfl | rfl <;> rfl
  have hregister : registerVisit before m (.mk kind 0 tag []) =
      { m with baseKind := kind, nested := some st.asBasicType } := by
    rw [← hspec]
    rcases hkind with rfl | rfl <;> rfl
  have hbase : ({ m with baseKind := kind, nested := some st.asBasicType } : MemberScan).baseType =
      st.asBasicType := if_pos hkind
  rw [hfield, hregister]
  refine ⟨?_, ?_, h.pointer, h.array, h.noBitfield⟩
  · rw [hbase]
  · rw [hbase]
    exact hshaped.elem

theorem inert (h : SameScan folds s m) {node : Node} (hnode : Inert node) :
    SameScan folds (fieldVisit folds tags node s) (registerVisit before m node) := by
  rcases node with ⟨kind, data, text, children⟩
  obtain ⟨hkind, -⟩ := hnode
  dsimp only [Node.kind] at hkind
  subst hkind
  exact h

theorem declarator (h : SameScan folds s m) {node : Node} (hnode : PlainDeclarator node) :
    SameScan folds (fieldVisit folds tags node s) (registerVisit before m node) := by
  cases hnode with
  | ident _ hinert => exact h.inert hinert
  | pointer depth name _ => exact ⟨h.base, h.elem, rfl, h.array, h.noBitfield⟩
  | array len hlen name _ =>
    have hinfer : inferArrayDeclaratorLen (.mk 8 len "" [name]) = some len := if_pos hlen
    have hfield : fieldVisit folds tags (.mk 8 len "" [name]) s = { s with arrayLen := some len } := by
      change s.setArrayLen (.mk 8 len "" [name]) = _
      rw [FieldScan.setArrayLen, hinfer]
    have hregister : registerVisit before m (.mk 8 len "" [name]) = { m with arrayLen := some len } := by
      change m.setArrayLen (.mk 8 len "" [name]) = _
      rw [MemberScan.setArrayLen, hinfer]
    rw [hfield, hregister]
    exact ⟨h.base, h.elem, h.pointer, rfl, h.noBitfield⟩

theorem specifier (h : SameScan folds s m) (hdouble : folds.double = true)
    (hshaped : TagsShaped before) (hext : Extends before tags) {node : Node}
    (hnode : PlainSpecifier before node) :
    SameScan folds (fieldVisit folds tags node s) (registerVisit before m node) := by
  cases hnode with
  | word w hsize hkind => exact h.word hdouble hsize hkind
  | qualifier w hw => exact h.qualifier hw
  | struct tag st htag hst => exact h.record (.inl rfl) htag hst (hext tag st hst) (hshaped tag st hst) rfl
  | union tag packed field htag hst =>
    apply h.record (.inr rfl) htag hst (hext tag _ hst) (hshaped tag _ hst)
    change sizeAlignOf true packed [fieldSizeAlign folds field] =
      sizeAlignOf false packed [fieldSizeAlign folds field]
    rw [sizeAlignOf_union, sizeAlignOf_struct]
    congr 1
    apply unionSize_singleton
    split_ifs
    · exact Nat.one_pos
    · exact Nat.lt_of_lt_of_le Nat.one_pos (Nat.le_max_right _ _)

theorem scan (h : SameScan folds s m) (hdouble : folds.double = true) (hshaped : TagsShaped before)
    (hext : Extends before tags) {children : List Node}
    (hchildren : ∀ child ∈ children, PlainSpecifier before child ∨ PlainDeclarator child) :
    SameScan folds (fieldScan folds tags children s) (children.foldl (registerVisit before) m) := by
  induction children generalizing s m with
  | nil => exact h
  | cons child children ih =>
    have hstep : SameScan folds (fieldVisit folds tags child s) (registerVisit before m child) := by
      rcases hchildren child List.mem_cons_self with hspec | hdecl
      · exact h.specifier hdouble hshaped hext hspec
      · exact h.declarator hdecl
    exact ih hstep fun c hc => hchildren c (List.mem_cons_of_mem child hc)

/-- The cell of the member is that of its field. -/
theorem cell (h : SameScan folds s m) : s.cell = fieldSizeAlign folds m.registeredType := by
  unfold FieldScan.cell MemberScan.registeredType
  rw [h.noBitfield.1, h.array, h.pointer, h.base]
  have helem : elemSizeAlign folds m.baseType = fieldSizeAlign folds m.baseType := by
    rcases hty : m.baseType with _ | _ | _ | _ | _ | _
    case array =>
      have harray := h.elem.2
      rw [hty] at harray
      cases harray
    all_goals rfl
  rcases m.arrayLen with _ | len <;> cases m.hasPointer
  · simp
  · simp [fieldSizeAlign]
  · simp [fieldSizeAlign, helem]
  · simp [fieldSizeAlign, elemSizeAlign]

end SameScan

section Below

theorem registerVisit_inert {node : Node} (h : Inert node) (m : MemberScan) :
    registerVisit before m node = m := by
  rcases node with ⟨kind, data, text, children⟩
  obtain ⟨hkind, -⟩ := h
  dsimp only [Node.kind] at hkind
  subst hkind
  rfl

theorem registerScanBelow_leaf {node : Node} (h : node.children = []) (m : MemberScan) :
    registerScanBelow before node m = m := by
  rcases node with ⟨kind, data, text, children⟩
  dsimp only [Node.children] at h
  subst h
  rfl

theorem registerScanBelow_plain {node : Node}
    (h : PlainSpecifier before node ∨ PlainDeclarator node) (m : MemberScan) :
    registerScanBelow before node m = m := by
  have hname : ∀ kind data (name : Node), Inert name →
      registerScanBelow before (.mk kind data "" [name]) m = m := by
    intro kind data name hinert
    change registerScanBelow before name (registerVisit before m name) = m
    rw [registerVisit_inert hinert, registerScanBelow_leaf hinert.2]
  rcases h with hspec | hdecl
  · cases hspec with
    | word w hsize _ => cases w <;> first | rfl | cases hsize
    | qualifier w hw => cases w <;> first | rfl | cases hw
    | struct _ _ _ _ => rfl
    | union _ _ _ _ _ => rfl
  · cases hdecl with
    | ident _ hinert => exact registerScanBelow_leaf hinert.2 m
    | pointer depth name hinert => exact hname 7 depth name hinert
    | array len _ name hinert => exact hname 8 len name hinert

/-- Nothing is below the nodes of a plain member. -/
theorem registerScanBelowAll_plain {children : List Node}
    (h : ∀ child ∈ children, PlainSpecifier before child ∨ PlainDeclarator child) (m : MemberScan) :
    registerScanBelowAll before children m = m := by
  induction children with
  | nil => rfl
  | cons child children ih =>
    rw [registerScanBelowAll, ih fun c hc => h c (List.mem_cons_of_mem child hc)]
    exact registerScanBelow_plain (h child List.mem_cons_self) m

end Below

theorem memberCells_plain (hdouble : folds.double = true) (hshaped : TagsShaped before)
    (hext : Extends before tags) {members : List Node}
    (h : ∀ member ∈ members, PlainMember before member) :
    fieldCells folds (registerFields before members none) = memberCells folds tags members := by
  induction members with
  | nil => rfl
  | cons member members ih =>
    have hrest := ih fun m hm => h m (List.mem_cons_of_mem member hm)
    cases h member List.mem_cons_self with
    | attributes children _ => exact hrest
    | declaration children hchildren =>
      have hscan := sameScan_start.scan hdouble hshaped hext hchildren
      have hregister : registerField before (.mk 25 0 "" children) none =
          ([(children.foldl (registerVisit before) .start).registeredType], none) := by
        have hbelow : registerScan before (.mk 25 0 "" children) =
            children.foldl (registerVisit before) .start :=
          registerScanBelowAll_plain hchildren _
        have hbits : (registerScan before (.mk 25 0 "" children)).bitfieldWidth = none := by
          rw [hbelow]
          exact hscan.noBitfield.2
        unfold registerField
        rw [if_neg (show (Node.mk 25 0 "" children).kind ≠ 200 from (by decide : 25 ≠ 200))]
        dsimp only
        rw [hbits, hbelow]
      have hcell : memberCell folds tags (.mk 25 0 "" children) =
          some (fieldScan folds tags children .start).cell := rfl
      rw [registerFields, hregister, memberCells, hcell, hscan.cell, ← hrest]
      rfl

end Scans

/-- A record of plain members matches its LLVM type from its registration on. -/
theorem membersMatch_of_plain {folds : Folds} {before tags : Tags} {d : Definition}
    (hdouble : folds.double = true) (hshaped : TagsShaped before) (hext : Extends before tags)
    (h : ∀ member ∈ d.members, PlainMember before member) (htag : d.tag ≠ "")
    (hreg : tags d.tag = some ⟨isPacked d.members, registerFields before d.members none⟩) :
    MembersMatch folds tags d := by
  refine ⟨fun _ => by rw [hreg]; exact nofun, _, (structInfoForSpec_of_tag htag hreg).1, rfl, ?_, ?_⟩
  · exact memberCells_plain hdouble hshaped hext h
  · exact fun _ => hdouble

section Registration

variable {before : Tags}

theorem not_definesTag_plain {node : Node} (h : PlainSpecifier before node ∨ PlainDeclarator node) :
    node.definesTag = false := by
  rcases h with hspec | hdecl
  · cases hspec with
    | word w _ _ => simp [Node.definesTag, w.not_isRecord]
    | qualifier w _ => simp [Node.definesTag, w.not_isRecord]
    | struct _ _ _ _ => simp [Node.definesTag, Node.children]
    | union _ _ _ _ _ => simp [Node.definesTag, Node.children]
  · cases hdecl with
    | ident node hinert => simp [Node.definesTag, hinert.2]
    | pointer _ _ _ => rfl
    | array _ _ _ _ => rfl

/-- A node below which nothing is registered. -/
structure Settles (node : Node) : Prop where
  register : ∀ tags, registerStructTypesInNode node tags = tags
  definesTag : node.definesTag = false

theorem registerChildren_settled {nodes : List Node} (h : ∀ node ∈ nodes, Settles node) (tags : Tags) :
    registerChildren nodes tags = tags := by
  induction nodes with
  | nil => rfl
  | cons node nodes ih =>
    have hnode := h node List.mem_cons_self
    rcases node with ⟨kind, data, text, members⟩
    rw [registerChildren, hnode.definesTag, Bool.false_and, if_neg Bool.false_ne_true, hnode.register]
    exact ih fun n hn => h n (List.mem_cons_of_mem _ hn)

theorem settles_of_children {node : Node} (hdef : node.definesTag = false)
    (h : ∀ child ∈ node.children, Settles child) : Settles node := by
  refine ⟨?_, hdef⟩
  intro tags
  rcases node with ⟨kind, data, text, children⟩
  exact registerChildren_settled h tags

theorem settles_leaf {node : Node} (h : node.children = []) : Settles node := by
  apply settles_of_children
  · simp [Node.definesTag, h]
  · rw [h]
    exact nofun

theorem settles_plain {node : Node} (h : PlainSpecifier before node ∨ PlainDeclarator node) :
    Settles node := by
  apply settles_of_children (not_definesTag_plain h)
  rcases h with hspec | hdecl
  · cases hspec with
    | word w hsize _ =>
      have hleaf : w.node.children = [] := by cases w <;> first | rfl | cases hsize
      rw [hleaf]
      exact nofun
    | qualifier w hw =>
      have hleaf : w.node.children = [] := by cases w <;> first | rfl | cases hw
      rw [hleaf]
      exact nofun
    | struct _ _ _ _ => exact nofun
    | union _ _ _ _ _ => exact nofun
  · cases hdecl with
    | ident node hinert =>
      rw [hinert.2]
      exact nofun
    | pointer _ name hinert =>
      intro child hchild
      cases List.mem_singleton.1 hchild
      exact settles_leaf hinert.2
    | array _ _ name hinert =>
      intro child hchild
      cases List.mem_singleton.1 hchild
      exact settles_leaf hinert.2

/-- A plain member defines no record. -/
theorem settles_member {member : Node} (h : PlainMember before member) :
    Settles member ∧ ∀ child ∈ member.children, Settles child := by
  have hchildren : ∀ child ∈ member.children, Settles child := by
    cases h with
    | declaration children h => exact fun child hchild => settles_plain (h child hchild)
    | attributes children h => exact fun child hchild => settles_leaf (h child hchild)
  refine ⟨settles_of_children ?_ hchildren, hchildren⟩
  cases h <;> rfl

theorem registerNested_settled {members : List Node}
    (h : ∀ member ∈ members, ∀ child ∈ member.children, Settles child) (tags : Tags) :
    registerNested members tags = tags := by
  induction members with
  | nil => rfl
  | cons member members ih =>
    have hmember := h member List.mem_cons_self
    rcases member with ⟨kind, data, text, children⟩
    have hnone : children.filter Node.definesTag = [] := by
      apply List.filter_eq_nil_iff.2
      intro child hchild
      rw [(hmember child hchild).definesTag]
      exact Bool.false_ne_true
    rw [registerNested, hnone]
    exact ih fun m hm => h m (List.mem_cons_of_mem _ hm)

variable {folds : Folds} {d : Definition}

/-- Registering a record of plain members whose tag is new adds its type. -/
theorem registerChildren_plain (h : ∀ member ∈ d.members, PlainMember before member)
    (htag : d.tag ≠ "") (hnew : before d.tag = none)
    (hfields : registerFields before d.members none ≠ []) :
    registerChildren [d.node] before =
      setTag before d.tag ⟨isPacked d.members, registerFields before d.members none⟩ := by
  have hdefines : d.node.definesTag = true := by
    have hne : d.node.children.isEmpty = false := by
      simpa [Definition.node, Node.children] using d.nonempty
    rw [Node.definesTag, d.isRecord_node, hne]
    simpa [Definition.node, Node.text] using htag
  have hnested := registerNested_settled (fun m hm => (settles_member (h m hm)).2) before
  have hbelow := registerChildren_settled fun m hm => (settles_member (h m hm)).1
  have hempty : (registerFields before d.members none).isEmpty = false := by
    simpa using hfields
  rw [Definition.node] at hdefines ⊢
  rw [registerChildren, registerStructTypesInNode, hbelow, hdefines, hnew, hnested, registerRecord,
    hempty]
  rfl

theorem extends_setTag {tag : String} (hnew : before tag = none) (st : StructType) :
    Extends before (setTag before tag st) := by
  intro name st' hst'
  have hne : name ≠ tag := by
    rintro rfl
    exact nomatch hnew.symm.trans hst'
  rw [setTag, if_neg hne, hst']

/-- From its registration on, the sizes of a record of plain members match, whatever comes
after it in the program. -/
theorem membersMatch_registered (hdouble : folds.double = true) (hshaped : TagsShaped before)
    (h : ∀ member ∈ d.members, PlainMember before member) (htag : d.tag ≠ "")
    (hnew : before d.tag = none) (hcount : 0 < d.fieldCount) {tags : Tags}
    (hext : Extends (registerChildren [d.node] before) tags) : MembersMatch folds tags d := by
  have hfields : registerFields before d.members none ≠ [] := by
    intro hnil
    have hcells := memberCells_plain hdouble hshaped (fun _ _ hst => hst) h
    rw [hnil] at hcells
    have hlen := @length_memberCells folds before d.members
    rw [← hcells] at hlen
    exact absurd hlen (Nat.ne_of_lt hcount)
  rw [registerChildren_plain h htag hnew hfields] at hext
  apply membersMatch_of_plain hdouble hshaped _ h htag
  · apply hext
    simp [setTag]
  · exact fun tag st hst => hext tag st (extends_setTag hnew _ tag st hst)

end Registration

end OpticC.Sizes
