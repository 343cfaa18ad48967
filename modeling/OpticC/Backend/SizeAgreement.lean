import OpticC.Backend.RecordLayouts

/-! The sizes of a type: what `sizeof` of its name gives, `sizeof` of an object, the size of a
record from its definition, from its tag and from its LLVM type, and the room that LLVM
allocates. -/

namespace OpticC.Sizes

open Layout

section TypeNames

/-- The words of the specifiers that are no record. `pointerAlias` is a typedef name for a
pointer type; one for another scalar type is the word of its kind. -/
inductive Word where
  | void | int | char | enum (constants : List (String × ℕ)) | short | long | signed | unsigned
  | bool | complex | vaList | float | double | pointerAlias | const | restrict | volatile

namespace Word

def kind : Word → ℕ
  | void => 1
  | int => 2
  | char => 3
  | enum _ => 6
  | pointerAlias => 7
  | short => 10
  | long => 11
  | signed => 12
  | unsigned => 13
  | bool => 14
  | complex => 15
  | vaList => 16
  | float => 83
  | double => 84
  | const => 90
  | restrict => 91
  | volatile => 92

def node : Word → Node
  | enum constants => .mk 6 0 "" (constants.map fun c => .mk 26 c.2 "" [.mk 60 0 c.1 []])
  | w => .mk w.kind 0 "" []

def isQualifier : Word → Bool
  | const | restrict | volatile => true
  | _ => false

/-- `_Bool`, an enumeration, `va_list` and a typedef name are types of their own. -/
def standsAlone : Word → Bool
  | bool | enum _ | vaList | pointerAlias => true
  | _ => false

/-- What stands beside `_Complex`. -/
def isReal : Word → Bool
  | float | double | long => true
  | _ => false

def isComplex : Word → Bool
  | complex => true
  | _ => false

def isEnum : Word → Bool
  | enum _ => true
  | _ => false

end Word

/-- The definition of a record: its members and attributes. -/
structure Definition where
  kind : ℕ
  tag : String
  members : List Node
  isRecord : kind = 4 ∨ kind = 5
  nonempty : members ≠ []

namespace Definition

def node (d : Definition) : Node := .mk d.kind 0 d.tag d.members

/-- The tag alone. -/
def tagNode (d : Definition) : Node := .mk d.kind 0 d.tag []

/-- The node that names the record. -/
def spec (d : Definition) (byTag : Bool) : Node := if byTag then d.tagNode else d.node

end Definition

/-- The specifiers of a type. A record is named by its definition or by its tag. -/
inductive Base where
  | scalar (words : List Word)
  | record (before : List Word) (d : Definition) (byTag : Bool) (after : List Word)

namespace Base

def nodes : Base → List Node
  | scalar words => words.map Word.node
  | record before d byTag after =>
    before.map Word.node ++ d.spec byTag :: after.map Word.node

/-- C takes the specifiers for a type. -/
def Valid : Base → Prop
  | scalar words =>
    (∀ w ∈ words, w.standsAlone → words.filter (fun w => !w.isQualifier) = [w]) ∧
      (words.any Word.isComplex → ∀ w ∈ words, w.isQualifier || w.isComplex || w.isReal)
  | record before d byTag after =>
    (∀ w ∈ before ++ after, w.isQualifier) ∧ (byTag = true → d.tag ≠ "")

/-- `is_type_specifier` of the first token. -/
def startsWithTypeSpecifier : Base → Bool
  | scalar (w :: _) | record (w :: _) _ _ _ => !w.isQualifier
  | scalar [] => false
  | record [] _ _ _ => true

end Base

/-- A type name. The declarator stands as in a declaration, around the name declared. -/
structure TypeName where
  base : Base
  declarator : Node
  valid : base.Valid

/-- There is no declarator but the name. -/
def TypeName.isBare (T : TypeName) : Bool := T.declarator.kind == 60

end TypeNames

section Sizeof

variable (folds : Folds) (tags : Tags)

/-- `parse_sizeof_expression` of a type name: the specifiers, if it ends with them. -/
def parseSizeofExpression (T : TypeName) : Option (List Node) :=
  if T.base.startsWithTypeSpecifier && T.isBare then some T.base.nodes else none

/-- `lower_sizeof_expr` of a type name. -/
def sizeofTypeName (T : TypeName) : Option ℕ :=
  (parseSizeofExpression T).map (sizeofFirst folds tags)

/-- `declarator_llvm_type`. -/
def declaratorLlvmType (declarator : Node) (base : BasicType) : BasicType :=
  match declarator.kind with
  | 7 => .ptr
  | 8 => .array base declarator.data
  | 9 => if declarator.children.any fun node => node.kind == 7 then .ptr else base
  | _ => base

/-- The kinds that `lower_var_decl` skips on its way to the specifier. -/
def isStorageOrQualifier (kind : ℕ) : Bool := 90 ≤ kind && kind ≤ 92 || 102 ≤ kind && kind ≤ 106

/-- The type that `lower_var_decl` takes from a specifier. -/
def localBaseType (spec : Node) : BasicType :=
  if spec.isRecord then
    match if spec.text ≠ "" then tags spec.text else none with
    | some st => st.asBasicType
    | none => if spec.children.isEmpty then .int 8 else buildStructLlvmType tags spec
  else basicTypeOfKind spec.kind

/-- The alloca of `T x;` in a block, or the global for it when it is static. -/
def blockType (T : TypeName) : BasicType :=
  let chain := T.base.nodes ++ [.mk 73 0 "" [T.declarator]]
  match chain.dropWhile fun node => isStorageOrQualifier node.kind with
  | spec :: _ => declaratorLlvmType T.declarator (localBaseType tags spec)
  | [] => declaratorLlvmType T.declarator (.int 32)

/-- The global of `T x;` at file scope. -/
def fileType (T : TypeName) : Option BasicType :=
  let specs := T.base.nodes
  let first := specs.takeWhile fun node =>
    isPlainSpecifier node.kind || 101 ≤ node.kind && node.kind ≤ 105
  if T.isBare && specs.any fun node => isPlainSpecifier node.kind then
    match first.find? fun node => isPlainSpecifier node.kind with
    | some spec => some (specifierToLlvmType tags spec)
    | none => some (basicTypeOfKind 2)
  else none

inductive Scope where
  | block
  | file

/-- The type of the room that a declaration of the type reserves, if it does. -/
def objectType (T : TypeName) : Scope → Option BasicType
  | .block => some (blockType tags T)
  | .file => fileType tags T

/-- `lower_sizeof_expr` of the object. A name that is not bound has size 4. -/
def sizeofObject (T : TypeName) (scope : Scope) : ℕ :=
  match objectType tags T scope with
  | some ty => llvmTypeSizeBytes folds ty
  | none => 4

/-- The record computations give the size, for one of the definitions that a type has. -/
structure RecordSizesAre (d : Definition) (n : ℕ) : Prop where
  definition : (astRecordSizeAlign folds tags d.node).map Cell.size = some n
  tag : d.tag ≠ "" → (astRecordSizeAlign folds tags d.tagNode).map Cell.size = some n
  llvm : ∀ st, structInfoForSpec tags d.node = some st →
    (astRecordSizeAlignFromLlvm folds st).size = n

/-- All sizes of the type are the same. -/
def SizesAgree (T : TypeName) : Prop :=
  ∃ n, sizeofTypeName folds tags T = some n ∧
    (∀ scope, sizeofObject folds tags T scope = n) ∧
    (∀ scope, (objectType tags T scope).map allocSize = some n) ∧
    (∀ before d byTag after, T.base = .record before d byTag after → RecordSizesAre folds tags d n)

end Sizeof

/-- `union U { char c; long l; }` with its tag registered. -/
def charOrLong : Definition where
  kind := 5
  tag := "U"
  members := [.mk 25 0 "" [.mk 3 0 "" [], .mk 60 0 "c" []], .mk 25 0 "" [.mk 11 0 "" [], .mk 60 0 "l" []]]
  isRecord := .inr rfl
  nonempty := List.cons_ne_nil _ _

def ofTag (d : Definition) (h : d.tag ≠ "") : TypeName where
  base := .record [] d true []
  declarator := .mk 60 0 "x" []
  valid := ⟨nofun, fun _ => h⟩

section Conditions

/-- The words of a type whose sizes agree: what a declaration reserves for the first word has
its size in `sizeof`, and the declaration at file scope finds a word that it knows. -/
def ScalarAgrees (folds : Folds) : List Word → Prop
  | .int :: _ | .char :: _ | .vaList :: _ => True
  | .float :: _ => folds.float = true
  | .signed :: rest | .unsigned :: rest => ∃ w ∈ rest, isPlainSpecifier w.kind
  | .complex :: rest => rest.find? Word.isReal = some .float
  | _ => False

/-- Each member of the record has the size and the alignment of a field of its LLVM type, and
the sizes of the doubles in it are known. -/
structure MembersMatch (folds : Folds) (tags : Tags) (d : Definition) : Prop where
  registered : d.tag ≠ "" → tags d.tag ≠ none
  fields : ∃ st, structInfoForSpec tags d.node = some st ∧ st.packed = isPacked d.members ∧
    fieldCells folds st.fields = memberCells folds tags d.members ∧
    (anyDouble st.fields = true → folds.double = true)

/-- The number of the members, attributes apart. -/
def Definition.fieldCount (d : Definition) : ℕ := d.members.countP fun member => member.kind != 200

namespace TypeName

def MembersMatch (folds : Folds) (tags : Tags) (T : TypeName) : Prop :=
  ∀ before d byTag after, T.base = .record before d byTag after → Sizes.MembersMatch folds tags d

/-- A type without a declarator, of words that agree, or a record that starts with its
specifier and is no union of several members. -/
def Agreeable (folds : Folds) (T : TypeName) : Prop :=
  T.isBare = true ∧
    match T.base with
    | .scalar words => ScalarAgrees folds words
    | .record before d _ _ => before = [] ∧ (d.kind = 4 ∨ d.fieldCount = 1)

end TypeName

end Conditions

section Scalars

variable {folds : Folds} {tags : Tags}

@[simp] theorem Word.kind_node (w : Word) : w.node.kind = w.kind := by cases w <;> rfl

theorem Word.not_isRecord (w : Word) : w.node.isRecord = false := by cases w <;> rfl

theorem Word.isStorageOrQualifier (w : Word) :
    Sizes.isStorageOrQualifier w.kind = w.isQualifier := by cases w <;> rfl

theorem declaratorLlvmType_bare {T : TypeName} (h : T.isBare = true) (base : BasicType) :
    declaratorLlvmType T.declarator base = base := by
  have hkind : T.declarator.kind = 60 := eq_of_beq h
  simp only [declaratorLlvmType, hkind]

/-- In a block the first word says the type. -/
theorem blockType_scalar {T : TypeName} {w : Word} {rest : List Word}
    (hbase : T.base = .scalar (w :: rest)) (hw : w.isQualifier = false) (hbare : T.isBare = true) :
    blockType tags T = basicTypeOfKind w.kind := by
  have hspec : Sizes.isStorageOrQualifier w.node.kind = false := by
    rw [w.kind_node, w.isStorageOrQualifier, hw]
  unfold blockType
  rw [hbase]
  simp only [Base.nodes, List.map_cons, List.cons_append, List.dropWhile_cons, hspec,
    Bool.false_eq_true, if_false]
  rw [declaratorLlvmType_bare hbare]
  simp [localBaseType, w.not_isRecord]

theorem Word.not_skipped (w : Word) : (101 ≤ w.kind && w.kind ≤ 105) = false := by cases w <;> rfl

theorem specifierToLlvmType_word (w : Word) :
    specifierToLlvmType tags w.node = basicTypeOfKind w.kind := by
  cases w <;> rfl

/-- At file scope it does if the declaration knows it; else the type is `int`, as long as a
later word is known. -/
theorem fileType_scalar {T : TypeName} {w : Word} {rest : List Word}
    (hbase : T.base = .scalar (w :: rest)) (hbare : T.isBare = true) :
    fileType tags T =
      if isPlainSpecifier w.kind then some (basicTypeOfKind w.kind)
      else if ∃ v ∈ rest, isPlainSpecifier v.kind then some (.int 32) else none := by
  unfold fileType
  rw [hbase]
  by_cases hw : isPlainSpecifier w.kind = true
  · simp [Base.nodes, hbare, hw, specifierToLlvmType_word]
  · simp [Base.nodes, hbare, hw, w.not_skipped]
    rfl

/-- The size that `sizeof` has for a word. It goes on to the next word when it has none. -/
def Word.size : Word → Option ℕ
  | void => some 0
  | int | signed | unsigned | float => some 4
  | char | bool => some 1
  | short => some 2
  | long | double => some 8
  | _ => none

theorem sizeofFirst_sized {w : Word} {n : ℕ} (h : w.size = some n) (rest : List Word) :
    sizeofFirst folds tags ((w :: rest).map Word.node) = n := by
  cases rest <;> cases w <;> cases h <;> rfl

theorem sizeofFirst_enum (constants : List (String × ℕ)) {rest : List Word}
    (h : constants = [] → sizeofFirst folds tags (rest.map Word.node) = 8 ∨ rest = []) :
    sizeofFirst folds tags ((Word.enum constants :: rest).map Word.node) = 8 := by
  rcases constants with _ | ⟨c, constants⟩
  · rcases rest with _ | ⟨v, rest⟩
    · rfl
    · obtain hrest | hrest := h rfl
      · have hstep : sizeofFirst folds tags ((Word.enum [] :: v :: rest).map Word.node) =
            if sizeofFirst folds tags ((v :: rest).map Word.node) ≠ 0 then
              sizeofFirst folds tags ((v :: rest).map Word.node) else 8 := rfl
        rw [hstep, hrest]
        rfl
      · cases hrest
  · cases constants <;> cases rest <;> rfl

/-- A word without a size, an enumeration apart. -/
theorem sizeofFirst_unsized {w : Word} (h : w.size = none) (henum : w.isEnum = false)
    (rest : List Word) : sizeofFirst folds tags ((w :: rest).map Word.node) =
      if rest = [] ∨ sizeofFirst folds tags (rest.map Word.node) = 0 then 8
      else sizeofFirst folds tags (rest.map Word.node) := by
  have hstep : ∀ v rest', sizeofFirst folds tags ((w :: v :: rest').map Word.node) =
      if sizeofFirst folds tags ((v :: rest').map Word.node) ≠ 0 then
        sizeofFirst folds tags ((v :: rest').map Word.node) else 8 := by
    intro v rest'
    cases w <;> first | rfl | (cases h; done) | cases henum
  rcases rest with _ | ⟨v, rest⟩
  · cases w <;> first | rfl | (cases h; done) | cases henum
  · rw [hstep]
    simp

/-- Qualifiers alone come to 8. -/
theorem sizeofFirst_qualifiers {words : List Word} (hne : words ≠ [])
    (h : ∀ w ∈ words, w.isQualifier = true) : sizeofFirst folds tags (words.map Word.node) = 8 := by
  induction words with
  | nil => exact absurd rfl hne
  | cons w rest ih =>
    have hw := h w List.mem_cons_self
    have hsize : w.size = none := by cases w <;> first | rfl | cases hw
    have henum : w.isEnum = false := by cases w <;> first | rfl | cases hw
    rw [sizeofFirst_unsized hsize henum]
    by_cases hrest : rest = []
    · simp [hrest]
    · rw [ih hrest fun v hv => h v (List.mem_cons_of_mem w hv)]
      simp

/-- Beside `_Complex`, `sizeof` goes by the first word of a real type. -/
theorem sizeofFirst_floating {words : List Word} (hne : words ≠ [])
    (h : ∀ w ∈ words, w.isQualifier || w.isComplex || w.isReal) :
    sizeofFirst folds tags (words.map Word.node) = ((words.find? Word.isReal).bind Word.size).getD 8 := by
  induction words with
  | nil => exact absurd rfl hne
  | cons w rest ih =>
    have hw := h w List.mem_cons_self
    have hrest := fun v hv => h v (List.mem_cons_of_mem w hv)
    cases hreal : w.isReal with
    | true =>
      have hsize : w.size = some (w.size.getD 8) := by cases w <;> first | rfl | cases hreal
      rw [sizeofFirst_sized hsize, List.find?_cons_of_pos hreal]
      rfl
    | false =>
      have hsize : w.size = none := by
        cases w <;> first | rfl | (cases hreal; done) | cases hw
      have henum : w.isEnum = false := by cases w <;> first | rfl | cases hw
      rw [sizeofFirst_unsized hsize henum, List.find?_cons_of_neg (by simp [hreal])]
      by_cases hnil : rest = []
      · simp [hnil]
      · rw [ih hnil hrest]
        rcases hfind : rest.find? Word.isReal with _ | v
        · simp [hnil]
        · have hv := List.find?_some hfind
          have hpos : v.size.getD 8 ≠ 0 := by
            cases v <;> first | decide | cases hv
          simp [hnil, hpos]

theorem sizeofTypeName_scalar {T : TypeName} {w : Word} {rest : List Word}
    (hbase : T.base = .scalar (w :: rest)) (hw : w.isQualifier = false) (hbare : T.isBare = true) :
    sizeofTypeName folds tags T = some (sizeofFirst folds tags ((w :: rest).map Word.node)) := by
  unfold sizeofTypeName parseSizeofExpression
  rw [hbase]
  simp [Base.startsWithTypeSpecifier, Base.nodes, hw, hbare]

/-- Without a record there are four sizes: that of the words, and for an object in a block and
at file scope each that of its type. -/
theorem sizesAgree_scalar_iff {T : TypeName} {w : Word} {rest : List Word}
    (hbase : T.base = .scalar (w :: rest)) (hw : w.isQualifier = false) (hbare : T.isBare = true) :
    SizesAgree folds tags T ↔
      let n := sizeofFirst folds tags ((w :: rest).map Word.node)
      (llvmTypeSizeBytes folds (basicTypeOfKind w.kind) = n ∧ allocSize (basicTypeOfKind w.kind) = n) ∧
        ∃ ty, fileType tags T = some ty ∧ llvmTypeSizeBytes folds ty = n ∧ allocSize ty = n := by
  have hblock : blockType tags T = basicTypeOfKind w.kind := blockType_scalar hbase hw hbare
  constructor
  · rintro ⟨n, hn, hobj, halloc, -⟩
    cases (sizeofTypeName_scalar hbase hw hbare).symm.trans hn
    have hb := hobj .block
    have ha := halloc .block
    simp only [sizeofObject, objectType, hblock, Option.map_some, Option.some.injEq] at hb ha
    refine ⟨⟨hb, ha⟩, ?_⟩
    have hf := hobj .file
    have hfa := halloc .file
    obtain ⟨ty, hty, hsize⟩ := Option.map_eq_some_iff.1 hfa
    simp only [sizeofObject] at hf
    rw [hty] at hf
    exact ⟨ty, hty, hf, hsize⟩
  · rintro ⟨⟨hb, ha⟩, ty, hty, hf, hfa⟩
    refine ⟨_, sizeofTypeName_scalar hbase hw hbare, ?_, ?_, ?_⟩
    · rintro (_ | _)
      · simpa only [sizeofObject, objectType, hblock] using hb
      · simpa only [sizeofObject, objectType, hty] using hf
    · rintro (_ | _)
      · simpa only [objectType, hblock, Option.map_some, Option.some.injEq] using ha
      · simpa only [objectType, hty, Option.map_some, Option.some.injEq] using hfa
    · rw [hbase]
      nofun

/-- A word that both declarations take for the type. -/
theorem sizesAgree_plain_iff {T : TypeName} {w : Word} {rest : List Word}
    (hbase : T.base = .scalar (w :: rest)) (hw : w.isQualifier = false) (hbare : T.isBare = true)
    (hplain : isPlainSpecifier w.kind = true) :
    SizesAgree folds tags T ↔
      llvmTypeSizeBytes folds (basicTypeOfKind w.kind) =
          sizeofFirst folds tags ((w :: rest).map Word.node) ∧
        allocSize (basicTypeOfKind w.kind) = sizeofFirst folds tags ((w :: rest).map Word.node) := by
  rw [sizesAgree_scalar_iff hbase hw hbare, fileType_scalar hbase hbare, if_pos hplain]
  constructor
  · rintro ⟨h, -⟩
    exact h
  · intro h
    exact ⟨h, _, rfl, h⟩

/-- A word that the declaration at file scope does not know. -/
theorem sizesAgree_other_iff {T : TypeName} {w : Word} {rest : List Word}
    (hbase : T.base = .scalar (w :: rest)) (hw : w.isQualifier = false) (hbare : T.isBare = true)
    (hplain : isPlainSpecifier w.kind = false) (hkind : basicTypeOfKind w.kind = .int 32) :
    SizesAgree folds tags T ↔
      sizeofFirst folds tags ((w :: rest).map Word.node) = 4 ∧ ∃ v ∈ rest, isPlainSpecifier v.kind := by
  rw [sizesAgree_scalar_iff hbase hw hbare, fileType_scalar hbase hbare, hplain, hkind,
    if_neg Bool.false_ne_true]
  have hint : llvmTypeSizeBytes folds (.int 32) = 4 := rfl
  have halloc : allocSize (.int 32) = 4 := rfl
  dsimp only
  rw [hint, halloc]
  constructor
  · rintro ⟨⟨h, -⟩, ty, hty, -⟩
    refine ⟨h.symm, ?_⟩
    split_ifs at hty with hrest
    exact hrest
  · rintro ⟨h, hrest⟩
    rw [h]
    exact ⟨⟨rfl, rfl⟩, .int 32, by simp [hrest], hint, halloc⟩

/-- A word of another size than `int` that the declaration at file scope does not know. -/
theorem not_sizesAgree_other {T : TypeName} {w : Word} {rest : List Word}
    (hbase : T.base = .scalar (w :: rest)) (hw : w.isQualifier = false) (hbare : T.isBare = true)
    (hplain : isPlainSpecifier w.kind = false) (hkind : allocSize (basicTypeOfKind w.kind) ≠ 4) :
    ¬ SizesAgree folds tags T := by
  rw [sizesAgree_scalar_iff hbase hw hbare, fileType_scalar hbase hbare, hplain,
    if_neg Bool.false_ne_true]
  rintro ⟨⟨-, halloc⟩, ty, hty, -, hfile⟩
  split_ifs at hty
  cases hty
  exact hkind (halloc.trans hfile.symm)

theorem not_sizesAgree_qualifier {T : TypeName} (hstart : T.base.startsWithTypeSpecifier = false) :
    ¬ SizesAgree folds tags T := by
  rintro ⟨n, hn, -⟩
  simp [sizeofTypeName, parseSizeofExpression, hstart] at hn

/-- `sizeof` of a type name with a declarator does not parse. -/
theorem not_sizesAgree_declarator {T : TypeName} (hbare : T.isBare = false) :
    ¬ SizesAgree folds tags T := by
  rintro ⟨n, hn, -⟩
  simp [sizeofTypeName, parseSizeofExpression, hbare] at hn

/-- What is left of the words beside one that stands alone. -/
theorem isQualifier_of_standsAlone {T : TypeName} {w : Word} {rest : List Word}
    (hbase : T.base = .scalar (w :: rest)) (hw : w.standsAlone = true) (hq : w.isQualifier = false) :
    ∀ v ∈ rest, v.isQualifier = true := by
  have hvalid := T.valid
  rw [hbase] at hvalid
  have halone := hvalid.1 w List.mem_cons_self hw
  rw [List.filter_cons_of_pos (by simp [hq])] at halone
  have hnil := List.cons_eq_cons.1 halone
  intro v hv
  have := List.filter_eq_nil_iff.1 hnil.2 v hv
  simpa using this

/-- Of the real types only `float` is as large as the `int` that stands for `_Complex`. -/
theorem complex_iff (rest : List Word) :
    ((rest.find? Word.isReal).bind Word.size).getD 8 = 4 ∧ (∃ v ∈ rest, isPlainSpecifier v.kind) ↔
      rest.find? Word.isReal = some .float := by
  constructor
  · rintro ⟨hsize, -⟩
    rcases hfind : rest.find? Word.isReal with _ | v
    · rw [hfind] at hsize
      exact absurd hsize (by decide)
    · rw [hfind] at hsize
      have hreal := List.find?_some hfind
      cases v <;> first | rfl | (cases hreal; done) | exact absurd hsize (by decide)
  · intro hfind
    rw [hfind]
    exact ⟨rfl, .float, List.mem_of_find?_eq_some hfind, rfl⟩

/-- The sizes of a type without a record agree just for the words listed. -/
theorem sizesAgree_iff_scalarAgrees {T : TypeName} {words : List Word}
    (hbase : T.base = .scalar words) (hbare : T.isBare = true) :
    SizesAgree folds tags T ↔ ScalarAgrees folds words := by
  rcases words with _ | ⟨w, rest⟩
  · exact iff_of_false (not_sizesAgree_qualifier (by rw [hbase]; rfl)) id
  cases w
  case int =>
    rw [sizesAgree_plain_iff hbase rfl hbare rfl, sizeofFirst_sized rfl]
    exact iff_of_true ⟨rfl, rfl⟩ trivial
  case char =>
    rw [sizesAgree_plain_iff hbase rfl hbare rfl, sizeofFirst_sized rfl]
    exact iff_of_true ⟨rfl, rfl⟩ trivial
  case float =>
    rw [sizesAgree_plain_iff hbase rfl hbare rfl, sizeofFirst_sized rfl]
    rcases folds with ⟨_ | _, _⟩
    · exact iff_of_false (fun h => absurd (show 8 = 4 from h.1) (by decide)) Bool.false_ne_true
    · exact iff_of_true ⟨rfl, rfl⟩ rfl
  case void =>
    rw [sizesAgree_plain_iff hbase rfl hbare rfl, sizeofFirst_sized rfl]
    exact iff_of_false (fun h => absurd h.2 (by decide)) id
  case vaList =>
    have hrest := isQualifier_of_standsAlone hbase rfl rfl
    have hsize : sizeofFirst folds tags ((Word.vaList :: rest).map Word.node) = 8 := by
      rw [sizeofFirst_unsized rfl rfl]
      by_cases hnil : rest = []
      · simp [hnil]
      · simp [sizeofFirst_qualifiers hnil hrest]
    rw [sizesAgree_plain_iff hbase rfl hbare rfl, hsize]
    exact iff_of_true ⟨rfl, rfl⟩ trivial
  case enum constants =>
    have hrest := isQualifier_of_standsAlone hbase rfl rfl
    have hsize : sizeofFirst folds tags ((Word.enum constants :: rest).map Word.node) = 8 := by
      apply sizeofFirst_enum
      intro _
      by_cases hnil : rest = []
      · exact .inr hnil
      · exact .inl (sizeofFirst_qualifiers hnil hrest)
    rw [sizesAgree_plain_iff hbase rfl hbare rfl, hsize]
    exact iff_of_false (fun h => absurd (show 4 = 8 from h.2) (by decide)) id
  case signed =>
    rw [sizesAgree_other_iff hbase rfl hbare rfl rfl, sizeofFirst_sized rfl]
    exact and_iff_right rfl
  case unsigned =>
    rw [sizesAgree_other_iff hbase rfl hbare rfl rfl, sizeofFirst_sized rfl]
    exact and_iff_right rfl
  case bool =>
    rw [sizesAgree_other_iff hbase rfl hbare rfl rfl, sizeofFirst_sized rfl]
    exact iff_of_false (fun h => absurd h.1 (by decide)) id
  case complex =>
    have hvalid := T.valid
    rw [hbase] at hvalid
    have hwords := hvalid.2 (by simp [Word.isComplex])
    rw [sizesAgree_other_iff hbase rfl hbare rfl rfl, sizeofFirst_floating (List.cons_ne_nil _ _) hwords,
      List.find?_cons_of_neg (by decide)]
    exact complex_iff rest
  case short => exact iff_of_false (not_sizesAgree_other hbase rfl hbare rfl (by decide)) id
  case long => exact iff_of_false (not_sizesAgree_other hbase rfl hbare rfl (by decide)) id
  case double => exact iff_of_false (not_sizesAgree_other hbase rfl hbare rfl (by decide)) id
  case pointerAlias => exact iff_of_false (not_sizesAgree_other hbase rfl hbare rfl (by decide)) id
  all_goals exact iff_of_false (not_sizesAgree_qualifier (by rw [hbase]; rfl)) id

end Scalars

section Records

variable {folds : Folds} {tags : Tags} {d : Definition} {st : StructType}

@[simp] theorem length_memberCells (members : List Node) :
    (memberCells folds tags members).length = members.countP fun member => member.kind != 200 := by
  induction members with
  | nil => rfl
  | cons member members ih =>
    rcases member with ⟨kind, data, text, children⟩
    by_cases hkind : kind = 200
    · simp [memberCells, memberCell, hkind, ih, Node.kind]
    · simp [memberCells, memberCell, hkind, ih, Node.kind, Nat.add_comm]

theorem Definition.isRecord_node (d : Definition) : d.node.isRecord = true := by
  rcases d.isRecord with h | h <;> simp [Definition.node, Node.isRecord, Node.kind, h]

theorem Definition.isRecord_tagNode (d : Definition) : d.tagNode.isRecord = true := d.isRecord_node

theorem structInfoForSpec_record {node : Node} (h : node.isRecord = true) :
    structInfoForSpec tags node = structInfo tags node.text (buildStructLlvmType tags node) := by
  have hkind : node.kind ≠ 60 := by
    rintro h60
    simp [Node.isRecord, h60] at h
  simp [structInfoForSpec, hkind, h]

/-- The type of the definition is that of its tag when this is registered. -/
theorem structInfoForSpec_of_tag (htag : d.tag ≠ "") (hst : tags d.tag = some st) :
    structInfoForSpec tags d.node = some st ∧ structInfoForSpec tags d.tagNode = some st := by
  constructor
  · rw [structInfoForSpec_record d.isRecord_node]
    simp [structInfo, Definition.node, Node.text, htag, hst]
  · rw [structInfoForSpec_record d.isRecord_tagNode]
    simp [structInfo, Definition.tagNode, Node.text, htag, hst]

/-- Both declarations of a record take its struct type. -/
theorem localBaseType_record {node : Node} (h : node.isRecord = true)
    (hst : structInfoForSpec tags node = some st) : localBaseType tags node = st.asBasicType := by
  rw [structInfoForSpec_record h, structInfo] at hst
  unfold localBaseType
  rw [if_pos h]
  rcases htag : (if node.text ≠ "" then tags node.text else none) with _ | st'
  · rw [htag, Option.none_or] at hst
    have hbuilt : buildStructLlvmType tags node = st.asBasicType := by
      rcases hb : buildStructLlvmType tags node with _ | _ | _ | _ | _ | ⟨packed, fields⟩
      all_goals
        rw [hb] at hst
        cases hst
      rfl
    have hchildren : node.children.isEmpty = false := by
      rcases hc : node.children with _ | _
      · rw [buildStructLlvmType, hc] at hbuilt
        cases hbuilt
      · rfl
    simp [hchildren, hbuilt]
  · rw [htag] at hst
    cases hst
    rfl

theorem specifierToLlvmType_record {node : Node} (h : node.isRecord = true)
    (hst : structInfoForSpec tags node = some st) :
    specifierToLlvmType tags node = st.asBasicType := by
  rw [structInfoForSpec_record h] at hst
  simp [specifierToLlvmType, h, recordSpecifierType, hst]

theorem Definition.isRecord_spec (d : Definition) (byTag : Bool) : (d.spec byTag).isRecord = true := by
  cases byTag with
  | true => exact d.isRecord_tagNode
  | false => exact d.isRecord_node

theorem not_skipped_record {node : Node} (h : node.isRecord = true) :
    isStorageOrQualifier node.kind = false ∧ isPlainSpecifier node.kind = true := by
  rcases Bool.or_eq_true_iff.1 h with hkind | hkind <;> rw [eq_of_beq hkind] <;> exact ⟨rfl, rfl⟩

variable {T : TypeName} {byTag : Bool} {after : List Word}

theorem blockType_record (hbase : T.base = .record [] d byTag after) (hbare : T.isBare = true)
    (hst : structInfoForSpec tags (d.spec byTag) = some st) : blockType tags T = st.asBasicType := by
  have hspec := d.isRecord_spec byTag
  unfold blockType
  rw [hbase]
  simp only [Base.nodes, List.map_nil, List.nil_append, List.cons_append, List.dropWhile_cons,
    (not_skipped_record hspec).1, Bool.false_eq_true, if_false]
  rw [declaratorLlvmType_bare hbare, localBaseType_record hspec hst]

theorem fileType_record (hbase : T.base = .record [] d byTag after) (hbare : T.isBare = true)
    (hst : structInfoForSpec tags (d.spec byTag) = some st) :
    fileType tags T = some st.asBasicType := by
  have hspec := d.isRecord_spec byTag
  unfold fileType
  rw [hbase]
  simp only [Base.nodes, List.map_nil, List.nil_append, List.takeWhile_cons, List.any_cons,
    (not_skipped_record hspec).2, Bool.true_or, if_true, List.find?_cons, hbare,
    Bool.and_self, specifierToLlvmType_record hspec hst]

theorem sizeofTypeName_record (hbase : T.base = .record [] d byTag after) (hbare : T.isBare = true) :
    sizeofTypeName folds tags T = (astRecordSizeAlign folds tags (d.spec byTag)).map Cell.size := by
  have hspec := d.isRecord_spec byTag
  have hsize : ∀ next, sizeofTypeFromAst folds tags (d.spec byTag) next =
      ((astRecordSizeAlign folds tags (d.spec byTag)).map Cell.size).getD 0 := by
    intro next
    rcases hnode : d.spec byTag with ⟨kind, data, text, children⟩
    rw [hnode] at hspec
    rcases Bool.or_eq_true_iff.1 hspec with hkind | hkind
    all_goals
      have hkind' := eq_of_beq hkind
      dsimp only [Node.kind] at hkind'
      rw [hkind', sizeofTypeFromAst]
  have hsome : (astRecordSizeAlign folds tags (d.spec byTag)).map Cell.size =
      some (((astRecordSizeAlign folds tags (d.spec byTag)).map Cell.size).getD 0) := by
    rw [astRecordSizeAlign, if_pos hspec]
    rfl
  unfold sizeofTypeName parseSizeofExpression
  rw [hbase, hsome]
  simp only [Base.startsWithTypeSpecifier, hbare, Bool.and_self, if_true, Option.map_some,
    Base.nodes, List.map_nil, List.nil_append]
  cases after with
  | nil => exact congrArg some (hsize _)
  | cons w after => exact congrArg some (hsize _)

/-- The two sizes that are taken from a definition and from its tag. -/
theorem astRecordSizeAlign_node (d : Definition) :
    astRecordSizeAlign folds tags d.node =
      some (sizeAlignOf (d.kind == 5) (isPacked d.members) (memberCells folds tags d.members)) := by
  have hne : d.members.isEmpty = false := by
    rcases hm : d.members with _ | _
    · exact absurd hm d.nonempty
    · rfl
  rw [astRecordSizeAlign, if_pos d.isRecord_node]
  simp [recordSizeAlign, Definition.node, Node.kind, Node.children, hne]

theorem astRecordSizeAlign_tagNode (htag : d.tag ≠ "") (hst : tags d.tag = some st)
    (hne : st.fields ≠ []) :
    astRecordSizeAlign folds tags d.tagNode =
      some (sizeAlignOf (d.kind == 5) st.packed (fieldCells folds st.fields)) := by
  rw [astRecordSizeAlign, if_pos d.isRecord_tagNode]
  simp [recordSizeAlign, Definition.tagNode, Node.kind, Node.text, Node.children, htag, hst, hne]

/-- The size of a record as the declarations have it is that of its LLVM type for a struct, and
for a union just when it has one member. -/
theorem size_eq_struct_iff {cells : List Cell} (hproper : ∀ c ∈ cells, c.Proper) (hne : cells ≠ [])
    (packed : Bool) : (sizeAlignOf (d.kind == 5) packed cells).size =
      (sizeAlignOf false packed cells).size ↔ d.kind = 4 ∨ cells.length = 1 := by
  rcases d.isRecord with hkind | hkind
  · rw [hkind]
    exact iff_of_true rfl (.inl rfl)
  · rw [hkind]
    refine (size_union_eq_struct_iff hproper hne).trans (or_iff_right ?_).symm
    decide

/-- What the matching members of a record come to: one struct type, one list of cells. -/
structure Settled (folds : Folds) (tags : Tags) (d : Definition) (st : StructType) : Prop where
  shaped : st.Shaped
  doubles : anyDouble st.fields = true → folds.double = true
  info : structInfoForSpec tags d.node = some st
  registered : d.tag ≠ "" → tags d.tag = some st
  node : astRecordSizeAlign folds tags d.node =
    some (sizeAlignOf (d.kind == 5) st.packed (allocCells st.fields))
  length : (allocCells st.fields).length = d.fieldCount

theorem MembersMatch.settled (h : MembersMatch folds tags d) (hshaped : TagsShaped tags) :
    ∃ st, Settled folds tags d st := by
  obtain ⟨st, hst, hpacked, hcells, hdouble⟩ := h.fields
  have hstShaped : st.Shaped := by
    rw [structInfoForSpec_record d.isRecord_node] at hst
    exact structInfo_shaped hshaped (buildFields_shaped hshaped d.members none) hst
  have halloc := fieldCells_eq st.fields hstShaped.2 hdouble
  refine ⟨st, hstShaped, hdouble, hst, ?_, ?_, ?_⟩
  · intro htag
    obtain ⟨st', hst'⟩ := Option.ne_none_iff_exists'.1 (h.registered htag)
    cases hst.symm.trans (structInfoForSpec_of_tag htag hst').1
    exact hst'
  · rw [astRecordSizeAlign_node, ← hpacked, ← hcells, halloc]
  · rw [← halloc, hcells, length_memberCells, Definition.fieldCount]

namespace Settled

variable (h : Settled folds tags d st)

include h

theorem tagNode (htag : d.tag ≠ "") : astRecordSizeAlign folds tags d.tagNode =
    some (sizeAlignOf (d.kind == 5) st.packed (allocCells st.fields)) := by
  rw [astRecordSizeAlign_tagNode htag (h.registered htag) h.shaped.1,
    fieldCells_eq st.fields h.shaped.2 h.doubles]

/-- The record as it is named in a type name. -/
theorem spec (hvalid : byTag = true → d.tag ≠ "") :
    structInfoForSpec tags (d.spec byTag) = some st ∧ astRecordSizeAlign folds tags (d.spec byTag) =
      some (sizeAlignOf (d.kind == 5) st.packed (allocCells st.fields)) := by
  cases byTag with
  | true =>
    have htag := hvalid rfl
    exact ⟨(structInfoForSpec_of_tag htag (h.registered htag)).2, h.tagNode htag⟩
  | false => exact ⟨h.info, h.node⟩

theorem llvm : (astRecordSizeAlignFromLlvm folds st).size =
    (sizeAlignOf false st.packed (allocCells st.fields)).size := by
  rw [astRecordSizeAlignFromLlvm, fieldCells_eq st.fields h.shaped.2 h.doubles]

theorem alloc : allocSize st.asBasicType =
    (sizeAlignOf false st.packed (allocCells st.fields)).size := by
  rw [sizeAlignOf_allocCells st.packed h.shaped.2]
  rfl

end Settled

/-- Where the members match the fields only the difference of struct and union is left. -/
theorem sizesAgree_record_iff (hshaped : TagsShaped tags) (hmatch : MembersMatch folds tags d)
    (hbase : T.base = .record [] d byTag after) (hbare : T.isBare = true) :
    SizesAgree folds tags T ↔ d.kind = 4 ∨ d.fieldCount = 1 := by
  obtain ⟨st, h⟩ := hmatch.settled hshaped
  have hvalid := T.valid
  rw [hbase] at hvalid
  obtain ⟨hinfo, hsize⟩ := h.spec hvalid.2
  have htype : ∀ scope, objectType tags T scope = some st.asBasicType := by
    rintro (_ | _)
    · exact congrArg some (blockType_record hbase hbare hinfo)
    · exact fileType_record hbase hbare hinfo
  have hobject : ∀ scope, sizeofObject folds tags T scope =
      (sizeAlignOf false st.packed (allocCells st.fields)).size := by
    intro scope
    rw [sizeofObject, htype]
    exact h.llvm
  have hname : sizeofTypeName folds tags T =
      some (sizeAlignOf (d.kind == 5) st.packed (allocCells st.fields)).size := by
    rw [sizeofTypeName_record hbase hbare, hsize]
    rfl
  rw [← h.length, ← size_eq_struct_iff (allocCells_proper st.fields h.shaped.2)
    (allocCells_ne_nil h.shaped.1) st.packed]
  constructor
  · rintro ⟨n, hn, hobj, -⟩
    cases hname.symm.trans hn
    exact (hobj .block).symm.trans (hobject .block)
  · intro heq
    refine ⟨_, hname, ?_, ?_, ?_⟩
    · intro scope
      rw [hobject, heq]
    · intro scope
      rw [htype, Option.map_some, h.alloc, heq]
    · intro before d' byTag' after' hbase'
      cases hbase.symm.trans hbase'
      refine ⟨by rw [h.node]; rfl, fun htag => by rw [h.tagNode htag]; rfl, ?_⟩
      intro st' hst'
      cases h.info.symm.trans hst'
      rw [h.llvm, heq]

theorem not_sizesAgree_qualified {w : Word} {before : List Word}
    (hbase : T.base = .record (w :: before) d byTag after) : ¬ SizesAgree folds tags T := by
  have hvalid := T.valid
  rw [hbase] at hvalid
  have hw := hvalid.1 w List.mem_cons_self
  apply not_sizesAgree_qualifier
  rw [hbase, Base.startsWithTypeSpecifier, hw]
  rfl

end Records

/-- `struct S { char c; int i; }`. -/
def charAndInt : Definition where
  kind := 4
  tag := "S"
  members := [.mk 25 0 "" [.mk 3 0 "" [], .mk 60 0 "c" []], .mk 25 0 "" [.mk 2 0 "" [], .mk 60 0 "i" []]]
  isRecord := .inl rfl
  nonempty := List.cons_ne_nil _ _

theorem membersMatch_charAndInt : (ofTag charAndInt (by decide)).MembersMatch ⟨true, true⟩
    (registerTranslationUnit [.mk 20 0 "" [charAndInt.node]]) := by
  rintro before d byTag after ⟨⟩
  refine ⟨fun _ => by decide, ⟨false, [.int 8, .int 32]⟩, rfl, rfl, by decide, by decide⟩

end OpticC.Sizes
