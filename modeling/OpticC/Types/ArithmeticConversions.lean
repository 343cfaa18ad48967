import Mathlib.Logic.Relation
import OpticC.Types.TypeSystem

/-! The usual arithmetic conversions. C promotes every type below `int` and every enumeration to
`int`; `integer_promotion` makes `unsigned int` of `unsigned short` and leaves an enumeration as
it is, which then counts as unsigned and of the rank of `int`. -/

namespace OpticC.Types

open StructLayout (Overflow)

section CTypes

/-! The common type of C, `int` with four bytes, `long` and `long long` with eight. -/

namespace CType

def IsArithmetic : CType → Prop
  | bool | char _ | short _ | int _ | long _ | longLong _ | float | double | longDouble => True
  | enum .. => True
  | _ => False

def floating : CType → Bool
  | float | double | longDouble => true
  | _ => false

/-- The types of a rank below that of `int`, and enumerations, have all their values in `int`. -/
def promoted : CType → CType
  | bool | char _ | short _ | enum .. => int true
  | ty => ty

def signed : CType → Bool
  | int signed | long signed | longLong signed => signed
  | _ => false

def rank : CType → ℕ
  | int _ => 1
  | long _ => 2
  | longLong _ => 3
  | _ => 0

def bytes : CType → ℕ
  | int _ => 4
  | long _ | longLong _ => 8
  | _ => 0

def toUnsigned : CType → CType
  | int _ => int false
  | long _ => long false
  | longLong _ => longLong false
  | ty => ty

/-- The common type of two promoted integer types. -/
def commonInteger (p q : CType) : CType :=
  if p = q then p
  else if p.signed = q.signed then if p.rank ≥ q.rank then p else q
  else
    let s := if p.signed then p else q
    let u := if p.signed then q else p
    if u.rank ≥ s.rank then u
    else if s.bytes > u.bytes then s
    else s.toUnsigned

def common (a b : CType) : CType :=
  if a = longDouble ∨ b = longDouble then longDouble
  else if a = double ∨ b = double then double
  else if a = float ∨ b = float then float
  else commonInteger a.promoted b.promoted

end CType

end CTypes

namespace TypeSystem

section Definitions

variable (o : Overflow) (T : TypeSystem)

/-- `id` is a typedef of `base`, or `base` with qualifiers. -/
def Unwraps (id base : TypeId) : Prop :=
  (∃ name, T.getType id = some (.typedef name base)) ∨
    ∃ qualifiers, T.getType id = some (.qualified qualifiers base)

/-- Any number of typedefs and qualifiers around `base`. -/
def Wraps : TypeId → TypeId → Prop := Relation.ReflTransGen T.Unwraps

/-- The conversions return `t`, whatever the recursion depth from some depth on. -/
def Converts (lhs rhs t : TypeId) : Prop :=
  ∃ depth, ∀ fuel ≥ depth, T.usualArithmeticConversions o fuel lhs rhs = some t

/-- The conversions give the common type of C, of the rank of `int` at least, in both orders and
through all further typedefs and qualifiers. -/
def ConvertsAsC (lhs rhs : TypeId) (a b : CType) : Prop :=
  ∃ t, T.getType t = some (a.common b) ∧ T.integerRank TypeId.INT ≤ T.integerRank t ∧
    ∀ lhs' rhs', T.Wraps lhs' lhs → T.Wraps rhs' rhs →
      T.Converts o lhs' rhs' t ∧ T.Converts o rhs' lhs' t

/-- The size of a type is found, and is less than that of `long`. -/
def NarrowerThanLong (id : TypeId) : Prop :=
  ∃ depth, ∀ fuel ≥ depth, ∃ size < 8, T.sizeOf o fuel id = some size

/-- What may stand beside an operand of the type `a`. -/
def Fits : CType → CType → Prop
  | .short false, b => b = .int false ∨ 1 < b.rank
  | .enum _ underlying, b =>
    1 < b.rank ∧ (b.signed = true → T.NarrowerThanLong o underlying)
  | _, _ => True

/-- An operand is floating, or no operand is promoted in the wrong way that shows. -/
def Agrees (a b : CType) : Prop :=
  a.floating = true ∨ b.floating = true ∨ (T.Fits o a b ∧ T.Fits o b a)

end Definitions

section Chains

variable {T : TypeSystem} {id base : TypeId}

theorem Unwraps.unique {other : TypeId} (h : T.Unwraps id base) (h' : T.Unwraps id other) :
    base = other := by
  rcases h with ⟨name, h⟩ | ⟨qualifiers, h⟩ <;> rcases h' with ⟨name', h'⟩ | ⟨qualifiers', h'⟩ <;>
    rw [h] at h' <;> cases h' <;> rfl

/-- From a loop only the loop is reached. -/
theorem loops_of_wraps {x y : TypeId} (hloop : Relation.TransGen T.Unwraps x x)
    (h : T.Wraps x y) : Relation.TransGen T.Unwraps y y := by
  induction h with
  | refl => exact hloop
  | @tail y z _ hstep ih =>
    obtain ⟨w, hw, hback⟩ := Relation.TransGen.head'_iff.1 ih
    rw [hw.unique hstep] at hback
    exact Relation.TransGen.tail' hback hstep

theorem not_loops (hbase : ∀ next, ¬ T.Unwraps base next) :
    ¬ Relation.TransGen T.Unwraps base base := by
  intro h
  obtain ⟨next, hnext, -⟩ := Relation.TransGen.head'_iff.1 h
  exact hbase next hnext

theorem resolveLoop_of_wraps (hbase : ∀ next, ¬ T.Unwraps base next) (h : T.Wraps id base)
    (visited : List TypeId) (hvisited : ∀ v ∈ visited, Relation.TransGen T.Unwraps v id) :
    T.resolveLoop visited id = base := by
  induction h using Relation.ReflTransGen.head_induction_on generalizing visited with
  | refl =>
    rw [resolveLoop]
    split_ifs
    · rfl
    · split
      · rename_i name underlying htype
        exact absurd (.inl ⟨name, htype⟩) (hbase underlying)
      · rename_i qualifiers next htype
        exact absurd (.inr ⟨qualifiers, htype⟩) (hbase next)
      · rfl
  | @head id next hstep hrest ih =>
    have hfresh : id ∉ visited := fun hmem =>
      not_loops hbase (loops_of_wraps (hvisited id hmem) (.head hstep hrest))
    have hvisited' : ∀ v ∈ visited ++ [id], Relation.TransGen T.Unwraps v next := by
      intro v hv
      rcases List.mem_append.1 hv with hv | hv
      · exact (hvisited v hv).tail hstep
      · rw [List.mem_singleton.1 hv]
        exact .single hstep
    rw [resolveLoop, dif_neg hfresh]
    split
    · rename_i name underlying htype
      rw [(show T.Unwraps id underlying from .inl ⟨name, htype⟩).unique hstep]
      exact ih _ hvisited'
    · rename_i qualifiers inner htype
      rw [(show T.Unwraps id inner from .inr ⟨qualifiers, htype⟩).unique hstep]
      exact ih _ hvisited'
    · rename_i htypedef hqualified
      rcases hstep with ⟨name, h⟩ | ⟨qualifiers, h⟩
      · exact absurd h (htypedef _ _)
      · exact absurd h (hqualified _ _)

theorem resolveTypedef_of_wraps (hbase : ∀ next, ¬ T.Unwraps base next) (h : T.Wraps id base) :
    T.resolveTypedef id = base :=
  resolveLoop_of_wraps hbase h [] (List.forall_mem_nil _)

theorem not_unwraps {ty : CType} (hty : ty.IsArithmetic) (h : T.getType id = some ty)
    (next : TypeId) : ¬ T.Unwraps id next := by
  rintro (⟨name, h'⟩ | ⟨qualifiers, h'⟩) <;> rw [h] at h' <;> cases h' <;> exact hty

end Chains

section Evaluation

/-! What the code computes, from the types of the two operands. -/

def codeRank : CType → ℕ
  | .bool => 0
  | .char _ => 1
  | .short _ => 2
  | .int _ => 3
  | .long _ => 4
  | .longLong _ => 5
  | .float => 6
  | .double => 7
  | .longDouble => 8
  | _ => 3

def codeSigned : CType → Bool
  | .char signed | .short signed | .int signed | .long signed | .longLong signed => signed
  | _ => false

/-- The type that `integer_promotion` gives an operand of the type `a`. -/
def codePromoted (a : CType) : CType :=
  match a with
  | .bool | .char _ | .short true => .int true
  | .short false => .int false
  | _ => a

def promotedId (base : TypeId) (a : CType) : TypeId :=
  match a with
  | .bool | .char _ | .short true => TypeId.INT
  | .short false => TypeId.UINT
  | _ => base

/-- The conversions behind the promotions. -/
def convertPromoted (size : TypeId → Option ℕ) (p q : TypeId) (a b : CType) : Option TypeId :=
  if p = q then some p
  else if a.floating ∨ b.floating then some (if codeRank a ≥ codeRank b then p else q)
  else if codeSigned a = codeSigned b then some (if codeRank a ≥ codeRank b then p else q)
  else
    let signedType := if codeSigned a then p else q
    let unsignedType := if codeSigned a then q else p
    let signedRank := if codeSigned a then codeRank a else codeRank b
    let unsignedRank := if codeSigned a then codeRank b else codeRank a
    if unsignedRank ≥ signedRank then some unsignedType
    else do
      let signedSize ← size signedType
      let unsignedSize ← size unsignedType
      return if signedSize > unsignedSize then signedType else unsignedWider unsignedType

variable (o : Overflow) {T : TypeSystem} {id i j : TypeId} {a b : CType}

theorem resolveTypedef_self (ha : a.IsArithmetic) (h : T.getType id = some a) :
    T.resolveTypedef id = id :=
  resolveTypedef_of_wraps (not_unwraps ha h) .refl

theorem integerRank_eq (ha : a.IsArithmetic) (h : T.getType id = some a) :
    T.integerRank id = codeRank a := by
  rw [integerRank, resolveTypedef_self ha h, h]
  cases a <;> rfl

theorem isSigned_eq (ha : a.IsArithmetic) (h : T.getType id = some a) :
    T.isSigned id = codeSigned a := by
  rw [isSigned, resolveTypedef_self ha h, h]
  cases a <;> rfl

theorem isFloating_eq (h : T.getType id = some a) : T.isFloating id = a.floating := by
  rw [isFloating, h]
  cases a <;> rfl

theorem getType_primitive (T : TypeSystem) {id : TypeId} {ty : CType}
    (h : CType.primitives[id]? = some ty) : T.getType id = some ty := by
  obtain ⟨hlt, heq⟩ := List.getElem?_eq_some_iff.1 h
  rw [getType, List.prefix_iff_getElem?.1 T.primitives_first id hlt, heq]

/-- A type of the beginning of the table is nowhere else in it. -/
theorem primitive_getType (T : TypeSystem) {id : TypeId} {ty : CType} (h : T.getType id = some ty)
    (hty : ty ∈ CType.primitives) : CType.primitives[id]? = some ty := by
  rcases Nat.lt_or_ge id 16 with hlt | hge
  · have hid : id < CType.primitives.length := hlt
    rw [getType, List.prefix_iff_getElem?.1 T.primitives_first id hid] at h
    rw [List.getElem?_eq_getElem hid, h]
  · refine absurd hty (T.primitives_once ty (List.mem_iff_getElem?.2 ⟨id - 16, ?_⟩))
    rw [List.getElem?_drop, Nat.add_sub_cancel' hge]
    exact h

theorem integerPromotion_eq (fuel : ℕ) (ha : a.IsArithmetic) (h : T.getType i = some a) :
    T.integerPromotion o (fuel + 1) i = some (promotedId i a) := by
  have hint : T.getType TypeId.INT = some (.int true) := T.getType_primitive rfl
  rw [integerPromotion, resolveTypedef_self ha h, h]
  cases a with
  | short signed =>
    cases signed with
    | true => rfl
    | false =>
      dsimp only
      rw [sizeOf, sizeOf, h, hint]
      rfl
  | _ => rfl

theorem promotedId_type (ha : a.IsArithmetic) (h : T.getType i = some a) :
    T.getType (promotedId i a) = some (codePromoted a) ∧ (codePromoted a).IsArithmetic := by
  cases a with
  | short signed => cases signed <;> exact ⟨T.getType_primitive rfl, trivial⟩
  | bool => exact ⟨T.getType_primitive rfl, trivial⟩
  | char => exact ⟨T.getType_primitive rfl, trivial⟩
  | _ => first | exact ⟨h, trivial⟩ | exact ha.elim

theorem usualArithmeticConversions_eq (fuel : ℕ) (ha : a.IsArithmetic) (hb : b.IsArithmetic)
    (hi : T.getType i = some a) (hj : T.getType j = some b) :
    T.usualArithmeticConversions o (fuel + 1) i j =
      convertPromoted (T.sizeOf o (fuel + 1)) (promotedId i a) (promotedId j b) (codePromoted a)
        (codePromoted b) := by
  obtain ⟨hp, hpa⟩ := promotedId_type ha hi
  obtain ⟨hq, hqb⟩ := promotedId_type hb hj
  rw [usualArithmeticConversions, integerPromotion_eq o fuel ha hi, integerPromotion_eq o fuel hb hj]
  simp only [Option.bind_eq_bind, Option.bind_some, resolveTypedef_self hpa hp,
    resolveTypedef_self hqb hq, isFloating_eq hp, isFloating_eq hq, isSigned_eq hpa hp,
    isSigned_eq hqb hq, convertPromoted]
  by_cases hpq : promotedId i a = promotedId j b
  · simp only [hpq, if_true]
    rfl
  · simp only [hpq, if_false]
    cases codeSigned (codePromoted a) <;>
      simp only [if_true, if_false, Bool.false_eq_true, integerRank_eq hpa hp,
        integerRank_eq hqb hq] <;> rfl

end Evaluation

section Primitives

/-- The arithmetic types that are no enumerations. -/
def scalars : List CType := CType.primitives.tail

theorem scalar_or_enum {a : CType} (ha : a.IsArithmetic) :
    a ∈ scalars ∨ ∃ name underlying, a = .enum name underlying := by
  cases a with
  | enum name underlying => exact .inr ⟨name, underlying, rfl⟩
  | char signed => cases signed <;> exact .inl (by decide)
  | short signed => cases signed <;> exact .inl (by decide)
  | int signed => cases signed <;> exact .inl (by decide)
  | long signed => cases signed <;> exact .inl (by decide)
  | longLong signed => cases signed <;> exact .inl (by decide)
  | _ => first | exact .inl (by decide) | exact ha.elim

/-- The sizes at the beginning of every table. -/
def primitiveSize (id : TypeId) : Option ℕ := TypeSystem.new.sizeOf .panics 1 id

theorem sizeOf_primitive (o : Overflow) (T : TypeSystem) (fuel : ℕ) {id : TypeId} {ty : CType}
    (h : CType.primitives[id]? = some ty) (hty : ty ∈ CType.primitives) :
    T.sizeOf o (fuel + 1) id = primitiveSize id := by
  have hnew : TypeSystem.new.getType id = some ty := h
  rw [primitiveSize, sizeOf, sizeOf, T.getType_primitive h, hnew]
  revert hty
  cases ty <;> simp [CType.primitives]

/-- Two promoted scalars: the result is that of C for the promoted types. -/
theorem convertPromoted_primitive : ∀ p ∈ List.range 16, 7 ≤ p → ∀ q ∈ List.range 16, 7 ≤ q →
    ∀ a ∈ CType.primitives[p]?, ∀ b ∈ CType.primitives[q]?,
      convertPromoted primitiveSize p q a b = convertPromoted primitiveSize q p b a ∧
      (convertPromoted primitiveSize p q a b).bind (fun id => CType.primitives[id]?) =
        some (a.common b) := by
  decide

theorem common_scalars : ∀ a ∈ scalars, ∀ b ∈ scalars, a.common b = b.common a ∧
    (a.common b) ∈ scalars ∧ 3 ≤ codeRank (a.common b) ∧
    ((codePromoted a).common (codePromoted b) = a.common b ↔
      a.floating = true ∨ b.floating = true ∨
        ((a = .short false → b = .int false ∨ 1 < b.rank) ∧
          (b = .short false → a = .int false ∨ 1 < a.rank))) := by
  decide

end Primitives

section Pairs

variable (o : Overflow) {T : TypeSystem} {i j : TypeId} {a b : CType}

theorem convertPromoted_congr {size size' : TypeId → Option ℕ} {p q : TypeId} (a b : CType)
    (hp : size p = size' p) (hq : size q = size' q) :
    convertPromoted size p q a b = convertPromoted size' p q a b := by
  unfold convertPromoted
  cases codeSigned a <;> simp only [if_true, if_false, Bool.false_eq_true, hp, hq]

theorem isArithmetic_of_scalar : ∀ a ∈ scalars, a.IsArithmetic := by
  simp [scalars, CType.primitives, CType.IsArithmetic]

theorem primitive_of_scalar (h : a ∈ scalars) : a ∈ CType.primitives := List.mem_of_mem_tail h

/-- The table has the promoted scalars from `int` on. -/
theorem promotedId_scalar (ha : a ∈ scalars) (hi : T.getType i = some a) :
    CType.primitives[promotedId i a]? = some (codePromoted a) ∧ promotedId i a ∈ List.range 16 ∧
      7 ≤ promotedId i a := by
  have hmem : ∀ a ∈ scalars, codePromoted a ∈ scalars ∧ 3 ≤ codeRank (codePromoted a) := by decide
  have htable : ∀ p ∈ List.range 16, ∀ c ∈ CType.primitives[p]?, c ∈ scalars →
      3 ≤ codeRank c → 7 ≤ p := by decide
  have hp := T.primitive_getType (promotedId_type (isArithmetic_of_scalar a ha) hi).1
    (primitive_of_scalar (hmem a ha).1)
  have hrange : promotedId i a ∈ List.range 16 :=
    List.mem_range.2 (List.getElem?_eq_some_iff.1 hp).1
  exact ⟨hp, hrange, htable _ hrange _ hp (hmem a ha).1 (hmem a ha).2⟩

/-- Two scalars give the C type of what they are promoted to, in both orders. -/
theorem converts_scalars (ha : a ∈ scalars) (hb : b ∈ scalars) (hi : T.getType i = some a)
    (hj : T.getType j = some b) :
    ∃ t, T.getType t = some ((codePromoted a).common (codePromoted b)) ∧
      T.Converts o i j t ∧ T.Converts o j i t := by
  have haa := isArithmetic_of_scalar a ha
  have hbb := isArithmetic_of_scalar b hb
  obtain ⟨hp, hprange, hpint⟩ := promotedId_scalar ha hi
  obtain ⟨hq, hqrange, hqint⟩ := promotedId_scalar hb hj
  obtain ⟨hcomm, hresult⟩ := convertPromoted_primitive _ hprange hpint _ hqrange hqint _ hp _ hq
  obtain ⟨t, ht, htype⟩ := Option.bind_eq_some_iff.1 hresult
  have hsize (fuel : ℕ) {id : TypeId} {c : CType} (h : CType.primitives[id]? = some c) :
      T.sizeOf o (fuel + 1) id = primitiveSize id :=
    sizeOf_primitive o T fuel h (List.mem_of_getElem? h)
  refine ⟨t, T.getType_primitive htype, ⟨1, fun fuel hfuel => ?_⟩, ⟨1, fun fuel hfuel => ?_⟩⟩
  · obtain ⟨fuel, rfl⟩ := Nat.exists_eq_add_of_le' hfuel
    rw [usualArithmeticConversions_eq o fuel haa hbb hi hj,
      convertPromoted_congr _ _ (hsize fuel hp) (hsize fuel hq), ht]
  · obtain ⟨fuel, rfl⟩ := Nat.exists_eq_add_of_le' hfuel
    rw [usualArithmeticConversions_eq o fuel hbb haa hj hi,
      convertPromoted_congr _ _ (hsize fuel hq) (hsize fuel hp), ← hcomm, ht]

/-- The ids that the conversions return are determined. -/
theorem Converts.unique {o : Overflow} {t t' : TypeId} (h : T.Converts o i j t)
    (h' : T.Converts o i j t') : t = t' := by
  obtain ⟨depth, h⟩ := h
  obtain ⟨depth', h'⟩ := h'
  exact Option.some.inj ((h _ (Nat.le_max_left depth depth')).symm.trans
    (h' _ (Nat.le_max_right depth depth')))

/-- The conversions look through typedefs and qualifiers first. -/
theorem converts_wraps {l r t : TypeId} (ha : a.IsArithmetic) (hb : b.IsArithmetic)
    (hi : T.getType i = some a) (hj : T.getType j = some b) (hl : T.Wraps l i)
    (hr : T.Wraps r j) : T.Converts o l r t ↔ T.Converts o i j t := by
  have hsame (fuel : ℕ) {id base : TypeId} {c : CType} (hc : c.IsArithmetic)
      (hbase : T.getType base = some c) (hid : T.Wraps id base) :
      T.integerPromotion o fuel id = T.integerPromotion o fuel base := by
    rw [integerPromotion, integerPromotion, resolveTypedef_self hc hbase,
      resolveTypedef_of_wraps (not_unwraps hc hbase) hid]
  simp only [Converts, usualArithmeticConversions, hsame _ ha hi hl, hsame _ hb hj hr]

section Enum

variable {size : TypeId → Option ℕ} {q : TypeId} {name : Option String} {underlying : TypeId}
  {c : CType}

theorem floating_enum : (CType.enum name underlying).floating = false := rfl

theorem codeSigned_enum : codeSigned (.enum name underlying) = false := rfl

theorem codeRank_enum : codeRank (.enum name underlying) = 3 := rfl

/-- A floating operand or an unsigned one of a greater rank wins. -/
theorem convertPromoted_enum_other (hne : i ≠ q)
    (hc : c.floating = true ∨ codeSigned c = false) (hrank : 3 < codeRank c) :
    convertPromoted size i q (.enum name underlying) c = some q ∧
      convertPromoted size q i c (.enum name underlying) = some q := by
  have hle : ¬ codeRank c ≤ 3 := Nat.not_le.2 hrank
  have hge : 3 ≤ codeRank c := Nat.le_of_lt hrank
  rcases hc with hfloating | hsigned
  · simp [convertPromoted, hne, hne.symm, hfloating, codeRank_enum, hle, hge]
  · simp [convertPromoted, hne, hne.symm, hsigned, codeSigned_enum, codeRank_enum, hle, hge]

/-- Against the rank of `int` the enumeration wins. -/
theorem convertPromoted_enum_int (hne : i ≠ q) (hfloating : c.floating = false)
    (hrank : codeRank c = 3) :
    convertPromoted size i q (.enum name underlying) c = some i := by
  cases hsigned : codeSigned c <;>
    simp [convertPromoted, hne, floating_enum, hfloating, hsigned, codeSigned_enum, codeRank_enum,
      hrank]

/-- Against a signed operand of a greater rank the sizes decide. -/
theorem convertPromoted_enum_signed (hne : i ≠ q) (hfloating : c.floating = false)
    (hsigned : codeSigned c = true) (hrank : 3 < codeRank c) :
    convertPromoted size i q (.enum name underlying) c =
        (size q).bind (fun s => (size i).bind fun n =>
          some (if s > n then q else unsignedWider i)) ∧
      convertPromoted size q i c (.enum name underlying) =
        (size q).bind (fun s => (size i).bind fun n =>
          some (if s > n then q else unsignedWider i)) := by
  have hle : ¬ codeRank c ≤ 3 := Nat.not_le.2 hrank
  constructor
  · simp [convertPromoted, hne, floating_enum, hfloating, hsigned, codeSigned_enum, codeRank_enum,
      hle]
  · simp [convertPromoted, hne.symm, floating_enum, hfloating, hsigned, codeSigned_enum,
      codeRank_enum, hle]

end Enum

/-- The scalars that outrank `int`, and those that are promoted to its rank. -/
theorem scalar_kinds : ∀ b ∈ scalars,
    ((b.floating = true ∨ 1 < b.rank) ∧ codePromoted b = b ∧ (CType.int true).common b = b ∧
      3 < codeRank b ∧
      ((b.signed = false ∧ (b.floating = true ∨ codeSigned b = false)) ∨
        (b.floating = false ∧ b.signed = true ∧ (b = .long true ∨ b = .longLong true)))) ∨
    (b.floating = false ∧ ¬ 1 < b.rank ∧ (codePromoted b).floating = false ∧
      codeRank (codePromoted b) = 3) := by
  decide

theorem promotedId_self (h : codePromoted b = b) : promotedId j b = j := by
  cases b with
  | short signed => cases signed <;> cases h
  | bool => cases h
  | char => cases h
  | _ => rfl

section Beside

variable {name : Option String} {underlying : TypeId}

theorem unsignedWider_enum (hi : T.getType i = some (.enum name underlying)) :
    unsignedWider i = i := by
  have hne (id : TypeId) (ty : CType) (hty : CType.primitives[id]? = some ty)
      (hscalar : ∀ name underlying, ty ≠ .enum name underlying) : i ≠ id := by
    rintro rfl
    rw [T.getType_primitive hty] at hi
    exact hscalar _ _ (Option.some.inj hi)
  rw [unsignedWider, if_neg (hne _ (.int true) rfl nofun), if_neg (hne _ (.int false) rfl nofun),
    if_neg (hne _ (.long true) rfl nofun), if_neg (hne _ (.long false) rfl nofun)]

theorem sizeOf_enum (hi : T.getType i = some (.enum name underlying)) (fuel : ℕ) :
    T.sizeOf o (fuel + 1) i = T.sizeOf o fuel underlying := by
  rw [sizeOf, hi]

theorem ne_scalar (hi : T.getType i = some (.enum name underlying)) {c : CType}
    (hc : c ∈ scalars) : T.getType i ≠ some c := by
  rw [hi]
  intro h
  rw [← Option.some.inj h] at hc
  simp [scalars, CType.primitives] at hc

theorem id_ne_scalar (hi : T.getType i = some (.enum name underlying)) {id : TypeId} {c : CType}
    (hid : T.getType id = some c) (hc : c ∈ scalars) : i ≠ id := by
  rintro rfl
  exact ne_scalar hi hc hid

theorem convert_enum_left (hi : T.getType i = some (.enum name underlying)) (hb : b ∈ scalars)
    (hj : T.getType j = some b) (fuel : ℕ) :
    T.usualArithmeticConversions o (fuel + 1) i j =
      convertPromoted (T.sizeOf o (fuel + 1)) i (promotedId j b) (.enum name underlying)
        (codePromoted b) :=
  usualArithmeticConversions_eq o fuel (a := .enum name underlying) trivial
    (isArithmetic_of_scalar b hb) hi hj

theorem convert_enum_right (hi : T.getType i = some (.enum name underlying)) (hb : b ∈ scalars)
    (hj : T.getType j = some b) (fuel : ℕ) :
    T.usualArithmeticConversions o (fuel + 1) j i =
      convertPromoted (T.sizeOf o (fuel + 1)) (promotedId j b) i (codePromoted b)
        (.enum name underlying) :=
  usualArithmeticConversions_eq o fuel (b := .enum name underlying) (isArithmetic_of_scalar b hb)
    trivial hj hi

/-- Beside a floating type or a wider unsigned one the enumeration is not looked at. -/
theorem converts_enum_other (hi : T.getType i = some (.enum name underlying)) (hb : b ∈ scalars)
    (hj : T.getType j = some b) (hself : codePromoted b = b) (hrank : 3 < codeRank b)
    (h : b.floating = true ∨ codeSigned b = false) :
    T.Converts o i j j ∧ T.Converts o j i j := by
  have hleft := convert_enum_left o hi hb hj
  have hright := convert_enum_right o hi hb hj
  rw [promotedId_self hself, hself] at hleft hright
  constructor <;> refine ⟨1, fun fuel hfuel => ?_⟩ <;>
    obtain ⟨fuel, rfl⟩ := Nat.exists_eq_add_of_le' hfuel
  · rw [hleft]
    exact (convertPromoted_enum_other (id_ne_scalar hi hj hb) h hrank).1
  · rw [hright]
    exact (convertPromoted_enum_other (id_ne_scalar hi hj hb) h hrank).2

/-- Beside what is promoted to the rank of `int` the enumeration is the result. -/
theorem converts_enum_int (hi : T.getType i = some (.enum name underlying)) (hb : b ∈ scalars)
    (hj : T.getType j = some b) (hfloating : (codePromoted b).floating = false)
    (hrank : codeRank (codePromoted b) = 3) : T.Converts o i j i := by
  have hpromoted : ∀ b ∈ scalars, codePromoted b ∈ scalars := by decide
  have hne := id_ne_scalar hi (T.getType_primitive (promotedId_scalar hb hj).1) (hpromoted b hb)
  refine ⟨1, fun fuel hfuel => ?_⟩
  obtain ⟨fuel, rfl⟩ := Nat.exists_eq_add_of_le' hfuel
  rw [convert_enum_left o hi hb hj]
  exact convertPromoted_enum_int hne hfloating hrank

/-- Beside `long` and `long long` the sizes decide. -/
theorem convert_enum_long (hi : T.getType i = some (.enum name underlying))
    (hb : b = .long true ∨ b = .longLong true) (hj : T.getType j = some b) (fuel : ℕ) :
    T.usualArithmeticConversions o (fuel + 1) i j =
        (T.sizeOf o fuel underlying).bind (fun n => some (if 8 > n then j else i)) ∧
      T.usualArithmeticConversions o (fuel + 1) j i =
        (T.sizeOf o fuel underlying).bind (fun n => some (if 8 > n then j else i)) := by
  have hlong : b ∈ scalars ∧ codePromoted b = b ∧ b.floating = false ∧ codeSigned b = true ∧
      3 < codeRank b := by
    rcases hb with rfl | rfl <;> decide
  obtain ⟨hscalar, hself, hfloating, hsigned, hrank⟩ := hlong
  have hsize : T.sizeOf o (fuel + 1) j = some 8 := by
    rcases hb with rfl | rfl <;> rw [sizeOf, hj]
  have hleft := convert_enum_left o hi hscalar hj fuel
  have hright := convert_enum_right o hi hscalar hj fuel
  have hpick := @convertPromoted_enum_signed i (T.sizeOf o (fuel + 1)) j name underlying b
    (id_ne_scalar hi hj hscalar) hfloating hsigned hrank
  rw [hsize, sizeOf_enum o hi, unsignedWider_enum hi, Option.bind_some] at hpick
  rw [promotedId_self hself, hself] at hleft hright
  exact ⟨hleft.trans hpick.1, hright.trans hpick.2⟩

theorem converts_enum_long_iff (hi : T.getType i = some (.enum name underlying))
    (hb : b = .long true ∨ b = .longLong true) (hj : T.getType j = some b) {t : TypeId}
    (ht : t ≠ i) :
    T.Converts o i j t ∧ T.Converts o j i t ↔ T.NarrowerThanLong o underlying ∧ t = j := by
  have hconvert := convert_enum_long o hi hb hj
  constructor
  · rintro ⟨⟨depth, hl⟩, -⟩
    have hfound (fuel : ℕ) (hfuel : fuel ≥ depth) :
        ∃ n < 8, T.sizeOf o fuel underlying = some n ∧ t = j := by
      have h := (hconvert fuel).1.symm.trans (hl (fuel + 1) (Nat.le_succ_of_le hfuel))
      obtain ⟨n, hn, hpick⟩ := Option.bind_eq_some_iff.1 h
      split_ifs at hpick with hlt
      · exact ⟨n, hlt, hn, (Option.some.inj hpick).symm⟩
      · exact absurd (Option.some.inj hpick).symm ht
    refine ⟨⟨depth, fun fuel hfuel => ?_⟩, ?_⟩
    · obtain ⟨n, hlt, hn, -⟩ := hfound fuel hfuel
      exact ⟨n, hlt, hn⟩
    · obtain ⟨n, -, -, ht⟩ := hfound depth (Nat.le_refl _)
      exact ht
  · rintro ⟨⟨depth, hnarrow⟩, rfl⟩
    constructor <;> refine ⟨depth + 1, fun fuel hfuel => ?_⟩ <;>
      obtain ⟨fuel, rfl⟩ := Nat.exists_eq_add_of_le' (Nat.le_trans (Nat.le_add_left 1 depth) hfuel) <;>
      obtain ⟨n, hlt, hn⟩ := hnarrow fuel (Nat.le_of_succ_le_succ hfuel)
    · rw [(hconvert fuel).1, hn, Option.bind_some, if_pos hlt]
    · rw [(hconvert fuel).2, hn, Option.bind_some, if_pos hlt]

/-- An operand of an enumeration beside a scalar. -/
theorem converts_enum_iff (hi : T.getType i = some (.enum name underlying)) (hb : b ∈ scalars)
    (hj : T.getType j = some b) (t : TypeId) :
    (T.Converts o i j t ∧ T.Converts o j i t) ∧ T.getType t = some ((CType.int true).common b) ↔
      (b.floating = true ∨ 1 < b.rank ∧ (b.signed = true → T.NarrowerThanLong o underlying)) ∧
        t = j := by
  have hscalar : (CType.int true).common b ∈ scalars :=
    (common_scalars (.int true) (by decide) b hb).2.1
  rcases scalar_kinds b hb with
    ⟨hwide, hself, hcommon, hrank, hkind⟩ | ⟨hfloating, hnarrow, hfloating', hrank⟩
  · rcases hkind with ⟨hunsigned, hother⟩ | ⟨hfloating, hsigned, hlong⟩
    · obtain ⟨hl, hr⟩ := converts_enum_other o hi hb hj hself hrank hother
      constructor
      · rintro ⟨⟨ht, -⟩, -⟩
        refine ⟨hwide.imp_right fun h => ⟨h, fun hs => ?_⟩, ht.unique hl⟩
        rw [hunsigned] at hs
        cases hs
      · rintro ⟨-, rfl⟩
        exact ⟨⟨hl, hr⟩, by rw [hj, hcommon]⟩
    · have hwide' : 1 < b.rank := hwide.resolve_left (by rw [hfloating]; exact Bool.false_ne_true)
      rw [hcommon, hfloating]
      constructor
      · rintro ⟨hconverts, ht⟩
        have hne : t ≠ i := fun h => ne_scalar hi hb (h ▸ ht)
        obtain ⟨hsize, rfl⟩ := (converts_enum_long_iff o hi hlong hj hne).1 hconverts
        exact ⟨.inr ⟨hwide', fun _ => hsize⟩, rfl⟩
      · rintro ⟨hcond, rfl⟩
        have hsize := (hcond.resolve_left Bool.false_ne_true).2 hsigned
        exact ⟨(converts_enum_long_iff o hi hlong hj (id_ne_scalar hi hj hb).symm).2 ⟨hsize, rfl⟩,
          hj⟩
  · constructor
    · rintro ⟨⟨ht, -⟩, htype⟩
      rw [ht.unique (converts_enum_int o hi hb hj hfloating' hrank)] at htype
      exact absurd htype (ne_scalar hi hscalar)
    · rintro ⟨hcond, -⟩
      rw [hfloating] at hcond
      exact absurd (hcond.resolve_left Bool.false_ne_true).1 hnarrow

end Beside

/-- Two operands of enumerations. -/
theorem converts_enums {name name' : Option String} {underlying underlying' : TypeId}
    (hi : T.getType i = some (.enum name underlying))
    (hj : T.getType j = some (.enum name' underlying')) : T.Converts o i j i := by
  refine ⟨1, fun fuel hfuel => ?_⟩
  obtain ⟨fuel, rfl⟩ := Nat.exists_eq_add_of_le' hfuel
  rw [usualArithmeticConversions_eq o fuel (a := .enum name underlying)
    (b := .enum name' underlying') trivial trivial hi hj]
  simp [convertPromoted, promotedId, codePromoted, codeSigned_enum, codeRank_enum, floating_enum]

end Pairs

section Main

variable {o : Overflow} {T : TypeSystem} {i j : TypeId} {a b : CType}

theorem common_enum_left (name : Option String) (underlying : TypeId) (b : CType) :
    (CType.enum name underlying).common b = (CType.int true).common b := by
  simp [CType.common, CType.promoted]

theorem common_enum_right (name : Option String) (underlying : TypeId) (a : CType) :
    a.common (.enum name underlying) = a.common (.int true) := by
  simp [CType.common, CType.promoted]

theorem common_comm (ha : a.IsArithmetic) (hb : b.IsArithmetic) : a.common b = b.common a := by
  have hint : CType.int true ∈ scalars := by decide
  rcases scalar_or_enum ha with ha | ⟨name, underlying, rfl⟩ <;>
    rcases scalar_or_enum hb with hb | ⟨name', underlying', rfl⟩
  · exact (common_scalars a ha b hb).1
  · rw [common_enum_left, common_enum_right]
    exact (common_scalars a ha _ hint).1
  · rw [common_enum_left, common_enum_right]
    exact (common_scalars _ hint b hb).1
  · simp only [common_enum_left, common_enum_right]

/-- C's common type is of the rank of `int` at least. -/
theorem common_rank (ha : a.IsArithmetic) (hb : b.IsArithmetic) :
    a.common b ∈ scalars ∧ 3 ≤ codeRank (a.common b) := by
  have hint : CType.int true ∈ scalars := by decide
  rcases scalar_or_enum ha with ha | ⟨name, underlying, rfl⟩ <;>
    rcases scalar_or_enum hb with hb | ⟨name', underlying', rfl⟩
  · exact ⟨(common_scalars a ha b hb).2.1, (common_scalars a ha b hb).2.2.1⟩
  · rw [common_enum_right]
    exact ⟨(common_scalars a ha _ hint).2.1, (common_scalars a ha _ hint).2.2.1⟩
  · rw [common_enum_left]
    exact ⟨(common_scalars _ hint b hb).2.1, (common_scalars _ hint b hb).2.2.1⟩
  · rw [common_enum_left, common_enum_right]
    exact ⟨(common_scalars _ hint _ hint).2.1, (common_scalars _ hint _ hint).2.2.1⟩

theorem convertsAsC_base {l r : TypeId} (ha : a.IsArithmetic) (hb : b.IsArithmetic)
    (hl : T.Wraps l i) (hr : T.Wraps r j) (hi : T.getType i = some a) (hj : T.getType j = some b) :
    T.ConvertsAsC o l r a b ↔
      ∃ t, (T.Converts o i j t ∧ T.Converts o j i t) ∧ T.getType t = some (a.common b) := by
  obtain ⟨hscalar, hrank⟩ := common_rank ha hb
  constructor
  · rintro ⟨t, ht, -, hconverts⟩
    obtain ⟨hlr, hrl⟩ := hconverts l r .refl .refl
    exact ⟨t, ⟨(converts_wraps o ha hb hi hj hl hr).1 hlr, (converts_wraps o hb ha hj hi hr hl).1 hrl⟩,
      ht⟩
  · rintro ⟨t, ⟨hij, hji⟩, ht⟩
    refine ⟨t, ht, ?_, fun l' r' hl' hr' => ?_⟩
    · rw [integerRank_eq (isArithmetic_of_scalar _ hscalar) ht,
        @integerRank_eq T TypeId.INT (.int true) trivial (T.getType_primitive rfl)]
      exact hrank
    · exact ⟨(converts_wraps o ha hb hi hj (hl'.trans hl) (hr'.trans hr)).2 hij,
        (converts_wraps o hb ha hj hi (hr'.trans hr) (hl'.trans hl)).2 hji⟩

theorem fits_scalar (ha : a ∈ scalars) :
    T.Fits o a b ↔ (a = .short false → b = .int false ∨ 1 < b.rank) := by
  cases a with
  | short signed => cases signed <;> simp [Fits]
  | enum => simp [scalars, CType.primitives] at ha
  | _ => simp [Fits]

theorem agrees_enum_iff {name : Option String} {underlying : TypeId} (hb : b ∈ scalars) :
    T.Agrees o (.enum name underlying) b ↔
      b.floating = true ∨ 1 < b.rank ∧ (b.signed = true → T.NarrowerThanLong o underlying) := by
  have hshort : 1 < b.rank → b ≠ .short false := by
    rintro h rfl
    exact absurd h (by decide)
  rw [Agrees, fits_scalar hb, floating_enum, Fits]
  constructor
  · rintro (h | h | ⟨h, -⟩)
    · cases h
    · exact .inl h
    · exact .inr h
  · rintro (h | h)
    · exact .inr (.inl h)
    · exact .inr (.inr ⟨h, fun hb => absurd hb (hshort h.1)⟩)

theorem agrees_comm : T.Agrees o a b ↔ T.Agrees o b a := by
  rw [Agrees, Agrees, ← or_assoc, ← or_assoc, or_comm (a := a.floating = true),
    and_comm (a := T.Fits o a b)]

/-- The result is the common type of C just when no operand that is promoted in the wrong way
shows in it. -/
theorem convertsAsC_iff (o : Overflow) (T : TypeSystem) {l r i j : TypeId} {a b : CType}
    (hl : T.Wraps l i) (hr : T.Wraps r j) (hi : T.getType i = some a) (hj : T.getType j = some b)
    (ha : a.IsArithmetic) (hb : b.IsArithmetic) :
    T.ConvertsAsC o l r a b ↔ T.Agrees o a b := by
  rw [convertsAsC_base ha hb hl hr hi hj]
  rcases scalar_or_enum ha with hsa | ⟨name, underlying, rfl⟩ <;>
    rcases scalar_or_enum hb with hsb | ⟨name', underlying', rfl⟩
  · obtain ⟨t, ht, hij, hji⟩ := converts_scalars o hsa hsb hi hj
    rw [Agrees, fits_scalar hsa, fits_scalar hsb, ← (common_scalars a hsa b hsb).2.2.2]
    constructor
    · rintro ⟨t', ⟨ht', -⟩, htype⟩
      rw [ht'.unique hij, ht] at htype
      exact Option.some.inj htype
    · intro h
      exact ⟨t, ⟨hij, hji⟩, by rw [ht, h]⟩
  · rw [agrees_comm, agrees_enum_iff hsa, common_comm ha hb, common_enum_left]
    constructor
    · rintro ⟨t, ⟨hij, hji⟩, ht⟩
      exact ((converts_enum_iff o hj hsa hi t).1 ⟨⟨hji, hij⟩, ht⟩).1
    · intro h
      obtain ⟨⟨hji, hij⟩, ht⟩ := (converts_enum_iff o hj hsa hi i).2 ⟨h, rfl⟩
      exact ⟨i, ⟨hij, hji⟩, ht⟩
  · rw [agrees_enum_iff hsb, common_enum_left]
    constructor
    · rintro ⟨t, h⟩
      exact ((converts_enum_iff o hi hsb hj t).1 h).1
    · exact fun h => ⟨j, (converts_enum_iff o hi hsb hj j).2 ⟨h, rfl⟩⟩
  · refine iff_of_false ?_ ?_
    · rintro ⟨t, ⟨ht, -⟩, htype⟩
      rw [ht.unique (converts_enums o hi hj)] at htype
      exact ne_scalar hi (common_rank ha hb).1 htype
    · simp [Agrees, Fits, floating_enum, CType.rank]

/-- `unsigned int` and `int` -/
theorem convertsAsC_unsigned : new.ConvertsAsC .panics TypeId.UINT TypeId.INT (.int false) (.int true) :=
  (convertsAsC_iff .panics new (a := .int false) (b := .int true) .refl .refl rfl rfl trivial
    trivial).2
    (.inr (.inr ⟨trivial, trivial⟩))

/-- `unsigned short` and `int` give `unsigned int`. -/
theorem not_convertsAsC_unsignedShort :
    ¬ new.ConvertsAsC .panics 6 TypeId.INT (.short false) (.int true) := by
  rintro ⟨t, ht, -, hconverts⟩
  have hint : t = TypeId.UINT := (hconverts 6 TypeId.INT .refl .refl).1.unique
    ⟨1, fun fuel hfuel => by
      obtain ⟨fuel, rfl⟩ := Nat.exists_eq_add_of_le' hfuel
      rw [usualArithmeticConversions_eq .panics fuel (a := .short false) (b := .int true) trivial
        trivial rfl rfl]
      rfl⟩
  rw [hint] at ht
  exact absurd ht (by decide)

end Main

end TypeSystem

end OpticC.Types
