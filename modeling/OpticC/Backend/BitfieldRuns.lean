import OpticC.Backend.Bitfields
import OpticC.Backend.CompoundAssignment
import Mathlib.Data.List.Nodup
import Mathlib.Data.List.Pairwise

/-! Runs of accesses to the members of a record. The abstract record is a number for each member,
and an operation changes the number of its own member alone; the lowering works on the bytes. -/

namespace OpticC.Bitfields

open Sizes Assignment ByteMemory Layout IntegerExpr
open OverflowBuiltin (buildStore)

variable {tags : Tags}

namespace Record

variable (R : Record tags)

/-- The LLVM fields. -/
def types : List BasicType := registerFields tags (R.members.map Member.node) none

/-- `struct_gep_info` of the tag. -/
def slots : List (Member × Slot) := gepInfo tags R.members 0 none

/-- `build_struct_gep` -/
def address (base index : ℕ) : ℕ := base + startOf 0 (placed R.packed (allocCells R.types)) index

/-- The number that a member holds: the bits of a bit-field, or all bytes of another member. -/
def content (base : ℕ) (m : Memory) (e : Member × Slot) : ℕ :=
  match e.1, e.2.bitfield with
  | .bitfield d, some field =>
    ((buildLoad (unitBits d) m (R.address base e.2.index)).extractLsb' field.1 field.2).toNat
  | member, _ =>
    u32Value (read m (R.address base e.2.index) (allocSize (fieldType tags member)))

end Record

/-- What the member is taken of: a variable or a pointer variable, or any other expression. -/
inductive Path where
  | ident
  | nested
  deriving DecidableEq, Repr

structure Access where
  path : Path
  base : Memory → ℕ
  name : String

/-- The pointer to the field, with its type. -/
def memberLvalue (address : Memory → ℕ) (ty : BasicType) (bitfield : Option (ℕ × ℕ)) :
    Option Lvalue :=
  match ty with
  | .int w => if h : 0 < w then
      some ⟨.member, address, .int w h, bitfield, fun _ => ⟨rfl, w, h, rfl⟩⟩ else none
  | .ptr => some ⟨.member, address, .ptr, none, fun h => absurd rfl h⟩
  | _ => none

/-- `lower_member_access_ptr`. Behind anything but an identifier the position of the name among
the members is taken for the index, in a record with these field types, and no member for a
bit-field. -/
def lowerMemberAccessPtr (R : Record tags) (a : Access) : Option Lvalue :=
  match a.path with
  | .ident => do
    let e ← R.slots.find? fun e => e.1.name == a.name
    let ty ← R.types[e.2.index]?
    memberLvalue (fun m => R.address (a.base m) e.2.index) ty e.2.bitfield
  | .nested => do
    let index := R.members.findIdx fun m => m.name == a.name
    let ty ← R.types[index]?
    memberLvalue (fun m => R.address (a.base m) index) ty none

/-- The operations on a member; the right side of an assignment has a type, which is signed or
not. -/
inductive Op where
  | read (a : Access)
  | assign (data : ℕ) (a : Access) (signed : Bool) (rhs : Run)
  | incDec (data : ℕ) (a : Access)

namespace Op

def access : Op → Access
  | read a => a
  | assign _ a _ _ => a
  | incDec _ a => a

/-- The operation on the pointer to the field. -/
def runAt (lvalue : Lvalue) : Op → Run
  | read _ => readLvalue lvalue
  | assign data _ _ rhs => lowerAssignExpr data lvalue rhs
  | incDec data _ => lowerIncDec data lvalue

def run (R : Record tags) (op : Op) (s : State) : Except Failure (Value × State) :=
  match lowerMemberAccessPtr R op.access with
  | none => .error .refused
  | some lvalue => op.runAt lvalue s

end Op

/-- The number of a bit-field as a value of its type. -/
def BitfieldDecl.value (d : BitfieldDecl) (n : ℕ) : ℤ :=
  if d.type.type.signed then (BitVec.ofNat d.width n).toInt else n

theorem unitBits_pos (d : BitfieldDecl) : 0 < unitBits d := by
  unfold unitBits nodeKindBitWidth
  split <;> decide

/-- The value of a bit-field as an integer of its unit. -/
def BitfieldDecl.operand (d : BitfieldDecl) (n : ℕ) : LlvmInt :=
  .ofInt (unitBits d) (unitBits_pos d) (d.value n)

/-- What C says of an operation on a bit-field that holds `n`: its value, and the number that the
field holds behind it. -/
def Follows (d : BitfieldDecl) (n : ℕ) (m : Memory) (op : Op) (v : Value) (n' : ℕ) : Prop :=
  match op with
  | .read _ => n' = n ∧ ∃ x : LlvmInt, v = .int x ∧ x.read d.type.type.signed = d.value n
  | .assign data _ signed rhs => ∃ value : Memory → LlvmInt, Computes rhs value ∧
      if data = 19 then (n' : ℤ) = (value m).read signed % 2 ^ d.width
      else ∃ r : LlvmInt, assignInt data (d.operand n) (value m) = .ok (.int r) ∧
        n' = r.bits.toNat % 2 ^ d.width
  | .incDec data _ => (n' : ℤ) = (if data = 6 then (n : ℤ) + 1 else n - 1) % 2 ^ d.width

/-- The run follows the abstract record `c` from operation to operation. -/
def Faithful (R : Record tags) (base : ℕ) : (String → ℕ) → List Op → State → Prop
  | _, [], _ => True
  | c, op :: ops, s =>
    match op.run R s with
    -- an operation on another member may be undefined
    | .error _ => ∃ name decl, .plain name decl ∈ R.members ∧ name = op.access.name
    | .ok (v, s') => ∃ n', (∀ d, .bitfield d ∈ R.members → d.name = op.access.name →
          Follows d (c d.name) s.memory op v n') ∧
        (∀ e ∈ R.slots, R.content base s'.memory e = Function.update c op.access.name n' e.1.name) ∧
          Faithful R base (Function.update c op.access.name n') ops s'

section Frames

theorem intAlign_pos (width : ℕ) : 0 < intAlign width := by
  unfold intAlign
  split_ifs <;> decide

theorem allocCells_eq_map (fields : List BasicType) : allocCells fields = fields.map allocCell := by
  induction fields with
  | nil => rfl
  | cons ty fields ih => rw [allocCells, ih, List.map_cons]

/-- The bytes of an integer have room in its field. -/
theorem bytes_le_allocSize (w : ℕ) : (w + 7) / 8 ≤ allocSize (.int w) :=
  le_roundUp (intAlign_pos w) _

/-- The bytes of a value of the type. -/
def accessBytes : AccessType → ℕ
  | .int w _ => (w + 7) / 8
  | .ptr => 8

/-- A store writes the bytes of the type, or nothing. -/
theorem storeValue_writes (address : ℕ) (type : AccessType) (m : Memory) (v : Value) :
    ∃ bytes : List UInt8, bytes.length ≤ accessBytes type ∧
      (storeValue address type m v).2 = write m address bytes := by
  unfold storeValue
  cases type with
  | int w h =>
    cases v with
    | int x =>
      refine ⟨_, ?_, rfl⟩
      rw [leBytes_length]
      show ((x.intCast w h).width + 7) / 8 ≤ (w + 7) / 8
      unfold LlvmInt.intCast
      split <;> exact Nat.le_refl _
    | ptr p => exact ⟨[], Nat.zero_le _, (write_nil m address).symm⟩
  | ptr =>
    cases v with
    | int x => exact ⟨_, Nat.le_of_eq (leBytes_length _ _), rfl⟩
    | ptr p => exact ⟨_, Nat.le_of_eq (leBytes_length _ _), rfl⟩

namespace Record

variable (R : Record tags)

theorem valid : ∀ m ∈ R.members, m.Valid tags := by
  intro m hm
  cases m with
  | bitfield d => trivial
  | plain name decl => exact R.plain name decl hm

theorem slots_holds : ∀ e ∈ R.slots, e.2.Holds tags R.types e.1 :=
  have hopen : Open [] none := ⟨nofun, nofun⟩
  gepInfo_holds R.valid hopen

theorem slots_apart : R.slots.Pairwise fun a b => a.2.Apart b.2 :=
  gepInfo_apart R.valid fun h => absurd rfl h

theorem map_fst_gepInfo (ms : List Member) (idx : ℕ) (group : Option BitfieldGroup) :
    (gepInfo tags ms idx group).map Prod.fst = ms := by
  induction ms generalizing idx group with
  | nil => rfl
  | cons m ms ih => rw [gepInfo, List.map_cons, ih]

theorem slots_names : R.slots.map (fun e => e.1.name) = R.members.map Member.name := by
  have hfst : (gepInfo tags R.members 0 none).map Prod.fst = R.members :=
    map_fst_gepInfo R.members 0 none
  have hmap : (R.slots.map Prod.fst).map Member.name = R.slots.map fun e => e.1.name := List.map_map
  rw [← hmap, slots, hfst]

variable {R}

/-- A field ends before a later one starts. -/
theorem address_add_size_le {e : Member × Slot} (he : e ∈ R.slots) {j : ℕ} (hj : e.2.index < j)
    (base : ℕ) : R.address base e.2.index + allocSize (fieldType tags e.1) ≤ R.address base j := by
  have htype := (R.slots_holds e he).type
  obtain ⟨c, hcell, hsize⟩ : ∃ c, (placed R.packed (allocCells R.types))[e.2.index]? = some c ∧
      c.size = allocSize (fieldType tags e.1) := by
    rw [placed, allocCells_eq_map, List.getElem?_map, List.getElem?_map, htype]
    exact ⟨_, rfl, rfl⟩
  have halign : ∀ c ∈ placed R.packed (allocCells R.types), 0 < c.align := by
    intro c hc
    rw [placed, List.mem_map] at hc
    obtain ⟨c', -, rfl⟩ := hc
    show 0 < if R.packed then 1 else max c'.align 1
    split
    · exact Nat.one_pos
    · exact Nat.le_max_right _ _
  have hle : startOf 0 _ _ + c.size ≤ startOf 0 _ j := startOf_add_size_le halign hcell hj
  unfold address
  omega

/-- Bytes that are written into a field leave the members in other fields alone. -/
theorem content_write {e e' : Member × Slot} (he : e ∈ R.slots) (he' : e' ∈ R.slots)
    (hne : e.2.index ≠ e'.2.index) {bytes : List UInt8}
    (hlength : bytes.length ≤ allocSize (fieldType tags e.1)) (base : ℕ) (m : Memory) :
    R.content base (write m (R.address base e.2.index) bytes) e' = R.content base m e' := by
  have hread : ∀ len, len ≤ allocSize (fieldType tags e'.1) →
      read (write m (R.address base e.2.index) bytes) (R.address base e'.2.index) len =
        read m (R.address base e'.2.index) len := by
    intro len hlen
    apply read_write_disjoint
    rcases Nat.lt_or_gt_of_ne hne with hlt | hlt
    · have := address_add_size_le he hlt base
      omega
    · have := address_add_size_le he' hlt base
      omega
  unfold content
  split
  · rename_i d field hm _
    have hunit : (unitBits d + 7) / 8 ≤ allocSize (fieldType tags e'.1) := by
      rw [hm]
      exact bytes_le_allocSize _
    rw [buildLoad, buildLoad, hread _ hunit]
  · rw [hread _ (Nat.le_refl _)]

/-- Two members of one field are bit-fields side by side. -/
theorem same_field {e e' : Member × Slot} (he : e ∈ R.slots) (he' : e' ∈ R.slots) (hne : e ≠ e')
    (hindex : e.2.index = e'.2.index) : ∃ d f d' f', e.1 = .bitfield d ∧ e.2.bitfield = some f ∧
      e'.1 = .bitfield d' ∧ e'.2.bitfield = some f' ∧ unitBits d' = unitBits d ∧
        (f.1 + f.2 ≤ f'.1 ∨ f'.1 + f'.2 ≤ f.1) := by
  have hsymm : Std.Symm fun a b : Member × Slot => a.2.Apart b.2 := by
    constructor
    rintro a b (hab | ⟨f, g, hf, hg, h⟩)
    · exact .inl hab.symm
    · exact .inr ⟨g, f, hg, hf, h.symm⟩
  have hapart : e.2.Apart e'.2 := R.slots_apart.forall he he' hne
  rcases hapart with h | ⟨f, f', hf, hf', h⟩
  · exact absurd hindex h
  · have hbit : ∀ x ∈ R.slots, x.2.bitfield ≠ none → ∃ d, x.1 = .bitfield d := by
      intro x hx hsome
      cases hm : x.1 with
      | bitfield d => exact ⟨d, rfl⟩
      | plain name decl => exact absurd ((R.slots_holds x hx).plain name decl hm) hsome
    obtain ⟨d, hd⟩ := hbit e he (by simp [hf])
    obtain ⟨d', hd'⟩ := hbit e' he' (by simp [hf'])
    have htype := (R.slots_holds e he).type
    have htype' := (R.slots_holds e' he').type
    rw [hindex, htype', hd, hd'] at htype
    have hunit : unitBits d' = unitBits d := BasicType.int.inj (Option.some.inj htype)
    exact ⟨d, f, d', f', hd, hf, hd', hf', hunit, h⟩

end Record

end Frames

section Conditions

/-- The number is not the one of a negative value. -/
def BitfieldDecl.Nonnegative (d : BitfieldDecl) (n : ℕ) : Prop :=
  d.type.type.signed = false ∨ n < 2 ^ (d.width - 1)

/-- No division by zero or of the least number by -1, and no shift by the width or more. -/
def HasValue (data : ℕ) (o : Operands) : Prop :=
  (data ∈ [4, 5] → divides o = true) ∧ (data ∈ [17, 18] → o.rhs.toNat < o.width)

/-- What is asked of an operation on a bit-field that holds `n` from the bit `off` on. -/
def Suits (d : BitfieldDecl) (off n : ℕ) (m : Memory) : Op → Prop
  | .read _ => d.Nonnegative n
  | .assign data _ signed rhs => ∃ value : Memory → LlvmInt, Computes rhs value ∧
      (value m).width ≤ unitBits d ∧
      if data = 19 then 0 ≤ (value m).read signed ∨ d.width ≤ (value m).width
      else data ∈ compoundCodes ∧ HasValue data (coerce (d.operand n) (value m)) ∧
        (data ∈ [4, 5, 18] → d.Nonnegative n)
  -- the whole unit is counted up or down
  | .incDec data _ => off = 0 ∧
      (d.width = unitBits d ∨ if data = 6 then n + 1 < 2 ^ d.width else 0 < n)

/-- The right side does not write to memory. -/
def Op.Quiet : Op → Prop
  | .assign _ _ _ rhs => ∀ s v s', rhs s = .ok (v, s') → s'.memory = s.memory
  | _ => True

/-- There is no bit-field up to the member, and its position is its index. -/
def PlainUpTo (name : String) (ms : List Member) : Prop :=
  ∀ x ∈ ms.take (ms.findIdx (fun m => m.name == name) + 1), ∀ d, x ≠ .bitfield d

/-- What is asked of an operation on a member of the record at `base`. -/
structure Allowed (R : Record tags) (base : ℕ) (op : Op) (m : Memory) : Prop where
  address : op.access.base m = base
  member : op.access.name ∈ R.members.map Member.name
  path : op.access.path = .ident ∨ PlainUpTo op.access.name R.members
  quiet : op.Quiet
  suits : ∀ e ∈ R.slots, e.1.name = op.access.name → ∀ d off, e.1 = .bitfield d →
    e.2.bitfield = some (off, d.width) →
      d.width ≤ unitBits d ∧ d.width < 64 ∧ Suits d off (R.content base m e) m op

/-- Each operation of the run is allowed where it comes. -/
def Meets (R : Record tags) (base : ℕ) : List Op → State → Prop
  | [], _ => True
  | op :: ops, s => Allowed R base op s.memory ∧
      ∀ v s', op.run R s = .ok (v, s') → Meets R base ops s'

end Conditions

section Operands

variable {w : ℕ} {x : LlvmInt}

/-- The operand that is no wider is brought to the width of the other. -/
theorem coerce_wide (hw : 0 < w) (hx : x.width ≤ w) :
    ∃ y : BitVec w, ∀ b : BitVec w, coerce ⟨w, hw, b⟩ x = ⟨w, hw, b, y⟩ := by
  obtain ⟨width, hwidth, bits⟩ := x
  by_cases h : w = width
  · subst h
    exact ⟨bits, fun b => dif_pos rfl⟩
  · have hlt : ¬w < width := Nat.not_lt.2 hx
    refine ⟨bits.signExtend w, fun b => ?_⟩
    unfold coerce
    rw [dif_neg h, if_neg hlt]

/-- Two operands that agree in the low bits give results that agree there. -/
theorem assignInt_low {data : ℕ} (hdata : data ∈ compoundCodes) (hw : 0 < w) (hx : x.width ≤ w)
    {k : ℕ} (hk : k ≤ w) {a b : BitVec w} (hlow : a.setWidth k = b.setWidth k)
    (hsame : data ∈ [4, 5, 18] → a = b) (hvalue : HasValue data (coerce ⟨w, hw, a⟩ x)) :
    ∃ r r' : BitVec w, assignInt data ⟨w, hw, a⟩ x = .ok (.int ⟨w, hw, r⟩) ∧
      assignInt data ⟨w, hw, b⟩ x = .ok (.int ⟨w, hw, r'⟩) ∧ r.setWidth k = r'.setWidth k := by
  obtain ⟨y, hy⟩ := coerce_wide hw hx
  obtain ⟨hdivides, hshift⟩ := hvalue
  rw [hy] at hdivides hshift
  unfold assignInt
  rw [hy, hy]
  simp only [compoundCodes, compoundTable, List.map_cons, List.map_nil, List.mem_cons,
    List.not_mem_nil, or_false] at hdata
  rcases hdata with rfl | rfl | rfl | rfl | rfl | rfl | rfl | rfl | rfl | rfl
  · refine ⟨_, _, rfl, rfl, ?_⟩
    rw [BitVec.setWidth_add _ _ hk, BitVec.setWidth_add _ _ hk, hlow]
  · refine ⟨_, _, rfl, rfl, ?_⟩
    rw [BitVec.sub_eq_add_neg, BitVec.sub_eq_add_neg, BitVec.setWidth_add _ _ hk,
      BitVec.setWidth_add _ _ hk, hlow]
  · refine ⟨_, _, rfl, rfl, ?_⟩
    rw [BitVec.setWidth_mul _ _ hk, BitVec.setWidth_mul _ _ hk, hlow]
  · have hab := hsame (by decide)
    have hok := hdivides (by decide)
    subst hab
    exact ⟨_, _, if_pos hok, if_pos hok, rfl⟩
  · have hab := hsame (by decide)
    have hok := hdivides (by decide)
    subst hab
    exact ⟨_, _, if_pos hok, if_pos hok, rfl⟩
  · refine ⟨_, _, rfl, rfl, ?_⟩
    rw [BitVec.setWidth_and, BitVec.setWidth_and, hlow]
  · refine ⟨_, _, rfl, rfl, ?_⟩
    rw [BitVec.setWidth_xor, BitVec.setWidth_xor, hlow]
  · refine ⟨_, _, rfl, rfl, ?_⟩
    rw [BitVec.setWidth_or, BitVec.setWidth_or, hlow]
  · have hab := hsame (by decide)
    have hok := hshift (by decide)
    subst hab
    exact ⟨_, _, if_pos hok, if_pos hok, rfl⟩
  · have hok := hshift (by decide)
    refine ⟨_, _, if_pos hok, if_pos hok, ?_⟩
    apply BitVec.eq_of_getLsbD_eq
    intro i hi
    have hbit := fun j => congrArg (fun z : BitVec k => z.getLsbD j) hlow
    simp only [BitVec.getLsbD_setWidth] at hbit
    simp only [BitVec.getLsbD_setWidth, BitVec.getLsbD_shiftLeft]
    have := hbit (i - y.toNat)
    by_cases hj : i < y.toNat
    · simp [hj]
    · have hlt : i - y.toNat < k := by omega
      simp only [hlt, decide_true, Bool.true_and] at this
      rw [this]

end Operands

section Values

variable {d : BitfieldDecl}

theorem value_toNat (x : BitVec d.width) :
    d.value x.toNat = if d.type.type.signed then x.toInt else x.toNat := by
  unfold BitfieldDecl.value
  rw [BitVec.ofNat_toNat, BitVec.setWidth_eq]

theorem value_nonnegative {x : BitVec d.width} (h : d.Nonnegative x.toNat) :
    d.value x.toNat = x.toNat := by
  rw [value_toNat]
  split
  · rename_i hsigned
    have hlt : x.toNat < 2 ^ (d.width - 1) := h.resolve_left (by simp [hsigned])
    have hpos := d.width_pos
    apply BitVec.toInt_eq_toNat_of_lt
    have hhalf : 2 ^ d.width = 2 * 2 ^ (d.width - 1) := by
      rw [← Nat.pow_succ']
      congr 1
      omega
    omega
  · rfl

/-- The low bits of the operand are those of the field. -/
theorem operand_low (hle : d.width ≤ unitBits d) (x : BitVec d.width) :
    (d.operand x.toNat).bits.setWidth d.width = x := by
  show (BitVec.ofInt (unitBits d) (d.value x.toNat)).setWidth d.width = x
  rw [value_toNat]
  split
  · show (x.signExtend (unitBits d)).setWidth d.width = x
    apply BitVec.eq_of_getLsbD_eq
    intro i hi
    have hlt : i < unitBits d := by omega
    rw [BitVec.getLsbD_setWidth, BitVec.getLsbD_signExtend, if_pos hi]
    simp [hi, hlt]
  · rw [BitVec.ofInt_natCast, BitVec.ofNat_toNat, BitVec.setWidth_setWidth_of_le _ hle,
      BitVec.setWidth_eq]

theorem operand_nonnegative {x : BitVec d.width} (h : d.Nonnegative x.toNat) :
    (d.operand x.toNat).bits = x.setWidth (unitBits d) := by
  show BitVec.ofInt (unitBits d) (d.value x.toNat) = _
  rw [value_nonnegative h, BitVec.ofInt_natCast, BitVec.ofNat_toNat]

theorem unitBits_le (d : BitfieldDecl) : unitBits d ≤ 64 := by
  unfold unitBits nodeKindBitWidth
  split <;> decide

/-- What is read is the value of the field when that is not negative. -/
theorem read_readField {off : ℕ} (hfits : FieldFits (unitBits d) (off, d.width))
    {unit : BitVec (unitBits d)} (h : d.Nonnegative (unit.extractLsb' off d.width).toNat)
    (hpos : 0 < unitBits d) :
    LlvmInt.read d.type.type.signed ⟨unitBits d, hpos, readField unit (off, d.width)⟩ =
      d.value (unit.extractLsb' off d.width).toNat := by
  have hle := hfits.le
  have hlt := (unit.extractLsb' off d.width).isLt
  have hpow : 2 ^ d.width ≤ 2 ^ unitBits d := Nat.pow_le_pow_right (by decide) (by simp only at hle; omega)
  rw [readField_eq hfits]
  simp only
  generalize unit.extractLsb' off d.width = x at *
  have hnat : (x.setWidth (unitBits d)).toNat = x.toNat := by
    rw [BitVec.toNat_setWidth, Nat.mod_eq_of_lt (by omega)]
  rw [value_nonnegative h]
  unfold LlvmInt.read
  split
  · rename_i hsigned
    have hsmall : x.toNat < 2 ^ (d.width - 1) := h.resolve_left (by simp [hsigned.1])
    have hhalf : 2 ^ d.width = 2 * 2 ^ (d.width - 1) := by
      have := d.width_pos
      rw [← Nat.pow_succ']
      congr 1
      omega
    show (x.setWidth (unitBits d)).toInt = _
    rw [BitVec.toInt_eq_toNat_of_lt (by omega), hnat]
  · exact congrArg Nat.cast hnat

end Values

section Steps

variable {R : Record tags}

theorem find?_plainUpTo {name : String} {ms : List Member} (hms : ∀ m ∈ ms, m.Valid tags)
    (h : PlainUpTo name ms) (hname : name ∈ ms.map Member.name) (idx : ℕ)
    (group : Option BitfieldGroup) : ∃ m, (gepInfo tags ms idx group).find?
      (fun e => e.1.name == name) =
        some (m, ⟨idx + ms.findIdx fun m => m.name == name, none⟩) := by
  induction ms generalizing idx group with
  | nil => exact absurd hname List.not_mem_nil
  | cons m ms ih =>
    have hplain : ∀ d, m ≠ .bitfield d := h m (by rw [List.take_succ_cons]; exact List.mem_cons_self)
    cases adds idx group (hms m List.mem_cons_self) with
    | joins d g hm => exact absurd hm (hplain d)
    | opens d hm => exact absurd hm (hplain d)
    | takes _ _ _ hslot hfield =>
      rw [gepInfo, List.find?_cons, hslot, hfield, List.findIdx_cons]
      by_cases heq : m.name = name
      · refine ⟨m, ?_⟩
        rw [beq_iff_eq.2 heq]
        rfl
      · have hne : (m.name == name) = false := beq_eq_false_iff_ne.2 heq
        have hrest : name ∈ ms.map Member.name := by
          rw [List.map_cons, List.mem_cons] at hname
          exact hname.resolve_left fun h => heq h.symm
        have hup : PlainUpTo name ms := by
          intro x hx
          apply h x
          rw [List.findIdx_cons, hne]
          exact List.mem_cons_of_mem m hx
        obtain ⟨m', hfind⟩ := ih (fun x hx => hms x (List.mem_cons_of_mem m hx)) hup hrest (idx + 1) none
        refine ⟨m', ?_⟩
        rw [hne]
        refine hfind.trans ?_
        rw [Nat.add_assoc, Nat.add_comm 1]
        rfl

/-- Where the member that is accessed lies. -/
theorem lvalue_eq {a : Access} (hname : a.name ∈ R.members.map Member.name)
    (hpath : a.path = .ident ∨ PlainUpTo a.name R.members) :
    ∃ e ∈ R.slots, e.1.name = a.name ∧ lowerMemberAccessPtr R a =
      memberLvalue (fun m => R.address (a.base m) e.2.index) (fieldType tags e.1) e.2.bitfield := by
  have hfind : ∃ e, R.slots.find? (fun e => e.1.name == a.name) = some e := by
    rw [← R.slots_names, List.mem_map] at hname
    obtain ⟨e, he, heq⟩ := hname
    apply Option.isSome_iff_exists.1
    rw [List.find?_isSome]
    exact ⟨e, he, beq_iff_eq.2 heq⟩
  obtain ⟨e, he⟩ := hfind
  have hmem := List.mem_of_find?_eq_some he
  have heq : e.1.name = a.name := by
    have := List.find?_some he
    exact beq_iff_eq.1 this
  have htype := (R.slots_holds e hmem).type
  have hident : (do
      let e ← R.slots.find? fun e => e.1.name == a.name
      let ty ← R.types[e.2.index]?
      memberLvalue (fun m => R.address (a.base m) e.2.index) ty e.2.bitfield) =
        memberLvalue (fun m => R.address (a.base m) e.2.index) (fieldType tags e.1) e.2.bitfield := by
    rw [he]
    show (R.types[e.2.index]?).bind _ = _
    rw [htype]
    rfl
  refine ⟨e, hmem, heq, ?_⟩
  unfold lowerMemberAccessPtr
  cases hp : a.path with
  | ident => exact hident
  | nested =>
    have hup : PlainUpTo a.name R.members := hpath.resolve_left (by rw [hp]; decide)
    obtain ⟨m, hpos⟩ := find?_plainUpTo R.valid hup hname 0 none
    have hslot : e = (m, ⟨0 + R.members.findIdx fun m => m.name == a.name, none⟩) :=
      Option.some.inj (he.symm.trans hpos)
    rw [Nat.zero_add] at hslot
    have hindex : e.2.index = R.members.findIdx fun m => m.name == a.name := by rw [hslot]
    have hnone : e.2.bitfield = none := by rw [hslot]
    show (R.types[R.members.findIdx fun m => m.name == a.name]?).bind _ = _
    rw [← hindex, htype, hnone]
    rfl

/-- The members have different names. -/
theorem eq_of_name {e e' : Member × Slot} (he : e ∈ R.slots) (he' : e' ∈ R.slots)
    (h : e.1.name = e'.1.name) : e = e' := by
  have hnodup : (R.slots.map fun e => e.1.name).Nodup := by
    rw [R.slots_names]
    exact R.nodup
  exact List.inj_on_of_nodup_map hnodup he he' h

/-- A value that is written to a member in whole changes no other member. -/
theorem content_write_member {e : Member × Slot} (he : e ∈ R.slots) (hnone : e.2.bitfield = none)
    {bytes : List UInt8} (hlength : bytes.length ≤ allocSize (fieldType tags e.1)) (base : ℕ)
    (m : Memory) : ∀ e' ∈ R.slots, e' ≠ e →
      R.content base (write m (R.address base e.2.index) bytes) e' = R.content base m e' := by
  intro e' he' hne
  apply Record.content_write he he' _ hlength
  intro hindex
  obtain ⟨d, f, d', f', -, hf, -⟩ := Record.same_field he he' hne.symm hindex
  rw [hnone] at hf
  cases hf

/-- A unit that keeps the bits beside the field changes no other member. -/
theorem content_store_unit {e : Member × Slot} (he : e ∈ R.slots) {d : BitfieldDecl}
    (hd : e.1 = .bitfield d) {off : ℕ} (hf : e.2.bitfield = some (off, d.width)) {base : ℕ}
    {m : Memory} {unit : BitVec (unitBits d)}
    (hkeep : ∀ i, ¬(off ≤ i ∧ i < off + d.width) →
      unit.getLsbD i = (buildLoad (unitBits d) m (R.address base e.2.index)).getLsbD i) :
    R.content base (buildStore m (R.address base e.2.index) unit) e =
        (unit.extractLsb' off d.width).toNat ∧
      ∀ e' ∈ R.slots, e' ≠ e →
        R.content base (buildStore m (R.address base e.2.index) unit) e' = R.content base m e' := by
  constructor
  · unfold Record.content
    rw [hd, hf]
    show (BitVec.extractLsb' off d.width (buildLoad _ _ _)).toNat = _
    rw [buildLoad_buildStore]
  · intro e' he' hne
    by_cases hindex : e.2.index = e'.2.index
    · obtain ⟨d₁, f, d', f', hd₁, hf₁, hd', hf', hunit, hbits⟩ :=
        Record.same_field he he' hne.symm hindex
      rw [hd] at hd₁
      cases hd₁
      rw [hf] at hf₁
      cases hf₁
      unfold Record.content
      rw [hd', hf', ← hindex]
      show (BitVec.extractLsb' f'.1 f'.2 (buildLoad _ _ _)).toNat =
        (BitVec.extractLsb' f'.1 f'.2 (buildLoad _ _ _)).toNat
      rw [hunit, buildLoad_buildStore]
      congr 1
      apply BitVec.eq_of_getLsbD_eq
      intro i hi
      rw [BitVec.getLsbD_extractLsb', BitVec.getLsbD_extractLsb', hkeep]
      simp only at hbits
      omega
    · apply Record.content_write he he' hindex
      rw [hd, leBytes_length]
      exact bytes_le_allocSize _

/-- An operation on an lvalue that is no bit-field writes there, if anywhere. -/
theorem runAt_plain {a : Lvalue} (hnone : a.bitfield = none) {op : Op} (hquiet : op.Quiet)
    {s s' : State} {v : Value} (hrun : op.runAt a s = .ok (v, s')) :
    ∃ bytes : List UInt8, bytes.length ≤ accessBytes a.type ∧
      s'.memory = write s.memory (a.address s.memory) bytes := by
  cases op with
  | read access =>
    obtain ⟨flag, hread⟩ := readLvalue_eq a s
    have hstate : s' = ⟨s.memory, flag⟩ := congrArg Prod.snd (Except.ok.inj (hrun.symm.trans hread))
    refine ⟨[], Nat.zero_le _, ?_⟩
    rw [hstate, write_nil]
  | assign data access signed rhs =>
    cases hrhs : rhs s with
    | error failure =>
      have herror : lowerAssignExpr data a rhs s = .error failure := by
        unfold lowerAssignExpr
        rw [hrhs]
        rfl
      cases hrun.symm.trans herror
    | ok result =>
      have hmemory : rhs s = .ok (result.1, ⟨s.memory, result.2.lastBitfieldAccess⟩) := by
        rw [← hquiet s result.1 result.2 hrhs, hrhs]
      have heffect : .ok (v, s'.memory) =
          (newValue data (current a s.memory) result.1).bind (finish a s.memory) :=
        (congrArg effect hrun).symm.trans (effect_assign hmemory)
      cases hnew : newValue data (current a s.memory) result.1 with
      | error failure =>
        rw [hnew] at heffect
        cases heffect
      | ok value =>
        rw [hnew] at heffect
        have hfinish : finish a s.memory value =
            .ok (storeValue (a.address s.memory) a.type s.memory value) := by
          rw [finish, hnone]
        have hstore : s'.memory = (storeValue (a.address s.memory) a.type s.memory value).2 :=
          congrArg Prod.snd (Except.ok.inj (heffect.trans hfinish))
        rw [hstore]
        exact storeValue_writes (a.address s.memory) a.type s.memory value
  | incDec data access =>
    have hmemory : _ = s'.memory := congrArg (fun p => p.2.memory) (Except.ok.inj hrun)
    cases htype : a.type with
    | int w h =>
      simp only [htype, load] at hmemory
      exact ⟨_, Nat.le_of_eq (leBytes_length _ _), hmemory.symm⟩
    | ptr =>
      simp only [htype, load] at hmemory
      exact ⟨_, Nat.le_of_eq (leBytes_length _ _), hmemory.symm⟩

/-- The pointer to a member that is no bit-field, if there is one. -/
theorem memberLvalue_plain {address : Memory → ℕ} {ty : BasicType} {a : Lvalue}
    (h : memberLvalue address ty none = some a) :
    a.address = address ∧ a.bitfield = none ∧ accessBytes a.type ≤ allocSize ty := by
  unfold memberLvalue at h
  split at h
  · rename_i w
    split at h
    · cases h
      exact ⟨rfl, rfl, bytes_le_allocSize w⟩
    · cases h
  · cases h
    exact ⟨rfl, rfl, Nat.le_refl 8⟩
  · cases h

end Steps

section Counting

variable {w k : ℕ}

theorem toNat_one (hw : 0 < w) : (1 : BitVec w).toNat = 1 := by
  have hpow : 2 ^ 1 ≤ 2 ^ w := Nat.pow_le_pow_right (by decide) hw
  show 1 % 2 ^ w = 1
  exact Nat.mod_eq_of_lt (by omega)

/-- The low bits count as a number of their own. -/
theorem low_add_one (hw : 0 < w) (hk : k ≤ w) (x : BitVec w) :
    (((x + 1).toNat % 2 ^ k : ℕ) : ℤ) = ((x.toNat % 2 ^ k : ℕ) + 1) % 2 ^ k := by
  have hdvd : 2 ^ k ∣ 2 ^ w := pow_dvd_pow 2 hk
  rw [BitVec.toNat_add, toNat_one hw, Nat.mod_mod_of_dvd _ hdvd]
  push_cast
  rw [Int.emod_add_emod]

theorem low_sub_one (hw : 0 < w) (hk : k ≤ w) (x : BitVec w) :
    (((x - 1).toNat % 2 ^ k : ℕ) : ℤ) = ((x.toNat % 2 ^ k : ℕ) - 1) % 2 ^ k := by
  have hdvd : 2 ^ k ∣ 2 ^ w := pow_dvd_pow 2 hk
  have hdvd' : (2 : ℤ) ^ k ∣ 2 ^ w := pow_dvd_pow 2 hk
  have hpos : 1 ≤ 2 ^ w := Nat.one_le_two_pow
  rw [BitVec.toNat_sub, toNat_one hw, Nat.mod_mod_of_dvd _ hdvd]
  push_cast [hpos]
  rw [Int.emod_sub_emod]
  apply Int.emod_eq_emod_iff_emod_sub_eq_zero.2
  apply Int.emod_eq_zero_of_dvd
  have heq : (2 : ℤ) ^ w - 1 + x.toNat - (x.toNat - 1) = 2 ^ w := by omega
  rw [heq]
  exact hdvd'

/-- The bits from `k` on are those of the quotient. -/
theorem high_bits {x y : BitVec w} (h : y.toNat / 2 ^ k = x.toNat / 2 ^ k) {i : ℕ} (hi : k ≤ i) :
    y.getLsbD i = x.getLsbD i := by
  obtain ⟨j, rfl⟩ := Nat.exists_eq_add_of_le' hi
  rw [← BitVec.testBit_toNat, ← BitVec.testBit_toNat, ← Nat.testBit_div_two_pow,
    ← Nat.testBit_div_two_pow, h]

theorem high_add_one (hw : 0 < w) (hk : k ≤ w) {x : BitVec w} (h : x.toNat % 2 ^ k + 1 < 2 ^ k) :
    (x + 1).toNat / 2 ^ k = x.toNat / 2 ^ k := by
  have hlt := x.isLt
  have hdiv := Nat.div_add_mod x.toNat (2 ^ k)
  have hpow : 2 ^ w = 2 ^ k * 2 ^ (w - k) := by
    rw [← Nat.pow_add]
    congr 1
    omega
  have hq : x.toNat / 2 ^ k < 2 ^ (w - k) := by
    apply Nat.div_lt_of_lt_mul
    rw [← hpow]
    exact hlt
  have hle : 2 ^ k * (x.toNat / 2 ^ k + 1) ≤ 2 ^ k * 2 ^ (w - k) := Nat.mul_le_mul_left _ hq
  rw [Nat.mul_add, Nat.mul_one] at hle
  rw [BitVec.toNat_add, toNat_one hw, Nat.mod_eq_of_lt (by omega)]
  apply Nat.div_eq_of_lt_le
  · rw [Nat.mul_comm]
    omega
  · rw [Nat.mul_comm, Nat.mul_add, Nat.mul_one]
    omega

theorem high_sub_one (hw : 0 < w) {x : BitVec w} (h : 0 < x.toNat % 2 ^ k) :
    (x - 1).toNat / 2 ^ k = x.toNat / 2 ^ k := by
  have hlt := x.isLt
  have hdiv := Nat.div_add_mod x.toNat (2 ^ k)
  have hmod := Nat.mod_lt x.toNat (Nat.two_pow_pos k)
  have hsub : (x - 1).toNat = x.toNat - 1 := by
    rw [BitVec.toNat_sub, toNat_one hw]
    have heq : 2 ^ w - 1 + x.toNat = x.toNat - 1 + 2 ^ w := by omega
    rw [heq, Nat.add_mod_right, Nat.mod_eq_of_lt (by omega)]
  rw [hsub]
  apply Nat.div_eq_of_lt_le
  · rw [Nat.mul_comm]
    omega
  · rw [Nat.mul_comm, Nat.mul_add, Nat.mul_one]
    omega

end Counting

section BitfieldSteps

variable {R : Record tags} {base : ℕ} {e : Member × Slot} {d : BitfieldDecl} {off : ℕ}

theorem content_bitfield (base : ℕ) (hd : e.1 = .bitfield d) (hf : e.2.bitfield = some (off, d.width))
    (m : Memory) : R.content base m e =
      ((buildLoad (unitBits d) m (R.address base e.2.index)).extractLsb' off d.width).toNat := by
  unfold Record.content
  rw [hd, hf]

/-- The pointer to a bit-field. -/
structure PointsTo (a : Lvalue) (d : BitfieldDecl) (off address : ℕ) (m : Memory) : Prop where
  kind : a.kind = .member
  address : a.address m = address
  type : a.type = .int (unitBits d) (unitBits_pos d)
  bitfield : a.bitfield = some (off, d.width)

/-- The step of an operation on a bit-field: its value, its number and the other members. -/
def StepsTo (R : Record tags) (base : ℕ) (e : Member × Slot) (d : BitfieldDecl) (op : Op)
    (s : State) (result : Except Failure (Value × State)) : Prop :=
  ∃ v s', result = .ok (v, s') ∧
    Follows d (R.content base s.memory e) s.memory op v (R.content base s'.memory e) ∧
    ∀ e' ∈ R.slots, e' ≠ e → R.content base s'.memory e' = R.content base s.memory e'

variable {a : Lvalue} {s : State}

theorem read_step (hd : e.1 = .bitfield d) (hf : e.2.bitfield = some (off, d.width))
    (hfits : FieldFits (unitBits d) (off, d.width))
    (ha : PointsTo a d off (R.address base e.2.index) s.memory) {access : Access}
    (hsuits : Suits d off (R.content base s.memory e) s.memory (.read access)) :
    StepsTo R base e d (.read access) s (readLvalue a s) := by
  have hread : readLvalue a s = .ok (.int ⟨unitBits d, unitBits_pos d,
      readField (buildLoad (unitBits d) s.memory (R.address base e.2.index)) (off, d.width)⟩,
        ⟨s.memory, none⟩) := by
    unfold readLvalue
    simp only [ha.kind, lowerLvaluePtr, takeBitfield, ha.bitfield, ha.type, ha.address]
  refine ⟨_, _, hread, ⟨rfl, _, rfl, ?_⟩, fun _ _ _ => rfl⟩
  rw [content_bitfield base hd hf] at hsuits ⊢
  exact read_readField hfits hsuits (unitBits_pos d)

/-- A new number that is put into the field. -/
theorem insert_step (base : ℕ) (he : e ∈ R.slots) (hd : e.1 = .bitfield d)
    (hf : e.2.bitfield = some (off, d.width)) (hfits : FieldFits (unitBits d) (off, d.width))
    (m : Memory) (new : BitVec (unitBits d)) :
    let m' := buildStore m (R.address base e.2.index)
      (insertField (buildLoad (unitBits d) m (R.address base e.2.index)) new (off, d.width))
    R.content base m' e = new.toNat % 2 ^ d.width ∧
      ∀ e' ∈ R.slots, e' ≠ e → R.content base m' e' = R.content base m e' := by
  have hkeep : ∀ i, ¬(off ≤ i ∧ i < off + d.width) →
      (insertField (buildLoad (unitBits d) m (R.address base e.2.index)) new
        (off, d.width)).getLsbD i =
          (buildLoad (unitBits d) m (R.address base e.2.index)).getLsbD i := by
    intro i hi
    rw [getLsbD_insertField hfits, if_neg hi]
  obtain ⟨hown, hothers⟩ := content_store_unit he hd hf hkeep
  refine ⟨?_, hothers⟩
  rw [hown, extract_insertField hfits, BitVec.toNat_setWidth]

theorem assign_step (he : e ∈ R.slots) (hd : e.1 = .bitfield d)
    (hf : e.2.bitfield = some (off, d.width)) (hfits : FieldFits (unitBits d) (off, d.width))
    (ha : PointsTo a d off (R.address base e.2.index) s.memory) {data : ℕ} {access : Access}
    {signed : Bool} {rhs : Run}
    (hsuits : Suits d off (R.content base s.memory e) s.memory (.assign data access signed rhs)) :
    StepsTo R base e d (.assign data access signed rhs) s (lowerAssignExpr data a rhs s) := by
  obtain ⟨value, hvalue, hwidth, hsuits⟩ := hsuits
  obtain ⟨flag, hrhs⟩ := hvalue s
  have hle : d.width ≤ unitBits d := Nat.le_trans (Nat.le_add_left _ _) hfits.le
  generalize hunit : buildLoad (unitBits d) s.memory (R.address base e.2.index) = unit
  -- what is put into the field when the new value is an integer
  have hrun : ∀ x : LlvmInt, x.width ≤ unitBits d →
      newValue data (.int ⟨unitBits d, unitBits_pos d, readField unit (off, d.width)⟩)
        (.int (value s.memory)) = .ok (.int x) →
      lowerAssignExpr data a rhs s = .ok
        (.int ⟨unitBits d, unitBits_pos d, maskedNew (x.bits.setWidth (unitBits d)) (off, d.width)⟩,
          ⟨buildStore s.memory (R.address base e.2.index)
            (insertField unit (x.bits.setWidth (unitBits d)) (off, d.width)), none⟩) := by
    intro x hx hnew
    unfold lowerAssignExpr
    rw [hrhs]
    simp only [bind, Except.bind, lowerLvaluePtr, takeBitfield, ha.bitfield, ha.type, ha.address,
      hunit, hnew, toUnit, if_pos hx]
  have hinsert := fun new => insert_step base he hd hf hfits s.memory new
  rw [hunit] at hinsert
  have hmod : ∀ x : LlvmInt, x.width ≤ unitBits d →
      (x.bits.setWidth (unitBits d)).toNat = x.bits.toNat := by
    intro x hx
    have hlt := x.bits.isLt
    have hpow : 2 ^ x.width ≤ 2 ^ unitBits d := Nat.pow_le_pow_right (by decide) hx
    rw [BitVec.toNat_setWidth, Nat.mod_eq_of_lt (by omega)]
  by_cases hplain : data = 19
  · rw [if_pos hplain] at hsuits
    have hnew : newValue data (.int ⟨unitBits d, unitBits_pos d, readField unit (off, d.width)⟩)
        (.int (value s.memory)) = .ok (.int (value s.memory)) := if_pos hplain
    obtain ⟨hown, hothers⟩ := hinsert ((value s.memory).bits.setWidth (unitBits d))
    refine ⟨_, _, hrun _ hwidth hnew, ⟨value, hvalue, ?_⟩, hothers⟩
    rw [if_pos hplain]
    simp only
    rw [hown, hmod _ hwidth]
    rcases hsuits with hnonneg | hwide
    · rw [LlvmInt.read_of_nonneg hnonneg]
      push_cast
      rfl
    · have hdvd : (2 : ℤ) ^ d.width ∣ 2 ^ (value s.memory).width := pow_dvd_pow 2 hwide
      have hlow := congrArg (· % (2 : ℤ) ^ d.width) (LlvmInt.read_emod signed (value s.memory))
      simp only [Int.emod_emod_of_dvd _ hdvd] at hlow
      rw [hlow]
      push_cast
      rfl
  · rw [if_neg hplain] at hsuits
    obtain ⟨hdata, hhas, hsign⟩ := hsuits
    rw [content_bitfield base hd hf, hunit] at hhas hsign
    have hfield := readField_eq hfits unit
    simp only at hfield
    obtain ⟨r, r', habstract, hcode, hlow⟩ := assignInt_low hdata (unitBits_pos d) hwidth hle
      (b := readField unit (off, d.width))
      (by
        refine (operand_low hle _).trans ?_
        rw [hfield, BitVec.setWidth_setWidth_of_le _ hle, BitVec.setWidth_eq])
      (fun hmem => (operand_nonnegative (hsign hmem)).trans hfield.symm) hhas
    have hnew : newValue data (.int ⟨unitBits d, unitBits_pos d, readField unit (off, d.width)⟩)
        (.int (value s.memory)) = .ok (.int ⟨unitBits d, unitBits_pos d, r'⟩) := by
      unfold newValue applyAssignmentOp
      rw [if_neg hplain, if_neg hplain]
      exact hcode
    obtain ⟨hown, hothers⟩ := hinsert (r'.setWidth (unitBits d))
    refine ⟨_, _, hrun _ (Nat.le_refl _) hnew, ⟨value, hvalue, ?_⟩, hothers⟩
    rw [if_neg hplain]
    refine ⟨⟨unitBits d, unitBits_pos d, r⟩, ?_, ?_⟩
    · rw [content_bitfield base hd hf, hunit]
      exact habstract
    · have hnat := congrArg BitVec.toNat hlow
      rw [BitVec.toNat_setWidth, BitVec.toNat_setWidth] at hnat
      simp only
      rw [hown, BitVec.setWidth_eq, hnat]

theorem incDec_step (he : e ∈ R.slots) (hd : e.1 = .bitfield d)
    (hf : e.2.bitfield = some (off, d.width)) (hle : d.width ≤ unitBits d)
    (ha : PointsTo a d off (R.address base e.2.index) s.memory) {data : ℕ} {access : Access}
    (hsuits : Suits d off (R.content base s.memory e) s.memory (.incDec data access)) :
    StepsTo R base e d (.incDec data access) s (lowerIncDec data a s) := by
  obtain ⟨rfl, hsuits⟩ := hsuits
  have hcontent := content_bitfield (R := R) base hd hf s.memory
  have hw := unitBits_pos d
  generalize hunit : buildLoad (unitBits d) s.memory (R.address base e.2.index) = unit at hcontent
  have hlow : ∀ x : BitVec (unitBits d), (x.extractLsb' 0 d.width).toNat = x.toNat % 2 ^ d.width :=
    fun x => by rw [BitVec.extractLsb'_toNat, Nat.shiftRight_zero]
  rw [hlow] at hcontent
  have hrun : lowerIncDec data a s = .ok
      (.int ⟨unitBits d, hw, if data = 6 then unit + 1 else unit - 1⟩,
        ⟨buildStore s.memory (R.address base e.2.index) (if data = 6 then unit + 1 else unit - 1),
          some (0, d.width)⟩) := by
    unfold lowerIncDec
    simp only [lowerLvaluePtr, ha.bitfield, ha.type, ha.address, load, hunit, store]
  have hkeep : ∀ i, ¬(0 ≤ i ∧ i < 0 + d.width) →
      (if data = 6 then unit + 1 else unit - 1).getLsbD i =
        (buildLoad (unitBits d) s.memory (R.address base e.2.index)).getLsbD i := by
    intro i hi
    rw [hunit]
    rcases hsuits with hfull | hcarry
    · rw [BitVec.getLsbD_of_ge _ i (by omega), BitVec.getLsbD_of_ge _ i (by omega)]
    · rw [hcontent] at hcarry
      apply high_bits (k := d.width) _ (by omega)
      split_ifs at hcarry ⊢
      · exact high_add_one hw hle hcarry
      · exact high_sub_one hw hcarry
  obtain ⟨hown, hothers⟩ := content_store_unit he hd hf hkeep
  refine ⟨_, _, hrun, ?_, hothers⟩
  show ((R.content base _ e : ℕ) : ℤ) = _
  rw [hown, hlow, hcontent]
  split
  · exact low_add_one hw hle unit
  · exact low_sub_one hw hle unit

end BitfieldSteps

section Runs

variable {R : Record tags} {base : ℕ}

theorem mem_of_slots {e : Member × Slot} (he : e ∈ R.slots) : e.1 ∈ R.members := by
  have hfst : (gepInfo tags R.members 0 none).map Prod.fst = R.members :=
    Record.map_fst_gepInfo R.members 0 none
  rw [← hfst]
  exact List.mem_map_of_mem he

/-- The pointer to a bit-field, with the flag. -/
theorem memberLvalue_bitfield (address : Memory → ℕ) (d : BitfieldDecl) (off : ℕ) :
    ∃ a, memberLvalue address (.int (unitBits d)) (some (off, d.width)) = some a ∧
      ∀ m, PointsTo a d off (address m) m :=
  ⟨_, dif_pos (unitBits_pos d), fun _ => ⟨rfl, rfl, rfl, rfl⟩⟩

/-- The step: an allowed operation does what C says of its member, and leaves the others alone. -/
theorem step {op : Op} {s : State} (h : Allowed R base op s.memory) :
    ∃ e ∈ R.slots, e.1.name = op.access.name ∧
      match op.run R s with
      | .error _ => ∀ d, e.1 ≠ .bitfield d
      | .ok (v, s') => (∀ d, e.1 = .bitfield d →
          Follows d (R.content base s.memory e) s.memory op v (R.content base s'.memory e)) ∧
            ∀ e' ∈ R.slots, e' ≠ e → R.content base s'.memory e' = R.content base s.memory e' := by
  obtain ⟨e, he, hname, hlvalue⟩ := lvalue_eq h.member h.path
  refine ⟨e, he, hname, ?_⟩
  have hholds := R.slots_holds e he
  cases hmember : e.1 with
  | bitfield d =>
    obtain ⟨off, hf, hroom⟩ := hholds.bitfield d hmember
    obtain ⟨hle, hlt, hsuits⟩ := h.suits e he hname d off hmember hf
    have hfits : FieldFits (unitBits d) (off, d.width) := by
      refine ⟨unitBits_le d, d.width_pos, ?_, hlt⟩
      show off + d.width ≤ unitBits d
      omega
    obtain ⟨a, ha, hpoints⟩ := memberLvalue_bitfield
      (fun m => R.address (op.access.base m) e.2.index) d off
    have hpoint : PointsTo a d off (R.address base e.2.index) s.memory := by
      have := hpoints s.memory
      rwa [h.address] at this
    rw [hmember, hf] at hlvalue
    have hrun : op.run R s = op.runAt a s := by
      unfold Op.run
      rw [hlvalue]
      show (match memberLvalue _ (.int (unitBits d)) _ with
        | none => _
        | some lvalue => op.runAt lvalue s) = _
      rw [ha]
    have hstep : StepsTo R base e d op s (op.runAt a s) := by
      cases op with
      | read access => exact read_step hmember hf hfits hpoint hsuits
      | assign data access signed rhs => exact assign_step he hmember hf hfits hpoint hsuits
      | incDec data access => exact incDec_step he hmember hf hle hpoint hsuits
    obtain ⟨v, s', hok, hfollows, hothers⟩ := hstep
    rw [hrun, hok]
    refine ⟨?_, hothers⟩
    rintro d' heq
    cases heq
    exact hfollows
  | plain name decl =>
    have hnone := hholds.plain name decl hmember
    cases hrun : op.run R s with
    | error failure => exact nofun
    | ok result =>
      refine ⟨nofun, ?_⟩
      unfold Op.run at hrun
      rw [hlvalue, hnone] at hrun
      split at hrun
      · cases hrun
      · rename_i a hsome
        obtain ⟨haddress, hfield, hbytes⟩ := memberLvalue_plain hsome
        obtain ⟨bytes, hlength, hwrite⟩ := runAt_plain hfield h.quiet hrun
        have hbase : a.address s.memory = R.address base e.2.index := by
          rw [haddress, ← h.address]
        rw [hwrite, hbase]
        exact content_write_member he hnone (Nat.le_trans hlength hbytes) base s.memory

end Runs

section Example

/-- An unsigned bit-field -/
def unsignedField (name : String) (width : ℕ) (h : 0 < width) (hle : width ≤ 32) : BitfieldDecl :=
  ⟨name, ⟨[.unsigned], _, rfl⟩, width, h, hle⟩

/-- `struct { unsigned low : 3; unsigned high : 5; }` -/
def flags : Record (fun _ => none) where
  packed := false
  members := [.bitfield (unsignedField "low" 3 (by decide) (by decide)),
    .bitfield (unsignedField "high" 5 (by decide) (by decide))]
  nodup := by decide
  plain := by simp

def zeros : State := ⟨fun _ => 0, none⟩

def flagsAccess (name : String) : Access := ⟨.ident, fun _ => 0, name⟩

theorem content_zeros : ∀ e ∈ flags.slots, flags.content 0 zeros.memory e = 0 := by
  intro e he
  rcases List.mem_cons.1 he with rfl | he
  · decide
  · rw [List.mem_singleton.1 he]
    decide

end Example

end OpticC.Bitfields
