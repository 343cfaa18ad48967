import OpticC.Types.StructLayout

/-! The layout of a struct over unbounded integers. It is sound for all lists of members, and it
is what `compute_layout_info` computes as long as no sum that it forms overflows. -/

namespace OpticC.StructLayout

open Layout

/-- A bit-field unit: where it starts, its bytes, and the bits given away. -/
structure BitUnit where
  base : ℕ
  size : ℕ
  used : ℕ

/-- Where the next member can go: after the bytes so far, or into an open unit. -/
inductive Frontier
  | bytes (offset : ℕ)
  | bits (unit : BitUnit)

def StructMember.width (m : StructMember) : ℕ := m.bitWidth.getD 0

/-- The bits of a unit as the `u32` that the loop compares with. -/
def unitBits (size : ℕ) : ℕ := size * 8 % 2 ^ 32

def BitUnit.Takes (u : BitUnit) (width : ℕ) : Prop := u.used + width ≤ unitBits u.size

instance (u : BitUnit) (width : ℕ) : Decidable (u.Takes width) :=
  inferInstanceAs (Decidable (_ ≤ _))

namespace Frontier

/-- The first byte that no member has, open units counted as a whole. -/
def free : Frontier → ℕ
  | bytes offset => offset
  | bits u => u.base + u.size

/-- The first bit that no member has. -/
def bit : Frontier → ℕ
  | bytes offset => 8 * offset
  | bits u => 8 * u.base + u.used

def Valid : Frontier → Prop
  | bytes _ => True
  | bits u => u.used ≤ 8 * u.size

variable (T : TypeSystem) (m : StructMember)

/-- The unit that a bit-field goes to: the open one, or a new one. -/
def unitFor : Frontier → BitUnit
  | bytes offset => ⟨roundUp offset (T.alignOf m.typeId), T.sizeOf m.typeId, 0⟩
  | bits u =>
    if u.Takes m.width then u
    else ⟨roundUp (u.base + u.size) (T.alignOf m.typeId), T.sizeOf m.typeId, 0⟩

def next (f : Frontier) : Frontier :=
  if m.Shares then
    let u := f.unitFor T m
    bits { u with used := u.used + m.width }
  else bytes (roundUp f.free (T.alignOf m.typeId) + T.sizeOf m.typeId)

/-- The member as it is laid out. -/
def place (f : Frontier) : StructMember :=
  if m.Shares then
    let u := f.unitFor T m
    ⟨m.name, m.typeId, u.base, some u.used, some m.width⟩
  else
    let kept := m.bitOffset.isSome && m.bitWidth.isSome
    ⟨m.name, m.typeId, roundUp f.free (T.alignOf m.typeId),
      if kept then m.bitOffset else none, if kept then m.bitWidth else none⟩

/-- The sums formed for a member fit in 64 bits, and the open unit has a `u32` of bits that its
bit-fields do not exceed. -/
def Room (f : Frontier) : Prop :=
  if m.Shares then
    match f with
    | bytes offset => offset + T.alignOf m.typeId < 2 ^ 64
    | bits u => u.size * 8 < 2 ^ 64 ∧ u.used ≤ unitBits u.size ∧
        (u.Takes m.width ∨ u.base + u.size + T.alignOf m.typeId < 2 ^ 64)
  else f.free + T.alignOf m.typeId < 2 ^ 64 ∧
    roundUp f.free (T.alignOf m.typeId) + T.sizeOf m.typeId < 2 ^ 64

instance (f : Frontier) : Decidable (f.Room T m) :=
  match f with
  | bytes offset => inferInstanceAs (Decidable (if m.Shares then
      offset + T.alignOf m.typeId < 2 ^ 64
    else offset + T.alignOf m.typeId < 2 ^ 64 ∧
      roundUp offset (T.alignOf m.typeId) + T.sizeOf m.typeId < 2 ^ 64))
  | bits u => inferInstanceAs (Decidable (if m.Shares then
      u.size * 8 < 2 ^ 64 ∧ u.used ≤ unitBits u.size ∧
        (u.Takes m.width ∨ u.base + u.size + T.alignOf m.typeId < 2 ^ 64)
    else u.base + u.size + T.alignOf m.typeId < 2 ^ 64 ∧
      roundUp (u.base + u.size) (T.alignOf m.typeId) + T.sizeOf m.typeId < 2 ^ 64))

end Frontier

variable (T : TypeSystem)

/-- The members as they are laid out from a frontier on. -/
def placeAll : Frontier → List StructMember → List StructMember
  | _, [] => []
  | f, m :: ms => f.place T m :: placeAll (f.next T m) ms

def lastFrontier : Frontier → List StructMember → Frontier
  | f, [] => f
  | f, m :: ms => lastFrontier (f.next T m) ms

def RoomAll : Frontier → List StructMember → Prop
  | _, [] => True
  | f, m :: ms => f.Room T m ∧ RoomAll (f.next T m) ms

instance decidableRoomAll : (f : Frontier) → (ms : List StructMember) → Decidable (RoomAll T f ms)
  | _, [] => inferInstanceAs (Decidable True)
  | f, m :: ms =>
    have := decidableRoomAll (f.next T m) ms
    inferInstanceAs (Decidable (_ ∧ _))

/-- All sums of the layout fit in 64 bits: for a struct those at each member and those that end
it, for a union the one that rounds its size up. -/
def Fits (isUnion : Bool) (ms : List StructMember) : Prop :=
  if isUnion then
    maxSize (ms.map fun m => ⟨T.sizeOf m.typeId, 0⟩) + maxAlignOf T ms < 2 ^ 64
  else RoomAll T (.bytes 0) ms ∧ (lastFrontier T (.bytes 0) ms).free + maxAlignOf T ms < 2 ^ 64

instance (isUnion : Bool) (ms : List StructMember) : Decidable (Fits T isUnion ms) :=
  inferInstanceAs (Decidable (if isUnion then _ else _))

section Soundness

variable {T}

namespace Frontier

variable {m : StructMember} {f : Frontier}

theorem unitFor_valid (hf : f.Valid) (hm : Declared T m) :
    (f.unitFor T m).used + m.width ≤ 8 * (f.unitFor T m).size := by
  have hw : m.width ≤ 8 * T.sizeOf m.typeId := hm.width_le
  cases f with
  | bytes n => simpa [unitFor] using hw
  | bits u =>
    by_cases htakes : u.Takes m.width
    · have hle : u.size * 8 % 2 ^ 32 ≤ u.size * 8 := Nat.mod_le _ _
      have hused : u.used + m.width ≤ u.size * 8 % 2 ^ 32 := htakes
      simp only [unitFor, if_pos htakes]
      omega
    · simpa [unitFor, htakes] using hw

theorem bit_le_unitFor (hf : f.Valid) (hm : Declared T m) :
    f.bit ≤ 8 * (f.unitFor T m).base + (f.unitFor T m).used := by
  cases f with
  | bytes n =>
    have := le_roundUp hm.align_pos n
    simp only [unitFor, bit]
    omega
  | bits u =>
    by_cases htakes : u.Takes m.width
    · simp [unitFor, htakes, bit]
    · have := le_roundUp hm.align_pos (u.base + u.size)
      have hused : u.used ≤ 8 * u.size := hf
      simp only [unitFor, if_neg htakes, bit]
      omega

theorem bit_le_free (hf : f.Valid) : f.bit ≤ 8 * f.free := by
  cases f with
  | bytes n => exact Nat.le_refl _
  | bits u =>
    have hused : u.used ≤ 8 * u.size := hf
    simp only [bit, free]
    omega

theorem next_valid (hf : f.Valid) (hm : Declared T m) : (f.next T m).Valid := by
  unfold next
  split_ifs
  · exact unitFor_valid hf hm
  · trivial

/-- The storage of a member is after all before it, and the next frontier is its end. -/
theorem storage_place (hf : f.Valid) (hm : Declared T m) :
    f.bit ≤ (storage T m (f.place T m)).start ∧
      (storage T m (f.place T m)).start ≤ (storage T m (f.place T m)).stop ∧
      (storage T m (f.place T m)).stop = (f.next T m).bit := by
  by_cases hs : m.Shares
  · have hle := bit_le_unitFor hf hm
    simp only [storage, place, next, if_pos hs, bit, Option.getD_some, StructMember.width] at hle ⊢
    omega
  · have hle := bit_le_free hf
    have hup := le_roundUp hm.align_pos f.free
    have hnext : (f.next T m).bit =
        8 * (roundUp f.free (T.alignOf m.typeId) + T.sizeOf m.typeId) := by
      simp [next, hs, bit]
    rw [hnext]
    simp only [storage, place, if_neg hs]
    refine ⟨by omega, by omega, trivial⟩

theorem place_placed (f : Frontier) (m : StructMember) : Placed T m (f.place T m) := by
  by_cases hs : m.Shares
  · refine ⟨?_, ?_, fun _ => ?_, fun h => absurd hs h⟩
    · simp [place, hs]
    · simp [place, hs]
    · obtain ⟨-, hpos⟩ := hs
      cases hw : m.bitWidth with
      | none => simp [hw] at hpos
      | some w =>
        rw [hw] at hpos
        simp_all [place, StructMember.Shares, StructMember.width]
  · refine ⟨?_, ?_, fun h => absurd h hs, fun _ => ?_⟩
    · simp [place, hs]
    · simp [place, hs]
    · simpa [place, hs] using dvd_roundUp f.free (T.alignOf m.typeId)

end Frontier

theorem lastFrontier_valid {f : Frontier} {ms : List StructMember} (hf : f.Valid)
    (hms : ∀ m ∈ ms, Declared T m) : (lastFrontier T f ms).Valid := by
  induction ms generalizing f with
  | nil => exact hf
  | cons m ms ih =>
    apply ih (Frontier.next_valid hf (hms m List.mem_cons_self))
    exact fun m' hm' => hms m' (List.mem_cons_of_mem m hm')

theorem placeAll_placed (f : Frontier) (ms : List StructMember) :
    List.Forall₂ (Placed T) ms (placeAll T f ms) := by
  induction ms generalizing f with
  | nil => exact .nil
  | cons m ms ih => exact .cons (f.place_placed m) (ih _)

/-- The members lie one after the other between the frontiers. -/
theorem placeAll_between {f : Frontier} {ms : List StructMember} (hf : f.Valid)
    (hms : ∀ m ∈ ms, Declared T m) :
    Between f.bit (storages T ms (placeAll T f ms)) (lastFrontier T f ms).bit := by
  induction ms generalizing f with
  | nil => exact Nat.le_refl _
  | cons m ms ih =>
    have hm := hms m List.mem_cons_self
    obtain ⟨hlo, hr, hstop⟩ := Frontier.storage_place hf hm
    refine ⟨hlo, hr, ?_⟩
    rw [hstop]
    apply ih (Frontier.next_valid hf hm)
    exact fun m' hm' => hms m' (List.mem_cons_of_mem m hm')

/-- The layout over unbounded integers is sound. -/
theorem soundStruct_placeAll {ms : List StructMember} (hms : ∀ m ∈ ms, Declared T m) :
    SoundStruct T ms
      ⟨roundUp (lastFrontier T (.bytes 0) ms).free (maxAlignOf T ms), maxAlignOf T ms,
        placeAll T (.bytes 0) ms⟩ := by
  have hbetween := placeAll_between (f := .bytes 0) trivial hms
  have hend := Frontier.bit_le_free (lastFrontier_valid (f := .bytes 0) trivial hms)
  have hup := le_roundUp (one_le_maxAlign (ms.map fun m => ⟨0, T.alignOf m.typeId⟩))
    (lastFrontier T (.bytes 0) ms).free
  refine ⟨placeAll_placed _ _, hbetween.pairwise, fun r hr => ?_, dvd_roundUp _ _, rfl⟩
  obtain ⟨-, hle, hstop⟩ := hbetween.mem hr
  refine ⟨hle, ?_⟩
  simp only [maxAlignOf]
  omega

end Soundness

section Arithmetic

variable (o : Overflow)

theorem Overflow.word_of_lt {w n : ℕ} (h : n < 2 ^ w) : o.word w n = some n := if_pos h

theorem Overflow.word_panics {w n v : ℕ} : panics.word w n = some v ↔ n < 2 ^ w ∧ n = v := by
  unfold word
  split_ifs with h
  · simp [h]
  · simp [h]

theorem Overflow.sub_of_le {w a b : ℕ} (h : b ≤ a) : o.sub w a b = some (a - b) := if_pos h

theorem Overflow.sub_panics {w a b v : ℕ} : panics.sub w a b = some v ↔ b ≤ a ∧ a - b = v := by
  unfold sub
  split_ifs with h
  · simp [h]
  · simp [h]

theorem alignOffset_of_lt {n a : ℕ} (h : n + a < 2 ^ 64) (ha : 0 < a) :
    alignOffset o n a = some (roundUp n a) := by
  have hle : (n + a - 1) / a * a ≤ n + a - 1 := Nat.div_mul_le_self _ _
  have hlt : (n + a - 1) / a * a < 2 ^ 64 := by omega
  simp only [alignOffset, Overflow.add, Overflow.mul, Overflow.word_of_lt o h, Option.bind_eq_bind,
    Option.bind_some, Overflow.sub_of_le o (show 1 ≤ n + a by omega), if_neg (Nat.ne_of_gt ha),
    Overflow.word_of_lt o hlt, roundUp]

theorem alignOffset_panics {n a v : ℕ} (h : alignOffset .panics n a = some v) :
    n + a < 2 ^ 64 := by
  obtain ⟨sum, hsum, -⟩ := Option.bind_eq_some_iff.1 h
  exact (Overflow.word_panics.1 hsum).1

end Arithmetic

section Refinement

variable {T} {o : Overflow}

/-- The frontier that the variables of the loop stand for. -/
def LayoutState.frontier (st : LayoutState) : Frontier :=
  match st.bitfieldBaseOffset with
  | some base => .bits ⟨base, st.bitfieldTypeSize, st.bitfieldBitsUsed⟩
  | none => .bytes st.offset

/-- What one round does to the variables. -/
structure Laid (T : TypeSystem) (st : LayoutState) (m : StructMember) (st' : LayoutState) :
    Prop where
  frontier : st'.frontier = st.frontier.next T m
  maxAlign : st'.maxAlign = max (T.alignOf m.typeId) st.maxAlign
  newMembers : st'.newMembers = st.newMembers ++ [st.frontier.place T m]

/-- The variables after an open unit is left. -/
structure Closed (st st' : LayoutState) : Prop where
  offset : st'.offset = st.frontier.free
  base : st'.bitfieldBaseOffset = none
  maxAlign : st'.maxAlign = st.maxAlign
  newMembers : st'.newMembers = st.newMembers

/-- The variables once a bit-field has its unit. -/
structure InUnit (st : LayoutState) (u : BitUnit) (st' : LayoutState) : Prop where
  frontier : st'.frontier = .bits u
  base : st'.bitfieldBaseOffset = some u.base
  used : st'.bitfieldBitsUsed = u.used
  size : st'.bitfieldTypeSize = u.size
  maxAlign : st'.maxAlign = st.maxAlign
  newMembers : st'.newMembers = st.newMembers

theorem closeUnit_of_lt {st : LayoutState} (h : st.frontier.free < 2 ^ 64) :
    ∃ st', closeUnit o st = some st' ∧ Closed st st' := by
  cases hbase : st.bitfieldBaseOffset with
  | none =>
    refine ⟨st, by simp [closeUnit, hbase], ?_, hbase, rfl, rfl⟩
    simp [LayoutState.frontier, hbase, Frontier.free]
  | some base =>
    have hfree : st.frontier.free = base + st.bitfieldTypeSize := by
      simp [LayoutState.frontier, hbase, Frontier.free]
    rw [hfree] at h
    refine ⟨{ st with
      offset := base + st.bitfieldTypeSize, bitfieldBaseOffset := none, bitfieldBitsUsed := 0 },
      ?_, hfree.symm, rfl, rfl, rfl⟩
    simp [closeUnit, hbase, Overflow.add, Overflow.word_of_lt o h]

theorem closeUnit_panics {st st' : LayoutState} (h : closeUnit .panics st = some st') :
    Closed st st' := by
  cases hbase : st.bitfieldBaseOffset with
  | none =>
    simp only [closeUnit, hbase, Option.some.injEq] at h
    subst h
    refine ⟨?_, hbase, rfl, rfl⟩
    simp [LayoutState.frontier, hbase, Frontier.free]
  | some base =>
    simp only [closeUnit, hbase] at h
    obtain ⟨offset, hoffset, hst⟩ := Option.bind_eq_some_iff.1 h
    obtain ⟨-, rfl⟩ := Overflow.word_panics.1 hoffset
    obtain rfl := Option.some.inj hst
    refine ⟨?_, rfl, rfl, rfl⟩
    simp [LayoutState.frontier, hbase, Frontier.free]

theorem openUnit_of_lt {st : LayoutState} {a : ℕ} (hbase : st.bitfieldBaseOffset = none)
    (h : st.offset + a < 2 ^ 64) (ha : 0 < a) (size : ℕ) :
    ∃ st', openUnit o a size st = some st' ∧ InUnit st ⟨roundUp st.offset a, size, 0⟩ st' := by
  refine ⟨{ st with
    offset := roundUp st.offset a, bitfieldBaseOffset := some (roundUp st.offset a),
    bitfieldTypeSize := size, bitfieldBitsUsed := 0 }, ?_, rfl, rfl, rfl, rfl, rfl, rfl⟩
  simp [openUnit, hbase, alignOffset_of_lt o h ha]

theorem openUnit_panics {st st' : LayoutState} {a size : ℕ} (hbase : st.bitfieldBaseOffset = none)
    (h : openUnit .panics a size st = some st') : st.offset + a < 2 ^ 64 := by
  simp only [openUnit, hbase] at h
  obtain ⟨offset, hoffset, -⟩ := Option.bind_eq_some_iff.1 h
  exact alignOffset_panics hoffset

/-- The unit that the loop finds for a bit-field. -/
theorem unit_of_room {st : LayoutState} {m : StructMember} (hm : Declared T m) (hs : m.Shares)
    (h : st.frontier.Room T m) :
    ∃ st₁ st₂, closeFullUnit o m.width st = some st₁ ∧
      openUnit o (T.alignOf m.typeId) (T.sizeOf m.typeId) st₁ = some st₂ ∧
      InUnit st (st.frontier.unitFor T m) st₂ := by
  cases hbase : st.bitfieldBaseOffset with
  | none =>
    have hf : st.frontier = .bytes st.offset := by simp [LayoutState.frontier, hbase]
    rw [hf] at h ⊢
    simp only [Frontier.Room, if_pos hs] at h
    obtain ⟨st₂, hopen, hin⟩ := openUnit_of_lt (o := o) hbase h hm.align_pos
      (T.sizeOf m.typeId)
    exact ⟨st, st₂, by simp [closeFullUnit, hbase], hopen, hin⟩
  | some base =>
    have hf : st.frontier = .bits ⟨base, st.bitfieldTypeSize, st.bitfieldBitsUsed⟩ := by
      simp [LayoutState.frontier, hbase]
    have hroom := h
    rw [hf] at hroom
    simp only [Frontier.Room, if_pos hs] at hroom
    obtain ⟨hbits, hused, hplace⟩ := hroom
    have hfull : closeFullUnit o m.width st =
        if unitBits st.bitfieldTypeSize - st.bitfieldBitsUsed < m.width then closeUnit o st
        else some st := by
      have hsub : o.sub 32 (st.bitfieldTypeSize * 8 % 2 ^ 32) st.bitfieldBitsUsed =
          some (unitBits st.bitfieldTypeSize - st.bitfieldBitsUsed) := Overflow.sub_of_le o hused
      simp only [closeFullUnit, hbase, Overflow.mul, Overflow.word_of_lt o hbits,
        Option.bind_eq_bind, Option.bind_some, hsub]
      rfl
    by_cases htakes :
        BitUnit.Takes ⟨base, st.bitfieldTypeSize, st.bitfieldBitsUsed⟩ m.width
    · -- the open unit has room
      have hle : st.bitfieldBitsUsed + m.width ≤ unitBits st.bitfieldTypeSize := htakes
      have hunit : st.frontier.unitFor T m = ⟨base, st.bitfieldTypeSize, st.bitfieldBitsUsed⟩ := by
        simp only [hf, Frontier.unitFor, if_pos htakes]
      rw [hunit, hfull, if_neg (by omega)]
      refine ⟨st, st, rfl, by simp [openUnit, hbase], hf, hbase, rfl, rfl, rfl, rfl⟩
    · have hgt : ¬ st.bitfieldBitsUsed + m.width ≤ unitBits st.bitfieldTypeSize := htakes
      have hnew : base + st.bitfieldTypeSize + T.alignOf m.typeId < 2 ^ 64 :=
        hplace.resolve_left htakes
      have hfree : st.frontier.free = base + st.bitfieldTypeSize := by rw [hf]; rfl
      have hfit : st.frontier.free < 2 ^ 64 := by omega
      obtain ⟨st₁, hclose, hclosed⟩ := closeUnit_of_lt (o := o) hfit
      rw [← hfree, ← hclosed.offset] at hnew
      obtain ⟨st₂, hopen, hin⟩ := openUnit_of_lt (o := o) hclosed.base hnew hm.align_pos
        (T.sizeOf m.typeId)
      have hunit : st.frontier.unitFor T m =
          ⟨roundUp st₁.offset (T.alignOf m.typeId), T.sizeOf m.typeId, 0⟩ := by
        rw [hclosed.offset, hfree]
        simp only [hf, Frontier.unitFor, if_neg htakes]
      rw [hunit, hfull, if_pos (by omega)]
      exact ⟨st₁, st₂, hclose, hopen, hin.frontier, hin.base, hin.used, hin.size,
        hin.maxAlign.trans hclosed.maxAlign, hin.newMembers.trans hclosed.newMembers⟩

theorem room_of_unit {st st₁ st₂ : LayoutState} {m : StructMember} (hs : m.Shares)
    (hclose : closeFullUnit .panics m.width st = some st₁)
    (hopen : openUnit .panics (T.alignOf m.typeId) (T.sizeOf m.typeId) st₁ = some st₂) :
    st.frontier.Room T m := by
  cases hbase : st.bitfieldBaseOffset with
  | none =>
    simp only [closeFullUnit, hbase, Option.some.injEq] at hclose
    subst hclose
    have hf : st.frontier = .bytes st.offset := by simp [LayoutState.frontier, hbase]
    simpa [hf, Frontier.Room, hs] using openUnit_panics hbase hopen
  | some base =>
    simp only [closeFullUnit, hbase] at hclose
    obtain ⟨bits, hbits, hclose⟩ := Option.bind_eq_some_iff.1 hclose
    obtain ⟨remaining, hrem, hclose⟩ := Option.bind_eq_some_iff.1 hclose
    obtain ⟨hlt, rfl⟩ := Overflow.word_panics.1 hbits
    obtain ⟨hused, rfl⟩ := Overflow.sub_panics.1 hrem
    have hf : st.frontier = .bits ⟨base, st.bitfieldTypeSize, st.bitfieldBitsUsed⟩ := by
      simp [LayoutState.frontier, hbase]
    simp only [hf, Frontier.Room, if_pos hs]
    refine ⟨hlt, hused, ?_⟩
    split_ifs at hclose with hfull
    · have hclosed := closeUnit_panics hclose
      have hsum := openUnit_panics hclosed.base hopen
      rw [hclosed.offset, hf] at hsum
      exact .inr hsum
    · left
      unfold BitUnit.Takes unitBits
      simp only
      omega

theorem placeBitField_of_room {st : LayoutState} {m : StructMember} (hm : Declared T m)
    (hs : m.Shares) (h : st.frontier.Room T m) :
    ∃ st', placeBitField o T m m.width st = some st' ∧ st'.maxAlign = st.maxAlign ∧
      st'.frontier = st.frontier.next T m ∧
      st'.newMembers = st.newMembers ++ [st.frontier.place T m] := by
  obtain ⟨st₁, st₂, hclose, hopen, hin⟩ := unit_of_room (o := o) hm hs h
  have hw : m.width < 2 ^ 32 := hm.width_u32
  have hused : st₂.bitfieldBitsUsed + m.width < 2 ^ 32 := by
    rw [hin.used]
    cases hfr : st.frontier with
    | bytes n => simpa [Frontier.unitFor] using hw
    | bits u =>
      by_cases htakes : u.Takes m.width
      · have hle : u.used + m.width ≤ u.size * 8 % 2 ^ 32 := htakes
        simp only [Frontier.unitFor, if_pos htakes]
        omega
      · simpa [Frontier.unitFor, htakes] using hw
  refine ⟨{ st₂ with
    newMembers := st₂.newMembers ++ [⟨m.name, m.typeId, st₂.bitfieldBaseOffset.getD 0,
      some st₂.bitfieldBitsUsed, some m.width⟩],
    bitfieldBitsUsed := st₂.bitfieldBitsUsed + m.width }, ?_, hin.maxAlign, ?_, ?_⟩
  · simp [placeBitField, hclose, hopen, Overflow.add, Overflow.word_of_lt o hused]
  · simp [LayoutState.frontier, Frontier.next, hs, hin.base, hin.used, hin.size]
  · simp [Frontier.place, hs, hin.base, hin.used, hin.newMembers]

theorem room_of_placeBitField {st st' : LayoutState} {m : StructMember} (hs : m.Shares)
    (h : placeBitField .panics T m m.width st = some st') : st.frontier.Room T m := by
  obtain ⟨st₁, hclose, h⟩ := Option.bind_eq_some_iff.1 h
  obtain ⟨st₂, hopen, -⟩ := Option.bind_eq_some_iff.1 h
  exact room_of_unit hs hclose hopen

theorem placeBytes_of_room {st : LayoutState} {m : StructMember} (hm : Declared T m)
    (hs : ¬ m.Shares) (h : st.frontier.Room T m) (bitOffset bitWidth : Option ℕ) :
    ∃ st', placeBytes o T m bitOffset bitWidth st = some st' ∧ st'.maxAlign = st.maxAlign ∧
      st'.frontier = st.frontier.next T m ∧
      st'.newMembers = st.newMembers ++
        [⟨m.name, m.typeId, roundUp st.frontier.free (T.alignOf m.typeId), bitOffset, bitWidth⟩] := by
  simp only [Frontier.Room, if_neg hs] at h
  obtain ⟨halign, hsize⟩ := h
  have hfit : st.frontier.free < 2 ^ 64 := by omega
  obtain ⟨st₁, hclose, hclosed⟩ := closeUnit_of_lt (o := o) hfit
  have hoff : alignOffset o st₁.offset (T.alignOf m.typeId) =
      some (roundUp st.frontier.free (T.alignOf m.typeId)) := by
    rw [hclosed.offset]
    exact alignOffset_of_lt o halign hm.align_pos
  refine ⟨{ st₁ with
    offset := roundUp st.frontier.free (T.alignOf m.typeId) + T.sizeOf m.typeId,
    newMembers := st₁.newMembers ++
      [⟨m.name, m.typeId, roundUp st.frontier.free (T.alignOf m.typeId), bitOffset, bitWidth⟩] },
    ?_, hclosed.maxAlign, ?_, ?_⟩
  · simp [placeBytes, hclose, hoff, Overflow.add, Overflow.word_of_lt o hsize]
  · simp [LayoutState.frontier, Frontier.next, hs, hclosed.base]
  · simp [hclosed.newMembers]

theorem room_of_placeBytes {st st' : LayoutState} {m : StructMember}
    {bitOffset bitWidth : Option ℕ} (ha : 0 < T.alignOf m.typeId) (hs : ¬ m.Shares)
    (h : placeBytes .panics T m bitOffset bitWidth st = some st') : st.frontier.Room T m := by
  obtain ⟨st₁, hclose, h⟩ := Option.bind_eq_some_iff.1 h
  obtain ⟨offset, hoffset, h⟩ := Option.bind_eq_some_iff.1 h
  obtain ⟨next, hnext, -⟩ := Option.bind_eq_some_iff.1 h
  have hclosed := closeUnit_panics hclose
  have hsum := alignOffset_panics hoffset
  rw [alignOffset_of_lt .panics hsum ha] at hoffset
  obtain rfl := Option.some.inj hoffset
  obtain ⟨hlt, -⟩ := Overflow.word_panics.1 hnext
  rw [hclosed.offset] at hsum hlt
  simp only [Frontier.Room, if_neg hs]
  exact ⟨hsum, hlt⟩

/-- The largest alignment so far. -/
def LayoutState.raised (st : LayoutState) (align : ℕ) : LayoutState :=
  { st with maxAlign := if align > st.maxAlign then align else st.maxAlign }

theorem LayoutState.raised_maxAlign (st : LayoutState) (align : ℕ) :
    (st.raised align).maxAlign = max align st.maxAlign := by
  simp only [raised]
  split_ifs <;> omega

theorem layoutMember_shares {st : LayoutState} {m : StructMember} (hs : m.Shares) :
    layoutMember o T st m = placeBitField o T m m.width (st.raised (T.alignOf m.typeId)) := by
  obtain ⟨hoff, hpos⟩ := hs
  cases hw : m.bitWidth with
  | none => simp [hw] at hpos
  | some w =>
    rw [hw, Option.getD_some] at hpos
    simp [layoutMember, hoff, hw, hpos, StructMember.width, LayoutState.raised]

theorem layoutMember_bytes {st : LayoutState} {m : StructMember} (hs : ¬ m.Shares) :
    layoutMember o T st m =
      placeBytes o T m (if m.bitOffset.isSome && m.bitWidth.isSome then m.bitOffset else none)
        (if m.bitOffset.isSome && m.bitWidth.isSome then m.bitWidth else none)
        (st.raised (T.alignOf m.typeId)) := by
  cases hoff : m.bitOffset with
  | none => simp [layoutMember, hoff, LayoutState.raised]
  | some off =>
    cases hw : m.bitWidth with
    | none => simp [layoutMember, hoff, hw, LayoutState.raised]
    | some w =>
      have hnot : ¬ (off = 0 ∧ 0 < w) := by simpa [StructMember.Shares, hoff, hw] using hs
      simp only [layoutMember, hoff, hw, if_neg hnot, Option.isSome_some, Bool.and_self, if_true,
        LayoutState.raised]

/-- One round lays out its member when there is room for it. -/
theorem layoutMember_of_room {st : LayoutState} {m : StructMember} (hm : Declared T m)
    (h : st.frontier.Room T m) : ∃ st', layoutMember o T st m = some st' ∧ Laid T st m st' := by
  have hroom : (st.raised (T.alignOf m.typeId)).frontier.Room T m := h
  by_cases hs : m.Shares
  · obtain ⟨st', hplace, hmax, hfrontier, hmembers⟩ := placeBitField_of_room (o := o) hm hs hroom
    refine ⟨st', (layoutMember_shares hs).trans hplace, hfrontier, ?_, hmembers⟩
    exact hmax.trans (st.raised_maxAlign _)
  · obtain ⟨st', hplace, hmax, hfrontier, hmembers⟩ := placeBytes_of_room (o := o) hm hs hroom
      (if m.bitOffset.isSome && m.bitWidth.isSome then m.bitOffset else none)
      (if m.bitOffset.isSome && m.bitWidth.isSome then m.bitWidth else none)
    refine ⟨st', (layoutMember_bytes hs).trans hplace, hfrontier, ?_, ?_⟩
    · exact hmax.trans (st.raised_maxAlign _)
    · rw [hmembers]
      simp only [Frontier.place, if_neg hs]
      rfl

/-- A round that does not panic had room. -/
theorem room_of_layoutMember {st st' : LayoutState} {m : StructMember} (hm : Declared T m)
    (h : layoutMember .panics T st m = some st') : st.frontier.Room T m := by
  have hroom : (st.raised (T.alignOf m.typeId)).frontier.Room T m := by
    by_cases hs : m.Shares
    · rw [layoutMember_shares hs] at h
      exact room_of_placeBitField hs h
    · rw [layoutMember_bytes hs] at h
      exact room_of_placeBytes hm.align_pos hs h
  exact hroom

/-- The loop from any state lays out the members when there is room for all. -/
theorem foldlM_of_room {st : LayoutState} {ms : List StructMember}
    (hms : ∀ m ∈ ms, Declared T m) (h : RoomAll T st.frontier ms) (hpos : 1 ≤ st.maxAlign) :
    ∃ st', ms.foldlM (layoutMember o T) st = some st' ∧
      st'.frontier = lastFrontier T st.frontier ms ∧
      st'.maxAlign = max (maxAlignOf T ms) st.maxAlign ∧
      st'.newMembers = st.newMembers ++ placeAll T st.frontier ms := by
  induction ms generalizing st with
  | nil =>
    refine ⟨st, rfl, rfl, ?_, (List.append_nil _).symm⟩
    exact (Nat.max_eq_right hpos).symm
  | cons m ms ih =>
    obtain ⟨hroom, hrest⟩ := h
    obtain ⟨st₁, hstep, hlaid⟩ := layoutMember_of_room (o := o) (hms m List.mem_cons_self) hroom
    rw [← hlaid.frontier] at hrest
    have hpos₁ : 1 ≤ st₁.maxAlign := by
      rw [hlaid.maxAlign]
      exact Nat.le_trans hpos (Nat.le_max_right _ _)
    obtain ⟨st', hrun, hlast, hmax, hmembers⟩ :=
      ih (fun m' hm' => hms m' (List.mem_cons_of_mem m hm')) hrest hpos₁
    refine ⟨st', ?_, ?_, ?_, ?_⟩
    · rw [List.foldlM_cons, hstep]
      exact hrun
    · rw [hlast, hlaid.frontier]
      rfl
    · rw [hmax, hlaid.maxAlign]
      simp only [maxAlignOf, List.map_cons, maxAlign, List.foldr_cons]
      omega
    · rw [hmembers, hlaid.newMembers, hlaid.frontier, List.append_assoc]
      rfl

/-- A loop that does not panic had room for all members. -/
theorem room_of_foldlM {st st' : LayoutState} {ms : List StructMember}
    (hms : ∀ m ∈ ms, Declared T m) (h : ms.foldlM (layoutMember .panics T) st = some st') :
    RoomAll T st.frontier ms := by
  induction ms generalizing st with
  | nil => trivial
  | cons m ms ih =>
    rw [List.foldlM_cons] at h
    obtain ⟨st₁, hstep, hrun⟩ := Option.bind_eq_some_iff.1 h
    have hm := hms m List.mem_cons_self
    have hroom := room_of_layoutMember hm hstep
    obtain ⟨st₂, hstep₂, hlaid⟩ := layoutMember_of_room (o := .panics) hm hroom
    obtain rfl := Option.some.inj (hstep.symm.trans hstep₂)
    refine ⟨hroom, ?_⟩
    rw [← hlaid.frontier]
    exact ih (fun m' hm' => hms m' (List.mem_cons_of_mem m hm')) hrun

theorem roundSize_of_lt {size maxAlign : ℕ} (h : size + maxAlign < 2 ^ 64) (hpos : 1 ≤ maxAlign) :
    roundSize o size maxAlign = some (roundUp size maxAlign) :=
  (if_pos hpos).trans (alignOffset_of_lt o h hpos)

theorem roundSize_panics {size maxAlign v : ℕ} (h : roundSize .panics size maxAlign = some v)
    (hpos : 1 ≤ maxAlign) : size + maxAlign < 2 ^ 64 := by
  have hround : alignOffset .panics size maxAlign = some v := (if_pos hpos).symm.trans h
  exact alignOffset_panics hround

theorem one_le_maxAlignOf (T : TypeSystem) (ms : List StructMember) : 1 ≤ maxAlignOf T ms :=
  one_le_maxAlign _

/-- With room for all members the struct is laid out as over unbounded integers. -/
theorem structInfo_of_fits {ms : List StructMember} (hms : ∀ m ∈ ms, Declared T m)
    (h : Fits T false ms) :
    structInfo o T ms =
      some ⟨roundUp (lastFrontier T (.bytes 0) ms).free (maxAlignOf T ms), maxAlignOf T ms,
        placeAll T (.bytes 0) ms⟩ := by
  obtain ⟨hroom, hsize⟩ := h
  have hstart : RoomAll T LayoutState.start.frontier ms := hroom
  obtain ⟨st, hrun, hlast, hmax, hmembers⟩ :=
    foldlM_of_room (o := o) hms hstart (Nat.le_refl 1)
  have hfree : st.frontier.free < 2 ^ 64 := by
    rw [hlast]
    exact Nat.lt_of_le_of_lt (Nat.le_add_right _ _) hsize
  obtain ⟨st', hclose, hclosed⟩ := closeUnit_of_lt (o := o) hfree
  have hmax' : st'.maxAlign = maxAlignOf T ms := by
    rw [hclosed.maxAlign, hmax]
    exact Nat.max_eq_left (one_le_maxAlignOf T ms)
  have hoff : st'.offset = (lastFrontier T (.bytes 0) ms).free := by
    rw [hclosed.offset, hlast]
    rfl
  have hround : roundSize o st'.offset (maxAlignOf T ms) =
      some (roundUp (lastFrontier T (.bytes 0) ms).free (maxAlignOf T ms)) := by
    rw [hoff]
    exact roundSize_of_lt hsize (one_le_maxAlignOf T ms)
  have hplaced : st'.newMembers = placeAll T (.bytes 0) ms := by
    rw [hclosed.newMembers, hmembers, LayoutState.start, List.nil_append]
    rfl
  simp only [structInfo, hrun, hclose, hround, hmax', hplaced, Option.bind_eq_bind,
    Option.bind_some, Option.pure_def]

theorem fits_of_structInfo {ms : List StructMember} {info : LayoutInfo}
    (hms : ∀ m ∈ ms, Declared T m) (h : structInfo .panics T ms = some info) :
    Fits T false ms := by
  obtain ⟨st, hrun, h⟩ := Option.bind_eq_some_iff.1 h
  obtain ⟨st', hclose, h⟩ := Option.bind_eq_some_iff.1 h
  obtain ⟨size, hsize, -⟩ := Option.bind_eq_some_iff.1 h
  have hroom := room_of_foldlM hms hrun
  obtain ⟨st₂, hrun₂, hlast, hmax, -⟩ :=
    foldlM_of_room (o := .panics) hms hroom (Nat.le_refl 1)
  obtain rfl := Option.some.inj (hrun.symm.trans hrun₂)
  have hclosed := closeUnit_panics hclose
  have hmax' : st'.maxAlign = maxAlignOf T ms := by
    rw [hclosed.maxAlign, hmax]
    exact Nat.max_eq_left (one_le_maxAlignOf T ms)
  rw [hclosed.offset, hlast, hmax'] at hsize
  exact ⟨hroom, roundSize_panics hsize (one_le_maxAlignOf T ms)⟩

section Unions

/-- A running maximum. -/
theorem foldl_max (f : StructMember → ℕ) (n : ℕ) (ms : List StructMember) :
    ms.foldl (fun n m => if f m > n then f m else n) n =
      max n (ms.foldr (fun m n => max (f m) n) 0) := by
  induction ms generalizing n with
  | nil => simp
  | cons m ms ih =>
    rw [List.foldl_cons, ih, List.foldr_cons]
    split_ifs <;> omega

theorem maxAlignOf_eq (T : TypeSystem) (ms : List StructMember) :
    maxAlignOf T ms = max 1 (ms.foldr (fun m n => max (T.alignOf m.typeId) n) 0) := by
  induction ms with
  | nil => rfl
  | cons m ms ih =>
    simp only [maxAlignOf, maxAlign, List.map_cons, List.foldr_cons] at ih ⊢
    omega

theorem maxSize_eq (T : TypeSystem) (ms : List StructMember) :
    maxSize (ms.map fun m => ⟨T.sizeOf m.typeId, 0⟩) =
      ms.foldr (fun m n => max (T.sizeOf m.typeId) n) 0 := by
  rw [maxSize, List.foldr_map]

theorem sizeOf_le_maxSize {ms : List StructMember} {m : StructMember} (hm : m ∈ ms) :
    T.sizeOf m.typeId ≤ maxSize (ms.map fun m => ⟨T.sizeOf m.typeId, 0⟩) := by
  induction ms with
  | nil => exact absurd hm List.not_mem_nil
  | cons n ms ih =>
    simp only [List.map_cons, maxSize, List.foldr_cons] at ih ⊢
    rcases List.mem_cons.1 hm with rfl | hm
    · exact Nat.le_max_left _ _
    · exact Nat.le_trans (ih hm) (Nat.le_max_right _ _)

theorem unionInfo_eq (o : Overflow) (T : TypeSystem) (ms : List StructMember) :
    unionInfo o T ms =
      (roundSize o (maxSize (ms.map fun m => ⟨T.sizeOf m.typeId, 0⟩)) (maxAlignOf T ms)).bind
        fun size => some ⟨size, maxAlignOf T ms, ms.map fun m => { m with offset := 0 }⟩ := by
  simp only [unionInfo, foldl_max, maxAlignOf_eq, maxSize_eq, Nat.zero_max, Option.bind_eq_bind,
    Option.pure_def]

end Unions

theorem fits_of_computeLayoutInfo {isUnion : Bool} {ms : List StructMember} {info : LayoutInfo}
    (hms : ∀ m ∈ ms, Declared T m) (h : computeLayoutInfo .panics T ms isUnion = some info) :
    Fits T isUnion ms := by
  cases isUnion with
  | false => exact fits_of_structInfo hms h
  | true =>
    rw [computeLayoutInfo, if_pos rfl, unionInfo_eq] at h
    obtain ⟨size, hsize, -⟩ := Option.bind_eq_some_iff.1 h
    exact roundSize_panics hsize (one_le_maxAlignOf T ms)

/-- `compute_layout_info` gives a sound layout, whatever overflow does, just when all the sums of
the layout fit. -/
theorem sound_iff_fits (T : TypeSystem) (isUnion : Bool) (ms : List StructMember)
    (hms : ∀ m ∈ ms, Declared T m) :
    (∀ o, ∃ info, computeLayoutInfo o T ms isUnion = some info ∧ Sound T isUnion ms info) ↔
      Fits T isUnion ms := by
  constructor
  · intro h
    obtain ⟨info, hinfo, -⟩ := h .panics
    exact fits_of_computeLayoutInfo hms hinfo
  · intro h o
    cases isUnion with
    | false => exact ⟨_, structInfo_of_fits hms h, soundStruct_placeAll hms⟩
    | true =>
      have hsize := roundSize_of_lt (o := o) h (one_le_maxAlignOf T ms)
      have hup := le_roundUp (one_le_maxAlignOf T ms)
        (maxSize (ms.map fun m => ⟨T.sizeOf m.typeId, 0⟩))
      refine ⟨_, (unionInfo_eq o T ms).trans (by rw [hsize]; rfl), rfl, fun m hm => ?_,
        dvd_roundUp _ _, rfl⟩
      exact Nat.le_trans (sizeOf_le_maxSize hm) hup

end Refinement

section Examples

/-- `char` is type 2, `int` type 7, and type 99 is `char[1 << 63]`. -/
def smallTypes : TypeSystem :=
  ⟨fun id => if id = 2 then 1 else if id = 99 then 2 ^ 63 else 4,
    fun id => if id = 2 ∨ id = 99 then 1 else 4⟩

/-- `int a : 3; char b; int c : 0; int d;` -/
def mixedMembers : List StructMember :=
  [⟨"a", 7, 0, some 0, some 3⟩, ⟨"b", 2, 0, none, none⟩, ⟨"c", 7, 0, some 0, some 0⟩,
    ⟨"d", 7, 0, none, none⟩]

theorem sound_mixedMembers :
    ∃ info, computeLayoutInfo .wraps smallTypes mixedMembers false = some info ∧
      Sound smallTypes false mixedMembers info := by
  refine (sound_iff_fits smallTypes false mixedMembers ?_).2 ?_ .wraps
  · intro m hm
    simp only [mixedMembers, List.mem_cons, List.not_mem_nil, or_false] at hm
    rcases hm with rfl | rfl | rfl | rfl <;> constructor <;> decide
  · decide

/-- `char a[1 << 63]; char b[1 << 63];` -/
def hugeMembers : List StructMember :=
  [⟨"a", 99, 0, none, none⟩, ⟨"b", 99, 0, none, none⟩]

/-- The second array ends at 2^64: the sum panics, or wraps to a struct of size 0. -/
theorem not_sound_hugeMembers :
    (∀ m ∈ hugeMembers, Declared smallTypes m) ∧
      computeLayoutInfo .panics smallTypes hugeMembers false = none ∧
      ∃ info, computeLayoutInfo .wraps smallTypes hugeMembers false = some info ∧
        info.size = 0 ∧ ¬ Sound smallTypes false hugeMembers info := by
  refine ⟨?_, by decide, ⟨0, 1, _⟩, rfl, rfl, fun h => ?_⟩
  · intro m hm
    simp only [hugeMembers, List.mem_cons, List.not_mem_nil, or_false] at hm
    rcases hm with rfl | rfl <;> constructor <;> decide
  · have hinside := SoundStruct.inside h _ (List.mem_cons_self)
    exact absurd hinside.2 (by decide)

end Examples

end OpticC.StructLayout
