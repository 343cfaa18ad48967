import OpticC.Types.LayoutSoundness

/-! Bit-fields against the System V ABI for x86-64. There a bit-field goes to the next free bit
unless it would leave the aligned unit of its own type around that bit; one of width zero moves
the next free bit to such a unit. `compute_layout_info` keeps the unit of the first bit-field of
a run, and gives a bit-field of width zero the bytes of its type. -/

namespace OpticC.StructLayout

open Layout

section Abi

variable (T : TypeSystem)

/-- The first bit of a member that is laid out when the bits before `bit` are taken. -/
def abiStart (bit : ℕ) (m : StructMember) : ℕ :=
  let unit := 8 * T.sizeOf m.typeId
  match m.bitWidth with
  | none => roundUp bit (8 * T.alignOf m.typeId)
  | some 0 => roundUp bit unit
  | some width => if bit % unit + width ≤ unit then bit else roundUp bit unit

/-- The bits that a member takes. -/
def abiBits (m : StructMember) : ℕ := m.bitWidth.getD (8 * T.sizeOf m.typeId)

def abiNext (bit : ℕ) (m : StructMember) : ℕ := abiStart T bit m + abiBits T m

/-- The first bits of the members. -/
def abiStarts : ℕ → List StructMember → List ℕ
  | _, [] => []
  | bit, m :: ms => abiStart T bit m :: abiStarts (abiNext T bit m) ms

/-- The first bit behind the members. -/
def abiEnd (ms : List StructMember) : ℕ := ms.foldl (abiNext T) 0

/-- The first bit of a laid out member, from the start of the struct. -/
def StructMember.startBit (placed : StructMember) : ℕ := 8 * placed.offset + placed.bitOffset.getD 0

/-- An object of the member's type at the member's offset has all its bits. -/
def StructMember.Accessible (placed : StructMember) : Prop :=
  ∀ bit ∈ placed.bitOffset, ∀ width ∈ placed.bitWidth, bit + width ≤ 8 * T.sizeOf placed.typeId

/-- A member as it is declared: an ordinary one, or a bit-field of an integer type. -/
structure Formed (m : StructMember) : Prop extends Declared T m where
  offset : m.bitOffset = m.bitWidth.map fun _ => 0
  natural : m.bitWidth ≠ none → T.alignOf m.typeId = T.sizeOf m.typeId
  integer : m.bitWidth ≠ none → T.sizeOf m.typeId ∈ [1, 2, 4, 8]

end Abi

section Agreement

variable (T : TypeSystem)

/-- What makes the loop put a member of this size and alignment where the ABI has it, by the
state in front of it. -/
def Frontier.AgreesAt (size align : ℕ) : Frontier → Option ℕ → Prop
  | bytes _, none => True
  | bits u, none =>
    -- no boundary for the member in the bytes of the unit that are left
    roundUp (u.base + u.size) align = roundUp (u.base + (u.used + 7) / 8) align
  | _, some 0 => False
  | bytes offset, some (w + 1) => size ∣ offset ∨ 8 * size < 8 * (offset % size) + (w + 1)
  | bits u, some (w + 1) =>
    if u.used + (w + 1) ≤ 8 * u.size then u.used + (w + 1) ≤ 8 * size
    else size ≤ u.size ∨ 8 * size < (8 * u.base + u.used) % (8 * size) + (w + 1) ∨
      u.used = 8 * u.size ∧ size ∣ u.base + u.size

instance (size align : ℕ) (f : Frontier) (width : Option ℕ) :
    Decidable (f.AgreesAt size align width) :=
  match f, width with
  | .bytes _, none => inferInstanceAs (Decidable True)
  | .bits _, none => inferInstanceAs (Decidable (_ = _))
  | .bytes _, some 0 => inferInstanceAs (Decidable False)
  | .bits _, some 0 => inferInstanceAs (Decidable False)
  | .bytes _, some (_ + 1) => inferInstanceAs (Decidable (_ ∨ _))
  | .bits u, some (w + 1) => inferInstanceAs (Decidable
      (if u.used + (w + 1) ≤ 8 * u.size then u.used + (w + 1) ≤ 8 * size
      else size ≤ u.size ∨ 8 * size < (8 * u.base + u.used) % (8 * size) + (w + 1) ∨
        u.used = 8 * u.size ∧ size ∣ u.base + u.size))

def Frontier.Agrees (f : Frontier) (m : StructMember) : Prop :=
  f.AgreesAt (T.sizeOf m.typeId) (T.alignOf m.typeId) m.bitWidth

def AgreesAll : Frontier → List StructMember → Prop
  | _, [] => True
  | f, m :: ms => f.Agrees T m ∧ AgreesAll (f.next T m) ms

instance decidableAgreesAll :
    (f : Frontier) → (ms : List StructMember) → Decidable (AgreesAll T f ms)
  | _, [] => inferInstanceAs (Decidable True)
  | f, m :: ms =>
    have := decidableAgreesAll (f.next T m) ms
    inferInstanceAs (Decidable (f.AgreesAt _ _ _ ∧ _))

end Agreement

section Step

variable {T : TypeSystem} {f : Frontier} {m : StructMember}

/-- What the open unit of a run of bit-fields is: that of an integer type, with bits given away. -/
def Frontier.Natural : Frontier → Prop
  | bytes _ => True
  | bits u => u.size ∈ [1, 2, 4, 8] ∧ u.size ∣ u.base ∧ 0 < u.used ∧ u.used ≤ 8 * u.size

/-- The member is put where the ABI has it, and the next free bit is the ABI's. -/
structure Frontier.Follows (T : TypeSystem) (f : Frontier) (m : StructMember) : Prop where
  start : (f.place T m).startBit = abiStart T f.bit m
  next : (f.next T m).bit = abiNext T f.bit m
  access : (f.place T m).Accessible T

theorem sizes_dvd {a b : ℕ} (ha : a ∈ [1, 2, 4, 8]) (hb : b ∈ [1, 2, 4, 8]) (h : a ≤ b) :
    a ∣ b := by
  simp only [List.mem_cons, List.not_mem_nil, or_false] at ha hb
  rcases ha with rfl | rfl | rfl | rfl <;> rcases hb with rfl | rfl | rfl | rfl <;> omega

theorem unitBits_of_mem {size : ℕ} (h : size ∈ [1, 2, 4, 8]) : unitBits size = 8 * size := by
  simp only [List.mem_cons, List.not_mem_nil, or_false] at h
  rcases h with rfl | rfl | rfl | rfl <;> rfl

theorem Formed.shares_iff (hm : Formed T m) : m.Shares ↔ 0 < m.bitWidth.getD 0 := by
  constructor
  · exact And.right
  · intro h
    cases hw : m.bitWidth with
    | none => simp [hw] at h
    | some w =>
      refine ⟨?_, by simpa [hw] using h⟩
      rw [hm.offset, hw]
      rfl

theorem Formed.shares (hm : Formed T m) {w : ℕ} (hw : m.bitWidth = some (w + 1)) : m.Shares := by
  rw [hm.shares_iff, hw]
  exact Nat.succ_pos w

/-- A member that is no bit-field. -/
theorem follows_ordinary (hm : Formed T m) (hw : m.bitWidth = none) :
    f.Follows T m ↔ f.Agrees T m := by
  have hs : ¬ m.Shares := by
    rw [hm.shares_iff, hw]
    exact Nat.lt_irrefl 0
  have hplace : (f.place T m).startBit = 8 * roundUp f.free (T.alignOf m.typeId) := by
    simp [Frontier.place, hs, StructMember.startBit, hw]
  have hnext : (f.next T m).bit =
      8 * roundUp f.free (T.alignOf m.typeId) + 8 * T.sizeOf m.typeId := by
    simp only [Frontier.next, if_neg hs, Frontier.bit]
    omega
  have hstart : abiStart T f.bit m = 8 * roundUp ((f.bit + 8 - 1) / 8) (T.alignOf m.typeId) := by
    simp only [abiStart, hw]
    exact roundUp_scale hm.align_pos (by decide) _
  have haccess : (f.place T m).Accessible T := by
    intro bit hbit width hwidth
    simp [Frontier.place, hs, hw] at hwidth
  have hagrees : f.Agrees T m ↔ roundUp f.free (T.alignOf m.typeId) =
      roundUp ((f.bit + 8 - 1) / 8) (T.alignOf m.typeId) := by
    cases f with
    | bytes n =>
      refine iff_of_true (by simp [Frontier.Agrees, hw, Frontier.AgreesAt]) ?_
      rw [Frontier.free, Frontier.bit, show (8 * n + 8 - 1) / 8 = n by omega]
    | bits u =>
      rw [Frontier.Agrees, hw, Frontier.AgreesAt, Frontier.free, Frontier.bit,
        show (8 * u.base + u.used + 8 - 1) / 8 = u.base + (u.used + 7) / 8 by omega]
  rw [hagrees]
  constructor
  · intro h
    have heq := h.start
    rw [hplace, hstart] at heq
    exact Nat.eq_of_mul_eq_mul_left (by decide) heq
  · intro h
    refine ⟨?_, ?_, haccess⟩
    · rw [hplace, hstart, h]
    · rw [hnext, abiNext, hstart, h, abiBits, hw, Option.getD_none]

/-- A bit-field of width zero is followed by bytes of its own. -/
theorem follows_zero (hm : Formed T m) (hf : f.Valid) (hw : m.bitWidth = some 0) :
    f.Follows T m ↔ f.Agrees T m := by
  have hs : ¬ m.Shares := by
    rw [hm.shares_iff, hw]
    exact Nat.lt_irrefl 0
  refine iff_of_false (fun h => ?_) ?_
  · have hnat := hm.natural (Option.ne_none_iff_exists'.2 ⟨_, hw⟩)
    have hpos : 0 < T.sizeOf m.typeId := hnat ▸ hm.align_pos
    have heq := h.next
    have hnext : (f.next T m).bit =
        8 * roundUp f.free (T.sizeOf m.typeId) + 8 * T.sizeOf m.typeId := by
      simp only [Frontier.next, if_neg hs, Frontier.bit, hnat]
      omega
    have habi : abiNext T f.bit m = roundUp f.bit (8 * T.sizeOf m.typeId) := by
      simp [abiNext, abiStart, abiBits, hw]
    have hlt := roundUp_lt (a := 8 * T.sizeOf m.typeId) (by omega) f.bit
    have hle := le_roundUp hpos f.free
    have hbit := Frontier.bit_le_free hf
    rw [hnext, habi] at heq
    omega
  · rw [Frontier.Agrees, hw]
    cases f <;> exact id

/-- A bit-field that shares a unit, once its unit is known. -/
theorem follows_shares (hs : m.Shares) {w : ℕ} (hw : m.bitWidth = some (w + 1)) {u : BitUnit}
    (hu : f.unitFor T m = u) :
    f.Follows T m ↔ 8 * u.base + u.used = abiStart T f.bit m ∧
      u.used + (w + 1) ≤ 8 * T.sizeOf m.typeId := by
  have hwidth : m.width = w + 1 := by rw [StructMember.width, hw, Option.getD_some]
  have hplace : (f.place T m).startBit = 8 * u.base + u.used := by
    simp [Frontier.place, hs, hu, StructMember.startBit]
  have hnext : (f.next T m).bit = 8 * u.base + u.used + (w + 1) := by
    simp only [Frontier.next, if_pos hs, hu, Frontier.bit, hwidth]
    omega
  have haccess : (f.place T m).Accessible T ↔ u.used + (w + 1) ≤ 8 * T.sizeOf m.typeId := by
    simp [StructMember.Accessible, Frontier.place, hs, hu, hwidth]
  constructor
  · intro h
    exact ⟨hplace.symm.trans h.start, haccess.1 h.access⟩
  · rintro ⟨hstart, hle⟩
    refine ⟨hplace.trans hstart, ?_, haccess.2 hle⟩
    rw [hnext, hstart, abiNext, abiBits, hw, Option.getD_some]

theorem abiStart_width {w bit : ℕ} (hw : m.bitWidth = some (w + 1)) :
    abiStart T bit m =
      if bit % (8 * T.sizeOf m.typeId) + (w + 1) ≤ 8 * T.sizeOf m.typeId then bit
      else roundUp bit (8 * T.sizeOf m.typeId) := by
  simp [abiStart, hw]

/-- The first bit-field behind bytes. -/
theorem follows_bytes {n w : ℕ} (hm : Formed T m) (hw : m.bitWidth = some (w + 1)) :
    (Frontier.bytes n).Follows T m ↔ (Frontier.bytes n).Agrees T m := by
  have hs : m.Shares := hm.shares hw
  have hne := Option.ne_none_iff_exists'.2 ⟨_, hw⟩
  have hnat := hm.natural hne
  have hpos : 0 < T.sizeOf m.typeId := hnat ▸ hm.align_pos
  have hfit : w + 1 ≤ 8 * T.sizeOf m.typeId := by
    have hle := hm.width_le
    rwa [hw, Option.getD_some] at hle
  have hmod : 8 * n % (8 * T.sizeOf m.typeId) = 8 * (n % T.sizeOf m.typeId) :=
    Nat.mul_mod_mul_left 8 n _
  have hround : roundUp (8 * n) (8 * T.sizeOf m.typeId) = 8 * roundUp n (T.sizeOf m.typeId) := by
    rw [roundUp_scale hpos (by decide), show (8 * n + 8 - 1) / 8 = n by omega]
  rw [follows_shares hs hw (show _ = ⟨roundUp n (T.alignOf m.typeId), T.sizeOf m.typeId, 0⟩ from rfl),
    abiStart_width hw, Frontier.bit, hmod, hround, hnat, Frontier.Agrees, hw, Frontier.AgreesAt]
  simp only [Nat.add_zero, Nat.zero_add, hfit, and_true]
  constructor
  · intro hstart
    by_cases hrest : 8 * (n % T.sizeOf m.typeId) + (w + 1) ≤ 8 * T.sizeOf m.typeId
    · rw [if_pos hrest] at hstart
      left
      have heq : roundUp n (T.sizeOf m.typeId) = n := by omega
      exact heq ▸ dvd_roundUp n (T.sizeOf m.typeId)
    · exact .inr (Nat.lt_of_not_le hrest)
  · intro h
    rcases h with hdvd | hlt
    · rw [roundUp_of_dvd hpos hdvd]
      split_ifs <;> rfl
    · rw [if_neg (Nat.not_le.2 hlt)]

/-- A bit-field that the open unit takes. -/
theorem follows_taken {u : BitUnit} {w : ℕ} (hm : Formed T m) (hu : (Frontier.bits u).Natural)
    (hw : m.bitWidth = some (w + 1)) (htakes : u.used + (w + 1) ≤ 8 * u.size) :
    (Frontier.bits u).Follows T m ↔ (Frontier.bits u).Agrees T m := by
  obtain ⟨hsize, hbase, -, -⟩ := hu
  have hs : m.Shares := hm.shares hw
  have hunit : (Frontier.bits u).unitFor T m = u := by
    rw [Frontier.unitFor, if_pos]
    rw [BitUnit.Takes, unitBits_of_mem hsize, StructMember.width, hw]
    exact htakes
  rw [follows_shares hs hw hunit, abiStart_width hw, Frontier.Agrees, hw, Frontier.AgreesAt,
    if_pos htakes, Frontier.bit]
  refine ⟨And.right, fun haccess => ⟨?_, haccess⟩⟩
  have hne := Option.ne_none_iff_exists'.2 ⟨_, hw⟩
  have hown := hm.integer hne
  have hpos : 0 < 8 * T.sizeOf m.typeId := by omega
  have hfits : (8 * u.base + u.used) % (8 * T.sizeOf m.typeId) + (w + 1) ≤
      8 * T.sizeOf m.typeId := by
    rcases Nat.le_total (T.sizeOf m.typeId) u.size with hle | hle
    · have hdvd := (sizes_dvd hown hsize hle).trans hbase
      exact mod_add_le (Nat.mul_dvd_mul_left 8 hdvd) (Nat.dvd_refl _) hpos (Nat.succ_pos w) haccess
    · have hdvd := sizes_dvd hsize hown hle
      exact mod_add_le (Nat.mul_dvd_mul_left 8 hbase) (Nat.mul_dvd_mul_left 8 hdvd) hpos
        (Nat.succ_pos w) htakes
  rw [if_pos hfits]

/-- A bit-field that the open unit does not take. -/
theorem follows_reopened {u : BitUnit} {w : ℕ} (hm : Formed T m) (hu : (Frontier.bits u).Natural)
    (hw : m.bitWidth = some (w + 1)) (htakes : ¬ u.used + (w + 1) ≤ 8 * u.size) :
    (Frontier.bits u).Follows T m ↔ (Frontier.bits u).Agrees T m := by
  obtain ⟨hsize, hbase, hused, hle⟩ := hu
  have hs : m.Shares := hm.shares hw
  have hne := Option.ne_none_iff_exists'.2 ⟨_, hw⟩
  have hnat := hm.natural hne
  have hown := hm.integer hne
  have hpos : 0 < T.sizeOf m.typeId := hnat ▸ hm.align_pos
  have hfit : w + 1 ≤ 8 * T.sizeOf m.typeId := by
    have hle := hm.width_le
    rwa [hw, Option.getD_some] at hle
  have hunit : (Frontier.bits u).unitFor T m =
      ⟨roundUp (u.base + u.size) (T.sizeOf m.typeId), T.sizeOf m.typeId, 0⟩ := by
    rw [Frontier.unitFor, if_neg, hnat]
    rw [BitUnit.Takes, unitBits_of_mem hsize, StructMember.width, hw]
    exact htakes
  have hdown := le_roundUp hpos (u.base + u.size)
  rw [follows_shares hs hw hunit, abiStart_width hw, Frontier.Agrees, hw, Frontier.AgreesAt,
    if_neg htakes, Frontier.bit]
  simp only [Nat.add_zero, Nat.zero_add, hfit, and_true]
  have hend : 8 * u.base + u.used ≤ 8 * (u.base + u.size) := by omega
  by_cases hsmall : T.sizeOf m.typeId ≤ u.size
  · -- the end of the unit is a boundary of the type, and the bit-field would cross it
    refine iff_of_true ?_ (.inl hsmall)
    have hdvd := sizes_dvd hown hsize hsmall
    have hboundary : T.sizeOf m.typeId ∣ u.base + u.size := Nat.dvd_add (hdvd.trans hbase) hdvd
    rw [roundUp_of_dvd hpos hboundary,
      roundUp_of_crosses (Nat.mul_dvd_mul_left 8 hboundary) hend (by omega) hfit]
  · have hdvd := sizes_dvd hsize hown (Nat.le_of_not_le hsmall)
    have hround : roundUp (8 * u.base + u.used) (8 * T.sizeOf m.typeId) =
        8 * roundUp (u.base + u.size) (T.sizeOf m.typeId) := by
      rw [← roundUp_block (Nat.mul_dvd_mul_left 8 hbase) (Nat.mul_dvd_mul_left 8 hdvd)
        (by omega) hused hle, roundUp_scale hpos (by decide),
        show (8 * u.base + 8 * u.size + 8 - 1) / 8 = u.base + u.size by omega]
    rw [hround]
    split_ifs with hfits
    · -- the ABI has it at the next free bit
      constructor
      · intro hstart
        have hup : roundUp (u.base + u.size) (T.sizeOf m.typeId) = u.base + u.size := by omega
        exact .inr (.inr ⟨by omega, hup ▸ dvd_roundUp _ _⟩)
      · intro h
        obtain ⟨hfull, hboundary⟩ := (h.resolve_left hsmall).resolve_left (Nat.not_lt.2 hfits)
        rw [roundUp_of_dvd hpos hboundary]
        omega
    · exact iff_of_true rfl (.inr (.inl (Nat.lt_of_not_le hfits)))

/-- One round puts a member where the ABI has it just when the state in front of it agrees. -/
theorem follows_iff (hm : Formed T m) (hf : f.Natural) : f.Follows T m ↔ f.Agrees T m := by
  cases hw : m.bitWidth with
  | none => exact follows_ordinary hm hw
  | some width =>
    cases width with
    | zero =>
      refine follows_zero hm ?_ hw
      cases f with
      | bytes n => trivial
      | bits u => exact hf.2.2.2
    | succ w =>
      cases f with
      | bytes n => exact follows_bytes hm hw
      | bits u =>
        by_cases htakes : u.used + (w + 1) ≤ 8 * u.size
        · exact follows_taken hm hf hw htakes
        · exact follows_reopened hm hf hw htakes

theorem Frontier.Natural.next (hm : Formed T m) (hf : f.Natural) : (f.next T m).Natural := by
  by_cases hs : m.Shares
  · have hpos : 0 < m.width := hs.2
    have hne : m.bitWidth ≠ none := by
      intro hnone
      rw [StructMember.width, hnone] at hpos
      exact absurd hpos (Nat.lt_irrefl 0)
    have hnew (n : ℕ) : T.sizeOf m.typeId ∣ roundUp n (T.alignOf m.typeId) := by
      rw [hm.natural hne]
      exact dvd_roundUp _ _
    have hfit : m.width ≤ 8 * T.sizeOf m.typeId := hm.width_le
    rw [Frontier.next, if_pos hs]
    cases f with
    | bytes n =>
      refine ⟨hm.integer hne, hnew n, ?_, ?_⟩
      · exact Nat.add_pos_right 0 hpos
      · exact (Nat.zero_add m.width).symm ▸ hfit
    | bits u =>
      rw [Frontier.unitFor]
      split_ifs with htakes
      · rw [BitUnit.Takes, unitBits_of_mem hf.1] at htakes
        exact ⟨hf.1, hf.2.1, Nat.add_pos_right _ hpos, htakes⟩
      · refine ⟨hm.integer hne, hnew _, ?_, ?_⟩
        · exact Nat.add_pos_right 0 hpos
        · exact (Nat.zero_add m.width).symm ▸ hfit
  · rw [Frontier.next, if_neg hs]
    trivial

end Step

section Run

variable {T : TypeSystem} {o : Overflow}

/-- The members are laid out as the ABI has them: where they start, what a bit-field can be
accessed through, and, behind each of them, the next free bit of the loop. -/
structure StructFollows (o : Overflow) (T : TypeSystem) (ms : List StructMember)
    (info : LayoutInfo) : Prop where
  starts : info.members.map StructMember.startBit = abiStarts T 0 ms
  access : ∀ placed ∈ info.members, placed.Accessible T
  free : ∀ before, before <+: ms → ∀ st, before.foldlM (layoutMember o T) .start = some st →
    st.frontier.bit = abiEnd T before

/-- All members of a union start at its first bit. -/
structure UnionFollows (T : TypeSystem) (info : LayoutInfo) : Prop where
  starts : ∀ placed ∈ info.members, placed.startBit = 0
  access : ∀ placed ∈ info.members, placed.Accessible T

/-- `compute_layout_info` gives the ABI's layout. -/
def FollowsAbi (o : Overflow) (T : TypeSystem) (isUnion : Bool) (ms : List StructMember) : Prop :=
  ∃ info, computeLayoutInfo o T ms isUnion = some info ∧
    if isUnion then UnionFollows T info else StructFollows o T ms info

theorem RoomAll.restrict {f : Frontier} {before ms : List StructMember} (h : RoomAll T f ms)
    (hbefore : before <+: ms) : RoomAll T f before := by
  induction before generalizing f ms with
  | nil => trivial
  | cons m before ih =>
    obtain ⟨rest, rfl⟩ := hbefore
    exact ⟨h.1, ih h.2 (List.prefix_append before rest)⟩

/-- All members are where the ABI has them just when the state in front of each agrees. -/
theorem placeAll_follows_iff {f : Frontier} {ms : List StructMember} (hms : ∀ m ∈ ms, Formed T m)
    (hf : f.Natural) :
    ((placeAll T f ms).map StructMember.startBit = abiStarts T f.bit ms ∧
      (∀ placed ∈ placeAll T f ms, placed.Accessible T) ∧
      ∀ before, before <+: ms → (lastFrontier T f before).bit = before.foldl (abiNext T) f.bit) ↔
      AgreesAll T f ms := by
  induction ms generalizing f with
  | nil =>
    refine iff_of_true ⟨rfl, nofun, fun before hbefore => ?_⟩ trivial
    rw [List.prefix_nil.1 hbefore]
    rfl
  | cons m ms ih =>
    have hm := hms m List.mem_cons_self
    have hrest := ih (fun n hn => hms n (List.mem_cons_of_mem m hn)) (hf.next hm)
    rw [AgreesAll, ← follows_iff hm hf, ← hrest]
    constructor
    · rintro ⟨hstarts, haccess, hfree⟩
      obtain ⟨hstart, hstarts⟩ := List.cons.inj hstarts
      have hnext : (f.next T m).bit = abiNext T f.bit m :=
        hfree [m] (List.prefix_cons_inj m |>.2 (List.nil_prefix))
      rw [placeAll, List.forall_mem_cons] at haccess
      refine ⟨⟨hstart, hnext, haccess.1⟩, ?_, haccess.2, fun before hbefore => ?_⟩
      · rw [hnext]
        exact hstarts
      · rw [hnext]
        exact hfree (m :: before) ((List.prefix_cons_inj m).2 hbefore)
    · rintro ⟨hstep, hstarts, haccess, hfree⟩
      rw [hstep.next] at hstarts hfree
      refine ⟨?_, List.forall_mem_cons.2 ⟨hstep.access, haccess⟩, fun before hbefore => ?_⟩
      · rw [placeAll, List.map_cons, hstep.start, hstarts]
        rfl
      · cases before with
        | nil => rfl
        | cons n before =>
          obtain ⟨rfl, hmore⟩ := List.cons_prefix_cons.1 hbefore
          exact hfree before hmore

/-- The loop stands at the frontier of the members it has laid out. -/
theorem frontier_of_foldlM {ms before : List StructMember} {st : LayoutState}
    (hms : ∀ m ∈ ms, Declared T m) (hroom : RoomAll T (.bytes 0) ms) (hbefore : before <+: ms)
    (hrun : before.foldlM (layoutMember o T) .start = some st) :
    st.frontier = lastFrontier T (.bytes 0) before := by
  have hdeclared : ∀ m ∈ before, Declared T m := fun m hm => hms m (hbefore.subset hm)
  have hstart : RoomAll T LayoutState.start.frontier before := hroom.restrict hbefore
  obtain ⟨st', hrun', hlast, -⟩ :=
    foldlM_of_room (o := o) hdeclared hstart (Nat.le_refl 1)
  obtain rfl := Option.some.inj (hrun.symm.trans hrun')
  exact hlast

theorem structFollows_iff {ms : List StructMember} (hms : ∀ m ∈ ms, Formed T m)
    (h : Fits T false ms) :
    FollowsAbi o T false ms ↔ AgreesAll T (.bytes 0) ms := by
  have hdeclared : ∀ m ∈ ms, Declared T m := fun m hm => (hms m hm).toDeclared
  have hinfo := structInfo_of_fits (o := o) hdeclared h
  rw [← placeAll_follows_iff (f := .bytes 0) hms trivial]
  constructor
  · rintro ⟨info, hcomputed, hstarts, haccess, hfree⟩
    obtain rfl := Option.some.inj (hcomputed.symm.trans hinfo)
    refine ⟨hstarts, haccess, fun before hbefore => ?_⟩
    obtain ⟨st, hrun, hlast, -⟩ := @foldlM_of_room T o .start before
      (fun m hm => hdeclared m (hbefore.subset hm)) (h.1.restrict hbefore) (Nat.le_refl 1)
    have hbit := hfree before hbefore st hrun
    rw [hlast] at hbit
    exact hbit
  · rintro ⟨hstarts, haccess, hfree⟩
    refine ⟨_, hinfo, hstarts, haccess, fun before hbefore st hrun => ?_⟩
    rw [frontier_of_foldlM hdeclared h.1 hbefore hrun]
    exact hfree before hbefore

theorem unionFollows {ms : List StructMember} (hms : ∀ m ∈ ms, Formed T m) (h : Fits T true ms) :
    FollowsAbi o T true ms := by
  have hsize := roundSize_of_lt (o := o) h (one_le_maxAlignOf T ms)
  refine ⟨_, (unionInfo_eq o T ms).trans (by rw [hsize]; rfl), fun placed hplaced => ?_,
    fun placed hplaced => ?_⟩
  · obtain ⟨m, hm, rfl⟩ := List.mem_map.1 hplaced
    rw [StructMember.startBit, (hms m hm).offset]
    cases m.bitWidth <;> rfl
  · obtain ⟨m, hm, rfl⟩ := List.mem_map.1 hplaced
    intro bit hbit width hwidth
    have hle := (hms m hm).width_le
    have hoffset := (hms m hm).offset
    simp only [Option.mem_def] at hbit hwidth
    rw [hbit, hwidth] at hoffset
    rw [hwidth, Option.getD_some] at hle
    obtain rfl := Option.some.inj hoffset
    exact (Nat.zero_add width).symm ▸ hle

/-- Whatever overflow does, the layout is the ABI's just when all its sums fit and, in a struct,
the state in front of every member agrees. -/
theorem followsAbi_iff (T : TypeSystem) (isUnion : Bool) (ms : List StructMember)
    (hms : ∀ m ∈ ms, Formed T m) :
    (∀ o, FollowsAbi o T isUnion ms) ↔
      Fits T isUnion ms ∧ (isUnion = false → AgreesAll T (.bytes 0) ms) := by
  have hdeclared : ∀ m ∈ ms, Declared T m := fun m hm => (hms m hm).toDeclared
  constructor
  · intro h
    have hfits : Fits T isUnion ms := by
      obtain ⟨info, hinfo, -⟩ := h .panics
      exact fits_of_computeLayoutInfo hdeclared hinfo
    refine ⟨hfits, ?_⟩
    rintro rfl
    exact (structFollows_iff hms hfits).1 (h .panics)
  · rintro ⟨hfits, hagrees⟩ o
    cases isUnion with
    | false => exact (structFollows_iff hms hfits).2 (hagrees rfl)
    | true => exact unionFollows hms hfits

end Run

section Examples

/-- `int a : 9; char b : 4;` -/
def narrowMembers : List StructMember :=
  [⟨"a", 7, 0, some 0, some 9⟩, ⟨"b", 2, 0, some 0, some 4⟩]

/-- `int a : 9; int b : 4; int c;` -/
def intMembers : List StructMember :=
  [⟨"a", 7, 0, some 0, some 9⟩, ⟨"b", 7, 0, some 0, some 4⟩, ⟨"c", 7, 0, none, none⟩]

theorem formed_narrowMembers : ∀ m ∈ narrowMembers, Formed smallTypes m := by
  intro m hm
  simp only [narrowMembers, List.mem_cons, List.not_mem_nil, or_false] at hm
  rcases hm with rfl | rfl <;> exact ⟨⟨by decide, by decide, by decide⟩, rfl, by decide, by decide⟩

theorem followsAbi_intMembers : FollowsAbi .wraps smallTypes false intMembers := by
  refine (followsAbi_iff smallTypes false intMembers ?_).2 (by decide) .wraps
  intro m hm
  simp only [intMembers, List.mem_cons, List.not_mem_nil, or_false] at hm
  rcases hm with rfl | rfl | rfl <;>
    exact ⟨⟨by decide, by decide, by decide⟩, rfl, by decide, by decide⟩

/-- The bits 9 to 12 of the unit of `a` are not in the `char` at its offset. -/
theorem not_followsAbi_narrowMembers :
    (∀ m ∈ narrowMembers, Formed smallTypes m) ∧ ¬ FollowsAbi .wraps smallTypes false narrowMembers := by
  refine ⟨formed_narrowMembers, ?_⟩
  rintro ⟨info, hinfo, -, haccess, -⟩
  obtain rfl := Option.some.inj (hinfo.symm.trans (show computeLayoutInfo .wraps smallTypes
    narrowMembers false = some ⟨4, 4, [⟨"a", 7, 0, some 0, some 9⟩, ⟨"b", 2, 0, some 9, some 4⟩]⟩
    by decide))
  have hb := haccess ⟨"b", 2, 0, some 9, some 4⟩ (by decide) 9 rfl 4 rfl
  exact absurd hb (by decide)

end Examples

end OpticC.StructLayout
