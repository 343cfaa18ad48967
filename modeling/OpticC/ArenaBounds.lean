import OpticC.Arena

/-! The bytes of the mapping that each operation of the arena reads and writes. The mapping
has room for `node_capacity + string_capacity` slots, but the string region starts one slot
behind the node region, so its last slot lies behind the end of the mapping. -/

namespace OpticC

open ByteMemory

namespace Arena

/-- `byte_size`, the number of bytes that `Arena::new` maps. -/
def byteSize (a : Arena) : ℕ := (a.nodeCapacity + a.stringCapacity) * slotSize

def storePayload (a : Arena) (data : List UInt8) : Option ((ℕ × ℕ) × Arena) :=
  if data.length = 0 then some ((0, 0), a)
  else if h : a.stringAllocated + slotsNeeded data.length > a.stringCapacity then none
  else
    let slotIndex := a.stringAllocated
    let byteOffset := slotIndex * slotSize
    some ((a.stringStart + slotIndex, data.length % 2 ^ 32),
      { a with
        pool := write (write a.pool byteOffset (u32Bytes data.length)) (byteOffset + 4) data
        stringAllocated := a.stringAllocated + slotsNeeded data.length
        strings_le := Nat.le_of_not_gt h })

/-- The offset is not in the string region; the end of the region is computed in `u32`. -/
def Rejects (a : Arena) (offset : ℕ) : Prop :=
  offset = 0 ∨ offset < a.stringStart ∨ offset ≥ (a.stringStart + a.stringAllocated) % 2 ^ 32

instance (a : Arena) (offset : ℕ) : Decidable (a.Rejects offset) := by
  unfold Rejects
  infer_instance

/-- The length word at the slot. -/
def lengthWord (a : Arena) (offset : ℕ) : ℕ :=
  readU32 a.pool ((offset - a.stringStart) * slotSize)

def getPayload (a : Arena) (offset len : ℕ) : Option (List UInt8) :=
  if offset = 0 then some []
  else if a.Rejects offset then none
  else if a.lengthWord offset ≠ len then none
  else some (read a.pool ((offset - a.stringStart) * slotSize + 4) len)

end Arena

inductive ArenaOp where
  | alloc (node : CAstNode)
  | get (offset : ℕ)
  | getMut (offset : ℕ) (f : CAstNode → CAstNode)
  | storeString (s : String)
  | storePayload (data : List UInt8)
  | getString (offset : ℕ)
  | getPayload (offset len : ℕ)

namespace ArenaOp

open Arena

variable (a : Arena)

/-- The arena behind the operation; one that fails leaves it as it is. -/
def step : ArenaOp → Arena
  | alloc node => (a.alloc node).elim a Prod.snd
  | getMut offset f => a.modify offset f
  | storeString s => (a.storeString s).elim a Prod.snd
  | storePayload data => (a.storePayload data).elim a Prod.snd
  | _ => a

/-- The slot of a node: first byte and number of bytes. -/
def nodeSlot (offset : ℕ) : ℕ × ℕ := (offset * slotSize, slotSize)

/-- The length word and the contents that are written for a string of `len` bytes. -/
def stored (len : ℕ) : List (ℕ × ℕ) :=
  if len = 0 ∨ a.stringAllocated + slotsNeeded len > a.stringCapacity then []
  else
    let byteOffset := a.stringStart * slotSize + a.stringAllocated * slotSize
    [(byteOffset, 4), (byteOffset + 4, len)]

/-- The bytes read or written: the first one and their number. -/
def accesses : ArenaOp → List (ℕ × ℕ)
  | alloc _ => if a.nodeAllocated ≥ a.nodeCapacity then [] else [nodeSlot a.nodeAllocated]
  | get offset | getMut offset _ =>
    if offset = 0 ∨ offset ≥ a.nodeAllocated then [] else [nodeSlot offset]
  | storeString s => stored a s.utf8ByteSize
  | storePayload data => stored a data.length
  | getString offset =>
    if a.Rejects offset then []
    else
      let byteOffset := a.stringStart * slotSize + (offset - a.stringStart) * slotSize
      [(byteOffset, 4), (byteOffset + 4, a.lengthWord offset)]
  | getPayload offset len =>
    if a.Rejects offset then []
    else
      let byteOffset := a.stringStart * slotSize + (offset - a.stringStart) * slotSize
      if a.lengthWord offset ≠ len then [(byteOffset, 4)]
      else [(byteOffset, 4), (byteOffset + 4, len)]

/-- Every byte read or written was mapped. -/
def InBounds (op : ArenaOp) : Prop := ∀ r ∈ op.accesses a, r.1 + r.2 ≤ a.byteSize

/-- The offset that the store of `len` bytes returns, unless it is `NULL`. -/
def returned (len : ℕ) : List ℕ :=
  if len = 0 ∨ a.stringAllocated + slotsNeeded len > a.stringCapacity then []
  else [a.stringStart + a.stringAllocated]

/-- The property in front of every operation of a sequence. -/
def Throughout (P : Arena → ArenaOp → Prop) : Arena → List ArenaOp → Prop
  | _, [] => True
  | a, op :: ops => P a op ∧ Throughout P (op.step a) ops

/-- The store fails, or a slot of the string region stays free behind it. -/
def LeavesSlot (len : ℕ) : Prop :=
  len = 0 ∨ a.stringAllocated + slotsNeeded len > a.stringCapacity ∨
    a.stringAllocated + (len + 4 + slotSize - 1) / slotSize + 1 ≤ a.stringCapacity

/-- What the last slot of the string region and a length word that is none ask for. -/
def Safe : ArenaOp → Prop
  | storeString s => LeavesSlot a s.utf8ByteSize
  | storePayload data => LeavesSlot a data.length
  | getString offset =>
    a.Rejects offset ∨ offset * slotSize + 4 + a.lengthWord offset ≤ a.byteSize
  | getPayload offset len =>
    a.Rejects offset ∨ offset < a.nodeCapacity + a.stringCapacity ∧
      (a.lengthWord offset = len → offset * slotSize + 4 + len ≤ a.byteSize)
  | _ => True

end ArenaOp

/-- What `Arena::new` fixes and no operation changes. -/
structure Arena.Layout (n : ℕ) (a : Arena) : Prop where
  nodeCapacity : a.nodeCapacity = n
  stringStart : a.stringStart = n + 1
  stringCapacity : a.stringCapacity = n / 4
  nodeAllocated_le : a.nodeAllocated ≤ n

namespace Arena

theorem layout_new {n : ℕ} {a : Arena} (h : Arena.new n = some a) : Layout n a := by
  unfold Arena.new at h
  split at h
  · cases h
  · cases h
    exact ⟨rfl, rfl, rfl, show 1 ≤ n by omega⟩

theorem Layout.alloc {n : ℕ} {a : Arena} (h : Layout n a) (node : CAstNode) :
    Layout n ((a.alloc node).elim a Prod.snd) := by
  have hcap := h.nodeCapacity
  unfold Arena.alloc
  split
  · exact h
  · refine ⟨hcap, h.stringStart, h.stringCapacity, ?_⟩
    simp only [Option.elim_some]
    omega

theorem Layout.modify {n : ℕ} {a : Arena} (h : Layout n a) (offset : ℕ)
    (f : CAstNode → CAstNode) : Layout n (a.modify offset f) := by
  unfold Arena.modify
  split
  · exact h
  · exact ⟨h.nodeCapacity, h.stringStart, h.stringCapacity, h.nodeAllocated_le⟩

theorem Layout.storeString {n : ℕ} {a : Arena} (h : Layout n a) (s : String) :
    Layout n ((a.storeString s).elim a Prod.snd) := by
  unfold Arena.storeString
  split
  · exact h
  · split
    · exact h
    · exact ⟨h.nodeCapacity, h.stringStart, h.stringCapacity, h.nodeAllocated_le⟩

theorem Layout.storePayload {n : ℕ} {a : Arena} (h : Layout n a) (data : List UInt8) :
    Layout n ((a.storePayload data).elim a Prod.snd) := by
  unfold Arena.storePayload
  split
  · exact h
  · split
    · exact h
    · exact ⟨h.nodeCapacity, h.stringStart, h.stringCapacity, h.nodeAllocated_le⟩

theorem Layout.step {n : ℕ} {a : Arena} (h : Layout n a) (op : ArenaOp) :
    Layout n (op.step a) := by
  cases op with
  | alloc node => exact h.alloc node
  | getMut offset f => exact h.modify offset f
  | storeString s => exact h.storeString s
  | storePayload data => exact h.storePayload data
  | get offset => exact h
  | getString offset => exact h
  | getPayload offset len => exact h

end Arena

namespace ArenaOp

theorem throughout_congr {P Q : Arena → ArenaOp → Prop} {n : ℕ}
    (h : ∀ a op, a.Layout n → (P a op ↔ Q a op)) :
    ∀ (ops : List ArenaOp) (a : Arena), a.Layout n → (Throughout P a ops ↔ Throughout Q a ops) := by
  intro ops
  induction ops with
  | nil => intro a _; exact Iff.rfl
  | cons op ops ih =>
    intro a ha
    exact and_congr (h a op ha) (ih (op.step a) (ha.step op))

/-- The contents end within the mapping just when one slot stays free. -/
theorem stored_inBounds_iff {n : ℕ} {a : Arena} (h : a.Layout n) (len : ℕ) :
    (∀ r ∈ stored a len, r.1 + r.2 ≤ a.byteSize) ↔ LeavesSlot a len := by
  obtain ⟨hcap, hstart, hstrings, hnodes⟩ := h
  unfold stored LeavesSlot Arena.byteSize
  split
  · rename_i hfail
    simp only [List.not_mem_nil, false_implies, implies_true, true_iff]
    omega
  · rename_i hfits
    simp only [List.mem_cons, List.not_mem_nil, or_false, forall_eq_or_imp, forall_eq]
    unfold slotSize
    omega

theorem nodeAccess_inBounds {n : ℕ} {a : Arena} (h : a.Layout n) (p : Prop) [Decidable p]
    {offset : ℕ} (hoff : ¬p → offset < n) :
    ∀ r ∈ (if p then [] else [nodeSlot offset]), r.1 + r.2 ≤ a.byteSize := by
  have hcap := h.nodeCapacity
  intro r hr
  by_cases hp : p
  · simp [hp] at hr
  · have hlt := hoff hp
    rw [if_neg hp, List.mem_singleton] at hr
    rw [hr]
    unfold nodeSlot Arena.byteSize slotSize
    omega

/-- The slot of an offset in the string region, as a byte of the mapping. -/
theorem slot_eq {a : Arena} {offset : ℕ} (h : ¬a.Rejects offset) :
    a.stringStart * slotSize + (offset - a.stringStart) * slotSize = offset * slotSize := by
  unfold Arena.Rejects at h
  rw [← Nat.add_mul, Nat.add_sub_cancel' (by omega)]

theorem inBounds_iff {n : ℕ} (a : Arena) (op : ArenaOp) (h : a.Layout n) :
    op.InBounds a ↔ op.Safe a := by
  have hnodes := h.nodeAllocated_le
  cases op with
  | alloc node =>
    have hcap := h.nodeCapacity
    exact iff_of_true (nodeAccess_inBounds h _ (by omega)) trivial
  | get offset => exact iff_of_true (nodeAccess_inBounds h _ (by omega)) trivial
  | getMut offset f => exact iff_of_true (nodeAccess_inBounds h _ (by omega)) trivial
  | storeString s => exact stored_inBounds_iff h s.utf8ByteSize
  | storePayload data => exact stored_inBounds_iff h data.length
  | getString offset =>
    simp only [InBounds, accesses, Safe]
    by_cases hrej : a.Rejects offset
    · simp [hrej]
    · simp only [hrej, if_false, slot_eq hrej, List.mem_cons, List.not_mem_nil, or_false,
        forall_eq_or_imp, forall_eq, false_or]
      omega
  | getPayload offset len =>
    simp only [InBounds, accesses, Safe]
    by_cases hrej : a.Rejects offset
    · simp [hrej]
    · have hword : offset * slotSize + 4 ≤ a.byteSize ↔
          offset < a.nodeCapacity + a.stringCapacity := by
        unfold Arena.byteSize slotSize
        omega
      by_cases hlen : a.lengthWord offset = len
      · simp only [hrej, hlen, ne_eq, not_true, if_false, slot_eq hrej, List.mem_cons,
          List.not_mem_nil, or_false, forall_eq_or_imp, forall_eq, false_or, true_implies, hword]
      · simp only [hrej, hlen, ne_eq, not_false_eq_true, if_true, if_false, slot_eq hrej,
          List.mem_cons, List.not_mem_nil, or_false, forall_eq, false_or, false_implies, and_true,
          hword]

end ArenaOp

/-- Over any run from a fresh arena, the bytes read and written are mapped just when every
operation is safe where it is executed. -/
theorem accessesInBounds_iff (n : ℕ) (a : Arena) (ops : List ArenaOp) (h : Arena.new n = some a) :
    ArenaOp.Throughout (fun b op => op.InBounds b) a ops ↔
      ArenaOp.Throughout (fun b op => op.Safe b) a ops :=
  ArenaOp.throughout_congr ArenaOp.inBounds_iff ops a (Arena.layout_new h)

theorem accessesInBounds_payload : ∃ a, Arena.new 8 = some a ∧
    ArenaOp.Throughout (fun b op => op.InBounds b) a [.storePayload [7], .getString 9] :=
  ⟨_, rfl, (accessesInBounds_iff 8 _ _ rfl).2
    ⟨Or.inr (Or.inr (by decide)), Or.inr (by decide), trivial⟩⟩

/-- With 4 nodes the only string slot is the one behind the mapping. -/
theorem not_accessesInBounds_lastSlot : ¬∀ a, Arena.new 4 = some a →
    ArenaOp.Throughout (fun b op => op.InBounds b) a [.storePayload [7]] := by
  intro h
  exact absurd ((h _ rfl).1 (284, 1) (by decide)) (by decide)

namespace Arena

/-- What is stored at the slot ends within the slots that are in use. -/
structure Handle (a : Arena) (offset : ℕ) : Prop where
  start_le : a.stringStart ≤ offset
  fits : (offset - a.stringStart) * slotSize + 4 + a.lengthWord offset ≤
    a.stringAllocated * slotSize

/-- A handle can be read as long as a slot is free. -/
def Readable (a : Arena) (offset : ℕ) : Prop :=
  a.Handle offset ∧ a.stringAllocated + 1 ≤ a.stringCapacity

/-- The string that is stored next leaves the earlier ones as they are. -/
theorem Handle.write {a : Arena} {offset : ℕ} (h : a.Handle offset) (word data : List UInt8) :
    readU32 (ByteMemory.write (ByteMemory.write a.pool (a.stringAllocated * slotSize) word)
      (a.stringAllocated * slotSize + 4) data) ((offset - a.stringStart) * slotSize) =
        a.lengthWord offset := by
  have hfits := h.fits
  unfold lengthWord readU32
  rw [read_write_disjoint _ _ _ _ _ (by omega), read_write_disjoint _ _ _ _ _ (by omega)]

/-- The length word of a string that is not too long for it. -/
theorem readU32_write (m : Memory) (at_ : ℕ) (data : List UInt8) (h : data.length < 2 ^ 32) :
    readU32 (ByteMemory.write (ByteMemory.write m at_ (u32Bytes data.length)) (at_ + 4) data) at_ =
      data.length := by
  have hword := read_write m at_ (u32Bytes data.length)
  rw [u32Bytes_length] at hword
  unfold readU32
  rw [read_write_disjoint _ _ _ _ _ (by omega), hword, u32Value_u32Bytes h]

/-- A string that is not too long, stored with a slot left, is a handle. -/
theorem handle_returned {a : Arena} {data : List UInt8} {offset : ℕ}
    (hshort : data.length + 60 ≤ 2 ^ 32) (hfree : ArenaOp.LeavesSlot a data.length)
    (hoff : offset ∈ ArenaOp.returned a data.length) :
    ((a.storePayload data).elim a Prod.snd).Readable offset := by
  have hslots := le_slotsNeeded hshort
  unfold ArenaOp.returned at hoff
  split at hoff
  · cases hoff
  · rename_i hstored
    rw [not_or] at hstored
    rw [List.mem_singleton] at hoff
    subst hoff
    unfold Arena.storePayload
    rw [if_neg hstored.1, dif_neg hstored.2]
    have hword := readU32_write a.pool (a.stringAllocated * slotSize) data (by omega)
    refine ⟨⟨Nat.le_add_right _ _, ?_⟩, ?_⟩
    · simp only [Option.elim_some, lengthWord, Nat.add_sub_cancel_left, hword, Nat.add_mul]
      omega
    · show a.stringAllocated + slotsNeeded data.length + 1 ≤ a.stringCapacity
      unfold ArenaOp.LeavesSlot slotsNeeded slotSize at *
      omega

/-- A string is stored as the payload of its bytes. -/
theorem storeString_snd (a : Arena) (s : String) : (a.storeString s).elim a Prod.snd =
    (a.storePayload s.toByteArray.data.toList).elim a Prod.snd := by
  have hlen : s.toByteArray.data.toList.length = s.utf8ByteSize := by simp
  unfold storeString storePayload
  simp only [hlen]
  split
  · rfl
  · split <;> rfl

theorem Handle.storePayload {a : Arena} {offset : ℕ} (h : a.Handle offset) (data : List UInt8) :
    ((a.storePayload data).elim a Prod.snd).Handle offset := by
  have hfits := h.fits
  unfold Arena.storePayload
  split
  · exact h
  · split
    · exact h
    · refine ⟨h.start_le, ?_⟩
      have hword := h.write (u32Bytes data.length) data
      have hgrow := Nat.mul_le_mul_right slotSize
        (Nat.le_add_right a.stringAllocated (slotsNeeded data.length))
      have heq := congrArg (fun w => (offset - a.stringStart) * slotSize + 4 + w) hword
      exact Nat.le_trans (Nat.le_of_eq heq) (Nat.le_trans hfits hgrow)

theorem Readable.alloc {a : Arena} {offset : ℕ} (h : a.Readable offset) (node : CAstNode) :
    ((a.alloc node).elim a Prod.snd).Readable offset := by
  unfold Arena.alloc
  split
  · exact h
  · exact ⟨⟨h.1.start_le, h.1.fits⟩, h.2⟩

theorem Readable.modify {a : Arena} {offset : ℕ} (h : a.Readable offset) (off : ℕ)
    (f : CAstNode → CAstNode) : (a.modify off f).Readable offset := by
  unfold Arena.modify
  split
  · exact h
  · exact ⟨⟨h.1.start_le, h.1.fits⟩, h.2⟩

/-- A store that leaves a slot keeps what can be read. -/
theorem Readable.storePayload {a : Arena} {offset : ℕ} (h : a.Readable offset) {data : List UInt8}
    (hshort : data.length + 60 ≤ 2 ^ 32) (hfree : ArenaOp.LeavesSlot a data.length) :
    ((a.storePayload data).elim a Prod.snd).Readable offset := by
  refine ⟨h.1.storePayload data, ?_⟩
  have hroom := h.2
  unfold Arena.storePayload
  split
  · exact hroom
  · split
    · exact hroom
    · show a.stringAllocated + slotsNeeded data.length + 1 ≤ a.stringCapacity
      unfold ArenaOp.LeavesSlot slotsNeeded slotSize at *
      omega

/-- What can be read is read within the mapping. -/
theorem Readable.fits {n : ℕ} {a : Arena} {offset : ℕ} (h : a.Readable offset)
    (hlayout : a.Layout n) : offset * slotSize + 4 + a.lengthWord offset ≤ a.byteSize := by
  have hfits := h.1.fits
  have hstart := h.1.start_le
  have hroom := h.2
  have hcap := hlayout.nodeCapacity
  have hnodes := hlayout.stringStart
  unfold byteSize slotSize at *
  omega

end Arena

namespace ArenaOp

open Arena

/-- A client that stores short strings, keeps a slot free and reads only what it stored. -/
def Disciplined : Arena → List ℕ → List ArenaOp → Prop
  | _, _, [] => True
  | a, known, op :: ops =>
    match op with
    | storeString s => s.utf8ByteSize + 60 ≤ 2 ^ 32 ∧ LeavesSlot a s.utf8ByteSize ∧
        Disciplined (op.step a) (returned a s.utf8ByteSize ++ known) ops
    | storePayload data => data.length + 60 ≤ 2 ^ 32 ∧ LeavesSlot a data.length ∧
        Disciplined (op.step a) (returned a data.length ++ known) ops
    | getString offset => offset ∈ known ∧ Disciplined (op.step a) known ops
    | getPayload offset _ => offset ∈ known ∧ Disciplined (op.step a) known ops
    | _ => Disciplined (op.step a) known ops

/-- What is known to be readable in front of a store, and what it returns. -/
theorem readable_storePayload {a : Arena} {known : List ℕ} {data : List UInt8}
    (hknown : ∀ off ∈ known, a.Readable off) (hshort : data.length + 60 ≤ 2 ^ 32)
    (hfree : LeavesSlot a data.length) :
    ∀ off ∈ returned a data.length ++ known,
      ((a.storePayload data).elim a Prod.snd).Readable off := by
  intro off hoff
  rcases List.mem_append.1 hoff with hnew | hold
  · exact handle_returned hshort hfree hnew
  · exact (hknown off hold).storePayload hshort hfree

theorem Disciplined.safe {n : ℕ} : ∀ (ops : List ArenaOp) (a : Arena) (known : List ℕ),
    a.Layout n → (∀ off ∈ known, a.Readable off) → Disciplined a known ops →
      Throughout (fun b op => op.Safe b) a ops := by
  intro ops
  induction ops with
  | nil => intro a known _ _ _; trivial
  | cons op ops ih =>
    intro a known hlayout hknown h
    have hnext := hlayout.step op
    cases op with
    | alloc node =>
      refine ⟨trivial, ih _ known hnext (fun off hoff => ?_) h⟩
      exact (hknown off hoff).alloc node
    | get offset => exact ⟨trivial, ih _ known hnext hknown h⟩
    | getMut offset f =>
      refine ⟨trivial, ih _ known hnext (fun off hoff => ?_) h⟩
      exact (hknown off hoff).modify offset f
    | storeString s =>
      obtain ⟨hshort, hfree, hrest⟩ := h
      have hlen : s.toByteArray.data.toList.length = s.utf8ByteSize := by simp
      refine ⟨hfree, ih _ _ hnext ?_ hrest⟩
      rw [← hlen] at hshort hfree ⊢
      have hread := readable_storePayload hknown hshort hfree
      rw [← storeString_snd] at hread
      exact hread
    | storePayload data =>
      obtain ⟨hshort, hfree, hrest⟩ := h
      exact ⟨hfree, ih _ _ hnext (readable_storePayload hknown hshort hfree) hrest⟩
    | getString offset =>
      exact ⟨Or.inr ((hknown offset h.1).fits hlayout), ih _ known hnext hknown h.2⟩
    | getPayload offset len =>
      have hfits := (hknown offset h.1).fits hlayout
      refine ⟨Or.inr ⟨?_, fun hlen => hlen ▸ hfits⟩, ih _ known hnext hknown h.2⟩
      unfold byteSize slotSize at hfits
      omega

end ArenaOp

/-- A disciplined client of a fresh arena never leaves the mapping. -/
theorem inBounds_of_disciplined (n : ℕ) (a : Arena) (ops : List ArenaOp)
    (h : Arena.new n = some a) (hops : ArenaOp.Disciplined a [] ops) :
    ArenaOp.Throughout (fun b op => op.InBounds b) a ops := by
  have hlayout := Arena.layout_new h
  rw [ArenaOp.throughout_congr ArenaOp.inBounds_iff ops a hlayout]
  exact ArenaOp.Disciplined.safe ops a [] hlayout (fun _ hoff => absurd hoff List.not_mem_nil) hops

end OpticC
