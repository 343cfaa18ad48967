import OpticC.Lib.ByteMemory

/-! The arena: a pool of AST nodes and a pool of strings in one mapping. Both
only grow, so what was allocated or stored keeps its contents. An offset is the
`u32` inside a `NodeOffset`, and 0 is `NodeOffset::NULL`. -/

namespace OpticC

open ByteMemory

/-- The fields of a node that the parser sets and the backend reads. -/
structure CAstNode where
  kind : ℕ
  isValid : Bool
  parent : ℕ
  firstChild : ℕ
  nextSibling : ℕ
  data : ℕ
  deriving DecidableEq, Repr

/-- `std::mem::size_of::<CAstNode>()`, the size of one slot of the mapping. -/
def slotSize : ℕ := 56

/-- The node slots hold `nodes`; the bytes from slot `stringStart` on are `pool`. -/
structure Arena where
  nodes : ℕ → CAstNode
  pool : Memory
  nodeCapacity : ℕ
  nodeAllocated : ℕ
  stringStart : ℕ
  stringCapacity : ℕ
  stringAllocated : ℕ
  /-- Slot 0 is reserved, so that no node is `NULL`. -/
  nodeAllocated_pos : 0 < nodeAllocated
  stringStart_pos : 0 < stringStart
  strings_le : stringAllocated ≤ stringCapacity

namespace Arena

def blank : CAstNode := ⟨0, false, 0, 0, 0, 0⟩

/-- `Arena::new` on a fresh, zero-filled mapping; `none` is `ZeroCapacity`. -/
def new (nodeCapacity : ℕ) : Option Arena :=
  if nodeCapacity = 0 then none
  else some
    { nodes := fun _ => blank
      pool := fun _ => 0
      nodeCapacity
      nodeAllocated := 1
      stringStart := nodeCapacity + 1
      stringCapacity := nodeCapacity / 4
      stringAllocated := 0
      nodeAllocated_pos := Nat.one_pos
      stringStart_pos := Nat.succ_pos _
      strings_le := Nat.zero_le _ }

/-- An arena whose nodes are these, from offset 1 on, without strings. -/
def ofNodes (nodes : List CAstNode) : Arena :=
  { nodes := fun i => (nodes[i - 1]?).getD blank
    pool := fun _ => 0
    nodeCapacity := nodes.length + 1
    nodeAllocated := nodes.length + 1
    stringStart := nodes.length + 2
    stringCapacity := 0
    stringAllocated := 0
    nodeAllocated_pos := Nat.succ_pos _
    stringStart_pos := Nat.succ_pos _
    strings_le := Nat.le_refl _ }

def alloc (a : Arena) (node : CAstNode) : Option (ℕ × Arena) :=
  if a.nodeAllocated ≥ a.nodeCapacity then none
  else some (a.nodeAllocated,
    { a with
      nodes := fun i => if i = a.nodeAllocated then node else a.nodes i
      nodeAllocated := a.nodeAllocated + 1
      nodeAllocated_pos := Nat.succ_pos _ })

def get (a : Arena) (offset : ℕ) : Option CAstNode :=
  if offset = 0 ∨ offset ≥ a.nodeAllocated then none else some (a.nodes offset)

/-- A write through `get_mut`; out of range there is nothing to write to. -/
def modify (a : Arena) (offset : ℕ) (f : CAstNode → CAstNode) : Arena :=
  if offset = 0 ∨ offset ≥ a.nodeAllocated then a
  else { a with nodes := fun i => if i = offset then f (a.nodes i) else a.nodes i }

/-- `slots_needed` of `store_string`, in `u32` arithmetic. -/
def slotsNeeded (len : ℕ) : ℕ := ((4 + len) % 2 ^ 32 + slotSize - 1) % 2 ^ 32 / slotSize

def storeString (a : Arena) (s : String) : Option (ℕ × Arena) :=
  if s.utf8ByteSize = 0 then some (0, a)
  else if h : a.stringAllocated + slotsNeeded s.utf8ByteSize > a.stringCapacity then none
  else
    let slotIndex := a.stringAllocated
    let byteOffset := slotIndex * slotSize
    some (a.stringStart + slotIndex,
      { a with
        pool := write (write a.pool byteOffset (u32Bytes s.utf8ByteSize)) (byteOffset + 4)
          s.toByteArray.data.toList
        stringAllocated := a.stringAllocated + slotsNeeded s.utf8ByteSize
        strings_le := Nat.le_of_not_gt h })

def getString (a : Arena) (offset : ℕ) : Option String :=
  if offset = 0 then some ""
  else if offset < a.stringStart ∨ offset ≥ a.stringStart + a.stringAllocated then none
  else
    let byteOffset := (offset - a.stringStart) * slotSize
    let bytes := read a.pool (byteOffset + 4) (readU32 a.pool byteOffset)
    String.fromUTF8? ⟨bytes.toArray⟩

theorem le_slotsNeeded {len : ℕ} (h : len + 60 ≤ 2 ^ 32) : 4 + len ≤ slotsNeeded len * slotSize := by
  unfold slotsNeeded slotSize
  omega

/-- `s` is stored at `offset`: its length word and its bytes lie in the allocated
slots from there on. -/
structure Holds (a : Arena) (offset : ℕ) (s : String) : Prop where
  short : s.utf8ByteSize + 60 ≤ 2 ^ 32
  pos : 0 < offset
  start : a.stringStart ≤ offset
  fits : (offset - a.stringStart + slotsNeeded s.utf8ByteSize) ≤ a.stringAllocated
  len : read a.pool ((offset - a.stringStart) * slotSize) 4 = u32Bytes s.utf8ByteSize
  bytes : read a.pool ((offset - a.stringStart) * slotSize + 4) s.utf8ByteSize =
    s.toByteArray.data.toList

theorem getString_of_holds {a : Arena} {off : ℕ} {s : String} (h : a.Holds off s) :
    a.getString off = some s := by
  have hslot := le_slotsNeeded h.short
  have hpos := h.pos
  have hstart := h.start
  have hfits := h.fits
  have hshort := h.short
  unfold slotSize at hslot
  unfold getString
  rw [if_neg (by omega), if_neg (by omega)]
  have hlen : readU32 a.pool ((off - a.stringStart) * slotSize) = s.utf8ByteSize := by
    rw [readU32, h.len, u32Value_u32Bytes (by omega)]
  simp only [hlen, h.bytes, Array.toArray_toList]
  rw [String.fromUTF8?, dif_pos s.isValidUTF8]
  rfl

/-- What can be read from `a` can be read from `a'`. -/
structure Extends (a a' : Arena) : Prop where
  allocated : a.nodeAllocated ≤ a'.nodeAllocated
  nodes : ∀ off node, a.get off = some node → a'.get off = some node
  strings : ∀ off s, a.Holds off s → a'.Holds off s

theorem Extends.refl (a : Arena) : Extends a a := ⟨Nat.le_refl _, fun _ _ h => h, fun _ _ h => h⟩

theorem Extends.trans {a b c : Arena} (h1 : Extends a b) (h2 : Extends b c) : Extends a c :=
  ⟨Nat.le_trans h1.allocated h2.allocated, fun o n h => h2.nodes o n (h1.nodes o n h),
    fun o s h => h2.strings o s (h1.strings o s h)⟩

theorem get_alloc {a a' : Arena} {node : CAstNode} {off : ℕ}
    (h : a.alloc node = some (off, a')) : a'.get off = some node := by
  have hpos := a.nodeAllocated_pos
  unfold alloc at h
  split at h
  · cases h
  · cases h
    simp only [get]
    rw [if_neg (by omega), if_pos trivial]

theorem extends_alloc {a a' : Arena} {node : CAstNode} {off : ℕ}
    (h : a.alloc node = some (off, a')) : Extends a a' := by
  unfold alloc at h
  split at h
  · cases h
  · cases h
    refine ⟨Nat.le_succ _, fun o n ho => ?_, fun o s ho => ⟨ho.1, ho.2, ho.3, ho.4, ho.5, ho.6⟩⟩
    simp only [get] at ho ⊢
    split at ho
    · cases ho
    · rw [if_neg (by omega), if_neg (by omega)]
      exact ho

theorem storeString_eq {a a' : Arena} {s : String} {off : ℕ}
    (h : a.storeString s = some (off, a')) (hs : s.utf8ByteSize ≠ 0) :
    a.stringAllocated + slotsNeeded s.utf8ByteSize ≤ a.stringCapacity ∧
    off = a.stringStart + a.stringAllocated ∧
    ∃ h, a' = { a with
      pool := write (write a.pool (a.stringAllocated * slotSize) (u32Bytes s.utf8ByteSize))
        (a.stringAllocated * slotSize + 4) s.toByteArray.data.toList
      stringAllocated := a.stringAllocated + slotsNeeded s.utf8ByteSize
      strings_le := h } := by
  unfold storeString at h
  rw [if_neg hs] at h
  split at h
  · cases h
  · cases h
    exact ⟨by omega, rfl, by omega, rfl⟩

theorem holds_storeString {a a' : Arena} {s : String} {off : ℕ}
    (hs : s.utf8ByteSize ≠ 0) (hshort : s.utf8ByteSize + 60 ≤ 2 ^ 32)
    (h : a.storeString s = some (off, a')) : a'.Holds off s := by
  have hstart := a.stringStart_pos
  obtain ⟨-, rfl, -, rfl⟩ := storeString_eq h hs
  have hlen : s.toByteArray.data.toList.length = s.utf8ByteSize := by simp
  refine ⟨hshort, by omega, by simp, by simp, ?_, ?_⟩
  · rw [Nat.add_sub_cancel_left, read_write_disjoint _ _ _ _ _ (by omega)]
    exact read_write a.pool _ (u32Bytes s.utf8ByteSize)
  · have hread := read_write (write a.pool (a.stringAllocated * slotSize)
      (u32Bytes s.utf8ByteSize)) (a.stringAllocated * slotSize + 4) s.toByteArray.data.toList
    rw [hlen] at hread
    rw [Nat.add_sub_cancel_left]
    exact hread

theorem extends_storeString {a a' : Arena} {s : String} {off : ℕ}
    (h : a.storeString s = some (off, a')) : Extends a a' := by
  by_cases hs : s.utf8ByteSize = 0
  · unfold storeString at h
    rw [if_pos hs] at h
    cases h
    exact Extends.refl a
  obtain ⟨-, -, -, rfl⟩ := storeString_eq h hs
  refine ⟨Nat.le_refl _, fun o n ho => ho, fun o t ht => ?_⟩
  -- a held string ends where the allocated slots end, and the write starts there
  have hslot := le_slotsNeeded ht.short
  have hfits := Nat.mul_le_mul_right slotSize ht.fits
  rw [Nat.add_mul] at hfits
  have hold : ∀ off len, off + len ≤ a.stringAllocated * slotSize →
      read (write (write a.pool (a.stringAllocated * slotSize) (u32Bytes s.utf8ByteSize))
        (a.stringAllocated * slotSize + 4) s.toByteArray.data.toList) off len =
      read a.pool off len := by
    intro off len hle
    rw [read_write_disjoint _ _ _ _ _ (by omega), read_write_disjoint _ _ _ _ _ (by omega)]
  refine ⟨ht.short, ht.pos, ht.start, Nat.le_trans ht.fits (Nat.le_add_right _ _), ?_, ?_⟩
  · exact (hold ((o - a.stringStart) * slotSize) _ (by omega)).trans ht.len
  · exact (hold ((o - a.stringStart) * slotSize + 4) _ (by omega)).trans ht.bytes

end Arena

end OpticC
