import OpticC.Arena
import OpticC.Lib.Layout

/-! The arena as it lies in memory: the nodes and the strings are bytes of one mapping, and
every offset is turned into the address of a slot. -/

namespace OpticC.Mapped

open ByteMemory Layout

structure SourceLocation where
  fileId : UInt32
  line : UInt32
  column : UInt32
  length : UInt32
  deriving DecidableEq, Repr

/-- `CAstNode` with all its fields; a `NodeOffset` is its `u32`. -/
structure CAstNode where
  kind : UInt16
  flags : UInt16
  parent : UInt32
  firstChild : UInt32
  lastChild : UInt32
  nextSibling : UInt32
  prevSibling : UInt32
  childCount : UInt16
  data : UInt32
  source : SourceLocation
  payloadOffset : UInt32
  payloadLen : UInt32
  deriving DecidableEq, Repr

section Bytes

/-- The node as `repr(C)` lays it out: two bytes of padding follow `child_count`. -/
def CAstNode.bytes (node : CAstNode) : List UInt8 :=
  [u16Bytes node.kind.toNat, u16Bytes node.flags.toNat, u32Bytes node.parent.toNat,
    u32Bytes node.firstChild.toNat, u32Bytes node.lastChild.toNat,
    u32Bytes node.nextSibling.toNat, u32Bytes node.prevSibling.toNat,
    u16Bytes node.childCount.toNat, [0, 0], u32Bytes node.data.toNat,
    u32Bytes node.source.fileId.toNat, u32Bytes node.source.line.toNat,
    u32Bytes node.source.column.toNat, u32Bytes node.source.length.toNat,
    u32Bytes node.payloadOffset.toNat, u32Bytes node.payloadLen.toNat].flatten

def readWord (m : Memory) (at_ : ℕ) : UInt32 := UInt32.ofNat (readU32 m at_)

def readHalf (m : Memory) (at_ : ℕ) : UInt16 := UInt16.ofNat (u32Value (read m at_ 2))

/-- The node at an address. -/
def readNode (m : Memory) (at_ : ℕ) : CAstNode :=
  ⟨readHalf m at_, readHalf m (at_ + 2), readWord m (at_ + 4), readWord m (at_ + 8),
    readWord m (at_ + 12), readWord m (at_ + 16), readWord m (at_ + 20), readHalf m (at_ + 24),
    readWord m (at_ + 28),
    ⟨readWord m (at_ + 32), readWord m (at_ + 36), readWord m (at_ + 40), readWord m (at_ + 44)⟩,
    readWord m (at_ + 48), readWord m (at_ + 52)⟩

@[simp] theorem CAstNode.bytes_length (node : CAstNode) : node.bytes.length = slotSize := by
  simp [CAstNode.bytes, u16Bytes, u32Bytes, slotSize]

theorem readWord_of_eq {m : Memory} {at_ : ℕ} {v : UInt32} (h : read m at_ 4 = u32Bytes v.toNat) :
    readWord m at_ = v := by
  rw [readWord, readU32, h, u32Value_u32Bytes v.toNat_lt]
  exact UInt32.ofNat_toNat

theorem readHalf_of_eq {m : Memory} {at_ : ℕ} {v : UInt16} (h : read m at_ 2 = u16Bytes v.toNat) :
    readHalf m at_ = v := by
  rw [readHalf, h, u32Value_u16Bytes v.toNat_lt]
  exact UInt16.ofNat_toNat

/-- A node that was written is read back. -/
theorem readNode_write (m : Memory) (at_ : ℕ) (node : CAstNode) :
    readNode (write m at_ node.bytes) at_ = node := by
  have hpart : ∀ k len, k + len ≤ 56 →
      read (write m at_ node.bytes) (at_ + k) len = (node.bytes.drop k).take len :=
    fun k len h => read_write_part m at_ node.bytes h
  have hword : ∀ k, k + 4 ≤ 56 → ∀ v : UInt32, (node.bytes.drop k).take 4 = u32Bytes v.toNat →
      readWord (write m at_ node.bytes) (at_ + k) = v :=
    fun k h v hv => readWord_of_eq ((hpart k 4 h).trans hv)
  have hhalf : ∀ k, k + 2 ≤ 56 → ∀ v : UInt16, (node.bytes.drop k).take 2 = u16Bytes v.toNat →
      readHalf (write m at_ node.bytes) (at_ + k) = v :=
    fun k h v hv => readHalf_of_eq ((hpart k 2 h).trans hv)
  have hkind : readHalf (write m at_ node.bytes) at_ = node.kind := hhalf 0 (by decide) _ rfl
  simp only [readNode, hkind]
  rw [hhalf 2 (by decide) node.flags rfl, hword 4 (by decide) node.parent rfl,
    hword 8 (by decide) node.firstChild rfl, hword 12 (by decide) node.lastChild rfl,
    hword 16 (by decide) node.nextSibling rfl, hword 20 (by decide) node.prevSibling rfl,
    hhalf 24 (by decide) node.childCount rfl, hword 28 (by decide) node.data rfl,
    hword 32 (by decide) node.source.fileId rfl, hword 36 (by decide) node.source.line rfl,
    hword 40 (by decide) node.source.column rfl, hword 44 (by decide) node.source.length rfl,
    hword 48 (by decide) node.payloadOffset rfl, hword 52 (by decide) node.payloadLen rfl]

/-- A node is made of the bytes of its slot. -/
theorem readNode_congr {m m' : Memory} {at_ : ℕ}
    (h : ∀ k len, k + len ≤ slotSize → read m' (at_ + k) len = read m (at_ + k) len) :
    readNode m' at_ = readNode m at_ := by
  have hword : ∀ k, k + 4 ≤ slotSize → readWord m' (at_ + k) = readWord m (at_ + k) := by
    intro k hk
    rw [readWord, readU32, h k 4 hk, readWord, readU32]
  have hhalf : ∀ k, k + 2 ≤ slotSize → readHalf m' (at_ + k) = readHalf m (at_ + k) := by
    intro k hk
    rw [readHalf, h k 2 hk, readHalf]
  have hkind : readHalf m' at_ = readHalf m at_ := hhalf 0 (by decide)
  simp only [readNode, hkind]
  rw [hhalf 2 (by decide), hword 4 (by decide), hword 8 (by decide), hword 12 (by decide),
    hword 16 (by decide), hword 20 (by decide), hhalf 24 (by decide), hword 28 (by decide),
    hword 32 (by decide), hword 36 (by decide), hword 40 (by decide), hword 44 (by decide),
    hword 48 (by decide), hword 52 (by decide)]

end Bytes

/-- The mapping, its length in bytes, and the counters. -/
structure Arena where
  mmap : Memory
  mapped : ℕ
  nodeCapacity : ℕ
  nodeAllocated : ℕ
  stringStart : ℕ
  stringCapacity : ℕ
  stringAllocated : ℕ

namespace Arena

/-- `Arena::new` on a fresh, zero-filled file; `none` is `ZeroCapacity`. The sums are `u32`. -/
def new (nodeCapacity : ℕ) : Option Arena :=
  if nodeCapacity = 0 then none
  else some
    { mmap := fun _ => 0
      mapped := (nodeCapacity + nodeCapacity / 4) % 2 ^ 32 * slotSize
      nodeCapacity
      nodeAllocated := 1
      stringStart := (nodeCapacity + 1) % 2 ^ 32
      stringCapacity := nodeCapacity / 4
      stringAllocated := 0 }

variable (a : Arena)

def alloc (node : CAstNode) : Option ℕ × Arena :=
  if a.nodeAllocated ≥ a.nodeCapacity then (none, a)
  else
    (some a.nodeAllocated,
      { a with
        mmap := write a.mmap (a.nodeAllocated * slotSize) node.bytes
        nodeAllocated := a.nodeAllocated + 1 })

def get (offset : ℕ) : Option CAstNode :=
  if offset = 0 ∨ offset ≥ a.nodeAllocated then none
  else some (readNode a.mmap (offset * slotSize))

/-- `get_mut` and a write of the node behind the reference. -/
def getMut (offset : ℕ) (f : CAstNode → CAstNode) : Option Unit × Arena :=
  if offset = 0 ∨ offset ≥ a.nodeAllocated then (none, a)
  else
    (some (),
      { a with
        mmap := write a.mmap (offset * slotSize) (f (readNode a.mmap (offset * slotSize))).bytes })

/-- The address where the next string goes. -/
def nextString : ℕ := a.stringStart * slotSize + a.stringAllocated * slotSize

/-- The common part of `store_string` and `store_payload`. -/
def storeBytes (bytes : List UInt8) : Option ℕ × Arena :=
  let slotsNeeded := OpticC.Arena.slotsNeeded bytes.length
  if a.stringAllocated + slotsNeeded > a.stringCapacity then (none, a)
  else
    (some ((a.stringStart + a.stringAllocated) % 2 ^ 32),
      { a with
        mmap := write (write a.mmap a.nextString (u32Bytes bytes.length)) (a.nextString + 4) bytes
        stringAllocated := a.stringAllocated + slotsNeeded })

def storeString (s : String) : Option ℕ × Arena :=
  if s.utf8ByteSize = 0 then (some 0, a) else a.storeBytes s.toByteArray.data.toList

def storePayload (data : List UInt8) : Option (ℕ × ℕ) × Arena :=
  if data.length = 0 then (some (0, 0), a)
  else ((a.storeBytes data).1.map fun offset => (offset, data.length % 2 ^ 32), (a.storeBytes data).2)

/-- The offset is not one of the string region; the sum is `u32`. -/
def Rejects (offset : ℕ) : Prop :=
  offset < a.stringStart ∨ offset ≥ (a.stringStart + a.stringAllocated) % 2 ^ 32

instance (offset : ℕ) : Decidable (a.Rejects offset) := inferInstanceAs (Decidable (_ ∨ _))

def stringAt (offset : ℕ) : ℕ := a.stringStart * slotSize + (offset - a.stringStart) * slotSize

def getString (offset : ℕ) : Option String :=
  if offset = 0 then some ""
  else if a.Rejects offset then none
  else
    let len := readU32 a.mmap (a.stringAt offset)
    String.fromUTF8? ⟨(read a.mmap (a.stringAt offset + 4) len).toArray⟩

def getPayload (offset len : ℕ) : Option (List UInt8) :=
  if offset = 0 then some []
  else if a.Rejects offset then none
  else if readU32 a.mmap (a.stringAt offset) ≠ len then none
  else some (read a.mmap (a.stringAt offset + 4) len)

end Arena

/-- A call that can change the arena. -/
inductive Call
  | alloc (node : CAstNode)
  | getMut (offset : ℕ) (f : CAstNode → CAstNode)
  | storeString (s : String)
  | storePayload (data : List UInt8)

/-- What a call returns. -/
inductive Reply
  | offset (offset : ℕ)
  | reference
  | payload (offset len : ℕ)

namespace Call

/-- The call on an arena: what it returns, if it succeeds, and the arena after it. -/
def exec (a : Arena) : Call → Option Reply × Arena
  | alloc node => ((a.alloc node).1.map .offset, (a.alloc node).2)
  | getMut offset f => ((a.getMut offset f).1.map fun _ => .reference, (a.getMut offset f).2)
  | storeString s => ((a.storeString s).1.map .offset, (a.storeString s).2)
  | storePayload data =>
    ((a.storePayload data).1.map fun r => .payload r.1 r.2, (a.storePayload data).2)

/-- The bytes that the call writes when it succeeds. -/
def written (a : Arena) : Call → Range
  | alloc _ => ⟨a.nodeAllocated * slotSize, a.nodeAllocated * slotSize + slotSize⟩
  | getMut offset _ => ⟨offset * slotSize, offset * slotSize + slotSize⟩
  | storeString s =>
    if s.utf8ByteSize = 0 then ⟨0, 0⟩ else ⟨a.nextString, a.nextString + 4 + s.utf8ByteSize⟩
  | storePayload data =>
    if data.length = 0 then ⟨0, 0⟩ else ⟨a.nextString, a.nextString + 4 + data.length⟩

/-- The call fails or stays within the mapping. -/
def Within (a : Arena) (call : Call) : Prop :=
  (call.exec a).1 = none ∨ (call.written a).stop ≤ a.mapped

/-- The rounded length of what is stored is a `u32`. -/
def Short : Call → Prop
  | storeString s => s.utf8ByteSize + 60 ≤ 2 ^ 32
  | storePayload data => data.length + 60 ≤ 2 ^ 32
  | _ => True

end Call

end OpticC.Mapped
