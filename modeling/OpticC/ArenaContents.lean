import OpticC.MappedArena

/-! What was allocated or stored stays readable: over any sequence of calls, each node, string
and payload that the arena handed out is read back, and no two of them share a byte. -/

namespace OpticC.Mapped

open ByteMemory Layout

/-- What a caller knows to be in the arena. -/
inductive Entry
  | node (offset : ℕ) (node : CAstNode)
  | string (offset : ℕ) (s : String)
  | payload (offset len : ℕ) (data : List UInt8)

namespace Entry

/-- The bytes of an allocation; the empty string has none. -/
def range : Entry → Range
  | node offset _ => ⟨offset * slotSize, offset * slotSize + slotSize⟩
  | string offset s =>
    if s.utf8ByteSize = 0 then ⟨0, 0⟩
    else ⟨offset * slotSize, offset * slotSize + 4 + s.utf8ByteSize⟩
  | payload offset _ data =>
    if data.length = 0 then ⟨0, 0⟩ else ⟨offset * slotSize, offset * slotSize + 4 + data.length⟩

/-- The arena gives back what the entry says. -/
def ReadsBack (a : Arena) : Entry → Prop
  | node offset nd => a.get offset = some nd
  | string offset s => a.getString offset = some s
  | payload offset len data => a.getPayload offset len = some data

/-- The entry after a write of the node at `offset`. -/
def rewrite (offset : ℕ) (f : CAstNode → CAstNode) : Entry → Entry
  | node o nd => node o (if o = offset then f nd else nd)
  | e => e

@[simp] theorem range_rewrite (offset : ℕ) (f : CAstNode → CAstNode) (e : Entry) :
    (e.rewrite offset f).range = e.range := by
  cases e <;> rfl

end Entry

/-- What is known after a call with this reply. -/
def record (log : List Entry) : Call → Option Reply → List Entry
  | .alloc node, some (.offset offset) => log ++ [.node offset node]
  | .getMut offset f, some .reference => log.map (Entry.rewrite offset f)
  | .storeString s, some (.offset offset) => log ++ [.string offset s]
  | .storePayload data, some (.payload offset len) => log ++ [.payload offset len data]
  | _, _ => log

def run : Arena → List Entry → List Call → Arena × List Entry
  | a, log, [] => (a, log)
  | a, log, call :: calls => run (call.exec a).2 (record log call (call.exec a).1) calls

/-- The property in front of every call. -/
def AllAlong (P : Arena → Call → Prop) : Arena → List Call → Prop
  | _, [] => True
  | a, call :: calls => P a call ∧ AllAlong P (call.exec a).2 calls

def Apart (r s : Range) : Prop := r.Before s ∨ s.Before r

/-- The ranges of all live allocations share no byte. -/
def Disjoint (log : List Entry) : Prop := (log.map Entry.range).Pairwise Apart

section Memories

/-- The two memories agree on the range. -/
def SameOn (r : Range) (m m' : Memory) : Prop :=
  ∀ off len, r.start ≤ off → off + len ≤ r.stop → read m' off len = read m off len

theorem sameOn_write {r : Range} (m : Memory) {at_ : ℕ} {bytes : List UInt8}
    (h : Apart r ⟨at_, at_ + bytes.length⟩) : SameOn r m (write m at_ bytes) := by
  intro off len hstart hstop
  apply read_write_disjoint
  rcases h with h | h
  · have hle : r.stop ≤ at_ := h
    omega
  · have hle : at_ + bytes.length ≤ r.start := h
    omega

theorem SameOn.trans {r : Range} {m m' m'' : Memory} (h : SameOn r m m') (h' : SameOn r m' m'') :
    SameOn r m m'' :=
  fun off len hstart hstop => (h' off len hstart hstop).trans (h off len hstart hstop)

/-- The length word and the contents of a string, written at an address. -/
theorem sameOn_stored {r : Range} (m : Memory) {at_ : ℕ} {bytes : List UInt8}
    (h : Apart r ⟨at_, at_ + 4 + bytes.length⟩) :
    SameOn r m (write (write m at_ (u32Bytes bytes.length)) (at_ + 4) bytes) := by
  have hword : Apart r ⟨at_, at_ + (u32Bytes bytes.length).length⟩ := by
    refine h.imp id fun hle => ?_
    have : at_ + 4 + bytes.length ≤ r.start := hle
    show at_ + 4 ≤ r.start
    omega
  have hbytes : Apart r ⟨at_ + 4, at_ + 4 + bytes.length⟩ := by
    refine h.imp (fun hle => ?_) id
    have : r.stop ≤ at_ := hle
    show r.stop ≤ at_ + 4
    omega
  exact (sameOn_write m hword).trans (sameOn_write _ hbytes)

end Memories

/-- What `Arena::new` fixes, and how far the counters can be. -/
structure Counters (n : ℕ) (a : Arena) : Prop where
  nodeCapacity : a.nodeCapacity = n
  stringStart : a.stringStart = n + 1
  mapped : a.mapped = (n + n / 4) % 2 ^ 32 * slotSize
  nodeAllocated_pos : 0 < a.nodeAllocated
  nodeAllocated_le : a.nodeAllocated ≤ n
  strings : a.stringAllocated = 0 ∨ n + 1 + a.stringAllocated ≤ (n + n / 4) % 2 ^ 32

/-- The bytes are stored at the offset, in slots that are given away. -/
structure Stored (a : Arena) (offset : ℕ) (bytes : List UInt8) : Prop where
  short : bytes.length + 60 ≤ 2 ^ 32
  start : a.stringStart ≤ offset
  fits : offset - a.stringStart + OpticC.Arena.slotsNeeded bytes.length ≤ a.stringAllocated
  len : read a.mmap (offset * slotSize) 4 = u32Bytes bytes.length
  bytes : read a.mmap (offset * slotSize + 4) bytes.length = bytes

/-- The entry holds of the bytes of the mapping. -/
def Holds (a : Arena) : Entry → Prop
  | .node offset nd => 0 < offset ∧ offset < a.nodeAllocated ∧
      readNode a.mmap (offset * slotSize) = nd
  | .string offset s => s.utf8ByteSize = 0 ∧ offset = 0 ∨
      s.utf8ByteSize ≠ 0 ∧ Stored a offset s.toByteArray.data.toList
  | .payload offset len data => data.length = 0 ∧ offset = 0 ∨
      data.length ≠ 0 ∧ len = data.length ∧ Stored a offset data

structure Inv (n : ℕ) (a : Arena) (log : List Entry) : Prop where
  counters : Counters n a
  holds : ∀ e ∈ log, Holds a e
  disjoint : Disjoint log

section Reading

variable {n : ℕ} {a : Arena}

theorem length_toList (s : String) : s.toByteArray.data.toList.length = s.utf8ByteSize := by simp

theorem Stored.offset_pos {offset : ℕ} {bytes : List UInt8} (hc : Counters n a)
    (h : Stored a offset bytes) : 0 < offset := by
  have hstart := h.start
  rw [hc.stringStart] at hstart
  omega

theorem Stored.not_rejects {offset : ℕ} {bytes : List UInt8} (hc : Counters n a)
    (h : Stored a offset bytes) : ¬ a.Rejects offset := by
  have hstart := h.start
  have hfits := h.fits
  have hslots := OpticC.Arena.le_slotsNeeded h.short
  have hlt : (n + n / 4) % 2 ^ 32 < 2 ^ 32 := Nat.mod_lt _ (by decide)
  have hstrings := hc.strings
  unfold slotSize at hslots
  unfold Arena.Rejects
  rw [hc.stringStart] at hstart hfits ⊢
  omega

theorem Stored.stringAt {offset : ℕ} {bytes : List UInt8} (h : Stored a offset bytes) :
    a.stringAt offset = offset * slotSize := by
  have hstart := h.start
  rw [Arena.stringAt, ← Nat.add_mul]
  congr 1
  omega

theorem Stored.lengthWord {offset : ℕ} {bytes : List UInt8} (h : Stored a offset bytes) :
    readU32 a.mmap (offset * slotSize) = bytes.length := by
  have hshort := h.short
  rw [readU32, h.len, u32Value_u32Bytes (by omega)]

/-- What holds in the mapping is read back. -/
theorem readsBack_of_holds (hc : Counters n a) {e : Entry} (h : Holds a e) : e.ReadsBack a := by
  cases e with
  | node offset nd =>
    obtain ⟨hpos, hlt, hread⟩ := h
    show a.get offset = some nd
    rw [Arena.get, if_neg (by omega), hread]
  | string offset s =>
    show a.getString offset = some s
    rcases h with ⟨hs, rfl⟩ | ⟨-, hst⟩
    · rw [Arena.getString, if_pos rfl, String.utf8ByteSize_eq_zero_iff.1 hs]
    · have hpos := hst.offset_pos hc
      have hbytes := hst.bytes
      rw [Arena.getString, if_neg (by omega), if_neg (hst.not_rejects hc)]
      simp only [hst.stringAt, hst.lengthWord, hbytes, Array.toArray_toList]
      rw [String.fromUTF8?, dif_pos s.isValidUTF8]
      rfl
  | payload offset len data =>
    show a.getPayload offset len = some data
    rcases h with ⟨hd, rfl⟩ | ⟨-, rfl, hst⟩
    · rw [Arena.getPayload, if_pos rfl, List.eq_nil_of_length_eq_zero hd]
    · have hpos := hst.offset_pos hc
      rw [Arena.getPayload, if_neg (by omega), if_neg (hst.not_rejects hc),
        if_neg (by rw [hst.stringAt, hst.lengthWord]; simp), hst.stringAt, hst.bytes]

end Reading

section Growing

variable {n : ℕ} {a a' : Arena}

/-- The counters grew and the region starts stayed. -/
structure Grows (a a' : Arena) : Prop where
  nodes : a.nodeAllocated ≤ a'.nodeAllocated
  strings : a.stringAllocated ≤ a'.stringAllocated
  stringStart : a'.stringStart = a.stringStart

theorem Stored.of_sameOn {offset : ℕ} {bytes : List UInt8} (h : Stored a offset bytes)
    (hg : Grows a a')
    (hsame : SameOn ⟨offset * slotSize, offset * slotSize + 4 + bytes.length⟩ a.mmap a'.mmap) :
    Stored a' offset bytes := by
  have hlen := hsame (offset * slotSize) 4 (Nat.le_refl _) (Nat.le_add_right _ _)
  have hbytes := hsame (offset * slotSize + 4) bytes.length (Nat.le_add_right _ _) (Nat.le_refl _)
  refine ⟨h.short, ?_, ?_, hlen.trans h.len, hbytes.trans h.bytes⟩
  · rw [hg.stringStart]
    exact h.start
  · rw [hg.stringStart]
    exact Nat.le_trans h.fits hg.strings

/-- An entry whose bytes did not change still holds. -/
theorem Holds.of_sameOn {e : Entry} (h : Holds a e) (hg : Grows a a')
    (hsame : SameOn e.range a.mmap a'.mmap) : Holds a' e := by
  cases e with
  | node offset nd =>
    obtain ⟨hpos, hlt, hread⟩ := h
    refine ⟨hpos, Nat.lt_of_lt_of_le hlt hg.nodes, ?_⟩
    rw [← hread]
    apply readNode_congr
    intro k len hk
    apply hsame
    · exact Nat.le_add_right _ _
    · show offset * slotSize + k + len ≤ offset * slotSize + slotSize
      omega
  | string offset s =>
    rcases h with hnull | ⟨hs, hst⟩
    · exact .inl hnull
    · rw [Entry.range, if_neg hs, ← length_toList s] at hsame
      exact .inr ⟨hs, hst.of_sameOn hg hsame⟩
  | payload offset len data =>
    rcases h with hnull | ⟨hd, hlen, hst⟩
    · exact .inl hnull
    · rw [Entry.range, if_neg hd] at hsame
      exact .inr ⟨hd, hlen, hst.of_sameOn hg hsame⟩

theorem Stored.range_le {offset : ℕ} {bytes : List UInt8} (h : Stored a offset bytes) :
    a.stringStart * slotSize ≤ offset * slotSize ∧
      offset * slotSize + 4 + bytes.length ≤ a.nextString := by
  have hslots := OpticC.Arena.le_slotsNeeded h.short
  have hstart := h.start
  have hfits := h.fits
  unfold Arena.nextString
  unfold slotSize at hslots ⊢
  omega

/-- The bytes of an entry are in the node slots given away, or in the string slots. -/
theorem Holds.range_le {e : Entry} (h : Holds a e) :
    e.range.stop ≤ a.nodeAllocated * slotSize ∨
      a.stringStart * slotSize ≤ e.range.start ∧ e.range.stop ≤ a.nextString := by
  cases e with
  | node offset nd =>
    obtain ⟨-, hlt, -⟩ := h
    left
    show offset * slotSize + slotSize ≤ a.nodeAllocated * slotSize
    rw [← Nat.succ_mul]
    exact Nat.mul_le_mul_right _ hlt
  | string offset s =>
    rcases h with ⟨hs, -⟩ | ⟨hs, hst⟩
    · rw [Entry.range, if_pos hs]
      exact .inl (Nat.zero_le _)
    · have hle := hst.range_le
      rw [length_toList] at hle
      rw [Entry.range, if_neg hs]
      exact .inr hle
  | payload offset len data =>
    rcases h with ⟨hd, -⟩ | ⟨hd, -, hst⟩
    · rw [Entry.range, if_pos hd]
      exact .inl (Nat.zero_le _)
    · rw [Entry.range, if_neg hd]
      exact .inr hst.range_le

/-- The slot of the next node is free. -/
theorem Holds.apart_node (hc : Counters n a) {e : Entry} (h : Holds a e)
    (hlt : a.nodeAllocated < n) :
    Apart e.range ⟨a.nodeAllocated * slotSize, a.nodeAllocated * slotSize + slotSize⟩ := by
  have hstart := hc.stringStart
  rcases h.range_le with hle | ⟨hle, -⟩
  · exact .inl hle
  · right
    show a.nodeAllocated * slotSize + slotSize ≤ e.range.start
    unfold slotSize at hle ⊢
    omega

/-- The slots behind the strings are free. -/
theorem Holds.apart_string (hc : Counters n a) {e : Entry} (h : Holds a e) (stop : ℕ) :
    Apart e.range ⟨a.nextString, stop⟩ := by
  have hstart := hc.stringStart
  have hnodes := hc.nodeAllocated_le
  left
  show e.range.stop ≤ a.nextString
  rcases h.range_le with hle | ⟨-, hle⟩
  · unfold Arena.nextString
    unfold slotSize at hle ⊢
    omega
  · exact hle

theorem Disjoint.concat {log : List Entry} {e : Entry} (h : Disjoint log)
    (he : ∀ e' ∈ log, Apart e'.range e.range) : Disjoint (log ++ [e]) := by
  unfold Disjoint
  rw [List.map_append, List.pairwise_append]
  refine ⟨h, List.pairwise_singleton _ _, fun r hr s hs => ?_⟩
  obtain ⟨e', he', rfl⟩ := List.mem_map.1 hr
  rw [List.map_singleton, List.mem_singleton] at hs
  rw [hs]
  exact he e' he'

/-- A new entry that meets no other. -/
theorem Inv.concat {log : List Entry} {e : Entry} (h : Inv n a log) (hc : Counters n a')
    (hg : Grows a a') (he : Holds a' e) (hapart : ∀ e' ∈ log, Apart e'.range e.range)
    (hsame : ∀ e' ∈ log, SameOn e'.range a.mmap a'.mmap) : Inv n a' (log ++ [e]) := by
  refine ⟨hc, fun e' he' => ?_, h.disjoint.concat hapart⟩
  rcases List.mem_append.1 he' with hmem | hmem
  · exact (h.holds e' hmem).of_sameOn hg (hsame e' hmem)
  · rw [List.mem_singleton.1 hmem]
    exact he

end Growing

section Steps

variable {n : ℕ} {a : Arena} {log : List Entry}

theorem Inv.alloc (h : Inv n a log) (node : CAstNode) :
    Inv n ((Call.alloc node).exec a).2
      (record log (.alloc node) ((Call.alloc node).exec a).1) := by
  have hcap := h.counters.nodeCapacity
  by_cases hfull : a.nodeAllocated ≥ a.nodeCapacity
  · simpa [Call.exec, Arena.alloc, hfull, record] using h
  have hlt : a.nodeAllocated < n := by omega
  have hpos := h.counters.nodeAllocated_pos
  simp only [Call.exec, Arena.alloc, if_neg hfull, Option.map_some, record]
  refine h.concat ?_ ⟨Nat.le_succ _, Nat.le_refl _, rfl⟩ ⟨hpos, Nat.lt_succ_self _, ?_⟩
    (fun e he => (h.holds e he).apart_node h.counters hlt) fun e he => ?_
  · exact ⟨hcap, h.counters.stringStart, h.counters.mapped, Nat.succ_pos _, hlt,
      h.counters.strings⟩
  · exact readNode_write _ _ _
  · apply sameOn_write
    rw [CAstNode.bytes_length]
    exact (h.holds e he).apart_node h.counters hlt

/-- Two nodes of different offsets lie in different slots. -/
theorem apart_slots {o o' : ℕ} (hne : o ≠ o') :
    Apart ⟨o * slotSize, o * slotSize + slotSize⟩ ⟨o' * slotSize, o' * slotSize + slotSize⟩ := by
  rcases Nat.lt_or_gt_of_ne hne with hlt | hlt
  · left
    show o * slotSize + slotSize ≤ o' * slotSize
    rw [← Nat.succ_mul]
    exact Nat.mul_le_mul_right _ hlt
  · right
    show o' * slotSize + slotSize ≤ o * slotSize
    rw [← Nat.succ_mul]
    exact Nat.mul_le_mul_right _ hlt

/-- The string slots begin behind the slot of any node. -/
theorem stringStart_ge (hc : Counters n a) {offset : ℕ} (hlt : offset < a.nodeAllocated) :
    offset * slotSize + slotSize ≤ a.stringStart * slotSize := by
  have hle := hc.nodeAllocated_le
  have hstart := hc.stringStart
  rw [← Nat.succ_mul]
  exact Nat.mul_le_mul_right _ (by omega)

/-- The entries after the node at an offset is written. -/
theorem Holds.rewrite {a' : Arena} (hc : Counters n a) {e : Entry} (h : Holds a e) {offset : ℕ}
    {f : CAstNode → CAstNode} (hlt : offset < a.nodeAllocated) (hg : Grows a a')
    (hmmap : a'.mmap =
      write a.mmap (offset * slotSize) (f (readNode a.mmap (offset * slotSize))).bytes) :
    Holds a' (e.rewrite offset f) := by
  have hge := stringStart_ge hc hlt
  -- an entry that the write does not meet
  have hother (hapart : Apart e.range ⟨offset * slotSize, offset * slotSize + slotSize⟩) :
      Holds a' e := by
    apply h.of_sameOn hg
    rw [hmmap]
    apply sameOn_write
    rw [CAstNode.bytes_length]
    exact hapart
  cases e with
  | node o nd =>
    by_cases ho : o = offset
    · subst ho
      obtain ⟨hpos, -, hread⟩ := h
      refine ⟨hpos, Nat.lt_of_lt_of_le hlt hg.nodes, ?_⟩
      rw [if_pos rfl, ← hread, hmmap]
      exact readNode_write _ _ _
    · rw [Entry.rewrite, if_neg ho]
      exact hother (apart_slots ho)
  | string o s =>
    by_cases hs : s.utf8ByteSize = 0
    · exact hother (.inl (by rw [Entry.range, if_pos hs]; exact Nat.zero_le _))
    · obtain ⟨hzero, -⟩ | ⟨-, hst⟩ := h
      · exact absurd hzero hs
      · have hle := hst.range_le.1
        exact hother (.inr (by rw [Entry.range, if_neg hs]; exact Nat.le_trans hge hle))
  | payload o len data =>
    by_cases hd : data.length = 0
    · exact hother (.inl (by rw [Entry.range, if_pos hd]; exact Nat.zero_le _))
    · obtain ⟨hzero, -⟩ | ⟨-, -, hst⟩ := h
      · exact absurd hzero hd
      · have hle := hst.range_le.1
        exact hother (.inr (by rw [Entry.range, if_neg hd]; exact Nat.le_trans hge hle))

theorem Inv.getMut (h : Inv n a log) (offset : ℕ) (f : CAstNode → CAstNode) :
    Inv n ((Call.getMut offset f).exec a).2
      (record log (.getMut offset f) ((Call.getMut offset f).exec a).1) := by
  by_cases hout : offset = 0 ∨ offset ≥ a.nodeAllocated
  · simpa [Call.exec, Arena.getMut, hout, record] using h
  simp only [Call.exec, Arena.getMut, if_neg hout, Option.map_some, record]
  refine ⟨?_, fun e he => ?_, ?_⟩
  · exact ⟨h.counters.nodeCapacity, h.counters.stringStart, h.counters.mapped,
      h.counters.nodeAllocated_pos, h.counters.nodeAllocated_le, h.counters.strings⟩
  · obtain ⟨e', he', rfl⟩ := List.mem_map.1 he
    exact (h.holds e' he').rewrite h.counters (by omega)
      ⟨Nat.le_refl _, Nat.le_refl _, rfl⟩ rfl
  · have hranges : (log.map (Entry.rewrite offset f)).map Entry.range = log.map Entry.range := by
      simp
    unfold Disjoint
    rw [hranges]
    exact h.disjoint

/-- What a store within the mapping does. -/
theorem storeBytes_eq (hc : Counters n a) {bytes : List UInt8}
    (hshort : bytes.length + 60 ≤ 2 ^ 32) (hwithin : a.nextString + 4 + bytes.length ≤ a.mapped)
    (hroom : ¬ a.stringAllocated + OpticC.Arena.slotsNeeded bytes.length > a.stringCapacity) :
    ∃ a', a.storeBytes bytes = (some (n + 1 + a.stringAllocated), a') ∧ Counters n a' ∧
      Grows a a' ∧ Stored a' (n + 1 + a.stringAllocated) bytes ∧
      a'.mmap = write (write a.mmap a.nextString (u32Bytes bytes.length)) (a.nextString + 4)
        bytes := by
  have hstart := hc.stringStart
  have hslots : OpticC.Arena.slotsNeeded bytes.length = (bytes.length + 4 + 55) / 56 := by
    unfold OpticC.Arena.slotsNeeded slotSize
    omega
  have hnext : a.nextString = (n + 1 + a.stringAllocated) * slotSize := by
    rw [Arena.nextString, hstart, ← Nat.add_mul]
  have hlt : (n + n / 4) % 2 ^ 32 < 2 ^ 32 := Nat.mod_lt _ (by decide)
  rw [hc.mapped, hnext] at hwithin
  have hend : n + 1 + (a.stringAllocated + OpticC.Arena.slotsNeeded bytes.length) ≤
      (n + n / 4) % 2 ^ 32 := by
    rw [hslots]
    unfold slotSize at hwithin
    omega
  refine ⟨{ a with
    mmap := write (write a.mmap a.nextString (u32Bytes bytes.length)) (a.nextString + 4) bytes
    stringAllocated := a.stringAllocated + OpticC.Arena.slotsNeeded bytes.length },
    ?_, ⟨hc.nodeCapacity, hstart, hc.mapped, hc.nodeAllocated_pos, hc.nodeAllocated_le,
    .inr hend⟩, ⟨Nat.le_refl _, Nat.le_add_right _ _, rfl⟩, ⟨hshort, ?_, ?_, ?_, ?_⟩, rfl⟩
  · rw [Arena.storeBytes, if_neg hroom, hstart, Nat.mod_eq_of_lt (by omega)]
  · show a.stringStart ≤ n + 1 + a.stringAllocated
    omega
  · show n + 1 + a.stringAllocated - a.stringStart + _ ≤ a.stringAllocated + _
    omega
  · rw [← hnext, read_write_disjoint _ _ _ _ _ (by omega)]
    exact read_write a.mmap _ (u32Bytes bytes.length)
  · rw [← hnext]
    exact read_write _ _ bytes

/-- The step of a store: the entry `e` is the stored one. -/
theorem Inv.storeBytes (h : Inv n a log) {bytes : List UInt8} {a' : Arena} {e : Entry}
    (hc : Counters n a') (hg : Grows a a') (he : Holds a' e)
    (hmmap : a'.mmap = write (write a.mmap a.nextString (u32Bytes bytes.length))
      (a.nextString + 4) bytes)
    (hrange : e.range = ⟨a.nextString, a.nextString + 4 + bytes.length⟩) :
    Inv n a' (log ++ [e]) := by
  apply h.concat hc hg he
  · intro e' he'
    rw [hrange]
    exact (h.holds e' he').apart_string h.counters _
  · intro e' he'
    rw [hmmap]
    apply sameOn_stored
    exact (h.holds e' he').apart_string h.counters _

theorem nextString_eq (hc : Counters n a) :
    a.nextString = (n + 1 + a.stringAllocated) * slotSize := by
  rw [Arena.nextString, hc.stringStart, ← Nat.add_mul]

theorem Inv.storeString (h : Inv n a log) (s : String)
    (hwithin : (Call.storeString s).Within a) (hshort : (Call.storeString s).Short) :
    Inv n ((Call.storeString s).exec a).2
      (record log (.storeString s) ((Call.storeString s).exec a).1) := by
  by_cases hs : s.utf8ByteSize = 0
  · simp only [Call.exec, Arena.storeString, if_pos hs, Option.map_some, record]
    refine h.concat h.counters ⟨Nat.le_refl _, Nat.le_refl _, rfl⟩ (.inl ⟨hs, rfl⟩)
      (fun e _ => .inr ?_) fun e _ => fun _ _ _ _ => rfl
    rw [Entry.range, if_pos hs]
    exact Nat.zero_le _
  have hlen := length_toList s
  by_cases hroom : a.stringAllocated + OpticC.Arena.slotsNeeded s.utf8ByteSize > a.stringCapacity
  · simpa [Call.exec, Arena.storeString, hs, Arena.storeBytes, hroom, record] using h
  · rcases hwithin with hfail | hin
    · simp [Call.exec, Arena.storeString, hs, Arena.storeBytes, hroom] at hfail
    rw [Call.written, if_neg hs] at hin
    rw [← hlen] at hroom hin
    have hshort' : s.toByteArray.data.toList.length + 60 ≤ 2 ^ 32 := by
      rw [hlen]
      exact hshort
    obtain ⟨a', hstore, hc, hg, hst, hmmap⟩ := storeBytes_eq h.counters hshort' hin hroom
    simp only [Call.exec, Arena.storeString, if_neg hs, hstore, Option.map_some, record]
    refine h.storeBytes hc hg (.inr ⟨hs, hst⟩) hmmap ?_
    rw [Entry.range, if_neg hs, nextString_eq h.counters, hlen]

theorem Inv.storePayload (h : Inv n a log) (data : List UInt8)
    (hwithin : (Call.storePayload data).Within a) (hshort : (Call.storePayload data).Short) :
    Inv n ((Call.storePayload data).exec a).2
      (record log (.storePayload data) ((Call.storePayload data).exec a).1) := by
  by_cases hd : data.length = 0
  · simp only [Call.exec, Arena.storePayload, if_pos hd, Option.map_some, record]
    refine h.concat h.counters ⟨Nat.le_refl _, Nat.le_refl _, rfl⟩ (.inl ⟨hd, rfl⟩)
      (fun e _ => .inr ?_) fun e _ => fun _ _ _ _ => rfl
    rw [Entry.range, if_pos hd]
    exact Nat.zero_le _
  by_cases hroom : a.stringAllocated + OpticC.Arena.slotsNeeded data.length > a.stringCapacity
  · simpa [Call.exec, Arena.storePayload, hd, Arena.storeBytes, hroom, record] using h
  · rcases hwithin with hfail | hin
    · simp [Call.exec, Arena.storePayload, hd, Arena.storeBytes, hroom] at hfail
    rw [Call.written, if_neg hd] at hin
    have hlen : data.length + 60 ≤ 2 ^ 32 := hshort
    obtain ⟨a', hstore, hc, hg, hst, hmmap⟩ := storeBytes_eq h.counters hlen hin hroom
    simp only [Call.exec, Arena.storePayload, if_neg hd, hstore, Option.map_some, record]
    refine h.storeBytes hc hg (.inr ⟨hd, Nat.mod_eq_of_lt (by omega), hst⟩) hmmap ?_
    rw [Entry.range, if_neg hd, nextString_eq h.counters]

/-- Every call within the mapping keeps the invariant. -/
theorem Inv.step (h : Inv n a log) (call : Call) (hwithin : call.Within a) (hshort : call.Short) :
    Inv n (call.exec a).2 (record log call (call.exec a).1) := by
  cases call with
  | alloc node => exact h.alloc node
  | getMut offset f => exact h.getMut offset f
  | storeString s => exact h.storeString s hwithin hshort
  | storePayload data => exact h.storePayload data hwithin hshort

theorem Inv.run (h : Inv n a log) (calls : List Call) (hwithin : AllAlong (fun a c => c.Within a) a calls)
    (hshort : ∀ call ∈ calls, call.Short) : Inv n (run a log calls).1 (run a log calls).2 := by
  induction calls generalizing a log with
  | nil => exact h
  | cons call calls ih =>
    obtain ⟨hcall, hrest⟩ := hwithin
    apply ih (h.step call hcall (hshort call List.mem_cons_self)) hrest
    exact fun c hc => hshort c (List.mem_cons_of_mem call hc)

theorem inv_new {n : ℕ} (hn : n + 1 < 2 ^ 32) (h : Arena.new n = some a) : Inv n a [] := by
  unfold Arena.new at h
  split_ifs at h with hzero
  obtain rfl := Option.some.inj h
  refine ⟨⟨rfl, Nat.mod_eq_of_lt hn, rfl, Nat.one_pos, ?_, .inl rfl⟩, ?_, List.Pairwise.nil⟩
  · show 1 ≤ n
    omega
  · intro e he
    exact absurd he List.not_mem_nil

/-- A failed call leaves the arena as it is. -/
theorem exec_of_fails (call : Call) (a : Arena) (h : (call.exec a).1 = none) :
    (call.exec a).2 = a := by
  have hstore : ∀ bytes, (a.storeBytes bytes).1 = none → (a.storeBytes bytes).2 = a := by
    intro bytes hnone
    simp only [Arena.storeBytes] at hnone ⊢
    split_ifs at hnone ⊢
    rfl
  cases call with
  | alloc node =>
    simp only [Call.exec, Option.map_eq_none_iff, Arena.alloc] at h ⊢
    split_ifs at h ⊢
    rfl
  | getMut offset f =>
    simp only [Call.exec, Option.map_eq_none_iff, Arena.getMut] at h ⊢
    split_ifs at h ⊢
    rfl
  | storeString s =>
    simp only [Call.exec, Option.map_eq_none_iff, Arena.storeString] at h ⊢
    split_ifs at h ⊢
    exact hstore _ h
  | storePayload data =>
    simp only [Call.exec, Option.map_eq_none_iff, Arena.storePayload] at h ⊢
    split_ifs at h ⊢
    exact hstore _ (Option.map_eq_none_iff.1 h)

end Steps

/-- After any sequence of calls within the mapping, everything that was handed out is read back,
the live allocations are disjoint, and a call that fails changes nothing. -/
theorem contents_stable (n : ℕ) (hn : n + 1 < 2 ^ 32) (a₀ : Arena) (hnew : Arena.new n = some a₀)
    (calls : List Call) (hwithin : AllAlong (fun a call => call.Within a) a₀ calls)
    (hshort : ∀ call ∈ calls, call.Short) :
    (∀ e ∈ (run a₀ [] calls).2, e.ReadsBack (run a₀ [] calls).1) ∧
      Disjoint (run a₀ [] calls).2 ∧
      ∀ call : Call, (call.exec (run a₀ [] calls).1).1 = none →
        (call.exec (run a₀ [] calls).1).2 = (run a₀ [] calls).1 := by
  have hinv := (inv_new hn hnew).run calls hwithin hshort
  refine ⟨fun e he => ?_, hinv.disjoint, fun call => exec_of_fails call _⟩
  exact readsBack_of_holds hinv.counters (hinv.holds e he)

section Examples

def leaf : CAstNode := ⟨60, 0, 0, 0, 0, 0, 0, 0, 7, ⟨0, 0, 0, 0⟩, 0, 0⟩

/-- A node, a string, a write to the node, a payload. -/
def smallCalls : List Call :=
  [.alloc leaf, .storeString "ab", .getMut 1 fun node => { node with nextSibling := 3 },
    .storePayload [1, 2, 3]]

theorem contents_smallCalls : ∃ a₀, Arena.new 16 = some a₀ ∧
    (∀ e ∈ (run a₀ [] smallCalls).2, e.ReadsBack (run a₀ [] smallCalls).1) ∧
      Disjoint (run a₀ [] smallCalls).2 ∧
      ∀ call : Call, (call.exec (run a₀ [] smallCalls).1).1 = none →
        (call.exec (run a₀ [] smallCalls).1).2 = (run a₀ [] smallCalls).1 := by
  refine ⟨_, rfl, contents_stable 16 (by decide) _ rfl smallCalls ?_ ?_⟩
  · exact ⟨.inr (by decide), .inr (by decide), .inr (by decide), .inr (by decide), trivial⟩
  · intro call hcall
    simp only [smallCalls, List.mem_cons, List.not_mem_nil, or_false] at hcall
    rcases hcall with rfl | rfl | rfl | rfl
    · trivial
    · show "ab".utf8ByteSize + 60 ≤ 2 ^ 32
      decide
    · trivial
    · show [(1 : UInt8), 2, 3].length + 60 ≤ 2 ^ 32
      decide

theorem length_getPayload {a : Arena} {offset len : ℕ} {data : List UInt8} (hpos : 0 < offset)
    (h : a.getPayload offset len = some data) : data.length = len := by
  unfold Arena.getPayload at h
  rw [if_neg (by omega)] at h
  split_ifs at h
  rw [← Option.some.inj h, read_length]

/-- The arena of 2^29 nodes. -/
def largeArena : Arena := ⟨fun _ => 0, (2 ^ 29 + 2 ^ 27) * slotSize, 2 ^ 29, 1, 2 ^ 29 + 1, 2 ^ 27, 0⟩

theorem storePayload_long {data : List UInt8} (hlen : data.length = 2 ^ 32) :
    (largeArena.storePayload data).1 = some (2 ^ 29 + 1, 0) ∧
    (largeArena.storePayload data).2.stringAllocated = 1 := by
  have hslots : OpticC.Arena.slotsNeeded (2 ^ 32) = 1 := by decide
  have hfit : ¬ largeArena.stringAllocated + 1 > largeArena.stringCapacity := by decide
  have hne : ¬ (2 ^ 32 = 0) := by decide
  simp only [Arena.storePayload, Arena.storeBytes, hlen, hslots, if_neg hfit, if_neg hne,
    Option.map_some]
  exact ⟨rfl, rfl⟩

theorem within_long {data : List UInt8} (hlen : data.length = 2 ^ 32) :
    (Call.storePayload data).Within largeArena := by
  have hne : ¬ (2 ^ 32 = 0) := by decide
  right
  simp only [Call.written, hlen, if_neg hne]
  decide

theorem not_readsBack_long {data : List UInt8} (hlen : data.length = 2 ^ 32) (a : Arena) :
    ¬ (Entry.payload (2 ^ 29 + 1) 0 data).ReadsBack a := by
  intro h
  have hread : data.length = 0 := length_getPayload (by decide) h
  rw [hlen] at hread
  exact absurd hread (by decide)

/-- 4 GiB of ones. -/
def longData : List UInt8 := List.replicate (2 ^ 32) 1

theorem length_longData : longData.length = 2 ^ 32 := List.length_replicate

/-- The mapping has room for a payload of 2^32 bytes, but its length is stored, and its slots are
counted, modulo 2^32: one slot is given away, and nothing is read back. -/
theorem not_contents_longData : Arena.new (2 ^ 29) = some largeArena ∧
    AllAlong (fun a call => call.Within a) largeArena [.storePayload longData] ∧
      (largeArena.storePayload longData).1 = some (2 ^ 29 + 1, 0) ∧
      (largeArena.storePayload longData).2.stringAllocated = 1 ∧
      ¬ (Entry.payload (2 ^ 29 + 1) 0 longData).ReadsBack (largeArena.storePayload longData).2 :=
  ⟨rfl, ⟨within_long length_longData, trivial⟩, (storePayload_long length_longData).1,
    (storePayload_long length_longData).2, not_readsBack_long length_longData _⟩

end Examples

end OpticC.Mapped
