import Mathlib.Algebra.Ring.Int.Defs
import Mathlib.Algebra.Ring.Nat
import Mathlib.Data.Nat.Notation
import Mathlib.Data.List.GetD

/-! A byte-addressed memory. A write of a list of bytes is read back unless a
later write meets it, and a 32-bit word is four bytes, least significant first. -/

namespace ByteMemory

abbrev Memory := ℕ → UInt8

/-- `bytes` stored from address `at_` on. -/
def write (m : Memory) (at_ : ℕ) (bytes : List UInt8) : Memory :=
  fun i => if at_ ≤ i ∧ i < at_ + bytes.length then bytes.getD (i - at_) 0 else m i

def read (m : Memory) (at_ len : ℕ) : List UInt8 :=
  (List.range len).map fun k => m (at_ + k)

@[simp] theorem read_length (m : Memory) (at_ len : ℕ) : (read m at_ len).length = len := by
  simp [read]

theorem write_nil (m : Memory) (at_ : ℕ) : write m at_ [] = m := by
  funext i
  exact if_neg (by simp)

theorem read_write (m : Memory) (at_ : ℕ) (bytes : List UInt8) :
    read (write m at_ bytes) at_ bytes.length = bytes := by
  apply List.ext_getElem (by simp)
  intro k h1 h2
  simp [read, write, h2]

/-- A range that the written one does not meet reads as before. -/
theorem read_write_disjoint (m : Memory) (at_ : ℕ) (bytes : List UInt8) (off len : ℕ)
    (h : off + len ≤ at_ ∨ at_ + bytes.length ≤ off) :
    read (write m at_ bytes) off len = read m off len := by
  apply List.map_congr_left
  intro k hk
  rw [List.mem_range] at hk
  exact if_neg (by omega)

/-- A part of what was written. -/
theorem read_write_part (m : Memory) (at_ : ℕ) (bytes : List UInt8) {k len : ℕ}
    (h : k + len ≤ bytes.length) :
    read (write m at_ bytes) (at_ + k) len = (bytes.drop k).take len := by
  apply List.ext_getElem
  · simp only [read_length, List.length_take, List.length_drop]
    omega
  intro j h1 h2
  have hj : k + j < bytes.length := by
    simp only [read_length] at h1
    omega
  simp [read, write, Nat.add_assoc, hj]

def u16Bytes (v : ℕ) : List UInt8 := [UInt8.ofNat v, UInt8.ofNat (v / 256)]

def u32Bytes (v : ℕ) : List UInt8 :=
  [UInt8.ofNat v, UInt8.ofNat (v / 256), UInt8.ofNat (v / 65536), UInt8.ofNat (v / 16777216)]

def u32Value (bytes : List UInt8) : ℕ :=
  bytes.foldr (fun b acc => b.toNat + 256 * acc) 0

@[simp] theorem u32Bytes_length (v : ℕ) : (u32Bytes v).length = 4 := rfl

theorem u32Value_u32Bytes {v : ℕ} (h : v < 2 ^ 32) : u32Value (u32Bytes v) = v := by
  simp only [u32Value, u32Bytes, List.foldr_cons, List.foldr_nil, UInt8.toNat_ofNat']
  omega

/-- A 16-bit word is read like a 32-bit one. -/
theorem u32Value_u16Bytes {v : ℕ} (h : v < 2 ^ 16) : u32Value (u16Bytes v) = v := by
  simp only [u32Value, u16Bytes, List.foldr_cons, List.foldr_nil, UInt8.toNat_ofNat']
  omega

/-- The bytes of a number of any width, least significant first. -/
def leBytes : ℕ → ℕ → List UInt8
  | 0, _ => []
  | count + 1, v => UInt8.ofNat v :: leBytes count (v / 256)

@[simp] theorem leBytes_length (count v : ℕ) : (leBytes count v).length = count := by
  induction count generalizing v with
  | zero => rfl
  | succ count ih => rw [leBytes, List.length_cons, ih]

theorem leBytes_inj (count v w : ℕ) :
    leBytes count v = leBytes count w ↔ v % 256 ^ count = w % 256 ^ count := by
  induction count generalizing v w with
  | zero => simp [leBytes, Nat.mod_one]
  | succ count ih =>
    have hbyte : UInt8.ofNat v = UInt8.ofNat w ↔ v % 256 = w % 256 := by
      rw [← UInt8.toNat_inj, UInt8.toNat_ofNat', UInt8.toNat_ofNat']
    have hv := Nat.mod_mul (x := v) (a := 256) (b := 256 ^ count)
    have hw := Nat.mod_mul (x := w) (a := 256) (b := 256 ^ count)
    rw [leBytes, leBytes, List.cons.injEq, hbyte, ih, Nat.pow_succ', hv, hw]
    have := Nat.mod_lt v (show 256 > 0 by decide)
    have := Nat.mod_lt w (show 256 > 0 by decide)
    omega

theorem u32Value_leBytes (count v : ℕ) : u32Value (leBytes count v) = v % 256 ^ count := by
  induction count generalizing v with
  | zero => exact (Nat.mod_one v).symm
  | succ count ih =>
    show (UInt8.ofNat v).toNat + 256 * u32Value (leBytes count (v / 256)) = v % 256 ^ (count + 1)
    have hmod := Nat.mod_mul (x := v) (a := 256) (b := 256 ^ count)
    have hpow : 256 ^ (count + 1) = 256 * 256 ^ count := Nat.pow_succ'
    rw [ih, UInt8.toNat_ofNat', hpow, hmod]

/-- What is written shows which bytes they were, if any memory may stand before. -/
theorem write_inj {at_ : ℕ} {bytes bytes' : List UInt8}
    (h : ∀ m, write m at_ bytes = write m at_ bytes') : bytes = bytes' := by
  have hle : ∀ {bytes bytes' : List UInt8}, (∀ m, write m at_ bytes = write m at_ bytes') →
      bytes'.length ≤ bytes.length := by
    intro bytes bytes' h
    refine Nat.le_of_not_lt fun hlt => ?_
    -- a byte behind the shorter list, which no write leaves as it was
    have hbyte := congrFun (h fun _ => bytes'.getD bytes.length 0 + 1) (at_ + bytes.length)
    simp only [write, Nat.add_sub_cancel_left] at hbyte
    rw [if_neg (by omega), if_pos (by omega)] at hbyte
    exact absurd hbyte (by simp)
  have hlength : bytes.length = bytes'.length :=
    Nat.le_antisymm (hle fun m => (h m).symm) (hle h)
  have hread := read_write (fun _ => 0) at_ bytes
  rw [h, hlength, read_write] at hread
  exact hread.symm

/-- The word at `at_`, as `ptr::read` of a `u32` gives it. -/
def readU32 (m : Memory) (at_ : ℕ) : ℕ := u32Value (read m at_ 4)

end ByteMemory
