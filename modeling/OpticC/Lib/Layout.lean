import Mathlib.Algebra.Ring.Int.Defs
import Mathlib.Algebra.Ring.Nat
import Mathlib.Data.Nat.Notation
import Mathlib.Algebra.BigOperators.Group.List.Basic
import Mathlib.Tactic.SplitIfs

/-! Fields laid out in a record: one after the other, each at a multiple of its alignment, or
all at the start. -/

namespace Layout

structure Cell where
  size : ℕ
  align : ℕ
  deriving DecidableEq, Repr

def roundUp (n a : ℕ) : ℕ := (n + a - 1) / a * a

/-- Where fields end that are placed from an offset on. -/
def endOf : ℕ → List Cell → ℕ
  | start, [] => start
  | start, c :: cells => endOf (roundUp start c.align + c.size) cells

/-- Where the field with this index starts. -/
def startOf : ℕ → List Cell → ℕ → ℕ
  | start, [], _ => start
  | start, c :: _, 0 => roundUp start c.align
  | start, c :: cells, n + 1 => startOf (roundUp start c.align + c.size) cells n

def maxAlign (cells : List Cell) : ℕ := cells.foldr (fun c a => max c.align a) 1

def maxSize (cells : List Cell) : ℕ := cells.foldr (fun c n => max c.size n) 0

def structSize (cells : List Cell) : ℕ := roundUp (endOf 0 cells) (maxAlign cells)

def unionSize (cells : List Cell) : ℕ := roundUp (maxSize cells) (maxAlign cells)

/-- A cell that a type can have: it takes room, and arrays of it stay aligned. -/
structure Cell.Proper (c : Cell) : Prop where
  size_pos : 0 < c.size
  align_pos : 0 < c.align
  dvd : c.align ∣ c.size

section RoundUp

theorem le_roundUp {a : ℕ} (ha : 0 < a) (n : ℕ) : n ≤ roundUp n a := by
  have hdiv := Nat.div_add_mod (n + a - 1) a
  have hmod := Nat.mod_lt (n + a - 1) ha
  unfold roundUp
  rw [Nat.mul_comm] at hdiv
  omega

theorem roundUp_lt {a : ℕ} (ha : 0 < a) (n : ℕ) : roundUp n a < n + a := by
  have hdiv := Nat.div_mul_le_self (n + a - 1) a
  unfold roundUp
  omega

theorem dvd_roundUp (n a : ℕ) : a ∣ roundUp n a := Nat.dvd_mul_left a _

theorem roundUp_of_dvd {n a : ℕ} (ha : 0 < a) (h : a ∣ n) : roundUp n a = n := by
  obtain ⟨k, rfl⟩ := h
  have hle := le_roundUp ha (a * k)
  have hlt := roundUp_lt ha (a * k)
  obtain ⟨m, hm⟩ := dvd_roundUp (a * k) a
  rw [hm] at hle hlt ⊢
  have hkm : k ≤ m := Nat.le_of_mul_le_mul_left hle ha
  have hmk : m < k + 1 := by
    apply Nat.lt_of_mul_lt_mul_left (a := a)
    rw [Nat.mul_add, Nat.mul_one]
    exact hlt
  rw [Nat.le_antisymm (Nat.le_of_lt_succ hmk) hkm]

@[simp] theorem roundUp_one (n : ℕ) : roundUp n 1 = n := by simp [roundUp]

@[simp] theorem roundUp_zero {a : ℕ} (ha : 0 < a) : roundUp 0 a = 0 :=
  roundUp_of_dvd ha (Nat.dvd_zero a)

/-- The one multiple in reach. -/
theorem roundUp_unique {n a m : ℕ} (hdvd : a ∣ m) (hle : n ≤ m) (hlt : m < n + a) :
    roundUp n a = m := by
  have ha : 0 < a := by omega
  obtain ⟨k, rfl⟩ := hdvd
  obtain ⟨l, hl⟩ := dvd_roundUp n a
  have hup := le_roundUp ha n
  have hdown := roundUp_lt ha n
  rw [hl] at hup hdown ⊢
  have hkl : a * k < a * (l + 1) := by
    rw [Nat.mul_add, Nat.mul_one]
    omega
  have hlk : a * l < a * (k + 1) := by
    rw [Nat.mul_add, Nat.mul_one]
    omega
  have h1 := Nat.lt_of_mul_lt_mul_left hkl
  have h2 := Nat.lt_of_mul_lt_mul_left hlk
  rw [Nat.le_antisymm (Nat.le_of_lt_succ h2) (Nat.le_of_lt_succ h1)]

/-- Rounding in a finer unit. -/
theorem roundUp_scale {a c : ℕ} (ha : 0 < a) (hc : 0 < c) (n : ℕ) :
    roundUp n (c * a) = c * roundUp ((n + c - 1) / c) a := by
  have hup := le_roundUp ha ((n + c - 1) / c)
  have hdown := roundUp_lt ha ((n + c - 1) / c)
  have hdiv := Nat.div_add_mod (n + c - 1) c
  have hmod := Nat.mod_lt (n + c - 1) hc
  have hcup := Nat.mul_le_mul_left c hup
  have hcdown : c * (roundUp ((n + c - 1) / c) a + 1) ≤ c * ((n + c - 1) / c + a) :=
    Nat.mul_le_mul_left c hdown
  rw [Nat.mul_add, Nat.mul_one, Nat.mul_add] at hcdown
  apply roundUp_unique
  · exact Nat.mul_dvd_mul_left c (dvd_roundUp _ _)
  · omega
  · omega

/-- A range that an aligned block holds does not leave a coarser or equal block either. -/
theorem mod_add_le {d x S r w : ℕ} (hx : d ∣ x) (hS : d ∣ S) (hpos : 0 < S) (hw : 0 < w)
    (h : r + w ≤ d) : (x + r) % S + w ≤ S := by
  obtain ⟨k, rfl⟩ := hS
  have hlt := Nat.mod_lt x hpos
  have hdvd : d ∣ x % (d * k) := (Nat.dvd_mod_iff (Nat.dvd_mul_right d k)).2 hx
  obtain ⟨l, hl⟩ := hdvd
  rw [hl] at hlt
  have hlk : l + 1 ≤ k := Nat.lt_of_mul_lt_mul_left hlt
  have hend := Nat.mul_le_mul_left d hlk
  rw [Nat.mul_add, Nat.mul_one] at hend
  rw [Nat.add_mod, hl, Nat.mod_eq_of_lt (show r < d * k by omega),
    Nat.mod_eq_of_lt (show d * l + r < d * k by omega)]
  omega

/-- A range that would cross the next multiple starts there. -/
theorem roundUp_of_crosses {p w S E : ℕ} (hE : S ∣ E) (hp : p ≤ E) (hcross : E < p + w)
    (hw : w ≤ S) : (if p % S + w ≤ S then p else roundUp p S) = E := by
  split_ifs with hfit
  · obtain ⟨k, rfl⟩ := hE
    have hdiv := Nat.div_add_mod p S
    have hlt : S * k < S * (p / S + 1) := by
      rw [Nat.mul_add, Nat.mul_one]
      omega
    have hle := Nat.mul_le_mul_left S (Nat.le_of_lt_succ (Nat.lt_of_mul_lt_mul_left hlt))
    omega
  · exact roundUp_unique hE hp (by omega)

/-- Rounding up from inside a block of a finer size or from its end. -/
theorem roundUp_block {d x S r : ℕ} (hx : d ∣ x) (hS : d ∣ S) (hpos : 0 < S) (hr : 0 < r)
    (hle : r ≤ d) : roundUp (x + d) S = roundUp (x + r) S := by
  have hup := le_roundUp hpos (x + r)
  have hdown := roundUp_lt hpos (x + r)
  refine roundUp_unique (dvd_roundUp _ _) ?_ (by omega)
  obtain ⟨k, hk⟩ := hS.trans (dvd_roundUp (x + r) S)
  obtain ⟨l, rfl⟩ := hx
  rw [hk] at hup ⊢
  have hlk : l < k := Nat.lt_of_mul_lt_mul_left (a := d) (by omega)
  have hmul := Nat.mul_le_mul_left d (Nat.succ_le_of_lt hlk)
  rwa [Nat.mul_succ] at hmul

end RoundUp

section Starts

theorem le_startOf {cells : List Cell} (h : ∀ c ∈ cells, 0 < c.align) (start n : ℕ) :
    start ≤ startOf start cells n := by
  induction cells generalizing start n with
  | nil => exact Nat.le_of_eq (startOf.eq_1 start n).symm
  | cons c cells ih =>
    have hround := le_roundUp (h c List.mem_cons_self) start
    cases n with
    | zero => exact hround
    | succ n =>
      have hrest := ih (fun d hd => h d (List.mem_cons_of_mem c hd)) (roundUp start c.align + c.size) n
      exact Nat.le_trans (Nat.le_trans hround (Nat.le_add_right _ _)) hrest

/-- A field ends before a later one starts. -/
theorem startOf_add_size_le {cells : List Cell} (h : ∀ c ∈ cells, 0 < c.align) {start i j : ℕ}
    {c : Cell} (hc : cells[i]? = some c) (hij : i < j) :
    startOf start cells i + c.size ≤ startOf start cells j := by
  induction cells generalizing start i j with
  | nil => cases hc
  | cons d cells ih =>
    obtain ⟨j, rfl⟩ : ∃ k, j = k + 1 := ⟨j - 1, by omega⟩
    have hrest : ∀ e ∈ cells, 0 < e.align := fun e he => h e (List.mem_cons_of_mem d he)
    cases i with
    | zero =>
      obtain rfl : d = c := Option.some.inj hc
      exact le_startOf hrest _ _
    | succ i => exact ih hrest hc (Nat.lt_of_succ_lt_succ hij)

end Starts

section Maxima

theorem one_le_maxAlign (cells : List Cell) : 1 ≤ maxAlign cells := by
  induction cells with
  | nil => exact Nat.le_refl 1
  | cons c cells ih => exact Nat.le_trans ih (Nat.le_max_right _ _)

theorem maxAlign_perm {cells cells' : List Cell} (h : cells.Perm cells') :
    maxAlign cells = maxAlign cells' := by
  induction h with
  | nil => rfl
  | cons c _ ih => exact congrArg (max c.align) ih
  | swap c d _ => exact Nat.max_left_comm _ _ _
  | trans _ _ ih ih' => exact ih.trans ih'

/-- One of the fields is the largest. -/
theorem exists_maxSize {cells : List Cell} (h : cells ≠ []) :
    ∃ c ∈ cells, c.size = maxSize cells := by
  induction cells with
  | nil => exact absurd rfl h
  | cons c cells ih =>
    by_cases hne : cells = []
    · subst hne
      exact ⟨c, List.mem_singleton_self c, (Nat.max_zero _).symm⟩
    · obtain ⟨d, hd, hsize⟩ := ih hne
      by_cases hle : c.size ≤ maxSize cells
      · refine ⟨d, List.mem_cons_of_mem c hd, ?_⟩
        rw [hsize]
        exact (Nat.max_eq_right hle).symm
      · refine ⟨c, List.mem_cons_self, ?_⟩
        exact (Nat.max_eq_left (Nat.le_of_not_le hle)).symm

/-- The largest alignment is 1 or that of a field. -/
theorem maxAlign_eq (cells : List Cell) :
    maxAlign cells = 1 ∨ ∃ c ∈ cells, c.align = maxAlign cells := by
  induction cells with
  | nil => exact .inl rfl
  | cons c cells ih =>
    by_cases hle : c.align ≤ maxAlign cells
    · have hmax : maxAlign (c :: cells) = maxAlign cells := Nat.max_eq_right hle
      rw [hmax]
      refine ih.imp id ?_
      rintro ⟨d, hd, halign⟩
      exact ⟨d, List.mem_cons_of_mem c hd, halign⟩
    · refine .inr ⟨c, List.mem_cons_self, ?_⟩
      exact (Nat.max_eq_left (Nat.le_of_not_le hle)).symm

end Maxima

/-- The sizes of the fields fit before the end. -/
theorem sum_le_endOf {cells : List Cell} (h : ∀ c ∈ cells, 0 < c.align) (start : ℕ) :
    start + (cells.map Cell.size).sum ≤ endOf start cells := by
  induction cells generalizing start with
  | nil => exact Nat.le_refl start
  | cons c cells ih =>
    have hup := le_roundUp (h c List.mem_cons_self) start
    have hrest := ih (fun d hd => h d (List.mem_cons_of_mem c hd)) (roundUp start c.align + c.size)
    simp only [List.map_cons, List.sum_cons, endOf]
    omega

section Unions

variable {cells : List Cell}

/-- The size of one field is no more than the sum of all. -/
theorem size_le_sum {c : Cell} (hc : c ∈ cells) : c.size ≤ (cells.map Cell.size).sum := by
  obtain ⟨before, after, rfl⟩ := List.append_of_mem hc
  rw [List.map_append, List.sum_append, List.map_cons, List.sum_cons]
  omega

/-- With two fields or more the union is the smaller one. -/
theorem unionSize_lt_structSize (h : ∀ c ∈ cells, c.Proper) (hlen : 2 ≤ cells.length) :
    unionSize cells < structSize cells := by
  have hne : cells ≠ [] := by
    rintro rfl
    exact absurd hlen (by decide)
  obtain ⟨c, hc, hsize⟩ := exists_maxSize hne
  obtain ⟨before, after, rfl⟩ := List.append_of_mem hc
  -- the other fields
  have hperm : (before ++ c :: after).Perm (c :: (before ++ after)) := List.perm_middle
  have hother : ∀ d ∈ before ++ after, d.Proper := fun d hd =>
    h d (hperm.symm.subset (List.mem_cons_of_mem c hd))
  have hsum : ((before ++ c :: after).map Cell.size).sum =
      c.size + ((before ++ after).map Cell.size).sum := by
    rw [(hperm.map Cell.size).sum_eq, List.map_cons, List.sum_cons]
  have hend := sum_le_endOf (fun d hd => (h d hd).align_pos) 0
  have halign : maxAlign (before ++ c :: after) = max c.align (maxAlign (before ++ after)) :=
    maxAlign_perm hperm
  have hpos := one_le_maxAlign (before ++ c :: after)
  have hlast := le_roundUp hpos (endOf 0 (before ++ c :: after))
  unfold unionSize structSize
  rw [← hsize]
  by_cases hle : maxAlign (before ++ after) ≤ c.align
  · -- the largest field has the largest alignment, so nothing is added after it
    rw [Nat.max_eq_left hle] at halign
    rw [halign, roundUp_of_dvd (h c hc).align_pos (h c hc).dvd]
    obtain ⟨d, hd⟩ : ∃ d, d ∈ before ++ after := by
      apply List.exists_mem_of_length_pos
      rw [hperm.length_eq, List.length_cons] at hlen
      omega
    have hdpos := (hother d hd).size_pos
    have hdle := size_le_sum hd
    rw [halign] at hlast
    omega
  · -- another field has it, and is at least that large
    have hmax : maxAlign (before ++ c :: after) = maxAlign (before ++ after) := by omega
    have hcpos := (h c hc).align_pos
    obtain hone | ⟨d, hd, hda⟩ := maxAlign_eq (before ++ after)
    · omega
    · have hdle := size_le_sum hd
      have hda' : d.align ≤ d.size := Nat.le_of_dvd (hother d hd).size_pos (hother d hd).dvd
      have hlt := roundUp_lt hpos c.size
      omega

theorem unionSize_singleton {c : Cell} (h : 0 < c.align) : unionSize [c] = structSize [c] := by
  simp [unionSize, structSize, endOf, maxSize, roundUp_zero h]

/-- A union has the size of the struct of its fields just when it has only one. -/
theorem unionSize_eq_structSize_iff (h : ∀ c ∈ cells, c.Proper) (hne : cells ≠ []) :
    unionSize cells = structSize cells ↔ cells.length = 1 := by
  constructor
  · intro heq
    have hpos := List.length_pos_iff.2 hne
    by_cases hlen : 2 ≤ cells.length
    · have := unionSize_lt_structSize h hlen
      omega
    · omega
  · intro hlen
    obtain ⟨c, rfl⟩ := List.length_eq_one_iff.1 hlen
    exact unionSize_singleton (h c (List.mem_singleton_self c)).align_pos

end Unions

/-- The size of a record of fields is a multiple of its alignment. -/
theorem maxAlign_dvd_structSize (cells : List Cell) : maxAlign cells ∣ structSize cells :=
  dvd_roundUp _ _

theorem structSize_pos (h : ∀ c ∈ cells, c.Proper) (hne : cells ≠ []) : 0 < structSize cells := by
  obtain ⟨c, hc⟩ := List.exists_mem_of_ne_nil cells hne
  have hend := sum_le_endOf (fun d hd => (h d hd).align_pos) 0
  have hsum := size_le_sum hc
  have hpos := (h c hc).size_pos
  have hlast := le_roundUp (one_le_maxAlign cells) (endOf 0 cells)
  unfold structSize
  omega

section Ranges

/-- The places from `start` up to `stop`. -/
structure Range where
  start : ℕ
  stop : ℕ
  deriving DecidableEq, Repr

def Range.Before (r s : Range) : Prop := r.stop ≤ s.start

/-- The ranges lie one after the other between two places. -/
def Between : ℕ → List Range → ℕ → Prop
  | lo, [], hi => lo ≤ hi
  | lo, r :: rs, hi => lo ≤ r.start ∧ r.start ≤ r.stop ∧ Between r.stop rs hi

theorem Between.le {lo hi : ℕ} {rs : List Range} (h : Between lo rs hi) : lo ≤ hi := by
  induction rs generalizing lo with
  | nil => exact h
  | cons r rs ih =>
    obtain ⟨hlo, hr, hrest⟩ := h
    have := ih hrest
    omega

theorem Between.mem {lo hi : ℕ} {rs : List Range} (h : Between lo rs hi) {r : Range} (hr : r ∈ rs) :
    lo ≤ r.start ∧ r.start ≤ r.stop ∧ r.stop ≤ hi := by
  induction rs generalizing lo with
  | nil => exact absurd hr List.not_mem_nil
  | cons s rs ih =>
    obtain ⟨hlo, hs, hrest⟩ := h
    rcases List.mem_cons.1 hr with rfl | hr
    · exact ⟨hlo, hs, hrest.le⟩
    · have := ih hrest hr
      omega

theorem Between.pairwise {lo hi : ℕ} {rs : List Range} (h : Between lo rs hi) :
    rs.Pairwise Range.Before := by
  induction rs generalizing lo with
  | nil => exact .nil
  | cons r rs ih =>
    obtain ⟨-, -, hrest⟩ := h
    apply List.Pairwise.cons _ (ih hrest)
    intro s hs
    exact (hrest.mem hs).1

end Ranges

end Layout
