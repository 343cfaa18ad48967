import OpticC.Backend.Preservation
import OpticC.Backend.Refinement
import Mathlib.Tactic.Linarith

/-! For which labels and values the switch instruction goes where C goes. -/

namespace OpticC

open Behaviour

section Labels

variable (E : Expressions) (c : ℕ)

/-- No value of the constant's width and of the condition's type is lost. -/
def ConstantFits (e : ℕ) : Prop :=
  (E.type c).Holds ((E.promoted c).convert (E.value e)) ∧
    (E.width e < E.width c → -2 ^ (E.width e - 1) ≤ E.value e ∧ E.value e < 2 ^ (E.width e - 1))

/-- Bounds of one sign, which zero extension leaves at their distance. -/
structure RangeFits (lo hi : ℕ) : Prop where
  lo_holds : (E.type c).Holds (E.value lo)
  hi_holds : (E.type c).Holds (E.value hi)
  le : E.value lo ≤ E.value hi
  sign : (0 ≤ E.value lo ∧ E.value lo < 2 ^ E.width lo ∧ E.value hi < 2 ^ E.width hi) ∨
    (E.value hi < 0 ∧ E.width hi = E.width lo ∧ E.width c ≤ E.width lo ∧
      -2 ^ E.width lo ≤ E.value lo)

/-- The label fits, or the value is away from it: not taken, and not among the values that
agree with the constant, or with one of the first values of the range, in the bits they share
with the condition. -/
def CaseLabel.RightAbout (v : ℤ) : CaseLabel → Prop
  | .value e => ConstantFits E c e ∨ (E.promoted c).convert (E.value e) ≠ v ∧
      E.value e % 2 ^ min (E.width e) (E.width c) ≠ v % 2 ^ min (E.width e) (E.width c)
  | .range lo hi =>
    RangeFits E c lo hi ∧ (v ≤ E.value hi → v < E.value lo + maxCaseRangeExpansion) ∨
      ((E.promoted c).convert (E.value lo) ≤ v → (E.promoted c).convert (E.value hi) < v) ∧
        ∀ i : ℕ, i < maxCaseRangeExpansion →
          (E.value lo + i) % 2 ^ min (E.width lo) (E.width c) ≠
            v % 2 ^ min (E.width lo) (E.width c)
  | .default_ => True

/-- The labels of a switch are right about a value, and no label inside the items is
needed for it. -/
structure LabelsRight (items : Stmt) (v : ℤ) : Prop where
  holds : (E.type c).Holds v
  right : ∀ l ∈ items.itemLabels, l.RightAbout E c v
  inner : ∀ l ∈ items.innerLabels, ¬l.Takes E.toConstants c v
  default_ : CaseLabel.default_ ∈ items.innerLabels →
    ∃ l ∈ items.itemLabels, l.Takes E.toConstants c v

end Labels

section Constants

theorem toNat_ofInt (w : ℕ) (x : ℤ) : ((BitVec.ofInt w x).toNat : ℤ) = x % 2 ^ w := by
  have hpos : (0 : ℤ) < 2 ^ w := Int.pow_pos (by decide)
  have hx := Int.emod_nonneg x (Int.ne_of_gt hpos)
  rw [BitVec.toNat_ofInt]
  push_cast
  omega

theorem emod_two_pow_congr {x v : ℤ} {m n : ℕ} (hmn : m ≤ n) (h : x % 2 ^ n = v % 2 ^ n) :
    x % 2 ^ m = v % 2 ^ m := by
  have hdvd : (2 : ℤ) ^ m ∣ 2 ^ n := pow_dvd_pow 2 hmn
  rw [← Int.emod_emod_of_dvd x hdvd, h, Int.emod_emod_of_dvd v hdvd]

theorem toInt_ofInt_emod (w : ℕ) (x : ℤ) : (BitVec.ofInt w x).toInt % 2 ^ w = x % 2 ^ w := by
  have hbmod : Int.bmod x (2 ^ w) % ((2 ^ w : ℕ) : ℤ) = x % ((2 ^ w : ℕ) : ℤ) := Int.bmod_emod
  push_cast at hbmod
  rw [BitVec.toInt_ofInt, hbmod]

variable {E : Expressions} {c : ℕ} {v : ℤ}

/-- The number that the code compares with the condition. -/
theorem caseBits_eq (e : ℕ) : (caseBits E c e : ℤ) =
    (if E.width e < E.width c then (BitVec.ofInt (E.width e) (E.value e)).toInt
      else E.value e) % 2 ^ E.width c := by
  unfold caseBits constantBits
  split_ifs with h
  · exact toNat_ofInt _ _
  · have hdvd : (2 : ℤ) ^ E.width c ∣ 2 ^ E.width e := pow_dvd_pow 2 (Nat.le_of_not_lt h)
    push_cast
    rw [toNat_ofInt, Int.emod_emod_of_dvd _ hdvd]

theorem mem_values_iff {l : List ℕ} :
    (BitVec.ofInt (E.width c) v).toNat ∈ l ↔ ∃ n ∈ l, (n : ℤ) = v % 2 ^ E.width c := by
  constructor
  · exact fun h => ⟨_, h, toNat_ofInt _ _⟩
  · rintro ⟨n, hn, heq⟩
    rw [← toNat_ofInt, Int.natCast_inj] at heq
    exact heq ▸ hn

theorem enters_value_iff {e : ℕ} : Enters E c v (.value e) ↔
    (if E.width e < E.width c then (BitVec.ofInt (E.width e) (E.value e)).toInt
      else E.value e) % 2 ^ E.width c = v % 2 ^ E.width c := by
  rw [Enters, mem_values_iff, ← caseBits_eq]
  simp [caseValues]

theorem enters_value {e : ℕ} (h : ConstantFits E c e) (hv : (E.type c).Holds v) :
    Enters E c v (.value e) ↔ (CaseLabel.value e).Takes E.toConstants c v := by
  obtain ⟨hholds, hrange⟩ := h
  have hread : (if E.width e < E.width c then (BitVec.ofInt (E.width e) (E.value e)).toInt
      else E.value e) = E.value e := by
    split_ifs with hlt
    · obtain ⟨hlo, hhi⟩ := hrange hlt
      exact BitVec.toInt_ofInt_eq_self (E.type e).width_pos hlo hhi
    · rfl
  have hconv : (E.promoted c).convert (E.value e) % 2 ^ E.width c = E.value e % 2 ^ E.width c :=
    emod_two_pow_congr (E.embeds c).width_le (IntType.convert_emod _ _)
  rw [enters_value_iff, hread, ← hconv, CaseLabel.Takes]
  constructor
  · exact IntType.eq_of_emod_eq hholds hv
  · rintro rfl
    rfl

theorem not_enters_value {e : ℕ}
    (h : E.value e % 2 ^ min (E.width e) (E.width c) ≠ v % 2 ^ min (E.width e) (E.width c)) :
    ¬Enters E c v (.value e) := by
  rw [enters_value_iff]
  intro heq
  apply h
  have hlow := emod_two_pow_congr (Nat.min_le_right (E.width e) (E.width c)) heq
  rw [← hlow]
  split_ifs
  · exact (emod_two_pow_congr (Nat.min_le_left _ _) (toInt_ofInt_emod _ _)).symm
  · rfl

/-- The number of values a range is expanded to. -/
def rangeCount (E : Expressions) (lo hi : ℕ) : ℕ :=
  if constantBits E lo ≤ constantBits E hi then
    min (constantBits E hi - constantBits E lo + 1) maxCaseRangeExpansion
  else 1

theorem enters_range_iff {lo hi : ℕ} : Enters E c v (.range lo hi) ↔
    ∃ i < rangeCount E lo hi,
      (E.value lo % 2 ^ E.width lo + i) % 2 ^ E.width c = v % 2 ^ E.width c := by
  have hbits : ∀ i : ℕ, (((constantBits E lo + i) % 2 ^ E.width c : ℕ) : ℤ) =
      (E.value lo % 2 ^ E.width lo + i) % 2 ^ E.width c := by
    intro i
    push_cast
    rw [constantBits, toNat_ofInt]
  rw [Enters, mem_values_iff]
  show (∃ n ∈ (List.range (rangeCount E lo hi)).map _, _) ↔ _
  simp only [List.mem_map, List.mem_range, exists_exists_and_eq_and, hbits]

theorem rangeCount_le (lo hi : ℕ) : rangeCount E lo hi ≤ maxCaseRangeExpansion := by
  unfold rangeCount
  split_ifs
  · exact Nat.min_le_right _ _
  · decide

/-- The first value of a range that fits, and how many follow it. -/
theorem RangeFits.bits {lo hi : ℕ} (h : RangeFits E c lo hi) :
    E.value lo % 2 ^ E.width lo % 2 ^ E.width c = E.value lo % 2 ^ E.width c ∧
      (rangeCount E lo hi : ℤ) = min (E.value hi - E.value lo + 1) maxCaseRangeExpansion := by
  have hlo := toNat_ofInt (E.width lo) (E.value lo)
  have hhi := toNat_ofInt (E.width hi) (E.value hi)
  have hle := h.le
  unfold rangeCount constantBits
  rcases h.sign with ⟨hnonneg, hlo', hhi'⟩ | ⟨hneg, hsame, hwide, hlo'⟩
  · rw [Int.emod_eq_of_lt hnonneg hlo'] at hlo ⊢
    rw [Int.emod_eq_of_lt (by omega) hhi'] at hhi
    refine ⟨rfl, ?_⟩
    rw [if_pos (by omega)]
    omega
  · have hdvd : (2 : ℤ) ^ E.width c ∣ 2 ^ E.width lo := pow_dvd_pow 2 hwide
    refine ⟨Int.emod_emod_of_dvd _ hdvd, ?_⟩
    rw [hsame, ← Int.add_emod_right, Int.emod_eq_of_lt (by omega) (by omega)] at hhi
    rw [← Int.add_emod_right, Int.emod_eq_of_lt (by omega) (by omega)] at hlo
    rw [hsame, if_pos (by omega)]
    omega

theorem enters_range {lo hi : ℕ} (h : RangeFits E c lo hi) (hv : (E.type c).Holds v)
    (hcap : v ≤ E.value hi → v < E.value lo + maxCaseRangeExpansion) :
    Enters E c v (.range lo hi) ↔ (CaseLabel.range lo hi).Takes E.toConstants c v := by
  obtain ⟨hlow, hcount⟩ := h.bits
  have hbits : ∀ i : ℕ, (E.value lo % 2 ^ E.width lo + i) % 2 ^ E.width c =
      (E.value lo + i) % 2 ^ E.width c := fun i => Int.add_emod_eq_add_emod_right _ hlow
  rw [enters_range_iff, CaseLabel.Takes,
    IntType.convert_of_holds ((E.embeds c).holds _ h.lo_holds),
    IntType.convert_of_holds ((E.embeds c).holds _ h.hi_holds)]
  constructor
  · rintro ⟨i, hi', heq⟩
    rw [hbits] at heq
    have hmem : (E.type c).Holds (E.value lo + i) :=
      h.lo_holds.between h.hi_holds (by omega) (by omega)
    have := IntType.eq_of_emod_eq hmem hv heq
    omega
  · rintro ⟨hlo, hhi⟩
    have hcap := hcap hhi
    refine ⟨(v - E.value lo).toNat, by omega, ?_⟩
    rw [hbits, Int.toNat_of_nonneg (by omega), Int.add_comm, Int.sub_add_cancel]

theorem not_enters_range {lo hi : ℕ} (h : ∀ i : ℕ, i < maxCaseRangeExpansion →
    (E.value lo + i) % 2 ^ min (E.width lo) (E.width c) ≠
      v % 2 ^ min (E.width lo) (E.width c)) : ¬Enters E c v (.range lo hi) := by
  rw [enters_range_iff]
  rintro ⟨i, hi', heq⟩
  apply h i (Nat.lt_of_lt_of_le hi' (rangeCount_le lo hi))
  have hlow := emod_two_pow_congr (Nat.min_le_right (E.width lo) (E.width c)) heq
  rw [← hlow]
  have hdvd : (2 : ℤ) ^ min (E.width lo) (E.width c) ∣ 2 ^ E.width lo :=
    pow_dvd_pow 2 (Nat.min_le_left _ _)
  exact (Int.add_emod_eq_add_emod_right _ (Int.emod_emod_of_dvd _ hdvd)).symm

theorem enters_iff_takes {l : CaseLabel} (hv : (E.type c).Holds v) (h : l.RightAbout E c v) :
    Enters E c v l ↔ l.Takes E.toConstants c v := by
  cases l with
  | value e =>
    rcases h with h | ⟨htakes, hbits⟩
    · exact enters_value h hv
    · exact iff_of_false (not_enters_value hbits) htakes
  | range lo hi =>
    rcases h with ⟨h, hcap⟩ | ⟨htakes, hbits⟩
    · exact enters_range h hv hcap
    · refine iff_of_false (not_enters_range hbits) fun ⟨hlo, hhi⟩ => ?_
      have := htakes hlo
      omega
  | default_ => simp [Enters, caseValues, CaseLabel.Takes]

theorem LabelsRight.dispatchExact {items : Stmt} (h : LabelsRight E c items v) :
    DispatchExact E c items v :=
  ⟨fun l hl => enters_iff_takes h.holds (h.right l hl), h.inner, h.default_⟩

end Constants

/-- In the run of a body the labels are right about every value that a switch gets. -/
def SwitchesRight (E : Expressions) (ω : Oracle) (body : Stmt) : Prop :=
  ∀ c items k tr,
    Reaches (cMachine E.toConstants ω body) (cStart body) ⟨.run (.switch c items) k, tr⟩ →
      LabelsRight E c items (ω (tr ++ [c]))

variable {E : Expressions} {ω : Oracle} {a : Arena} {other : CAstNode → Builder → Builder × Bool}
  {off : ℕ} {body : Stmt}

/-- The nodes of `switch (x) { case 0: y; break; default: z; }`. -/
def caseDefault : Arena := .ofNodes
  [⟨50, true, 0, 2, 0, 0⟩, ⟨0, true, 0, 3, 4, 0⟩, ⟨60, true, 0, 0, 0, 0⟩, ⟨40, true, 0, 5, 0, 0⟩,
    ⟨52, true, 0, 6, 7, 0⟩, ⟨61, true, 0, 0, 0, 0⟩, ⟨45, true, 0, 8, 9, 0⟩,
    ⟨60, true, 0, 0, 0, 0⟩, ⟨46, true, 0, 0, 10, 0⟩, ⟨53, true, 0, 0, 11, 0⟩,
    ⟨45, true, 0, 12, 0, 0⟩, ⟨60, true, 0, 0, 0, 0⟩]

/-- Its items. -/
def caseDefaultItems : Stmt :=
  .seq (.case_ (.value 6)) (.seq (.expr 8) (.seq .break_ (.seq (.case_ .default_)
    (.seq (.expr 12) .skip))))

/-- The nodes of `switch (x) { { case 0: y; } }`. -/
def nestedCase : Arena := .ofNodes
  [⟨50, true, 0, 2, 0, 0⟩, ⟨0, true, 0, 3, 4, 0⟩, ⟨60, true, 0, 0, 0, 0⟩, ⟨40, true, 0, 5, 0, 0⟩,
    ⟨40, true, 0, 6, 0, 0⟩, ⟨52, true, 0, 7, 8, 0⟩, ⟨61, true, 0, 0, 0, 0⟩,
    ⟨45, true, 0, 9, 0, 0⟩, ⟨60, true, 0, 0, 0, 0⟩]

def nestedCaseBody : Stmt :=
  .seq (.switch 3 (.seq (.seq (.case_ (.value 7)) (.seq (.expr 9) .skip)) .skip)) .skip

end OpticC
