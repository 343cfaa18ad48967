import Mathlib.Algebra.Ring.Int.Defs
import Mathlib.Algebra.Ring.Nat
import Mathlib.Logic.Function.Basic
import Mathlib.Data.List.Basic

/-! A table that keeps the results of a computation under keys. A lookup that finds nothing
computes and, when that succeeds, writes the entry, which then stays. -/

namespace Memo

abbrev Table (κ ω : Type) := κ → Option ω

def Table.empty {κ ω : Type} : Table κ ω := fun _ => none

section

variable {ι κ ω ε : Type} [DecidableEq κ] (key : ι → κ) (f : ι → Except ε ω)

/-- The result under the key of the input, or else a new one. -/
def lookup (t : Table κ ω) (i : ι) : Except ε ω × Table κ ω :=
  match t (key i) with
  | some o => (.ok o, t)
  | none =>
    match f i with
    | .ok o => (.ok o, Function.update t (key i) (some o))
    | .error e => (.error e, t)

/-- The table after lookups of all the inputs in their order. -/
def fill (t : Table κ ω) (inputs : List ι) : Table κ ω :=
  inputs.foldl (fun t i => (lookup key f t i).2) t

/-- The input that wrote the entry: the first one of the key whose computation succeeds. -/
def origin (inputs : List ι) (k : κ) : Option ι :=
  inputs.find? fun i => decide (key i = k) && (f i).toOption.isSome

variable {key f} {t : Table κ ω} {i : ι} {k : κ}

theorem lookup_of_none (h : t (key i) = none) : (lookup key f t i).1 = f i := by
  simp only [lookup, h]
  cases f i <;> rfl

/-- One lookup. The entries there are stay, and the key of the input may get one. -/
theorem lookup_table (t : Table κ ω) (i : ι) (k : κ) :
    (lookup key f t i).2 k = (t k).or (if key i = k then (f i).toOption else none) := by
  unfold lookup
  by_cases hk : key i = k
  · subst hk
    cases ht : t (key i) with
    | some o => simp [ht]
    | none => cases hf : f i <;> simp [ht, Except.toOption]
  · have hk' : k ≠ key i := fun h => hk h.symm
    cases t (key i) with
    | some o => simp [hk]
    | none => cases f i <;> simp [hk, hk']

theorem origin_cons (i : ι) (inputs : List ι) (k : κ) :
    (origin key f (i :: inputs) k).bind (fun j => (f j).toOption) =
      (if key i = k then (f i).toOption else none).or
        ((origin key f inputs k).bind fun j => (f j).toOption) := by
  unfold origin
  rw [List.find?_cons]
  by_cases hk : key i = k
  · cases hf : f i <;> simp [hk, hf, Except.toOption]
  · simp [hk]

theorem fill_eq (t : Table κ ω) (inputs : List ι) (k : κ) :
    fill key f t inputs k =
      (t k).or ((origin key f inputs k).bind fun j => (f j).toOption) := by
  induction inputs generalizing t with
  | nil => simp [fill, origin]
  | cons i rest ih =>
    calc fill key f t (i :: rest) k
        = ((lookup key f t i).2 k).or ((origin key f rest k).bind fun j => (f j).toOption) := ih _
      _ = (t k).or ((origin key f (i :: rest) k).bind fun j => (f j).toOption) := by
        rw [lookup_table, Option.or_assoc, ← origin_cons]

/-- What an entry holds is what the input that wrote it computes to. -/
theorem origin_of_fill {inputs : List ι} {o : ω} (h : fill key f Table.empty inputs k = some o) :
    ∃ j, origin key f inputs k = some j ∧ key j = k ∧ f j = .ok o := by
  rw [fill_eq] at h
  simp only [Table.empty, Option.none_or] at h
  obtain ⟨j, hj, hok⟩ := Option.bind_eq_some_iff.1 h
  have hpred := List.find?_some hj
  simp only [Bool.and_eq_true, decide_eq_true_eq] at hpred
  refine ⟨j, hj, hpred.1, ?_⟩
  cases hf : f j with
  | ok o' =>
    rw [hf] at hok
    exact congrArg Except.ok (Option.some.inj hok)
  | error e =>
    rw [hf] at hok
    cases hok

end

end Memo
