import Mathlib.Algebra.Ring.Int.Defs
import Mathlib.Algebra.Ring.Nat
import Mathlib.Data.Nat.Notation
import Mathlib.Data.List.Induction

/-! Logs of events, each of which may set a cell. After a run the cell holds what the last event
that sets it has set it to. -/

namespace LastWord

variable {ε σ ν : Type}

/-- What the last event that sets the cell sets it to. -/
def lastWord (sets : ε → Option ν) : List ε → Option ν
  | [] => none
  | e :: rest => (lastWord sets rest).or (sets e)

variable {sets : ε → Option ν}

theorem lastWord_eq_none_iff {es : List ε} :
    lastWord sets es = none ↔ ∀ e ∈ es, sets e = none := by
  induction es with
  | nil => simp [lastWord]
  | cons e rest ih =>
    rw [lastWord, Option.or_eq_none_iff, ih, List.forall_mem_cons]
    exact and_comm

/-- An event sets the cell, and no later one does. -/
theorem lastWord_eq_some_iff {es : List ε} {v : ν} :
    lastWord sets es = some v ↔ ∃ before e after, es = before ++ e :: after ∧ sets e = some v ∧
      ∀ e' ∈ after, sets e' = none := by
  induction es with
  | nil => simp [lastWord]
  | cons e rest ih =>
    rw [lastWord, Option.or_eq_some_iff]
    constructor
    · rintro (h | ⟨h, he⟩)
      · obtain ⟨before, e', after, rfl, he, hafter⟩ := ih.1 h
        exact ⟨e :: before, e', after, rfl, he, hafter⟩
      · exact ⟨[], e, rest, rfl, he, lastWord_eq_none_iff.1 h⟩
    · rintro ⟨before, e', after, heq, he, hafter⟩
      cases before with
      | nil =>
        obtain ⟨rfl, rfl⟩ := List.cons.inj heq
        exact .inr ⟨lastWord_eq_none_iff.2 hafter, he⟩
      | cons x before =>
        obtain ⟨rfl, rfl⟩ := List.cons.inj heq
        exact .inl (ih.2 ⟨before, e', after, rfl, he, hafter⟩)

/-- A cell that every event sets or leaves alone. -/
theorem read_foldl {step : σ → ε → σ} {read : σ → ν} (hstep : ∀ s e, read (step s e) =
    (sets e).getD (read s)) (es : List ε) (s : σ) :
    read (es.foldl step s) = (lastWord sets es).getD (read s) := by
  induction es generalizing s with
  | nil => rfl
  | cons e rest ih =>
    rw [List.foldl_cons, ih, hstep, lastWord]
    cases lastWord sets rest with
    | none => rfl
    | some v => rfl

/-- A list that events add to. -/
theorem collect_foldl {ω : Type} {step : σ → ε → σ} {list : σ → List ω} {adds : ε → Option ω}
    (hstep : ∀ s e, list (step s e) = list s ++ (adds e).toList) (es : List ε) (s : σ) :
    list (es.foldl step s) = list s ++ es.filterMap adds := by
  induction es generalizing s with
  | nil => simp
  | cons e rest ih =>
    rw [List.foldl_cons, ih, hstep, List.append_assoc, List.filterMap_cons]
    cases adds e with
    | none => rfl
    | some o => rfl

/-- What is in the log of a run: an event has put it there, and none has cleared the log since. -/
theorem mem_log_foldl {ω : Type} {step : σ → ε → σ} {log : σ → List ω} {out : σ → ε → List ω}
    {clears : ε → Bool} (hstep : ∀ s e, log (step s e) = (if clears e then [] else log s) ++ out s e)
    {es : List ε} {s : σ} (hs : log s = []) {o : ω} :
    o ∈ log (es.foldl step s) ↔ ∃ before e after, es = before ++ e :: after ∧
      o ∈ out (before.foldl step s) e ∧ ∀ e' ∈ after, clears e' = false := by
  induction es using List.reverseRecOn with
  | nil => simp [hs]
  | append_singleton es e ih =>
    rw [List.foldl_append, List.foldl_cons, List.foldl_nil, hstep, List.mem_append]
    constructor
    · rintro (h | h)
      · cases hc : clears e with
        | true => simp [hc] at h
        | false =>
          rw [hc, if_neg Bool.false_ne_true] at h
          obtain ⟨before, e', after, rfl, ho, hafter⟩ := ih.1 h
          refine ⟨before, e', after ++ [e], by simp, ho, fun x hx => ?_⟩
          rcases List.mem_append.1 hx with hx | hx
          · exact hafter x hx
          · rw [List.mem_singleton.1 hx, hc]
      · exact ⟨es, e, [], rfl, h, fun x hx => absurd hx (List.not_mem_nil)⟩
    · rintro ⟨before, e', after, heq, ho, hafter⟩
      rcases List.eq_nil_or_concat after with rfl | ⟨after, last, rfl⟩
      · obtain ⟨rfl, hlast⟩ := List.append_inj' heq rfl
        obtain rfl := List.singleton_inj.1 hlast
        exact .inr ho
      · have heq' : es ++ [e] = (before ++ e' :: after) ++ [last] := by simpa using heq
        obtain ⟨rfl, hlast⟩ := List.append_inj' heq' rfl
        obtain rfl := List.singleton_inj.1 hlast
        have hc := hafter e (by simp)
        rw [hc, if_neg Bool.false_ne_true]
        exact .inl (ih.2 ⟨before, e', after, rfl, ho, fun x hx => hafter x (by simp [hx])⟩)

end LastWord
