import Mathlib.Algebra.Ring.Int.Defs
import Mathlib.Algebra.Ring.Nat
import Mathlib.Data.List.Infix

/-! The longest prefix of an input that a grammar of tokens takes. -/

namespace MaximalMunch

variable {κ α : Type*}

structure Longest (grammar : κ → List α → Prop) (input : List α) (kind : κ)
    (text after : List α) : Prop where
  split : text ++ after = input
  token : grammar kind text
  longest : ∀ kind' text', grammar kind' text' → text' <+: input → text'.length ≤ text.length

variable {grammar : κ → List α → Prop} {input text text' after after' : List α} {kind kind' : κ}

theorem Longest.text_front (h : Longest grammar input kind text after) : text <+: input :=
  ⟨after, h.split⟩

/-- Where no text belongs to two kinds there is one longest token. -/
theorem Longest.unique (hkinds : ∀ kind kind' text, grammar kind text → grammar kind' text → kind = kind')
    (h : Longest grammar input kind text after) (h' : Longest grammar input kind' text' after') :
    kind = kind' ∧ text = text' ∧ after = after' := by
  have hlength : text.length = text'.length :=
    Nat.le_antisymm (h'.longest kind text h.token h.text_front)
      (h.longest kind' text' h'.token h'.text_front)
  obtain ⟨rfl, rfl⟩ := List.append_inj (h.split.trans h'.split.symm) hlength
  exact ⟨hkinds kind kind' text h.token h'.token, rfl, rfl⟩

/-- The whole input is the longest of its prefixes. -/
theorem Longest.whole (h : grammar kind input) : Longest grammar input kind input [] :=
  ⟨List.append_nil input, h, fun _ _ _ hfront => hfront.length_le⟩

section Runs

variable {text next run behind : List α}

/-- A text inside a run goes on inside it, unless it goes on at the end of the run. -/
theorem append_prefix_run (htext : text <+: run) (h : text ++ next <+: run ++ behind)
    (hinside : ∀ first more, text ++ first :: more = run → next <+: first :: more ++ behind →
      next <+: first :: more)
    (houtside : text = run → ¬ next <+: behind) : text ++ next <+: run := by
  obtain ⟨more, hmore⟩ := htext
  subst hmore
  rw [List.append_assoc, List.prefix_append_right_inj] at h
  cases more with
  | nil => exact absurd h (houtside (List.append_nil text).symm)
  | cons first more =>
    rw [List.prefix_append_right_inj]
    exact hinside first more rfl h

end Runs

end MaximalMunch
