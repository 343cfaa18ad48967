import Mathlib.Algebra.Ring.Int.Defs
import Mathlib.Algebra.Ring.Nat
import Mathlib.Data.List.TakeWhile
import Mathlib.Tactic.Common

/-! Words in a text, with blanks between them and around them. -/

namespace Words

variable {α : Type} (blank : α → Bool)

def words (text : List α) : List (List α) := (text.splitOnP blank).filter fun w => !w.isEmpty

/-- The text has these words, as long as they can be. -/
inductive Spaced : List α → List (List α) → Prop
  | done {gap : List α} : (∀ c ∈ gap, blank c = true) → Spaced gap []
  | word {gap w rest : List α} {ws : List (List α)} : (∀ c ∈ gap, blank c = true) → w ≠ [] →
    (∀ c ∈ w, blank c = false) → (∀ c ∈ rest.head?, blank c = true) → Spaced rest ws →
    Spaced (gap ++ w ++ rest) (w :: ws)

variable {blank}

theorem words_cons_blank {c : α} (h : blank c = true) (text : List α) :
    words blank (c :: text) = words blank text := by
  simp [words, List.splitOnP_cons_eq_if_modifyHead, h]

theorem words_gap_append {gap : List α} (h : ∀ c ∈ gap, blank c = true) (text : List α) :
    words blank (gap ++ text) = words blank text := by
  induction gap with
  | nil => rfl
  | cons c gap ih =>
    rw [List.forall_mem_cons] at h
    rw [List.cons_append, words_cons_blank h.1, ih h.2]

/-- The first piece of a text up to a blank. -/
theorem splitOnP_append {w rest : List α} (hw : ∀ c ∈ w, blank c = false)
    (hrest : ∀ c ∈ rest.head?, blank c = true) :
    (w ++ rest).splitOnP blank = w :: (rest.splitOnP blank).tail := by
  induction w with
  | nil =>
    cases rest with
    | nil => simp
    | cons c rest => simp [List.splitOnP_cons_eq_if_modifyHead, hrest c rfl]
  | cons c w ih =>
    rw [List.forall_mem_cons] at hw
    rw [List.cons_append, List.splitOnP_cons_eq_if_modifyHead, if_neg (by simp [hw.1]), ih hw.2]
    rfl

theorem words_append {w rest : List α} (hne : w ≠ []) (hw : ∀ c ∈ w, blank c = false)
    (hrest : ∀ c ∈ rest.head?, blank c = true) :
    words blank (w ++ rest) = w :: words blank rest := by
  have htail : ((rest.splitOnP blank).tail).filter (fun w => !w.isEmpty) = words blank rest := by
    cases rest with
    | nil => simp [words]
    | cons c rest => simp [words, List.splitOnP_cons_eq_if_modifyHead, hrest c rfl]
  rw [words, splitOnP_append hw hrest, List.filter_cons, if_pos (by simpa using hne), htail]

theorem words_of_spaced {text : List α} {ws : List (List α)} (h : Spaced blank text ws) :
    words blank text = ws := by
  induction h with
  | done hgap =>
    rename_i gap
    have h := words_gap_append hgap []
    rw [List.append_nil] at h
    rw [h]
    simp [words]
  | word hgap hne hw hrest _ ih =>
    rw [List.append_assoc, words_gap_append hgap, words_append hne hw hrest, ih]

theorem Spaced.blank_cons {c : α} {text : List α} {ws : List (List α)} (hc : blank c = true)
    (h : Spaced blank text ws) : Spaced blank (c :: text) ws := by
  cases h with
  | done hgap => exact .done (List.forall_mem_cons.2 ⟨hc, hgap⟩)
  | word hgap hne hw hrest h => exact .word (List.forall_mem_cons.2 ⟨hc, hgap⟩) hne hw hrest h

theorem spaced_words (text : List α) : Spaced blank text (words blank text) := by
  induction h : text.length using Nat.strong_induction_on generalizing text with
  | _ n ih =>
    cases text with
    | nil => exact .done (fun c hc => absurd hc (List.not_mem_nil))
    | cons c text =>
      cases hc : blank c with
      | true =>
        rw [words_cons_blank hc]
        exact (ih text.length (by rw [← h]; exact Nat.lt_succ_self _) text rfl).blank_cons hc
      | false =>
        -- the first word goes up to the next blank
        let w := c :: text.takeWhile fun d => !blank d
        let rest := text.dropWhile fun d => !blank d
        have hsplit : w ++ rest = c :: text :=
          congrArg (c :: ·) (List.takeWhile_append_dropWhile (p := fun d => !blank d) (l := text))
        have hw : ∀ d ∈ w, blank d = false := by
          refine List.forall_mem_cons.2 ⟨hc, fun d hd => ?_⟩
          have hd' := List.mem_takeWhile_imp hd
          simpa using hd'
        have hrest : ∀ d ∈ rest.head?, blank d = true := by
          intro d hd
          have hnot := List.head?_dropWhile_not (fun d => !blank d) text
          rw [Option.mem_def.1 hd] at hnot
          simpa using hnot
        have hlt : rest.length < n := by
          rw [← h]
          exact Nat.lt_succ_of_le (List.dropWhile_suffix _).length_le
        rw [← hsplit, words_append (List.cons_ne_nil _ _) hw hrest]
        exact @Spaced.word _ blank [] w rest _ (fun d hd => absurd hd (List.not_mem_nil))
          (List.cons_ne_nil _ _) hw hrest (ih rest.length hlt rest rfl)

end Words
