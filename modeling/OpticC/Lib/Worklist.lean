import Mathlib.Algebra.Ring.Int.Defs
import Mathlib.Algebra.Ring.Nat
import Mathlib.Data.List.Perm.Subperm
import Mathlib.Logic.Relation

/-! A worklist search: take an item, add the successors not met before. Over a finite
set of items it ends with the closure of where it started. -/

namespace Worklist

variable {α : Type*} [DecidableEq α]

structure Search (α : Type*) where
  done : List α
  work : List α

def push (w : Search α) (x : α) : Search α :=
  if x ∈ w.done then w else ⟨x :: w.done, x :: w.work⟩

def pushAll (w : Search α) (xs : List α) : Search α := xs.foldl push w

variable (succ : α → List α)

/-- The loop, with a bound on its rounds. -/
def drain : ℕ → Search α → List α
  | 0, w => w.done
  | n + 1, w =>
    match w.work with
    | [] => w.done
    | x :: work => drain n (pushAll ⟨w.done, work⟩ (succ x))

def search (rounds : ℕ) (roots : List α) : List α := drain succ rounds (pushAll ⟨[], []⟩ roots)

theorem mem_done_push {w : Search α} {x y : α} : y ∈ (push w x).done ↔ y ∈ w.done ∨ y = x := by
  unfold push
  split_ifs with h
  · constructor
    · exact Or.inl
    · rintro (hy | rfl)
      · exact hy
      · exact h
  · simp [or_comm]

theorem mem_done_pushAll {w : Search α} {xs : List α} {y : α} :
    y ∈ (pushAll w xs).done ↔ y ∈ w.done ∨ y ∈ xs := by
  induction xs generalizing w with
  | nil => simp [pushAll]
  | cons x xs ih =>
    have := ih (w := push w x)
    rw [mem_done_push, or_assoc] at this
    simpa [pushAll] using this

/-- What an unfinished search keeps: the done items are reachable and counted once, and
only those still on the list may have successors outside. -/
structure Sound (roots univ : List α) (w : Search α) : Prop where
  reachable : ∀ x ∈ w.done, ∃ r ∈ roots, Relation.ReflTransGen (fun a b => b ∈ succ a) r x
  work_done : ∀ x ∈ w.work, x ∈ w.done
  nodup : w.done.Nodup
  bounded : ∀ x ∈ w.done, x ∈ univ
  closed : ∀ x ∈ w.done, x ∉ w.work → ∀ y ∈ succ x, y ∈ w.done

variable {succ} {roots univ : List α}

theorem pushAll_nodup {w : Search α} {xs : List α} (h : w.done.Nodup) :
    (pushAll w xs).done.Nodup := by
  induction xs generalizing w with
  | nil => exact h
  | cons x xs ih =>
    apply ih
    unfold push
    split_ifs with hx
    · exact h
    · exact List.nodup_cons.2 ⟨hx, h⟩

theorem pushAll_work {w : Search α} {xs : List α} {y : α} :
    y ∈ (pushAll w xs).work ↔ y ∈ w.work ∨ (y ∈ xs ∧ y ∉ w.done) := by
  induction xs generalizing w with
  | nil => simp [pushAll]
  | cons x xs ih =>
    have hstep : y ∈ (pushAll w (x :: xs)).work ↔
        y ∈ (push w x).work ∨ (y ∈ xs ∧ y ∉ (push w x).done) := ih (w := push w x)
    rw [hstep, mem_done_push]
    by_cases hx : x ∈ w.done
    · have : push w x = w := if_pos hx
      rw [this, List.mem_cons]
      constructor
      · rintro (h | ⟨h, hy⟩)
        · exact Or.inl h
        · exact Or.inr ⟨Or.inr h, fun h' => hy (Or.inl h')⟩
      · rintro (h | ⟨rfl | h, hy⟩)
        · exact Or.inl h
        · exact absurd hx hy
        · refine Or.inr ⟨h, ?_⟩
          rintro (h' | rfl)
          · exact hy h'
          · exact hy hx
    · have : push w x = ⟨x :: w.done, x :: w.work⟩ := if_neg hx
      rw [this, List.mem_cons, List.mem_cons]
      constructor
      · rintro ((rfl | h) | ⟨h, hy⟩)
        · exact Or.inr ⟨Or.inl rfl, hx⟩
        · exact Or.inl h
        · exact Or.inr ⟨Or.inr h, fun h' => hy (Or.inl h')⟩
      · rintro (h | ⟨rfl | h, hy⟩)
        · exact Or.inl (Or.inr h)
        · exact Or.inl (Or.inl rfl)
        · by_cases hyx : y = x
          · exact Or.inl (Or.inl hyx)
          · exact Or.inr ⟨h, fun h' => h'.elim hy hyx⟩

/-- A push adds to both lists or to neither. -/
theorem pushAll_length (w : Search α) (xs : List α) :
    (pushAll w xs).done.length + w.work.length = (pushAll w xs).work.length + w.done.length := by
  induction xs generalizing w with
  | nil => exact Nat.add_comm _ _
  | cons x xs ih =>
    have h := ih (push w x)
    have hstep : pushAll w (x :: xs) = pushAll (push w x) xs := rfl
    rw [hstep]
    by_cases hx : x ∈ w.done
    · have : push w x = w := if_pos hx
      rw [this] at h ⊢
      exact h
    · have : push w x = ⟨x :: w.done, x :: w.work⟩ := if_neg hx
      rw [this] at h ⊢
      simp only [List.length_cons] at h
      omega

theorem sound_roots (hroots : ∀ r ∈ roots, r ∈ univ) :
    Sound succ roots univ (pushAll ⟨[], []⟩ roots) := by
  have hmem : ∀ x, x ∈ (pushAll (⟨[], []⟩ : Search α) roots).done → x ∈ roots := by
    intro x hx
    rcases mem_done_pushAll.1 hx with h | h
    · cases h
    · exact h
  have hwork : ∀ x ∈ roots, x ∈ (pushAll (⟨[], []⟩ : Search α) roots).work := by
    intro x hx
    exact pushAll_work.2 (Or.inr ⟨hx, List.not_mem_nil⟩)
  refine ⟨?_, ?_, pushAll_nodup List.nodup_nil, ?_, ?_⟩
  · intro x hx
    exact ⟨x, hmem x hx, Relation.ReflTransGen.refl⟩
  · intro x hx
    rcases pushAll_work.1 hx with h | ⟨h, _⟩
    · cases h
    · exact mem_done_pushAll.2 (Or.inr h)
  · intro x hx
    exact hroots x (hmem x hx)
  · intro x hx hnot
    exact absurd (hwork x (hmem x hx)) hnot

theorem Sound.step {w : Search α} {x : α} {work : List α} (h : Sound succ roots univ w)
    (hsucc : ∀ a b, b ∈ succ a → b ∈ univ) (hw : w.work = x :: work) :
    Sound succ roots univ (pushAll ⟨w.done, work⟩ (succ x)) := by
  have hx : x ∈ w.done := h.work_done x (by rw [hw]; exact List.mem_cons_self)
  refine ⟨?_, ?_, pushAll_nodup h.nodup, ?_, ?_⟩
  · intro y hy
    rcases mem_done_pushAll.1 hy with hy | hy
    · exact h.reachable y hy
    · obtain ⟨r, hr, hrx⟩ := h.reachable x hx
      exact ⟨r, hr, hrx.tail hy⟩
  · intro y hy
    apply mem_done_pushAll.2
    rcases pushAll_work.1 hy with hy | ⟨hy, _⟩
    · exact Or.inl (h.work_done y (by rw [hw]; exact List.mem_cons_of_mem _ hy))
    · exact Or.inr hy
  · intro y hy
    rcases mem_done_pushAll.1 hy with hy | hy
    · exact h.bounded y hy
    · exact hsucc x y hy
  · intro y hy hnot z hz
    apply mem_done_pushAll.2
    rw [pushAll_work] at hnot
    by_cases hyd : y ∈ w.done
    · by_cases hyx : y = x
      · rw [hyx] at hz
        exact Or.inr hz
      · refine Or.inl (h.closed y hyd ?_ z hz)
        rw [hw, List.mem_cons]
        rintro (h' | h')
        · exact hyx h'
        · exact hnot (Or.inl h')
    · have hys : y ∈ succ x := (mem_done_pushAll.1 hy).resolve_left hyd
      exact absurd (Or.inr ⟨hys, hyd⟩) hnot

omit [DecidableEq α] in
/-- With no work left the done items are closed. -/
theorem Sound.mem_done {w : Search α} (h : Sound succ roots univ w) (hwork : w.work = [])
    (hroots : ∀ r ∈ roots, r ∈ w.done) {x : α} :
    x ∈ w.done ↔ ∃ r ∈ roots, Relation.ReflTransGen (fun a b => b ∈ succ a) r x := by
  constructor
  · exact h.reachable x
  · rintro ⟨r, hr, hrx⟩
    induction hrx with
    | refl => exact hroots r hr
    | tail _ hstep ih =>
      refine h.closed _ ih ?_ _ hstep
      rw [hwork]
      exact List.not_mem_nil

theorem Sound.mem_drain {n : ℕ} {w : Search α} (h : Sound succ roots univ w)
    (hsucc : ∀ a b, b ∈ succ a → b ∈ univ) (hroots : ∀ r ∈ roots, r ∈ w.done)
    (hn : univ.length + w.work.length ≤ n + w.done.length) {x : α} :
    x ∈ drain succ n w ↔ ∃ r ∈ roots, Relation.ReflTransGen (fun a b => b ∈ succ a) r x := by
  -- every round takes one item off the list, and each item is put there once
  induction n generalizing w with
  | zero =>
    have hle : w.done.length ≤ univ.length :=
      (List.subperm_of_subset h.nodup h.bounded).length_le
    refine h.mem_done (List.eq_nil_of_length_eq_zero ?_) hroots
    omega
  | succ n ih =>
    unfold drain
    split
    · rename_i hwork
      exact h.mem_done hwork hroots
    · rename_i y work hwork
      have hlen := pushAll_length ⟨w.done, work⟩ (succ y)
      rw [hwork, List.length_cons] at hn
      dsimp only at hlen
      apply ih (h.step hsucc hwork)
      · intro r hr
        exact mem_done_pushAll.2 (Or.inl (hroots r hr))
      · omega

/-- Enough rounds find exactly what the roots reach. -/
theorem mem_search {n : ℕ} (hroots : ∀ r ∈ roots, r ∈ univ)
    (hsucc : ∀ a b, b ∈ succ a → b ∈ univ) (hn : univ.length ≤ n) {x : α} :
    x ∈ search succ n roots ↔ ∃ r ∈ roots, Relation.ReflTransGen (fun a b => b ∈ succ a) r x := by
  have hlen := pushAll_length (⟨[], []⟩ : Search α) roots
  simp only [List.length_nil] at hlen
  apply (sound_roots hroots).mem_drain hsucc
  · intro r hr
    exact mem_done_pushAll.2 (Or.inr hr)
  · omega

end Worklist
