import Mathlib.Algebra.Ring.Int.Defs
import Mathlib.Algebra.Ring.Nat
import Mathlib.Data.Nat.Notation
import Mathlib.Logic.Function.Basic
import Mathlib.Tactic.Common

/-! Tasks that take turns on a shared state in any order. An assertion of each task that its own
turns keep and the turns of the others do not disturb holds after every schedule. -/

namespace Interleaving

variable {ι Local Shared : Type*}

structure State (ι Local Shared : Type*) where
  locals : ι → Local
  shared : Shared

/-- What a turn of a task does; `none` when the task is at its end. -/
abbrev Tasks (ι Local Shared : Type*) := ι → Local → Shared → Option (Local × Shared)

variable [DecidableEq ι] (tasks : Tasks ι Local Shared)

def turn (st : State ι Local Shared) (i : ι) : State ι Local Shared :=
  match tasks i (st.locals i) st.shared with
  | none => st
  | some (l, sh) => ⟨Function.update st.locals i l, sh⟩

/-- The tasks take their turns as the schedule says. -/
def run (st : State ι Local Shared) (schedule : List ι) : State ι Local Shared :=
  schedule.foldl (turn tasks) st

/-- An assertion for each task about its own state and the shared one. -/
abbrev Assertion (ι Local Shared : Type*) := ι → Local → Shared → Prop

/-- The turns of a task keep its assertion. -/
def Sequential (I : Assertion ι Local Shared) : Prop :=
  ∀ i l sh l' sh', I i l sh → tasks i l sh = some (l', sh') → I i l' sh'

/-- The turns of a task keep the assertions of the others. -/
def Undisturbed (I : Assertion ι Local Shared) : Prop :=
  ∀ i j l m sh m' sh', i ≠ j → I i l sh → I j m sh → tasks j m sh = some (m', sh') → I i l sh'

variable {tasks} {I : Assertion ι Local Shared}

theorem turn_keeps (hown : Sequential tasks I) (hother : Undisturbed tasks I)
    {st : State ι Local Shared} (h : ∀ i, I i (st.locals i) st.shared) (j : ι) :
    ∀ i, I i ((turn tasks st j).locals i) (turn tasks st j).shared := by
  intro i
  unfold turn
  split
  · exact h i
  · rename_i l sh hstep
    by_cases hij : i = j
    · subst hij
      simp only [Function.update_self]
      exact hown i _ _ _ _ (h i) hstep
    · simp only [Function.update_of_ne hij]
      exact hother i j _ _ _ _ _ hij (h i) (h j) hstep

theorem run_keeps (hown : Sequential tasks I) (hother : Undisturbed tasks I)
    {st : State ι Local Shared} (h : ∀ i, I i (st.locals i) st.shared) (schedule : List ι) :
    ∀ i, I i ((run tasks st schedule).locals i) (run tasks st schedule).shared := by
  induction schedule generalizing st with
  | nil => exact h
  | cons j schedule ih => exact ih (turn_keeps hown hother h j)

end Interleaving
