import Mathlib.Algebra.Ring.Int.Defs
import Mathlib.Algebra.Ring.Nat
import Mathlib.Data.Nat.Notation

/-! Computations that say which faults came up in them, whether or not they fail in the end.
Discarding a result keeps its faults and loses the failure. -/

namespace Faults

variable {σ φ ε ε' α β : Type*}

/-- What a computation leaves. It fails only with a fault. -/
structure Outcome (σ φ ε α : Type*) where
  result : Except ε α
  state : σ
  faults : List φ
  reported : ∀ e, result = .error e → faults ≠ []

def Comp (σ φ ε α : Type*) := σ → Outcome σ φ ε α

def succeed (a : α) : Comp σ φ ε α := fun s => ⟨.ok a, s, [], nofun⟩

def modifyState (f : σ → σ) : Comp σ φ ε Unit := fun s => ⟨.ok (), f s, [], nofun⟩

/-- One after the other; a failure of the first is passed on. -/
def andThen (c : Comp σ φ ε α) (f : α → Comp σ φ ε β) : Comp σ φ ε β := fun s =>
  match h : (c s).result with
  | .ok a =>
    let next := f a (c s).state
    ⟨next.result, next.state, (c s).faults ++ next.faults, by
      intro e he hnil
      exact next.reported e he (List.append_eq_nil_iff.1 hnil).2⟩
  | .error e => ⟨.error e, (c s).state, (c s).faults, fun _ _ => (c s).reported e h⟩

/-- The result is discarded, the state and the faults are kept. -/
def ignore (c : Comp σ φ ε α) : Comp σ φ ε' Unit := fun s =>
  ⟨.ok (), (c s).state, (c s).faults, nofun⟩

def each (body : β → Comp σ φ ε Unit) : List β → Comp σ φ ε Unit
  | [] => succeed ()
  | b :: rest => andThen (body b) fun _ => each body rest

/-- The computation never fails. -/
def Succeeds (c : Comp σ φ ε Unit) : Prop := ∀ s, (c s).result = .ok ()

theorem succeeds_succeed : Succeeds (succeed () : Comp σ φ ε Unit) := fun _ => rfl

theorem succeeds_modifyState (f : σ → σ) : Succeeds (modifyState f : Comp σ φ ε Unit) := fun _ => rfl

theorem succeeds_ignore (c : Comp σ φ ε α) : Succeeds (ignore c : Comp σ φ ε' Unit) := fun _ => rfl

section Sequence

variable {c d : Comp σ φ ε Unit} {s : σ}

/-- After a computation that does not fail, all is as the second one leaves it. -/
theorem andThen_eq (hc : Succeeds c) (f : Unit → Comp σ φ ε β) (s : σ) :
    ((andThen c f) s).result = (f () (c s).state).result ∧
      ((andThen c f) s).state = (f () (c s).state).state ∧
      ((andThen c f) s).faults = (c s).faults ++ (f () (c s).state).faults := by
  unfold andThen
  split
  · exact ⟨rfl, rfl, rfl⟩
  · rename_i e he
    rw [hc s] at he
    cases he

theorem Succeeds.andThen (hc : Succeeds c) (hd : Succeeds d) :
    Succeeds (andThen c fun _ => d) := by
  intro s
  rw [(andThen_eq hc (fun _ => d) s).1]
  exact hd _

theorem Succeeds.each {body : β → Comp σ φ ε Unit} (h : ∀ b, Succeeds (body b)) (bs : List β) :
    Succeeds (each body bs) := by
  induction bs with
  | nil => exact succeeds_succeed
  | cons b bs ih => exact (h b).andThen ih

end Sequence

end Faults
