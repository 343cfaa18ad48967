import Mathlib.Algebra.Ring.Int.Defs
import Mathlib.Algebra.Ring.Nat
import Mathlib.Data.Nat.Notation
import Mathlib.Data.List.Basic

/-! Computations taken apart: the steps of a script in order, and what it comes to when all of
them go well. A run ends with the first step that fails. -/

namespace Scripts

structure Script (τ ε α : Type) where
  steps : List τ
  outcome : Except ε α

variable {τ ε α β : Type}

namespace Script

def andThen (s : Script τ ε α) (f : α → Script τ ε β) : Script τ ε β :=
  match s.outcome with
  | .ok a => ⟨s.steps ++ (f a).steps, (f a).outcome⟩
  | .error e => ⟨s.steps, .error e⟩

instance : Monad (Script τ ε) where
  pure a := ⟨[], .ok a⟩
  bind := andThen

/-- A script of a single step. -/
def step (x : τ) : Script τ ε Unit := ⟨[x], .ok ()⟩

/-- What has no steps. -/
def of (r : Except ε α) : Script τ ε α := ⟨[], r⟩

end Script

theorem map_eq_error_iff {f : α → β} {r : Except ε α} {e : ε} :
    r.map f = .error e ↔ r = .error e := by
  cases r <;> simp [Except.map]

theorem map_eq_bind (f : α → β) (r : Except ε α) : r.map f = r >>= fun a => pure (f a) := by
  cases r <;> rfl

section Runs

variable (perform : τ → Except ε Unit)

/-- The steps up to the first one that fails. -/
def performed : List τ → List τ
  | [] => []
  | x :: rest =>
    match perform x with
    | .ok _ => x :: performed rest
    | .error _ => [x]

def runSteps : List τ → Except ε Unit
  | [] => .ok ()
  | x :: rest => (perform x).bind fun _ => runSteps rest

def run (s : Script τ ε α) : Except ε α := (runSteps perform s.steps).bind fun _ => s.outcome

/-- The steps that a run of the script performs. -/
def reached (s : Script τ ε α) : List τ := performed perform s.steps

/-- All steps go well, and the script comes to a failure. -/
def FailsAtEnd (s : Script τ ε α) (e : ε) : Prop :=
  runSteps perform s.steps = .ok () ∧ s.outcome = .error e

variable {perform}

theorem runSteps_append (l m : List τ) :
    runSteps perform (l ++ m) = (runSteps perform l).bind fun _ => runSteps perform m := by
  induction l with
  | nil => rfl
  | cons x l ih =>
    rw [List.cons_append, runSteps, runSteps]
    cases perform x with
    | error e => rfl
    | ok u => exact ih

theorem run_of (r : Except ε α) : run perform (Script.of r) = r := rfl

theorem run_bind (s : Script τ ε α) (f : α → Script τ ε β) :
    run perform (s >>= f) = (run perform s).bind fun a => run perform (f a) := by
  show run perform (s.andThen f) = _
  unfold Script.andThen
  cases hs : s.outcome with
  | error e =>
    unfold run
    rw [hs]
    cases runSteps perform s.steps <;> rfl
  | ok a =>
    unfold run
    simp only [runSteps_append, hs]
    cases runSteps perform s.steps <;> rfl

theorem FailsAtEnd.of_bind {s : Script τ ε α} {f : α → Script τ ε β} {e : ε}
    (h : FailsAtEnd perform (s >>= f) e) :
    FailsAtEnd perform s e ∨ ∃ a, run perform s = .ok a ∧ FailsAtEnd perform (f a) e := by
  obtain ⟨hsteps, hout⟩ : FailsAtEnd perform (s.andThen f) e := h
  unfold Script.andThen at hsteps hout
  cases hs : s.outcome with
  | error e' =>
    rw [hs] at hsteps hout
    cases hout
    exact .inl ⟨hsteps, hs⟩
  | ok a =>
    rw [hs] at hsteps hout
    simp only [runSteps_append] at hsteps
    cases hfirst : runSteps perform s.steps with
    | error e' =>
      rw [hfirst] at hsteps
      cases hsteps
    | ok u =>
      rw [hfirst] at hsteps
      have hrun : run perform s = .ok a := by rw [run, hfirst, hs]; rfl
      exact .inr ⟨a, hrun, hsteps, hout⟩

theorem run_step (x : τ) : run perform (Script.step x) = perform x := by
  unfold run Script.step runSteps runSteps
  cases perform x <;> rfl

theorem runSteps_error_iff (l : List τ) (e : ε) :
    runSteps perform l = .error e ↔ ∃ x ∈ performed perform l, perform x = .error e := by
  induction l with
  | nil => simp [runSteps, performed]
  | cons x l ih =>
    rw [runSteps, performed]
    cases hx : perform x with
    | error e' => simp [Except.bind, hx]
    | ok u => simp [Except.bind, hx, ih]

/-- A run fails with its last step, or because that is what the script comes to. -/
theorem run_error_iff (s : Script τ ε α) (e : ε) :
    run perform s = .error e ↔
      (∃ x ∈ reached perform s, perform x = .error e) ∨
        FailsAtEnd perform s e := by
  unfold run reached FailsAtEnd
  rw [← runSteps_error_iff]
  cases runSteps perform s.steps <;> simp [Except.bind]

theorem reached_step (x : τ) : reached perform (Script.step x) = [x] := by
  unfold reached Script.step performed performed
  cases perform x <;> rfl

theorem performed_append (l m : List τ) :
    performed perform (l ++ m) = performed perform l ++
      match runSteps perform l with
      | .ok _ => performed perform m
      | .error _ => [] := by
  induction l with
  | nil => rfl
  | cons x l ih =>
    rw [List.cons_append, performed, performed, runSteps]
    cases perform x with
    | error e => rfl
    | ok u => exact congrArg (x :: ·) ih

/-- What follows is performed when what is in front of it goes well. -/
theorem reached_bind (s : Script τ ε α) (f : α → Script τ ε β) :
    reached perform (s >>= f) = reached perform s ++
      match run perform s with
      | .ok a => reached perform (f a)
      | .error _ => [] := by
  show reached perform (s.andThen f) = _
  unfold Script.andThen run reached
  cases hs : s.outcome with
  | error e => cases runSteps perform s.steps <;> simp [Except.bind]
  | ok a =>
    rw [performed_append]
    cases runSteps perform s.steps <;> rfl

end Runs

section Improvements

variable {perform perform' : τ → Except ε Unit} {stop : ε}

/-- The second run goes on where the first one stops with `stop`, and else is the same. -/
structure Improves (perform perform' : τ → Except ε Unit) (stop : ε) (s s' : Script τ ε α) :
    Prop where
  subset : reached perform s ⊆ reached perform' s'
  same : run perform s ≠ .error stop →
    run perform' s' = run perform s ∧ reached perform' s' = reached perform s

theorem Improves.of (r : Except ε α) :
    Improves perform perform' stop (Script.of r) (Script.of r : Script τ ε α) :=
  ⟨List.Subset.refl _, fun _ => ⟨rfl, rfl⟩⟩

theorem Improves.stopped (s' : Script τ ε α) :
    Improves perform perform' stop (Script.of (.error stop)) s' :=
  ⟨List.nil_subset _, fun h => absurd rfl h⟩

theorem Improves.step {x : τ} (h : perform x ≠ .error stop → perform' x = perform x) :
    Improves perform perform' stop (Script.step x) (Script.step x) where
  subset := by rw [reached_step, reached_step]; exact List.Subset.refl _
  same hrun := by
    rw [run_step] at hrun
    rw [run_step, run_step, reached_step, reached_step]
    exact ⟨h hrun, rfl⟩

theorem Improves.bind {s s' : Script τ ε α} {f f' : α → Script τ ε β}
    (h : Improves perform perform' stop s s')
    (hf : ∀ a, Improves perform perform' stop (f a) (f' a)) :
    Improves perform perform' stop (s >>= f) (s' >>= f') := by
  cases hrun : run perform s with
  | ok a =>
    obtain ⟨hsame, hreached⟩ := h.same (by rw [hrun]; exact nofun)
    rw [hrun] at hsame
    constructor
    · rw [reached_bind, reached_bind, hrun, hsame, hreached]
      exact List.append_subset.2 ⟨List.subset_append_left _ _,
        List.Subset.trans (hf a).subset (List.subset_append_right _ _)⟩
    · rw [run_bind, run_bind, reached_bind, reached_bind, hrun, hsame, hreached]
      intro hstop
      obtain ⟨hsame', hreached'⟩ := (hf a).same hstop
      exact ⟨hsame', congrArg _ hreached'⟩
  | error e =>
    constructor
    · rw [reached_bind, reached_bind, hrun, List.append_nil]
      exact List.Subset.trans h.subset (List.subset_append_left _ _)
    · rw [run_bind, run_bind, reached_bind, reached_bind, hrun]
      intro hstop
      have hne : e ≠ stop := fun he => hstop (congrArg Except.error he)
      obtain ⟨hsame, hreached⟩ := h.same (by rw [hrun]; exact fun he => hne (Except.error.inj he))
      rw [hsame, hreached, hrun]
      exact ⟨rfl, rfl⟩

/-- What follows a step that stops does not matter. -/
theorem Improves.step_stopped {x : τ} (hx : perform x = .error stop)
    (f f' : Unit → Script τ ε β) :
    Improves perform perform' stop (Script.step x >>= f) (Script.step x >>= f') where
  subset := by
    rw [reached_bind, reached_bind, run_step, hx, reached_step, reached_step, List.append_nil]
    exact List.subset_append_left _ _
  same hrun := by
    rw [run_bind, run_step, hx] at hrun
    exact absurd rfl hrun

end Improvements

section Avoidance

variable {perform : τ → Except ε Unit} {good : τ → Prop} {stop : ε} {post : α → Prop}
  {post' : β → Prop}

/-- A run that performs only good steps does not stop with `stop`, and what it comes to is as
`post` says. -/
def Avoids (perform : τ → Except ε Unit) (good : τ → Prop) (stop : ε) (post : α → Prop)
    (s : Script τ ε α) : Prop :=
  (∀ x ∈ reached perform s, good x) →
    run perform s ≠ .error stop ∧ ∀ a, run perform s = .ok a → post a

theorem Avoids.of {r : Except ε α} (hr : r ≠ .error stop) (h : ∀ a, r = .ok a → post a) :
    Avoids perform good stop post (Script.of r) := fun _ => ⟨hr, h⟩

theorem Avoids.mono {post₁ post₂ : α → Prop} {s : Script τ ε α}
    (h : Avoids perform good stop post₁ s) (hpost : ∀ a, post₁ a → post₂ a) :
    Avoids perform good stop post₂ s := fun hgood =>
  ⟨(h hgood).1, fun a ha => hpost a ((h hgood).2 a ha)⟩

theorem Avoids.bind {s : Script τ ε α} {f : α → Script τ ε β}
    (h : Avoids perform good stop post s)
    (hf : ∀ a, post a → Avoids perform good stop post' (f a)) :
    Avoids perform good stop post' (s >>= f) := by
  intro hgood
  rw [reached_bind] at hgood
  obtain ⟨hrun, hpost⟩ := h fun x hx => hgood x (List.mem_append_left _ hx)
  rw [run_bind]
  cases hs : run perform s with
  | error e =>
    have hne : e ≠ stop := fun he => hrun (by rw [hs, he])
    exact ⟨fun he => hne (Except.error.inj he), nofun⟩
  | ok a =>
    rw [hs] at hgood
    exact hf a (hpost a hs) fun x hx => hgood x (List.mem_append_right _ hx)

/-- A good step does not stop. -/
theorem Avoids.step {x : τ} (h : good x → perform x ≠ .error stop) :
    Avoids perform good stop (fun _ => good x) (Script.step x) := by
  intro hgood
  rw [reached_step] at hgood
  have hx := hgood x (List.mem_singleton.2 rfl)
  rw [run_step]
  exact ⟨h hx, fun _ _ => hx⟩

end Avoidance

end Scripts
