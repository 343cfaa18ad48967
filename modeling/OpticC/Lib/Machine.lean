import Mathlib.Algebra.Ring.Int.Defs
import Mathlib.Algebra.Ring.Nat
import Mathlib.Data.Nat.Notation
import Mathlib.Tactic.Common

/-! Deterministic machines with an observation, such as the trace so far, and star
simulations between them: a step of the first machine is a path of the second, or no
step but a smaller measure. Such a simulation preserves what is observed both ways. -/

namespace Behaviour

variable {σ τ ω : Type*}

structure Machine (σ ω : Type*) where
  step : σ → Option σ
  obs : σ → ω

variable (A : Machine σ ω) (B : Machine τ ω)

def steps : ℕ → σ → Option σ
  | 0, s => some s
  | n + 1, s => (A.step s).bind (steps n)

/-- Some state on the run from `s` shows `o`. -/
def Observes (s : σ) (o : ω) : Prop := ∃ n s', steps A n s = some s' ∧ A.obs s' = o

/-- The run from `s` comes to `s'`. -/
def Reaches (s s' : σ) : Prop := ∃ n, steps A n s = some s'

/-- The run from `s` ends, in a state that is final and shows `o`. -/
def Finishes (final : σ → Prop) (s : σ) (o : ω) : Prop :=
  ∃ n s', steps A n s = some s' ∧ A.step s' = none ∧ final s' ∧ A.obs s' = o

theorem steps_add (m n : ℕ) (s : σ) : steps A (m + n) s = (steps A m s).bind (steps A n) := by
  induction m generalizing s with
  | zero => simp [steps]
  | succ m ih =>
    rw [Nat.succ_add, steps, steps]
    cases A.step s with
    | none => rfl
    | some s' => exact ih s'

theorem Reaches.refl (s : σ) : Reaches A s s := ⟨0, rfl⟩

variable {A} in
theorem Reaches.step {s t u : σ} (h : Reaches A s t) (htu : A.step t = some u) :
    Reaches A s u := by
  obtain ⟨n, hn⟩ := h
  refine ⟨n + 1, ?_⟩
  rw [steps_add, hn, Option.bind_some, steps, htu]
  rfl

variable {A} in
/-- What every step preserves holds in all states of a run. -/
theorem Reaches.invariant {I : σ → Prop} (hstep : ∀ s s', I s → A.step s = some s' → I s')
    {s t : σ} (h : Reaches A s t) (hs : I s) : I t := by
  obtain ⟨n, hn⟩ := h
  induction n generalizing s with
  | zero =>
    cases hn
    exact hs
  | succ n ih =>
    obtain ⟨u, hu, hn⟩ := Option.bind_eq_some_iff.1 hn
    exact ih (hstep s u hs hu) hn

/-- A run of `n` steps that shows nothing but what its two ends show. -/
structure Path (n : ℕ) (s s' : σ) : Prop where
  run : steps A n s = some s'
  shows : ∀ m ≤ n, ∀ u, steps A m s = some u → A.obs u = A.obs s ∨ A.obs u = A.obs s'

theorem Path.refl (s : σ) : Path A 0 s s := by
  refine ⟨rfl, fun m hm u hu => ?_⟩
  obtain rfl : m = 0 := Nat.le_zero.1 hm
  cases hu
  exact .inl rfl

variable {A B}

theorem Path.one {s s' : σ} (h : A.step s = some s') : Path A 1 s s' := by
  refine ⟨by simp [steps, h], fun m hm u hu => ?_⟩
  rcases Nat.le_one_iff_eq_zero_or_eq_one.1 hm with rfl | rfl
  · cases hu
    exact .inl rfl
  · simp only [steps, h, Option.bind_some, Option.some.injEq] at hu
    exact .inr (congrArg A.obs hu.symm)

/-- A path may be extended at either end by one that shows nothing new. -/
theorem Path.trans {m n : ℕ} {s t u : σ} (h1 : Path A m s t) (h2 : Path A n t u)
    (h : A.obs s = A.obs t ∨ A.obs t = A.obs u) : Path A (m + n) s u := by
  refine ⟨by rw [steps_add, h1.run]; exact h2.run, fun k hk v hv => ?_⟩
  rcases Nat.le_total k m with hkm | hkm
  · rcases h1.shows k hkm v hv with h' | h'
    · exact .inl h'
    · rcases h with h | h
      · exact .inl (h'.trans h.symm)
      · exact .inr (h'.trans h)
  · obtain ⟨j, rfl⟩ := Nat.exists_eq_add_of_le hkm
    rw [steps_add, h1.run] at hv
    rcases h2.shows j (by omega) v hv with h' | h'
    · rcases h with h | h
      · exact .inl (h'.trans h.symm)
      · exact .inr (h'.trans h)
    · exact .inr h'

variable (A B)

/-- `R` relates states of the two machines that go on showing the same. -/
structure Simulation (finalA : σ → Prop) (finalB : τ → Prop) (R : σ → τ → Prop) (μ : σ → ℕ) :
    Prop where
  obs : ∀ s t, R s t → A.obs s = B.obs t
  step : ∀ s t s', R s t → A.step s = some s' →
    (R s' t ∧ μ s' < μ s) ∨ ∃ n t', Path B (n + 1) t t' ∧ R s' t'
  stop : ∀ s t, R s t → A.step s = none →
    finalA s ∧ ∃ n t', Path B n t t' ∧ B.step t' = none ∧ finalB t' ∧ B.obs t' = B.obs t

variable {A B}
variable {finalA : σ → Prop} {finalB : τ → Prop} {R : σ → τ → Prop} {μ : σ → ℕ}

theorem Observes.step {s s' : σ} {o : ω} (hs : A.step s = some s') (h : Observes A s' o) :
    Observes A s o := by
  obtain ⟨n, u, hu, ho⟩ := h
  exact ⟨n + 1, u, by simpa [steps, hs] using hu, ho⟩

theorem Finishes.step {s s' : σ} {o : ω} (hs : A.step s = some s') (h : Finishes A finalA s' o) :
    Finishes A finalA s o := by
  obtain ⟨n, u, hu, h⟩ := h
  exact ⟨n + 1, u, by simpa [steps, hs] using hu, h⟩

/-- A run ends at one place only. -/
theorem Finishes.unique {finalA' : σ → Prop} {s : σ} {o o' : ω} (h : Finishes A finalA s o)
    (h' : Finishes A finalA' s o') : o = o' := by
  obtain ⟨n, u, hu, hstop, -, rfl⟩ := h
  obtain ⟨m, u', hu', hstop', -, rfl⟩ := h'
  wlog hnm : n ≤ m generalizing n m u u'
  · exact (this m u' hu' hstop' n u hu hstop (Nat.le_of_not_le hnm)).symm
  obtain ⟨i, rfl⟩ := Nat.exists_eq_add_of_le hnm
  rw [steps_add, hu, Option.bind_some] at hu'
  cases i with
  | zero =>
    cases hu'
    rfl
  | succ i =>
    rw [steps, hstop] at hu'
    cases hu'

namespace Simulation

variable (hsim : Simulation A B finalA finalB R μ)

include hsim in
/-- What the first machine does in `n` steps, the second does too. -/
theorem run {n : ℕ} {s s' : σ} {t : τ} (hR : R s t) (h : steps A n s = some s') :
    ∃ m t', steps B m t = some t' ∧ R s' t' := by
  induction n generalizing s t with
  | zero =>
    cases h
    exact ⟨0, t, rfl, hR⟩
  | succ n ih =>
    obtain ⟨u, hu, hn⟩ := Option.bind_eq_some_iff.1 h
    rcases hsim.step s t u hR hu with ⟨hR', -⟩ | ⟨k, t', hpath, hR'⟩
    · exact ih hR' hn
    · obtain ⟨m, t'', hm, hR''⟩ := ih hR' hn
      exact ⟨k + 1 + m, t'', by rw [steps_add, hpath.run]; exact hm, hR''⟩

include hsim in
theorem observes {s : σ} {t : τ} {o : ω} (hR : R s t) (h : Observes A s o) : Observes B t o := by
  obtain ⟨n, s', hrun, ho⟩ := h
  obtain ⟨m, t', hm, hR'⟩ := hsim.run hR hrun
  exact ⟨m, t', hm, (hsim.obs s' t' hR').symm.trans ho⟩

include hsim in
theorem finishes {s : σ} {t : τ} {o : ω} (hR : R s t) (h : Finishes A finalA s o) :
    Finishes B finalB t o := by
  obtain ⟨n, s', hrun, hstop, -, ho⟩ := h
  obtain ⟨m, t', hm, hR'⟩ := hsim.run hR hrun
  obtain ⟨-, k, t'', hpath, hnone, hfin, hobs⟩ := hsim.stop s' t' hR' hstop
  refine ⟨m + k, t'', by rw [steps_add, hm]; exact hpath.run, hnone, hfin, ?_⟩
  rw [hobs, ← hsim.obs s' t' hR', ho]

include hsim in
/-- What the second machine does in `n` steps has been shown by the first. -/
theorem observes_back (n : ℕ) : ∀ (k : ℕ) (s : σ) (t t' : τ), μ s < k → R s t →
    steps B n t = some t' → Observes A s (B.obs t') := by
  induction n using Nat.strongRecOn with
  | ind n ih =>
    intro k
    induction k with
    | zero => exact fun s t t' hk => absurd hk (Nat.not_lt_zero _)
    | succ k ihk =>
      intro s t t' hk hR hrun
      cases hs : A.step s with
      | none =>
        -- the second machine halts too, and shows nothing new until then
        obtain ⟨-, j, t'', hpath, hnone, -, hobs⟩ := hsim.stop s t hR hs
        refine ⟨0, s, rfl, ?_⟩
        rw [hsim.obs s t hR]
        rcases Nat.le_total n j with hnj | hnj
        · rcases hpath.shows n hnj t' hrun with h | h
          · exact h.symm
          · exact (h.trans hobs).symm
        · obtain ⟨i, rfl⟩ := Nat.exists_eq_add_of_le hnj
          rw [steps_add, hpath.run] at hrun
          cases i with
          | zero =>
            cases hrun
            exact hobs.symm
          | succ i =>
            rw [Option.bind_some, steps, hnone] at hrun
            cases hrun
      | some s' =>
        rcases hsim.step s t s' hR hs with ⟨hR', hμ⟩ | ⟨j, t'', hpath, hR'⟩
        · exact (ihk s' t t' (by omega) hR' hrun).step hs
        · rcases Nat.lt_or_ge n (j + 1) with hnj | hnj
          · rcases hpath.shows n (Nat.le_of_lt hnj) t' hrun with h | h
            · exact ⟨0, s, rfl, (hsim.obs s t hR).trans h.symm⟩
            · exact ⟨1, s', by simp [steps, hs], (hsim.obs s' t'' hR').trans h.symm⟩
          · obtain ⟨i, rfl⟩ := Nat.exists_eq_add_of_le hnj
            rw [steps_add, hpath.run] at hrun
            exact (ih i (by omega) (μ s' + 1) s' t'' t' (Nat.lt_succ_self _) hR' hrun).step hs

include hsim in
theorem finishes_back (n : ℕ) : ∀ (k : ℕ) (s : σ) (t t' : τ), μ s < k → R s t →
    steps B n t = some t' → B.step t' = none → Finishes A finalA s (B.obs t') := by
  induction n using Nat.strongRecOn with
  | ind n ih =>
    intro k
    induction k with
    | zero => exact fun s t t' hk => absurd hk (Nat.not_lt_zero _)
    | succ k ihk =>
      intro s t t' hk hR hrun hhalt
      cases hs : A.step s with
      | none =>
        obtain ⟨hfin, j, t'', hpath, hnone, -, hobs⟩ := hsim.stop s t hR hs
        refine ⟨0, s, rfl, hs, hfin, ?_⟩
        rw [hsim.obs s t hR]
        rcases Nat.le_total n j with hnj | hnj
        · obtain ⟨i, rfl⟩ := Nat.exists_eq_add_of_le hnj
          have hrest := hpath.run
          rw [steps_add, hrun] at hrest
          cases i with
          | zero =>
            cases hrest
            exact hobs.symm
          | succ i =>
            rw [Option.bind_some, steps, hhalt] at hrest
            cases hrest
        · obtain ⟨i, rfl⟩ := Nat.exists_eq_add_of_le hnj
          rw [steps_add, hpath.run] at hrun
          cases i with
          | zero =>
            cases hrun
            exact hobs.symm
          | succ i =>
            rw [Option.bind_some, steps, hnone] at hrun
            cases hrun
      | some s' =>
        rcases hsim.step s t s' hR hs with ⟨hR', hμ⟩ | ⟨j, t'', hpath, hR'⟩
        · exact (ihk s' t t' (by omega) hR' hrun hhalt).step hs
        · rcases Nat.lt_or_ge n (j + 1) with hnj | hnj
          · -- the second machine cannot halt inside the path
            obtain ⟨i, hi⟩ := Nat.exists_eq_add_of_lt hnj
            have hrest := hpath.run
            rw [show j + 1 = n + (i + 1) by omega, steps_add, hrun, Option.bind_some, steps,
              hhalt] at hrest
            cases hrest
          · obtain ⟨i, rfl⟩ := Nat.exists_eq_add_of_le hnj
            rw [steps_add, hpath.run] at hrun
            exact (ih i (by omega) (μ s' + 1) s' t'' t' (Nat.lt_succ_self _) hR' hrun
              hhalt).step hs

include hsim in
theorem observes_iff {s : σ} {t : τ} (hR : R s t) (o : ω) : Observes A s o ↔ Observes B t o := by
  constructor
  · exact hsim.observes hR
  · rintro ⟨n, t', hrun, rfl⟩
    exact hsim.observes_back n (μ s + 1) s t t' (Nat.lt_succ_self _) hR hrun

include hsim in
theorem finishes_iff {s : σ} {t : τ} (hR : R s t) (o : ω) :
    Finishes A finalA s o ↔ Finishes B finalB t o := by
  constructor
  · exact hsim.finishes hR
  · rintro ⟨n, t', hrun, hhalt, -, rfl⟩
    exact hsim.finishes_back n (μ s + 1) s t t' (Nat.lt_succ_self _) hR hrun hhalt

end Simulation

end Behaviour
