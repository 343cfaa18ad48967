import OpticC.Statement.Semantics

/-! The switches that a run comes to are switches of the body. -/

namespace OpticC

open Behaviour

variable {P : ℕ → Stmt → Prop}

namespace Cont

/-- A property of the switches of what is left to do. -/
def AllSwitches (P : ℕ → Stmt → Prop) : Cont → Prop
  | stop => True
  | seq s k => s.AllSwitches P ∧ k.AllSwitches P
  | loop _ _ s k => s.AllSwitches P ∧ k.AllSwitches P
  | switch k => k.AllSwitches P

theorem AllSwitches.break_ {k k' : Cont} (h : k.AllSwitches P) (hk : k.break_ = some k') :
    k'.AllSwitches P := by
  induction k with
  | stop => cases hk
  | seq s k ih => exact ih h.2 hk
  | loop c i s k =>
    cases hk
    exact h.2
  | switch k =>
    cases hk
    exact h

theorem AllSwitches.continue_ {k k' : Cont} (h : k.AllSwitches P) (hk : k.continue_ = some k') :
    k'.AllSwitches P := by
  induction k with
  | stop => cases hk
  | seq s k ih => exact ih h.2 hk
  | loop c i s k =>
    cases hk
    exact h
  | switch k ih => exact ih h hk

end Cont

theorem Stmt.AllSwitches.findLabel {l : String} {s s' : Stmt} {k k' : Cont}
    (h : s.AllSwitches P) (hk : k.AllSwitches P)
    (hl : OpticC.findLabel l s k = some (s', k')) : s'.AllSwitches P ∧ k'.AllSwitches P := by
  induction s generalizing k with
  | seq s t ihs iht =>
    rcases Option.or_eq_some_iff.1 hl with hl | ⟨-, hl⟩
    · exact ihs h.1 (k := .seq t k) ⟨h.2, hk⟩ hl
    · exact iht h.2 hk hl
  | ite c s t ihs iht =>
    rcases Option.or_eq_some_iff.1 hl with hl | ⟨-, hl⟩
    · exact ihs h.1 hk hl
    · exact iht h.2 hk hl
  | while_ c s ih => exact ih h (k := .loop c none s k) ⟨h, hk⟩ hl
  | doWhile s c ih => exact ih h (k := .loop c none s k) ⟨h, hk⟩ hl
  | for_ c i s ih => exact ih h (k := .loop c i s k) ⟨h, hk⟩ hl
  | switch c s ih => exact ih h.2 (k := .switch k) hk hl
  | labeled l' s ih =>
    unfold OpticC.findLabel at hl
    split_ifs at hl
    · cases hl
      exact ⟨h, hk⟩
    · exact ih h hk hl
  | _ => cases hl

theorem Stmt.AllSwitches.findCase {p : CaseLabel → Bool} {s : Stmt} {k k' : Cont}
    (h : s.AllSwitches P) (hk : k.AllSwitches P) (hp : OpticC.findCase p s k = some k') :
    k'.AllSwitches P := by
  induction s generalizing k with
  | seq s t ihs iht =>
    rcases Option.or_eq_some_iff.1 hp with hp | ⟨-, hp⟩
    · exact ihs h.1 (k := .seq t k) ⟨h.2, hk⟩ hp
    · exact iht h.2 hk hp
  | ite c s t ihs iht =>
    rcases Option.or_eq_some_iff.1 hp with hp | ⟨-, hp⟩
    · exact ihs h.1 hk hp
    · exact iht h.2 hk hp
  | while_ c s ih => exact ih h (k := .loop c none s k) ⟨h, hk⟩ hp
  | doWhile s c ih => exact ih h (k := .loop c none s k) ⟨h, hk⟩ hp
  | for_ c i s ih => exact ih h (k := .loop c i s k) ⟨h, hk⟩ hp
  | labeled l' s ih => exact ih h hk hp
  | case_ l =>
    unfold OpticC.findCase at hp
    split_ifs at hp
    cases hp
    exact hk
  | _ => cases hp

theorem Stmt.AllSwitches.selectCase {K : Constants} {c : ℕ} {v : ℤ} {items : Stmt} {k : Cont}
    (h : items.AllSwitches P) (hk : k.AllSwitches P) :
    (OpticC.selectCase K c v items k).AllSwitches P := by
  unfold OpticC.selectCase
  cases hfind : (OpticC.findCase (fun l => l.Takes K c v) items (.switch k)).or
      (OpticC.findCase (fun l => l = .default_) items (.switch k)) with
  | none => exact hk
  | some k' =>
    rcases Option.or_eq_some_iff.1 hfind with hfind | ⟨-, hfind⟩
    · exact h.findCase (k := .switch k) hk hfind
    · exact h.findCase (k := .switch k) hk hfind

/-- A property of the switches of what is left to do in a state. -/
def Focus.AllSwitches (P : ℕ → Stmt → Prop) : Focus → Prop
  | .run s k => s.AllSwitches P ∧ k.AllSwitches P
  | .test _ _ s k => s.AllSwitches P ∧ k.AllSwitches P
  | .done => True

variable {K : Constants} {ω : Oracle} {body : Stmt}

theorem allSwitches_step {s s' : CState} (hbody : body.AllSwitches P)
    (h : s.focus.AllSwitches P) (hstep : cStep K ω body s = some s') :
    s'.focus.AllSwitches P := by
  obtain ⟨focus, tr⟩ := s
  cases focus with
  | done => cases hstep
  | test c i s k =>
    cases hstep
    show Focus.AllSwitches P (ite _ _ _)
    split_ifs
    · exact ⟨h.1, h⟩
    · exact ⟨trivial, h.2⟩
  | run s k =>
    cases s with
    | skip =>
      cases k with
      | stop =>
        cases hstep
        trivial
      | seq t k =>
        cases hstep
        exact h.2
      | loop c i s k =>
        cases i <;> cases hstep <;> exact h.2
      | switch k =>
        cases hstep
        exact h
    | expr e =>
      cases hstep
      exact ⟨trivial, h.2⟩
    | seq s t =>
      cases hstep
      exact ⟨h.1.1, h.1.2, h.2⟩
    | ite c s t =>
      cases hstep
      show Focus.AllSwitches P (ite _ _ _)
      split_ifs
      · exact ⟨h.1.1, h.2⟩
      · exact ⟨h.1.2, h.2⟩
    | while_ c s =>
      cases hstep
      exact h
    | doWhile s c =>
      cases hstep
      exact ⟨h.1, h⟩
    | for_ c i s =>
      cases hstep
      exact h
    | switch c items =>
      cases hstep
      exact ⟨trivial, h.1.2.selectCase h.2⟩
    | case_ l =>
      cases hstep
      exact ⟨trivial, h.2⟩
    | break_ =>
      obtain ⟨k', hk', rfl⟩ := Option.map_eq_some_iff.1 hstep
      exact ⟨trivial, h.2.break_ hk'⟩
    | continue_ =>
      obtain ⟨k', hk', rfl⟩ := Option.map_eq_some_iff.1 hstep
      exact ⟨trivial, h.2.continue_ hk'⟩
    | goto_ l =>
      obtain ⟨⟨s', k'⟩, hsk, rfl⟩ := Option.map_eq_some_iff.1 hstep
      exact hbody.findLabel (k := .stop) trivial hsk
    | labeled l s =>
      cases hstep
      exact h
    | return_ e => cases e <;> cases hstep <;> trivial

/-- What holds of the switches of a body holds of the switches that its run comes to. -/
theorem allSwitches_reaches (hbody : body.AllSwitches P) {s : CState}
    (h : Reaches (cMachine K ω body) (cStart body) s) : s.focus.AllSwitches P := by
  refine h.invariant (I := fun s => s.focus.AllSwitches P) (fun s s' hs hstep => ?_)
    ⟨hbody, trivial⟩
  exact allSwitches_step hbody hs hstep

end OpticC
