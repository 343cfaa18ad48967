import OpticC.Backend.Lowering

/-! When the code of a function carries out a statement: a relation between statements
and positions in the code, and the simulation that follows from it. A position is the
list of instructions still to run, or nothing behind a terminator. -/

namespace OpticC

open Behaviour

inductive FFocus where
  | running (l : List Instr)
  | returned

structure FState where
  focus : FFocus
  trace : Trace

section Machine

variable (E : Expressions) (ω : Oracle) (F : BlockId → List Instr)

/-- The block a switch instruction goes to on the value `v`. -/
def switchTarget (c : ℕ) (otherwise : BlockId) (cases : List (ℕ × BlockId)) (v : ℤ) : BlockId :=
  (cases.lookup (BitVec.ofInt (E.width c) v).toNat).getD otherwise

/-- One step of the emitted function. Nothing follows `unreachable` or the end of a block
that has no terminator. -/
def fStep : FState → Option FState
  | ⟨.returned, _⟩ => none
  | ⟨.running l, tr⟩ =>
    match l with
    | .eval e :: l => some ⟨.running l, tr ++ [e]⟩
    | .br t :: _ => some ⟨.running (F t), tr⟩
    | .condBr _ t f :: _ => some ⟨.running (F (if ω tr ≠ 0 then t else f)), tr⟩
    | .switch c d cases :: _ => some ⟨.running (F (switchTarget E c d cases (ω tr))), tr⟩
    | .ret :: _ => some ⟨.returned, tr⟩
    | .unreachable :: _ => none
    | [] => none

def fMachine : Machine FState Trace := ⟨fStep E ω F, FState.trace⟩

def fStart : FState := ⟨.running (F (.num 0)), []⟩

def FState.Final (s : FState) : Prop := s.focus = .returned

end Machine

abbrev Pos := Option (List Instr)

section Relations

variable (F : BlockId → List Instr)

/-- Branches lead from the first position to the second. -/
inductive Leads : List Instr → List Instr → Prop
  | refl (l : List Instr) : Leads l l
  | br {t : BlockId} {tl l : List Instr} : Leads (F t) l → Leads (.br t :: tl) l

/-- A run at the first position, if there is one, comes to the second. -/
def Reach (p q : Pos) : Prop := ∀ l, p = some l → ∃ l', q = some l' ∧ Leads F l l'

/-- The instructions of expressions stand at `p`, and `q` is behind them. -/
def Emits (es : List ℕ) (p q : Pos) : Prop :=
  ∀ l, p = some l → ∃ l', l = es.map .eval ++ l' ∧ q = some l'

/-- The instruction stands at `p`. -/
def Jumps (i : Instr) (p : Pos) : Prop := ∀ l, p = some l → ∃ tl, l = i :: tl

theorem Leads.trans {l1 l2 l3 : List Instr} (h1 : Leads F l1 l2) (h2 : Leads F l2 l3) :
    Leads F l1 l3 := by
  induction h1 with
  | refl => exact h2
  | br _ ih => exact .br (ih h2)

theorem Reach.refl (p : Pos) : Reach F p p := fun l hl => ⟨l, hl, .refl l⟩

theorem Reach.of_none (q : Pos) : Reach F none q := fun _ hl => nomatch hl

variable {F} in
theorem Reach.trans {p q r : Pos} (h1 : Reach F p q) (h2 : Reach F q r) : Reach F p r := by
  intro l hl
  obtain ⟨l', hl', hlead⟩ := h1 l hl
  obtain ⟨l'', hl'', hlead'⟩ := h2 l' hl'
  exact ⟨l'', hl'', hlead.trans F hlead'⟩

theorem Reach.of_jumps {t : BlockId} {p : Pos} (h : Jumps (.br t) p) : Reach F p (some (F t)) := by
  intro l hl
  obtain ⟨tl, rfl⟩ := h l hl
  exact ⟨F t, rfl, .br (.refl _)⟩

end Relations

/-- What the switch instruction of labels with these blocks enters. -/
def switchEntries (E : Expressions) (c : ℕ) (labs : List (CaseLabel × BlockId)) :
    List (ℕ × BlockId) :=
  dedupCases (labs.flatMap fun q => (caseValues E c q.1).map (·, q.2))

/-- The switch instruction enters the value for the label. -/
def Enters (E : Expressions) (c : ℕ) (v : ℤ) (l : CaseLabel) : Prop :=
  (BitVec.ofInt (E.width c) v).toNat ∈ caseValues E c l

/-- On the value `v` the labels among the items are entered where they take the value, and
no label inside the items is needed. -/
structure DispatchExact (E : Expressions) (c : ℕ) (items : Stmt) (v : ℤ) : Prop where
  entered : ∀ l ∈ items.itemLabels, (Enters E c v l ↔ l.Takes E.toConstants c v)
  inner : ∀ l ∈ items.innerLabels, ¬l.Takes E.toConstants c v
  default_ : CaseLabel.default_ ∈ items.innerLabels →
    ∃ l ∈ items.itemLabels, l.Takes E.toConstants c v

/-- The labels of a switch are right about every value that its condition gets in the run of
the body. -/
def SwitchesExact (E : Expressions) (ω : Oracle) (body : Stmt) : Prop :=
  ∀ c items k tr,
    Reaches (cMachine E.toConstants ω body) (cStart body) ⟨.run (.switch c items) k, tr⟩ →
      DispatchExact E c items (ω (tr ++ [c]))

section Compiled

-- `names` are the labels of the function body
variable (E : Expressions) (F : BlockId → List Instr) (names : List String)


/-- The code carries out the statement from one position to another. With `labs`, the
statement is what is left of a switch body and `labs` its labels with their blocks. -/
inductive Compiled : Option (List (CaseLabel × BlockId)) → Option BlockId → Option BlockId →
    Stmt → Pos → Pos → Prop
  | seq {brk cont : Option BlockId} {s t : Stmt} {p m q : Pos} :
      Compiled none brk cont s p m → Compiled none brk cont t m q →
      Compiled none brk cont (.seq s t) p q
  | item {labs : List (CaseLabel × BlockId)} {brk cont : Option BlockId} {s t : Stmt}
      {p m q : Pos} : (∀ l, s ≠ .case_ l) → Compiled none brk cont s p m →
      Compiled (some labs) brk cont t m q → Compiled (some labs) brk cont (.seq s t) p q
  | label {labs : List (CaseLabel × BlockId)} {brk cont : Option BlockId} {l : CaseLabel}
      {B : BlockId} {t : Stmt} {p q : Pos} : Reach F p (some (F B)) →
      Compiled (some labs) brk cont t (some (F B)) q →
      Compiled (some ((l, B) :: labs)) brk cont (.seq (.case_ l) t) p q
  | last {brk cont : Option BlockId} {s : Stmt} {p q : Pos} : (∀ t u, s ≠ .seq t u) →
      Compiled none brk cont s p q → Compiled (some []) brk cont s p q
  | skip {brk cont : Option BlockId} {p : Pos} : Compiled none brk cont .skip p p
  | expr {brk cont : Option BlockId} {e : ℕ} {p q : Pos} : Emits [e] p q →
      Compiled none brk cont (.expr e) p q
  | ite {brk cont : Option BlockId} {c : ℕ} {s t : Stmt} {p p' m m' : Pos}
      {thenB elseB mergeB : BlockId} : Emits [c] p p' → Jumps (.condBr c thenB elseB) p' →
      Compiled none brk cont s (some (F thenB)) m → Reach F m (some (F mergeB)) →
      Compiled none brk cont t (some (F elseB)) m' → Reach F m' (some (F mergeB)) →
      Compiled none brk cont (.ite c s t) p (some (F mergeB))
  | while_ {brk cont : Option BlockId} {c : ℕ} {s : Stmt} {p m : Pos} {tl : List Instr}
      {condB bodyB endB : BlockId} : Jumps (.br condB) p →
      F condB = .eval c :: .condBr c bodyB endB :: tl →
      Compiled none (some endB) (some condB) s (some (F bodyB)) m → Reach F m (some (F condB)) →
      Compiled none brk cont (.while_ c s) p (some (F endB))
  | doWhile {brk cont : Option BlockId} {c : ℕ} {s : Stmt} {p m : Pos} {tl : List Instr}
      {condB bodyB endB : BlockId} : Jumps (.br bodyB) p →
      F condB = .eval c :: .condBr c bodyB endB :: tl →
      Compiled none (some endB) (some condB) s (some (F bodyB)) m → Reach F m (some (F condB)) →
      Compiled none brk cont (.doWhile s c) p (some (F endB))
  | for_ {brk cont : Option BlockId} {c : ℕ} {i : Option ℕ} {s : Stmt} {p m : Pos}
      {tl tl' : List Instr} {condB incrB bodyB endB : BlockId} : Jumps (.br condB) p →
      F condB = .eval c :: .condBr c bodyB endB :: tl →
      Compiled none (some endB) (some incrB) s (some (F bodyB)) m → Reach F m (some (F incrB)) →
      F incrB = i.toList.map .eval ++ .br condB :: tl' →
      Compiled none brk cont (.for_ c i s) p (some (F endB))
  | switch {brk cont : Option BlockId} {c : ℕ} {s : Stmt} {p p' m : Pos}
      {labs : List (CaseLabel × BlockId)} {endB otherwise : BlockId} : Emits [c] p p' →
      Jumps (.switch c otherwise (switchEntries E c labs)) p' →
      Compiled (some labs) (some endB) cont s none m → Reach F m (some (F endB)) →
      (∀ B, (CaseLabel.default_, B) ∈ labs → B = otherwise) →
      ((∀ B, (CaseLabel.default_, B) ∉ labs) → Reach F (some (F otherwise)) (some (F endB))) →
      Compiled none brk cont (.switch c s) p (some (F endB))
  | case_ {brk cont : Option BlockId} {l : CaseLabel} {p : Pos} :
      Compiled none brk cont (.case_ l) p p
  | break_ {target : BlockId} {cont : Option BlockId} {p : Pos} : Jumps (.br target) p →
      Compiled none (some target) cont .break_ p none
  | continue_ {target : BlockId} {brk : Option BlockId} {p : Pos} : Jumps (.br target) p →
      Compiled none brk (some target) .continue_ p none
  | goto_ {brk cont : Option BlockId} {l : String} {p : Pos} : l ∈ names →
      Jumps (.br (.label l)) p → Compiled none brk cont (.goto_ l) p none
  | labeled {brk cont : Option BlockId} {l : String} {s : Stmt} {p q : Pos} :
      Reach F p (some (F (.label l))) → Compiled none brk cont s (some (F (.label l))) q →
      Compiled none brk cont (.labeled l s) p q
  | return_ {brk cont : Option BlockId} {e : Option ℕ} {p p' : Pos} : Emits e.toList p p' →
      Jumps .ret p' → Compiled none brk cont (.return_ e) p none

/-- The code behind a position carries out what is left to do. -/
inductive ContAt : Option BlockId → Option BlockId → Pos → Cont → Prop
  | stop {p : Pos} {tl : List Instr} : Reach F p (some (.ret :: tl)) → ContAt none none p .stop
  | seq {labs : Option (List (CaseLabel × BlockId))} {brk cont : Option BlockId} {p m q : Pos}
      {t : Stmt} {k : Cont} : Reach F p m → Compiled E F names labs brk cont t m q →
      ContAt brk cont q k → ContAt brk cont p (.seq t k)
  | loop {brk cont : Option BlockId} {c : ℕ} {i : Option ℕ} {s : Stmt} {k : Cont} {p m : Pos}
      {tl : List Instr} {condB nextB bodyB endB : BlockId} : Reach F p (some (F nextB)) →
      (i = none ∧ Leads F (F nextB) (F condB) ∨
        ∃ e tl', i = some e ∧ F nextB = .eval e :: .br condB :: tl') →
      F condB = .eval c :: .condBr c bodyB endB :: tl →
      Compiled E F names none (some endB) (some nextB) s (some (F bodyB)) m →
      Reach F m (some (F nextB)) → ContAt brk cont (some (F endB)) k →
      ContAt (some endB) (some nextB) p (.loop c i s k)
  | switch {brk cont : Option BlockId} {p : Pos} {endB : BlockId} {k : Cont} :
      Reach F p (some (F endB)) → ContAt brk cont (some (F endB)) k →
      ContAt (some endB) cont p (.switch k)

end Compiled

end OpticC
