import OpticC.IntType
import OpticC.Statement.Syntax
import OpticC.Lib.Machine

/-! What C says about the order in which the expressions of a function body are
executed. The trace lists the expressions executed so far; the value of the last one is
given by an oracle that may depend on all of it, and decides every condition. -/

namespace OpticC

open Behaviour

abbrev Trace := List ℕ

/-- The value of the expression executed last. -/
abbrev Oracle := Trace → ℤ

/-- What the case labels of a switch need to know: the constants and, for the condition,
its promoted type. -/
structure Constants where
  value : ℕ → ℤ
  promoted : ℕ → IntType

/-- The label takes the value `v` of the condition `c`. -/
def CaseLabel.Takes (K : Constants) (c : ℕ) (v : ℤ) : CaseLabel → Prop
  | .value e => (K.promoted c).convert (K.value e) = v
  | .range lo hi =>
    (K.promoted c).convert (K.value lo) ≤ v ∧ v ≤ (K.promoted c).convert (K.value hi)
  | .default_ => False

instance (K : Constants) (c : ℕ) (v : ℤ) (l : CaseLabel) : Decidable (l.Takes K c v) := by
  cases l <;> unfold CaseLabel.Takes <;> infer_instance

/-- What is left to do after a statement. -/
inductive Cont where
  | stop
  | seq (s : Stmt) (k : Cont)
  | loop (c : ℕ) (incr : Option ℕ) (s : Stmt) (k : Cont)
  | switch (k : Cont)
  deriving DecidableEq

namespace Cont

def break_ : Cont → Option Cont
  | stop => none
  | seq _ k => k.break_
  | loop _ _ _ k => some k
  | switch k => some k

/-- The continuation of the innermost loop's body. -/
def continue_ : Cont → Option Cont
  | stop => none
  | seq _ k => k.continue_
  | loop c i s k => some (loop c i s k)
  | switch k => k.continue_

end Cont

/-- The statement that the label marks, and what is left to do after it. -/
def findLabel (l : String) : Stmt → Cont → Option (Stmt × Cont)
  | .seq s t, k => (findLabel l s (.seq t k)).or (findLabel l t k)
  | .ite _ s t, k => (findLabel l s k).or (findLabel l t k)
  | .while_ c s, k => findLabel l s (.loop c none s k)
  | .doWhile s c, k => findLabel l s (.loop c none s k)
  | .for_ c i s, k => findLabel l s (.loop c i s k)
  | .switch _ s, k => findLabel l s (.switch k)
  | .labeled l' s, k => if l' = l then some (s, k) else findLabel l s k
  | _, _ => none

/-- What is left to do after the first case label of a switch body that `p` accepts, at any
depth outside of inner switches. -/
def findCase (p : CaseLabel → Bool) : Stmt → Cont → Option Cont
  | .seq s t, k => (findCase p s (.seq t k)).or (findCase p t k)
  | .ite _ s t, k => (findCase p s k).or (findCase p t k)
  | .while_ c s, k => findCase p s (.loop c none s k)
  | .doWhile s c, k => findCase p s (.loop c none s k)
  | .for_ c i s, k => findCase p s (.loop c i s k)
  | .labeled _ s, k => findCase p s k
  | .case_ l, k => if p l then some k else none
  | _, _ => none

/-- Where a switch on the value `v` goes on: behind the label that takes the value, else
behind `default`, else behind the switch. -/
def selectCase (K : Constants) (c : ℕ) (v : ℤ) (items : Stmt) (k : Cont) : Cont :=
  ((findCase (fun l => l.Takes K c v) items (.switch k)).or
    (findCase (fun l => l = .default_) items (.switch k))).getD k

/-- `test` is a loop before its condition, `done` the end of the run. -/
inductive Focus where
  | run (s : Stmt) (k : Cont)
  | test (c : ℕ) (incr : Option ℕ) (s : Stmt) (k : Cont)
  | done

structure CState where
  focus : Focus
  trace : Trace

section

variable (K : Constants) (ω : Oracle) (body : Stmt)

/-- The state after the expression `e` is executed and, unless it is `none`, `f` on its
value. -/
def execute (trace : Trace) (e : ℕ) (f : ℤ → Focus) : CState :=
  ⟨f (ω (trace ++ [e])), trace ++ [e]⟩

/-- One step of a function with the given body. -/
def cStep : CState → Option CState
  | ⟨.done, _⟩ => none
  | ⟨.test c i s k, tr⟩ =>
    some (execute ω tr c fun v => if v ≠ 0 then .run s (.loop c i s k) else .run .skip k)
  | ⟨.run s k, tr⟩ =>
    match s with
    | .skip =>
      match k with
      | .stop => some ⟨.done, tr⟩
      | .seq t k => some ⟨.run t k, tr⟩
      | .loop c none s k => some ⟨.test c none s k, tr⟩
      | .loop c (some i) s k => some (execute ω tr i fun _ => .test c (some i) s k)
      | .switch k => some ⟨.run .skip k, tr⟩
    | .expr e => some (execute ω tr e fun _ => .run .skip k)
    | .seq s t => some ⟨.run s (.seq t k), tr⟩
    | .ite c s t => some (execute ω tr c fun v => if v ≠ 0 then .run s k else .run t k)
    | .while_ c s => some ⟨.test c none s k, tr⟩
    | .doWhile s c => some ⟨.run s (.loop c none s k), tr⟩
    | .for_ c i s => some ⟨.test c i s k, tr⟩
    | .switch c items =>
      some (execute ω tr c fun v => .run .skip (selectCase K c v items k))
    | .case_ _ => some ⟨.run .skip k, tr⟩
    | .break_ => k.break_.map fun k => ⟨.run .skip k, tr⟩
    | .continue_ => k.continue_.map fun k => ⟨.run .skip k, tr⟩
    | .goto_ l => (findLabel l body .stop).map fun sk => ⟨.run sk.1 sk.2, tr⟩
    | .labeled _ s => some ⟨.run s k, tr⟩
    | .return_ none => some ⟨.done, tr⟩
    | .return_ (some e) => some (execute ω tr e fun _ => .done)

def cMachine : Machine CState Trace := ⟨cStep K ω body, CState.trace⟩

def cStart : CState := ⟨.run body .stop, []⟩

def CState.Final (s : CState) : Prop := s.focus = .done

end

end OpticC
