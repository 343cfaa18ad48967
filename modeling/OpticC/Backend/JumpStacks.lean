import Mathlib.Algebra.Ring.Int.Defs
import Mathlib.Algebra.Ring.Nat
import Mathlib.Logic.Function.Basic
import Mathlib.Data.List.Basic

/-! The stacks of jump targets and of scopes while statements are lowered. An expression that
fails makes the lowering of its statement return early, and whoever lowers a list of statements
goes on with the next one. -/

namespace OpticC.JumpStacks

open Function

/-- How the lowering of an expression ends: with an error, without a value, or with one. -/
inductive Outcome where
  | error
  | nothing
  | scalar
  | aggregate
  deriving DecidableEq, Repr

namespace Outcome

/-- `lower_expr(..)?` goes on. -/
def succeeds (e : Outcome) : Bool := e ≠ error

/-- The condition of a loop; without a value the loop is entered. -/
def isLoopCondition : Outcome → Bool
  | nothing | scalar => true
  | _ => false

/-- The condition of an `if` -/
def isIfCondition : Outcome → Bool
  | scalar => true
  | _ => false

/-- The condition of a switch; any value but an integer or a pointer counts as 0. -/
def isSwitchCondition : Outcome → Bool
  | scalar | aggregate => true
  | _ => false

end Outcome

/-- A declared variable, with what the lowering of its initializer does. -/
structure Declarator where
  name : String
  binding : ℕ
  init : Outcome
  deriving DecidableEq, Repr

/-- The init of a `for` -/
inductive Init where
  | expr (e : Outcome)
  | decl (ds : List Declarator)
  deriving DecidableEq, Repr

mutual

/-- A statement. What is lowered to an expression and jumps without a stack are `simple`; so is
a case label, for which nothing is done. A part that is left out is `simple .nothing`. -/
inductive Stmt where
  | simple (e : Outcome)
  | break_
  | continue_
  | compound (items : Items)
  | ite (c : Outcome) (thenStmt elseStmt : Stmt)
  | while_ (c : Outcome) (body : Stmt)
  | for_ (init : Init) (c incr : Outcome) (body : Stmt)
  | switch (c : Outcome) (items : Items)
  | labeled (s : Stmt)

/-- The statements and declarations of a block. -/
inductive Items where
  | nil
  | decl (ds : List Declarator) (rest : Items)
  | stmt (s : Stmt) (rest : Items)

end

/-- A scope: the names it has bound, with their bindings before. -/
abbrev Frame := List (String × Option ℕ)

/-- The blocks that C has a `break` and a `continue` go to. -/
structure Targets where
  breakTo : Option ℕ
  continueTo : Option ℕ

/-- The blocks at the end and at the increment of loops and switches are numbered as they are
appended. Each branch is noted with the block that it should go to and the one it goes to. -/
structure State where
  blocks : ℕ
  breakStack : List ℕ
  continueStack : List ℕ
  scopeStack : List Frame
  variables_ : String → Option ℕ
  branches : List (Option ℕ × Option ℕ)

namespace State

def pushScope (σ : State) : State := { σ with scopeStack := [] :: σ.scopeStack }

/-- The bindings from before the scope. -/
def restore (frame : Frame) (variables_ : String → Option ℕ) : String → Option ℕ :=
  fun name => (frame.lookup name).getD (variables_ name)

def popScope (σ : State) : State :=
  match σ.scopeStack with
  | [] => σ
  | frame :: rest => { σ with scopeStack := rest, variables_ := restore frame σ.variables_ }

/-- Only the first overwrite within the scope is saved. -/
def save (name : String) (binding : Option ℕ) : List Frame → List Frame
  | [] => []
  | frame :: rest =>
    (if name ∈ frame.map Prod.fst then frame else (name, binding) :: frame) :: rest

def insertScopedVariable (name : String) (binding : ℕ) (σ : State) : State :=
  { σ with
    scopeStack := save name (σ.variables_ name) σ.scopeStack
    variables_ := update σ.variables_ name (some binding) }

/-- `end_bb` is the block `blocks`, and the one for `continue` comes behind it. -/
def pushLoop (σ : State) : State :=
  { σ with
    blocks := σ.blocks + 2
    breakStack := σ.blocks :: σ.breakStack
    continueStack := (σ.blocks + 1) :: σ.continueStack }

def popLoop (σ : State) : State :=
  { σ with breakStack := σ.breakStack.tail, continueStack := σ.continueStack.tail }

def pushSwitch (σ : State) : State :=
  { σ with blocks := σ.blocks + 1, breakStack := σ.blocks :: σ.breakStack }

def popSwitch (σ : State) : State := { σ with breakStack := σ.breakStack.tail }

/-- The tops of the stacks. -/
def targets (σ : State) : Targets := ⟨σ.breakStack.head?, σ.continueStack.head?⟩

/-- `lower_break_continue`, which does nothing when the stack is empty. -/
def lowerBreakContinue (target : Option ℕ) (stack : List ℕ) (σ : State) : State :=
  { σ with branches := (target, stack.head?) :: σ.branches }

end State

section Lowering

open State

/-- The loop over the declarators in `lower_var_decl`: each is bound before its initializer is
lowered. -/
def lowerVarDecl : List Declarator → State → Bool × State
  | [], σ => (true, σ)
  | d :: ds, σ =>
    let σ := σ.insertScopedVariable d.name d.binding
    if d.init.succeeds then lowerVarDecl ds σ else (false, σ)

def lowerInit : Init → State → Bool × State
  | .expr e, σ => (e.succeeds, σ)
  | .decl ds, σ => lowerVarDecl ds σ

mutual

/-- `lower_stmt`: whether it returns `Ok`, and what it leaves. -/
def lowerStmt : Targets → Stmt → State → Bool × State
  | _, .simple e, σ => (e.succeeds, σ)
  | own, .break_, σ => (true, σ.lowerBreakContinue own.breakTo σ.breakStack)
  | own, .continue_, σ => (true, σ.lowerBreakContinue own.continueTo σ.continueStack)
  | own, .compound items, σ => (true, (lowerItems own items σ.pushScope).popScope)
  | own, .ite c thenStmt elseStmt, σ =>
    if c.isIfCondition then
      let (ok, σ) := lowerStmt own thenStmt σ
      if ok then lowerStmt own elseStmt σ else (false, σ)
    else (false, σ)
  -- both loops: the condition is lowered before the body
  | _, .while_ c body, σ =>
    let own := ⟨some σ.blocks, some (σ.blocks + 1)⟩
    let σ := σ.pushLoop
    if c.isLoopCondition then (true, (lowerStmt own body σ).2.popLoop) else (false, σ)
  | _, .for_ init c incr body, σ =>
    let (ok, σ) := lowerInit init σ
    if ok then
      let own := ⟨some σ.blocks, some (σ.blocks + 1)⟩
      let σ := σ.pushLoop
      if c.isLoopCondition then
        let σ := (lowerStmt own body σ).2
        if incr.succeeds then (true, σ.popLoop) else (false, σ)
      else (false, σ)
    else (false, σ)
  | own, .switch c items, σ =>
    if c.isSwitchCondition then
      let own := ⟨some σ.blocks, own.continueTo⟩
      (true, (lowerItems own items σ.pushSwitch.pushScope).popScope.popSwitch)
    else (false, σ)
  | own, .labeled s, σ => lowerStmt own s σ

/-- The loop in `lower_compound` and in the second pass over a switch body. -/
def lowerItems : Targets → Items → State → State
  | _, .nil, σ => σ
  | own, .decl ds rest, σ => lowerItems own rest (lowerVarDecl ds σ).2
  | own, .stmt s rest, σ => lowerItems own rest (lowerStmt own s σ).2

end

end Lowering

section Conditions

def Init.succeeds : Init → Bool
  | .expr e => e.succeeds
  | .decl ds => ds.all fun d => d.init.succeeds

/-- The lowering of the statement returns `Ok`. -/
def Stmt.succeeds : Stmt → Bool
  | .simple e => e.succeeds
  | .ite c s t => c.isIfCondition && s.succeeds && t.succeeds
  | .while_ c _ => c.isLoopCondition
  | .for_ init c incr _ => init.succeeds && c.isLoopCondition && incr.succeeds
  | .switch c _ => c.isSwitchCondition
  | .labeled s => s.succeeds
  | _ => true

/-- The names that are bound until an initializer fails. -/
def boundBy : List Declarator → List String
  | [] => []
  | d :: ds => d.name :: if d.init.succeeds then boundBy ds else []

def Init.bound : Init → List String
  | .expr _ => []
  | .decl ds => boundBy ds

mutual

/-- No condition and no increment of a loop fails that is lowered. -/
def Stmt.Clean : Stmt → Prop
  | .compound items => items.Clean
  | .ite c s t => c.isIfCondition → s.Clean ∧ (s.succeeds → t.Clean)
  | .while_ c body => c.isLoopCondition ∧ body.Clean
  | .for_ init c incr body => init.succeeds → c.isLoopCondition ∧ incr.succeeds ∧ body.Clean
  | .switch c items => c.isSwitchCondition → items.Clean
  | .labeled s => s.Clean
  | _ => True

def Items.Clean : Items → Prop
  | .nil => True
  | .decl _ rest => rest.Clean
  | .stmt s rest => s.Clean ∧ rest.Clean

end

mutual

/-- The names that a statement binds in the scope it stands in: those in the init of a `for`
that is no block's. -/
def Stmt.bound : Stmt → List String
  | .ite c s t =>
    if c.isIfCondition then s.bound ++ if s.succeeds then t.bound else [] else []
  | .while_ c body => if c.isLoopCondition then body.bound else []
  | .for_ init c _ body =>
    init.bound ++ if init.succeeds && c.isLoopCondition then body.bound else []
  | .labeled s => s.bound
  | _ => []

def Items.bound : Items → List String
  | .nil => []
  | .decl ds rest => boundBy ds ++ rest.bound
  | .stmt s rest => s.bound ++ rest.bound

end

/-- The names are bound in the scope at hand already, if there is one. -/
def BoundBefore (names : List String) (scopes : List Frame) : Prop :=
  ∀ frame ∈ scopes.head?, ∀ name ∈ names, name ∈ frame.map Prod.fst

/-- Behind the statement the stacks are as before, and each `break` and `continue` in it goes
where it should. -/
structure Balanced (s : Stmt) (σ : State) : Prop where
  breakStack : (lowerStmt σ.targets s σ).2.breakStack = σ.breakStack
  continueStack : (lowerStmt σ.targets s σ).2.continueStack = σ.continueStack
  scopeStack : (lowerStmt σ.targets s σ).2.scopeStack = σ.scopeStack
  branches : ∃ new, (lowerStmt σ.targets s σ).2.branches = new ++ σ.branches ∧ ∀ b ∈ new, b.1 = b.2

end Conditions

section JumpTargets

/-- As many targets are left on both stacks. -/
def Left (n : ℕ) (σ σ' : State) : Prop :=
  ∃ xs ys, σ'.breakStack = xs ++ σ.breakStack ∧ σ'.continueStack = ys ++ σ.continueStack ∧
    xs.length = n ∧ ys.length = n

theorem Left.refl (σ : State) : Left 0 σ σ := ⟨[], [], rfl, rfl, rfl, rfl⟩

theorem Left.trans {m n : ℕ} {a b c : State} (h : Left m a b) (h' : Left n b c) :
    Left (m + n) a c := by
  obtain ⟨xs, ys, hx, hy, hxs, hys⟩ := h
  obtain ⟨xs', ys', hx', hy', hxs', hys'⟩ := h'
  refine ⟨xs' ++ xs, ys' ++ ys, ?_, ?_, ?_, ?_⟩
  · rw [hx', hx, List.append_assoc]
  · rw [hy', hy, List.append_assoc]
  · rw [List.length_append]
    omega
  · rw [List.length_append]
    omega

/-- The stacks are those of other states. -/
theorem Left.congr {n : ℕ} {a b c d : State} (h : Left n a b) (hb : c.breakStack = a.breakStack)
    (hc : c.continueStack = a.continueStack) (hb' : d.breakStack = b.breakStack)
    (hc' : d.continueStack = b.continueStack) : Left n c d := by
  unfold Left
  rw [hb, hc, hb', hc']
  exact h

theorem left_tail {α : Type} (xs : List α) (x : α) (old : List α) :
    ∃ ys, (xs ++ x :: old).tail = ys ++ old ∧ ys.length = xs.length := by
  cases xs with
  | nil => exact ⟨[], rfl, rfl⟩
  | cons y xs =>
    refine ⟨xs ++ [x], ?_, ?_⟩
    · rw [List.cons_append, List.tail_cons, List.append_assoc]
      rfl
    · rw [List.length_append]
      rfl

/-- What a body leaves stays under the target that is popped in its place. -/
theorem Left.popLoop {n : ℕ} {a b : State} (h : Left n a.pushLoop b) : Left n a b.popLoop := by
  obtain ⟨xs, ys, hx, hy, hxs, hys⟩ := h
  obtain ⟨xs', hx', hxs'⟩ := left_tail xs a.blocks a.breakStack
  obtain ⟨ys', hy', hys'⟩ := left_tail ys (a.blocks + 1) a.continueStack
  refine ⟨xs', ys', ?_, ?_, hxs'.trans hxs, hys'.trans hys⟩
  · show b.breakStack.tail = _
    rw [hx]
    exact hx'
  · show b.continueStack.tail = _
    rw [hy]
    exact hy'

theorem Left.popSwitch {n : ℕ} {a b : State} (h : Left n a.pushSwitch b) :
    Left n a b.popSwitch := by
  obtain ⟨xs, ys, hx, hy, hxs, hys⟩ := h
  obtain ⟨xs', hx', hxs'⟩ := left_tail xs a.blocks a.breakStack
  refine ⟨xs', ys, ?_, hy, hxs'.trans hxs, hys⟩
  show b.breakStack.tail = _
  rw [hx]
  exact hx'

theorem left_pushLoop (σ : State) : Left 1 σ σ.pushLoop :=
  ⟨[σ.blocks], [σ.blocks + 1], rfl, rfl, rfl, rfl⟩

mutual

/-- The targets that a statement leaves behind. -/
def Stmt.leaks : Stmt → ℕ
  | .compound items => items.leaks
  | .ite c s t => if c.isIfCondition then s.leaks + if s.succeeds then t.leaks else 0 else 0
  | .while_ c body => if c.isLoopCondition then body.leaks else 1
  | .for_ init c incr body =>
    if init.succeeds then
      if c.isLoopCondition then if incr.succeeds then body.leaks else 1 + body.leaks else 1
    else 0
  | .switch c items => if c.isSwitchCondition then items.leaks else 0
  | .labeled s => s.leaks
  | _ => 0

def Items.leaks : Items → ℕ
  | .nil => 0
  | .decl _ rest => rest.leaks
  | .stmt s rest => s.leaks + rest.leaks

end

end JumpTargets

section Runs

theorem lowerVarDecl_fst (ds : List Declarator) (σ : State) :
    (lowerVarDecl ds σ).1 = ds.all fun d => d.init.succeeds := by
  induction ds generalizing σ with
  | nil => rfl
  | cons d ds ih =>
    rw [lowerVarDecl, List.all_cons]
    cases d.init.succeeds with
    | true => exact ih _
    | false => rfl

/-- A declaration pushes no target and emits no branch. -/
theorem lowerVarDecl_stacks (ds : List Declarator) (σ : State) :
    (lowerVarDecl ds σ).2.breakStack = σ.breakStack ∧
      (lowerVarDecl ds σ).2.continueStack = σ.continueStack ∧
      (lowerVarDecl ds σ).2.branches = σ.branches := by
  induction ds generalizing σ with
  | nil => exact ⟨rfl, rfl, rfl⟩
  | cons d ds ih =>
    rw [lowerVarDecl]
    cases d.init.succeeds with
    | true => exact ih _
    | false => exact ⟨rfl, rfl, rfl⟩

theorem lowerInit_fst (init : Init) (σ : State) : (lowerInit init σ).1 = init.succeeds := by
  cases init with
  | expr e => rfl
  | decl ds => exact lowerVarDecl_fst ds σ

theorem lowerInit_stacks (init : Init) (σ : State) :
    (lowerInit init σ).2.breakStack = σ.breakStack ∧
      (lowerInit init σ).2.continueStack = σ.continueStack ∧
      (lowerInit init σ).2.branches = σ.branches := by
  cases init with
  | expr e => exact ⟨rfl, rfl, rfl⟩
  | decl ds => exact lowerVarDecl_stacks ds σ

theorem left_lowerInit (init : Init) (σ : State) : Left 0 σ (lowerInit init σ).2 := by
  obtain ⟨hb, hc, -⟩ := lowerInit_stacks init σ
  exact (Left.refl σ).congr rfl rfl hb hc

/-- A scope does not touch the targets. -/
theorem popScope_stacks (σ : State) : σ.popScope.breakStack = σ.breakStack ∧
    σ.popScope.continueStack = σ.continueStack ∧ σ.popScope.branches = σ.branches := by
  unfold State.popScope
  split <;> exact ⟨rfl, rfl, rfl⟩

theorem Left.popScope {n : ℕ} {a b : State} (h : Left n a.pushScope b) : Left n a b.popScope := by
  obtain ⟨hb, hc, -⟩ := popScope_stacks b
  exact h.congr rfl rfl hb hc

section Unfold

variable (own : Targets) (σ : State)

theorem lowerStmt_ite (c : Outcome) (s t : Stmt) : lowerStmt own (.ite c s t) σ =
    if c.isIfCondition then
      if (lowerStmt own s σ).1 then lowerStmt own t (lowerStmt own s σ).2
      else (false, (lowerStmt own s σ).2)
    else (false, σ) := by
  rw [lowerStmt]

theorem lowerStmt_for (init : Init) (c incr : Outcome) (body : Stmt) :
    lowerStmt own (.for_ init c incr body) σ =
      if (lowerInit init σ).1 then
        let σ := (lowerInit init σ).2
        if c.isLoopCondition then
          let body := (lowerStmt ⟨some σ.blocks, some (σ.blocks + 1)⟩ body σ.pushLoop).2
          if incr.succeeds then (true, body.popLoop) else (false, body)
        else (false, σ.pushLoop)
      else (false, (lowerInit init σ).2) := by
  rw [lowerStmt]

end Unfold

mutual

/-- How a statement returns, and how many targets it leaves. -/
theorem left_lowerStmt : ∀ (s : Stmt) (own : Targets) (σ : State),
    (lowerStmt own s σ).1 = s.succeeds ∧ Left s.leaks σ (lowerStmt own s σ).2
  | .simple e, own, σ => ⟨rfl, Left.refl σ⟩
  | .break_, own, σ => ⟨rfl, (Left.refl σ).congr rfl rfl rfl rfl⟩
  | .continue_, own, σ => ⟨rfl, (Left.refl σ).congr rfl rfl rfl rfl⟩
  | .compound items, own, σ => ⟨rfl, (left_lowerItems items own σ.pushScope).popScope⟩
  | .ite c s t, own, σ => by
    obtain ⟨hfst, hs⟩ := left_lowerStmt s own σ
    obtain ⟨hfst', ht⟩ := left_lowerStmt t own (lowerStmt own s σ).2
    rw [lowerStmt_ite, Stmt.succeeds, Stmt.leaks, hfst]
    cases c.isIfCondition with
    | false => exact ⟨rfl, Left.refl σ⟩
    | true =>
      cases s.succeeds with
      | false => exact ⟨rfl, hs⟩
      | true => exact ⟨hfst', hs.trans ht⟩
  | .while_ c body, own, σ => by
    have hbody := (left_lowerStmt body ⟨some σ.blocks, some (σ.blocks + 1)⟩ σ.pushLoop).2
    rw [lowerStmt, Stmt.succeeds, Stmt.leaks]
    cases c.isLoopCondition with
    | false => exact ⟨rfl, left_pushLoop σ⟩
    | true => exact ⟨rfl, hbody.popLoop⟩
  | .for_ init c incr body, own, σ => by
    have hinit := left_lowerInit init σ
    rw [lowerStmt_for, lowerInit_fst, Stmt.succeeds, Stmt.leaks]
    generalize (lowerInit init σ).2 = σ₁ at *
    have hbody := (left_lowerStmt body ⟨some σ₁.blocks, some (σ₁.blocks + 1)⟩ σ₁.pushLoop).2
    cases init.succeeds with
    | false => exact ⟨rfl, hinit⟩
    | true =>
      cases c.isLoopCondition with
      | false => exact ⟨rfl, hinit.trans (left_pushLoop σ₁)⟩
      | true =>
        cases incr.succeeds with
        | false =>
          have hall := (hinit.trans (left_pushLoop σ₁)).trans hbody
          rw [Nat.zero_add] at hall
          exact ⟨rfl, hall⟩
        | true =>
          have hall := hinit.trans hbody.popLoop
          rw [Nat.zero_add] at hall
          exact ⟨rfl, hall⟩
  | .switch c items, own, σ => by
    have hitems := left_lowerItems items ⟨some σ.blocks, own.continueTo⟩ σ.pushSwitch.pushScope
    rw [lowerStmt, Stmt.succeeds, Stmt.leaks]
    cases c.isSwitchCondition with
    | false => exact ⟨rfl, Left.refl σ⟩
    | true => exact ⟨rfl, hitems.popScope.popSwitch⟩
  | .labeled s, own, σ => left_lowerStmt s own σ

theorem left_lowerItems : ∀ (items : Items) (own : Targets) (σ : State),
    Left items.leaks σ (lowerItems own items σ)
  | .nil, own, σ => Left.refl σ
  | .decl ds rest, own, σ => by
    obtain ⟨hb, hc, -⟩ := lowerVarDecl_stacks ds σ
    exact (left_lowerItems rest own (lowerVarDecl ds σ).2).congr hb.symm hc.symm rfl rfl
  | .stmt s rest, own, σ =>
    (left_lowerStmt s own σ).2.trans (left_lowerItems rest own (lowerStmt own s σ).2)

end

mutual

theorem clean_iff : ∀ s : Stmt, s.Clean ↔ s.leaks = 0
  | .simple _ | .break_ | .continue_ => iff_of_true trivial rfl
  | .compound items => cleanItems_iff items
  | .ite c s t => by
    rw [Stmt.Clean, Stmt.leaks, clean_iff s, clean_iff t]
    cases c.isIfCondition <;> cases s.succeeds <;> simp
  | .while_ c body => by
    rw [Stmt.Clean, Stmt.leaks, clean_iff body]
    cases c.isLoopCondition <;> simp
  | .for_ init c incr body => by
    rw [Stmt.Clean, Stmt.leaks, clean_iff body]
    cases init.succeeds <;> cases c.isLoopCondition <;> cases incr.succeeds <;> simp
  | .switch c items => by
    rw [Stmt.Clean, Stmt.leaks, cleanItems_iff items]
    cases c.isSwitchCondition <;> simp
  | .labeled s => clean_iff s

theorem cleanItems_iff : ∀ items : Items, items.Clean ↔ items.leaks = 0
  | .nil => iff_of_true trivial rfl
  | .decl _ rest => cleanItems_iff rest
  | .stmt s rest => by
    rw [Items.Clean, Items.leaks, clean_iff s, cleanItems_iff rest, Nat.add_eq_zero_iff]

end

/-- A statement that leaves no target leaves the stacks as they were. -/
theorem Left.eq {σ σ' : State} (h : Left 0 σ σ') :
    σ'.breakStack = σ.breakStack ∧ σ'.continueStack = σ.continueStack := by
  obtain ⟨xs, ys, hx, hy, hxs, hys⟩ := h
  rw [List.length_eq_zero_iff] at hxs hys
  rw [hx, hy, hxs, hys]
  exact ⟨rfl, rfl⟩

end Runs

section Scopes

/-- The scope at hand has more names, but for those that it has already. -/
def Grows (names : List String) (scopes scopes' : List Frame) : Prop :=
  match scopes with
  | [] => scopes' = []
  | frame :: rest => ∃ new, scopes' = (new ++ frame) :: rest ∧
      (new = [] ↔ ∀ name ∈ names, name ∈ frame.map Prod.fst)

theorem Grows.refl (scopes : List Frame) : Grows [] scopes scopes := by
  cases scopes with
  | nil => exact rfl
  | cons frame rest => exact ⟨[], rfl, iff_of_true rfl nofun⟩

theorem Grows.trans {names names' : List String} {a b c : List Frame} (h : Grows names a b)
    (h' : Grows names' b c) : Grows (names ++ names') a c := by
  cases a with
  | nil =>
    rw [show b = [] from h] at h'
    exact h'
  | cons frame rest =>
    obtain ⟨new, rfl, hnew⟩ := h
    obtain ⟨new', rfl, hnew'⟩ := h'
    refine ⟨new' ++ new, by rw [List.append_assoc], ?_⟩
    rw [List.append_eq_nil_iff, hnew', and_comm, List.forall_mem_append, ← hnew]
    apply and_congr_right
    rintro rfl
    rfl

theorem Grows.eq_iff {names : List String} {a b : List Frame} (h : Grows names a b) :
    b = a ↔ BoundBefore names a := by
  cases a with
  | nil => exact iff_of_true h nofun
  | cons frame rest =>
    obtain ⟨new, rfl, hnew⟩ := h
    have hbound : BoundBefore names (frame :: rest) ↔ new = [] := by
      rw [hnew]
      exact ⟨fun h => h frame rfl, fun h frame' hframe => Option.some.inj hframe ▸ h⟩
    rw [hbound, List.cons.injEq, and_iff_left rfl, List.append_left_eq_self]

theorem grows_save (name : String) (binding : Option ℕ) (scopes : List Frame) :
    Grows [name] scopes (State.save name binding scopes) := by
  cases scopes with
  | nil => exact rfl
  | cons frame rest =>
    rw [State.save]
    split
    · rename_i hmem
      exact ⟨[], rfl, iff_of_true rfl fun x hx => List.mem_singleton.1 hx ▸ hmem⟩
    · rename_i hmem
      refine ⟨[(name, binding)], rfl, iff_of_false (List.cons_ne_nil _ _) ?_⟩
      exact fun h => hmem (h name List.mem_cons_self)

theorem grows_lowerVarDecl (ds : List Declarator) (σ : State) :
    Grows (boundBy ds) σ.scopeStack (lowerVarDecl ds σ).2.scopeStack := by
  induction ds generalizing σ with
  | nil => exact Grows.refl _
  | cons d ds ih =>
    have hsave := grows_save d.name (σ.variables_ d.name) σ.scopeStack
    rw [lowerVarDecl, boundBy]
    cases d.init.succeeds with
    | true => exact hsave.trans (ih (σ.insertScopedVariable d.name d.binding))
    | false => exact hsave

theorem grows_lowerInit (init : Init) (σ : State) :
    Grows init.bound σ.scopeStack (lowerInit init σ).2.scopeStack := by
  cases init with
  | expr e => exact Grows.refl _
  | decl ds => exact grows_lowerVarDecl ds σ

/-- The scope of a block is gone behind it. -/
theorem Grows.popScope {names : List String} {a b : State}
    (h : Grows names a.pushScope.scopeStack b.scopeStack) : b.popScope.scopeStack = a.scopeStack := by
  obtain ⟨new, hnew, -⟩ := h
  unfold State.popScope
  rw [hnew]

mutual

theorem grows_lowerStmt : ∀ (s : Stmt) (own : Targets) (σ : State),
    Grows s.bound σ.scopeStack (lowerStmt own s σ).2.scopeStack
  | .simple _, _, σ => Grows.refl σ.scopeStack
  | .break_, _, σ => Grows.refl σ.scopeStack
  | .continue_, _, σ => Grows.refl σ.scopeStack
  | .compound items, own, σ => by
    have hitems := (grows_lowerItems items own σ.pushScope).popScope
    have hrefl := Grows.refl σ.scopeStack
    rw [← hitems] at hrefl
    rw [← hitems]
    exact hrefl
  | .ite c s t, own, σ => by
    have hs := grows_lowerStmt s own σ
    have ht := grows_lowerStmt t own (lowerStmt own s σ).2
    rw [lowerStmt_ite, Stmt.bound, (left_lowerStmt s own σ).1]
    cases c.isIfCondition with
    | false => exact Grows.refl _
    | true =>
      cases s.succeeds with
      | false => exact hs.trans (Grows.refl _)
      | true => exact hs.trans ht
  | .while_ c body, own, σ => by
    have hbody := grows_lowerStmt body ⟨some σ.blocks, some (σ.blocks + 1)⟩ σ.pushLoop
    rw [lowerStmt, Stmt.bound]
    cases c.isLoopCondition with
    | false => exact Grows.refl _
    | true => exact hbody
  | .for_ init c incr body, own, σ => by
    have hinit := grows_lowerInit init σ
    rw [lowerStmt_for, lowerInit_fst, Stmt.bound]
    generalize (lowerInit init σ).2 = σ₁ at *
    have hbody := grows_lowerStmt body ⟨some σ₁.blocks, some (σ₁.blocks + 1)⟩ σ₁.pushLoop
    cases init.succeeds with
    | false => exact hinit.trans (Grows.refl _)
    | true =>
      cases c.isLoopCondition with
      | false => exact hinit.trans (Grows.refl _)
      | true => cases incr.succeeds <;> exact hinit.trans hbody
  | .switch c items, own, σ => by
    have hitems := (grows_lowerItems items ⟨some σ.blocks, own.continueTo⟩
      σ.pushSwitch.pushScope).popScope
    rw [lowerStmt]
    show Grows [] σ.scopeStack _
    cases c.isSwitchCondition with
    | false => exact Grows.refl _
    | true =>
      show Grows [] σ.scopeStack (State.popScope _).scopeStack
      rw [hitems]
      exact Grows.refl _
  | .labeled s, own, σ => grows_lowerStmt s own σ

theorem grows_lowerItems : ∀ (items : Items) (own : Targets) (σ : State),
    Grows items.bound σ.scopeStack (lowerItems own items σ).scopeStack
  | .nil, _, σ => Grows.refl σ.scopeStack
  | .decl ds rest, own, σ =>
    (grows_lowerVarDecl ds σ).trans (grows_lowerItems rest own (lowerVarDecl ds σ).2)
  | .stmt s rest, own, σ =>
    (grows_lowerStmt s own σ).trans (grows_lowerItems rest own (lowerStmt own s σ).2)

end

end Scopes

section Branches

/-- The branches that are new go where they should. -/
def RightBranches (σ σ' : State) : Prop :=
  ∃ new, σ'.branches = new ++ σ.branches ∧ ∀ b ∈ new, b.1 = b.2

theorem RightBranches.of_eq {σ σ' : State} (h : σ'.branches = σ.branches) : RightBranches σ σ' :=
  ⟨[], h, nofun⟩

theorem RightBranches.trans {a b c : State} (h : RightBranches a b) (h' : RightBranches b c) :
    RightBranches a c := by
  obtain ⟨new, hb, hnew⟩ := h
  obtain ⟨new', hc, hnew'⟩ := h'
  refine ⟨new' ++ new, by rw [hc, hb, List.append_assoc], ?_⟩
  intro x hx
  exact (List.mem_append.1 hx).elim (hnew' x) (hnew x)

theorem targets_eq {σ σ' : State} (h : Left 0 σ σ') : σ'.targets = σ.targets := by
  obtain ⟨hb, hc⟩ := h.eq
  unfold State.targets
  rw [hb, hc]

mutual

theorem right_lowerStmt : ∀ (s : Stmt) (own : Targets) (σ : State), s.Clean → own = σ.targets →
    RightBranches σ (lowerStmt own s σ).2
  | .simple _, _, _, _, _ => RightBranches.of_eq rfl
  | .break_, own, σ, _, hown => by
    refine ⟨[(own.breakTo, σ.breakStack.head?)], rfl, ?_⟩
    intro b hb
    rw [List.mem_singleton.1 hb, hown]
    rfl
  | .continue_, own, σ, _, hown => by
    refine ⟨[(own.continueTo, σ.continueStack.head?)], rfl, ?_⟩
    intro b hb
    rw [List.mem_singleton.1 hb, hown]
    rfl
  | .compound items, own, σ, h, hown =>
    (right_lowerItems items own σ.pushScope h hown).trans
      (RightBranches.of_eq (popScope_stacks _).2.2)
  | .ite c s t, own, σ, h, hown => by
    obtain ⟨hfst, hleft⟩ := left_lowerStmt s own σ
    rw [lowerStmt_ite, hfst]
    cases hc : c.isIfCondition with
    | false => exact RightBranches.of_eq rfl
    | true =>
      obtain ⟨hs, ht⟩ := h hc
      have hright := right_lowerStmt s own σ hs hown
      rw [(clean_iff s).1 hs] at hleft
      cases hok : s.succeeds with
      | false => exact hright
      | true =>
        exact hright.trans (right_lowerStmt t own _ (ht hok) (hown.trans (targets_eq hleft).symm))
  | .while_ c body, own, σ, h, hown => by
    obtain ⟨hc, hbody⟩ := h
    have hright := right_lowerStmt body ⟨some σ.blocks, some (σ.blocks + 1)⟩ σ.pushLoop hbody rfl
    rw [lowerStmt, if_pos hc]
    exact hright
  | .for_ init c incr body, own, σ, h, hown => by
    have hinit : RightBranches σ (lowerInit init σ).2 :=
      RightBranches.of_eq (lowerInit_stacks init σ).2.2
    rw [lowerStmt_for, lowerInit_fst]
    generalize (lowerInit init σ).2 = σ₁ at *
    cases hok : init.succeeds with
    | false => exact hinit
    | true =>
      obtain ⟨hc, hincr, hbody⟩ := h hok
      have hright := right_lowerStmt body ⟨some σ₁.blocks, some (σ₁.blocks + 1)⟩ σ₁.pushLoop hbody rfl
      simp only [hc, hincr, if_true]
      exact hinit.trans hright
  | .switch c items, own, σ, h, hown => by
    rw [lowerStmt]
    cases hc : c.isSwitchCondition with
    | false => exact RightBranches.of_eq rfl
    | true =>
      have hitems := right_lowerItems items ⟨some σ.blocks, own.continueTo⟩ σ.pushSwitch.pushScope
        (h hc) (by rw [hown]; rfl)
      have hpop := (popScope_stacks (lowerItems ⟨some σ.blocks, own.continueTo⟩ items
        σ.pushSwitch.pushScope)).2.2
      exact hitems.trans (RightBranches.of_eq hpop)
  | .labeled s, own, σ, h, hown => right_lowerStmt s own σ h hown

theorem right_lowerItems : ∀ (items : Items) (own : Targets) (σ : State), items.Clean →
    own = σ.targets → RightBranches σ (lowerItems own items σ)
  | .nil, _, _, _, _ => RightBranches.of_eq rfl
  | .decl ds rest, own, σ, h, hown => by
    obtain ⟨hb, hc, hbranches⟩ := lowerVarDecl_stacks ds σ
    have htargets : (lowerVarDecl ds σ).2.targets = σ.targets := by
      unfold State.targets
      rw [hb, hc]
    exact (RightBranches.of_eq hbranches).trans
      (right_lowerItems rest own _ h (hown.trans htargets.symm))
  | .stmt s rest, own, σ, h, hown => by
    have hleft := (left_lowerStmt s own σ).2
    rw [(clean_iff s).1 h.1] at hleft
    exact (right_lowerStmt s own σ h.1 hown).trans
      (right_lowerItems rest own _ h.2 (hown.trans (targets_eq hleft).symm))

end

end Branches

/-- The stacks are as before exactly when no condition and no increment of a loop fails, and the
init of a `for` binds no new name in the scope around it. -/
theorem balanced_iff (s : Stmt) (σ : State) :
    Balanced s σ ↔ s.Clean ∧ BoundBefore s.bound σ.scopeStack := by
  have hleft := (left_lowerStmt s σ.targets σ).2
  have hgrows := grows_lowerStmt s σ.targets σ
  constructor
  · intro h
    refine ⟨?_, hgrows.eq_iff.1 h.scopeStack⟩
    obtain ⟨xs, -, hx, -, hxs, -⟩ := hleft
    rw [h.breakStack, List.self_eq_append_left] at hx
    rw [clean_iff, ← hxs, hx]
    rfl
  · rintro ⟨hclean, hbound⟩
    rw [(clean_iff s).1 hclean] at hleft
    obtain ⟨hb, hc⟩ := hleft.eq
    exact ⟨hb, hc, hgrows.eq_iff.2 hbound, right_lowerStmt s σ.targets σ hclean rfl⟩

/-- In front of the body of a function -/
def State.entry : State := ⟨0, [], [], [], fun _ => none, []⟩

/-- `{ while (1) { while (++(*p).n < 3) ; break; } }`, where the inner condition fails: there is no
lvalue for `(*p).n`. -/
def failingLoop : Stmt := .compound (.stmt (.while_ .scalar (.compound
  (.stmt (.while_ .error (.simple .nothing)) (.stmt .break_ .nil)))) .nil)

/-- The `break` goes to the end of the inner loop, and a target is left on both stacks. -/
theorem not_balanced_failingLoop : ¬Balanced failingLoop State.entry := by
  intro h
  exact absurd h.breakStack (by decide)

end OpticC.JumpStacks
