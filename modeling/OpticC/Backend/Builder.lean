import OpticC.Statement.Semantics

/-! The function under construction: basic blocks of instructions and one insertion
point. The instructions of an expression are one `eval`, which may stand for none. -/

namespace OpticC

/-- A block is known by its number or, when it belongs to a label, by the label. -/
inductive BlockId where
  | num (n : ℕ)
  | label (name : String)
  deriving DecidableEq, Repr

inductive Instr where
  | eval (e : ℕ)
  | br (target : BlockId)
  | condBr (e : ℕ) (onTrue onFalse : BlockId)
  | switch (e : ℕ) (otherwise : BlockId) (cases : List (ℕ × BlockId))
  | ret
  | unreachable
  deriving DecidableEq, Repr

/-- What the lowering of statements needs to know of the lowering of expressions, which
is taken to succeed and to add no blocks: whether an expression emits instructions, the
type whose values the LLVM value stands for, and the constants. -/
structure Expressions extends Constants where
  emits : ℕ → Bool
  type : ℕ → IntType
  embeds : ∀ e, (type e).Embeds (promoted e)

/-- Expressions of type `int` that all emit instructions; the constants are 0. -/
def intExpressions : Expressions where
  value _ := 0
  promoted _ := ⟨true, 32, thirtyTwo_pos⟩
  emits _ := true
  type _ := ⟨true, 32, thirtyTwo_pos⟩
  embeds _ := ⟨Nat.le_refl _, fun _ hv => hv⟩

/-- The width of the LLVM value. -/
def Expressions.width (E : Expressions) (e : ℕ) : ℕ := (E.type e).width

namespace Instr

def isTerminator : Instr → Bool
  | eval _ => false
  | _ => true

/-- An expression may have been folded to a constant. -/
def isReal (E : Expressions) : Instr → Bool
  | eval e => E.emits e
  | _ => true

def targets : Instr → List BlockId
  | br t => [t]
  | condBr _ t f => [t, f]
  | switch _ d cases => d :: cases.map Prod.snd
  | _ => []

end Instr

/-- `get_terminator`: the last instruction, when it is a terminator. -/
def hasTerminator (E : Expressions) (code : List Instr) : Bool :=
  (code.filter (Instr.isReal E)).getLast?.any Instr.isTerminator

structure Builder where
  code : BlockId → List Instr
  /-- The numbered blocks are those below `count`. -/
  count : ℕ
  /-- The labels that have a block, `label_blocks`. -/
  labels : List String
  insert : BlockId
  breakStack : List BlockId
  continueStack : List BlockId

namespace Builder

def ids (b : Builder) : List BlockId :=
  (List.range b.count).map .num ++ b.labels.map .label

def emit (b : Builder) (i : Instr) : Builder :=
  { b with code := fun id => if id = b.insert then b.code id ++ [i] else b.code id }

def positionAtEnd (b : Builder) (id : BlockId) : Builder := { b with insert := id }

/-- `append_basic_block`; the new block is `num b.count`. -/
def appendBasicBlock (b : Builder) : Builder :=
  { b with
    code := fun id => if id = .num b.count then [] else b.code id
    count := b.count + 1 }

/-- The block of a label, made (and empty) when it is first asked for. -/
def labelBlock (b : Builder) (l : String) : Builder :=
  { b with labels := if b.labels.contains l then b.labels else l :: b.labels }

/-- The insertion block ends in a terminator. -/
def closed (E : Expressions) (b : Builder) : Bool := hasTerminator E (b.code b.insert)

/-- A branch to `target`, unless the block has its terminator. -/
def branchIfOpen (E : Expressions) (b : Builder) (target : BlockId) : Builder :=
  if b.closed E then b else b.emit (.br target)

def pushBreak (b : Builder) (id : BlockId) : Builder :=
  { b with breakStack := id :: b.breakStack }

def pushContinue (b : Builder) (id : BlockId) : Builder :=
  { b with continueStack := id :: b.continueStack }

def popBreak (b : Builder) : Builder := { b with breakStack := b.breakStack.tail }

def popContinue (b : Builder) : Builder := { b with continueStack := b.continueStack.tail }

/-- The break and the continue targets. -/
def exits (b : Builder) : List BlockId × List BlockId := (b.breakStack, b.continueStack)

variable (b : Builder) (i : Instr) (id : BlockId) (l : String)

@[simp] theorem emit_count : (b.emit i).count = b.count := rfl
@[simp] theorem positionAtEnd_count : (b.positionAtEnd id).count = b.count := rfl
@[simp] theorem appendBasicBlock_count : b.appendBasicBlock.count = b.count + 1 := rfl
@[simp] theorem pushBreak_count : (b.pushBreak id).count = b.count := rfl
@[simp] theorem pushContinue_count : (b.pushContinue id).count = b.count := rfl
@[simp] theorem popBreak_count : b.popBreak.count = b.count := rfl
@[simp] theorem popContinue_count : b.popContinue.count = b.count := rfl

@[simp] theorem emit_exits : (b.emit i).exits = b.exits := rfl
@[simp] theorem positionAtEnd_exits : (b.positionAtEnd id).exits = b.exits := rfl
@[simp] theorem appendBasicBlock_exits : b.appendBasicBlock.exits = b.exits := rfl
@[simp] theorem labelBlock_exits : (b.labelBlock l).exits = b.exits := rfl
@[simp] theorem pushBreak_exits : (b.pushBreak id).exits = (id :: b.exits.1, b.exits.2) := rfl
@[simp] theorem pushContinue_exits :
    (b.pushContinue id).exits = (b.exits.1, id :: b.exits.2) := rfl
@[simp] theorem popBreak_exits : b.popBreak.exits = (b.exits.1.tail, b.exits.2) := rfl
@[simp] theorem popContinue_exits : b.popContinue.exits = (b.exits.1, b.exits.2.tail) := rfl

@[simp]
theorem branchIfOpen_exits (E : Expressions) : (b.branchIfOpen E id).exits = b.exits := by
  unfold branchIfOpen
  split_ifs <;> rfl

@[simp]
theorem branchIfOpen_count (E : Expressions) : (b.branchIfOpen E id).count = b.count := by
  unfold branchIfOpen
  split_ifs <;> rfl

end Builder

end OpticC
