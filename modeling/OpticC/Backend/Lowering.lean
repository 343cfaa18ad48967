import OpticC.Backend.Builder

/-! The lowering of statements to blocks, on the statements that the nodes stand for. -/

namespace OpticC

open Builder

/-- The most values a case range is expanded to. -/
def maxCaseRangeExpansion : ℕ := 256

section Cases

variable (E : Expressions)

/-- The bits of the LLVM constant of an expression, as `get_zero_extended_constant`
gives them. -/
def constantBits (e : ℕ) : ℕ := (BitVec.ofInt (E.width e) (E.value e)).toNat

/-- The bits a label's constant gets in the width of the condition: a narrower one is
sign-extended, a wider one truncated. -/
def caseBits (c e : ℕ) : ℕ :=
  if E.width e < E.width c then
    ((BitVec.ofInt (E.width e) (E.value e)).signExtend (E.width c)).toNat
  else constantBits E e % 2 ^ E.width c

/-- The values a label enters in the switch instruction. -/
def caseValues (c : ℕ) : CaseLabel → List ℕ
  | .value e => [caseBits E c e]
  | .range lo hi =>
    let lo := constantBits E lo
    let hi := constantBits E hi
    let count := if lo ≤ hi then min (hi - lo + 1) maxCaseRangeExpansion else 1
    (List.range count).map fun i => (lo + i) % 2 ^ E.width c
  | .default_ => []

/-- Of several entries with one value the first stays. -/
def dedupCases : List (ℕ × BlockId) → List (ℕ × BlockId)
  | [] => []
  | q :: rest => q :: (dedupCases rest).filter fun r => r.1 ≠ q.1

/-- What the first pass over a switch body finds. -/
structure SwitchLabels where
  cases : List (ℕ × BlockId)
  /-- The blocks of the labels, in their order. -/
  blocks : List BlockId
  hasDefault : Bool

/-- The first pass over a switch body: each case label gets a block, and a default label
the block `otherwise`. -/
def collectLabels (c : ℕ) (otherwise : BlockId) : Stmt → Builder → SwitchLabels × Builder
  | .seq (.case_ .default_) t, b =>
    let (found, b) := collectLabels c otherwise t b
    (⟨found.cases, otherwise :: found.blocks, true⟩, b)
  | .seq (.case_ l) t, b =>
    let block := BlockId.num b.count
    let (found, b) := collectLabels c otherwise t b.appendBasicBlock
    (⟨(caseValues E c l).map (·, block) ++ found.cases, block :: found.blocks,
      found.hasDefault⟩, b)
  | .seq _ t, b => collectLabels c otherwise t b
  | _, b => (⟨[], [], false⟩, b)

end Cases

variable (E : Expressions)

/-- The lowering of an expression to its value. -/
def lowerExpr (e : ℕ) (b : Builder) : Builder := b.emit (.eval e)

@[simp] theorem lowerExpr_count (e : ℕ) (b : Builder) : (lowerExpr e b).count = b.count := rfl

/-- An expression that may be left out. -/
def lowerOptional : Option ℕ → Builder → Builder
  | some e, b => lowerExpr e b
  | none, b => b

/-- `break` and `continue`: a branch to the top of a stack, nothing when it is empty. -/
def branchToTop : List BlockId → Builder → Builder
  | target :: _, b => b.emit (.br target)
  | [], b => b

/-- A terminator for a block that has none. -/
def closeBlock (target : BlockId) (b : Builder) (id : BlockId) : Builder :=
  (b.positionAtEnd id).branchIfOpen E target

/-- The end of a switch: the blocks of the labels and the default block get a
terminator. -/
def closeSwitch (found : SwitchLabels) (otherwise target : BlockId) (b : Builder) : Builder :=
  let b := if found.hasDefault then b else closeBlock E target b otherwise
  found.blocks.foldl (closeBlock E target) b

/-- `lower_while_stmt`, for both loops, given the lowering of the body. -/
def whileLoop (isDoWhile : Bool) (c : ℕ) (body : Builder → Builder) (b : Builder) : Builder :=
  let condB := BlockId.num b.count
  let bodyB := BlockId.num (b.count + 1)
  let endB := BlockId.num (b.count + 2)
  let b := b.appendBasicBlock.appendBasicBlock.appendBasicBlock
  let b := ((b.pushBreak endB).pushContinue condB).emit (.br (if isDoWhile then bodyB else condB))
  let b := (lowerExpr c (b.positionAtEnd condB)).emit (.condBr c bodyB endB)
  let b := (body (b.positionAtEnd bodyB)).branchIfOpen E condB
  b.popBreak.popContinue.positionAtEnd endB

/-- The lowering of a statement. In the body of a switch the items are walked with the
blocks of the labels still to come; elsewhere a case label is nothing. -/
def lower : Option (List BlockId) → Stmt → Builder → Builder
  | some (block :: blocks), .seq (.case_ _) t, b =>
    lower (some blocks) t ((b.branchIfOpen E block).positionAtEnd block)
  | blocks, .seq s t, b => lower blocks t (lower none s b)
  | _, .skip, b => b
  | _, .expr e, b => lowerExpr e b
  | _, .ite c s t, b =>
    let b := lowerExpr c b
    let thenB := BlockId.num b.count
    let elseB := BlockId.num (b.count + 1)
    let mergeB := BlockId.num (b.count + 2)
    let b := b.appendBasicBlock.appendBasicBlock.appendBasicBlock.emit (.condBr c thenB elseB)
    let b := (lower none s (b.positionAtEnd thenB)).branchIfOpen E mergeB
    let b := (lower none t (b.positionAtEnd elseB)).branchIfOpen E mergeB
    b.positionAtEnd mergeB
  | _, .while_ c s, b => whileLoop E false c (lower none s) b
  | _, .doWhile s c, b => whileLoop E true c (lower none s) b
  | _, .for_ c incr s, b =>
    let condB := BlockId.num b.count
    let incrB := BlockId.num (b.count + 1)
    let bodyB := BlockId.num (b.count + 2)
    let endB := BlockId.num (b.count + 3)
    let b := b.appendBasicBlock.appendBasicBlock.appendBasicBlock.appendBasicBlock
    let b := ((b.pushBreak endB).pushContinue incrB).emit (.br condB)
    let b := (lowerExpr c (b.positionAtEnd condB)).emit (.condBr c bodyB endB)
    let b := (lower none s (b.positionAtEnd bodyB)).branchIfOpen E incrB
    let b := b.positionAtEnd incrB
    let b := (lowerOptional incr b).branchIfOpen E condB
    b.popBreak.popContinue.positionAtEnd endB
  | _, .switch c items, b =>
    let b := lowerExpr c b
    let endB := BlockId.num b.count
    let otherwise := BlockId.num (b.count + 1)
    let r := collectLabels E c otherwise items b.appendBasicBlock.appendBasicBlock
    let b := (r.2.emit (.switch c otherwise (dedupCases r.1.cases))).pushBreak endB
    let b := (lower (some r.1.blocks) items b).branchIfOpen E endB
    (closeSwitch E r.1 otherwise endB b).popBreak.positionAtEnd endB
  | _, .case_ _, b => b
  | _, .break_, b => branchToTop b.breakStack b
  | _, .continue_, b => branchToTop b.continueStack b
  | _, .goto_ l, b => (b.labelBlock l).emit (.br (.label l))
  | _, .labeled l s, b =>
    lower none s (((b.labelBlock l).branchIfOpen E (.label l)).positionAtEnd (.label l))
  | _, .return_ e, b => (lowerOptional e b).emit .ret

/-- The builder in front of a body: the entry block, and nothing in it yet. -/
def entry : Builder := ⟨fun _ => [], 1, [], .num 0, [], []⟩

/-- A function as it leaves the builder. -/
structure Function where
  ids : List BlockId
  code : BlockId → List Instr

/-- The default return at the end of a body. -/
def defaultReturn (b : Builder) : Builder := if b.closed E then b else b.emit .ret

/-- A block without a terminator gets one. -/
def terminated (scalarReturn : Bool) (id : BlockId) (code : List Instr) : List Instr :=
  if hasTerminator E code then code
  else if id = .num 0 ∧ scalarReturn then code ++ [.ret]
  else code ++ [.unreachable]

/-- Nothing goes to the block, and it holds `unreachable` only. -/
def isDead (ids : List BlockId) (code : BlockId → List Instr) (id : BlockId) : Bool :=
  id ≠ .num 0 && !(ids.any fun id' => (code id').any fun i => i.targets.contains id) &&
    ((code id).filter (Instr.isReal E)).head? = some .unreachable

/-- The cleanup at the end of `lower_func_def`. The pass after it replaces a `ret` by a
`ret`. -/
def finish (scalarReturn : Bool) (b : Builder) : Function :=
  let b := defaultReturn E b
  let code := fun id => terminated E scalarReturn id (b.code id)
  ⟨b.ids.filter fun id => !isDead E b.ids code id, code⟩

/-- The function that a body becomes. -/
def lowerBody (scalarReturn : Bool) (body : Stmt) : Function :=
  finish E scalarReturn (lower E none body entry)

end OpticC
