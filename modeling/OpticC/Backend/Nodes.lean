import OpticC.Backend.Lowering

/-! The lowering of statements as the code does it, node by node over the arena. -/

namespace OpticC

open Builder

/-- The builder behind a statement, and whether `Ok` was returned; nothing when the fuel
runs out. -/
abbrev Lowered := Option (Builder × Bool)

namespace Lowered

/-- The `?` operator. -/
def andThen (r : Lowered) (f : Builder → Lowered) : Lowered :=
  r.bind fun s => if s.2 then f s.1 else some s

/-- `let _ =`. -/
def ignored (r : Lowered) : Option Builder := r.map Prod.fst

end Lowered

section Functions

variable (E : Expressions) (a : Arena) (stmt : ℕ → Builder → Lowered)

/-- The statement at an offset that may be null. -/
def lowerOptionalStmt (off : ℕ) (b : Builder) : Lowered :=
  if off = 0 then some (b, true) else stmt off b

/-- The children of `lower_compound` and the loop over a body in `lower_func_def`. -/
def lowerChain : ℕ → ℕ → Builder → Option Builder
  | 0, _, _ => none
  | fuel + 1, off, b =>
    if off = 0 then some b
    else match a.get off with
      | none => some b
      | some child => (stmt off b).ignored.bind (lowerChain fuel child.nextSibling)

def lowerIfStmt (node : CAstNode) (b : Builder) : Lowered :=
  let condOffset := ((a.get node.firstChild).map CAstNode.firstChild).getD 0
  let bodyWrap := a.get (((a.get node.firstChild).map CAstNode.nextSibling).getD 0)
  let thenOffset := (bodyWrap.map CAstNode.firstChild).getD 0
  let elseOffset := (bodyWrap.map CAstNode.nextSibling).getD 0
  if condOffset = 0 then some (b, false)
  else
    let b := lowerExpr condOffset b
    let thenB := BlockId.num b.count
    let elseB := BlockId.num (b.count + 1)
    let mergeB := BlockId.num (b.count + 2)
    let b := b.appendBasicBlock.appendBasicBlock.appendBasicBlock.emit
      (.condBr condOffset thenB elseB)
    (lowerOptionalStmt stmt thenOffset (b.positionAtEnd thenB)).andThen fun b =>
    (lowerOptionalStmt stmt elseOffset ((b.branchIfOpen E mergeB).positionAtEnd elseB)).andThen
      fun b => some ((b.branchIfOpen E mergeB).positionAtEnd mergeB, true)

/-- The condition of a loop; without one the body is next. -/
def lowerTest (condOffset : ℕ) (bodyB endB : BlockId) (b : Builder) : Builder :=
  if condOffset = 0 then b.emit (.br bodyB)
  else (lowerExpr condOffset b).emit (.condBr condOffset bodyB endB)

def lowerWhileStmt (node : CAstNode) (b : Builder) : Lowered :=
  let isDoWhile := decide (node.data = 1)
  let first := a.get node.firstChild
  let condOffset := if isDoWhile then (first.map CAstNode.nextSibling).getD 0
    else (first.map CAstNode.firstChild).getD 0
  let bodyOffset := if isDoWhile then node.firstChild
    else (first.map CAstNode.nextSibling).getD 0
  let condB := BlockId.num b.count
  let bodyB := BlockId.num (b.count + 1)
  let endB := BlockId.num (b.count + 2)
  let b := b.appendBasicBlock.appendBasicBlock.appendBasicBlock
  let b := ((b.pushBreak endB).pushContinue condB).emit (.br (if isDoWhile then bodyB else condB))
  let b := lowerTest condOffset bodyB endB (b.positionAtEnd condB)
  (lowerOptionalStmt stmt bodyOffset (b.positionAtEnd bodyB)).ignored.bind fun b =>
    some ((b.branchIfOpen E condB).popBreak.popContinue.positionAtEnd endB, true)

def lowerForStmt (node : CAstNode) (b : Builder) : Lowered :=
  let initWrap := a.get node.firstChild
  let initOffset := (initWrap.map CAstNode.firstChild).getD 0
  let condWrap := a.get ((initWrap.map CAstNode.nextSibling).getD 0)
  let condOffset := (condWrap.map CAstNode.firstChild).getD 0
  let incrWrap := a.get ((condWrap.map CAstNode.nextSibling).getD 0)
  let incrOffset := (incrWrap.map CAstNode.firstChild).getD 0
  let bodyOffset := (incrWrap.map CAstNode.nextSibling).getD 0
  (lowerOptionalStmt stmt initOffset b).andThen fun b =>
  let condB := BlockId.num b.count
  let incrB := BlockId.num (b.count + 1)
  let bodyB := BlockId.num (b.count + 2)
  let endB := BlockId.num (b.count + 3)
  let b := b.appendBasicBlock.appendBasicBlock.appendBasicBlock.appendBasicBlock
  let b := ((b.pushBreak endB).pushContinue incrB).emit (.br condB)
  let b := lowerTest condOffset bodyB endB (b.positionAtEnd condB)
  (lowerOptionalStmt stmt bodyOffset (b.positionAtEnd bodyB)).ignored.bind fun b =>
    let b := (b.branchIfOpen E incrB).positionAtEnd incrB
    let b := (if incrOffset = 0 then b else lowerExpr incrOffset b).branchIfOpen E condB
    some (b.popBreak.popContinue.positionAtEnd endB, true)

/-- The first pass over the children of a switch body, with the blocks of the labels by
their offsets. A case constant is folded, so its lowering emits nothing. -/
def collectCases (c : ℕ) (otherwise : BlockId) : ℕ → ℕ → Builder →
    Option ((List (ℕ × BlockId) × List (ℕ × BlockId) × Bool) × Builder)
  | 0, _, _ => none
  | fuel + 1, off, b =>
    if off = 0 then some (([], [], false), b)
    else match a.get off with
      | none => some (([], [], false), b)
      | some child =>
        let block := BlockId.num b.count
        if child.kind = 52 then
          (collectCases c otherwise fuel child.nextSibling b.appendBasicBlock).map fun r =>
            (((if child.firstChild = 0 then []
              else (caseValues E c (.value child.firstChild)).map (·, block)) ++ r.1.1,
              (off, block) :: r.1.2.1, r.1.2.2), r.2)
        else if child.kind = 54 then
          (collectCases c otherwise fuel child.nextSibling b.appendBasicBlock).map fun r =>
            (((if child.firstChild = 0 ∨ child.data = 0 then []
              else (caseValues E c (.range child.firstChild child.data)).map (·, block)) ++ r.1.1,
              (off, block) :: r.1.2.1, r.1.2.2), r.2)
        else if child.kind = 53 then
          (collectCases c otherwise fuel child.nextSibling b).map fun r =>
            ((r.1.1, (off, otherwise) :: r.1.2.1, true), r.2)
        else collectCases c otherwise fuel child.nextSibling b

/-- The second pass: at a label the insertion point moves to its block. -/
def lowerItems (blockOf : List (ℕ × BlockId)) : ℕ → ℕ → Builder → Option Builder
  | 0, _, _ => none
  | fuel + 1, off, b =>
    if off = 0 then some b
    else match a.get off with
      | none => some b
      | some child =>
        match blockOf.lookup off with
        | some block =>
          lowerItems blockOf fuel child.nextSibling ((b.branchIfOpen E block).positionAtEnd block)
        | none => (stmt off b).ignored.bind (lowerItems blockOf fuel child.nextSibling)

/-- The first child of a switch body; a body that is no block may itself be a label. -/
def switchChildren (bodyOffset : ℕ) : ℕ :=
  match a.get bodyOffset with
  | some body => if body.kind = 40 then body.firstChild else bodyOffset
  | none => 0

def lowerSwitchStmt (fuel : ℕ) (node : CAstNode) (b : Builder) : Lowered :=
  let condOffset := ((a.get node.firstChild).map CAstNode.firstChild).getD 0
  let bodyOffset := ((a.get node.firstChild).map CAstNode.nextSibling).getD 0
  if condOffset = 0 then some (b, false)
  else
    let b := lowerExpr condOffset b
    let endB := BlockId.num b.count
    let otherwise := BlockId.num (b.count + 1)
    let first := switchChildren a bodyOffset
    (collectCases E a condOffset otherwise fuel first
      b.appendBasicBlock.appendBasicBlock).bind fun r =>
    let found : SwitchLabels := ⟨r.1.1, r.1.2.1.map Prod.snd, r.1.2.2⟩
    let b := (r.2.emit (.switch condOffset otherwise (dedupCases found.cases))).pushBreak endB
    (lowerItems E a stmt r.1.2.1 fuel first b).bind fun b =>
    some ((closeSwitch E found otherwise endB (b.branchIfOpen E endB)).popBreak.positionAtEnd endB,
      true)

/-- A computed goto is left to `other`. -/
def lowerGotoStmt (other : CAstNode → Builder → Builder × Bool) (node : CAstNode) (b : Builder) :
    Lowered :=
  if node.data ≠ 0 then
    let label := (a.getString node.data).getD ""
    if label = "" then some (b, true)
    else some ((b.labelBlock label).emit (.br (.label label)), true)
  else if node.firstChild ≠ 0 then some (other node b)
  else some (b, true)

def lowerLabeledStmt (node : CAstNode) (b : Builder) : Lowered :=
  let label := if node.data ≠ 0 then (a.getString node.data).getD "" else ""
  let b := if label = "" then b
    else ((b.labelBlock label).branchIfOpen E (.label label)).positionAtEnd (.label label)
  lowerOptionalStmt stmt node.firstChild b

def lowerBreakContinue (node : CAstNode) (b : Builder) : Builder :=
  if node.kind = 46 then branchToTop b.breakStack b else branchToTop b.continueStack b

def lowerReturnStmt (node : CAstNode) (b : Builder) : Builder :=
  (if node.firstChild = 0 then b else lowerExpr node.firstChild b).emit .ret

def lowerExprStmt (node : CAstNode) (b : Builder) : Builder :=
  if node.firstChild = 0 then b else lowerExpr node.firstChild b

end Functions

/-- The kinds of nodes for which there is nothing to emit. -/
def isSilentKind (k : ℕ) : Bool :=
  k == 48 || k == 52 || k == 53 || k == 54 || k == 27 || (1 ≤ k && k ≤ 9) || k == 83 ||
    (90 ≤ k && k ≤ 94) || (101 ≤ k && k ≤ 105) || k == 24 || k == 25 || k == 26 || k == 200 ||
    k == 206

/-- `lower_stmt`. Declarations, inline assembly and nodes that are neither a statement nor
an expression are left to `other`. -/
def lowerStmt (E : Expressions) (a : Arena) (other : CAstNode → Builder → Builder × Bool) :
    ℕ → ℕ → Builder → Lowered
  | 0, _, _ => none
  | fuel + 1, off, b =>
    match a.get off with
    | none => some (b, true)
    | some node =>
      let stmt := lowerStmt E a other fuel
      if node.kind = 40 then (lowerChain a stmt fuel node.firstChild b).map (·, true)
      else if node.kind = 41 then lowerIfStmt E a stmt node b
      else if node.kind = 42 then lowerWhileStmt E a stmt node b
      else if node.kind = 43 then lowerForStmt E a stmt node b
      else if node.kind = 44 then some (lowerReturnStmt node b, true)
      else if node.kind = 45 then some (lowerExprStmt node b, true)
      else if node.kind = 46 ∨ node.kind = 47 then some (lowerBreakContinue node b, true)
      else if node.kind = 49 then lowerGotoStmt a other node b
      else if node.kind = 50 then lowerSwitchStmt E a stmt fuel node b
      else if node.kind = 51 then lowerLabeledStmt E a stmt node b
      else if isSilentKind node.kind then some (b, true)
      else if isExprKind node.kind then some (lowerExpr off b, true)
      else some (other node b)

/-- The body of a function as `lower_func_def` lowers it. -/
def lowerFuncDef (E : Expressions) (a : Arena) (other : CAstNode → Builder → Builder × Bool)
    (scalarReturn : Bool) (fuel body : ℕ) : Option Function :=
  (lowerChain a (lowerStmt E a other fuel) fuel body entry).map (finish E scalarReturn)

end OpticC
