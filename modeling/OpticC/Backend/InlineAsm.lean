import Mathlib.Algebra.Ring.Int.Defs
import Mathlib.Algebra.Ring.Nat
import Mathlib.Data.List.Basic
import Mathlib.Tactic.SplitIfs

/-! `lower_asm_stmt` collects the constraints, the arguments and the targets of the results of an
`asm` statement in lists of their own. LLVM pairs them up again by their positions. -/

namespace OpticC.InlineAsm

abbrev Text := List Char

section Languages

/-- A template of C in the form that LLVM expects: `%0` becomes `$0`, `%k0` becomes `${0:k}`, `%%` a
percent sign and a dollar `$$`. -/
def translate : Text → Text
  | [] => []
  | c :: t =>
    if c = '$' then '$' :: '$' :: translate t
    else if c = '%' then
      match t with
      | [] => []
      | d :: t =>
        if d = '%' then '%' :: translate t
        else if d.isDigit then '$' :: d :: translate t
        else '$' :: '\x7b' :: (t.takeWhile Char.isDigit ++
          ':' :: d :: '\x7d' :: translate (t.dropWhile Char.isDigit))
    else c :: translate t
termination_by t => t.length
decreasing_by
  all_goals simp only [List.length_cons]
  · omega
  · omega
  · omega
  · have := (List.dropWhile_suffix Char.isDigit (l := t)).length_le
    omega
  · omega

theorem translate_dollar (t : Text) : translate ('$' :: t) = '$' :: '$' :: translate t := by
  rw [translate.eq_def]
  rfl

theorem translate_percent (t : Text) : translate ('%' :: '%' :: t) = '%' :: translate t := by
  rw [translate.eq_def]
  rfl

theorem translate_ordinary {c : Char} (hd : c ≠ '$') (hp : c ≠ '%') (t : Text) :
    translate (c :: t) = c :: translate t := by
  rw [translate.eq_def]
  simp only [if_neg hd, if_neg hp]

/-- A reference to an operand becomes a dollar. -/
theorem translate_reference {t : Text} (h : t.head? ≠ some '%') :
    translate ('%' :: t) = [] ∨ ∃ r, translate ('%' :: t) = '$' :: r := by
  rw [translate.eq_def]
  cases t with
  | nil => exact .inl rfl
  | cons d t =>
    right
    have hd : d ≠ '%' := fun hd => h (congrArg some hd)
    simp only [if_neg (show ('%' : Char) ≠ '$' by decide), if_true, if_neg hd]
    split_ifs
    · exact ⟨_, rfl⟩
    · exact ⟨_, rfl⟩

theorem ne_replicate_dollar (r : Text) (k : ℕ) :
    r ≠ List.replicate (k + 1) '$' ++ translate r := by
  induction r generalizing k with
  | nil =>
    intro h
    cases h
  | cons c r ih =>
    intro h
    rw [List.replicate_succ, List.cons_append] at h
    obtain ⟨rfl, htail⟩ := List.cons.inj h
    rw [translate_dollar] at htail
    refine ih (k + 1) (htail.trans ?_)
    rw [List.replicate_succ', List.replicate_succ']
    simp

theorem ne_replicate_percent (s : Text) (k : ℕ) :
    translate s ≠ List.replicate (k + 1) '%' ++ s := by
  induction hn : s.length using Nat.strongRecOn generalizing s k with
  | ind n ih =>
    intro h
    rw [List.replicate_succ, List.cons_append] at h
    cases s with
    | nil =>
      rw [translate] at h
      cases h
    | cons c t =>
      by_cases hd : c = '$'
      · subst hd
        rw [translate_dollar] at h
        cases h
      by_cases hp : c = '%'
      · subst hp
        by_cases hhead : t.head? = some '%'
        · cases t with
          | nil => cases hhead
          | cons d t =>
            obtain rfl := Option.some.inj hhead
            rw [translate_percent] at h
            refine ih t.length (by rw [← hn]; simp only [List.length_cons]; omega) t (k + 1) rfl ((List.cons.inj h).2.trans ?_)
            rw [List.replicate_succ', List.replicate_succ']
            simp
        · rcases translate_reference hhead with hnil | ⟨r, hr⟩
          · rw [hnil] at h
            cases h
          · rw [hr] at h
            cases h
      · rw [translate_ordinary hd hp] at h
        exact hp (List.cons.inj h).1

/-- The templates that both languages read the same way have no reference and no dollar. -/
theorem translate_eq_self_iff (t : Text) : translate t = t ↔ '%' ∉ t ∧ '$' ∉ t := by
  induction t with
  | nil => simp [translate]
  | cons c t ih =>
    by_cases hd : c = '$'
    · subst hd
      rw [translate_dollar]
      refine ⟨fun h => ?_, fun h => absurd List.mem_cons_self h.2⟩
      exact absurd (List.cons.inj h).2.symm (ne_replicate_dollar t 0)
    by_cases hp : c = '%'
    · subst hp
      refine ⟨fun h => ?_, fun h => absurd List.mem_cons_self h.1⟩
      by_cases hhead : t.head? = some '%'
      · cases t with
        | nil => cases hhead
        | cons d t =>
          obtain rfl := Option.some.inj hhead
          rw [translate_percent] at h
          exact absurd (List.cons.inj h).2 (ne_replicate_percent t 0)
      · rcases translate_reference hhead with hnil | ⟨r, hr⟩
        · rw [hnil] at h
          cases h
        · rw [hr] at h
          cases h
    · rw [translate_ordinary hd hp, List.cons_inj_right, ih, List.mem_cons, List.mem_cons]
      simp [Ne.symm hd, Ne.symm hp]

/-- The constraints of a call as LLVM reads them -/
def readConstraints (text : Text) : List Text := if text = [] then [] else text.splitOn ','

theorem not_mem_of_mem_splitOn {xs w : Text} {x : Char} (h : w ∈ xs.splitOn x) : x ∉ w := by
  induction xs generalizing w with
  | nil =>
    rw [List.splitOn_nil, List.mem_singleton] at h
    rw [h]
    exact List.not_mem_nil
  | cons c xs ih =>
    rw [List.splitOn_cons_eq_if_modifyHead] at h
    split_ifs at h with hc
    · rcases List.mem_cons.1 h with rfl | h
      · exact List.not_mem_nil
      · exact ih h
    · cases hsplit : xs.splitOn x with
      | nil =>
        rw [hsplit] at h
        cases h
      | cons v vs =>
        rw [hsplit] at h ih
        rcases List.mem_cons.1 h with rfl | h
        · have hv := ih List.mem_cons_self
          have hne : x ≠ c := fun hx => hc (by rw [hx]; exact beq_self_eq_true c)
          simp [hne, hv]
        · exact ih (List.mem_cons_of_mem _ h)

/-- A list of constraints is read back just if no comma is in one of them. -/
theorem readConstraints_iff (pieces : List Text) :
    readConstraints ([','].intercalate pieces) = pieces ↔
      (∀ p ∈ pieces, ',' ∉ p) ∧ pieces ≠ [[]] := by
  unfold readConstraints
  constructor
  · intro h
    split_ifs at h with hnil
    · rw [← h]
      exact ⟨nofun, nofun⟩
    · refine ⟨fun p hp => ?_, ?_⟩
      · rw [← h] at hp
        exact not_mem_of_mem_splitOn hp
      · rintro rfl
        exact hnil rfl
  · rintro ⟨hcomma, hne⟩
    split_ifs with hnil
    · cases pieces with
      | nil => rfl
      | cons p ps =>
        cases ps with
        | nil =>
          rw [List.intercalate_singleton] at hnil
          exact absurd (by rw [hnil]) hne
        | cons q qs =>
          rw [List.intercalate_cons_cons] at hnil
          simp at hnil
    · refine List.splitOn_intercalate ',' hcomma ?_
      rintro rfl
      exact hnil rfl

end Languages

section Lowering

inductive Ty where
  | int (width : ℕ) | float (width : ℕ) | pointer | aggregate
  deriving DecidableEq, Repr

/-- A pointer with the type it points to. -/
structure Lvalue where
  ptr : ℕ
  pointee : Ty
  deriving DecidableEq, Repr

/-- An argument of the call: the value of an input, or what an output holds before it. -/
inductive Arg where
  | value (id : ℕ) (type : Ty)
  | loaded (lvalue : Lvalue)
  deriving DecidableEq, Repr

/-- `lower_expr` and `lower_lvalue_ptr` on the expressions of the operands. -/
structure Operands (ε : Type) where
  lowerExpr : ℕ → Except ε (Option Arg)
  lowerLvaluePtr : ℕ → Except ε (Option Lvalue)

/-- The nodes behind an `asm` node. An operand has the text of its constraint, with the quotes, and
an expression, or `NULL`. -/
inductive AsmNode where
  | output (constraint : Text) (expr : ℕ)
  | input (constraint : Text) (expr : ℕ)
  | clobber (name : Text)
  | gotoLabel (name : Text)
  deriving DecidableEq, Repr

/-- The lists that the loop over the nodes fills. -/
structure Collected where
  outputConstraints : List Text
  inputConstraints : List Text
  clobbers : List Text
  inputValues : List Arg
  outputLvalues : List (Option Lvalue)
  deriving DecidableEq, Repr

/-- `s.strip_prefix('"').and_then(|s| s.strip_suffix('"')).unwrap_or(&s)` -/
def stripQuotes (s : Text) : Text :=
  match s with
  | '"' :: t => if t.getLast? = some '"' then t.dropLast else s
  | _ => s

/-- `s.strip_prefix(c).unwrap_or(&s)` -/
def stripPrefix (c : Char) (s : Text) : Text := if s.head? = some c then s.tail else s

/-- `clean_constraint` of `parse_single_asm_operand` -/
def cleanConstraint (is_output : Bool) (constraint : Text) : Text :=
  if is_output && constraint.head? != some '+' then stripPrefix '=' constraint
  else stripPrefix '+' constraint

def isReadwrite (constraint : Text) : Bool := constraint.head? == some '+'

/-- The constraint that is passed on for an output. -/
def llvmConstraint (constraint : Text) : Text :=
  if isReadwrite constraint then '+' :: stripPrefix '+' constraint
  else '=' :: stripPrefix '=' constraint

variable {ε : Type} (L : Operands ε)

/-- The round of the loop for a node. -/
def collect (c : Collected) : AsmNode → Except ε Collected
  | .output text expr => do
    let constraint := stripQuotes text
    let c := { c with outputConstraints := c.outputConstraints ++ [llvmConstraint constraint] }
    if expr = 0 then return { c with outputLvalues := c.outputLvalues ++ [none] }
    let lvalue ← L.lowerLvaluePtr expr
    let c := { c with outputLvalues := c.outputLvalues ++ [lvalue] }
    match lvalue with
    | some l =>
      if isReadwrite constraint then
        return { c with inputValues := c.inputValues ++ [.loaded l] }
      else return c
    | none => return c
  | .input text expr => do
    let c := { c with inputConstraints := c.inputConstraints ++ [stripQuotes text] }
    if expr = 0 then return c
    match ← L.lowerExpr expr with
    | some value => return { c with inputValues := c.inputValues ++ [value] }
    | none => return c
  | .clobber text =>
    let name := stripQuotes text
    if name = [] then return c
    else return { c with clobbers := c.clobbers ++ [['~', '\x7b'] ++ name ++ ['\x7d']] }
  | .gotoLabel _ => return c

/-- A result is stored with a type. -/
structure Store where
  component : ℕ
  target : Lvalue
  stored : Ty
  deriving DecidableEq, Repr

/-- The call that is emitted, the types of its results and what becomes of them -/
structure AsmCall where
  template : Text
  constraints : Text
  args : List Arg
  results : List Ty
  stores : List Store
  deriving DecidableEq, Repr

/-- The type in which the only result is stored. -/
def castResult (pointee : Ty) : Ty :=
  match pointee with
  | .int w => .int w
  | _ => .int 32

/-- The stores behind the call. Several results are stored as they are extracted. -/
def storeResults (lvalues : List (Option Lvalue)) : List Store :=
  match lvalues with
  | [] => []
  | [lvalue] => lvalue.toList.map fun l => ⟨0, l, castResult l.pointee⟩
  | lvalues => lvalues.zipIdx.filterMap fun (lvalue, i) => lvalue.map fun l => ⟨i, l, .int 32⟩

/-- `lower_asm_stmt` -/
def lowerAsmStmt (template : Text) (nodes : List AsmNode) : Except ε AsmCall := do
  let c ← nodes.foldlM (collect L) ⟨[], [], [], [], []⟩
  return {
    template := stripQuotes template
    constraints := [','].intercalate (c.outputConstraints ++ c.inputConstraints ++ c.clobbers)
    args := c.inputValues
    results := c.outputConstraints.map fun _ => .int 32
    stores := storeResults c.outputLvalues }

end Lowering

section Statements

/-- An operand of the source: the constraint between its quotes, and the expression. -/
structure AsmOperand where
  constraint : Text
  expr : ℕ
  deriving DecidableEq, Repr

structure AsmStmt where
  template : Text
  outputs : List AsmOperand
  inputs : List AsmOperand
  clobbers : List Text
  gotoLabels : List Text
  deriving DecidableEq, Repr

/-- The text of a string literal -/
def literal (s : Text) : Text := '"' :: (s ++ ['"'])

/-- The nodes that `parse_asm_stmt` links for a statement. -/
def AsmStmt.nodes (s : AsmStmt) : List AsmNode :=
  s.outputs.map (fun o => .output (cleanConstraint true (literal o.constraint)) o.expr) ++
    s.inputs.map (fun o => .input (cleanConstraint false (literal o.constraint)) o.expr) ++
    s.clobbers.map (fun name => .clobber (literal name)) ++
    s.gotoLabels.map .gotoLabel

theorem stripQuotes_literal (s : Text) : stripQuotes (literal s) = s := by
  unfold literal stripQuotes
  simp only [List.getLast?_concat, if_true, List.dropLast_concat]

theorem cleanConstraint_literal (is_output : Bool) (s : Text) :
    cleanConstraint is_output (literal s) = literal s := by
  unfold cleanConstraint stripPrefix literal
  cases is_output <;> simp

variable {ε : Type} (L : Operands ε)

def lvalueOf (o : AsmOperand) : Except ε (Option Lvalue) :=
  if o.expr = 0 then .ok none else L.lowerLvaluePtr o.expr

def valueOf (o : AsmOperand) : Except ε (Option Arg) :=
  if o.expr = 0 then .ok none else L.lowerExpr o.expr

/-- What is loaded for the read-write outputs. -/
def loads (outputs : List AsmOperand) (lvalues : List (Option Lvalue)) : List (Option Arg) :=
  ((outputs.zip lvalues).filter fun p => isReadwrite p.1.constraint).map fun p => p.2.map .loaded

def clobberPieces (clobbers : List Text) : List Text :=
  (clobbers.filter fun name => name ≠ []).map fun name => ['~', '\x7b'] ++ name ++ ['\x7d']

theorem collect_output (o : AsmOperand) (c : Collected) :
    collect L c (.output (cleanConstraint true (literal o.constraint)) o.expr) =
      (lvalueOf L o).map fun lvalue =>
        { c with
          outputConstraints := c.outputConstraints ++ [llvmConstraint o.constraint]
          outputLvalues := c.outputLvalues ++ [lvalue]
          inputValues := c.inputValues ++ (loads [o] [lvalue]).filterMap id } := by
  rw [cleanConstraint_literal]
  unfold collect lvalueOf loads
  simp only [stripQuotes_literal]
  by_cases hexpr : o.expr = 0
  · cases hrw : isReadwrite o.constraint <;> simp [hexpr, hrw, Except.map, pure, Except.pure]
  · simp only [if_neg hexpr]
    cases L.lowerLvaluePtr o.expr with
    | error e => rfl
    | ok lvalue =>
      cases hrw : isReadwrite o.constraint <;> cases lvalue <;>
        simp [hrw, Except.map, pure, Except.pure, bind, Except.bind]

/-- The output nodes: one constraint and one target for each. -/
theorem collect_outputs (outputs : List AsmOperand) (c : Collected) :
    (outputs.map fun o => AsmNode.output (cleanConstraint true (literal o.constraint)) o.expr).foldlM
      (collect L) c = (outputs.mapM (lvalueOf L)).map fun lvalues =>
        { c with
          outputConstraints := c.outputConstraints ++ outputs.map fun o => llvmConstraint o.constraint
          outputLvalues := c.outputLvalues ++ lvalues
          inputValues := c.inputValues ++ (loads outputs lvalues).filterMap id } := by
  induction outputs generalizing c with
  | nil => simp [loads, Except.map, pure, Except.pure]
  | cons o outputs ih =>
    rw [List.map_cons, List.foldlM_cons, collect_output, List.mapM_cons]
    cases lvalueOf L o with
    | error e => rfl
    | ok lvalue =>
      simp only [Except.map, bind, Except.bind]
      rw [ih]
      cases outputs.mapM (lvalueOf L) with
      | error e => rfl
      | ok lvalues =>
        cases hrw : isReadwrite o.constraint <;> cases lvalue <;>
          simp [Except.map, pure, Except.pure, loads, hrw]

/-- The input nodes: one constraint for each, and a value where there is one. -/
theorem collect_inputs (inputs : List AsmOperand) (c : Collected) :
    (inputs.map fun o => AsmNode.input (cleanConstraint false (literal o.constraint)) o.expr).foldlM
      (collect L) c = (inputs.mapM (valueOf L)).map fun values =>
        { c with
          inputConstraints := c.inputConstraints ++ inputs.map AsmOperand.constraint
          inputValues := c.inputValues ++ values.filterMap id } := by
  induction inputs generalizing c with
  | nil => simp [Except.map, pure, Except.pure]
  | cons o inputs ih =>
    have hnode : collect L c (.input (cleanConstraint false (literal o.constraint)) o.expr) =
        (valueOf L o).map fun value =>
          { c with
            inputConstraints := c.inputConstraints ++ [o.constraint]
            inputValues := c.inputValues ++ value.toList } := by
      rw [cleanConstraint_literal]
      unfold collect valueOf
      simp only [stripQuotes_literal]
      split_ifs with hexpr
      · simp [Except.map, pure, Except.pure]
      · cases L.lowerExpr o.expr with
        | error e => rfl
        | ok value => cases value <;> simp [Except.map, pure, Except.pure, bind, Except.bind]
    rw [List.map_cons, List.foldlM_cons, hnode, List.mapM_cons]
    cases valueOf L o with
    | error e => rfl
    | ok value =>
      simp only [Except.map, bind, Except.bind]
      rw [ih]
      cases inputs.mapM (valueOf L) with
      | error e => rfl
      | ok values => cases value <;> simp [Except.map, pure, Except.pure]

theorem collect_clobbers (clobbers : List Text) (c : Collected) :
    (clobbers.map fun name => AsmNode.clobber (literal name)).foldlM (collect L) c =
      .ok { c with clobbers := c.clobbers ++ clobberPieces clobbers } := by
  induction clobbers generalizing c with
  | nil => simp [clobberPieces, pure, Except.pure]
  | cons name clobbers ih =>
    have hnode : collect L c (.clobber (literal name)) =
        .ok { c with clobbers := c.clobbers ++ clobberPieces [name] } := by
      unfold collect
      simp only [stripQuotes_literal]
      split_ifs with hname
      · simp [clobberPieces, hname, pure, Except.pure]
      · simp [clobberPieces, hname, pure, Except.pure]
    have happ : clobberPieces (name :: clobbers) = clobberPieces [name] ++ clobberPieces clobbers := by
      unfold clobberPieces
      rw [← List.map_append, ← List.filter_append]
      rfl
    rw [List.map_cons, List.foldlM_cons, hnode, happ]
    simp only [bind, Except.bind, ih, List.append_assoc]

theorem collect_labels (labels : List Text) (c : Collected) :
    (labels.map AsmNode.gotoLabel).foldlM (collect L) c = .ok c := by
  induction labels with
  | nil => rfl
  | cons name labels ih =>
    rw [List.map_cons, List.foldlM_cons]
    exact ih

/-- The constraints of the call, as the backend lists them. -/
def AsmStmt.pieces (s : AsmStmt) : List Text :=
  s.outputs.map (fun o => llvmConstraint o.constraint) ++ s.inputs.map AsmOperand.constraint ++
    clobberPieces s.clobbers

/-- What `lower_asm_stmt` emits, given what becomes of the expressions. -/
theorem lowerAsmStmt_eq (s : AsmStmt) : lowerAsmStmt L (literal s.template) s.nodes = (do
    let lvalues ← s.outputs.mapM (lvalueOf L)
    let values ← s.inputs.mapM (valueOf L)
    return {
      template := s.template
      constraints := [','].intercalate s.pieces
      args := (loads s.outputs lvalues ++ values).filterMap id
      results := s.outputs.map fun _ => .int 32
      stores := storeResults lvalues }) := by
  unfold lowerAsmStmt AsmStmt.nodes
  rw [List.foldlM_append, List.foldlM_append, List.foldlM_append, collect_outputs]
  cases s.outputs.mapM (lvalueOf L) with
  | error e => rfl
  | ok lvalues =>
    simp only [Except.map, bind, Except.bind]
    rw [collect_inputs]
    cases s.inputs.mapM (valueOf L) with
    | error e => rfl
    | ok values =>
      simp only [Except.map, collect_clobbers, collect_labels]
      simp [pure, Except.pure, stripQuotes_literal, AsmStmt.pieces, Function.comp_def]

end Statements

section Correspondence

/-- The result has the type of the variable, and the asm's value is not cut short on the way. -/
def FullWidth (store : Store) (result : Ty) : Prop :=
  store.stored = store.target.pointee ∧
    ∃ w w', store.target.pointee = .int w ∧ result = .int w' ∧ w ≤ w'

/-- The constraint without the prefix of an output -/
def letters (constraint : Text) : Text :=
  if isReadwrite constraint then stripPrefix '+' constraint else stripPrefix '=' constraint

/-- The constraints of the inputs that are tied to the read-write outputs, by their numbers. -/
def ties (outputs : List AsmOperand) : List Text :=
  (outputs.zipIdx.filter fun p => isReadwrite p.1.constraint).map fun p => (Nat.repr p.2).toList

/-- The targets of the results -/
def targets (lvalues : List (Option Lvalue)) : List (ℕ × Lvalue) :=
  lvalues.zipIdx.filterMap fun (lvalue, i) => lvalue.map (i, ·)

/-- LLVM pairs each operand of the call with the operand of the source that has its number. -/
structure Corresponds (s : AsmStmt) (lvalues : List (Option Lvalue)) (values : List (Option Arg))
    (call : AsmCall) : Prop where
  template : call.template = translate s.template
  constraints : readConstraints call.constraints =
    s.outputs.map (fun o => '=' :: letters o.constraint) ++ s.inputs.map AsmOperand.constraint ++
      ties s.outputs ++ clobberPieces s.clobbers
  args : call.args.map some = values ++ loads s.outputs lvalues
  targets : call.stores.map (fun store => (store.component, store.target)) = targets lvalues
  width : ∀ store ∈ call.stores, ∃ result, call.results[store.component]? = some result ∧
    FullWidth store result

/-- The statements that the backend gets right. -/
structure Plain (s : AsmStmt) (lvalues : List (Option Lvalue)) (values : List (Option Arg)) :
    Prop where
  template : '%' ∉ s.template ∧ '$' ∉ s.template
  outputs : ∀ o ∈ s.outputs, isReadwrite o.constraint = false
  values : ∀ value ∈ values, value.isSome = true
  commas : (∀ p ∈ s.pieces, ',' ∉ p) ∧ s.pieces ≠ [[]]
  width : ∀ l, some l ∈ lvalues →
    ∃ w, l.pointee = .int w ∧ (if s.outputs.length = 1 then w ≤ 32 else w = 32)

theorem count_intercalate {c : Char} (hc : c ≠ ',') (pieces : List Text) :
    ([','].intercalate pieces).count c = (pieces.map (List.count c)).sum := by
  induction pieces with
  | nil => rfl
  | cons p pieces ih =>
    cases pieces with
    | nil => simp
    | cons q pieces =>
      rw [List.intercalate_cons_cons, List.count_append, List.count_append, ih]
      simp [Ne.symm hc]

theorem llvmConstraint_of_readwrite {c : Text} (h : isReadwrite c = true) :
    llvmConstraint c = '+' :: letters c := by
  unfold llvmConstraint letters
  rw [if_pos h, if_pos h]

theorem llvmConstraint_of_not {c : Text} (h : isReadwrite c = false) :
    llvmConstraint c = '=' :: letters c := by
  unfold llvmConstraint letters
  simp [h]

/-- Each read-write output is one equals sign short. -/
theorem count_outputs (outputs : List AsmOperand) :
    ((outputs.map fun o => '=' :: letters o.constraint).map (List.count '=')).sum =
      ((outputs.map fun o => llvmConstraint o.constraint).map (List.count '=')).sum +
        outputs.countP fun o => isReadwrite o.constraint := by
  induction outputs with
  | nil => rfl
  | cons o outputs ih =>
    simp only [List.map_cons, List.sum_cons, List.countP_cons] at ih ⊢
    rw [ih]
    cases h : isReadwrite o.constraint with
    | true =>
      rw [llvmConstraint_of_readwrite h]
      simp
      omega
    | false =>
      rw [llvmConstraint_of_not h]
      simp
      omega

theorem ties_eq_nil {outputs : List AsmOperand}
    (h : ∀ o ∈ outputs, isReadwrite o.constraint = false) : ties outputs = [] := by
  unfold ties
  rw [List.map_eq_nil_iff, List.filter_eq_nil_iff]
  intro p hp
  rw [h p.1 (List.fst_mem_of_mem_zipIdx hp)]
  decide

theorem loads_eq_nil {outputs : List AsmOperand} (lvalues : List (Option Lvalue))
    (h : ∀ o ∈ outputs, isReadwrite o.constraint = false) : loads outputs lvalues = [] := by
  unfold loads
  rw [List.map_eq_nil_iff, List.filter_eq_nil_iff]
  intro p hp
  rw [h p.1 (List.of_mem_zip hp).1]
  decide

/-- The constraints that LLVM reads are those of the source just if no output is read and no comma
is in one of them. -/
theorem constraints_iff (s : AsmStmt) :
    readConstraints ([','].intercalate s.pieces) =
        s.outputs.map (fun o => '=' :: letters o.constraint) ++ s.inputs.map AsmOperand.constraint ++
          ties s.outputs ++ clobberPieces s.clobbers ↔
      (∀ o ∈ s.outputs, isReadwrite o.constraint = false) ∧ (∀ p ∈ s.pieces, ',' ∉ p) ∧
        s.pieces ≠ [[]] := by
  have hplain : (∀ o ∈ s.outputs, isReadwrite o.constraint = false) →
      s.outputs.map (fun o => '=' :: letters o.constraint) ++ s.inputs.map AsmOperand.constraint ++
        ties s.outputs ++ clobberPieces s.clobbers = s.pieces := by
    intro h
    unfold AsmStmt.pieces
    rw [ties_eq_nil h, List.append_nil]
    congr 2
    exact List.map_congr_left fun o ho => (llvmConstraint_of_not (h o ho)).symm
  constructor
  · intro h
    have hjoin : [','].intercalate s.pieces = [','].intercalate
        (s.outputs.map (fun o => '=' :: letters o.constraint) ++ s.inputs.map AsmOperand.constraint ++
          ties s.outputs ++ clobberPieces s.clobbers) := by
      rw [← h]
      unfold readConstraints
      split_ifs with hnil
      · exact hnil
      · exact (List.intercalate_splitOn ',').symm
    have hcount := congrArg (List.count '=') hjoin
    rw [count_intercalate (by decide), count_intercalate (by decide)] at hcount
    unfold AsmStmt.pieces at hcount
    simp only [List.map_append, List.sum_append] at hcount
    have hout := count_outputs s.outputs
    have hzero : (s.outputs.countP fun o => isReadwrite o.constraint) = 0 := by omega
    have hno : ∀ o ∈ s.outputs, isReadwrite o.constraint = false := by
      intro o ho
      simpa using List.countP_eq_zero.1 hzero o ho
    rw [hplain hno] at h
    exact ⟨hno, (readConstraints_iff _).1 h⟩
  · rintro ⟨hno, hcommas⟩
    rw [hplain hno]
    exact (readConstraints_iff _).2 hcommas

theorem length_mapM {α β ε : Type} {f : α → Except ε β} {xs : List α} {ys : List β}
    (h : xs.mapM f = .ok ys) : ys.length = xs.length := by
  induction xs generalizing ys with
  | nil =>
    cases h
    rfl
  | cons x xs ih =>
    rw [List.mapM_cons] at h
    cases hx : f x with
    | error e =>
      rw [hx] at h
      cases h
    | ok y =>
      rw [hx] at h
      cases hxs : xs.mapM f with
      | error e =>
        rw [hxs] at h
        cases h
      | ok zs =>
        rw [hxs] at h
        cases h
        exact congrArg Nat.succ (ih hxs)

/-- Each result goes to the variable of its own output. -/
theorem targets_storeResults (lvalues : List (Option Lvalue)) :
    (storeResults lvalues).map (fun store => (store.component, store.target)) = targets lvalues := by
  unfold storeResults targets
  split
  · rfl
  · rename_i lvalue
    cases lvalue <;> rfl
  · rw [List.map_filterMap]
    refine List.filterMap_congr fun p _ => ?_
    obtain ⟨lvalue, i⟩ := p
    cases lvalue <;> rfl

theorem fullWidth_castResult (l : Lvalue) (i : ℕ) :
    FullWidth ⟨i, l, castResult l.pointee⟩ (.int 32) ↔ ∃ w, l.pointee = .int w ∧ w ≤ 32 := by
  constructor
  · rintro ⟨-, w, w', hw, hw', hle⟩
    cases hw'
    exact ⟨w, hw, hle⟩
  · rintro ⟨w, hw, hle⟩
    refine ⟨?_, w, 32, hw, rfl, hle⟩
    simp only [hw, castResult]

theorem fullWidth_extracted (l : Lvalue) (i : ℕ) :
    FullWidth ⟨i, l, .int 32⟩ (.int 32) ↔ ∃ w, l.pointee = .int w ∧ w = 32 := by
  constructor
  · rintro ⟨hsame, -⟩
    exact ⟨32, hsame.symm, rfl⟩
  · rintro ⟨w, hw, rfl⟩
    exact ⟨hw.symm, 32, 32, hw, rfl, Nat.le_refl _⟩

/-- The results are stored at full width just if a single one is at most 32 bits wide, and each of
several has 32 bits. -/
theorem width_iff (lvalues : List (Option Lvalue)) :
    (∀ store ∈ storeResults lvalues, ∃ result,
      (lvalues.map fun _ => Ty.int 32)[store.component]? = some result ∧ FullWidth store result) ↔
      ∀ l, some l ∈ lvalues →
        ∃ w, l.pointee = .int w ∧ (if lvalues.length = 1 then w ≤ 32 else w = 32) := by
  unfold storeResults
  split
  · exact ⟨fun _ => nofun, fun _ => nofun⟩
  · rename_i lvalue
    cases lvalue with
    | none =>
      constructor
      · intro _ l hl
        cases List.mem_singleton.1 hl
      · nofun
    | some l =>
      have hwidth := fullWidth_castResult l 0
      simp only [Option.toList_some, List.map_singleton, List.mem_singleton, forall_eq,
        List.length_singleton, if_true, Option.some.injEq]
      constructor
      · rintro ⟨result, hresult, hfull⟩
        cases hresult
        exact hwidth.1 hfull
      · intro h
        exact ⟨_, rfl, hwidth.2 h⟩
  · rename_i hnil hsingle
    have hlen : lvalues.length ≠ 1 := by
      intro hone
      obtain ⟨l, rfl⟩ := List.length_eq_one_iff.1 hone
      exact hsingle l rfl
    simp only [if_neg hlen]
    constructor
    · intro h l hl
      obtain ⟨i, hi, hget⟩ := List.getElem_of_mem hl
      have hmem : (⟨i, l, .int 32⟩ : Store) ∈ lvalues.zipIdx.filterMap fun (lvalue, i) =>
          lvalue.map fun l => (⟨i, l, .int 32⟩ : Store) :=
        List.mem_filterMap.2 ⟨(some l, i), by
          rw [List.mk_mem_zipIdx_iff_getElem?, List.getElem?_eq_getElem hi, hget], rfl⟩
      obtain ⟨result, hresult, hfull⟩ := h _ hmem
      rw [List.getElem?_map, List.getElem?_eq_getElem hi] at hresult
      cases hresult
      exact (fullWidth_extracted l i).1 hfull
    · intro h store hstore
      obtain ⟨⟨lvalue, i⟩, hp, hmap⟩ := List.mem_filterMap.1 hstore
      obtain ⟨l, hl, rfl⟩ := Option.map_eq_some_iff.1 hmap
      rw [List.mk_mem_zipIdx_iff_getElem?] at hp
      refine ⟨.int 32, ?_, (fullWidth_extracted l i).2 (h l ?_)⟩
      · rw [List.getElem?_map, hp]
        rfl
      · simp only at hl
        rw [← hl]
        exact List.mem_of_getElem? hp

variable {ε : Type} (L : Operands ε) (s : AsmStmt)

/-- In the call that is emitted for the statement, if any, the operands correspond. -/
def OperandsCorrespond : Prop :=
  ∀ call, lowerAsmStmt L (literal s.template) s.nodes = .ok call → ∃ lvalues values,
    s.outputs.mapM (lvalueOf L) = .ok lvalues ∧ s.inputs.mapM (valueOf L) = .ok values ∧
      Corresponds s lvalues values call

/-- The statement is plain, if no lowering of an operand fails with an error. -/
def OperandsPlain : Prop :=
  ∀ lvalues values, s.outputs.mapM (lvalueOf L) = .ok lvalues →
    s.inputs.mapM (valueOf L) = .ok values → Plain s lvalues values

theorem args_iff (values : List (Option Arg)) :
    ((values.filterMap id).map some = values) ↔ ∀ value ∈ values, value.isSome = true := by
  induction values with
  | nil => exact ⟨fun _ => nofun, fun _ => rfl⟩
  | cons value values ih =>
    cases value with
    | none =>
      constructor
      · intro h
        have hmem : none ∈ (List.filterMap id (none :: values)).map some := by
          rw [h]
          exact List.mem_cons_self
        obtain ⟨a, -, ha⟩ := List.mem_map.1 hmem
        cases ha
      · intro h
        exact absurd (h none List.mem_cons_self) (by decide)
    | some a =>
      simp only [List.filterMap_cons_some (show id (some a) = some a from rfl), List.map_cons,
        List.cons_inj_right, ih, List.forall_mem_cons, Option.isSome_some, true_and]

theorem corresponds_iff {lvalues : List (Option Lvalue)} {values : List (Option Arg)}
    {call : AsmCall} (hlen : lvalues.length = s.outputs.length)
    (hcall : call = {
      template := s.template
      constraints := [','].intercalate s.pieces
      args := (loads s.outputs lvalues ++ values).filterMap id
      results := s.outputs.map fun _ => .int 32
      stores := storeResults lvalues }) :
    Corresponds s lvalues values call ↔ Plain s lvalues values := by
  have hresults : (s.outputs.map fun _ => Ty.int 32) = lvalues.map fun _ => Ty.int 32 := by
    rw [List.map_const', List.map_const', hlen]
  have hwidth := width_iff lvalues
  rw [hlen] at hwidth
  subst hcall
  constructor
  · intro h
    obtain ⟨hno, hcommas⟩ := (constraints_iff s).1 h.constraints
    have hargs := h.args
    simp only [loads_eq_nil lvalues hno, List.nil_append, List.append_nil] at hargs
    have hstores := h.width
    simp only [hresults] at hstores
    exact ⟨(translate_eq_self_iff _).1 h.template.symm, hno, (args_iff values).1 hargs, hcommas,
      hwidth.1 hstores⟩
  · intro h
    refine ⟨((translate_eq_self_iff _).2 h.template).symm, (constraints_iff s).2 ⟨h.outputs, h.commas⟩,
      ?_, targets_storeResults lvalues, ?_⟩
    · simp only [loads_eq_nil lvalues h.outputs, List.nil_append, List.append_nil]
      exact (args_iff values).2 h.values
    · simp only [hresults]
      exact hwidth.2 h.width

/-- `asm("addl %1, %0" : "+r"(x) : "r"(y));`, with two variables of 32 bits -/
def addl : AsmStmt :=
  ⟨"addl %1, %0".toList, [⟨"+r".toList, 1⟩], [⟨"r".toList, 2⟩], [], []⟩

def twoVariables : Operands Unit where
  lowerExpr off := .ok (some (.value off (.int 32)))
  lowerLvaluePtr off := .ok (some ⟨off, .int 32⟩)

end Correspondence

end OpticC.InlineAsm
