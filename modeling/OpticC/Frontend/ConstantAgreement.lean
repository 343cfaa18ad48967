import OpticC.Frontend.ConstantValues

/-! Where both evaluators of constant expressions give the value of C. A wrong value below can
be masked above, as in `!(-5)`, so a tree is taken together with its subtrees. -/

namespace OpticC.Constants

open Enumerators (UnaryOp BinaryOp)

section Operators

variable {x y v : BitVec 64}

/-- The parser's evaluator keeps the operand of a negation as it is. -/
def RegularUnary (op : UnaryOp) (v : BitVec 64) : Prop := op = .minus → -v = v

/-- No zero divisor, and no count of a shift outside of the width. -/
def RegularBinary (op : BinaryOp) (y : BitVec 64) : Prop :=
  match op with
  | .div | .rem => y ≠ 0
  | .shl | .shr => 0 ≤ y.toInt ∧ y.toInt < 64
  | _ => True

/-- The operations on bits give the truth value. -/
def LogicalBits (op : BinaryOp) (x y : BitVec 64) : Prop :=
  match op with
  | .land => x &&& y = truth (x ≠ 0 ∧ y ≠ 0)
  | .lor => x ||| y = truth (x ≠ 0 ∨ y ≠ 0)
  | _ => True

theorem truth_congr {p q : Prop} [Decidable p] [Decidable q] (h : p ↔ q) : truth p = truth q := by
  simp only [truth, h]

theorem parserUnary_eq_iff (op : UnaryOp) (v : BitVec 64) :
    parserUnary (unaryCode op) v = cUnary op v ↔ RegularUnary op v := by
  cases op with
  | plus => exact ⟨fun _ h => (nomatch h), fun _ => rfl⟩
  | minus => exact ⟨fun h _ => h.symm, fun h => (h rfl).symm⟩
  | not => exact ⟨fun _ h => (nomatch h), fun _ => rfl⟩
  | bitNot => exact ⟨fun _ h => (nomatch h), fun _ => rfl⟩

theorem toNat_mod_of_lt (h : 0 ≤ y.toInt ∧ y.toInt < 64) : y.toNat % 64 = y.toNat := by
  have hnat := BitVec.toInt_eq_toNat_cond y
  have hlt := y.isLt
  split at hnat <;> omega

theorem shiftCount_of_lt (h : 0 ≤ y.toInt ∧ y.toInt < 64) : shiftCount y = y.toNat := by
  have hneg : y.slt 0 = false := by
    rw [Bool.eq_false_iff, Ne, BitVec.slt_iff_toInt_lt]
    exact Int.not_lt.2 h.1
  have hmod := toNat_mod_of_lt h
  rw [shiftCount, hneg]
  simp only [Bool.false_eq_true, if_false]
  omega

theorem parserBinary_eq {op : BinaryOp} (h : RegularBinary op y) :
    parserBinary (binaryCode op) x y = cBinary op x y := by
  cases op with
  | div =>
    simp only [RegularBinary] at h
    simp only [binaryCode, parserBinary, cBinary, h, false_or, if_false]
  | rem =>
    simp only [RegularBinary] at h
    simp only [binaryCode, parserBinary, cBinary, h, false_or, if_false]
  | shl =>
    simp only [RegularBinary] at h
    rw [cBinary, if_neg (by omega), ← shiftCount_of_lt h]
    rfl
  | shr =>
    simp only [RegularBinary] at h
    rw [cBinary, if_neg (by omega), ← shiftCount_of_lt h]
    rfl
  | lt => exact congrArg some (truth_congr BitVec.slt_iff_toInt_lt)
  | gt => exact congrArg some (truth_congr BitVec.slt_iff_toInt_lt)
  | le => exact congrArg some (truth_congr BitVec.sle_iff_toInt_le)
  | ge => exact congrArg some (truth_congr BitVec.sle_iff_toInt_le)
  | _ => rfl

/-- Elsewhere the parser's operators give a value where C has none. -/
theorem regularBinary_of_sound {op : BinaryOp}
    (h : ∀ v, parserBinary (binaryCode op) x y = some v → cBinary op x y = some v) :
    RegularBinary op y := by
  have hshift : ∀ w : BitVec 64, (if y.toInt < 0 ∨ 64 ≤ y.toInt then none else some w) ≠
      (none : Option (BitVec 64)) → 0 ≤ y.toInt ∧ y.toInt < 64 := by
    intro w hw
    by_cases hy : y.toInt < 0 ∨ 64 ≤ y.toInt
    · exact absurd (if_pos hy) hw
    · omega
  cases op with
  | div =>
    rintro rfl
    exact absurd (h 0 rfl) (by simp [cBinary])
  | rem =>
    rintro rfl
    exact absurd (h 0 rfl) (by simp [cBinary])
  | shl => exact hshift _ fun hnone => nomatch (h _ rfl).symm.trans hnone
  | shr => exact hshift _ fun hnone => nomatch (h _ rfl).symm.trans hnone
  | _ => trivial

/-- The operators that the backend's evaluator knows. -/
def unaryKnown (op : UnaryOp) : Bool := op != .plus

def binaryKnown (op : BinaryOp) : Bool := !([.eq, .ne, .lt, .gt, .le, .ge].contains op)

theorem constUnary_eq (op : UnaryOp) (v : BitVec 64) :
    Sizes.constUnary (unaryCode op) v = if unaryKnown op then some (cUnary op v) else none := by
  cases op <;> rfl

theorem constBinary_unknown {op : BinaryOp} (h : binaryKnown op = false) :
    Sizes.constBinary (binaryCode op) x y = none := by
  cases op <;> first | rfl | cases h

/-- On regular operands the backend's operators are those of C where the truth values come out
of the bits. -/
theorem constBinary_eq_iff {op : BinaryOp} (hknown : binaryKnown op = true)
    (hy : RegularBinary op y) (hv : cBinary op x y = some v) :
    Sizes.constBinary (binaryCode op) x y = some v ↔ LogicalBits op x y := by
  cases op with
  | div =>
    refine ⟨fun _ => trivial, fun _ => ?_⟩
    rw [cBinary] at hv
    split_ifs at hv
    exact (if_neg hy).trans hv
  | rem =>
    refine ⟨fun _ => trivial, fun _ => ?_⟩
    rw [cBinary] at hv
    split_ifs at hv
    exact (if_neg hy).trans hv
  | land =>
    simp only [cBinary, Option.some.injEq] at hv
    subst hv
    exact Option.some_inj
  | lor =>
    simp only [cBinary, Option.some.injEq] at hv
    subst hv
    exact Option.some_inj
  | shl =>
    refine ⟨fun _ => trivial, fun _ => ?_⟩
    simp only [RegularBinary] at hy
    rw [cBinary, if_neg (by omega)] at hv
    rw [← hv]
    exact congrArg (fun count => some (x <<< count)) (toNat_mod_of_lt hy)
  | shr =>
    refine ⟨fun _ => trivial, fun _ => ?_⟩
    simp only [RegularBinary] at hy
    rw [cBinary, if_neg (by omega)] at hv
    rw [← hv]
    exact congrArg (fun count => some (x.sshiftRight count)) (toNat_mod_of_lt hy)
  | eq | ne | lt | gt | le | ge => cases hknown
  | _ => exact ⟨fun _ => trivial, fun _ => hv⟩

end Operators

section Trees

def ConstTree.subtrees : ConstTree → List ConstTree
  | .constant value => [.constant value]
  | .unary op e => .unary op e :: e.subtrees
  | .binary op l r => .binary op l r :: (l.subtrees ++ r.subtrees)
  | .cond c x y => .cond c x y :: (c.subtrees ++ (x.subtrees ++ y.subtrees))
  | .comma l r => .comma l r :: (l.subtrees ++ r.subtrees)

/-- The trees that the backend's evaluator knows. -/
def ConstTree.known : ConstTree → Bool
  | .constant _ => true
  | .unary op e => unaryKnown op && e.known
  | .binary op l r => binaryKnown op && l.known && r.known
  | .cond _ _ _ => false
  | .comma _ _ => false

/-- The operator at the root is regular on the values of its operands. -/
def RegularAt : ConstTree → Prop
  | .constant _ => True
  | .unary op e => ∀ v, strictValue e = some v → RegularUnary op v
  | .binary op l r => ∀ x y, strictValue l = some x → strictValue r = some y →
      RegularBinary op y ∧ (l.known = true → r.known = true → LogicalBits op x y)
  | .cond _ _ _ => True
  | .comma _ _ => True

/-- What is known of the values of a tree that is regular all over. -/
structure Values (e : ConstTree) : Prop where
  parser : parserValue e = strictValue e
  known : e.known = true → ∀ v, strictValue e = some v → backendValue e = some v
  unknown : e.known = false → backendValue e = none

/-- An operator that does not evaluate its second operand has its value already. -/
theorem shortCircuit_eq (op : BinaryOp) (x y : BitVec 64) :
    (if op = .land ∧ x = 0 then some 0 else if op = .lor ∧ x ≠ 0 then some 1 else cBinary op x y) =
      cBinary op x y := by
  split_ifs with hland hlor
  · rw [hland.1, hland.2, cBinary, truth, if_neg fun h => h.1 rfl]
  · rw [hlor.1, cBinary, truth, if_pos (.inl hlor.2)]
  · rfl

theorem cValue_of_strict {e : ConstTree} {v : BitVec 64} (h : strictValue e = some v) :
    cValue e = some v := by
  induction e generalizing v with
  | constant value => exact h
  | unary op e ih =>
    obtain ⟨w, hw, rfl⟩ := Option.map_eq_some_iff.1 h
    rw [cValue, ih hw]
    rfl
  | binary op l r ihl ihr =>
    obtain ⟨x, hx, h⟩ := Option.bind_eq_some_iff.1 h
    obtain ⟨y, hy, h⟩ := Option.bind_eq_some_iff.1 h
    rw [cValue, ihl hx, Option.bind_some, ihr hy, Option.bind_some, shortCircuit_eq]
    exact h
  | cond c x y ihc ihx ihy =>
    obtain ⟨w, hw, h⟩ := Option.bind_eq_some_iff.1 h
    rw [cValue, ihc hw, Option.bind_some]
    split_ifs at h ⊢ with hzero
    · exact ihx h
    · exact ihy h
  | comma l r _ ihr => exact ihr h

theorem values_of_regular {e : ConstTree} (h : ∀ s ∈ e.subtrees, RegularAt s) : Values e := by
  induction e with
  | constant value => exact ⟨rfl, fun _ v hv => hv, fun hk => nomatch hk⟩
  | unary op e ih =>
    simp only [ConstTree.subtrees, List.forall_mem_cons] at h
    obtain ⟨hregular, hsub⟩ := h
    obtain ⟨hp, hk, hu⟩ := ih hsub
    refine ⟨?_, fun hknown v hv => ?_, fun hunknown => ?_⟩
    · rw [parserValue_unary, strictValue_unary, hp]
      cases hv : strictValue e with
      | none => rfl
      | some v => exact congrArg some ((parserUnary_eq_iff op v).2 (hregular v hv))
    · obtain ⟨w, hw, rfl⟩ := Option.map_eq_some_iff.1 hv
      obtain ⟨hop, he⟩ := Bool.and_eq_true_iff.1 hknown
      rw [backendValue, hk he w hw, Option.bind_some, constUnary_eq, if_pos hop]
    · rw [backendValue]
      rcases Bool.and_eq_false_iff.1 hunknown with hop | he
      · simp [constUnary_eq, hop]
      · rw [hu he, Option.bind_none]
  | binary op l r ihl ihr =>
    simp only [ConstTree.subtrees, List.forall_mem_cons, List.forall_mem_append] at h
    obtain ⟨hregular, hsubl, hsubr⟩ := h
    obtain ⟨hpl, hkl, hul⟩ := ihl hsubl
    obtain ⟨hpr, hkr, hur⟩ := ihr hsubr
    refine ⟨?_, fun hknown v hv => ?_, fun hunknown => ?_⟩
    · rw [parserValue_binary, strictValue_binary, hpl, hpr]
      cases hx : strictValue l with
      | none => rfl
      | some x =>
        cases hy : strictValue r with
        | none => rfl
        | some y => exact parserBinary_eq (hregular x y hx hy).1
    · obtain ⟨x, hx, hv⟩ := Option.bind_eq_some_iff.1 hv
      obtain ⟨y, hy, hv⟩ := Option.bind_eq_some_iff.1 hv
      simp only [ConstTree.known, Bool.and_eq_true] at hknown
      obtain ⟨⟨hop, hl⟩, hr⟩ := hknown
      rw [backendValue, hkl hl x hx, hkr hr y hy]
      exact (constBinary_eq_iff hop (hregular x y hx hy).1 hv).2 ((hregular x y hx hy).2 hl hr)
    · simp only [ConstTree.known, Bool.and_eq_false_iff] at hunknown
      rw [backendValue]
      rcases hunknown with (hop | hl) | hr
      · simp [constBinary_unknown hop]
      · rw [hul hl, Option.bind_none]
      · rw [hur hr]
        simp
  | cond c x y ihc ihx ihy =>
    simp only [ConstTree.subtrees, List.forall_mem_cons, List.forall_mem_append] at h
    refine ⟨?_, fun hknown => (nomatch hknown), fun _ => rfl⟩
    have hc := (ihc h.2.1).parser
    have hx := (ihx h.2.2.1).parser
    have hy := (ihy h.2.2.2).parser
    simp only [parserValue, strictValue] at hc hx hy ⊢
    rw [ConstTree.fold, ConstTree.fold, hc, hx, hy]
  | comma l r _ ihr =>
    simp only [ConstTree.subtrees, List.forall_mem_cons, List.forall_mem_append] at h
    exact ⟨(ihr h.2.2).parser, fun hknown => (nomatch hknown), fun _ => rfl⟩

/-- The nodes of the tree evaluate as in C: what the parser's evaluator returns is the value,
and the backend's returns nothing else. -/
def EvaluatesAsC (e : ConstTree) : Prop :=
  ∀ (a : Arena) (constantInts : String → Option ℤ) (off fuel : ℕ), TreeAt a off e →
    e.depth ≤ fuel → ∀ v, evalConstantI64 a constantInts fuel off = some v →
      cValue e = some v ∧ ∀ w, evalConstIntExpr a fuel off = some w → w = v

theorem evaluatesAsC_iff_values (e : ConstTree) :
    EvaluatesAsC e ↔ ∀ v, parserValue e = some v →
      cValue e = some v ∧ ∀ w, backendValue e = some w → w = v := by
  constructor
  · intro h v hv
    obtain ⟨a, ha⟩ : ∃ a, Arena.new (e.size + 1) = some a := ⟨_, if_neg (Nat.succ_ne_zero _)⟩
    have hroom : a.nodeAllocated + e.size ≤ a.nodeCapacity := by
      rw [Arena.new, if_neg (Nat.succ_ne_zero _)] at ha
      cases ha
      exact Nat.le_of_eq (Nat.add_comm 1 e.size)
    have htree := (treeAt_build e hroom).2
    have hat := h _ (fun _ => none) _ e.depth htree (Nat.le_refl _) v
    rw [evalConstantI64_tree _ htree (Nat.le_refl _),
      evalConstIntExpr_tree htree (Nat.le_refl _)] at hat
    exact hat hv
  · intro h a constantInts off fuel htree hfuel v hv
    rw [evalConstantI64_tree _ htree hfuel] at hv
    rw [evalConstIntExpr_tree htree hfuel]
    exact h v hv

theorem evaluatesAsC_of_regular {e : ConstTree} (h : ∀ s ∈ e.subtrees, RegularAt s) :
    EvaluatesAsC e := by
  obtain ⟨hparser, hknown, hunknown⟩ := values_of_regular h
  refine (evaluatesAsC_iff_values e).2 fun v hv => ?_
  rw [hparser] at hv
  refine ⟨cValue_of_strict hv, fun w hw => ?_⟩
  cases hk : e.known with
  | true => exact Option.some.inj (hw.symm.trans (hknown hk v hv))
  | false => exact nomatch hw.symm.trans (hunknown hk)

theorem regularAt_unary {op : UnaryOp} {e : ConstTree} (he : Values e)
    (h : EvaluatesAsC (.unary op e)) : RegularAt (.unary op e) := by
  intro v hv
  have hparser : parserValue (.unary op e) = some (parserUnary (unaryCode op) v) := by
    rw [parserValue_unary, he.parser, hv]
    rfl
  have hc := ((evaluatesAsC_iff_values _).1 h _ hparser).1
  rw [cValue, cValue_of_strict hv] at hc
  exact (parserUnary_eq_iff op v).1 (Option.some.inj hc).symm

theorem cValue_binary {op : BinaryOp} {l r : ConstTree} {x y : BitVec 64}
    (hx : strictValue l = some x) (hy : strictValue r = some y) :
    cValue (.binary op l r) = cBinary op x y := by
  rw [cValue, cValue_of_strict hx, cValue_of_strict hy, Option.bind_some, Option.bind_some,
    shortCircuit_eq]

theorem regularAt_binary {op : BinaryOp} {l r : ConstTree} (hl : Values l) (hr : Values r)
    (h : EvaluatesAsC (.binary op l r)) : RegularAt (.binary op l r) := by
  intro x y hx hy
  have hparser : parserValue (.binary op l r) = parserBinary (binaryCode op) x y := by
    rw [parserValue_binary, hl.parser, hr.parser, hx, hy]
    rfl
  have hvalues := (evaluatesAsC_iff_values _).1 h
  rw [hparser, cValue_binary hx hy] at hvalues
  have hregular : RegularBinary op y := regularBinary_of_sound fun v hv => (hvalues v hv).1
  refine ⟨hregular, fun hkl hkr => ?_⟩
  have hbackend : backendValue (.binary op l r) = Sizes.constBinary (binaryCode op) x y := by
    rw [backendValue, hl.known hkl x hx, hr.known hkr y hy]
    rfl
  rw [hbackend, parserBinary_eq hregular] at hvalues
  cases op with
  | land => exact (hvalues _ rfl).2 _ rfl
  | lor => exact (hvalues _ rfl).2 _ rfl
  | _ => trivial

end Trees

end OpticC.Constants
