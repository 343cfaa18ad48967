import OpticC.Frontend.ConstantTrees

/-! What C makes of a constant expression, and where the two evaluators compute the same. The
parser's drops the sign of a negation, divides by zero and shifts by any count; the backend's
takes `&&` and `||` as operations on bits. -/

namespace OpticC.Constants

open Enumerators (UnaryOp BinaryOp)

section Values

/-- The value of a tree whose operands are all evaluated, but for the branch of a conditional
that is not selected and the left operand of a comma. -/
def ConstTree.fold (un : UnaryOp → BitVec 64 → BitVec 64)
    (bin : BinaryOp → BitVec 64 → BitVec 64 → Option (BitVec 64)) : ConstTree → Option (BitVec 64)
  | .constant value => some (BitVec.ofNat 64 value)
  | .unary op e => (e.fold un bin).map (un op)
  | .binary op l r => (l.fold un bin).bind fun x => (r.fold un bin).bind fun y => bin op x y
  | .cond c x y =>
    (c.fold un bin).bind fun v => if v ≠ 0 then x.fold un bin else y.fold un bin
  | .comma _ r => r.fold un bin

def cUnary : UnaryOp → BitVec 64 → BitVec 64
  | .plus, v => v
  | .minus, v => -v
  | .not, v => truth (v = 0)
  | .bitNot, v => ~~~v

/-- `none` where C gives no value: a zero divisor, a quotient that does not fit, a shift by a
count that is negative or not below the width. -/
def cBinary : BinaryOp → BitVec 64 → BitVec 64 → Option (BitVec 64)
  | .add, x, y => some (x + y)
  | .sub, x, y => some (x - y)
  | .mul, x, y => some (x * y)
  | .div, x, y => if y = 0 ∨ (x = BitVec.intMin 64 ∧ y = -1) then none else some (x.sdiv y)
  | .rem, x, y => if y = 0 ∨ (x = BitVec.intMin 64 ∧ y = -1) then none else some (x.srem y)
  | .eq, x, y => some (truth (x = y))
  | .ne, x, y => some (truth (x ≠ y))
  | .lt, x, y => some (truth (x.toInt < y.toInt))
  | .gt, x, y => some (truth (y.toInt < x.toInt))
  | .le, x, y => some (truth (x.toInt ≤ y.toInt))
  | .ge, x, y => some (truth (y.toInt ≤ x.toInt))
  | .land, x, y => some (truth (x ≠ 0 ∧ y ≠ 0))
  | .lor, x, y => some (truth (x ≠ 0 ∨ y ≠ 0))
  | .and, x, y => some (x &&& y)
  | .or, x, y => some (x ||| y)
  | .xor, x, y => some (x ^^^ y)
  | .shl, x, y => if y.toInt < 0 ∨ 64 ≤ y.toInt then none else some (x <<< y.toNat)
  | .shr, x, y => if y.toInt < 0 ∨ 64 ≤ y.toInt then none else some (x.sshiftRight y.toNat)

/-- The value in 64-bit arithmetic when every operand is evaluated. -/
def strictValue : ConstTree → Option (BitVec 64) := ConstTree.fold cUnary cBinary

/-- The value of a constant expression in 64-bit arithmetic. -/
def cValue : ConstTree → Option (BitVec 64)
  | .constant value => some (BitVec.ofNat 64 value)
  | .unary op e => (cValue e).map (cUnary op)
  | .binary op l r =>
    (cValue l).bind fun x =>
      if op = .land ∧ x = 0 then some 0
      else if op = .lor ∧ x ≠ 0 then some 1
      else (cValue r).bind fun y => cBinary op x y
  | .cond c x y => (cValue c).bind fun v => if v ≠ 0 then cValue x else cValue y
  | .comma _ r => cValue r

/-- What the parser's evaluator makes of a tree. -/
def parserValue : ConstTree → Option (BitVec 64) :=
  ConstTree.fold (fun op => parserUnary (unaryCode op)) fun op => parserBinary (binaryCode op)

/-- What the backend's evaluator makes of a tree. -/
def backendValue : ConstTree → Option (BitVec 64)
  | .constant value => some (BitVec.ofNat 64 value)
  | .unary op e => (backendValue e).bind (Sizes.constUnary (unaryCode op))
  | .binary op l r =>
    (backendValue l).bind fun x =>
      (backendValue r).bind fun y => Sizes.constBinary (binaryCode op) x y
  | .cond _ _ _ => none
  | .comma _ _ => none

theorem strictValue_unary (op : UnaryOp) (e : ConstTree) :
    strictValue (.unary op e) = (strictValue e).map (cUnary op) := rfl

theorem strictValue_binary (op : BinaryOp) (l r : ConstTree) :
    strictValue (.binary op l r) =
      (strictValue l).bind fun x => (strictValue r).bind fun y => cBinary op x y := rfl

theorem parserValue_unary (op : UnaryOp) (e : ConstTree) :
    parserValue (.unary op e) = (parserValue e).map (parserUnary (unaryCode op)) := rfl

theorem parserValue_binary (op : BinaryOp) (l r : ConstTree) :
    parserValue (.binary op l r) = (parserValue l).bind fun x =>
      (parserValue r).bind fun y => parserBinary (binaryCode op) x y := rfl

end Values

section Arena

variable {a : Arena} {off fuel : ℕ} {e : ConstTree}

theorem TreeAt.ne_null (h : TreeAt a off e) : off ≠ 0 := by
  rintro rfl
  have hnull : a.get 0 = none := if_pos (.inl rfl)
  cases h with
  | constant hn => cases hnull.symm.trans hn
  | unary hn => cases hnull.symm.trans hn
  | binary hn => cases hnull.symm.trans hn
  | cond hn => cases hnull.symm.trans hn
  | comma hn => cases hnull.symm.trans hn

theorem binaryOperands_wrapper {n w : CAstNode} (second : ℕ → ℕ) (hw : a.get n.firstChild = some w)
    (hkind : w.kind = 0) (hl : w.firstChild ≠ 0) (hr : w.nextSibling ≠ 0) :
    binaryOperands a n second = (w.firstChild, w.nextSibling) := by
  simp only [binaryOperands, hw]
  exact if_pos ⟨hkind, hl, hr⟩

/-- The parser's evaluator on the nodes of a tree. -/
theorem evalConstantI64_tree (constantInts : String → Option ℤ) (h : TreeAt a off e)
    (hfuel : e.depth ≤ fuel) : evalConstantI64 a constantInts fuel off = parserValue e := by
  induction h generalizing fuel with
  | constant hn hk =>
    obtain ⟨f, rfl⟩ := Nat.exists_eq_add_of_le' (show 1 ≤ fuel from hfuel)
    rw [evalConstantI64, hn]
    simp only [Option.bind_some, hk]
    rfl
  | @unary _ _ _ e hn hk hd _ ih =>
    obtain ⟨f, rfl⟩ := Nat.exists_eq_add_of_le' (Nat.le_trans (Nat.le_add_left 1 e.depth) hfuel)
    rw [evalConstantI64, hn]
    simp only [Option.bind_some, hk, ih (Nat.le_of_succ_le_succ hfuel), hd]
    rfl
  | @binary _ n w _ l r hn hk hd hw hwk hl hr ihl ihr =>
    obtain ⟨f, rfl⟩ := Nat.exists_eq_add_of_le' (Nat.le_trans (Nat.le_add_left 1 _) hfuel)
    have hmax := Nat.max_le.1 (Nat.le_of_succ_le_succ hfuel)
    rw [evalConstantI64, hn]
    simp only [Option.bind_some, hk, hd, binaryOperands_wrapper _ hw hwk hl.ne_null hr.ne_null,
      ihl hmax.1, ihr hmax.2]
    rfl
  | @cond _ n w c x y hn hk _ hw _ _ ihc ihx ihy =>
    obtain ⟨f, rfl⟩ := Nat.exists_eq_add_of_le' (Nat.le_trans (Nat.le_add_left 1 _) hfuel)
    have hmax := Nat.max_le.1 (Nat.le_of_succ_le_succ hfuel)
    have hmax' := Nat.max_le.1 hmax.2
    rw [evalConstantI64, hn]
    simp only [Option.bind_some, hk, hw, ihc hmax.1, ihx hmax'.1, ihy hmax'.2]
    rfl
  | @comma _ n l r hn hk _ _ _ ihr =>
    obtain ⟨f, rfl⟩ := Nat.exists_eq_add_of_le' (Nat.le_trans (Nat.le_add_left 1 _) hfuel)
    have hmax := Nat.max_le.1 (Nat.le_of_succ_le_succ hfuel)
    rw [evalConstantI64, hn]
    simp only [Option.bind_some, hk, ihr hmax.2]
    rfl

/-- The backend's evaluator on the nodes of a tree. -/
theorem evalConstIntExpr_tree (h : TreeAt a off e) (hfuel : e.depth ≤ fuel) :
    evalConstIntExpr a fuel off = backendValue e := by
  induction h generalizing fuel with
  | constant hn hk =>
    obtain ⟨f, rfl⟩ := Nat.exists_eq_add_of_le' (show 1 ≤ fuel from hfuel)
    rw [evalConstIntExpr, hn]
    simp only [Option.bind_some, hk]
    rfl
  | @unary _ _ _ e hn hk hd _ ih =>
    obtain ⟨f, rfl⟩ := Nat.exists_eq_add_of_le' (Nat.le_trans (Nat.le_add_left 1 e.depth) hfuel)
    rw [evalConstIntExpr, hn]
    simp only [Option.bind_some, hk, ih (Nat.le_of_succ_le_succ hfuel), hd]
    rfl
  | @binary _ n w _ l r hn hk hd hw hwk hl hr ihl ihr =>
    obtain ⟨f, rfl⟩ := Nat.exists_eq_add_of_le' (Nat.le_trans (Nat.le_add_left 1 _) hfuel)
    have hmax := Nat.max_le.1 (Nat.le_of_succ_le_succ hfuel)
    rw [evalConstIntExpr, hn]
    simp only [Option.bind_some, hk, hd, binaryOperands_wrapper _ hw hwk hl.ne_null hr.ne_null,
      ihl hmax.1, ihr hmax.2]
    rfl
  | @cond _ n w c x y hn hk =>
    obtain ⟨f, rfl⟩ := Nat.exists_eq_add_of_le' (Nat.le_trans (Nat.le_add_left 1 _) hfuel)
    rw [evalConstIntExpr, hn]
    simp only [Option.bind_some, hk]
    rfl
  | @comma _ n l r hn hk =>
    obtain ⟨f, rfl⟩ := Nat.exists_eq_add_of_le' (Nat.le_trans (Nat.le_add_left 1 _) hfuel)
    rw [evalConstIntExpr, hn]
    simp only [Option.bind_some, hk]
    rfl

theorem TreeAt.extends {b : Arena} (h : TreeAt a off e) (hext : a.Extends b) : TreeAt b off e := by
  induction h with
  | constant hn hk => exact .constant (hext.nodes _ _ hn) hk
  | unary hn hk hd _ ih => exact .unary (hext.nodes _ _ hn) hk hd ih
  | binary hn hk hd hw hwk _ _ ihl ihr =>
    exact .binary (hext.nodes _ _ hn) hk hd (hext.nodes _ _ hw) hwk ihl ihr
  | cond hn hk _ hw _ _ ihc ihx ihy =>
    exact .cond (hext.nodes _ _ hn) hk ihc (hext.nodes _ _ hw) ihx ihy
  | comma hn hk _ _ ihl ihr => exact .comma (hext.nodes _ _ hn) hk ihl ihr

/-- What an arena with room for `size` more nodes has gained when they are allocated. -/
structure Grown (a b : Arena) (size : ℕ) : Prop where
  ext : a.Extends b
  capacity : b.nodeCapacity = a.nodeCapacity
  allocated : b.nodeAllocated = a.nodeAllocated + size

theorem Grown.trans {b c : Arena} {m n : ℕ} (h : Grown a b m) (h' : Grown b c n) :
    Grown a c (m + n) :=
  ⟨h.ext.trans h'.ext, h'.capacity.trans h.capacity, by
    rw [h'.allocated, h.allocated, Nat.add_assoc]⟩

theorem grown_put (n : CAstNode) (h : a.nodeAllocated < a.nodeCapacity) :
    Grown a (a.put n).2 1 ∧ (a.put n).2.get (a.put n).1 = some n :=
  ⟨⟨extends_put a n, put_nodeCapacity a n, put_nodeAllocated n h⟩,
    Arena.get_alloc (put_of_lt n h)⟩

/-- A node whose link goes to a wrapper allocated before it. -/
theorem grown_wrapper (w : CAstNode) (link : ℕ → CAstNode)
    (h : a.nodeAllocated + 2 ≤ a.nodeCapacity) :
    let b := (a.put w).2
    Grown a (b.put (link (a.put w).1)).2 2 ∧
      (b.put (link (a.put w).1)).2.get (b.put (link (a.put w).1)).1 = some (link (a.put w).1) ∧
        (b.put (link (a.put w).1)).2.get (a.put w).1 = some w := by
  have hw := grown_put (a := a) w (by omega)
  have hn := grown_put (a := (a.put w).2) (link (a.put w).1)
    (by rw [hw.1.capacity, hw.1.allocated]; omega)
  exact ⟨hw.1.trans hn.1, hn.2, hn.1.ext.nodes _ _ hw.2⟩

/-- With room for all its nodes, the parser's allocations for a tree put it there. -/
theorem treeAt_build (e : ConstTree) {a : Arena} (h : a.nodeAllocated + e.size ≤ a.nodeCapacity) :
    Grown a (build e a).2 e.size ∧ TreeAt (build e a).2 (build e a).1 e := by
  induction e generalizing a with
  | constant value =>
    have hput := grown_put (a := a) ⟨61, true, 0, 0, 0, value⟩ h
    exact ⟨hput.1, .constant hput.2 rfl⟩
  | unary op e ih =>
    simp only [ConstTree.size] at h
    obtain ⟨hgrown, htree⟩ := ih (a := a) (by omega)
    have hput := grown_put (a := (build e a).2) ⟨65, true, 0, (build e a).1, 0, unaryCode op⟩
      (by rw [hgrown.capacity, hgrown.allocated]; omega)
    exact ⟨hgrown.trans hput.1, .unary hput.2 rfl rfl (htree.extends hput.1.ext)⟩
  | binary op l r ihl ihr =>
    simp only [ConstTree.size] at h
    obtain ⟨hl, htl⟩ := ihl (a := a) (by omega)
    obtain ⟨hr, htr⟩ := ihr (a := (build l a).2) (by rw [hl.capacity, hl.allocated]; omega)
    have hlr := hl.trans hr
    obtain ⟨hn, hget, hw⟩ := grown_wrapper (a := (build r (build l a).2).2)
      ⟨0, true, 0, (build l a).1, (build r (build l a).2).1, 0⟩
      (fun operands => ⟨64, true, 0, operands, 0, binaryCode op⟩)
      (by rw [hlr.capacity, hlr.allocated]; omega)
    exact ⟨hlr.trans hn, .binary hget rfl rfl hw rfl (htl.extends (hr.ext.trans hn.ext))
      (htr.extends hn.ext)⟩
  | cond c x y ihc ihx ihy =>
    simp only [ConstTree.size] at h
    obtain ⟨hc, htc⟩ := ihc (a := a) (by omega)
    obtain ⟨hx, htx⟩ := ihx (a := (build c a).2) (by rw [hc.capacity, hc.allocated]; omega)
    have hcx := hc.trans hx
    obtain ⟨hy, hty⟩ := ihy (a := (build x (build c a).2).2)
      (by rw [hcx.capacity, hcx.allocated]; omega)
    have hcxy := hcx.trans hy
    obtain ⟨hn, hget, hw⟩ := grown_wrapper (a := (build y (build x (build c a).2).2).2)
      ⟨0, true, 0, (build x (build c a).2).1, (build y (build x (build c a).2).2).1, 0⟩
      (fun elseNode => ⟨66, true, 0, (build c a).1, elseNode, 0⟩)
      (by rw [hcxy.capacity, hcxy.allocated]; omega)
    have hyn := hy.ext.trans hn.ext
    exact ⟨hcxy.trans hn, .cond hget rfl (htc.extends (hx.ext.trans hyn)) hw (htx.extends hyn)
      (hty.extends hn.ext)⟩
  | comma l r ihl ihr =>
    simp only [ConstTree.size] at h
    obtain ⟨hl, htl⟩ := ihl (a := a) (by omega)
    obtain ⟨hr, htr⟩ := ihr (a := (build l a).2) (by rw [hl.capacity, hl.allocated]; omega)
    have hlr := hl.trans hr
    have hn := grown_put (a := (build r (build l a).2).2)
      ⟨72, true, 0, (build l a).1, (build r (build l a).2).1, 0⟩
      (by rw [hlr.capacity, hlr.allocated]; omega)
    exact ⟨hlr.trans hn.1, .comma hn.2 rfl (htl.extends (hr.ext.trans hn.1.ext))
      (htr.extends hn.1.ext)⟩

end Arena

end OpticC.Constants
