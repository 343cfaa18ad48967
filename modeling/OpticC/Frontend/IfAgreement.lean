import OpticC.Frontend.IfReading
import OpticC.Frontend.MacroTermination

/-! Where an `#if` line gets its value in C. The evaluator associates equalities to the right,
reads one comparison and drops what follows it, has no unsigned type, and computes the operands
that C leaves alone. -/

namespace OpticC.Preprocessor

open Enumerators (UnaryOp BinaryOp)

/-- The types of the constants are all signed. -/
def IfTree.Signed : IfTree → Prop
  | literal k _ => ¬HasUnsignedType k
  | paren _ e _ => e.Signed
  | unary _ _ e => e.Signed
  | binary _ l _ r => l.Signed ∧ r.Signed
  | cond c _ x _ y => c.Signed ∧ x.Signed ∧ y.Signed

theorem IfTree.Signed.isUnsigned {e : IfTree} (h : e.Signed) : e.isUnsigned = false := by
  induction e with
  | literal k m => exact decide_eq_false h
  | paren opening e closing ih => exact ih h
  | unary op m e ih =>
    rw [IfTree.isUnsigned, ih h, Bool.and_false]
  | binary op l m r ihl ihr =>
    have hl := ihl h.1
    have hr := ihr h.2
    cases op <;> simp [IfTree.isUnsigned, hl, hr]
  | cond c question x colon y _ ihx ihy =>
    rw [IfTree.isUnsigned, ihx h.2.1, ihy h.2.2]
    rfl

/-- On signed operands the tables of the evaluator have the values of C, where both have one. -/
theorem ifOp_cBinary {op : BinaryOp} {x y v w : BitVec 64} (hv : cBinary op false false x y = some v)
    (hw : ifOp op x y = .ok w) : w = v := by
  cases op with
  | div =>
    simp only [cBinary, ifOp, divide, Bool.or_self, Bool.false_eq_true, if_false] at hv hw
    split_ifs at hv hw
    cases hv
    cases hw
    rfl
  | rem =>
    simp only [cBinary, ifOp, divide, Bool.or_self, Bool.false_eq_true, if_false] at hv hw
    split_ifs at hv hw
    cases hv
    cases hw
    rfl
  | shl =>
    simp only [cBinary, ifOp] at hv hw
    split_ifs at hv with hcount
    cases hv
    cases hw
    rw [Nat.mod_eq_of_lt (Nat.lt_of_not_le hcount)]
  | shr =>
    simp only [cBinary, ifOp, Bool.false_eq_true, if_false] at hv hw
    split_ifs at hv with hcount
    cases hv
    cases hw
    rw [Nat.mod_eq_of_lt (Nat.lt_of_not_le hcount)]
  | add | sub | mul | eq | ne | lt | gt | le | ge | land | lor | and | or | xor =>
    cases hv
    cases hw
    rfl

/-- A tree that can be computed in full has its value in C, if it has one there. -/
theorem IfTree.computed_eq_cValue {e : IfTree} (hs : e.Signed) {v w : BitVec 64}
    (hv : e.cValue = some v) (hw : e.computed = .ok w) : w = v := by
  induction e generalizing v w with
  | literal k m =>
    have hlt : k.value < 2 ^ 63 := Nat.lt_of_not_le fun hge => hs (.inr (.inr hge))
    simp only [IfTree.cValue, literalValue] at hv
    simp only [IfTree.computed, if_pos hlt] at hw
    split_ifs at hv
    cases hv
    cases hw
    rfl
  | paren opening e closing ih => exact ih hs hv hw
  | unary op m e ih =>
    obtain ⟨v', hv', rfl⟩ := Option.map_eq_some_iff.1 hv
    cases hcomputed : e.computed with
    | error err =>
      rw [IfTree.computed, hcomputed] at hw
      cases hw
    | ok w' =>
      rw [IfTree.computed, hcomputed] at hw
      cases hw
      rw [ih hs hv' hcomputed]
  | binary op l m r ihl ihr =>
    obtain ⟨x, hx, hw⟩ := bind_eq_ok hw
    obtain ⟨y, hy, hw⟩ := bind_eq_ok hw
    obtain ⟨x', hx', hv⟩ := Option.bind_eq_some_iff.1 hv
    obtain rfl := ihl hs.1 hx' hx
    by_cases hand : op = .land ∧ x = 0
    · obtain ⟨rfl, rfl⟩ := hand
      rw [if_pos ⟨rfl, rfl⟩] at hv
      cases hv
      cases hw
      rfl
    rw [if_neg hand] at hv
    by_cases hor : op = .lor ∧ x ≠ 0
    · obtain ⟨rfl, hne⟩ := hor
      rw [if_pos ⟨rfl, hne⟩] at hv
      cases hv
      cases hw
      show flag (x != 0 || y != 0) = 1
      rw [bne_iff_ne.2 hne]
      rfl
    · rw [if_neg hor] at hv
      obtain ⟨y', hy', hv⟩ := Option.bind_eq_some_iff.1 hv
      obtain rfl := ihr hs.2 hy' hy
      rw [hs.1.isUnsigned, hs.2.isUnsigned] at hv
      exact ifOp_cBinary hv hw
  | cond c question x colon y ihc ihx ihy =>
    obtain ⟨b, hb, hw⟩ := bind_eq_ok hw
    obtain ⟨p, hp, hw⟩ := bind_eq_ok hw
    obtain ⟨q, hq, hw⟩ := bind_eq_ok hw
    obtain ⟨b', hb', hv⟩ := Option.bind_eq_some_iff.1 hv
    obtain rfl := ihc hs.1 hb' hb
    cases hw
    by_cases hzero : b = 0
    · rw [if_neg (not_not.2 hzero)] at hv
      rw [if_neg (by rw [hzero]; decide)]
      exact ihy hs.2.2 hv hq
    · rw [if_pos hzero] at hv
      rw [if_pos (bne_iff_ne.2 hzero)]
      exact ihx hs.2.1 hv hp

/-- The quotient exists and fits. -/
def DivisionDefined (op : BinaryOp) (x y : BitVec 64) : Prop :=
  op = .div ∨ op = .rem → y ≠ 0 ∧ ¬(x = BitVec.intMin 64 ∧ y = -1)

/-- An operator on 64 bits, also where C gives no value. -/
def wrappedOp (op : BinaryOp) (x y : BitVec 64) : BitVec 64 :=
  match op with
  | .div => x.sdiv y
  | .rem => x.srem y
  | .shl => x <<< (y.toNat % 64)
  | .shr => x.sshiftRight (y.toNat % 64)
  | op => (cBinary op false false x y).getD 0

/-- The value with every operand computed, in wrapping signed arithmetic. -/
def IfTree.wrapped : IfTree → BitVec 64
  | literal k _ => BitVec.ofNat 64 k.value
  | paren _ e _ => e.wrapped
  | unary op _ e => ifUnary op e.wrapped
  | binary op l _ r => wrappedOp op l.wrapped r.wrapped
  | cond c _ x _ y => if c.wrapped ≠ 0 then x.wrapped else y.wrapped

/-- No division in the expression is by zero or overflows, also where C does not evaluate it. -/
def IfTree.DivisionsDefined : IfTree → Prop
  | literal _ _ => True
  | paren _ e _ => e.DivisionsDefined
  | unary _ _ e => e.DivisionsDefined
  | binary op l _ r =>
    l.DivisionsDefined ∧ r.DivisionsDefined ∧ DivisionDefined op l.wrapped r.wrapped
  | cond c _ x _ y => c.DivisionsDefined ∧ x.DivisionsDefined ∧ y.DivisionsDefined

theorem ifOp_eq_ok_iff (op : BinaryOp) (x y w : BitVec 64) :
    ifOp op x y = .ok w ↔ DivisionDefined op x y ∧ w = wrappedOp op x y := by
  have hdivide : ∀ (message : String) (q : BitVec 64), divide x y message q = .ok w ↔
      (y ≠ 0 ∧ ¬(x = BitVec.intMin 64 ∧ y = -1)) ∧ w = q := by
    intro message q
    unfold divide
    by_cases hy : y = 0
    · rw [if_pos hy]
      exact ⟨(nomatch ·), fun h => absurd hy h.1.1⟩
    · rw [if_neg hy]
      by_cases hmin : x = BitVec.intMin 64 ∧ y = -1
      · rw [if_pos hmin]
        exact ⟨(nomatch ·), fun h => absurd hmin h.1.2⟩
      · rw [if_neg hmin]
        exact ⟨fun h => ⟨⟨hy, hmin⟩, (Except.ok.inj h).symm⟩, fun h => congrArg Except.ok h.2.symm⟩
  cases op with
  | div =>
    refine (hdivide _ _).trans (and_congr_left fun _ => ?_)
    exact ⟨fun h _ => h, fun h => h (.inl rfl)⟩
  | rem =>
    refine (hdivide _ _).trans (and_congr_left fun _ => ?_)
    exact ⟨fun h _ => h, fun h => h (.inr rfl)⟩
  | add | sub | mul | eq | ne | lt | gt | le | ge | land | lor | and | or | xor | shl | shr =>
    constructor
    · intro h
      cases h
      exact ⟨fun hop => absurd hop (by decide), rfl⟩
    · rintro ⟨-, rfl⟩
      rfl

/-- A signed tree is computed in full exactly if its divisions are defined. -/
theorem IfTree.computed_eq_ok_iff {e : IfTree} (hs : e.Signed) (w : BitVec 64) :
    e.computed = .ok w ↔ e.DivisionsDefined ∧ w = e.wrapped := by
  induction e generalizing w with
  | literal k m =>
    have hlt : k.value < 2 ^ 63 := Nat.lt_of_not_le fun hge => hs (.inr (.inr hge))
    rw [IfTree.computed, if_pos hlt]
    exact ⟨fun h => ⟨trivial, (Except.ok.inj h).symm⟩, fun h => congrArg Except.ok h.2.symm⟩
  | paren opening e closing ih => exact ih hs w
  | unary op m e ih =>
    constructor
    · intro h
      cases he : e.computed with
      | error err =>
        rw [IfTree.computed, he] at h
        cases h
      | ok v =>
        rw [IfTree.computed, he] at h
        cases h
        obtain ⟨hd, rfl⟩ := (ih hs v).1 he
        exact ⟨hd, rfl⟩
    · rintro ⟨hd, rfl⟩
      rw [IfTree.computed, (ih hs e.wrapped).2 ⟨hd, rfl⟩]
      rfl
  | binary op l m r ihl ihr =>
    constructor
    · intro h
      obtain ⟨x, hx, h⟩ := bind_eq_ok h
      obtain ⟨y, hy, h⟩ := bind_eq_ok h
      obtain ⟨hdl, rfl⟩ := (ihl hs.1 x).1 hx
      obtain ⟨hdr, rfl⟩ := (ihr hs.2 y).1 hy
      obtain ⟨hd, rfl⟩ := (ifOp_eq_ok_iff op _ _ w).1 h
      exact ⟨⟨hdl, hdr, hd⟩, rfl⟩
    · rintro ⟨⟨hdl, hdr, hd⟩, rfl⟩
      rw [IfTree.computed, (ihl hs.1 l.wrapped).2 ⟨hdl, rfl⟩, (ihr hs.2 r.wrapped).2 ⟨hdr, rfl⟩]
      exact (ifOp_eq_ok_iff op _ _ _).2 ⟨hd, rfl⟩
  | cond c question x colon y ihc ihx ihy =>
    have hselect : ∀ v a b : BitVec 64, (if (v != 0) = true then a else b) = if v ≠ 0 then a else b :=
      fun v a b => by simp only [bne_iff_ne]
    constructor
    · intro h
      obtain ⟨v, hv, h⟩ := bind_eq_ok h
      obtain ⟨a, ha, h⟩ := bind_eq_ok h
      obtain ⟨b, hb, h⟩ := bind_eq_ok h
      obtain ⟨hdc, rfl⟩ := (ihc hs.1 v).1 hv
      obtain ⟨hdx, rfl⟩ := (ihx hs.2.1 a).1 ha
      obtain ⟨hdy, rfl⟩ := (ihy hs.2.2 b).1 hb
      rw [hselect] at h
      exact ⟨⟨hdc, hdx, hdy⟩, (Except.ok.inj h).symm⟩
    · rintro ⟨⟨hdc, hdx, hdy⟩, rfl⟩
      rw [IfTree.computed, (ihc hs.1 c.wrapped).2 ⟨hdc, rfl⟩,
        (ihx hs.2.1 x.wrapped).2 ⟨hdx, rfl⟩, (ihy hs.2.2 y.wrapped).2 ⟨hdy, rfl⟩]
      exact congrArg Except.ok (hselect _ _ _)

/-- The line has its value in C, with nothing left of it. -/
def EvaluatesAsC (env : IfEnv) (fuel : ℕ) (e : IfTree) (rest : List PpToken) : Prop :=
  ∀ v, e.cValue = some v → evalIfLine env fuel (e.tokens ++ rest) = .ok (v, skipToDirectiveEnd rest)

/-- A line over signed constants, without chains of equalities or of comparisons, evaluates as
in C exactly if its divisions are defined, those included that C does not evaluate. -/
theorem evaluatesAsC_iff_divisions (env : IfEnv) {e : IfTree} (hg : e.Grammatical)
    (hu : e.Unchained) (hs : e.Signed) {rest : List PpToken} (hend : EndsLine rest) {fuel : ℕ}
    (hfuel : 2 * (e.size + 1) ≤ fuel) :
    EvaluatesAsC env fuel e rest ↔ e.cValue = none ∨ e.DivisionsDefined := by
  have hline := evalIfLine_tree env hg hu hfuel hend
  constructor
  · intro h
    cases hv : e.cValue with
    | none => exact .inl rfl
    | some v =>
      have heval := h v hv
      rw [hline] at heval
      cases hw : e.computed with
      | error err =>
        rw [hw] at heval
        cases heval
      | ok w => exact .inr ((IfTree.computed_eq_ok_iff hs w).1 hw).1
  · rintro (hnone | hd) v hv
    · rw [hnone] at hv
      cases hv
    · have hw := (IfTree.computed_eq_ok_iff hs e.wrapped).2 ⟨hd, rfl⟩
      rw [hline, hw, ← IfTree.computed_eq_cValue hs hv hw]
      rfl

section Lines

def emptyEnv : IfEnv where
  macros := []
  chars := ascii
  expansionFuel := 1
  file := "a.c"
  supportsAttribute := fun _ => false
  supportsBuiltin := fun _ => false
  includeFileExists := fun _ => false

def markOf (kind : PpTokenKind) (text : String) : Mark kind text where
  gap := []
  token := ⟨kind, text, 1, 1⟩
  gap_kind := fun _ h => absurd h List.not_mem_nil
  token_kind := rfl
  token_text := rfl

/-- The constant of one digit. -/
def digitConstant (d : Char) (h : IsDigit 10 d) (hd : d ≠ '0') : IntConstant where
  base := .decimal
  digits := [d]
  suffix := []
  shape := ⟨d, [], rfl, hd⟩
  digits_valid := fun _ hc => List.mem_singleton.1 hc ▸ h
  suffix_valid := noSuffix_valid

def digitTree (d : Char) (h : IsDigit 10 d) (hd : d ≠ '0') : IfTree :=
  .literal (digitConstant d h hd) (markOf _ _)

def one : IfTree := digitTree '1' (by decide) (by decide)

def two : IfTree := digitTree '2' (by decide) (by decide)

def three : IfTree := digitTree '3' (by decide) (by decide)

def zero : IfTree :=
  .literal ⟨.octal, [], [], trivial, fun _ h => absurd h List.not_mem_nil,
    noSuffix_valid⟩ (markOf _ _)

/-- `3 > 2 > 1` -/
def comparisonChain : IfTree :=
  .binary .gt (.binary .gt three (markOf _ _) two) (markOf _ _) one

/-- `1 || 1 / 0` -/
def guardedDivision : IfTree :=
  .binary .lor one (markOf _ _) (.binary .div one (markOf _ _) zero)

theorem evalIfLine_comparisonChain :
    evalIfLine emptyEnv 12 (comparisonChain.tokens ++ []) = .ok (1, []) := by
  rfl

/-- `1 - 2 - 3` -/
def differences : IfTree :=
  .binary .sub (.binary .sub one (markOf _ _) two) (markOf _ _) three

theorem endsLine_nil : EndsLine [] := fun _ _ h => nomatch h

theorem digitTree_signed {d : Char} (h : IsDigit 10 d) (hd : d ≠ '0') :
    (digitTree d h hd).Signed := by
  have hvalue : (digitConstant d h hd).value = digitOf d := Nat.zero_add (digitOf d)
  have hlt : digitOf d < 10 := h
  rintro (hmem | hmem | hle)
  · exact absurd hmem List.not_mem_nil
  · exact absurd hmem List.not_mem_nil
  · rw [hvalue] at hle
    omega

theorem evaluatesAsC_differences : EvaluatesAsC emptyEnv 12 differences [] :=
  (evaluatesAsC_iff_divisions (e := differences) emptyEnv
    ⟨⟨trivial, trivial, by decide, by decide⟩, trivial, by decide, by decide⟩ ⟨⟨trivial, trivial, fun _ => by decide⟩, trivial,
    fun h => absurd h (by decide)⟩ ⟨⟨digitTree_signed _ _, digitTree_signed _ _⟩,
    digitTree_signed _ _⟩ endsLine_nil (by decide)).2
    (.inr ⟨⟨trivial, trivial, fun h => absurd h (by decide)⟩, trivial,
      fun h => absurd h (by decide)⟩)

/-- The second `>` is dropped with what follows it, and the right side of `||` is computed. -/
theorem not_evaluatesAsC_comparisonChain :
    (comparisonChain.Grammatical ∧ comparisonChain.cValue = some 0 ∧
      evalIfLine emptyEnv 12 (comparisonChain.tokens ++ []) = .ok (1, []) ∧
      ¬EvaluatesAsC emptyEnv 12 comparisonChain []) ∧
    (guardedDivision.Grammatical ∧ guardedDivision.cValue = some 1 ∧
      ¬EvaluatesAsC emptyEnv 12 guardedDivision []) := by
  have hchain : comparisonChain.cValue = some 0 := rfl
  have hguarded : guardedDivision.cValue = some 1 := rfl
  have hline : evalIfLine emptyEnv 12 (guardedDivision.tokens ++ []) =
      .error (.conditionalError "division by zero in #if expression") := rfl
  refine ⟨⟨⟨⟨trivial, trivial, by decide, by decide⟩, trivial, by decide, by decide⟩, hchain,
    evalIfLine_comparisonChain, fun h => ?_⟩, ⟨trivial, ⟨trivial, trivial, by decide, by decide⟩,
    by decide, by decide⟩, hguarded, fun h => ?_⟩
  · have heval := (h 0 hchain).symm.trans evalIfLine_comparisonChain
    injection heval with heval
    exact absurd (Prod.mk.inj heval).1 (by decide)
  · cases (h 1 hguarded).symm.trans hline

end Lines

end OpticC.Preprocessor
