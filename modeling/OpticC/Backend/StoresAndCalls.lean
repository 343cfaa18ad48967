import OpticC.Backend.SideEffects

/-! When the emitted instructions make C's stores and calls: the operands that C leaves out do
nothing, and each value that is used, stored or passed fits where it goes. -/

namespace OpticC.SideEffects

open Enumerators LlvmInt IntegerExpr

mutual

/-- The stores and calls that are written in an expression. -/
def effects : Expr → ℕ
  | .var _ => 0
  | .intConst _ _ => 0
  | .unary _ e => effects e
  | .binary _ l r => effects l + effects r
  | .logAnd l r => effects l + effects r
  | .logOr l r => effects l + effects r
  | .cond c t e => effects c + effects t + effects e
  | .comma l r => effects l + effects r
  | .assign _ _ e => effects e + 1
  | .incDec _ _ _ => 1
  | .call _ args => effectsArgs args + 1

def effectsArgs : Args → ℕ
  | .nil => 0
  | .cons e rest => effects e + effectsArgs rest

end

variable (P : Program)

/-- The width of the LLVM value. -/
def width : Expr → ℕ
  | .var x => (P.vars x).width
  | .intConst _ _ => 32
  | .unary op e => if op = .not then 1 else width e
  | .binary op l r => if op.isComparison then 1 else max (width l) (width r)
  | .logAnd l r => max (width l) (width r)
  | .logOr l r => max (width l) (width r)
  | .cond _ t _ => width t
  | .comma _ r => width r
  | .assign _ x _ => (P.vars x).width
  | .incDec _ _ x => (P.vars x).width
  | .call f _ => (P.functions f).result.width .result

def argWidths : Args → List ℕ
  | .nil => []
  | .cons e rest => width P e :: argWidths rest

/-- The instructions of an operand that C does not evaluate are defined, and there is no store
and no call among them. -/
def Idle (e : Expr) (s : State) : Prop := effects e = 0 ∧ (lowerExpr P e s).isSome

/-- The signed number that is left of such an operand. -/
def idleNumber (e : Expr) (s : State) : Option ℤ := (lowerExpr P e s).map fun r => r.1.bits.toInt

/-- The instruction is defined, and gives C's value if that is wanted. -/
def FitsIf (wanted : Bool) (c : CValue) (w : ℕ) (number : Option ℤ) : Prop :=
  number.isSome ∧ (wanted → Fits c w number)

/-- The signed number of the value in the width of the expression. -/
def signedIn (e : Expr) (v : ℤ) : ℤ := Int.bmod v (2 ^ width P e)

/-- The number that an assignment cuts or extends. -/
def assignNumber (op : Option Operator) (x : String) (e : Expr) (b : CValue) (s : State) : Option ℤ :=
  match op with
  | none => some (signedIn P e b.value)
  | some op =>
    binaryNumber op (max (P.vars x).width (width P e))
      (Int.bmod (s.mem x) (2 ^ (P.vars x).width)) (signedIn P e b.value)

/-- The arguments as they arrive at the parameters. -/
def arrive : List Decl → List ℕ → List CValue → Option (List ℤ)
  | [], [], [] => some []
  | d :: ds, w :: ws, v :: vs =>
    (arrive ds ws vs).map fun rest =>
      (ofInt (d.width .parameter) (d.width_pos .parameter) (v.value % 2 ^ w)).read d.type.signed :: rest
  | _, _, _ => none

/-- What is needed at the expression itself. -/
def NodeFits (wanted : Bool) (e : Expr) (s : State) : Prop :=
  match e with
  | .var x => ∀ c ∈ cLoad P x s, wanted → Fits c (P.vars x).width (some (s.mem x))
  | .intConst data value => int.Holds value → wanted → Fits ⟨int, value⟩ 32 (some data)
  | .unary op e => ∀ a s1, cEval P e s = some (a, s1) → ∀ c ∈ cUnary op a,
    FitsIf wanted c (width P (.unary op e)) (unaryNumber op (signedIn P e a.value))
  | .binary op l r => ∀ a s1, cEval P l s = some (a, s1) → ∀ b s2, cEval P r s1 = some (b, s2) →
    ∀ c ∈ cBinary op.meaning a b, FitsIf wanted c (width P (.binary op l r))
      (binaryNumber op (max (width P l) (width P r)) (signedIn P l a.value) (signedIn P r b.value))
  | .logAnd l r => ∀ a s1, cEval P l s = some (a, s1) →
    (a.value = 0 → Idle P r s1) ∧
      (a.value ≠ 0 → ∀ b s2, cEval P r s1 = some (b, s2) → wanted →
        Fits ⟨int, boolValue (b.value ≠ 0)⟩ (max (width P l) (width P r))
          (some (bitwise (max (width P l) (width P r)) (· &&& ·) (signedIn P l a.value)
            (signedIn P r b.value))))
  | .logOr l r => ∀ a s1, cEval P l s = some (a, s1) →
    (a.value ≠ 0 → Idle P r s1 ∧ (wanted → ∀ k ∈ idleNumber P r s1,
      Fits ⟨int, 1⟩ (max (width P l) (width P r))
        (some (bitwise (max (width P l) (width P r)) (· ||| ·) (signedIn P l a.value) k)))) ∧
      (a.value = 0 → ∀ b s2, cEval P r s1 = some (b, s2) → wanted →
        Fits ⟨int, boolValue (b.value ≠ 0)⟩ (max (width P l) (width P r))
          (some (bitwise (max (width P l) (width P r)) (· ||| ·) (signedIn P l a.value)
            (signedIn P r b.value))))
  | .cond c t e => ∀ a s1, cEval P c s = some (a, s1) →
    let type := usual (typeOf P t) (typeOf P e)
    (a.value ≠ 0 → ∀ v s2, cEval P t s1 = some (v, s2) → Idle P e s2 ∧
      (wanted → Fits ⟨type, type.convert v.value⟩ (width P t) (some (signedIn P t v.value)))) ∧
      (a.value = 0 → ∀ v s2, cEval P e s1 = some (v, s2) → Idle P t s1 ∧
        (wanted → if width P t = width P e then
            Fits ⟨type, type.convert v.value⟩ (width P e) (some (signedIn P e v.value))
          else ∀ k ∈ idleNumber P t s1,
            Fits ⟨type, type.convert v.value⟩ (width P t) (some k)))
  | .comma _ _ => True
  | .assign op x e => ∀ b s1, cEval P e s = some (b, s1) → ∀ c ∈ assigned P op x b s1,
    Fits ⟨(P.vars x).decl.type, (P.vars x).decl.type.convert c.value⟩ (P.vars x).width
      (assignNumber P op x e b s1)
  | .incDec dec isPostfix x => ∀ a ∈ cLoad P x s,
    ∀ c ∈ cBinary (if dec then .sub else .add) a ⟨int, 1⟩,
      Fits ⟨a.type, a.type.convert c.value⟩ (P.vars x).width
        (some (if dec then s.mem x - 1 else s.mem x + 1)) ∧
        ¬(wanted ∧ isPostfix)
  | .call f args => ∀ vs s1, cArgs P args s = some (vs, s1) →
    ∀ as ∈ convertArgs (P.functions f).params vs,
      arrive (P.functions f).params (argWidths P args) vs = some as ∧
        (wanted → Fits ⟨(P.functions f).result.type, (P.callee f as s1.mem).2⟩
          ((P.functions f).result.width .result) (some (P.callee f as s1.mem).2))

variable {P}

section Events

/-- Behind `n` stores and calls. -/
structure Extends (n : ℕ) (s s' : State) : Prop where
  length : s'.events.length = s.events.length + n
  same : n = 0 → s' = s

theorem Extends.refl (s : State) : Extends 0 s s := ⟨rfl, fun _ => rfl⟩

theorem Extends.trans {m n : ℕ} {s s1 s2 : State} (h1 : Extends m s s1) (h2 : Extends n s1 s2) :
    Extends (m + n) s s2 := by
  refine ⟨by rw [h2.length, h1.length, Nat.add_assoc], fun hzero => ?_⟩
  rw [h2.same (by omega), h1.same (by omega)]

theorem extends_put (s : State) (x : String) (v : ℤ) : Extends 1 s (s.put x v) :=
  ⟨by simp [State.put], nofun⟩

theorem extends_after (s : State) (f : String) (args : List ℤ) : Extends 1 s (s.after P f args) :=
  ⟨by simp [State.after], nofun⟩

mutual

theorem lowerExpr_extends (e : Expr) {s s' : State} {v : LlvmInt}
    (h : lowerExpr P e s = some (v, s')) : Extends (effects e) s s' := by
  match e with
  | .var x =>
    simp only [lowerExpr, Option.some.injEq, Prod.mk.injEq] at h
    obtain ⟨-, rfl⟩ := h
    exact Extends.refl s
  | .intConst data value =>
    simp only [lowerExpr, Option.some.injEq, Prod.mk.injEq] at h
    obtain ⟨-, rfl⟩ := h
    exact Extends.refl s
  | .unary op e =>
    simp only [lowerExpr, Option.bind_eq_bind, Option.bind_eq_some_iff, Prod.exists, Option.pure_def,
      Option.some.injEq, Prod.mk.injEq] at h
    obtain ⟨x, s1, he, v', -, -, rfl⟩ := h
    exact lowerExpr_extends e he
  | .binary op l r =>
    simp only [lowerExpr, Option.bind_eq_bind, Option.bind_eq_some_iff, Prod.exists, Option.pure_def,
      Option.some.injEq, Prod.mk.injEq] at h
    obtain ⟨x, s1, hl, y, s2, hr, v', -, -, rfl⟩ := h
    exact (lowerExpr_extends l hl).trans (lowerExpr_extends r hr)
  | .logAnd l r =>
    simp only [lowerExpr, Option.bind_eq_bind, Option.bind_eq_some_iff, Prod.exists, Option.pure_def,
      Option.some.injEq, Prod.mk.injEq] at h
    obtain ⟨x, s1, hl, y, s2, hr, v', -, -, rfl⟩ := h
    exact (lowerExpr_extends l hl).trans (lowerExpr_extends r hr)
  | .logOr l r =>
    simp only [lowerExpr, Option.bind_eq_bind, Option.bind_eq_some_iff, Prod.exists, Option.pure_def,
      Option.some.injEq, Prod.mk.injEq] at h
    obtain ⟨x, s1, hl, y, s2, hr, v', -, -, rfl⟩ := h
    exact (lowerExpr_extends l hl).trans (lowerExpr_extends r hr)
  | .cond c t e =>
    simp only [lowerExpr, Option.bind_eq_bind, Option.bind_eq_some_iff, Prod.exists, Option.pure_def,
      Option.some.injEq, Prod.mk.injEq] at h
    obtain ⟨x, s1, hc, y, s2, ht, z, s3, he, -, rfl⟩ := h
    exact ((lowerExpr_extends c hc).trans (lowerExpr_extends t ht)).trans (lowerExpr_extends e he)
  | .comma l r =>
    simp only [lowerExpr, Option.bind_eq_bind, Option.bind_eq_some_iff, Prod.exists] at h
    obtain ⟨x, s1, hl, hr⟩ := h
    exact (lowerExpr_extends l hl).trans (lowerExpr_extends r hr)
  | .assign op x e =>
    simp only [lowerExpr, Option.bind_eq_bind, Option.bind_eq_some_iff, Prod.exists, Option.pure_def,
      Option.some.injEq, Prod.mk.injEq] at h
    obtain ⟨y, s1, he, v', -, -, rfl⟩ := h
    exact (lowerExpr_extends e he).trans (extends_put _ _ _)
  | .incDec dec isPostfix x =>
    simp only [lowerExpr, Option.some.injEq, Prod.mk.injEq] at h
    obtain ⟨-, rfl⟩ := h
    exact extends_put _ _ _
  | .call f args =>
    simp only [lowerExpr, Option.bind_eq_bind, Option.bind_eq_some_iff, Prod.exists, Option.pure_def,
      Option.some.injEq, Prod.mk.injEq] at h
    obtain ⟨xs, s1, hargs, as, -, -, rfl⟩ := h
    exact (lowerArgs_extends args hargs).trans (extends_after _ _ _)

theorem lowerArgs_extends (args : Args) {s s' : State} {xs : List LlvmInt}
    (h : lowerArgs P args s = some (xs, s')) : Extends (effectsArgs args) s s' := by
  match args with
  | .nil =>
    simp only [lowerArgs, Option.some.injEq, Prod.mk.injEq] at h
    obtain ⟨-, rfl⟩ := h
    exact Extends.refl s
  | .cons e rest =>
    simp only [lowerArgs, Option.bind_eq_bind, Option.bind_eq_some_iff, Prod.exists, Option.pure_def,
      Option.some.injEq, Prod.mk.injEq] at h
    obtain ⟨x, s1, he, xs', s2, hrest, -, rfl⟩ := h
    exact (lowerExpr_extends e he).trans (lowerArgs_extends rest hrest)

end

/-- The instructions of an operand end where they began when it is idle. -/
theorem idle_iff {e : Expr} {s : State} : (∃ y, lowerExpr P e s = some (y, s)) ↔ Idle P e s := by
  constructor
  · rintro ⟨y, hy⟩
    have hlength := (lowerExpr_extends e hy).length
    exact ⟨by omega, by simp [hy]⟩
  · rintro ⟨hpure, hsome⟩
    obtain ⟨⟨y, s'⟩, hy⟩ := Option.isSome_iff_exists.1 hsome
    obtain rfl := (lowerExpr_extends e hy).same hpure
    exact ⟨y, hy⟩

end Events

section Widths

theorem width_lowerBinop {op : Operator} {x y v : LlvmInt}
    (h : lowerBinop op.data (coerce x y) = some v) :
    v.width = if op.isComparison then 1 else max x.width y.width := by
  rw [lowerBinop_eq, Option.map_eq_some_iff] at h
  obtain ⟨k, -, rfl⟩ := h
  split_ifs
  · rfl
  · exact (coerce_eq x y).1

theorem width_lowerUnop {op : UnaryOp} {x v : LlvmInt} (h : lowerUnop (unaryData op) x = some v) :
    v.width = if op = .not then 1 else x.width := by
  rw [lowerUnop_eq, Option.map_eq_some_iff] at h
  obtain ⟨k, -, rfl⟩ := h
  split_ifs
  · rfl
  · rfl

/-- The two bitwise operators that stand for `&&` and `||`. -/
theorem lowerBinop_logAnd (x y : LlvmInt) : lowerBinop 12 (coerce x y) =
    some (ofInt (coerce x y).width (coerce x y).width_pos
      (bitwise (coerce x y).width (· &&& ·) (coerce x y).lhs.toInt (coerce x y).rhs.toInt)) :=
  congrArg some (mk_eq_bitwise _ _ _ (· &&& ·))

theorem lowerBinop_logOr (x y : LlvmInt) : lowerBinop 13 (coerce x y) =
    some (ofInt (coerce x y).width (coerce x y).width_pos
      (bitwise (coerce x y).width (· ||| ·) (coerce x y).lhs.toInt (coerce x y).rhs.toInt)) :=
  congrArg some (mk_eq_bitwise _ _ _ (· ||| ·))

mutual

theorem width_lowerExpr (e : Expr) {s s' : State} {v : LlvmInt}
    (h : lowerExpr P e s = some (v, s')) : v.width = width P e := by
  match e with
  | .var x =>
    simp only [lowerExpr, Option.some.injEq, Prod.mk.injEq] at h
    obtain ⟨rfl, -⟩ := h
    rfl
  | .intConst data value =>
    simp only [lowerExpr, Option.some.injEq, Prod.mk.injEq] at h
    obtain ⟨rfl, -⟩ := h
    rfl
  | .unary op e =>
    simp only [lowerExpr, Option.bind_eq_bind, Option.bind_eq_some_iff, Prod.exists, Option.pure_def,
      Option.some.injEq, Prod.mk.injEq] at h
    obtain ⟨x, s1, he, v', hv, rfl, -⟩ := h
    rw [width_lowerUnop hv, width_lowerExpr e he, width]
  | .binary op l r =>
    simp only [lowerExpr, Option.bind_eq_bind, Option.bind_eq_some_iff, Prod.exists, Option.pure_def,
      Option.some.injEq, Prod.mk.injEq] at h
    obtain ⟨x, s1, hl, y, s2, hr, v', hv, rfl, -⟩ := h
    rw [width_lowerBinop hv, width_lowerExpr l hl, width_lowerExpr r hr, width]
  | .logAnd l r =>
    simp only [lowerExpr, Option.bind_eq_bind, Option.bind_eq_some_iff, Prod.exists, Option.pure_def,
      Option.some.injEq, Prod.mk.injEq, lowerBinop_logAnd] at h
    obtain ⟨x, s1, hl, y, s2, hr, v', rfl, rfl, -⟩ := h
    rw [width, ← width_lowerExpr l hl, ← width_lowerExpr r hr]
    exact (coerce_eq x y).1
  | .logOr l r =>
    simp only [lowerExpr, Option.bind_eq_bind, Option.bind_eq_some_iff, Prod.exists, Option.pure_def,
      Option.some.injEq, Prod.mk.injEq, lowerBinop_logOr] at h
    obtain ⟨x, s1, hl, y, s2, hr, v', rfl, rfl, -⟩ := h
    rw [width, ← width_lowerExpr l hl, ← width_lowerExpr r hr]
    exact (coerce_eq x y).1
  | .cond c t e =>
    simp only [lowerExpr, Option.bind_eq_bind, Option.bind_eq_some_iff, Prod.exists, Option.pure_def,
      Option.some.injEq, Prod.mk.injEq] at h
    obtain ⟨x, s1, hc, y, s2, ht, z, s3, he, rfl, -⟩ := h
    rw [width, ← width_lowerExpr t ht]
    split_ifs with hw hx
    · rfl
    · exact hw.symm
    · rfl
  | .comma l r =>
    simp only [lowerExpr, Option.bind_eq_bind, Option.bind_eq_some_iff, Prod.exists] at h
    obtain ⟨x, s1, hl, hr⟩ := h
    rw [width, width_lowerExpr r hr]
  | .assign op x e =>
    simp only [lowerExpr, Option.bind_eq_bind, Option.bind_eq_some_iff, Prod.exists, Option.pure_def,
      Option.some.injEq, Prod.mk.injEq] at h
    obtain ⟨y, s1, he, v', -, rfl, -⟩ := h
    rfl
  | .incDec dec isPostfix x =>
    simp only [lowerExpr, Option.some.injEq, Prod.mk.injEq] at h
    obtain ⟨rfl, -⟩ := h
    rfl
  | .call f args =>
    simp only [lowerExpr, Option.bind_eq_bind, Option.bind_eq_some_iff, Prod.exists, Option.pure_def,
      Option.some.injEq, Prod.mk.injEq] at h
    obtain ⟨xs, s1, hargs, as, -, rfl, -⟩ := h
    rfl

end

end Widths

section Nodes

/-- The value is C's, as far as it is wanted. -/
def Reads (wanted : Bool) (x : LlvmInt) (c : CValue) : Prop :=
  wanted → x.read c.type.signed = c.value

/-- The signed number of an operand that has C's value. -/
theorem toInt_of_reads {e : Expr} {s s' : State} {x : LlvmInt} {c : CValue}
    (hx : lowerExpr P e s = some (x, s')) (hread : Reads true x c) :
    x.bits.toInt = signedIn P e c.value := by
  rw [signedIn, ← width_lowerExpr e hx, toInt_eq_bmod c.type.signed x, hread rfl]

/-- Where the value of a node comes from a number and the state is C's. -/
theorem right_iff_fitsIf {wanted : Bool} {e : Expr} {s s' : State} {C : Option CValue} {w : ℕ}
    {hw : 0 < w} {n : Option ℤ} (hC : cEval P e s = C.map (·, s'))
    (hL : lowerExpr P e s = (n.map (ofInt w hw)).map (·, s')) :
    Right P wanted e s ↔ ∀ c ∈ C, FitsIf wanted c w n := by
  unfold Right
  rw [hC, hL]
  constructor
  · intro h c hc
    obtain ⟨x, hx, hread⟩ := h c s' (by rw [Option.mem_def.1 hc]; rfl)
    obtain ⟨x', hx', hpair⟩ := Option.map_eq_some_iff.1 hx
    obtain ⟨rfl, -⟩ := Prod.mk.inj hpair
    refine ⟨?_, fun hwanted => (reads_iff_fits c hw n).1 ⟨x', hx', hread hwanted⟩⟩
    obtain ⟨k, hk, -⟩ := Option.map_eq_some_iff.1 hx'
    simp [hk]
  · intro h c r hc
    obtain ⟨c', hc', hpair⟩ := Option.map_eq_some_iff.1 hc
    obtain ⟨rfl, rfl⟩ := Prod.mk.inj hpair
    obtain ⟨hsome, hfits⟩ := h c' hc'
    obtain ⟨k, rfl⟩ := Option.isSome_iff_exists.1 hsome
    refine ⟨ofInt w hw k, rfl, fun hwanted => ?_⟩
    obtain ⟨x, hx, hread⟩ := (reads_iff_fits c' hw (some k)).2 (hfits hwanted)
    obtain rfl := Option.some.inj hx
    exact hread

theorem width_pos (e : Expr) : 0 < width P e := by
  match e with
  | .var x => exact (P.vars x).width_pos
  | .intConst _ _ => exact Nat.succ_pos 31
  | .unary op e =>
    unfold width
    split_ifs
    · exact Nat.one_pos
    · exact width_pos e
  | .binary op l r =>
    unfold width
    split_ifs
    · exact Nat.one_pos
    · exact Nat.lt_of_lt_of_le (width_pos l) (Nat.le_max_left _ _)
  | .logAnd l r => exact Nat.lt_of_lt_of_le (width_pos l) (Nat.le_max_left _ _)
  | .logOr l r => exact Nat.lt_of_lt_of_le (width_pos l) (Nat.le_max_left _ _)
  | .cond _ t _ => exact width_pos t
  | .comma _ r => exact width_pos r
  | .assign _ x _ => exact (P.vars x).width_pos
  | .incDec _ _ x => exact (P.vars x).width_pos
  | .call f _ => exact (P.functions f).result.width_pos .result

theorem ofInt_width {w u : ℕ} (h : w = u) (hw : 0 < w) (hu : 0 < u) : ofInt w hw = ofInt u hu := by
  subst h
  rfl

section Operands

variable {l r : Expr} {s s1 s2 s3 : State} {x y : LlvmInt} {a b : CValue}

theorem lowerUnop_reads (op : UnaryOp) (hx : lowerExpr P l s = some (x, s1)) (hxr : Reads true x a) :
    lowerUnop (unaryData op) x = (unaryNumber op (signedIn P l a.value)).map
      (ofInt (width P (.unary op l)) (width_pos _)) := by
  have hfun : (if op = .not then ofInt 1 Nat.one_pos else ofInt x.width x.width_pos) =
      ofInt (width P (.unary op l)) (width_pos _) := by
    split_ifs with hop
    · exact ofInt_width (by rw [width, if_pos hop]) _ _
    · exact ofInt_width (by rw [width, if_neg hop, width_lowerExpr l hx]) _ _
  rw [lowerUnop_eq, hfun, toInt_of_reads hx hxr]

theorem lowerBinop_reads (op : Operator) (hx : lowerExpr P l s = some (x, s1)) (hxr : Reads true x a)
    (hy : lowerExpr P r s2 = some (y, s3)) (hyr : Reads true y b) :
    lowerBinop op.data (coerce x y) =
      (binaryNumber op (max (width P l) (width P r)) (signedIn P l a.value)
        (signedIn P r b.value)).map (ofInt (width P (.binary op l r)) (width_pos _)) := by
  obtain ⟨hw, hlhs, hrhs⟩ := coerce_eq x y
  rw [width_lowerExpr l hx, width_lowerExpr r hy] at hw
  have hfun : (if op.isComparison then ofInt 1 Nat.one_pos
      else ofInt (coerce x y).width (coerce x y).width_pos) =
      ofInt (width P (.binary op l r)) (width_pos _) := by
    split_ifs with hop
    · exact ofInt_width (by rw [width, if_pos hop]) _ _
    · exact ofInt_width (by rw [width, if_neg hop, hw]) _ _
  rw [lowerBinop_eq, hfun, hlhs, hrhs, hw, toInt_of_reads hx hxr, toInt_of_reads hy hyr]

theorem lowerLogAnd_reads (hx : lowerExpr P l s = some (x, s1)) (hxr : Reads true x a)
    (hy : lowerExpr P r s2 = some (y, s3)) :
    lowerBinop 12 (coerce x y) = some (ofInt (max (width P l) (width P r)) (width_pos (.logAnd l r))
      (bitwise (max (width P l) (width P r)) (· &&& ·) (signedIn P l a.value) y.bits.toInt)) := by
  obtain ⟨hw, hlhs, hrhs⟩ := coerce_eq x y
  rw [width_lowerExpr l hx, width_lowerExpr r hy] at hw
  rw [lowerBinop_logAnd, ofInt_width hw _ (width_pos (.logAnd l r)), hlhs, hrhs, hw,
    toInt_of_reads hx hxr]

theorem lowerLogOr_reads (hx : lowerExpr P l s = some (x, s1)) (hxr : Reads true x a)
    (hy : lowerExpr P r s2 = some (y, s3)) :
    lowerBinop 13 (coerce x y) = some (ofInt (max (width P l) (width P r)) (width_pos (.logOr l r))
      (bitwise (max (width P l) (width P r)) (· ||| ·) (signedIn P l a.value) y.bits.toInt)) := by
  obtain ⟨hw, hlhs, hrhs⟩ := coerce_eq x y
  rw [width_lowerExpr l hx, width_lowerExpr r hy] at hw
  rw [lowerBinop_logOr, ofInt_width hw _ (width_pos (.logOr l r)), hlhs, hrhs, hw,
    toInt_of_reads hx hxr]

end Operands

/-- What is said of every outcome is said of the one there is. -/
theorem forall_run_iff {α : Type} {a : α} {s : State} (Q : α → State → Prop) :
    (∀ a' s', some (a, s) = some (a', s') → Q a' s') ↔ Q a s := by
  constructor
  · intro hall
    exact hall a s rfl
  · intro hQ a' s' heq
    obtain ⟨rfl, rfl⟩ := Prod.mk.inj (Option.some.inj heq)
    exact hQ

theorem fitsIf_some {wanted : Bool} {c : CValue} {w : ℕ} {k : ℤ} :
    FitsIf wanted c w (some k) ↔ (wanted → Fits c w (some k)) := by
  simp [FitsIf]

theorem inReach_zero (signed : Bool) (w : ℕ) : InReach signed w 0 := by
  have hpow : (0 : ℤ) < 2 ^ w := Int.pow_pos (by decide)
  have hhalf : (0 : ℤ) < 2 ^ (w - 1) := Int.pow_pos (by decide)
  unfold InReach
  split_ifs <;> omega

theorem bitwise_zero (w : ℕ) (k : ℤ) : bitwise w (· &&& ·) 0 k = 0 := by
  simp [bitwise]

section Values

variable {wanted : Bool} {l r e : Expr} {s : State}

theorem right_var (x : String) : Right P wanted (.var x) s ↔ NodeFits P wanted (.var x) s := by
  have h : Right P wanted (.var x) s ↔ ∀ c ∈ cLoad P x s, FitsIf wanted c _ (some (s.mem x)) :=
    right_iff_fitsIf (C := cLoad P x s) (n := some (s.mem x)) rfl rfl
  refine h.trans (forall₂_congr fun c _ => ?_)
  exact and_iff_right rfl

theorem right_intConst (data : ℕ) (value : ℤ) :
    Right P wanted (.intConst data value) s ↔ NodeFits P wanted (.intConst data value) s := by
  have hC : cEval P (.intConst data value) s =
      (if int.Holds value then some (⟨int, value⟩ : CValue) else none).map (·, s) := by
    unfold cEval
    split_ifs <;> rfl
  refine (right_iff_fitsIf (n := some (data : ℤ)) hC rfl).trans ?_
  unfold NodeFits FitsIf
  split_ifs with hv
  · simp [hv]
  · simp [hv]

theorem right_unary (op : UnaryOp) (he : Right P true e s) :
    Right P wanted (.unary op e) s ↔ NodeFits P wanted (.unary op e) s := by
  rw [NodeFits]
  rcases hce : cEval P e s with _ | ⟨a, s1⟩
  · simp [Right, cEval, hce]
  · obtain ⟨x, hx, hxr⟩ := he a s1 hce
    have hC : cEval P (.unary op e) s = (cUnary op a).map (·, s1) := by
      simp only [cEval, hce, Option.bind_eq_bind, Option.bind_some]
      cases cUnary op a <;> rfl
    have hL : lowerExpr P (.unary op e) s =
        (lowerUnop (unaryData op) x).map (·, s1) := by
      simp only [lowerExpr, hx, Option.bind_eq_bind, Option.bind_some]
      cases lowerUnop (unaryData op) x <;> rfl
    rw [lowerUnop_reads op hx hxr] at hL
    rw [forall_run_iff]
    exact right_iff_fitsIf hC hL

theorem right_binary (op : Operator) (hl : Right P true l s)
    (hr : ∀ a s1, cEval P l s = some (a, s1) → Right P true r s1) :
    Right P wanted (.binary op l r) s ↔ NodeFits P wanted (.binary op l r) s := by
  rw [NodeFits]
  rcases hcl : cEval P l s with _ | ⟨a, s1⟩
  · simp [Right, cEval, hcl]
  · obtain ⟨x, hx, hxr⟩ := hl a s1 hcl
    rw [forall_run_iff]
    rcases hcr : cEval P r s1 with _ | ⟨b, s2⟩
    · simp [Right, cEval, hcl, hcr]
    · obtain ⟨y, hy, hyr⟩ := hr a s1 hcl b s2 hcr
      have hC : cEval P (.binary op l r) s = (cBinary op.meaning a b).map (·, s2) := by
        simp only [cEval, hcl, hcr, Option.bind_eq_bind, Option.bind_some]
        cases cBinary op.meaning a b <;> rfl
      have hL : lowerExpr P (.binary op l r) s =
          (lowerBinop op.data (coerce x y)).map (·, s2) := by
        simp only [lowerExpr, hx, hy, Option.bind_eq_bind, Option.bind_some]
        cases lowerBinop op.data (coerce x y) <;> rfl
      rw [lowerBinop_reads op hx hxr hy hyr] at hL
      rw [forall_run_iff]
      exact right_iff_fitsIf hC hL

theorem right_logAnd (hl : Right P true l s)
    (hr : ∀ a s1, cEval P l s = some (a, s1) → a.value ≠ 0 → Right P true r s1) :
    Right P wanted (.logAnd l r) s ↔ NodeFits P wanted (.logAnd l r) s := by
  rw [NodeFits]
  rcases hcl : cEval P l s with _ | ⟨a, s1⟩
  · simp [Right, cEval, hcl]
  · obtain ⟨x, hx, hxr⟩ := hl a s1 hcl
    rw [forall_run_iff]
    by_cases hzero : a.value = 0
    · have hC : cEval P (.logAnd l r) s = some (⟨int, 0⟩, s1) := by
        simp [cEval, hcl, hzero]
      have hL : lowerExpr P (.logAnd l r) s = (lowerExpr P r s1).map fun p =>
          (ofInt (max (width P l) (width P r)) (width_pos (.logAnd l r)) 0, p.2) := by
        simp only [lowerExpr, hx, Option.bind_eq_bind, Option.bind_some]
        rcases hy : lowerExpr P r s1 with _ | ⟨y, s2⟩
        · rfl
        · simp only [Option.bind_some, lowerLogAnd_reads hx hxr hy, hzero, signedIn, Int.zero_bmod,
            bitwise_zero]
          rfl
      simp only [hzero, true_implies, ne_eq, not_true_eq_false, false_implies, and_true]
      unfold Right
      rw [hC, hL, forall_run_iff, ← idle_iff]
      constructor
      · rintro ⟨v, hv, -⟩
        obtain ⟨⟨y, s2⟩, hy, hpair⟩ := Option.map_eq_some_iff.1 hv
        obtain rfl := (Prod.mk.inj hpair).2
        exact ⟨y, hy⟩
      · rintro ⟨y, hy⟩
        rw [hy]
        exact ⟨_, rfl, fun _ => (read_ofInt_iff _ _ _).2 ⟨inReach_zero _ _, rfl⟩⟩
    · simp only [hzero, false_implies, true_and, ne_eq, not_false_eq_true, true_implies]
      rcases hcr : cEval P r s1 with _ | ⟨b, s2⟩
      · simp [Right, cEval, hcl, hzero, hcr]
      · obtain ⟨y, hy, hyr⟩ := hr a s1 hcl hzero b s2 hcr
        have hC : cEval P (.logAnd l r) s =
            (some (⟨int, boolValue (b.value ≠ 0)⟩ : CValue)).map (·, s2) := by
          simp [cEval, hcl, hzero, hcr]
        have hL : lowerExpr P (.logAnd l r) s =
            (lowerBinop 12 (coerce x y)).map (·, s2) := by
          simp only [lowerExpr, hx, hy, Option.bind_eq_bind, Option.bind_some]
          cases lowerBinop 12 (coerce x y) <;> rfl
        rw [lowerLogAnd_reads hx hxr hy, toInt_of_reads hy hyr] at hL
        rw [forall_run_iff]
        refine (right_iff_fitsIf (n := some _) hC hL).trans ?_
        simp only [Option.mem_some_iff, forall_eq', fitsIf_some]

/-- A value that is made from a number is read as C's when it fits. -/
theorem reads_ofInt_iff {c : CValue} {w : ℕ} (hw : 0 < w) (k : ℤ) :
    (ofInt w hw k).read c.type.signed = c.value ↔ Fits c w (some k) := by
  rw [← reads_iff_fits c hw (some k)]
  simp

theorem right_logOr (hl : Right P true l s)
    (hr : ∀ a s1, cEval P l s = some (a, s1) → a.value = 0 → Right P true r s1) :
    Right P wanted (.logOr l r) s ↔ NodeFits P wanted (.logOr l r) s := by
  rw [NodeFits]
  rcases hcl : cEval P l s with _ | ⟨a, s1⟩
  · simp [Right, cEval, hcl]
  · obtain ⟨x, hx, hxr⟩ := hl a s1 hcl
    rw [forall_run_iff]
    by_cases hzero : a.value = 0
    · simp only [hzero, ne_eq, not_true_eq_false, false_implies, true_implies, true_and]
      rcases hcr : cEval P r s1 with _ | ⟨b, s2⟩
      · simp [Right, cEval, hcl, hzero, hcr]
      · obtain ⟨y, hy, hyr⟩ := hr a s1 hcl hzero b s2 hcr
        have hC : cEval P (.logOr l r) s =
            (some (⟨int, boolValue (b.value ≠ 0)⟩ : CValue)).map (·, s2) := by
          simp [cEval, hcl, hzero, hcr]
        have hL : lowerExpr P (.logOr l r) s =
            (lowerBinop 13 (coerce x y)).map (·, s2) := by
          simp only [lowerExpr, hx, hy, Option.bind_eq_bind, Option.bind_some]
          cases lowerBinop 13 (coerce x y) <;> rfl
        rw [lowerLogOr_reads hx hxr hy, toInt_of_reads hy hyr, hzero] at hL
        rw [forall_run_iff]
        refine (right_iff_fitsIf (n := some _) hC hL).trans ?_
        simp only [Option.mem_some_iff, forall_eq', fitsIf_some]
    · have hC : cEval P (.logOr l r) s = some (⟨int, 1⟩, s1) := by
        simp [cEval, hcl, hzero]
      have hL : lowerExpr P (.logOr l r) s = (lowerExpr P r s1).map fun p =>
          (ofInt (max (width P l) (width P r)) (width_pos (.logOr l r))
            (bitwise (max (width P l) (width P r)) (· ||| ·) (signedIn P l a.value)
              p.1.bits.toInt), p.2) := by
        simp only [lowerExpr, hx, Option.bind_eq_bind, Option.bind_some]
        rcases hy : lowerExpr P r s1 with _ | ⟨y, s2⟩
        · rfl
        · simp only [Option.bind_some, lowerLogOr_reads hx hxr hy]
          rfl
      simp only [hzero, ne_eq, not_false_eq_true, true_implies, false_implies, and_true]
      unfold Right
      rw [hC, hL, forall_run_iff]
      constructor
      · rintro ⟨v, hv, hread⟩
        obtain ⟨⟨y, s2⟩, hy, hpair⟩ := Option.map_eq_some_iff.1 hv
        obtain ⟨rfl, rfl⟩ := Prod.mk.inj hpair
        refine ⟨idle_iff.1 ⟨y, hy⟩, fun hwanted k hk => ?_⟩
        simp only [idleNumber, hy, Option.map_some, Option.mem_some_iff] at hk
        subst hk
        exact (reads_ofInt_iff _ _).1 (hread hwanted)
      · rintro ⟨hidle, hfits⟩
        obtain ⟨y, hy⟩ := idle_iff.2 hidle
        rw [hy]
        refine ⟨_, rfl, fun hwanted => (reads_ofInt_iff _ _).2 (hfits hwanted _ ?_)⟩
        simp [idleNumber, hy]

theorem right_comma (hr : ∀ a s1, cEval P l s = some (a, s1) → Right P wanted r s1)
    (hl : Right P false l s) : Right P wanted (.comma l r) s := by
  intro c s' hc
  simp only [cEval, Option.bind_eq_bind, Option.bind_eq_some_iff, Prod.exists] at hc
  obtain ⟨a, s1, hcl, hcr⟩ := hc
  obtain ⟨x, hx, -⟩ := hl a s1 hcl
  obtain ⟨y, hy, hread⟩ := hr a s1 hcl c s' hcr
  refine ⟨y, ?_, hread⟩
  simp only [lowerExpr, hx, Option.bind_eq_bind, Option.bind_some]
  exact hy

theorem truth_eq (signed : Bool) (x : LlvmInt) : truth x = decide (x.read signed ≠ 0) := by
  have hmod := read_emod signed x
  have hlt := x.bits.isLt
  have hpow := cast_two_pow x.width
  unfold truth
  by_cases hbits : x.bits = 0
  · have hread : x.read signed = 0 := by
      unfold LlvmInt.read
      rw [hbits]
      split_ifs <;> simp
    simp [hbits, hread]
  · have hread : x.read signed ≠ 0 := by
      intro hzero
      rw [hzero, Int.zero_emod, Int.emod_eq_of_lt (by omega) (by omega)] at hmod
      exact hbits (BitVec.eq_of_toNat_eq (by simpa using hmod.symm))
    rw [decide_eq_true hread, bne_iff_ne]
    exact hbits

theorem read_eq_iff {x : LlvmInt} {w : ℕ} (hw : x.width = w) (c : CValue) :
    x.read c.type.signed = c.value ↔ Fits c w (some x.bits.toInt) := by
  subst hw
  rw [← reads_ofInt_iff x.width_pos, IntegerExpr.ofInt_toInt]

/-- A value that is C's at its own type, read at another. -/
theorem read_iff_fits {e : Expr} {s s' : State} {x : LlvmInt} {v c : CValue}
    (hx : lowerExpr P e s = some (x, s')) (hread : x.read v.type.signed = v.value) :
    x.read c.type.signed = c.value ↔ Fits c (width P e) (some (signedIn P e v.value)) := by
  rw [read_eq_iff (width_lowerExpr e hx), toInt_of_reads hx fun _ => hread]

/-- Where the condition is zero, the code for the first arm runs in front of the second one. -/
theorem right_cond_zero {c t : Expr} {a : CValue} {x : LlvmInt} {s1 : State}
    (hcc : cEval P c s = some (a, s1)) (hx : lowerExpr P c s = some (x, s1)) (hzero : a.value = 0)
    (hfalse : truth x = false) (he : Right P wanted e s1) :
    Right P wanted (.cond c t e) s ↔ ∀ v s2, cEval P e s1 = some (v, s2) →
      Idle P t s1 ∧ (wanted →
        if width P t = width P e then
          Fits ⟨usual (typeOf P t) (typeOf P e), (usual (typeOf P t) (typeOf P e)).convert v.value⟩
            (width P e) (some (signedIn P e v.value))
        else ∀ k ∈ idleNumber P t s1,
          Fits ⟨usual (typeOf P t) (typeOf P e), (usual (typeOf P t) (typeOf P e)).convert v.value⟩
            (width P t) (some k)) := by
  rcases hce : cEval P e s1 with _ | ⟨v, s2⟩
  · simp [Right, cEval, hcc, hzero, hce]
  · obtain ⟨z, hz, hzr⟩ := he v s2 hce
    rw [forall_run_iff]
    have hC : cEval P (.cond c t e) s =
        some (⟨usual (typeOf P t) (typeOf P e),
          (usual (typeOf P t) (typeOf P e)).convert v.value⟩, s2) := by
      simp [cEval, hcc, hzero, hce]
    have hL : lowerExpr P (.cond c t e) s = (lowerExpr P t s1).bind fun p =>
        (lowerExpr P e p.2).map fun q => (if p.1.width = q.1.width then q.1 else p.1, q.2) := by
      simp only [lowerExpr, hx, hfalse, Bool.false_eq_true, if_false, Option.bind_eq_bind,
        Option.bind_some]
      rcases lowerExpr P t s1 with _ | ⟨y, s1'⟩
      · rfl
      · simp only [Option.bind_some]
        rcases lowerExpr P e s1' with _ | ⟨z', s3⟩ <;> rfl
    -- what is left of the two arms when the first one does nothing
    have hvalue : ∀ y, lowerExpr P t s1 = some (y, s1) → wanted →
        ((if y.width = z.width then z else y).read
            (usual (typeOf P t) (typeOf P e)).signed =
          (usual (typeOf P t) (typeOf P e)).convert v.value ↔
        if width P t = width P e then
          Fits ⟨usual (typeOf P t) (typeOf P e),
            (usual (typeOf P t) (typeOf P e)).convert v.value⟩ (width P e)
            (some (signedIn P e v.value))
        else ∀ k ∈ idleNumber P t s1,
          Fits ⟨usual (typeOf P t) (typeOf P e),
            (usual (typeOf P t) (typeOf P e)).convert v.value⟩ (width P t) (some k)) := by
      intro y hy hwanted
      rw [width_lowerExpr t hy, width_lowerExpr e hz]
      split_ifs with hw
      · exact read_iff_fits (c := ⟨_, _⟩) hz (hzr hwanted)
      · have hread := read_eq_iff (width_lowerExpr t hy) ⟨usual (typeOf P t) (typeOf P e),
          (usual (typeOf P t) (typeOf P e)).convert v.value⟩
        simpa [idleNumber, hy] using hread
    unfold Right
    rw [hC, hL, forall_run_iff]
    constructor
    · rintro ⟨v', hv', hread⟩
      obtain ⟨⟨y, s1'⟩, hy, hmap⟩ := Option.bind_eq_some_iff.1 hv'
      obtain ⟨⟨z', s3⟩, hz', hpair⟩ := Option.map_eq_some_iff.1 hmap
      obtain rfl : s3 = s2 := (Prod.mk.inj hpair).2
      obtain rfl := (Prod.mk.inj hpair).1
      have hlength := (lowerExpr_extends e hz).length
      have hlength' : s3.events.length = s1'.events.length + effects e :=
        (lowerExpr_extends e hz').length
      have hlengtht := (lowerExpr_extends t hy).length
      have hnone : effects t = 0 := by omega
      obtain rfl := (lowerExpr_extends t hy).same hnone
      obtain ⟨rfl, -⟩ := Prod.mk.inj (Option.some.inj (hz'.symm.trans hz))
      exact ⟨idle_iff.1 ⟨y, hy⟩, fun hwanted => (hvalue y hy hwanted).1 (hread hwanted)⟩
    · rintro ⟨hidle, hfits⟩
      obtain ⟨y, hy⟩ := idle_iff.2 hidle
      rw [hy, Option.bind_some, hz]
      exact ⟨_, rfl, fun hwanted => (hvalue y hy hwanted).2 (hfits hwanted)⟩

/-- Where the condition is not zero, the code for the second arm runs behind the first one. -/
theorem right_cond_nonzero {c t : Expr} {a : CValue} {x : LlvmInt} {s1 : State}
    (hcc : cEval P c s = some (a, s1)) (hx : lowerExpr P c s = some (x, s1)) (hzero : a.value ≠ 0)
    (htrue : truth x = true) (ht : Right P wanted t s1) :
    Right P wanted (.cond c t e) s ↔ ∀ v s2, cEval P t s1 = some (v, s2) →
      Idle P e s2 ∧ (wanted →
        Fits ⟨usual (typeOf P t) (typeOf P e), (usual (typeOf P t) (typeOf P e)).convert v.value⟩
          (width P t) (some (signedIn P t v.value))) := by
  rcases hct : cEval P t s1 with _ | ⟨v, s2⟩
  · simp [Right, cEval, hcc, hzero, hct]
  · obtain ⟨y, hy, hyr⟩ := ht v s2 hct
    rw [forall_run_iff]
    have hC : cEval P (.cond c t e) s =
        some (⟨usual (typeOf P t) (typeOf P e),
          (usual (typeOf P t) (typeOf P e)).convert v.value⟩, s2) := by
      simp [cEval, hcc, hzero, hct]
    have hL : lowerExpr P (.cond c t e) s = (lowerExpr P e s2).map fun p => (y, p.2) := by
      simp only [lowerExpr, hx, hy, htrue, if_true, ite_self, Option.bind_eq_bind,
        Option.bind_some]
      rcases lowerExpr P e s2 with _ | ⟨z, s3⟩ <;> rfl
    unfold Right
    rw [hC, hL, forall_run_iff]
    constructor
    · rintro ⟨y', hy', hread⟩
      obtain ⟨⟨z, s3⟩, hz, hpair⟩ := Option.map_eq_some_iff.1 hy'
      obtain ⟨rfl, rfl⟩ := Prod.mk.inj hpair
      exact ⟨idle_iff.1 ⟨z, hz⟩, fun hwanted =>
        (read_iff_fits hy (hyr hwanted)).1 (hread hwanted)⟩
    · rintro ⟨hidle, hfits⟩
      obtain ⟨z, hz⟩ := idle_iff.2 hidle
      rw [hz]
      exact ⟨y, rfl, fun hwanted => (read_iff_fits hy (hyr hwanted)).2 (hfits hwanted)⟩

theorem right_cond {c t : Expr} (hc : Right P true c s)
    (ht : ∀ a s1, cEval P c s = some (a, s1) → a.value ≠ 0 → Right P wanted t s1)
    (he : ∀ a s1, cEval P c s = some (a, s1) → a.value = 0 → Right P wanted e s1) :
    Right P wanted (.cond c t e) s ↔ NodeFits P wanted (.cond c t e) s := by
  rw [NodeFits]
  rcases hcc : cEval P c s with _ | ⟨a, s1⟩
  · simp [Right, cEval, hcc]
  · obtain ⟨x, hx, hxr⟩ := hc a s1 hcc
    rw [forall_run_iff]
    by_cases hzero : a.value = 0
    · have hfalse : truth x = false := by
        rw [truth_eq a.type.signed, hxr rfl, hzero]
        rfl
      simp only [hzero, ne_eq, not_true_eq_false, false_implies, true_implies, true_and]
      exact right_cond_zero hcc hx hzero hfalse (he a s1 hcc hzero)
    · have htrue : truth x = true := by
        rw [truth_eq a.type.signed, hxr rfl]
        exact decide_eq_true hzero
      simp only [hzero, ne_eq, not_false_eq_true, true_implies, false_implies, and_true]
      exact right_cond_nonzero hcc hx hzero htrue (ht a s1 hcc hzero)

end Values

section Stores

variable {wanted : Bool} {e : Expr} {s : State}

theorem put_inj {x : String} {v w : ℤ} (h : s.put x v = s.put x w) : v = w := by
  have hevents := congrArg State.events h
  simpa [State.put] using hevents

theorem after_inj {f : String} {as bs : List ℤ} (h : s.after P f as = s.after P f bs) : as = bs := by
  have hevents := congrArg State.events h
  simpa [State.after] using hevents

/-- What a variable holds is read back. -/
theorem read_load_put {x : String} {v : LlvmInt} (hv : v.width = (P.vars x).width) :
    (load P x (s.put x (held P x v))).read (P.vars x).decl.type.signed = held P x v := by
  have hmem : (s.put x (held P x v)).mem x = held P x v := Function.update_self x _ _
  unfold load
  rw [hmem, read_ofInt_iff]
  refine ⟨?_, rfl⟩
  rw [← hv]
  exact inReach_read _ v

theorem intCast_ofInt {w u : ℕ} (hle : u ≤ w) (hw : 0 < w) (hu : 0 < u) (k : ℤ) :
    (ofInt w hw k).intCast u hu = ofInt u hu k := by
  rw [intCast_eq]
  unfold ofInt
  have hemod : Int.bmod k (2 ^ w) % 2 ^ u = k % 2 ^ u := by
    rw [← emod_emod_of_le hle (Int.bmod k (2 ^ w)), ← emod_emod_of_le hle k, ← cast_two_pow w,
      Int.bmod_emod]
  have hmod : Int.bmod (Int.bmod k (2 ^ w)) (2 ^ u) = Int.bmod k (2 ^ u) := by
    rw [← Int.emod_bmod, cast_two_pow u, hemod, ← cast_two_pow u, Int.emod_bmod]
  have hbits : BitVec.ofInt u (BitVec.ofInt w k).toInt = BitVec.ofInt u k := by
    apply BitVec.eq_of_toInt_eq
    rw [BitVec.toInt_ofInt, BitVec.toInt_ofInt, BitVec.toInt_ofInt, hmod]
  rw [hbits]

/-- What an assignment stores is made from its number. -/
theorem lowerAssigned_reads {op : Option Operator} {x : String} {y : LlvmInt} {s1 : State}
    {b c : CValue} (hy : lowerExpr P e s = some (y, s1)) (hyr : Reads true y b)
    (hc : c ∈ assigned P op x b s1) :
    (lowerAssigned P op x y s1).map (fun v => v.intCast (P.vars x).width (P.vars x).width_pos) =
      (assignNumber P op x e b s1).map (ofInt (P.vars x).width (P.vars x).width_pos) := by
  cases op with
  | none =>
    simp only [lowerAssigned, assignNumber, Option.map_some, intCast_eq, toInt_of_reads hy hyr]
  | some op =>
    have hop : op.isComparison = false := by
      unfold assigned at hc
      cases hop : op.isComparison with
      | false => rfl
      | true => simp [hop] at hc
    obtain ⟨hw, hlhs, hrhs⟩ := coerce_eq (load P x s1) y
    rw [width_lowerExpr e hy] at hw
    have hload : (load P x s1).bits.toInt = Int.bmod (s1.mem x) (2 ^ (P.vars x).width) :=
      BitVec.toInt_ofInt _
    have hle : (P.vars x).width ≤ (coerce (load P x s1) y).width := by
      rw [hw]
      exact Nat.le_max_left _ _
    simp only [lowerAssigned, assignNumber, hop, Bool.false_eq_true, if_false, lowerBinop_eq,
      Option.map_map]
    have hfun : (fun v : LlvmInt => v.intCast (P.vars x).width (P.vars x).width_pos) ∘
        ofInt (coerce (load P x s1) y).width (coerce (load P x s1) y).width_pos =
        ofInt (P.vars x).width (P.vars x).width_pos := funext fun k => intCast_ofInt hle _ _ k
    rw [hfun, hlhs, hrhs, hload, toInt_of_reads hy hyr, hw]
    rfl

theorem right_assign (op : Option Operator) (x : String) (he : Right P true e s) :
    Right P wanted (.assign op x e) s ↔ NodeFits P wanted (.assign op x e) s := by
  rw [NodeFits]
  rcases hce : cEval P e s with _ | ⟨b, s1⟩
  · simp [Right, cEval, hce]
  · obtain ⟨y, hy, hyr⟩ := he b s1 hce
    rw [forall_run_iff]
    have hC : cEval P (.assign op x e) s = (assigned P op x b s1).map fun c =>
        (⟨(P.vars x).decl.type, (P.vars x).decl.type.convert c.value⟩,
          s1.put x ((P.vars x).decl.type.convert c.value)) := by
      simp only [cEval, hce, Option.bind_eq_bind, Option.bind_some]
      cases assigned P op x b s1 <;> rfl
    have hL : lowerExpr P (.assign op x e) s =
        ((lowerAssigned P op x y s1).map fun v =>
          v.intCast (P.vars x).width (P.vars x).width_pos).map fun v =>
            (load P x (s1.put x (held P x v)), s1.put x (held P x v)) := by
      simp only [lowerExpr, hy, Option.bind_eq_bind, Option.bind_some]
      cases lowerAssigned P op x y s1 <;> rfl
    unfold Right
    rw [hC, hL]
    constructor
    · intro h c hc
      rw [lowerAssigned_reads hy hyr hc] at h
      obtain ⟨v, hv, -⟩ := h _ _ (by rw [Option.mem_def.1 hc]; rfl)
      obtain ⟨v', hv', hpair⟩ := Option.map_eq_some_iff.1 hv
      have hheld := put_inj (Prod.mk.inj hpair).2
      exact (reads_iff_fits (⟨_, _⟩ : CValue) _ _).1 ⟨v', hv', hheld⟩
    · intro h c s' hc
      obtain ⟨c', hc', hpair⟩ := Option.map_eq_some_iff.1 hc
      obtain ⟨rfl, rfl⟩ := Prod.mk.inj hpair
      obtain ⟨v, hv, hheld⟩ := (reads_iff_fits (⟨_, _⟩ : CValue) (P.vars x).width_pos _).2 (h c' hc')
      have hwidth : v.width = (P.vars x).width := by
        obtain ⟨k, -, rfl⟩ := Option.map_eq_some_iff.1 hv
        rfl
      have hstored : held P x v = (P.vars x).decl.type.convert c'.value := hheld
      rw [lowerAssigned_reads hy hyr hc', hv, ← hstored]
      exact ⟨_, rfl, fun _ => read_load_put hwidth⟩

theorem inType_emod {t : IntType} {v : ℤ} {c : CValue} (h : inType t v = some c) :
    c.value % 2 ^ t.width = v % 2 ^ t.width := by
  unfold inType at h
  split_ifs at h with hsigned hholds
  · obtain rfl := Option.some.inj h
    rfl
  · obtain rfl := Option.some.inj h
    exact IntType.convert_emod t v

theorem width_le_usual (t : IntType) : t.width ≤ (usual t int).width := by
  have hint : int.width = 32 := rfl
  simp only [usual, promote]
  split_ifs <;> omega

/-- One more or one less in the type of the sum is so in the type of the variable. -/
theorem incDec_emod {dec : Bool} {a c : CValue}
    (hc : c ∈ cBinary (if dec then .sub else .add) a ⟨int, 1⟩) :
    c.value % 2 ^ a.type.width =
      (if dec then a.value - 1 else a.value + 1) % 2 ^ a.type.width := by
  have hle := width_le_usual a.type
  have hx := IntType.convert_emod (usual a.type int) a.value
  have hy := IntType.convert_emod (usual a.type int) 1
  rw [← emod_emod_of_le hle c.value]
  cases dec with
  | true =>
    have hmod := inType_emod (show inType (usual a.type int) _ = some c from hc)
    rw [hmod, Int.sub_emod, hx, hy, ← Int.sub_emod, emod_emod_of_le hle]
    rfl
  | false =>
    have hmod := inType_emod (show inType (usual a.type int) _ = some c from hc)
    rw [hmod, Int.add_emod, hx, hy, ← Int.add_emod, emod_emod_of_le hle]
    rfl

/-- `++` and `--` change the value. -/
theorem incDec_ne {dec : Bool} {a c : CValue}
    (hc : c ∈ cBinary (if dec then .sub else .add) a ⟨int, 1⟩) :
    a.type.convert c.value ≠ a.value := by
  intro heq
  have hconv := IntType.convert_emod a.type c.value
  rw [heq, incDec_emod hc] at hconv
  have hone : (1 : ℤ) % 2 ^ a.type.width = 1 := by
    have hpow := IntType.two_pow_width a.type
    have hpos : (0 : ℤ) < 2 ^ (a.type.width - 1) := Int.pow_pos (by decide)
    exact Int.emod_eq_of_lt (by decide) (by omega)
  cases dec with
  | true =>
    have hsub := Int.emod_eq_emod_iff_emod_sub_eq_zero.1 hconv
    rw [if_pos rfl, Int.sub_sub_self] at hsub
    omega
  | false =>
    have hsub := Int.emod_eq_emod_iff_emod_sub_eq_zero.1 hconv.symm
    rw [if_neg nofun, show a.value + 1 - a.value = 1 by omega] at hsub
    omega

theorem cLoad_eq {x : String} {a : CValue} (ha : a ∈ cLoad P x s) :
    a = ⟨(P.vars x).decl.type, s.mem x⟩ := by
  simp only [cLoad] at ha
  split_ifs at ha with hholds
  · exact (Option.some.inj ha).symm
  · cases ha

theorem ofInt_add_one (w : ℕ) (k : ℤ) : BitVec.ofInt w k + 1#w = BitVec.ofInt w (k + 1) := by
  rw [BitVec.ofInt_add]
  rfl

theorem ofInt_sub_one (w : ℕ) (k : ℤ) : BitVec.ofInt w k - 1#w = BitVec.ofInt w (k - 1) := by
  rw [Int.sub_eq_add_neg, BitVec.ofInt_add, BitVec.ofInt_neg, BitVec.sub_eq_add_neg]
  rfl

theorem right_incDec (dec isPostfix : Bool) (x : String) :
    Right P wanted (.incDec dec isPostfix x) s ↔ NodeFits P wanted (.incDec dec isPostfix x) s := by
  rw [NodeFits]
  have hC : cEval P (.incDec dec isPostfix x) s = (cLoad P x s).bind fun a =>
      (cBinary (if dec then .sub else .add) a ⟨int, 1⟩).map fun c =>
        (if isPostfix then a else ⟨a.type, a.type.convert c.value⟩,
          s.put x (a.type.convert c.value)) := by
    simp only [cEval, Option.bind_eq_bind]
    congr 1
    funext a
    cases cBinary (if dec then .sub else .add) a ⟨int, 1⟩ <;> rfl
  have hL : lowerExpr P (.incDec dec isPostfix x) s =
      some (ofInt (P.vars x).width (P.vars x).width_pos
          (if dec then s.mem x - 1 else s.mem x + 1),
        s.put x (held P x (ofInt (P.vars x).width (P.vars x).width_pos
          (if dec then s.mem x - 1 else s.mem x + 1)))) := by
    have hupdated : (⟨(load P x s).width, (load P x s).width_pos,
        if dec then (load P x s).bits - 1 else (load P x s).bits + 1⟩ : LlvmInt) =
        ofInt (P.vars x).width (P.vars x).width_pos
          (if dec then s.mem x - 1 else s.mem x + 1) := by
      cases dec with
      | true => exact congrArg _ (ofInt_sub_one _ _)
      | false => exact congrArg _ (ofInt_add_one _ _)
    rw [← hupdated]
    rfl
  unfold Right
  rw [hC, hL]
  constructor
  · intro h a ha c hc
    obtain ⟨v, hv, hread⟩ := h _ _ (Option.bind_eq_some_iff.2
      ⟨a, ha, Option.map_eq_some_iff.2 ⟨c, hc, rfl⟩⟩)
    obtain ⟨rfl, hput⟩ := Prod.mk.inj (Option.some.inj hv)
    have hheld := put_inj hput
    refine ⟨(reads_ofInt_iff (c := ⟨a.type, a.type.convert c.value⟩)
      (P.vars x).width_pos _).1 ?_, ?_⟩
    · obtain rfl := cLoad_eq ha
      exact hheld
    · rintro ⟨hwanted, hpost⟩
      have hvalue := hread hwanted
      rw [if_pos hpost] at hvalue
      obtain rfl := cLoad_eq ha
      exact incDec_ne hc (hheld.symm.trans hvalue)
  · intro h c' s' hc'
    obtain ⟨a, ha, hmap⟩ := Option.bind_eq_some_iff.1 hc'
    obtain ⟨c, hc, hpair⟩ := Option.map_eq_some_iff.1 hmap
    obtain ⟨rfl, rfl⟩ := Prod.mk.inj hpair
    obtain ⟨hfits, hform⟩ := h a ha c hc
    obtain rfl := cLoad_eq ha
    have hheld : held P x (ofInt (P.vars x).width (P.vars x).width_pos
        (if dec then s.mem x - 1 else s.mem x + 1)) = (P.vars x).decl.type.convert c.value :=
      (reads_ofInt_iff (c := ⟨_, _⟩) (P.vars x).width_pos _).2 hfits
    refine ⟨_, by rw [hheld], fun hwanted => ?_⟩
    have hplain : isPostfix = false := Bool.eq_false_iff.2 fun hp => hform ⟨hwanted, hp⟩
    rw [hplain]
    exact hheld

end Stores

section Calls

variable {wanted : Bool} {s : State}

/-- The arguments that C evaluates are computed in its order and with its values. -/
def ArgsRight (P : Program) (args : Args) (s : State) : Prop :=
  ∀ vs s', cArgs P args s = some (vs, s') →
    ∃ xs, lowerArgs P args s = some (xs, s') ∧ List.Forall₂ (Reads true) xs vs

theorem width_lowerArgs (args : Args) {s s' : State} {xs : List LlvmInt}
    (h : lowerArgs P args s = some (xs, s')) : xs.map LlvmInt.width = argWidths P args := by
  match args with
  | .nil =>
    simp only [lowerArgs, Option.some.injEq, Prod.mk.injEq] at h
    obtain ⟨rfl, -⟩ := h
    rfl
  | .cons e rest =>
    simp only [lowerArgs, Option.bind_eq_bind, Option.bind_eq_some_iff, Prod.exists, Option.pure_def,
      Option.some.injEq, Prod.mk.injEq] at h
    obtain ⟨x, s1, he, xs', s2, hrest, rfl, -⟩ := h
    rw [List.map_cons, width_lowerExpr e he, width_lowerArgs rest hrest]
    rfl

/-- Arguments arrive as their values, cut or extended by zeros. -/
theorem coerceArgs_eq {ds : List Decl} {xs : List LlvmInt} {vs : List CValue} {as : List ℤ}
    (hreads : List.Forall₂ (Reads true) xs vs) (has : convertArgs ds vs = some as) :
    coerceArgs ds xs = arrive ds (xs.map LlvmInt.width) vs := by
  induction ds generalizing xs vs as with
  | nil =>
    cases hreads with
    | nil => rfl
    | cons hx hrest => cases has
  | cons d ds ih =>
    cases hreads with
    | nil => cases has
    | @cons x v xs vs hx hrest =>
      obtain ⟨bs, hbs, -⟩ := Option.map_eq_some_iff.1 has
      have hhead : x.zextOrTrunc (d.width .parameter) (d.width_pos .parameter) =
          ofInt (d.width .parameter) (d.width_pos .parameter) (v.value % 2 ^ x.width) := by
        rw [zextOrTrunc_eq, toNat_eq_emod v.type.signed x, hx rfl]
      simp only [coerceArgs, List.head?_cons, Option.getD_some, List.tail_cons, List.map_cons, arrive,
        ih hrest hbs, hhead]

theorem right_call (f : String) {args : Args} (hargs : ArgsRight P args s) :
    Right P wanted (.call f args) s ↔ NodeFits P wanted (.call f args) s := by
  rw [NodeFits]
  rcases hca : cArgs P args s with _ | ⟨vs, s1⟩
  · simp [Right, cEval, hca]
  · obtain ⟨xs, hxs, hreads⟩ := hargs vs s1 hca
    rw [forall_run_iff]
    have hC : cEval P (.call f args) s = (convertArgs (P.functions f).params vs).map fun as =>
        (⟨(P.functions f).result.type, (P.callee f as s1.mem).2⟩, s1.after P f as) := by
      simp only [cEval, hca, Option.bind_eq_bind, Option.bind_some]
      cases convertArgs (P.functions f).params vs <;> rfl
    have hL : lowerExpr P (.call f args) s = (coerceArgs (P.functions f).params xs).map fun as =>
        (ofInt ((P.functions f).result.width .result) ((P.functions f).result.width_pos .result)
          (P.callee f as s1.mem).2, s1.after P f as) := by
      simp only [lowerExpr, hxs, Option.bind_eq_bind, Option.bind_some]
      cases coerceArgs (P.functions f).params xs <;> rfl
    unfold Right
    rw [hC, hL]
    constructor
    · intro h as has
      rw [coerceArgs_eq hreads has, width_lowerArgs args hxs] at h
      obtain ⟨v, hv, hread⟩ := h _ _ (Option.map_eq_some_iff.2 ⟨as, has, rfl⟩)
      obtain ⟨bs, hbs, hpair⟩ := Option.map_eq_some_iff.1 hv
      obtain ⟨rfl, hafter⟩ := Prod.mk.inj hpair
      obtain rfl := after_inj hafter
      exact ⟨hbs, fun hwanted => (reads_ofInt_iff (c := ⟨_, _⟩) _ _).1 (hread hwanted)⟩
    · intro h c s' hc
      obtain ⟨as, has, hpair⟩ := Option.map_eq_some_iff.1 hc
      obtain ⟨rfl, rfl⟩ := Prod.mk.inj hpair
      obtain ⟨harrive, hfits⟩ := h as has
      rw [coerceArgs_eq hreads has, width_lowerArgs args hxs, harrive]
      exact ⟨_, rfl, fun hwanted => (reads_ofInt_iff (c := ⟨_, _⟩) _ _).2 (hfits hwanted)⟩

end Calls

end Nodes

theorem everywhere_self {Q : Bool → Expr → State → Prop} {wanted : Bool} {e : Expr} {s : State}
    (h : Everywhere P Q wanted e s) : Q wanted e s := by
  cases e with
  | var x => exact h
  | intConst data value => exact h
  | unary op e => exact h.2
  | binary op l r => exact h.2
  | logAnd l r => exact h.2
  | logOr l r => exact h.2
  | cond c t e => exact h.2
  | comma l r => exact h.2
  | assign op x e => exact h.2
  | incDec dec isPostfix x => exact h
  | call f args => exact h.2

theorem argsRight_of_everywhere (args : Args) {s : State} (h : EverywhereArgs P (Right P) args s) :
    ArgsRight P args s := by
  match args with
  | .nil =>
    intro vs s' hvs
    obtain ⟨rfl, rfl⟩ := Prod.mk.inj (Option.some.inj hvs)
    exact ⟨[], rfl, .nil⟩
  | .cons e rest =>
    intro vs s' hvs
    simp only [cArgs, Option.bind_eq_bind, Option.bind_eq_some_iff, Prod.exists, Option.pure_def,
      Option.some.injEq, Prod.mk.injEq] at hvs
    obtain ⟨v, s1, he, vs', s2, hrest, rfl, rfl⟩ := hvs
    obtain ⟨x, hx, hxr⟩ := everywhere_self h.1 v s1 he
    obtain ⟨xs, hxs, hreads⟩ := argsRight_of_everywhere rest (h.2 v s1 he) vs' s2 hrest
    refine ⟨x :: xs, ?_, .cons hxr hreads⟩
    simp only [lowerArgs, hx, hxs, Option.bind_eq_bind, Option.bind_some]
    rfl

mutual

theorem everywhere_iff (P : Program) (wanted : Bool) (e : Expr) (s : State) :
    Everywhere P (Right P) wanted e s ↔ Everywhere P (NodeFits P) wanted e s := by
  match e with
  | .var x => exact right_var x
  | .intConst data value => exact right_intConst data value
  | .unary op e =>
    simp only [Everywhere]
    rw [← everywhere_iff P true e s]
    exact and_congr_right fun h => right_unary op (everywhere_self h)
  | .binary op l r =>
    simp only [Everywhere]
    simp only [← everywhere_iff P true l, ← everywhere_iff P true r]
    exact and_congr_right fun h =>
      right_binary op (everywhere_self h.1) fun a s1 ha => everywhere_self (h.2 a s1 ha)
  | .logAnd l r =>
    simp only [Everywhere]
    simp only [← everywhere_iff P true l, ← everywhere_iff P true r]
    exact and_congr_right fun h =>
      right_logAnd (everywhere_self h.1) fun a s1 ha hne => everywhere_self (h.2 a s1 ha hne)
  | .logOr l r =>
    simp only [Everywhere]
    simp only [← everywhere_iff P true l, ← everywhere_iff P true r]
    exact and_congr_right fun h =>
      right_logOr (everywhere_self h.1) fun a s1 ha hz => everywhere_self (h.2 a s1 ha hz)
  | .cond c t e =>
    simp only [Everywhere]
    simp only [← everywhere_iff P true c, ← everywhere_iff P wanted t,
      ← everywhere_iff P wanted e]
    exact and_congr_right fun h =>
      right_cond (everywhere_self h.1) (fun a s1 ha hne => everywhere_self ((h.2 a s1 ha).1 hne))
        fun a s1 ha hz => everywhere_self ((h.2 a s1 ha).2 hz)
  | .comma l r =>
    simp only [Everywhere]
    simp only [← everywhere_iff P false l, ← everywhere_iff P wanted r]
    refine and_congr_right fun h => iff_of_true ?_ trivial
    exact right_comma (fun a s1 ha => everywhere_self (h.2 a s1 ha)) (everywhere_self h.1)
  | .assign op x e =>
    simp only [Everywhere]
    rw [← everywhere_iff P true e s]
    exact and_congr_right fun h => right_assign op x (everywhere_self h)
  | .incDec dec isPostfix x => exact right_incDec dec isPostfix x
  | .call f args =>
    simp only [Everywhere]
    rw [← everywhereArgs_iff P args s]
    exact and_congr_right fun h => right_call f (argsRight_of_everywhere args h)

theorem everywhereArgs_iff (P : Program) (args : Args) (s : State) :
    EverywhereArgs P (Right P) args s ↔ EverywhereArgs P (NodeFits P) args s := by
  match args with
  | .nil => exact Iff.rfl
  | .cons e rest =>
    simp only [EverywhereArgs]
    simp only [← everywhere_iff P true e, ← everywhereArgs_iff P rest]

end

/-- All that C evaluates of the expression makes C's stores and calls and no others, and has
C's value where it is used. -/
def PerformsAsC (P : Program) (wanted : Bool) (e : Expr) (s : State) : Prop :=
  Everywhere P (Right P) wanted e s

/-- All that C evaluates of the expression fits. -/
def AllFit (P : Program) (wanted : Bool) (e : Expr) (s : State) : Prop :=
  Everywhere P (NodeFits P) wanted e s

/-- Variables of type `int`, and functions that return 0. -/
def intProgram : Program where
  vars := fun _ => ⟨⟨[.int], int, cType_int⟩, .block, block_ne_result⟩
  functions := fun _ => ⟨[], ⟨[.int], int, cType_int⟩⟩
  callee := fun _ _ mem => (mem, 0)
  returns := fun _ _ _ => by
    show int.Holds 0
    decide

end OpticC.SideEffects
