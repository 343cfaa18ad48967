import OpticC.Backend.Assignments
import OpticC.Frontend.Expression

/-! `a op= b` against `a = a op b`. The two forms have an operator table each, in the parser and in
the backend. They differ on pointers alone, where one extends the integer by its sign and the
other by zeros. -/

namespace OpticC.Assignment

open ByteMemory IntegerExpr
open OverflowBuiltin (buildStore)

/-- The integer operand runs without an effect; the flag is not kept. -/
def Computes (b : Run) (value : Memory → LlvmInt) : Prop :=
  ∀ s, ∃ flag, b s = .ok (.int (value s.memory), ⟨s.memory, flag⟩)

/-- `lower_binop` with an lvalue on the left. -/
def runBinop (data : ℕ) (a : Lvalue) (b : Run) : Run := fun s => do
  let (lhs, s) ← readLvalue a s
  let (rhs, s) ← b s
  let value ← lowerBinop data lhs rhs
  .ok (value, s)

/-- The value and the memory behind it. -/
def effect (r : Except Failure (Value × State)) : Except Failure (Value × Memory) :=
  r.map fun p => (p.1, p.2.memory)

/-- The code for `a op= b` and for `a = a op b` does the same. -/
def SameAsPlain (data plainData : ℕ) (a : Lvalue) (b : Run) (s : State) : Prop :=
  effect (lowerAssignExpr data a b s) = effect (lowerAssignExpr 19 a (runBinop plainData a b) s)

/-- What is asked of the integer that is added to a pointer. -/
def Agrees (data : ℕ) (x : LlvmInt) : AccessType → Prop
  | .int _ _ => True
  | .ptr => data = 1 ∧ (64 ≤ x.width ∨ 0 ≤ x.bits.toInt) ∨
      data = 2 ∧ (64 ≤ x.width ∨ x.bits.toNat ≤ 2 ^ (x.width - 1))

section Tables

/-- The operators of compound assignments and their codes. -/
def compoundTable : List (String × ℕ) :=
  [("+", 1), ("-", 2), ("*", 3), ("/", 4), ("%", 5), ("&", 14), ("^", 16), ("|", 15), (">>", 18),
    ("<<", 17)]

def compoundCodes : List ℕ := compoundTable.map Prod.snd

theorem mem_compoundTable {t : Token} {code : ℕ} (h : assignmentOperator t = some code)
    (hne : code ≠ 19) : ∃ text, (text, code) ∈ compoundTable ∧ t.text = text ++ "=" := by
  unfold assignmentOperator at h
  split_ifs at h with hpunct
  split at h
  case h_1 => exact absurd (Option.some.inj h).symm hne
  case h_2 heq => exact ⟨"+", by cases h; decide, heq⟩
  case h_3 heq => exact ⟨"-", by cases h; decide, heq⟩
  case h_4 heq => exact ⟨"*", by cases h; decide, heq⟩
  case h_5 heq => exact ⟨"/", by cases h; decide, heq⟩
  case h_6 heq => exact ⟨"%", by cases h; decide, heq⟩
  case h_7 heq => exact ⟨"&", by cases h; decide, heq⟩
  case h_8 heq => exact ⟨"^", by cases h; decide, heq⟩
  case h_9 heq => exact ⟨"|", by cases h; decide, heq⟩
  case h_10 heq => exact ⟨">>", by cases h; decide, heq⟩
  case h_11 heq => exact ⟨"<<", by cases h; decide, heq⟩
  case h_12 => cases h

/-- The two tables of the parser give an operator the same code. -/
theorem code_eq {t t' : Token} {code : ℕ} (h : assignmentOperator t = some code) (hne : code ≠ 19)
    (hkind : t'.kind = .punctuator) (htext : t'.text ++ "=" = t.text) :
    (binaryOperator t').2 = code ∧ code ∈ compoundCodes := by
  obtain ⟨text, hmem, heq⟩ := mem_compoundTable h hne
  have hsame : t'.text = text := (String.append_left_inj "=").1 (htext.trans heq)
  have hbinary : binaryOperator t' = binaryOperator ⟨.punctuator, text, 0, 0, ""⟩ := by
    simp only [binaryOperator, hkind, hsame]
  have htable : ∀ p ∈ compoundTable, (binaryOperator ⟨.punctuator, p.1, 0, 0, ""⟩).2 = p.2 := by
    decide
  rw [hbinary]
  exact ⟨htable _ hmem, List.mem_map.2 ⟨_, hmem, rfl⟩⟩

theorem divides_iff (o : Operands) : divides o = true ↔
    ¬(o.rhs.toInt = 0 ∨ (o.lhs.toInt = -2 ^ (o.width - 1) ∧ o.rhs.toInt = -1)) := by
  simp only [divides, Bool.not_eq_true', Bool.or_eq_false_iff, Bool.and_eq_false_iff,
    beq_eq_false_iff_ne, not_or, not_and_or, ne_eq]

theorem ifDivides_eq (o : Operands) (v : LlvmInt) :
    (if divides o then (.ok (.int v) : Except Failure Value) else .error .undefined) =
      match (if o.rhs.toInt = 0 ∨ (o.lhs.toInt = -2 ^ (o.width - 1) ∧ o.rhs.toInt = -1) then none
        else some v) with
      | some z => .ok (.int z)
      | none => .error .undefined := by
  by_cases hok : divides o = true
  · rw [if_pos hok, if_neg ((divides_iff o).1 hok)]
  · rw [if_neg hok, if_pos (not_not.1 (mt (divides_iff o).2 hok))]

theorem ifShifts_eq (P : Prop) [Decidable P] (v : LlvmInt) :
    (if P then (.ok (.int v) : Except Failure Value) else .error .undefined) =
      match (if P then some v else none) with
      | some z => .ok (.int z)
      | none => .error .undefined := by
  split <;> rfl

/-- The two tables of the backend hold the same instructions for integers. -/
theorem assignInt_eq {code : ℕ} (h : code ∈ compoundCodes) (x y : LlvmInt) :
    assignInt code x y = lowerBinop code (.int x) (.int y) := by
  simp only [compoundCodes, compoundTable, List.map_cons, List.map_nil, List.mem_cons,
    List.not_mem_nil, or_false] at h
  rcases h with rfl | rfl | rfl | rfl | rfl | rfl | rfl | rfl | rfl | rfl
  · rfl
  · rfl
  · rfl
  · exact ifDivides_eq _ _
  · exact ifDivides_eq _ _
  · rfl
  · rfl
  · rfl
  · exact ifShifts_eq _ _
  · exact ifShifts_eq _ _

end Tables

section Runs

/-- The value that a compound operator starts from. -/
def current (a : Lvalue) (m : Memory) : Value :=
  match a.bitfield, a.type with
  | some field, .int w h => .int ⟨w, h, readField (buildLoad w m (a.address m)) field⟩
  | _, type => load m (a.address m) type

/-- What is done with the new value. -/
def finish (a : Lvalue) (m : Memory) (v : Value) : Except Failure (Value × Memory) :=
  match a.bitfield, a.type with
  | some field, .int w h => (toUnit w v).map fun new =>
    (.int ⟨w, h, maskedNew new field⟩,
      buildStore m (a.address m) (insertField (buildLoad w m (a.address m)) new field))
  | _, type => .ok (storeValue (a.address m) type m v)

variable {a : Lvalue}

theorem bitfield_cases (a : Lvalue) :
    a.bitfield = none ∨ ∃ field w h, a.bitfield = some field ∧ a.kind = .member ∧
      a.type = .int w h := by
  cases hfield : a.bitfield with
  | none => exact .inl rfl
  | some field =>
    obtain ⟨hkind, w, h, htype⟩ := a.bitfield_member (by simp [hfield])
    exact .inr ⟨field, w, h, rfl, hkind, htype⟩

theorem readLvalue_eq (a : Lvalue) (s : State) :
    ∃ flag, readLvalue a s = .ok (current a s.memory, ⟨s.memory, flag⟩) := by
  rcases bitfield_cases a with hnone | ⟨field, w, h, hfield, hkind, htype⟩
  · have hcurrent : current a s.memory = load s.memory (a.address s.memory) a.type := by
      rw [current, hnone]
    rw [hcurrent]
    unfold readLvalue
    cases a.kind with
    | ident => exact ⟨_, rfl⟩
    | element => exact ⟨_, rfl⟩
    | member =>
      simp only [lowerLvaluePtr, takeBitfield, hnone]
      exact ⟨_, rfl⟩
  · refine ⟨none, ?_⟩
    unfold readLvalue current
    simp only [hkind, lowerLvaluePtr, takeBitfield, hfield, htype]

theorem effect_assign {data : ℕ} {rhs : Run} {s : State} {v : Value} {flag : Option (ℕ × ℕ)}
    (hrhs : rhs s = .ok (v, ⟨s.memory, flag⟩)) :
    effect (lowerAssignExpr data a rhs s) =
      (newValue data (current a s.memory) v).bind (finish a s.memory) := by
  unfold lowerAssignExpr current
  rw [hrhs]
  rcases bitfield_cases a with hnone | ⟨field, w, h, hfield, -, htype⟩
  · have hfinish : finish a s.memory =
        fun v => .ok (storeValue (a.address s.memory) a.type s.memory v) := by
      funext v
      rw [finish, hnone]
    simp only [lowerLvaluePtr, takeBitfield, hnone, hfinish]
    show effect (Except.bind (newValue _ _ _) _) = _
    cases newValue data (load s.memory (a.address s.memory) a.type) v with
    | error e => rfl
    | ok value => rfl
  · have hfinish : finish a s.memory = fun v => (toUnit w v).map fun new =>
        (.int ⟨w, h, maskedNew new field⟩, buildStore s.memory (a.address s.memory)
          (insertField (buildLoad w s.memory (a.address s.memory)) new field)) := by
      funext v
      simp only [finish, hfield, htype]
    simp only [lowerLvaluePtr, takeBitfield, hfield, htype, hfinish]
    show effect (Except.bind (newValue _ _ _) _) = _
    cases newValue data (.int ⟨w, h, readField (buildLoad w s.memory (a.address s.memory)) field⟩)
      v with
    | error e => rfl
    | ok value =>
      show effect (Except.bind (toUnit w value) _) = (toUnit w value).map _
      cases toUnit w value with
      | error e => rfl
      | ok new => rfl

theorem effect_plain {data : ℕ} {b : Run} {value : Memory → LlvmInt} (hb : Computes b value)
    (s : State) : effect (lowerAssignExpr 19 a (runBinop data a b) s) =
      (lowerBinop data (current a s.memory) (.int (value s.memory))).bind (finish a s.memory) := by
  obtain ⟨flag, hread⟩ := readLvalue_eq a s
  obtain ⟨flag', hvalue⟩ := hb ⟨s.memory, flag⟩
  have hrun : runBinop data a b s =
      (lowerBinop data (current a s.memory) (.int (value s.memory))).map
        fun v => (v, ⟨s.memory, flag'⟩) := by
    unfold runBinop
    rw [hread]
    show Except.bind (b ⟨s.memory, flag⟩) _ = _
    rw [hvalue]
    rfl
  cases hbinop : lowerBinop data (current a s.memory) (.int (value s.memory)) with
  | error e =>
    rw [hbinop] at hrun
    unfold lowerAssignExpr
    rw [hrun]
    rfl
  | ok v =>
    rw [hbinop] at hrun
    rw [effect_assign hrun]
    rfl

end Runs

section Pointers

/-- An extension by zeros is never negative. -/
theorem toInt_setWidth_64 {w : ℕ} (hw : w < 64) (x : BitVec w) : (x.setWidth 64).toInt = x.toNat := by
  have hlt := x.isLt
  have hpow : 2 ^ w ≤ 2 ^ 63 := Nat.pow_le_pow_right (by decide) (by omega)
  rw [BitVec.toInt_setWidth]
  apply Int.bmod_eq_of_le
  · omega
  · omega

theorem signExtend_eq_setWidth_iff {w : ℕ} (x : BitVec w) :
    x.signExtend 64 = x.setWidth 64 ↔ 64 ≤ w ∨ 0 ≤ x.toInt := by
  by_cases hw : 64 ≤ w
  · exact iff_of_true (BitVec.signExtend_eq_setWidth_of_le x hw) (.inl hw)
  · have hsign : (x.signExtend 64).toInt = x.toInt := BitVec.toInt_signExtend_of_le (by omega)
    have hzero : (x.setWidth 64).toInt = x.toNat := toInt_setWidth_64 (by omega) x
    rw [← BitVec.toInt_inj, hsign, hzero]
    have hcases := BitVec.toInt_eq_toNat_cond x
    have hlt := x.isLt
    constructor
    · intro h
      right
      omega
    · rintro (h | h)
      · exact absurd h hw
      · rw [hcases] at h ⊢
        split_ifs at h ⊢ with hc
        · rfl
        · omega

theorem signExtend_neg_iff {w : ℕ} (hw : 0 < w) (x : BitVec w) :
    (-x).signExtend 64 = -x.setWidth 64 ↔ 64 ≤ w ∨ x.toNat ≤ 2 ^ (w - 1) := by
  by_cases hw : 64 ≤ w
  · refine iff_of_true ?_ (.inl hw)
    rw [BitVec.signExtend_eq_setWidth_of_le _ hw, BitVec.setWidth_neg_of_le hw]
  · have hsign : ((-x).signExtend 64).toInt = (-x).toInt := BitVec.toInt_signExtend_of_le (by omega)
    have hzero : (x.setWidth 64).toInt = x.toNat := toInt_setWidth_64 (by omega) x
    have hlt := x.isLt
    have hpow : 2 ^ w ≤ 2 ^ 63 := Nat.pow_le_pow_right (by decide) (by omega)
    have hhalf : 2 ^ w = 2 * 2 ^ (w - 1) := by
      rw [← Nat.pow_succ']
      congr 1
      omega
    have hneg : (-x.setWidth 64).toInt = -x.toNat := by
      rw [BitVec.toInt_neg, hzero]
      apply Int.bmod_eq_of_le
      · omega
      · omega
    rw [← BitVec.toInt_inj, hsign, hneg, BitVec.toInt_eq_toNat_cond, BitVec.toNat_neg]
    by_cases hx : x.toNat = 0
    · simp [hx, hw]
    · rw [Nat.mod_eq_of_lt (by omega)]
      split_ifs with hc
      · constructor
        · intro h
          omega
        · rintro (h | h)
          · omega
          · omega
      · constructor
        · intro h
          omega
        · intro h
          omega

/-- A compound operator on integers is emitted. -/
theorem assignInt_ne_refused {code : ℕ} (h : code ∈ compoundCodes) (x y : LlvmInt) :
    assignInt code x y ≠ .error .refused := by
  have hif : ∀ (c : Prop) [Decidable c] (v : Value),
      (if c then (.ok v : Except Failure Value) else .error .undefined) ≠ .error .refused := by
    intro c _ v
    split <;> exact fun h => nomatch h
  simp only [compoundCodes, compoundTable, List.map_cons, List.map_nil, List.mem_cons,
    List.not_mem_nil, or_false] at h
  rcases h with rfl | rfl | rfl | rfl | rfl | rfl | rfl | rfl | rfl | rfl
  · exact fun h => nomatch h
  · exact fun h => nomatch h
  · exact fun h => nomatch h
  · exact hif _ _
  · exact hif _ _
  · exact fun h => nomatch h
  · exact fun h => nomatch h
  · exact fun h => nomatch h
  · exact hif _ _
  · exact hif _ _

/-- Two pointers that are stored alike are the same. -/
theorem storeValue_inj {address : ℕ} {m : Memory} {p q : BitVec 64}
    (h : storeValue address .ptr m (.ptr p) = storeValue address .ptr m (.ptr q)) : p = q := by
  have hvalue := congrArg Prod.fst h
  simp only [storeValue, convertFor, typesCompatible, if_true, load, store,
    buildLoad_buildStore] at hvalue
  exact Value.ptr.inj hvalue

end Pointers

/-- `char *p`, with 16 in it -/
def pointerVariable : Lvalue := ⟨.ident, fun _ => 8, .ptr, none, fun h => absurd rfl h⟩

def pointerState : State := ⟨buildStore (fun _ => 0) 8 16#64, none⟩

/-- An integer constant -/
def constantRun (v : ℤ) : Run := fun s => .ok (.int (.ofInt 32 thirtyTwo_pos v), s)

theorem computes_constantRun (v : ℤ) : Computes (constantRun v) fun _ => .ofInt 32 (by decide) v :=
  fun s => ⟨s.lastBitfieldAccess, rfl⟩

/-- The pointer that a run gives. -/
def pointerOf : Except Failure (Value × Memory) → ℕ
  | .ok (.ptr p, _) => p.toNat
  | _ => 0

end OpticC.Assignment
