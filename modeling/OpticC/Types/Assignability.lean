import OpticC.Types.ArithmeticConversions

/-! Assignments beside implicit conversions. Both go through the same cases of the two resolved
types, but where the conversion asks for a pointer on the one side and an integer on the other,
`check_assignment` asks for the integer on the right only, and then for a pointer on either side.
So the integer that a pointer is assigned to is refused. -/

namespace OpticC.Types

/-- The errors of the two functions. -/
inductive TypeError where
  | typeMismatch (source target : TypeId)
  | incompatibleAssignment (lhs rhs : TypeId)
  deriving DecidableEq

namespace TypeSystem

section Code

variable (T : TypeSystem)

def implicitConversion (fuel : ℕ) (source target : TypeId) : Option (Except TypeError TypeId) := do
  let sourceBase := T.resolveTypedef source
  let targetBase := T.resolveTypedef target
  if sourceBase = targetBase then return .ok targetBase
  if ← T.isArithmetic fuel sourceBase <&&> T.isArithmetic fuel targetBase then
    return .ok targetBase
  if ← T.isInteger fuel sourceBase <&&> some (T.isPointer targetBase) then return .ok targetBase
  if ← some (T.isPointer sourceBase) <&&> T.isInteger fuel targetBase then return .ok targetBase
  if T.isPointer sourceBase && T.isPointer targetBase then return .ok targetBase
  return .error (.typeMismatch source target)

def checkAssignment (fuel : ℕ) (lhs rhs : TypeId) : Option (Except TypeError TypeId) := do
  let lhsBase := T.resolveTypedef lhs
  let rhsBase := T.resolveTypedef rhs
  if lhsBase = rhsBase then return .ok lhsBase
  if ← T.isArithmetic fuel lhsBase <&&> T.isArithmetic fuel rhsBase then return .ok lhsBase
  if T.isPointer lhsBase && T.isPointer rhsBase then return .ok lhsBase
  if ← T.isInteger fuel rhsBase <&&> some (T.isPointer lhsBase || T.isPointer rhsBase) then
    return .ok lhsBase
  return .error (.incompatibleAssignment lhs rhs)

/-- The assignment is checked and has the type `t`. -/
def Assigns (lhs rhs t : TypeId) : Prop :=
  ∃ depth, ∀ fuel ≥ depth, T.checkAssignment fuel lhs rhs = some (.ok t)

/-- The conversion to `target` is found and has the type `t`. -/
def ConvertsTo (source target t : TypeId) : Prop :=
  ∃ depth, ∀ fuel ≥ depth, T.implicitConversion fuel source target = some (.ok t)

/-- An assignment succeeds just when the conversion to its left side does, and both have the
resolved type of the left side. -/
structure AgreeOn (lhs rhs : TypeId) : Prop where
  succeed : (∃ t, T.Assigns lhs rhs t) ↔ ∃ t, T.ConvertsTo rhs lhs t
  assigned : ∀ t, T.Assigns lhs rhs t → t = T.resolveTypedef lhs
  converted : ∀ t, T.ConvertsTo rhs lhs t → t = T.resolveTypedef lhs

def IsIntegerType (id : TypeId) : Prop := ∃ fuel, T.isInteger fuel id = some true

end Code

section Resolved

variable {T : TypeSystem} {id next : TypeId}

theorem resolveLoop_old {visited : List TypeId} {current : TypeId} (hold : current ∈ visited) :
    T.resolveLoop visited current = current := by
  rw [resolveLoop, dif_pos hold]

theorem resolveLoop_unwraps {visited : List TypeId} {current : TypeId} (hfresh : current ∉ visited)
    (h : T.Unwraps current next) :
    T.resolveLoop visited current = T.resolveLoop (visited ++ [current]) next := by
  rw [resolveLoop, dif_neg hfresh]
  split
  · next name underlying htype => rw [(show T.Unwraps current underlying from .inl ⟨name, htype⟩).unique h]
  · next qualifiers base htype => rw [(show T.Unwraps current base from .inr ⟨qualifiers, htype⟩).unique h]
  · next htypedef hqualified =>
    rcases h with ⟨name, h⟩ | ⟨qualifiers, h⟩
    · exact absurd h (htypedef name next)
    · exact absurd h (hqualified qualifiers next)

theorem resolveLoop_stays {visited : List TypeId} {current : TypeId} (hfresh : current ∉ visited)
    (h : ∀ next, ¬ T.Unwraps current next) : T.resolveLoop visited current = current := by
  rw [resolveLoop, dif_neg hfresh]
  split
  · next name underlying htype => exact absurd (.inl ⟨name, htype⟩) (h underlying)
  · next qualifiers base htype => exact absurd (.inr ⟨qualifiers, htype⟩) (h base)
  · rfl

/-- An induction along the loop of `resolve_typedef`. -/
theorem resolveLoop_induction {motive : List TypeId → TypeId → Prop}
    (hold : ∀ visited current, current ∈ visited → motive visited current)
    (hunwraps : ∀ visited current next, current ∉ visited → T.Unwraps current next →
      motive (visited ++ [current]) next → motive visited current)
    (hstays : ∀ visited current, current ∉ visited → (∀ next, ¬ T.Unwraps current next) →
      motive visited current) (visited : List TypeId) (current : TypeId) : motive visited current := by
  induction visited, current using resolveLoop.induct T with
  | case1 visited current h => exact hold visited current h
  | case2 visited current hfresh name underlying htype ih =>
    exact hunwraps visited current underlying hfresh (.inl ⟨name, htype⟩) ih
  | case3 visited current hfresh qualifiers base htype ih =>
    exact hunwraps visited current base hfresh (.inr ⟨qualifiers, htype⟩) ih
  | case4 visited current hfresh htypedef hqualified =>
    refine hstays visited current hfresh fun next hstep => ?_
    rcases hstep with ⟨name, h⟩ | ⟨qualifiers, h⟩
    · exact htypedef name next h
    · exact hqualified qualifiers next h

theorem wraps_resolveLoop (T : TypeSystem) (visited : List TypeId) (current : TypeId) :
    T.Wraps current (T.resolveLoop visited current) := by
  induction visited, current using resolveLoop_induction (T := T) with
  | hold visited current h =>
    rw [resolveLoop_old h]
    exact .refl
  | hunwraps visited current next hfresh hstep ih =>
    rw [resolveLoop_unwraps hfresh hstep]
    exact .head hstep ih
  | hstays visited current hfresh h =>
    rw [resolveLoop_stays hfresh h]
    exact .refl

/-- What `resolve_typedef` returns is no typedef, or one of a cycle. -/
theorem resolveLoop_ends (visited : List TypeId) (current : TypeId)
    (hvisited : ∀ v ∈ visited, Relation.TransGen T.Unwraps v current) :
    (∀ next, ¬ T.Unwraps (T.resolveLoop visited current) next) ∨
      Relation.TransGen T.Unwraps (T.resolveLoop visited current)
        (T.resolveLoop visited current) := by
  induction visited, current using resolveLoop_induction (T := T) with
  | hold visited current h =>
    rw [resolveLoop_old h]
    exact .inr (hvisited current h)
  | hunwraps visited current next hfresh hstep ih =>
    rw [resolveLoop_unwraps hfresh hstep]
    apply ih
    intro v hv
    rcases List.mem_append.1 hv with hv | hv
    · exact (hvisited v hv).tail hstep
    · rw [List.mem_singleton.1 hv]
      exact .single hstep
  | hstays visited current hfresh h =>
    rw [resolveLoop_stays hfresh h]
    exact .inl h

theorem isInteger_unwraps (h : T.Unwraps id next) (fuel : ℕ) :
    T.isInteger (fuel + 1) id = T.isInteger fuel next := by
  rcases h with ⟨name, h⟩ | ⟨qualifiers, h⟩ <;> rw [isInteger, h]

/-- Around a cycle `is_integer` recurses without end. -/
theorem isInteger_loops (fuel : ℕ) (h : Relation.TransGen T.Unwraps id id) :
    T.isInteger fuel id = none := by
  induction fuel generalizing id with
  | zero => rfl
  | succ fuel ih =>
    obtain ⟨next, hstep, hback⟩ := Relation.TransGen.head'_iff.1 h
    rw [isInteger_unwraps hstep]
    exact ih (loops_of_wraps h (.single hstep))

theorem isInteger_ends (h : ∀ next, ¬ T.Unwraps id next) (fuel : ℕ) :
    T.isInteger (fuel + 1) id = T.isInteger 1 id := by
  rw [isInteger, isInteger]
  split
  all_goals first | rfl | skip
  · next base htype => exact absurd (.inr ⟨_, htype⟩) (h base)
  · next underlying htype => exact absurd (.inl ⟨_, htype⟩) (h underlying)

/-- One step of `is_integer` decides for a resolved type. -/
theorem isInteger_resolved (T : TypeSystem) (fuel : ℕ) (id : TypeId) :
    T.isInteger (fuel + 1) (T.resolveTypedef id) = T.isInteger 1 (T.resolveTypedef id) := by
  rcases resolveLoop_ends (T := T) [] id (List.forall_mem_nil _) with h | h
  · exact isInteger_ends h fuel
  · exact (isInteger_loops (fuel + 1) h).trans (isInteger_loops 1 h).symm

end Resolved

section Kinds

/-- The types as the two functions see them; `endless` is a typedef of a cycle. -/
inductive Kind
  | integer | floating | pointer | other | endless
  deriving DecidableEq

namespace Kind

def isInteger : Kind → Option Bool
  | integer => some true
  | endless => none
  | _ => some false

def isArithmetic : Kind → Option Bool
  | integer | floating => some true
  | pointer | other => some false
  | endless => none

/-- The conversion between different types succeeds. -/
def converts (source target : Kind) : Option Bool := do
  if ← source.isArithmetic <&&> target.isArithmetic then return true
  if ← source.isInteger <&&> some (target = pointer) then return true
  if ← some (decide (source = pointer)) <&&> target.isInteger then return true
  return source = pointer && target = pointer

/-- The assignment between different types succeeds. -/
def assigns (lhs rhs : Kind) : Option Bool := do
  if ← lhs.isArithmetic <&&> rhs.isArithmetic then return true
  if lhs = pointer && rhs = pointer then return true
  rhs.isInteger <&&> some (lhs = pointer || rhs = pointer)

theorem assigns_iff : ∀ lhs rhs : Kind,
    (lhs.assigns rhs = some true ↔ rhs.converts lhs = some true) ↔
      ¬ (rhs = pointer ∧ lhs.isInteger = some true) := by
  intro lhs rhs
  cases lhs <;> cases rhs <;> decide

end Kind

variable (T : TypeSystem)

def kind (id : TypeId) : Kind :=
  match T.getType id with
  | some .bool | some (.char _) | some (.short _) | some (.int _) | some (.long _)
  | some (.longLong _) | some (.enum ..) => .integer
  | some .float | some .double | some .longDouble => .floating
  | some (.pointer _) => .pointer
  | some (.qualified ..) | some (.typedef ..) => .endless
  | _ => .other

theorem isInteger_kind (id : TypeId) : T.isInteger 1 id = (T.kind id).isInteger := by
  rw [isInteger, kind]
  cases T.getType id with
  | none => rfl
  | some ty => cases ty <;> rfl

theorem isArithmetic_kind (id : TypeId) : T.isArithmetic 1 id = (T.kind id).isArithmetic := by
  rw [isArithmetic, isInteger, isFloating, kind]
  cases T.getType id with
  | none => rfl
  | some ty => cases ty <;> rfl

theorem isPointer_kind (id : TypeId) : T.isPointer id = decide (T.kind id = .pointer) := by
  rw [isPointer, kind]
  cases T.getType id with
  | none => rfl
  | some ty => cases ty <;> rfl

theorem isArithmetic_resolved (fuel : ℕ) (id : TypeId) :
    T.isArithmetic (fuel + 1) (T.resolveTypedef id) = (T.kind (T.resolveTypedef id)).isArithmetic := by
  rw [← isArithmetic_kind, isArithmetic, isArithmetic, isInteger_resolved]

/-- The result of a decision between the kinds of two types. -/
def answer (target : TypeId) (error : TypeError) (decision : Option Bool) :
    Option (Except TypeError TypeId) :=
  decision.map fun succeeds => if succeeds then .ok target else .error error

theorem checkAssignment_kind {lhs rhs : TypeId} (h : T.resolveTypedef lhs ≠ T.resolveTypedef rhs)
    (fuel : ℕ) :
    T.checkAssignment (fuel + 1) lhs rhs =
      answer (T.resolveTypedef lhs) (.incompatibleAssignment lhs rhs)
        ((T.kind (T.resolveTypedef lhs)).assigns (T.kind (T.resolveTypedef rhs))) := by
  simp only [checkAssignment, if_neg h, isArithmetic_resolved, isInteger_resolved, isInteger_kind,
    isPointer_kind]
  cases T.kind (T.resolveTypedef lhs) <;> cases T.kind (T.resolveTypedef rhs) <;> rfl

theorem implicitConversion_kind {source target : TypeId}
    (h : T.resolveTypedef source ≠ T.resolveTypedef target) (fuel : ℕ) :
    T.implicitConversion (fuel + 1) source target =
      answer (T.resolveTypedef target) (.typeMismatch source target)
        ((T.kind (T.resolveTypedef source)).converts (T.kind (T.resolveTypedef target))) := by
  simp only [implicitConversion, if_neg h, isArithmetic_resolved, isInteger_resolved,
    isInteger_kind, isPointer_kind]
  cases T.kind (T.resolveTypedef source) <;> cases T.kind (T.resolveTypedef target) <;> rfl

theorem answer_eq_ok (target t : TypeId) (error : TypeError) (decision : Option Bool) :
    answer target error decision = some (.ok t) ↔ decision = some true ∧ t = target := by
  cases decision with
  | none => simp [answer]
  | some succeeds => cases succeeds <;> simp [answer, eq_comm]

/-- From one level of recursion on the results do not change. -/
theorem stable_iff {f : ℕ → Option (Except TypeError TypeId)} {value : Option (Except TypeError TypeId)}
    (h : ∀ fuel, f (fuel + 1) = value) (t : TypeId) :
    (∃ depth, ∀ fuel ≥ depth, f fuel = some (.ok t)) ↔ value = some (.ok t) := by
  constructor
  · rintro ⟨depth, hdepth⟩
    exact (h depth).symm.trans (hdepth (depth + 1) (Nat.le_succ depth))
  · refine fun hvalue => ⟨1, fun fuel hfuel => ?_⟩
    obtain ⟨fuel, rfl⟩ := Nat.exists_eq_add_of_le' hfuel
    exact (h fuel).trans hvalue

end Kinds

section Agreement

variable {T : TypeSystem} {lhs rhs : TypeId}

theorem assigns_kind_iff (h : T.resolveTypedef lhs ≠ T.resolveTypedef rhs) (t : TypeId) :
    T.Assigns lhs rhs t ↔
      (T.kind (T.resolveTypedef lhs)).assigns (T.kind (T.resolveTypedef rhs)) = some true ∧
        t = T.resolveTypedef lhs :=
  (stable_iff (T.checkAssignment_kind h) t).trans (answer_eq_ok _ _ _ _)

theorem convertsTo_kind_iff (h : T.resolveTypedef lhs ≠ T.resolveTypedef rhs) (t : TypeId) :
    T.ConvertsTo rhs lhs t ↔
      (T.kind (T.resolveTypedef rhs)).converts (T.kind (T.resolveTypedef lhs)) = some true ∧
        t = T.resolveTypedef lhs :=
  (stable_iff (T.implicitConversion_kind h.symm) t).trans (answer_eq_ok _ _ _ _)

theorem assigns_same_iff (h : T.resolveTypedef lhs = T.resolveTypedef rhs) (t : TypeId) :
    T.Assigns lhs rhs t ↔ t = T.resolveTypedef lhs := by
  have hvalue (fuel : ℕ) : T.checkAssignment (fuel + 1) lhs rhs = some (.ok (T.resolveTypedef lhs)) := by
    simp only [checkAssignment, if_pos h]
    rfl
  exact (stable_iff hvalue t).trans (by simp [eq_comm])

theorem convertsTo_same_iff (h : T.resolveTypedef lhs = T.resolveTypedef rhs) (t : TypeId) :
    T.ConvertsTo rhs lhs t ↔ t = T.resolveTypedef lhs := by
  have hvalue (fuel : ℕ) :
      T.implicitConversion (fuel + 1) rhs lhs = some (.ok (T.resolveTypedef lhs)) := by
    simp only [implicitConversion, if_pos h.symm]
    rfl
  exact (stable_iff hvalue t).trans (by simp [eq_comm])

theorem isIntegerType_resolved (T : TypeSystem) (id : TypeId) :
    T.IsIntegerType (T.resolveTypedef id) ↔ (T.kind (T.resolveTypedef id)).isInteger = some true := by
  rw [← isInteger_kind]
  constructor
  · rintro ⟨fuel, hfuel⟩
    cases fuel with
    | zero => cases hfuel
    | succ fuel => rwa [isInteger_resolved] at hfuel
  · exact fun h => ⟨1, h⟩

theorem exists_and_eq {p : Prop} {a : TypeId} : (∃ t, p ∧ t = a) ↔ p :=
  ⟨fun ⟨_, hp, _⟩ => hp, fun hp => ⟨a, hp, rfl⟩⟩

/-- The two agree unless a pointer is assigned to an integer. -/
theorem agreeOn_iff (T : TypeSystem) (lhs rhs : TypeId) :
    T.AgreeOn lhs rhs ↔
      ¬ (T.isPointer (T.resolveTypedef rhs) = true ∧ T.IsIntegerType (T.resolveTypedef lhs)) := by
  rw [isPointer_kind, isIntegerType_resolved, decide_eq_true_iff]
  by_cases h : T.resolveTypedef lhs = T.resolveTypedef rhs
  · have hkind : ¬ (T.kind (T.resolveTypedef rhs) = .pointer ∧
        (T.kind (T.resolveTypedef lhs)).isInteger = some true) := by
      rintro ⟨hpointer, hinteger⟩
      rw [h, hpointer] at hinteger
      cases hinteger
    refine iff_of_true ⟨?_, fun t ht => (assigns_same_iff h t).1 ht,
      fun t ht => (convertsTo_same_iff h t).1 ht⟩ hkind
    simp only [assigns_same_iff h, convertsTo_same_iff h]
  · rw [← Kind.assigns_iff]
    have hassigns := assigns_kind_iff h
    have hconverts := convertsTo_kind_iff h
    constructor
    · intro hagree
      have hsucceed := hagree.succeed
      simpa only [hassigns, hconverts, exists_and_eq] using hsucceed
    · refine fun hkinds => ⟨?_, fun t ht => ((hassigns t).1 ht).2, fun t ht => ((hconverts t).1 ht).2⟩
      simpa only [hassigns, hconverts, exists_and_eq] using hkinds

/-- A table with the type `int *`. -/
def withIntPointer : TypeSystem := (TypeSystem.new.addType (.pointer TypeId.INT)).2

/-- `i = p`, where `p` is an `int *`: the conversion is found, but not the assignment. -/
theorem not_agreeOn_intPointer : ¬ withIntPointer.AgreeOn TypeId.INT 16 := by
  have hint : withIntPointer.getType TypeId.INT = some (.int true) := rfl
  have hpointer : withIntPointer.getType 16 = some (.pointer TypeId.INT) := rfl
  have hlhs : withIntPointer.resolveTypedef TypeId.INT = TypeId.INT :=
    resolveTypedef_self (a := .int true) trivial hint
  have hrhs : withIntPointer.resolveTypedef 16 = 16 := by
    refine resolveTypedef_of_wraps (fun next hstep => ?_) .refl
    rcases hstep with ⟨name, h⟩ | ⟨qualifiers, h⟩ <;> rw [hpointer] at h <;> cases h
  have hdistinct : withIntPointer.resolveTypedef TypeId.INT ≠ withIntPointer.resolveTypedef 16 := by
    rw [hlhs, hrhs]
    decide
  intro hagree
  obtain ⟨t, ht⟩ := hagree.succeed.2
    ⟨TypeId.INT, (convertsTo_kind_iff hdistinct _).2 ⟨by rw [hlhs, hrhs]; rfl, hlhs.symm⟩⟩
  have hassigns := ((assigns_kind_iff hdistinct t).1 ht).1
  rw [hlhs, hrhs] at hassigns
  cases hassigns

end Agreement

end TypeSystem

end OpticC.Types
