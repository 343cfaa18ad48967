import OpticC.Analysis.NoAlias
import OpticC.Lib.LastWord
import OpticC.Vfs.Contents

/-! What the analyzer knows of freed memory: the taint of the nodes, changed by one call at a time,
and the diagnostics. A node is taken for freed from a call that frees it up to one that lets it
escape, and a use is reported when the operand of a dereference is. -/

namespace OpticC.Analysis

open LastWord

inductive AffineGrade
  | Owned
  | Shared
  | Borrowed
  deriving DecidableEq, Repr

inductive TaintState
  | Untainted
  | Tainted (source : ℕ)
  | Escaped
  deriving DecidableEq, Repr

structure UafDiagnostic where
  freedNode : ℕ
  derefNode : ℕ
  path : List ℕ
  deriving DecidableEq, Repr

def AST_FUNC_DECL : ℕ := 22

def AST_FUNC_DEF : ℕ := 23

def AST_RETURN : ℕ := 44

structure AliasAnalyzer extends OpticC.AliasAnalyzer where
  taintState : ℕ → Option TaintState
  callSites : List ℕ

namespace AliasAnalyzer

def new : AliasAnalyzer := ⟨⟨[]⟩, fun _ => none, []⟩

section Code

variable (a : Arena) (s : AliasAnalyzer) (node : ℕ)

def checkTaint : TaintState := (s.taintState node).getD .Untainted

def emitDiagnostic (severity : DiagnosticSeverity) (msg : String) : AliasAnalyzer :=
  { s with diagnostics := s.diagnostics ++ [⟨severity, node, msg, [node]⟩] }

def taint (t : TaintState) : AliasAnalyzer :=
  { s with taintState := Function.update s.taintState node (some t) }

def markFreed : AliasAnalyzer :=
  (s.taint node (.Tainted node)).emitDiagnostic node .warning
    "Memory marked as freed - potential use-after-free if dereferenced"

def markEscaped : AliasAnalyzer := s.taint node .Escaped

/-- The operand of a dereference. -/
def derefOperand : Option ℕ :=
  (a.get node).bind fun astNode =>
    if astNode.kind = AST_UNOP ∧ astNode.data = OP_DEREF ∧ astNode.firstChild ≠ 0 then
      some astNode.firstChild
    else none

def detectUaf : Option UafDiagnostic :=
  match s.checkTaint node with
  | .Tainted source => some ⟨source, node, [node]⟩
  | _ =>
    (derefOperand a node).bind fun operand =>
      match s.checkTaint operand with
      | .Tainted source => some ⟨source, node, [node, operand]⟩
      | _ => none

def analyzeDereference : AliasAnalyzer :=
  match derefOperand a node with
  | none => s
  | some operand =>
    match s.checkTaint operand with
    | .Tainted source =>
      s.emitDiagnostic node .error ("Use-After-Free detected: memory freed at node NodeOffset(" ++
        toString source ++ ") was dereferenced")
    | _ => s

def registerCallSite : AliasAnalyzer := { s with callSites := s.callSites.insert node }

def isCallSite : Bool := s.callSites.contains node

def analyzeReturn : AliasAnalyzer :=
  match a.get node with
  | none => s
  | some astNode =>
    if astNode.kind = AST_RETURN ∧ astNode.firstChild ≠ 0 then
      (s.markFreed astNode.firstChild).emitDiagnostic node .note
        "Return statement may release memory"
    else s

def analyzeFunctionExit : AliasAnalyzer :=
  match a.get node with
  | none => s
  | some astNode =>
    if astNode.kind = AST_FUNC_DEF ∨ astNode.kind = AST_FUNC_DECL then s.markEscaped node else s

def clearDiagnostics : AliasAnalyzer := { s with diagnostics := [] }

def getErrorCount : ℕ := (s.diagnostics.filter fun d => d.severity = .error).length

def getWarningCount : ℕ := (s.diagnostics.filter fun d => d.severity = .warning).length

end Code

section Grades

variable (a : Arena) (fuel p q : ℕ)

def getAffineGrade : Option AffineGrade :=
  (traceProvenance a fuel p []).map fun r =>
    if r.1.isNoalias then .Owned
    else if r.1.provenance.length > 1 then .Shared
    else .Borrowed

def computePointerRelationship : Option AffineGrade := do
  if ← isNoalias a fuel p q then return .Owned
  else
    let _ ← getAffineGrade a fuel p
    let _ ← getAffineGrade a fuel q
    return .Shared

def checkAliasingConflict : Option Bool := do
  match ← getAffineGrade a fuel p with
  | .Owned => return !(← isNoalias a fuel p q)
  | .Shared => return true
  | .Borrowed => return false

end Grades

end AliasAnalyzer

section Runs

open OpticC.Analysis.AliasAnalyzer

/-- The calls that change the analyzer. -/
inductive Call
  | markFreed (node : ℕ)
  | markEscaped (node : ℕ)
  | analyzeDereference (node : ℕ)
  | analyzeReturn (node : ℕ)
  | analyzeFunctionExit (node : ℕ)
  | registerCallSite (node : ℕ)
  | emitDiagnostic (severity : DiagnosticSeverity) (node : ℕ) (msg : String)
  | clearDiagnostics
  deriving DecidableEq

variable (a : Arena)

def step (s : AliasAnalyzer) : Call → AliasAnalyzer
  | .markFreed node => s.markFreed node
  | .markEscaped node => s.markEscaped node
  | .analyzeDereference node => s.analyzeDereference a node
  | .analyzeReturn node => s.analyzeReturn a node
  | .analyzeFunctionExit node => s.analyzeFunctionExit a node
  | .registerCallSite node => s.registerCallSite node
  | .emitDiagnostic severity node msg => s.emitDiagnostic node severity msg
  | .clearDiagnostics => s.clearDiagnostics

def run (calls : List Call) : AliasAnalyzer := calls.foldl (step a) new

/-- The operand of a return statement. -/
def returned (node : ℕ) : Option ℕ :=
  (a.get node).bind fun astNode =>
    if astNode.kind = AST_RETURN ∧ astNode.firstChild ≠ 0 then some astNode.firstChild else none

def isFunction (node : ℕ) : Bool :=
  (a.get node).any fun astNode => astNode.kind = AST_FUNC_DEF ∨ astNode.kind = AST_FUNC_DECL

/-- What a call makes of the taint of a node. -/
def taints (x : ℕ) : Call → Option TaintState
  | .markFreed node => if node = x then some (.Tainted x) else none
  | .markEscaped node => if node = x then some .Escaped else none
  | .analyzeReturn node => if returned a node = some x then some (.Tainted x) else none
  | .analyzeFunctionExit node => if node = x ∧ isFunction a node then some .Escaped else none
  | _ => none

/-- The last call about the node has freed it. -/
def Freed (calls : List Call) (x : ℕ) : Prop :=
  ∃ before call after, calls = before ++ call :: after ∧ taints a x call = some (.Tainted x) ∧
    ∀ call' ∈ after, taints a x call' = none

variable {a}

theorem checkTaint_taint (s : AliasAnalyzer) (node x : ℕ) (t : TaintState) :
    (s.taint node t).checkTaint x = if node = x then t else s.checkTaint x := by
  unfold checkTaint taint
  dsimp only
  by_cases h : node = x
  · subst h
    rw [Function.update_self, if_pos rfl]
    rfl
  · rw [Function.update_of_ne (Ne.symm h), if_neg h]

theorem checkTaint_emitDiagnostic (s : AliasAnalyzer) (node x : ℕ) (severity : DiagnosticSeverity)
    (msg : String) : (s.emitDiagnostic node severity msg).checkTaint x = s.checkTaint x := rfl

theorem checkTaint_markFreed (s : AliasAnalyzer) (node x : ℕ) :
    (s.markFreed node).checkTaint x = if node = x then .Tainted x else s.checkTaint x := by
  unfold markFreed
  rw [checkTaint_emitDiagnostic, checkTaint_taint]
  by_cases h : node = x
  · rw [if_pos h, if_pos h, h]
  · rw [if_neg h, if_neg h]

theorem analyzeReturn_eq (s : AliasAnalyzer) (node : ℕ) :
    s.analyzeReturn a node = match returned a node with
      | none => s
      | some x => (s.markFreed x).emitDiagnostic node .note "Return statement may release memory" := by
  unfold analyzeReturn returned
  cases a.get node with
  | none => rfl
  | some astNode =>
    simp only [Option.bind_some]
    split_ifs <;> rfl

theorem analyzeFunctionExit_eq (s : AliasAnalyzer) (node : ℕ) :
    s.analyzeFunctionExit a node = if isFunction a node then s.markEscaped node else s := by
  unfold analyzeFunctionExit isFunction
  cases a.get node with
  | none => rfl
  | some astNode => simp only [Option.any_some, decide_eq_true_eq]

theorem analyzeDereference_eq (s : AliasAnalyzer) (node : ℕ) :
    ∃ diagnostics, s.analyzeDereference a node = { s with diagnostics } := by
  unfold analyzeDereference
  split
  · exact ⟨_, rfl⟩
  · split <;> exact ⟨_, rfl⟩

/-- One call. -/
theorem checkTaint_step (x : ℕ) (s : AliasAnalyzer) (call : Call) :
    (step a s call).checkTaint x = (taints a x call).getD (s.checkTaint x) := by
  cases call with
  | markFreed node =>
    rw [step, checkTaint_markFreed, taints]
    split_ifs <;> rfl
  | markEscaped node =>
    rw [step, markEscaped, checkTaint_taint, taints]
    split_ifs <;> rfl
  | analyzeReturn node =>
    rw [step, analyzeReturn_eq, taints]
    cases hr : returned a node with
    | none => rfl
    | some y =>
      simp only [Option.some.injEq]
      rw [checkTaint_emitDiagnostic, checkTaint_markFreed]
      split_ifs <;> rfl
  | analyzeFunctionExit node =>
    rw [step, analyzeFunctionExit_eq, taints]
    cases isFunction a node with
    | false => simp
    | true =>
      rw [if_pos rfl, markEscaped, checkTaint_taint]
      simp only [and_true]
      split_ifs <;> rfl
  | analyzeDereference node =>
    obtain ⟨diagnostics, h⟩ := analyzeDereference_eq (a := a) s node
    rw [step, h]
    rfl
  | registerCallSite node => rfl
  | emitDiagnostic severity node msg => rfl
  | clearDiagnostics => rfl

theorem checkTaint_run (x : ℕ) (calls : List Call) :
    (run a calls).checkTaint x = (lastWord (taints a x) calls).getD .Untainted :=
  @read_foldl _ _ _ (taints a x) (step a) (fun s => s.checkTaint x) (checkTaint_step x) calls new

/-- Taints name the node itself. -/
theorem taints_tainted {x y : ℕ} {call : Call} (h : taints a x call = some (.Tainted y)) : y = x := by
  cases call with
  | markFreed node =>
    rw [taints] at h
    split_ifs at h
    cases h
    rfl
  | analyzeReturn node =>
    rw [taints] at h
    split_ifs at h
    cases h
    rfl
  | markEscaped node =>
    rw [taints] at h
    split_ifs at h
    cases h
  | analyzeFunctionExit node =>
    rw [taints] at h
    split_ifs at h
    cases h
  | analyzeDereference node => cases h
  | registerCallSite node => cases h
  | emitDiagnostic severity node msg => cases h
  | clearDiagnostics => cases h

theorem checkTaint_run_tainted_iff {x y : ℕ} {calls : List Call} :
    (run a calls).checkTaint x = .Tainted y ↔ y = x ∧ Freed a calls x := by
  rw [checkTaint_run]
  constructor
  · intro h
    cases hlast : lastWord (taints a x) calls with
    | none =>
      rw [hlast] at h
      cases h
    | some t =>
      rw [hlast, Option.getD_some] at h
      subst h
      obtain ⟨before, call, after, hcalls, hset, hafter⟩ := lastWord_eq_some_iff.1 hlast
      obtain rfl := taints_tainted hset
      exact ⟨rfl, before, call, after, hcalls, hset, hafter⟩
  · rintro ⟨rfl, hfreed⟩
    rw [lastWord_eq_some_iff.2 hfreed, Option.getD_some]

section Reports

variable (a)

/-- The report of `analyze_dereference`. -/
def useAfterFree (node operand : ℕ) : Diagnostic :=
  ⟨.error, node, "Use-After-Free detected: memory freed at node NodeOffset(" ++ toString operand ++
    ") was dereferenced", [node]⟩

/-- The diagnostics that a call adds. -/
def reports (s : AliasAnalyzer) : Call → List Diagnostic
  | .markFreed node => (new.markFreed node).diagnostics
  | .analyzeDereference node =>
    match derefOperand a node with
    | none => []
    | some operand =>
      match s.checkTaint operand with
      | .Tainted source => [useAfterFree node source]
      | _ => []
  | .analyzeReturn node => (new.analyzeReturn a node).diagnostics
  | .emitDiagnostic severity node msg => [⟨severity, node, msg, [node]⟩]
  | _ => []

def isClear : Call → Bool
  | .clearDiagnostics => true
  | _ => false

variable {a}

theorem diagnostics_step (s : AliasAnalyzer) (call : Call) :
    (step a s call).diagnostics =
      (if isClear call then [] else s.diagnostics) ++ reports a s call := by
  cases call with
  | markFreed node => rfl
  | markEscaped node => exact (List.append_nil _).symm
  | analyzeDereference node =>
    show (s.analyzeDereference a node).diagnostics = s.diagnostics ++ reports a s _
    simp only [analyzeDereference, reports]
    cases derefOperand a node with
    | none => exact (List.append_nil _).symm
    | some operand =>
      dsimp only
      cases s.checkTaint operand with
      | Tainted source => rfl
      | Untainted => exact (List.append_nil _).symm
      | Escaped => exact (List.append_nil _).symm
  | analyzeReturn node =>
    show (s.analyzeReturn a node).diagnostics = s.diagnostics ++ (new.analyzeReturn a node).diagnostics
    rw [analyzeReturn_eq, analyzeReturn_eq]
    cases returned a node with
    | none => exact (List.append_nil _).symm
    | some x => exact List.append_assoc _ _ _
  | analyzeFunctionExit node =>
    show (s.analyzeFunctionExit a node).diagnostics = s.diagnostics ++ []
    rw [analyzeFunctionExit_eq, List.append_nil]
    split_ifs <;> rfl
  | registerCallSite node => exact (List.append_nil _).symm
  | emitDiagnostic severity node msg => rfl
  | clearDiagnostics => rfl

/-- The errors among the reports of a call in a run. -/
theorem mem_reports_iff {before : List Call} {call : Call} {d : Diagnostic} :
    d ∈ reports a (run a before) call ∧ d.severity = .error ↔
      (∃ node operand, call = .analyzeDereference node ∧ derefOperand a node = some operand ∧
        Freed a before operand ∧ d = useAfterFree node operand) ∨
      ∃ node msg, call = .emitDiagnostic .error node msg ∧ d = ⟨.error, node, msg, [node]⟩ := by
  cases call with
  | analyzeDereference node =>
    simp only [reports, Call.analyzeDereference.injEq, reduceCtorEq, false_and, exists_false,
      or_false]
    constructor
    · rintro ⟨hd, -⟩
      split at hd
      · cases hd
      · rename_i operand hoperand
        split at hd
        · rename_i source hsource
          obtain ⟨rfl, hfreed⟩ := checkTaint_run_tainted_iff.1 hsource
          exact ⟨node, source, rfl, hoperand, hfreed, List.mem_singleton.1 hd⟩
        · cases hd
    · rintro ⟨_, operand, rfl, hoperand, hfreed, rfl⟩
      simp only [hoperand, checkTaint_run_tainted_iff.2 ⟨rfl, hfreed⟩, List.mem_singleton,
        true_and]
      rfl
  | emitDiagnostic severity node msg =>
    simp only [reports, List.mem_singleton, reduceCtorEq, false_and, exists_false, false_or,
      Call.emitDiagnostic.injEq]
    constructor
    · rintro ⟨rfl, hseverity⟩
      obtain rfl : severity = .error := hseverity
      exact ⟨node, msg, ⟨rfl, rfl, rfl⟩, rfl⟩
    · rintro ⟨_, _, ⟨rfl, rfl, rfl⟩, rfl⟩
      exact ⟨rfl, rfl⟩
  | markFreed node =>
    simp only [reports, reduceCtorEq, false_and, exists_false, or_false, iff_false, not_and]
    intro hd
    rw [List.mem_singleton.1 hd]
    exact DiagnosticSeverity.noConfusion
  | analyzeReturn node =>
    simp only [reports, reduceCtorEq, false_and, exists_false, or_false, iff_false, not_and]
    intro hd
    rw [analyzeReturn_eq] at hd
    cases hr : returned a node with
    | none =>
      rw [hr] at hd
      cases hd
    | some x =>
      rw [hr] at hd
      rcases List.mem_append.1 hd with hd | hd
      · rw [List.mem_singleton.1 hd]
        exact DiagnosticSeverity.noConfusion
      · rw [List.mem_singleton.1 hd]
        exact DiagnosticSeverity.noConfusion
  | markEscaped node => simp [reports]
  | analyzeFunctionExit node => simp [reports]
  | registerCallSite node => simp [reports]
  | clearDiagnostics => simp [reports]

theorem isClear_eq_false_iff {call : Call} : isClear call = false ↔ call ≠ .clearDiagnostics := by
  cases call <;> simp [isClear]

/-- `detect_uaf` after a run: the node itself is freed, or it is a dereference of what is. -/
theorem detectUaf_run_iff (a : Arena) (calls : List Call) (node : ℕ) (u : UafDiagnostic) :
    (run a calls).detectUaf a node = some u ↔
      Freed a calls node ∧ u = ⟨node, node, [node]⟩ ∨
      ¬Freed a calls node ∧ ∃ operand, derefOperand a node = some operand ∧
        Freed a calls operand ∧ u = ⟨operand, node, [node, operand]⟩ := by
  have hiff : ∀ {x y : ℕ}, (run a calls).checkTaint x = .Tainted y ↔ y = x ∧ Freed a calls x :=
    checkTaint_run_tainted_iff
  unfold detectUaf
  by_cases hnode : Freed a calls node
  · rw [hiff.2 ⟨rfl, hnode⟩]
    simp [hnode, eq_comm]
  · have hother : ∀ source, (run a calls).checkTaint node ≠ .Tainted source := fun source h =>
      hnode (hiff.1 h).2
    simp only [hnode, false_and, not_false_eq_true, true_and, false_or]
    cases hd : derefOperand a node with
    | none => simp
    | some operand =>
      simp only [Option.bind_some, Option.some.injEq, exists_eq_left']
      by_cases hfreed : Freed a calls operand
      · rw [hiff.2 ⟨rfl, hfreed⟩]
        simp [hfreed, eq_comm]
      · split
        · rename_i source hsource
          exact absurd (hiff.1 hsource).2 hfreed
        · simp [hfreed]

end Reports

end Runs

section Conflicts

open OpticC.Analysis.AliasAnalyzer

/-- A conflict is what is not `noalias`, so that it is the same for both orders of the pointers,
and no pointer is ever `Borrowed`. -/
theorem conflict_iff_not_noalias (a : Arena) (p q : ℕ) : ∃ depth, ∀ fuel ≥ depth,
    ∃ noalias grade, isNoalias a fuel p q = some noalias ∧
      checkAliasingConflict a fuel p q = some !noalias ∧
      checkAliasingConflict a fuel q p = some !noalias ∧
      computePointerRelationship a fuel p q = some (if noalias then .Owned else .Shared) ∧
      getAffineGrade a fuel p = some grade ∧ grade ≠ .Borrowed := by
  obtain ⟨provP, _, -, -, htraceP⟩ := exists_provenance a p
  obtain ⟨provQ, _, -, -, htraceQ⟩ := exists_provenance a q
  refine ⟨a.nodeAllocated + 1, fun fuel hfuel => ?_⟩
  have hP := htraceP fuel hfuel
  have hQ := htraceQ fuel hfuel
  have hdisjoint : provP.all (· ∉ provQ) = provQ.all (· ∉ provP) := by
    rw [Bool.eq_iff_iff, List.all_eq_true, List.all_eq_true]
    simp only [decide_eq_true_eq]
    exact ⟨fun h x hx hx' => h x hx' hx, fun h x hx hx' => h x hx' hx⟩
  have hgrade : ∀ {x : ℕ} {prov visited : List ℕ},
      traceProvenance a fuel x [] = some (⟨x, prov, prov.length ≤ 1⟩, visited) →
      getAffineGrade a fuel x = some (if prov.length ≤ 1 then .Owned else .Shared) := by
    intro x prov visited h
    unfold getAffineGrade
    rw [h, Option.map_some]
    by_cases hlen : prov.length ≤ 1
    · simp [hlen]
    · simp [hlen, Nat.lt_of_not_le hlen]
  have hnoaliasP : isNoalias a fuel p q = some (provP.all (· ∉ provQ) &&
      decide (provP.length ≤ 1) && decide (provQ.length ≤ 1)) := by
    rw [isNoalias, hP, hQ]
    rfl
  have hnoaliasQ : isNoalias a fuel q p = some (provP.all (· ∉ provQ) &&
      decide (provP.length ≤ 1) && decide (provQ.length ≤ 1)) := by
    rw [hdisjoint, Bool.and_right_comm, isNoalias, hP, hQ]
    rfl
  -- only the grade of the first pointer is looked at
  have hconflict : ∀ {x y : ℕ} {prov : List ℕ} {noalias : Bool},
      getAffineGrade a fuel x = some (if prov.length ≤ 1 then .Owned else .Shared) →
      isNoalias a fuel x y = some noalias → (noalias = true → prov.length ≤ 1) →
      checkAliasingConflict a fuel x y = some !noalias := by
    intro x y prov noalias hx hxy hlen
    unfold checkAliasingConflict
    rw [hx]
    by_cases hle : prov.length ≤ 1
    · simp [hle, hxy]
    · have hfalse : noalias = false := by
        cases noalias with
        | false => rfl
        | true => exact absurd (hlen rfl) hle
      simp [hle, hfalse]
  generalize hnoalias : (provP.all (· ∉ provQ) && decide (provP.length ≤ 1) &&
    decide (provQ.length ≤ 1)) = noalias at hnoaliasP hnoaliasQ
  have hlens : noalias = true → provP.length ≤ 1 ∧ provQ.length ≤ 1 := by
    rintro rfl
    simp only [Bool.and_eq_true, decide_eq_true_iff] at hnoalias
    exact ⟨hnoalias.1.2, hnoalias.2⟩
  refine ⟨noalias, if provP.length ≤ 1 then .Owned else .Shared, hnoaliasP,
    hconflict (hgrade hP) hnoaliasP fun h => (hlens h).1,
    hconflict (hgrade hQ) hnoaliasQ fun h => (hlens h).2, ?_, hgrade hP, ?_⟩
  · unfold computePointerRelationship
    rw [hgrade hP, hgrade hQ, hnoaliasP]
    cases noalias <;> rfl
  · split_ifs <;> exact AffineGrade.noConfusion

end Conflicts

end OpticC.Analysis
