import OpticC.Backend.WellFormed
import OpticC.Backend.Preservation
import OpticC.Backend.Refinement

/-! The emitted function against the control flow of C. -/

namespace OpticC

/-- The emitted function is well formed, and its runs are those of the body. -/
def ControlFlowPreserved (E : Expressions) (body : Stmt) (f : Function) : Prop :=
  WellFormed E f ∧ ∀ ω, SameRuns E ω body f.code

variable {E : Expressions} {a : Arena} {other : CAstNode → Builder → Builder × Bool} {off : ℕ}
  {body : Stmt}

/-- The lowering preserves the control flow of a body exactly when no instruction is put
behind a jump. -/
theorem controlFlowPreserved_iff (h : StmtAt a true off body) (hvalid : body.JumpsValid)
    (hplain : body.NoSwitch) (scalarReturn : Bool) :
    ∃ f N, (∀ fuel ≥ N, lowerFuncDef E a other scalarReturn fuel off = some f) ∧
      (ControlFlowPreserved E body f ↔ body.Tidy E false) := by
  obtain ⟨N, hN⟩ : ∃ N, ∀ fuel ≥ N, lowerFuncDef E a other scalarReturn fuel off =
      some (lowerBody E scalarReturn body) := lowerFuncDef_eq h scalarReturn
  have hruns : ∀ ω, SameRuns E ω body (lowerBody E scalarReturn body).code := fun ω =>
    lowerBody_sameRuns scalarReturn hvalid (switchesExact_of_noSwitch hplain)
  refine ⟨lowerBody E scalarReturn body, N, hN, ?_⟩
  rw [ControlFlowPreserved, wellFormed_lowerBody scalarReturn hvalid hplain]
  exact and_iff_left hruns

/-- The nodes of `while (x) break;`. -/
def whileBreak : Arena := .ofNodes
  [⟨42, true, 0, 2, 0, 0⟩, ⟨0, true, 0, 3, 4, 0⟩, ⟨60, true, 0, 0, 0, 0⟩, ⟨46, true, 0, 0, 0, 0⟩]

theorem controlFlowPreserved_whileBreak :
    ∃ f N, (∀ fuel ≥ N, lowerFuncDef intExpressions whileBreak (fun _ b => (b, true)) true fuel 1 =
        some f) ∧
      (ControlFlowPreserved intExpressions (.seq (.while_ 3 .break_) .skip) f ↔
        (Stmt.seq (.while_ 3 .break_) .skip).Tidy intExpressions false) := by
  have hloop : whileBreak.get 1 = some ⟨42, true, 0, 2, 0, 0⟩ := rfl
  have hwrap : whileBreak.get 2 = some ⟨0, true, 0, 3, 4, 0⟩ := rfl
  have hbreak : whileBreak.get 4 = some ⟨46, true, 0, 0, 0, 0⟩ := rfl
  have hbody : StmtAt whileBreak true 1 (.seq (.while_ 3 .break_) .skip) :=
    .item hloop (.while_ hloop rfl (by decide) hwrap (by decide) (by decide)
      (.break_ hbreak rfl)) .nil
  have hvalid : (Stmt.seq (.while_ 3 .break_) .skip).JumpsValid :=
    ⟨List.nodup_nil, nofun, ⟨rfl, trivial⟩, ⟨trivial, trivial⟩⟩
  exact controlFlowPreserved_iff hbody hvalid ⟨trivial, trivial⟩ true

/-- The nodes of `return; x;`. -/
def returnExpr : Arena := .ofNodes
  [⟨44, true, 0, 0, 2, 0⟩, ⟨45, true, 0, 3, 0, 0⟩, ⟨60, true, 0, 0, 0, 0⟩]

/-- The instructions of `x` stand behind the `ret`. -/
theorem not_controlFlowPreserved_returnExpr :
    StmtAt returnExpr true 1 (.seq (.return_ none) (.seq (.expr 3) .skip)) ∧
      (Stmt.seq (.return_ none) (.seq (.expr 3) .skip)).JumpsValid ∧
      ∃ f, lowerFuncDef intExpressions returnExpr (fun _ b => (b, true)) true 3 1 = some f ∧
        ¬ControlFlowPreserved intExpressions (.seq (.return_ none) (.seq (.expr 3) .skip)) f := by
  have hreturn : returnExpr.get 1 = some ⟨44, true, 0, 0, 2, 0⟩ := rfl
  have hexpr : returnExpr.get 2 = some ⟨45, true, 0, 3, 0, 0⟩ := rfl
  refine ⟨.item hreturn (.return_ hreturn rfl) (.item hexpr (.exprStmt hexpr rfl (by decide)) .nil),
    ⟨List.nodup_nil, nofun, ⟨trivial, trivial, trivial⟩, ⟨trivial, trivial, trivial⟩⟩, _, rfl, fun h => ?_⟩
  obtain ⟨-, hclean⟩ := h.1 (.num 0) (by decide)
  have := hclean .ret (by decide)
  cases this

end OpticC
