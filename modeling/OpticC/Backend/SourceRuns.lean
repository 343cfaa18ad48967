import OpticC.Backend.Preservation
import OpticC.Backend.Refinement
import OpticC.Frontend.SourceJumps

/-! From the tokens of a function body to its runs: the parser reads them, the backend lowers the
nodes, and the function executes the expressions in the order of C. -/

namespace OpticC.Statements

open Expressions (Ahead)
open Grammar (tied)

variable {T : String → Bool}

/-- The statement of the source, as the whole of a chain. -/
theorem jumpsValid_seq_skip {s : Stmt} (h : s.JumpsValid) : (Stmt.seq s .skip).JumpsValid where
  unique := by simpa [Stmt.labels] using h.unique
  declared := by simpa [Stmt.labels, Stmt.targets] using h.declared
  enclosed := ⟨h.enclosed, trivial⟩
  defaults := ⟨h.defaults, trivial⟩

end OpticC.Statements
