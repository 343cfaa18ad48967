import OpticC.Frontend.StatementExprs
import Mathlib.Tactic.ByContra

/-! `lower_stmt_expr` lowers the children of a statement expression as expressions, one after the
other. The children are the statements where each statement leaves the link to the next one
free. -/

namespace OpticC.StatementExpr

section Siblings

/-- `while child_offset != NULL { let Some(child) = arena.get(child_offset) .. }` -/
def siblings (a : Arena) : ℕ → ℕ → Option (List ℕ)
  | 0, _ => none
  | fuel + 1, off =>
    if off = 0 then some []
    else match a.get off with
      | none => some []
      | some n => (siblings a fuel n.nextSibling).map (off :: ·)

theorem siblings_of_get {a : Arena} {off : ℕ} {n : CAstNode} (h : a.get off = some n) (fuel : ℕ) :
    siblings a (fuel + 1) off = (siblings a fuel n.nextSibling).map (off :: ·) := by
  have hne : off ≠ 0 := by
    rintro rfl
    simp [Arena.get] at h
  rw [siblings, if_neg hne, h]

theorem siblings_mono {a : Arena} {fuel off : ℕ} {l : List ℕ} (h : siblings a fuel off = some l) :
    siblings a (fuel + 1) off = some l := by
  induction fuel generalizing off l with
  | zero => cases h
  | succ fuel ih =>
    rw [siblings] at h ⊢
    split at h
    · rename_i hzero
      rw [if_pos hzero]
      exact h
    · rename_i hne
      rw [if_neg hne]
      cases hget : a.get off with
      | none =>
        rw [hget] at h
        exact h
      | some n =>
        rw [hget] at h
        obtain ⟨rest, hrest, hl⟩ := Option.map_eq_some_iff.1 h
        simp only
        rw [ih hrest]
        exact congrArg some hl

/-- The walk over a chain goes through its nodes, and then on from the last one. -/
theorem siblings_linked {a : Arena} {x : Piece} {xs : List Piece} (h : Linked a (x :: xs))
    (fuel : ℕ) : siblings a (fuel + (x :: xs).length) x.node =
      (siblings a fuel (((x :: xs).getLast (List.cons_ne_nil _ _)).own)).map
        ((x :: xs).map Piece.node ++ ·) := by
  induction xs generalizing x with
  | nil =>
    obtain ⟨n, hn, hnext⟩ := h
    rw [List.length_singleton, siblings_of_get hn, hnext]
    rfl
  | cons y ys ih =>
    obtain ⟨⟨n, hn, hnext⟩, hrest⟩ := h
    have htail := ih hrest
    rw [List.length_cons, ← Nat.add_assoc, siblings_of_get hn, hnext, htail, Option.map_map,
      List.getLast_cons (List.cons_ne_nil _ _)]
    rfl

end Siblings

section Lowering

/-- `lower_var_decl` goes on to the next specifier. -/
def specifierKinds : List ℕ := [102, 103, 90, 91, 92, 104, 105, 106]

/-- It returns at a `typedef`, and does something for a declarator only. -/
def DeclaresNothing (a : Arena) (off : ℕ) : Prop :=
  ∃ n fuel chain, a.get off = some n ∧ siblings a fuel n.firstChild = some chain ∧
    let kinds := chain.map fun c => ((a.get c).map CAstNode.kind).getD 0
    (kinds.dropWhile specifierKinds.contains).head? = some 101 ∨
      ∀ k ∈ kinds, k ∉ [73, 60, 7, 8, 9]

def isDeclaration (a : Arena) (off : ℕ) : Bool := (a.get off).any fun n => n.kind == 21

/-- How expressions and declarations are lowered; `lower_expr` has no case for a declaration. -/
structure Lowering (a : Arena) (σ ε V : Type) where
  lowerExpr : ℕ → StateT σ (Except ε) (Option V)
  lowerVarDecl : ℕ → StateT σ (Except ε) Unit
  lowerExpr_declaration : ∀ off, isDeclaration a off = true → lowerExpr off = pure none
  lowerVarDecl_nothing : ∀ off, DeclaresNothing a off → lowerVarDecl off = pure ()

variable {a : Arena} {σ ε V : Type}

/-- `lower_stmt_expr` from a child on, given the value so far. -/
def lowerStmtExpr (L : Lowering a σ ε V) : ℕ → ℕ →
    Option (Option V → StateT σ (Except ε) (Option V))
  | 0, _ => none
  | fuel + 1, off =>
    if off = 0 then some fun last => pure last
    else match a.get off with
      | none => some fun last => pure last
      | some n => (lowerStmtExpr L fuel n.nextSibling).map fun rest _ => do
        let last ← L.lowerExpr off
        rest last

/-- A statement by itself, as `lower_stmt` lowers it in a block -/
def Lowering.statement (L : Lowering a σ ε V) (off : ℕ) : StateT σ (Except ε) (Option V) :=
  if isDeclaration a off then do
    L.lowerVarDecl off
    return none
  else L.lowerExpr off

/-- The statements one after the other; the value is that of the last one. -/
def Lowering.run (L : Lowering a σ ε V) (statements : List ℕ) (last : Option V) :
    StateT σ (Except ε) (Option V) :=
  statements.foldlM (fun _ off => L.statement off) last

theorem lowerStmtExpr_eq (L : Lowering a σ ε V) (fuel off : ℕ) :
    lowerStmtExpr L fuel off = (siblings a fuel off).map fun items last =>
      items.foldlM (fun _ off => L.lowerExpr off) last := by
  induction fuel generalizing off with
  | zero => rfl
  | succ fuel ih =>
    rw [lowerStmtExpr, siblings]
    split
    · rfl
    · cases a.get off with
      | none => rfl
      | some n =>
        simp only [ih, Option.map_map]
        rfl

/-- The statements of a block, and what a statement expression does with them. -/
structure Kept (a : Arena) (first : ℕ) (pieces : List Piece) : Prop where
  /-- Each piece is a whole statement. -/
  whole : ∀ x ∈ pieces, x.node ≠ 0 ∧ x.complete = true
  /-- It is linked to its own operand as before, if it was linked to one. -/
  own : ∀ x ∈ pieces, x.own ≠ 0 → ownSibling a x.node = x.own
  /-- The children are the statements, in their order. -/
  children : ∃ fuel, siblings a fuel first = some (pieces.map Piece.node)
  /-- `lower_expr` does for each what is to be done for it. -/
  executed : ∀ (σ ε V : Type) (L : Lowering a σ ε V), ∀ x ∈ pieces,
    L.lowerExpr x.node = L.statement x.node

/-- The lowering of a statement expression whose statements are kept runs them in order. -/
theorem Kept.lowerStmtExpr_eq_run {first : ℕ} {pieces : List Piece} (h : Kept a first pieces)
    (L : Lowering a σ ε V) :
    ∃ fuel, lowerStmtExpr L fuel first = some (L.run (pieces.map Piece.node)) := by
  obtain ⟨fuel, hfuel⟩ := h.children
  refine ⟨fuel, ?_⟩
  rw [lowerStmtExpr_eq, hfuel, Option.map_some]
  refine congrArg some (funext fun last => ?_)
  have hstep := h.executed σ ε V L
  clear hfuel h
  unfold Lowering.run
  induction pieces generalizing last with
  | nil => rfl
  | cons x xs ih =>
    simp only [List.map_cons, List.foldlM_cons]
    rw [hstep x List.mem_cons_self]
    exact bind_congr fun value => ih value fun y hy => hstep y (List.mem_cons_of_mem _ hy)

/-- A statement that the loop and the lowering can keep: its node has no operand in `next_sibling`,
and it declares nothing. -/
structure Plain (a : Arena) (x : Piece) : Prop where
  node : x.node ≠ 0
  complete : x.complete = true
  own : x.own = 0
  declares : isDeclaration a x.node = true → DeclaresNothing a x.node

open Classical in
/-- A lowering that fails at each declaration that declares something -/
noncomputable def strictLowering (a : Arena) : Lowering a Unit Unit Unit where
  lowerExpr := fun _ => pure none
  lowerVarDecl := fun off => if DeclaresNothing a off then pure () else throw ()
  lowerExpr_declaration := fun _ _ => rfl
  lowerVarDecl_nothing := fun _ h => if_pos h

theorem Lowering.statement_eq_of_declares {L : Lowering a σ ε V} {off : ℕ}
    (h : isDeclaration a off = true → DeclaresNothing a off) : L.lowerExpr off = L.statement off := by
  unfold Lowering.statement
  split
  · rename_i hdecl
    rw [L.lowerExpr_declaration off hdecl, L.lowerVarDecl_nothing off (h hdecl)]
    rfl
  · rfl

theorem declaresNothing_of_statement {off : ℕ}
    (h : (strictLowering a).lowerExpr off = (strictLowering a).statement off)
    (hdecl : isDeclaration a off = true) : DeclaresNothing a off := by
  by_contra hnot
  have hrun := congrFun h ()
  unfold Lowering.statement at hrun
  simp only [hdecl, if_true, strictLowering, if_neg hnot] at hrun
  cases hrun

/-- A statement before the last one is linked to its successor: to an operand it is not. -/
theorem own_eq_zero {xs : List Piece} (hlinked : Linked a xs)
    (hsorted : xs.Pairwise fun x y => x.node < y.node ∧ x.own ≠ y.node)
    (hown : ∀ x ∈ xs, x.own ≠ 0 → ownSibling a x.node = x.own)
    (hlast : ∀ x ∈ xs.getLast?, x.own = 0) : ∀ x ∈ xs, x.own = 0 := by
  induction xs with
  | nil => nofun
  | cons x xs ih =>
    rw [List.pairwise_cons] at hsorted
    have hrest : ∀ y ∈ xs, y.own ≠ 0 → ownSibling a y.node = y.own :=
      fun y hy => hown y (List.mem_cons_of_mem _ hy)
    cases xs with
    | nil =>
      intro y hy
      rw [List.mem_singleton.1 hy]
      exact hlast x rfl
    | cons y ys =>
      obtain ⟨⟨n, hn, hnext⟩, htail⟩ := hlinked
      have hx : x.own = 0 := by
        by_contra hne
        have hkept := hown x List.mem_cons_self hne
        unfold ownSibling at hkept
        rw [hn] at hkept
        simp only [Option.map_some, Option.getD_some] at hkept
        exact (hsorted.1 y List.mem_cons_self).2 (hkept.symm.trans hnext)
      have hys : ∀ z ∈ y :: ys, z.own = 0 := by
        apply ih htail hsorted.2 hrest
        rw [List.getLast?_cons_cons] at hlast
        exact hlast
      intro z hz
      rcases List.mem_cons.1 hz with rfl | hz
      · exact hx
      · exact hys z hz

/-- The children are the statements just if the last statement is linked to nothing. -/
theorem children_iff {x : Piece} {xs : List Piece} (hlinked : Linked a (x :: xs))
    (hbelow : ∀ y ∈ x :: xs, y.own < a.nodeAllocated) :
    (∃ fuel, siblings a fuel x.node = some ((x :: xs).map Piece.node)) ↔
      ((x :: xs).getLast (List.cons_ne_nil _ _)).own = 0 := by
  have hwalk := siblings_linked hlinked
  constructor
  · rintro ⟨fuel, hfuel⟩
    have hmore : ∀ k, siblings a (fuel + k) x.node = some ((x :: xs).map Piece.node) := by
      intro k
      induction k with
      | zero => exact hfuel
      | succ k ih => exact siblings_mono ih
    have hrest := hmore ((x :: xs).length + 1)
    rw [Nat.add_comm _ 1, ← Nat.add_assoc, hwalk] at hrest
    obtain ⟨tail, htail, happ⟩ := Option.map_eq_some_iff.1 hrest
    have hnil : tail = [] := List.append_right_eq_self.1 happ
    rw [hnil, siblings] at htail
    split at htail
    · assumption
    · rename_i hne
      have hlt := hbelow _ (List.getLast_mem (List.cons_ne_nil x xs))
      have hget : ∃ n, a.get ((x :: xs).getLast (List.cons_ne_nil _ _)).own = some n := by
        unfold Arena.get
        rw [if_neg (by omega)]
        exact ⟨_, rfl⟩
      obtain ⟨n, hn⟩ := hget
      rw [hn] at htail
      simp at htail
  · intro hzero
    refine ⟨1 + (x :: xs).length, ?_⟩
    rw [hwalk, hzero]
    simp [siblings]

/-- A body is kept just if each of its statements is plain. -/
theorem kept_iff {b : Body} (h : Inv b a) :
    Kept a b.chain.1 b.pieces ↔ ∀ x ∈ b.pieces, Plain a x := by
  have hsame : (∀ x ∈ b.pieces, x.node ≠ 0) → linkedPieces b.pieces = b.pieces := by
    intro hne
    refine List.filter_eq_self.2 fun x hx => ?_
    simpa using hne x hx
  constructor
  · intro hkept x hx
    have heq := hsame fun x hx => (hkept.whole x hx).1
    have hown : ∀ x ∈ b.pieces, x.own = 0 := by
      have hlinked := h.linked
      have hsorted := h.sorted
      have hbelow := h.below
      have hfirst := h.first
      rw [heq] at hlinked hsorted hbelow hfirst
      refine own_eq_zero hlinked hsorted hkept.own ?_
      cases hpieces : b.pieces with
      | nil => nofun
      | cons y ys =>
        rw [hpieces] at hlinked hbelow hfirst
        have hchildren := hkept.children
        rw [hpieces, hfirst] at hchildren
        have hlast := (children_iff hlinked fun z hz => (hbelow z hz).2).1 hchildren
        intro z hz
        rw [List.getLast?_eq_some_getLast (List.cons_ne_nil y ys)] at hz
        cases hz
        exact hlast
    exact ⟨(hkept.whole x hx).1, (hkept.whole x hx).2, hown x hx,
      declaresNothing_of_statement (hkept.executed _ _ _ (strictLowering a) x hx)⟩
  · intro hplain
    have heq := hsame fun x hx => (hplain x hx).node
    have hlinked := h.linked
    have hbelow := h.below
    have hfirst := h.first
    rw [heq] at hlinked hbelow hfirst
    refine ⟨fun x hx => ⟨(hplain x hx).node, (hplain x hx).complete⟩,
      fun x hx hne => absurd (hplain x hx).own hne, ?_,
      fun _ _ _ L x hx => L.statement_eq_of_declares (hplain x hx).declares⟩
    cases hpieces : b.pieces with
    | nil =>
      rw [hpieces] at hfirst
      exact ⟨1, by rw [hfirst]; rfl⟩
    | cons y ys =>
      rw [hpieces] at hlinked hbelow hfirst
      rw [hfirst]
      refine (children_iff hlinked fun z hz => (hbelow z hz).2).2 ?_
      apply Plain.own
      · apply hplain
        rw [hpieces]
        exact List.getLast_mem _

end Lowering

section Claim

variable (declaration expression : ParserM ℕ)

/-- The statement expression in front of the parser is parsed, and its statements are kept. -/
def StatementsKept (p : Parser) : Prop :=
  ∃ node b p', parseStatementExpr declaration expression p = .ok (node, b) p' ∧
    ∃ n, p'.arena.get node = some n ∧ Kept p'.arena n.firstChild b.pieces

/-- It is parsed, with room for its node, and each of its statements is plain. -/
def StatementsPlain (p : Parser) : Prop :=
  ∃ node b p', parseStatementExpr declaration expression p = .ok (node, b) p' ∧ node ≠ 0 ∧
    ∀ x ∈ b.pieces, Plain p'.arena x

variable {declaration expression}

theorem statementsKept_iff_of_keepsNew (hdecl : ∀ a₀, KeepsNew a₀ declaration)
    (hexpr : ∀ a₀, KeepsNew a₀ expression) (p : Parser) :
    StatementsKept declaration expression p ↔ StatementsPlain declaration expression p := by
  constructor
  · rintro ⟨node, b, p', hrun, n, hget, hkept⟩
    obtain ⟨hinv, hnode⟩ := gives_parseStatementExpr hdecl hexpr p (node, b) p' hrun
    have hne : node ≠ 0 := by
      rintro rfl
      simp [Arena.get] at hget
    rw [hnode hne] at hget
    cases hget
    exact ⟨node, b, p', hrun, hne, (kept_iff hinv).1 hkept⟩
  · rintro ⟨node, b, p', hrun, hne, hplain⟩
    obtain ⟨hinv, hnode⟩ := gives_parseStatementExpr hdecl hexpr p (node, b) p' hrun
    exact ⟨node, b, p', hrun, _, hnode hne, (kept_iff hinv).2 hplain⟩

/-- A body that begins with a control statement is not plain. -/
theorem not_statementsPlain_of_keyword {G : Productions} {fuel : ℕ} {p p₁ p₂ : Parser}
    (hparen : expect "(" p = .ok () p₁) (hbrace : expect "\x7b" p₁ = .ok () p₂)
    (hkind : p₂.currentToken.kind = .keyword) (htext : p₂.currentToken.text ∈ statementKeywords) :
    ¬StatementsPlain declaration (parseExpression G (fuel + 9)) p := by
  rintro ⟨node, b, p', hrun, -, hplain⟩
  have hnull : Gives (parseStatementExpr declaration (parseExpression G (fuel + 9))) p
      fun r _ => ∃ x ∈ r.2.pieces, x.node = 0 := by
    intro r p' hrun
    unfold parseStatementExpr at hrun
    rw [bind_ok hparen, bind_ok hbrace] at hrun
    suffices hgives : Gives _ _ fun (r : ℕ × Body) (_ : Parser) => ∃ x ∈ r.2.pieces, x.node = 0 from
      hgives r p' hrun
    refine (null_of_keyword G fuel 9999 ⟨(0, 0), []⟩ hkind htext).bind fun b p₃ h₃ => ?_
    refine Gives.bind (Q := fun _ _ => True) (fun _ _ _ => trivial) fun _ p₄ _ => ?_
    refine Gives.bind (Q := fun _ _ => True) (fun _ _ _ => trivial) fun _ p₅ _ => ?_
    exact Gives.bind (Q := fun _ _ => True) (fun _ _ _ => trivial) fun _ p₆ _ => Gives.pure h₃
  obtain ⟨x, hx, hzero⟩ := hnull _ _ hrun
  exact (hplain x hx).node hzero

theorem keepsNew_throw (a₀ : Arena) (e : Fault) : KeepsNew a₀ (throw e) :=
  fun _ hp => Keeps.throw hp

theorem keepNodes_noProductions (a₀ : Arena) : noProductions.KeepNodes a₀ where
  declarationSpecifiers := keepsNew_throw a₀ _
  declarator := keepsNew_throw a₀ _
  initializer := keepsNew_throw a₀ _
  statementExpr := keepsNew_throw a₀ _
  typeofExpr := keepsNew_throw a₀ _
  extensionWrapper := keepsNew_throw a₀ _
  labelAddr := keepsNew_throw a₀ _
  builtinCall := fun _ => keepsNew_throw a₀ _

def braceOpen : Token := operatorToken "\x7b"
def braceClose : Token := operatorToken "\x7d"

/-- `({ f; x; })` -/
def namesInBraces : Parser :=
  parserAt [operatorToken "(", braceOpen, nameToken "f", operatorToken ";", nameToken "x",
    operatorToken ";", braceClose, operatorToken ")"]

/-- `({ x = z; y; })` -/
def assignmentInBraces : Parser :=
  parserAt [operatorToken "(", braceOpen, nameToken "x", operatorToken "=", nameToken "z",
    operatorToken ";", nameToken "y", operatorToken ";", braceClose, operatorToken ")"]

/-- The pieces of a run, and whether their nodes are declarations -/
def piecesOf (p : Parser) : Option (ℕ × List (Piece × Bool)) :=
  match parseStatementExpr (throw .outOfFuel) (parseExpression noProductions 20) p with
  | .ok (node, b) p' => some (node, b.pieces.map fun x => (x, isDeclaration p'.arena x.node))
  | .error _ _ => none

end Claim

end OpticC.StatementExpr
