import OpticC.Backend.Nodes
import OpticC.Backend.Frame

/-! The lowering over the nodes of the arena is the lowering of the statements that the
nodes stand for, given enough fuel. -/

namespace OpticC

open Builder

section SiblingChains

/-- The offsets of a chain of siblings. -/
inductive SiblingChain (a : Arena) : ℕ → List ℕ → Prop
  | nil : SiblingChain a 0 []
  | cons {off : ℕ} {node : CAstNode} {offs : List ℕ} : a.get off = some node →
      SiblingChain a node.nextSibling offs → SiblingChain a off (off :: offs)

variable {a : Arena} {off : ℕ} {offs : List ℕ}

theorem Arena.get_zero (a : Arena) : a.get 0 = none := if_pos (.inl rfl)

theorem Arena.ne_zero_of_get {node : CAstNode} (h : a.get off = some node) : off ≠ 0 := by
  rintro rfl
  rw [a.get_zero] at h
  cases h

theorem SiblingChain.unique {offs' : List ℕ} (h : SiblingChain a off offs)
    (h' : SiblingChain a off offs') :
    offs = offs' := by
  induction h generalizing offs' with
  | nil =>
    cases h' with
    | nil => rfl
    | cons hget _ => exact absurd rfl (Arena.ne_zero_of_get hget)
  | cons hget _ ih =>
    cases h' with
    | nil => exact absurd rfl (Arena.ne_zero_of_get hget)
    | cons hget' h' =>
      rw [hget] at hget'
      cases hget'
      rw [ih h']

/-- From each of its offsets on a chain is no longer than from the first. -/
theorem SiblingChain.from_mem {o : ℕ} (h : SiblingChain a off offs) (ho : o ∈ offs) :
    ∃ offs', SiblingChain a o offs' ∧ offs'.length ≤ offs.length := by
  induction h with
  | nil => cases ho
  | cons hget h ih =>
    rcases List.mem_cons.1 ho with rfl | ho
    · exact ⟨_, .cons hget h, Nat.le_refl _⟩
    · obtain ⟨offs', h', hlen⟩ := ih ho
      exact ⟨offs', h', Nat.le_succ_of_le hlen⟩

theorem SiblingChain.not_mem {node : CAstNode} (hget : a.get off = some node)
    (h : SiblingChain a node.nextSibling offs) : off ∉ offs := by
  intro ho
  obtain ⟨offs', h', hlen⟩ := h.from_mem ho
  rw [← (SiblingChain.cons hget h).unique h'] at hlen
  exact Nat.not_succ_le_self _ hlen

theorem StmtAt.chain {s : Stmt} (h : StmtAt a true off s) : ∃ offs, SiblingChain a off offs := by
  generalize hchain : true = chain at h
  induction h with
  | nil => exact ⟨[], .nil⟩
  | item hget _ _ _ ih =>
    obtain ⟨offs, h⟩ := ih rfl
    exact ⟨_, .cons hget h⟩
  | _ => cases hchain

theorem StmtAt.chain_shape {s : Stmt} (h : StmtAt a true off s) :
    s = .skip ∨ ∃ t u, s = .seq t u := by
  generalize hchain : true = chain at h
  cases h with
  | nil => exact .inl rfl
  | item _ _ _ => exact .inr ⟨_, _, rfl⟩
  | _ => cases hchain

/-- The kinds of the nodes of case labels. -/
def isLabelKind (k : ℕ) : Bool := k == 52 || k == 53 || k == 54

/-- A statement is a case label exactly when its node is one. -/
theorem StmtAt.label_iff {node : CAstNode} {s : Stmt} (h : StmtAt a false off s)
    (hget : a.get off = some node) : isLabelKind node.kind = true ↔ ∃ l, s = .case_ l := by
  cases h with
  | compound hget' hkind hchain =>
    rw [hget] at hget'
    cases hget'
    rcases hchain.chain_shape with rfl | ⟨t, u, rfl⟩ <;> simp [hkind, isLabelKind]
  | bareExpr hget' hkind =>
    rw [hget] at hget'
    cases hget'
    simp only [isExprKind, Bool.or_eq_true, Bool.and_eq_true, decide_eq_true_eq, beq_iff_eq] at hkind
    simp only [isLabelKind, Bool.or_eq_true, beq_iff_eq, reduceCtorEq, exists_false, iff_false]
    omega
  | _ => simp_all [isLabelKind]

theorem StmtAt.case_inv {node : CAstNode} {l : CaseLabel} (h : StmtAt a false off (.case_ l))
    (hget : a.get off = some node) :
    (node.kind = 52 ∧ node.firstChild ≠ 0 ∧ l = .value node.firstChild) ∨
    (node.kind = 54 ∧ node.firstChild ≠ 0 ∧ node.data ≠ 0 ∧ l = .range node.firstChild node.data) ∨
    (node.kind = 53 ∧ l = .default_) := by
  cases h with
  | compound hget' hkind hchain =>
    rcases hchain.chain_shape with h | ⟨t, u, h⟩ <;> cases h
  | _ => simp_all

end SiblingChains

section Labels

variable {a : Arena} {off : ℕ}

/-- The map has the blocks, in their order, for the labels of the chain and for nothing
else in it. -/
inductive Marks (a : Arena) (blockOf : List (ℕ × BlockId)) : ℕ → List BlockId → Prop
  | nil : Marks a blockOf 0 []
  | label {off : ℕ} {node : CAstNode} {B : BlockId} {bs : List BlockId} : a.get off = some node →
      isLabelKind node.kind = true → blockOf.lookup off = some B →
      Marks a blockOf node.nextSibling bs → Marks a blockOf off (B :: bs)
  | other {off : ℕ} {node : CAstNode} {bs : List BlockId} : a.get off = some node →
      isLabelKind node.kind = false → blockOf.lookup off = none →
      Marks a blockOf node.nextSibling bs → Marks a blockOf off bs

/-- What is put in front of a map that marks a chain must not be in the chain. -/
def MarksBehind (a : Arena) (off : ℕ) (blockOf : List (ℕ × BlockId)) : Prop :=
  ∀ offs, SiblingChain a off offs → (∀ q ∈ blockOf, q.1 ∈ offs) ∧
    ∀ before, (∀ o ∈ offs, before.lookup o = none) →
      Marks a (before ++ blockOf) off (blockOf.map Prod.snd)

theorem marksBehind_nil : MarksBehind a 0 [] := by
  intro offs hoffs
  exact ⟨by simp, fun before _ => .nil⟩

theorem lookup_eq_none_of_not_mem {o : ℕ} {m : List (ℕ × BlockId)} (h : ∀ q ∈ m, q.1 ≠ o) :
    m.lookup o = none := by
  rw [List.lookup_eq_none_iff]
  exact fun q hq => by simpa using (h q hq).symm

theorem marksBehind_label {node : CAstNode} {B : BlockId} {m : List (ℕ × BlockId)}
    (hget : a.get off = some node) (hkind : isLabelKind node.kind = true)
    (h : MarksBehind a node.nextSibling m) : MarksBehind a off ((off, B) :: m) := by
  rintro _ (_ | ⟨hget', hrest⟩)
  · exact absurd rfl (Arena.ne_zero_of_get hget)
  · rw [hget] at hget'
    cases hget'
    rename_i offs
    obtain ⟨hkeys, hmarks⟩ := h _ hrest
    refine ⟨?_, fun before hbefore => ?_⟩
    · rintro q (_ | ⟨_, hq⟩)
      · exact List.mem_cons_self
      · exact List.mem_cons_of_mem _ (hkeys q hq)
    · have hoff : before.lookup off = none := hbefore off List.mem_cons_self
      refine .label hget hkind ?_ ?_
      · rw [List.lookup_append, hoff]
        simp
      · have := hmarks (before ++ [(off, B)]) fun o ho => by
          rw [List.lookup_append, hbefore o (List.mem_cons_of_mem _ ho)]
          have hne : (o == off) = false :=
            beq_eq_false_iff_ne.2 fun h => hrest.not_mem hget (h ▸ ho)
          simp [List.lookup_cons, hne]
        simpa using this

theorem marksBehind_other {node : CAstNode} {m : List (ℕ × BlockId)}
    (hget : a.get off = some node) (hkind : isLabelKind node.kind = false)
    (h : MarksBehind a node.nextSibling m) : MarksBehind a off m := by
  rintro _ (_ | ⟨hget', hrest⟩)
  · exact absurd rfl (Arena.ne_zero_of_get hget)
  · rw [hget] at hget'
    cases hget'
    obtain ⟨hkeys, hmarks⟩ := h _ hrest
    refine ⟨fun q hq => List.mem_cons_of_mem _ (hkeys q hq), fun before hbefore => ?_⟩
    refine .other hget hkind ?_ (hmarks before fun o ho => hbefore o (List.mem_cons_of_mem _ ho))
    rw [List.lookup_append, hbefore off List.mem_cons_self, Option.none_or]
    exact lookup_eq_none_of_not_mem fun q hq h => hrest.not_mem hget (h ▸ hkeys q hq)

variable (E : Expressions)

theorem collectLabels_seq {c : ℕ} {otherwise : BlockId} {s t : Stmt} {b : Builder}
    (h : ∀ l, s ≠ .case_ l) :
    collectLabels E c otherwise (.seq s t) b = collectLabels E c otherwise t b := by
  cases s with
  | case_ l => exact absurd rfl (h l)
  | _ => rfl

/-- The first pass over the nodes of a switch body. -/
theorem collectCases_eq {s : Stmt} (h : StmtAt a true off s) :
    ∃ N, ∀ fuel ≥ N, ∀ c otherwise b, ∃ blockOf, collectCases E a c otherwise fuel off b =
        some (((collectLabels E c otherwise s b).1.cases, blockOf,
          (collectLabels E c otherwise s b).1.hasDefault), (collectLabels E c otherwise s b).2) ∧
      blockOf.map Prod.snd = (collectLabels E c otherwise s b).1.blocks ∧
      MarksBehind a off blockOf := by
  generalize hchain : true = chain at h
  induction h with
  | nil =>
    refine ⟨1, fun fuel hfuel c otherwise b => ⟨[], ?_, rfl, marksBehind_nil⟩⟩
    obtain ⟨k, rfl⟩ := Nat.exists_eq_add_of_le' hfuel
    rfl
  | @item off node s t hget hs _ _ ih =>
    obtain ⟨N, hN⟩ := ih rfl
    refine ⟨N + 1, fun fuel hfuel c otherwise b => ?_⟩
    obtain ⟨k, rfl⟩ := Nat.exists_eq_add_of_le' (Nat.le_trans (Nat.le_add_left 1 N) hfuel)
    have hk : k ≥ N := by omega
    have hoff := Arena.ne_zero_of_get hget
    by_cases hl : ∃ l, s = .case_ l
    · obtain ⟨l, rfl⟩ := hl
      rcases hs.case_inv hget with ⟨hkind, hfirst, rfl⟩ | ⟨hkind, hfirst, hdata, rfl⟩ | ⟨hkind, rfl⟩
      · obtain ⟨m, hm, hblocks, hmarks⟩ := hN k hk c otherwise b.appendBasicBlock
        refine ⟨(off, .num b.count) :: m, ?_, ?_,
          marksBehind_label hget (by simp [hkind, isLabelKind]) hmarks⟩
        · simp [collectCases, collectLabels, hoff, hget, hkind, hm, hfirst]
        · simp [collectLabels, hblocks]
      · obtain ⟨m, hm, hblocks, hmarks⟩ := hN k hk c otherwise b.appendBasicBlock
        refine ⟨(off, .num b.count) :: m, ?_, ?_,
          marksBehind_label hget (by simp [hkind, isLabelKind]) hmarks⟩
        · simp [collectCases, collectLabels, hoff, hget, hkind, hm, hfirst, hdata]
        · simp [collectLabels, hblocks]
      · obtain ⟨m, hm, hblocks, hmarks⟩ := hN k hk c otherwise b
        refine ⟨(off, otherwise) :: m, ?_, ?_,
          marksBehind_label hget (by simp [hkind, isLabelKind]) hmarks⟩
        · simp [collectCases, collectLabels, hoff, hget, hkind, hm]
        · simp [collectLabels, hblocks]
    · have hkind : isLabelKind node.kind = false := by
        rw [← Bool.not_eq_true, hs.label_iff hget]
        exact hl
      obtain ⟨m, hm, hblocks, hmarks⟩ := hN k hk c otherwise b
      have hne : ∀ l, s ≠ .case_ l := fun l h => hl ⟨l, h⟩
      refine ⟨m, ?_, ?_, marksBehind_other hget hkind hmarks⟩
      · simp only [isLabelKind, Bool.or_eq_false_iff, beq_eq_false_iff_ne] at hkind
        simp [collectCases, collectLabels_seq E hne, hoff, hget, hkind, hm]
      · rw [collectLabels_seq E hne, hblocks]
  | _ => cases hchain

end Labels

section Lowering

variable (E : Expressions) (a : Arena) (other : CAstNode → Builder → Builder × Bool)

/-- With enough fuel the lowering of a node is that of its statement. -/
def NodeLowers (off : ℕ) (s : Stmt) : Prop :=
  ∃ N, ∀ fuel ≥ N, ∀ b, lowerStmt E a other fuel off b = some (lower E none s b, true)

/-- With enough fuel the lowering of a chain is that of its statements, as a list of
children and as the rest of a switch body. -/
def ChainLowers (off : ℕ) (s : Stmt) : Prop :=
  ∃ N, ∀ k ≥ N, ∀ fuel ≥ N, ∀ b,
    lowerChain a (lowerStmt E a other k) fuel off b = some (lower E none s b) ∧
    ∀ blockOf bs, Marks a blockOf off bs →
      lowerItems E a (lowerStmt E a other k) blockOf fuel off b = some (lower E (some bs) s b)

variable {E a other} {off : ℕ} {node : CAstNode} {s t : Stmt}

theorem chainLowers_nil : ChainLowers E a other 0 .skip := by
  refine ⟨1, fun k _ fuel hfuel b => ?_⟩
  obtain ⟨m, rfl⟩ := Nat.exists_eq_add_of_le' hfuel
  simp [lowerChain, lowerItems, lower]

theorem chainLowers_item (hget : a.get off = some node) (hs : StmtAt a false off s)
    (ihs : NodeLowers E a other off s) (iht : ChainLowers E a other node.nextSibling t) :
    ChainLowers E a other off (.seq s t) := by
  obtain ⟨N, hN⟩ := ihs
  obtain ⟨M, hM⟩ := iht
  refine ⟨N + M + 1, fun k hk fuel hfuel b => ?_⟩
  obtain ⟨m, rfl⟩ := Nat.exists_eq_add_of_le' (Nat.le_trans (Nat.le_add_left 1 _) hfuel)
  have hoff := Arena.ne_zero_of_get hget
  have hstmt := hN k (by omega) b
  constructor
  · rw [lower_seq E (.inl rfl), ← (hM k (by omega) m (by omega) _).1]
    simp [lowerChain, hoff, hget, hstmt, Lowered.ignored]
  · intro blockOf bs hmarks
    cases hmarks with
    | nil => exact absurd rfl hoff
    | label hget' hkind hlookup hrest =>
      rw [hget] at hget'
      cases hget'
      obtain ⟨l, rfl⟩ := (hs.label_iff hget).1 hkind
      rw [lower, ← (hM k (by omega) m (by omega) _).2 _ _ hrest]
      simp [lowerItems, hoff, hget, hlookup]
    | other hget' hkind hlookup hrest =>
      rw [hget] at hget'
      cases hget'
      have hne : ∀ l, s ≠ .case_ l := fun l h => by
        have := (hs.label_iff hget).2 ⟨l, h⟩
        simp [hkind] at this
      rw [lower_seq E (.inr hne), ← (hM k (by omega) m (by omega) _).2 _ _ hrest]
      simp [lowerItems, hoff, hget, hlookup, hstmt, Lowered.ignored]

theorem lowerOptional_ite (off : ℕ) (b : Builder) :
    lowerOptional (if off = 0 then none else some off) b = if off = 0 then b else lowerExpr off b := by
  split_ifs <;> rfl

/-- The kinds that `lowerStmt` has a function for. -/
def stmtKinds : List ℕ := [40, 41, 42, 43, 44, 45, 46, 47, 49, 50, 51]

theorem exprKind_facts {k : ℕ} (h : isExprKind k = true) :
    k ∉ stmtKinds ∧ isSilentKind k = false := by
  simp only [isExprKind, Bool.or_eq_true, Bool.and_eq_true, decide_eq_true_eq, beq_iff_eq] at h
  constructor
  · intro hmem
    simp only [stmtKinds, List.mem_cons, List.not_mem_nil, or_false] at hmem
    omega
  · simp only [isSilentKind, Bool.or_eq_false_iff, Bool.and_eq_false_iff, beq_eq_false_iff_ne,
      decide_eq_false_iff_not]
    omega

/-- One unfolding of `lowerStmt`. -/
theorem nodeLowers_succ (h : ∃ N, ∀ k ≥ N, ∀ b,
    lowerStmt E a other (k + 1) off b = some (lower E none s b, true)) :
    NodeLowers E a other off s := by
  obtain ⟨N, hN⟩ := h
  refine ⟨N + 1, fun fuel hfuel b => ?_⟩
  obtain ⟨k, rfl⟩ := Nat.exists_eq_add_of_le' (Nat.le_trans (Nat.le_add_left 1 _) hfuel)
  exact hN k (by omega) b

theorem nodeLowers_switch {condWrap body : CAstNode} (hget : a.get off = some node)
    (hkind : node.kind = 50) (hwrap : a.get node.firstChild = some condWrap)
    (hcond : condWrap.firstChild ≠ 0) (hbody : a.get condWrap.nextSibling = some body)
    (hitems : StmtAt a true (if body.kind = 40 then body.firstChild else condWrap.nextSibling) s)
    (ih : ChainLowers E a other
      (if body.kind = 40 then body.firstChild else condWrap.nextSibling) s) :
    NodeLowers E a other off (.switch condWrap.firstChild s) := by
  have hfirst : switchChildren a condWrap.nextSibling =
      if body.kind = 40 then body.firstChild else condWrap.nextSibling := by
    rw [switchChildren, hbody]
  rw [← hfirst] at hitems ih
  obtain ⟨N, hN⟩ := ih
  obtain ⟨M, hM⟩ := collectCases_eq E hitems
  refine nodeLowers_succ ⟨N + M, fun k hk b => ?_⟩
  obtain ⟨blockOf, hcollect, hblocks, hmarks⟩ := hM k (by omega) condWrap.firstChild
    (.num (b.count + 1)) (lowerExpr condWrap.firstChild b).appendBasicBlock.appendBasicBlock
  obtain ⟨offs, hoffs⟩ := hitems.chain
  have hitem := fun b => (hN k (by omega) k (by omega) b).2 _ _
    ((hmarks offs hoffs).2 [] fun _ _ => rfl)
  rw [List.nil_append, hblocks] at hitem
  simp only [lowerStmt, hget, hkind, lowerSwitchStmt, hwrap, lower, lowerExpr_count]
  simp [hcond, hcollect, hitem, hblocks]

/-- The lowering of the nodes of a statement is that of the statement. -/
theorem lowerStmt_eq {chain : Bool} (h : StmtAt a chain off s) :
    if chain then ChainLowers E a other off s else NodeLowers E a other off s := by
  induction h with
  | nil => exact chainLowers_nil
  | item hget hs _ ihs iht => exact chainLowers_item hget hs ihs iht
  | compound hget hkind _ ih =>
    obtain ⟨N, hN⟩ := ih
    refine nodeLowers_succ ⟨N, fun k hk b => ?_⟩
    simp [lowerStmt, hget, hkind, (hN k hk k hk b).1]
  | empty hget hkind =>
    refine nodeLowers_succ ⟨0, fun k _ b => ?_⟩
    simp [lowerStmt, hget, hkind, lower, isSilentKind]
  | exprNone hget hkind hfirst =>
    refine nodeLowers_succ ⟨0, fun k _ b => ?_⟩
    simp [lowerStmt, hget, hkind, lower, lowerExprStmt, hfirst]
  | exprStmt hget hkind hfirst =>
    refine nodeLowers_succ ⟨0, fun k _ b => ?_⟩
    simp [lowerStmt, hget, hkind, lower, lowerExprStmt, hfirst]
  | bareExpr hget hkind =>
    refine nodeLowers_succ ⟨0, fun k _ b => ?_⟩
    obtain ⟨hstmt, hsilent⟩ := exprKind_facts hkind
    have hne : ∀ k ∈ stmtKinds, (CAstNode.kind _) ≠ k := fun k hk h => hstmt (h ▸ hk)
    simp only [stmtKinds, List.forall_mem_cons] at hne
    simp [lowerStmt, hget, hkind, hsilent, hne, lower]
  | ifThen hget hkind hcw hcond hbw hthen _ helse ih =>
    obtain ⟨N, hN⟩ := ih
    refine nodeLowers_succ ⟨N, fun k hk b => ?_⟩
    simp [lowerStmt, hget, hkind, lower, lowerIfStmt, hcw, hcond, hbw, hthen, helse,
      lowerOptionalStmt, hN k hk, Lowered.andThen]
  | ifElse hget hkind hcw hcond hbw hthen _ helse _ ihs iht =>
    obtain ⟨N, hN⟩ := ihs
    obtain ⟨M, hM⟩ := iht
    refine nodeLowers_succ ⟨N + M, fun k hk b => ?_⟩
    simp [lowerStmt, hget, hkind, lower, lowerIfStmt, hcw, hcond, hbw, hthen, helse,
      lowerOptionalStmt, hN k (by omega), hM k (by omega), Lowered.andThen]
  | while_ hget hkind hdata hcw hcond hbody _ ih =>
    obtain ⟨N, hN⟩ := ih
    refine nodeLowers_succ ⟨N, fun k hk b => ?_⟩
    simp [lowerStmt, hget, hkind, lower, lowerWhileStmt, whileLoop, hcw, hcond, hbody, hdata,
      lowerTest, lowerOptionalStmt, hN k hk, Lowered.ignored]
  | doWhile hget hkind hdata hfirst hb hcond _ ih =>
    obtain ⟨N, hN⟩ := ih
    refine nodeLowers_succ ⟨N, fun k hk b => ?_⟩
    simp [lowerStmt, hget, hkind, lower, lowerWhileStmt, whileLoop, hb, hcond, hfirst, hdata,
      lowerTest, lowerOptionalStmt, hN k hk, Lowered.ignored]
  | for_ hget hkind hiw hcw hnw hinit _ hcond hbody _ ihi ihs =>
    obtain ⟨N, hN⟩ := ihi
    obtain ⟨M, hM⟩ := ihs
    refine nodeLowers_succ ⟨N + M, fun k hk b => ?_⟩
    simp [lowerStmt, hget, hkind, lower, lowerForStmt, hiw, hcw, hnw, hinit, hcond, hbody,
      lowerTest, lowerOptionalStmt, hN k (by omega), hM k (by omega), Lowered.ignored,
      Lowered.andThen, lowerOptional_ite]
  | switch hget hkind hcw hcond hb hitems ih =>
    exact nodeLowers_switch hget hkind hcw hcond hb hitems ih
  | case_ hget hkind _ =>
    refine nodeLowers_succ ⟨0, fun k _ b => ?_⟩
    simp [lowerStmt, hget, hkind, lower, isSilentKind]
  | caseRange hget hkind _ _ =>
    refine nodeLowers_succ ⟨0, fun k _ b => ?_⟩
    simp [lowerStmt, hget, hkind, lower, isSilentKind]
  | default_ hget hkind =>
    refine nodeLowers_succ ⟨0, fun k _ b => ?_⟩
    simp [lowerStmt, hget, hkind, lower, isSilentKind]
  | break_ hget hkind =>
    refine nodeLowers_succ ⟨0, fun k _ b => ?_⟩
    simp [lowerStmt, hget, hkind, lower, lowerBreakContinue]
  | continue_ hget hkind =>
    refine nodeLowers_succ ⟨0, fun k _ b => ?_⟩
    simp [lowerStmt, hget, hkind, lower, lowerBreakContinue]
  | goto_ hget hkind hdata hl hne =>
    refine nodeLowers_succ ⟨0, fun k _ b => ?_⟩
    simp [lowerStmt, hget, hkind, lower, lowerGotoStmt, hdata, hl, hne]
  | labeled hget hkind hdata hl hne hfirst _ ih =>
    obtain ⟨N, hN⟩ := ih
    refine nodeLowers_succ ⟨N, fun k hk b => ?_⟩
    simp [lowerStmt, hget, hkind, lower, lowerLabeledStmt, hdata, hl, hne, lowerOptionalStmt,
      hfirst, hN k hk]
  | return_ hget hkind =>
    refine nodeLowers_succ ⟨0, fun k _ b => ?_⟩
    simp [lowerStmt, hget, hkind, lower, lowerReturnStmt, lowerOptional_ite]

/-- With enough fuel a function body becomes what its statements become. -/
theorem lowerFuncDef_eq (h : StmtAt a true off s) (scalarReturn : Bool) :
    ∃ N, ∀ fuel ≥ N, lowerFuncDef E a other scalarReturn fuel off =
      some (lowerBody E scalarReturn s) := by
  obtain ⟨N, hN⟩ := lowerStmt_eq h
  refine ⟨N, fun fuel hfuel => ?_⟩
  rw [lowerFuncDef, (hN fuel hfuel fuel hfuel entry).1]
  rfl

end Lowering

end OpticC
