import OpticC.Arena
import Mathlib.Data.Int.Notation

/-! Statements of a function body, and the nodes the parser lays out for them. An
expression is named by the offset of its node. -/

namespace OpticC

inductive CaseLabel where
  | value (e : ℕ)
  | range (lo hi : ℕ)
  | default_
  deriving DecidableEq, Repr

/-- A compound statement is the sequence of its items. A case or default label is an item
of its own, as the parser leaves it, and the init of a `for` comes before it. -/
inductive Stmt where
  | skip
  | expr (e : ℕ)
  | seq (s t : Stmt)
  | ite (c : ℕ) (s t : Stmt)
  | while_ (c : ℕ) (s : Stmt)
  | doWhile (s : Stmt) (c : ℕ)
  | for_ (c : ℕ) (incr : Option ℕ) (s : Stmt)
  | switch (c : ℕ) (items : Stmt)
  | case_ (l : CaseLabel)
  | break_
  | continue_
  | goto_ (l : String)
  | labeled (l : String) (s : Stmt)
  | return_ (e : Option ℕ)
  deriving DecidableEq, Repr

namespace Stmt

/-- The labels a statement declares. -/
def labels : Stmt → List String
  | seq s t => s.labels ++ t.labels
  | ite _ s t => s.labels ++ t.labels
  | while_ _ s => s.labels
  | doWhile s _ => s.labels
  | for_ _ _ s => s.labels
  | switch _ s => s.labels
  | labeled l s => l :: s.labels
  | _ => []

/-- The labels a statement jumps to. -/
def targets : Stmt → List String
  | seq s t => s.targets ++ t.targets
  | ite _ s t => s.targets ++ t.targets
  | while_ _ s => s.targets
  | doWhile s _ => s.targets
  | for_ _ _ s => s.targets
  | switch _ s => s.targets
  | goto_ l => [l]
  | labeled _ s => s.targets
  | _ => []

/-- `break` and `continue` stand where something takes them. -/
def Enclosed (inBreak inContinue : Bool) : Stmt → Prop
  | seq s t => s.Enclosed inBreak inContinue ∧ t.Enclosed inBreak inContinue
  | ite _ s t => s.Enclosed inBreak inContinue ∧ t.Enclosed inBreak inContinue
  | while_ _ s => s.Enclosed true true
  | doWhile s _ => s.Enclosed true true
  | for_ _ _ s => s.Enclosed true true
  | switch _ s => s.Enclosed true inContinue
  | labeled _ s => s.Enclosed inBreak inContinue
  | break_ => inBreak = true
  | continue_ => inContinue = true
  | _ => True

/-- The case labels that belong to the switch around the statement. -/
def caseLabels : Stmt → List CaseLabel
  | seq s t => s.caseLabels ++ t.caseLabels
  | ite _ s t => s.caseLabels ++ t.caseLabels
  | while_ _ s => s.caseLabels
  | doWhile s _ => s.caseLabels
  | for_ _ _ s => s.caseLabels
  | labeled _ s => s.caseLabels
  | case_ l => [l]
  | _ => []

/-- The case labels among the items themselves. -/
def itemLabels : Stmt → List CaseLabel
  | seq (case_ l) t => l :: t.itemLabels
  | seq _ t => t.itemLabels
  | _ => []

theorem itemLabels_seq {s t : Stmt} (h : ∀ l, s ≠ case_ l) :
    (seq s t).itemLabels = t.itemLabels := by
  cases s with
  | case_ l => exact absurd rfl (h l)
  | _ => rfl

/-- The case labels of a switch body that stand inside its items. -/
def innerLabels : Stmt → List CaseLabel
  | seq (case_ _) t => t.innerLabels
  | seq s t => s.caseLabels ++ t.innerLabels
  | s => s.caseLabels

theorem innerLabels_seq {s t : Stmt} (h : ∀ l, s ≠ case_ l) :
    (seq s t).innerLabels = s.caseLabels ++ t.innerLabels := by
  cases s with
  | case_ l => exact absurd rfl (h l)
  | _ => rfl

theorem itemLabels_sublist (s : Stmt) : s.itemLabels.Sublist s.caseLabels := by
  induction s with
  | seq s t _ iht =>
    by_cases h : ∃ l, s = case_ l
    · obtain ⟨l, rfl⟩ := h
      exact iht.cons_cons l
    · rw [itemLabels_seq fun l hl => h ⟨l, hl⟩]
      exact iht.trans (List.sublist_append_right _ _)
  | _ => exact List.nil_sublist _

/-- A property of the switches of a statement, each by its condition and its body. -/
def AllSwitches (P : ℕ → Stmt → Prop) : Stmt → Prop
  | seq s t => s.AllSwitches P ∧ t.AllSwitches P
  | ite _ s t => s.AllSwitches P ∧ t.AllSwitches P
  | while_ _ s => s.AllSwitches P
  | doWhile s _ => s.AllSwitches P
  | for_ _ _ s => s.AllSwitches P
  | switch c s => P c s ∧ s.AllSwitches P
  | labeled _ s => s.AllSwitches P
  | _ => True

/-- No switch stands in the statement. -/
def NoSwitch : Stmt → Prop
  | seq s t => s.NoSwitch ∧ t.NoSwitch
  | ite _ s t => s.NoSwitch ∧ t.NoSwitch
  | while_ _ s => s.NoSwitch
  | doWhile s _ => s.NoSwitch
  | for_ _ _ s => s.NoSwitch
  | labeled _ s => s.NoSwitch
  | switch _ _ => False
  | _ => True

theorem NoSwitch.allSwitches {s : Stmt} (h : s.NoSwitch) (P : ℕ → Stmt → Prop) :
    s.AllSwitches P := by
  induction s with
  | seq s t ihs iht => exact ⟨ihs h.1, iht h.2⟩
  | ite c s t ihs iht => exact ⟨ihs h.1, iht h.2⟩
  | while_ c s ih => exact ih h
  | doWhile s c ih => exact ih h
  | for_ c i s ih => exact ih h
  | switch c s => exact h.elim
  | labeled l s ih => exact ih h
  | _ => trivial

/-- The constraints of C on the jumps of a function body. -/
structure JumpsValid (body : Stmt) : Prop where
  unique : body.labels.Nodup
  declared : ∀ l ∈ body.targets, l ∈ body.labels
  enclosed : body.Enclosed false false
  defaults : body.AllSwitches fun _ items => items.caseLabels.count .default_ ≤ 1

end Stmt

/-- The kinds of expression nodes. -/
def isExprKind (k : ℕ) : Bool := (60 ≤ k && k ≤ 74) || k == 80 || k == 81 || k == 82

/-- The nodes at `off` are those the parser makes of the statement; with `chain`, those
of the items from there on. -/
inductive StmtAt (a : Arena) : (chain : Bool) → ℕ → Stmt → Prop
  | nil : StmtAt a true 0 .skip
  | item {off : ℕ} {n : CAstNode} {s t : Stmt} : a.get off = some n → StmtAt a false off s →
      StmtAt a true n.nextSibling t → StmtAt a true off (.seq s t)
  | compound {off : ℕ} {n : CAstNode} {s : Stmt} : a.get off = some n → n.kind = 40 →
      StmtAt a true n.firstChild s → StmtAt a false off s
  | empty {off : ℕ} {n : CAstNode} : a.get off = some n → n.kind = 48 → StmtAt a false off .skip
  | exprNone {off : ℕ} {n : CAstNode} : a.get off = some n → n.kind = 45 → n.firstChild = 0 →
      StmtAt a false off .skip
  | exprStmt {off : ℕ} {n : CAstNode} : a.get off = some n → n.kind = 45 → n.firstChild ≠ 0 →
      StmtAt a false off (.expr n.firstChild)
  /-- The init of a `for` is the expression itself. -/
  | bareExpr {off : ℕ} {n : CAstNode} : a.get off = some n → isExprKind n.kind →
      StmtAt a false off (.expr off)
  | ifThen {off : ℕ} {n cw bw : CAstNode} {s : Stmt} : a.get off = some n → n.kind = 41 →
      a.get n.firstChild = some cw → cw.firstChild ≠ 0 → a.get cw.nextSibling = some bw →
      bw.firstChild ≠ 0 → StmtAt a false bw.firstChild s → bw.nextSibling = 0 →
      StmtAt a false off (.ite cw.firstChild s .skip)
  | ifElse {off : ℕ} {n cw bw : CAstNode} {s t : Stmt} : a.get off = some n → n.kind = 41 →
      a.get n.firstChild = some cw → cw.firstChild ≠ 0 → a.get cw.nextSibling = some bw →
      bw.firstChild ≠ 0 → StmtAt a false bw.firstChild s →
      bw.nextSibling ≠ 0 → StmtAt a false bw.nextSibling t →
      StmtAt a false off (.ite cw.firstChild s t)
  | while_ {off : ℕ} {n cw : CAstNode} {s : Stmt} : a.get off = some n → n.kind = 42 →
      n.data ≠ 1 → a.get n.firstChild = some cw → cw.firstChild ≠ 0 → cw.nextSibling ≠ 0 →
      StmtAt a false cw.nextSibling s → StmtAt a false off (.while_ cw.firstChild s)
  | doWhile {off : ℕ} {n b : CAstNode} {s : Stmt} : a.get off = some n → n.kind = 42 →
      n.data = 1 → n.firstChild ≠ 0 → a.get n.firstChild = some b → b.nextSibling ≠ 0 →
      StmtAt a false n.firstChild s → StmtAt a false off (.doWhile s b.nextSibling)
  | for_ {off : ℕ} {n iw cw nw : CAstNode} {i s : Stmt} : a.get off = some n → n.kind = 43 →
      a.get n.firstChild = some iw → a.get iw.nextSibling = some cw →
      a.get cw.nextSibling = some nw → iw.firstChild ≠ 0 → StmtAt a false iw.firstChild i →
      cw.firstChild ≠ 0 → nw.nextSibling ≠ 0 → StmtAt a false nw.nextSibling s →
      StmtAt a false off (.seq i (.for_ cw.firstChild
        (if nw.firstChild = 0 then none else some nw.firstChild) s))
  | switch {off : ℕ} {n cw b : CAstNode} {s : Stmt} : a.get off = some n → n.kind = 50 →
      a.get n.firstChild = some cw → cw.firstChild ≠ 0 → a.get cw.nextSibling = some b →
      StmtAt a true (if b.kind = 40 then b.firstChild else cw.nextSibling) s →
      StmtAt a false off (.switch cw.firstChild s)
  | case_ {off : ℕ} {n : CAstNode} : a.get off = some n → n.kind = 52 → n.firstChild ≠ 0 →
      StmtAt a false off (.case_ (.value n.firstChild))
  | caseRange {off : ℕ} {n : CAstNode} : a.get off = some n → n.kind = 54 → n.firstChild ≠ 0 →
      n.data ≠ 0 → StmtAt a false off (.case_ (.range n.firstChild n.data))
  | default_ {off : ℕ} {n : CAstNode} : a.get off = some n → n.kind = 53 →
      StmtAt a false off (.case_ .default_)
  | break_ {off : ℕ} {n : CAstNode} : a.get off = some n → n.kind = 46 →
      StmtAt a false off .break_
  | continue_ {off : ℕ} {n : CAstNode} : a.get off = some n → n.kind = 47 →
      StmtAt a false off .continue_
  | goto_ {off : ℕ} {n : CAstNode} {l : String} : a.get off = some n → n.kind = 49 →
      n.data ≠ 0 → a.getString n.data = some l → l ≠ "" → StmtAt a false off (.goto_ l)
  | labeled {off : ℕ} {n : CAstNode} {l : String} {s : Stmt} : a.get off = some n →
      n.kind = 51 → n.data ≠ 0 → a.getString n.data = some l → l ≠ "" → n.firstChild ≠ 0 →
      StmtAt a false n.firstChild s → StmtAt a false off (.labeled l s)
  | return_ {off : ℕ} {n : CAstNode} : a.get off = some n → n.kind = 44 →
      StmtAt a false off (.return_ (if n.firstChild = 0 then none else some n.firstChild))

end OpticC
