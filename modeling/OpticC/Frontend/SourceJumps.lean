import OpticC.Frontend.BlockReading

/-! The constraints of C on the jumps of a statement as it is written, and that they hold of the
statement its nodes are. -/

namespace OpticC.Statements

open Expressions (Phrase)

variable {T : String → Bool}

namespace Source

/-- The labels the statement declares. -/
def declared : {b : Bool} → Source T b → List String
  | _, item s rest => s.declared ++ rest.declared
  | _, caseItem _ _ _ rest => rest.declared
  | _, rangeItem _ _ _ _ _ rest => rest.declared
  | _, defaultItem _ _ rest => rest.declared
  | _, block _ items _ => items.declared
  | _, ifThen _ _ _ _ s => s.declared
  | _, ifElse _ _ _ _ s _ t => s.declared ++ t.declared
  | _, while_ _ _ _ _ s => s.declared
  | _, doWhile _ s _ _ _ _ _ => s.declared
  | _, for_ _ _ _ _ _ _ _ _ s => s.declared
  | _, switch _ _ _ _ s => s.declared
  | _, labeled l _ s => l.token.text :: s.declared
  | _, _ => []

/-- The labels it jumps to. -/
def targets : {b : Bool} → Source T b → List String
  | _, item s rest => s.targets ++ rest.targets
  | _, caseItem _ _ _ rest => rest.targets
  | _, rangeItem _ _ _ _ _ rest => rest.targets
  | _, defaultItem _ _ rest => rest.targets
  | _, block _ items _ => items.targets
  | _, ifThen _ _ _ _ s => s.targets
  | _, ifElse _ _ _ _ s _ t => s.targets ++ t.targets
  | _, while_ _ _ _ _ s => s.targets
  | _, doWhile _ s _ _ _ _ _ => s.targets
  | _, for_ _ _ _ _ _ _ _ _ s => s.targets
  | _, switch _ _ _ _ s => s.targets
  | _, goto_ _ l _ => [l.token.text]
  | _, labeled _ _ s => s.targets
  | _, _ => []

/-- `break` and `continue` stand where something takes them. -/
def Enclosed (inBreak inContinue : Bool) : {b : Bool} → Source T b → Prop
  | _, item s rest => s.Enclosed inBreak inContinue ∧ rest.Enclosed inBreak inContinue
  | _, caseItem _ _ _ rest => rest.Enclosed inBreak inContinue
  | _, rangeItem _ _ _ _ _ rest => rest.Enclosed inBreak inContinue
  | _, defaultItem _ _ rest => rest.Enclosed inBreak inContinue
  | _, block _ items _ => items.Enclosed inBreak inContinue
  | _, ifThen _ _ _ _ s => s.Enclosed inBreak inContinue
  | _, ifElse _ _ _ _ s _ t => s.Enclosed inBreak inContinue ∧ t.Enclosed inBreak inContinue
  | _, while_ _ _ _ _ s => s.Enclosed true true
  | _, doWhile _ s _ _ _ _ _ => s.Enclosed true true
  | _, for_ _ _ _ _ _ _ _ _ s => s.Enclosed true true
  | _, switch _ _ _ _ s => s.Enclosed true inContinue
  | _, labeled _ _ s => s.Enclosed inBreak inContinue
  | _, break_ _ _ => inBreak = true
  | _, continue_ _ _ => inContinue = true
  | _, _ => True

/-- The number of default labels that belong to the switch around the statement. -/
def defaults : {b : Bool} → Source T b → ℕ
  | _, item s rest => s.defaults + rest.defaults
  | _, caseItem _ _ _ rest => rest.defaults
  | _, rangeItem _ _ _ _ _ rest => rest.defaults
  | _, defaultItem _ _ rest => rest.defaults + 1
  | _, block _ items _ => items.defaults
  | _, ifThen _ _ _ _ s => s.defaults
  | _, ifElse _ _ _ _ s _ t => s.defaults + t.defaults
  | _, while_ _ _ _ _ s => s.defaults
  | _, doWhile _ s _ _ _ _ _ => s.defaults
  | _, for_ _ _ _ _ _ _ _ _ s => s.defaults
  | _, labeled _ _ s => s.defaults
  | _, _ => 0

/-- No switch has two default labels. -/
def OneDefault : {b : Bool} → Source T b → Prop
  | _, item s rest => s.OneDefault ∧ rest.OneDefault
  | _, caseItem _ _ _ rest => rest.OneDefault
  | _, rangeItem _ _ _ _ _ rest => rest.OneDefault
  | _, defaultItem _ _ rest => rest.OneDefault
  | _, block _ items _ => items.OneDefault
  | _, ifThen _ _ _ _ s => s.OneDefault
  | _, ifElse _ _ _ _ s _ t => s.OneDefault ∧ t.OneDefault
  | _, while_ _ _ _ _ s => s.OneDefault
  | _, doWhile _ s _ _ _ _ _ => s.OneDefault
  | _, for_ _ _ _ _ _ _ _ _ s => s.OneDefault
  | _, switch _ _ _ _ s => s.defaults ≤ 1 ∧ s.OneDefault
  | _, labeled _ _ s => s.OneDefault
  | _, _ => True

/-- The constraints of C on the jumps of a function body. -/
structure JumpsValid (src : Source T false) : Prop where
  unique : src.declared.Nodup
  declared : ∀ l ∈ src.targets, l ∈ src.declared
  enclosed : src.Enclosed false false
  defaults : src.OneDefault

end Source

section Reading

variable {a : Arena} {b : Bool} {src : Source T b} {s : Stmt}

theorem Source.eq_block {s : Source T false} {items : Source T true}
    (h : s.blockItems? = some items) : ∃ left right, s = .block left items right := by
  cases s with
  | block left items right =>
    cases h
    exact ⟨left, right, rfl⟩
  | _ => cases h

theorem InitAt.eq {init : Option (Phrase T .expression)} (h : InitAt a init s) :
    s = .skip ∨ ∃ n, s = .expr n := by
  cases init with
  | none => exact .inl h
  | some e =>
    obtain ⟨n, -, rfl⟩ := h
    exact .inr ⟨n, rfl⟩

theorem Reads.labels_eq (h : Reads a src s) : s.labels = src.declared := by
  induction h with
  | for_ hinit _ _ _ ih => rcases hinit.eq with rfl | ⟨n, rfl⟩ <;> exact ih
  | switchItems _ hblock _ ih =>
    obtain ⟨left, right, rfl⟩ := Source.eq_block hblock
    exact ih
  | _ => simp_all [Stmt.labels, Source.declared]

theorem Reads.targets_eq (h : Reads a src s) : s.targets = src.targets := by
  induction h with
  | for_ hinit _ _ _ ih => rcases hinit.eq with rfl | ⟨n, rfl⟩ <;> exact ih
  | switchItems _ hblock _ ih =>
    obtain ⟨left, right, rfl⟩ := Source.eq_block hblock
    exact ih
  | _ => simp_all [Stmt.targets, Source.targets]

theorem Reads.enclosed_iff (h : Reads a src s) (inBreak inContinue : Bool) :
    s.Enclosed inBreak inContinue ↔ src.Enclosed inBreak inContinue := by
  induction h generalizing inBreak inContinue with
  | for_ hinit _ _ _ ih =>
    rcases hinit.eq with rfl | ⟨n, rfl⟩ <;> simp [Stmt.Enclosed, Source.Enclosed, ih]
  | switchItems _ hblock _ ih =>
    obtain ⟨left, right, rfl⟩ := Source.eq_block hblock
    exact ih true inContinue
  | _ => simp_all [Stmt.Enclosed, Source.Enclosed, -Bool.forall_bool]

theorem Reads.defaults_eq (h : Reads a src s) : s.caseLabels.count .default_ = src.defaults := by
  induction h with
  | for_ hinit _ _ _ ih => rcases hinit.eq with rfl | ⟨n, rfl⟩ <;> exact ih
  | _ => simp_all [Stmt.caseLabels, Source.defaults]

theorem Reads.oneDefault_iff (h : Reads a src s) :
    (s.AllSwitches fun _ items => items.caseLabels.count .default_ ≤ 1) ↔ src.OneDefault := by
  induction h with
  | for_ hinit _ _ _ ih =>
    rcases hinit.eq with rfl | ⟨n, rfl⟩ <;> simp [Stmt.AllSwitches, Source.OneDefault, ih]
  | switchItems _ hblock hitems ih =>
    obtain ⟨left, right, rfl⟩ := Source.eq_block hblock
    simp [Stmt.AllSwitches, Source.OneDefault, Source.defaults, ih, hitems.defaults_eq]
  | switchSingle _ _ hs ih =>
    simp [Stmt.AllSwitches, Stmt.caseLabels, Source.OneDefault, ih, hs.defaults_eq]
  | _ => simp_all [Stmt.AllSwitches, Source.OneDefault]

/-- The jumps of a statement are valid if those of the source are. -/
theorem Reads.jumpsValid {src : Source T false} (h : Reads a src s) (hsrc : src.JumpsValid) :
    s.JumpsValid where
  unique := h.labels_eq ▸ hsrc.unique
  declared := by
    rw [h.labels_eq, h.targets_eq]
    exact hsrc.declared
  enclosed := (h.enclosed_iff false false).2 hsrc.enclosed
  defaults := h.oneDefault_iff.2 hsrc.defaults

end Reading

end OpticC.Statements
