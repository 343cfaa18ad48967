import OpticC.Frontend.NodeForest
import OpticC.Frontend.Grammar

/-! What a call of the parser does to the forest of nodes, whether it returns or fails: the rules
by which the productions are gone through. -/

namespace OpticC.NodeForest

open LinkedForest

/-- The tokens are only read, and none of them is gone back to. -/
structure Moves (p p' : Parser) : Prop where
  tokens : p'.tokens = p.tokens
  current : p.current ≤ p'.current

theorem Moves.refl (p : Parser) : Moves p p := ⟨rfl, Nat.le_refl _⟩

theorem Moves.trans {p q r : Parser} (h : Moves p q) (h' : Moves q r) : Moves p r :=
  ⟨h'.tokens.trans h.tokens, Nat.le_trans h.current h'.current⟩

/-- The call comes to `Q`, or it fails with a forest of new nodes. -/
def Runs (a₀ : Arena) {α : Type} (m : ParserM α) (Q : α → Parser → Prop) (p : Parser) : Prop :=
  match m p with
  | .ok r p' => Moves p p' ∧ Q r p'
  | .error _ p' => Moves p p' ∧ Grown a₀ p'.arena

/-- The call leaves no root that anything is done with. -/
def Quiet {α : Type} (m : ParserM α) : Prop :=
  ∀ p, Runs p.arena m (fun _ p' => Grown p.arena p'.arena) p

/-- The call returns the root of a new tree, or `NULL`. -/
def Call (m : ParserM ℕ) : Prop :=
  ∀ p, Runs p.arena m (fun r p' => Owns p.arena p'.arena (0, 0) [r]) p

variable {a₀ : Arena} {α β : Type} {p : Parser} {chain : ℕ × ℕ} {roots : List ℕ} {x y d : ℕ}

namespace Runs

theorem bind {m : ParserM α} {f : α → ParserM β} {Q : α → Parser → Prop} {Q' : β → Parser → Prop}
    (h : Runs a₀ m Q p) (hf : ∀ r p', Q r p' → Runs a₀ (f r) Q' p') : Runs a₀ (m >>= f) Q' p := by
  unfold Runs at h ⊢
  simp only [Bind.bind, EStateM.bind]
  cases hm : m p with
  | error e p' =>
    rw [hm] at h
    exact h
  | ok r p' =>
    rw [hm] at h
    have hrest := hf r p' h.2
    unfold Runs at hrest
    simp only
    cases hres : f r p' with
    | error e p'' =>
      rw [hres] at hrest
      exact ⟨h.1.trans hrest.1, hrest.2⟩
    | ok r' p'' =>
      rw [hres] at hrest
      exact ⟨h.1.trans hrest.1, hrest.2⟩

theorem pure {r : α} {Q : α → Parser → Prop} (hQ : Q r p) : Runs a₀ (Pure.pure r : ParserM α) Q p :=
  ⟨Moves.refl p, hQ⟩

theorem throw {e : Fault} {Q : α → Parser → Prop} (h : Grown a₀ p.arena) :
    Runs a₀ (MonadExcept.throw e : ParserM α) Q p := ⟨Moves.refl p, h⟩

theorem get {f : Parser → ParserM β} {Q : β → Parser → Prop} (h : Runs a₀ (f p) Q p) :
    Runs a₀ (MonadState.get >>= f) Q p := h

theorem mono {m : ParserM α} {Q Q' : α → Parser → Prop} (h : Runs a₀ m Q p)
    (hQ : ∀ r p', Q r p' → Q' r p') : Runs a₀ m Q' p := by
  unfold Runs at h ⊢
  cases hm : m p with
  | error e p' =>
    rw [hm] at h
    exact h
  | ok r p' =>
    rw [hm] at h
    exact ⟨h.1, hQ r p' h.2⟩

/-- A call that starts from the arena of now. -/
theorem lift {m : ParserM α} {Q : α → Parser → Prop} (hg : Grown a₀ p.arena)
    (h : Runs p.arena m Q p) : Runs a₀ m Q p := by
  unfold Runs at h ⊢
  cases hm : m p with
  | error e p' =>
    rw [hm] at h
    exact ⟨h.1, hg.trans h.2⟩
  | ok r p' =>
    rw [hm] at h
    exact h

end Runs

theorem Quiet.runs {m : ParserM α} (hm : Quiet m) (h : Owns a₀ p.arena chain roots) :
    Runs a₀ m (fun _ p' => Owns a₀ p'.arena chain roots) p :=
  (Runs.lift h.grown (hm p)).mono fun _ _ hg => h.quiet hg

theorem Call.runs {m : ParserM ℕ} (hm : Call m) (h : Owns a₀ p.arena chain roots) :
    Runs a₀ m (fun r p' => Owns a₀ p'.arena chain (r :: roots)) p :=
  (Runs.lift h.grown (hm p)).mono fun _ _ h' => h.call h'

theorem Call.quiet {m : ParserM ℕ} (hm : Call m) : Quiet m := fun p =>
  (hm p).mono fun _ _ h => h.grown

/-- A call is gone through from its start. -/
theorem Call.of {m : ParserM ℕ} (h : ∀ a₀ p, Owns a₀ p.arena (0, 0) [] →
    Runs a₀ m (fun r p' => Owns a₀ p'.arena (0, 0) [r]) p) : Call m := fun p =>
  h p.arena p (Owns.start (Grown.refl _))

theorem Quiet.of {m : ParserM α} (h : ∀ a₀ p, Owns a₀ p.arena (0, 0) [] →
    Runs a₀ m (fun _ p' => Grown a₀ p'.arena) p) : Quiet m := fun p =>
  h p.arena p (Owns.start (Grown.refl _))

namespace Quiet

theorem bind {m : ParserM α} {f : α → ParserM β} (h : Quiet m) (hf : ∀ r, Quiet (f r)) :
    Quiet (m >>= f) :=
  .of fun _ _ hp => (h.runs hp).bind fun r _ hp₁ => ((hf r).runs hp₁).mono fun _ _ h => h.grown

theorem pure (r : α) : Quiet (Pure.pure r : ParserM α) := fun _ => Runs.pure (Grown.refl _)

theorem throw (e : Fault) : Quiet (MonadExcept.throw e : ParserM α) := fun _ =>
  Runs.throw (Grown.refl _)

theorem get {f : Parser → ParserM β} (h : ∀ p, Quiet (f p)) : Quiet (MonadState.get >>= f) :=
  fun p => h p p

theorem advance : Quiet advance := by
  intro p
  unfold Runs OpticC.advance
  simp only [modify_run]
  split
  · exact ⟨⟨rfl, Nat.le_succ _⟩, Grown.refl _⟩
  · exact ⟨Moves.refl p, Grown.refl _⟩

theorem expect (text : String) : Quiet (expect text) := by
  unfold OpticC.expect
  refine get fun p => ?_
  dsimp only
  split
  · exact advance
  · exact throw _

theorem skipPunctuator (text : String) : Quiet (skipPunctuator text) := by
  unfold OpticC.skipPunctuator
  refine get fun p => ?_
  split
  · exact advance.bind fun _ => pure _
  · exact pure _

theorem throwParse (message : String) : Quiet (throwParse message : ParserM α) :=
  get fun _ => throw _

theorem storeString (s : String) : Quiet (storeString s) := by
  intro p
  unfold Runs
  rw [storeString_eq]
  have hnone := fun off => links_old (Nat.le_of_eq (intern_nodes p.arena s).2.1) off
  refine ⟨⟨rfl, Nat.le_refl _⟩, extends_intern _ s, fun hl => ?_, IsForest.empty ?_⟩
  · rw [hnone] at hl
    cases hl
  · exact hnone

/-- A write that leaves the nodes and the tokens alone. -/
theorem modify {f : Parser → Parser} (harena : ∀ p, (f p).arena = p.arena)
    (hmoves : ∀ p, Moves p (f p)) : Quiet (modify f : ParserM Unit) := by
  intro p
  unfold Runs
  rw [modify_run]
  refine ⟨hmoves p, ?_⟩
  show Grown p.arena (f p).arena
  rw [harena]
  exact Grown.refl _

theorem ignoreError {m : ParserM ℕ} (h : Quiet m) : Quiet (ignoreError m) := by
  intro p
  have hp := h p
  unfold Runs OpticC.ignoreError at *
  cases hm : m p with
  | ok r p' =>
    rw [hm] at hp
    exact hp
  | error e p' =>
    rw [hm] at hp
    cases e with
    | outOfFuel => exact hp
    | parse e => exact hp

theorem evalConstant (offset : ℕ) : Quiet (evalConstant offset) := get fun _ => pure _

theorem evalConstantU32 (offset : ℕ) : Quiet (evalConstantU32 offset) := by
  refine (evalConstant offset).bind fun v => ?_
  split <;> exact pure _

end Quiet

namespace Runs

theorem advance (h : Owns a₀ p.arena chain roots) :
    Runs a₀ advance (fun _ p' => Owns a₀ p'.arena chain roots) p := Quiet.advance.runs h

theorem expect (text : String) (h : Owns a₀ p.arena chain roots) :
    Runs a₀ (expect text) (fun _ p' => Owns a₀ p'.arena chain roots) p := (Quiet.expect text).runs h

theorem skipPunctuator (text : String) (h : Owns a₀ p.arena chain roots) :
    Runs a₀ (skipPunctuator text) (fun _ p' => Owns a₀ p'.arena chain roots) p :=
  (Quiet.skipPunctuator text).runs h

theorem storeString (s : String) (h : Owns a₀ p.arena chain roots) :
    Runs a₀ (storeString s) (fun _ p' => Owns a₀ p'.arena chain roots) p :=
  (Quiet.storeString s).runs h

theorem throwParse (message : String) (h : Owns a₀ p.arena chain roots)
    {Q : α → Parser → Prop} : Runs a₀ (throwParse message) Q p :=
  get (throw h.grown)

/-- A node takes two roots. -/
theorem alloc₂ (kind data parent : ℕ) (h : Owns a₀ p.arena chain (x :: y :: roots)) :
    Runs a₀ (allocNode kind data parent x y) (fun r p' => Owns a₀ p'.arena chain (r :: roots)) p := by
  unfold Runs
  rw [allocNode_eq]
  refine ⟨⟨rfl, Nat.le_refl _⟩, h.put ?_ (.inr rfl)⟩
  unfold CAstNode.link
  dsimp only
  split_ifs
  · exact .inl rfl
  · exact .inr rfl

theorem alloc₁ (kind data parent : ℕ) (h : Owns a₀ p.arena chain (x :: roots)) :
    Runs a₀ (allocNode kind data parent x 0) (fun r p' => Owns a₀ p'.arena chain (r :: roots)) p :=
  alloc₂ kind data parent h.null.swap

theorem alloc₀ (kind data parent : ℕ) (h : Owns a₀ p.arena chain roots) :
    Runs a₀ (allocNode kind data parent 0 0) (fun r p' => Owns a₀ p'.arena chain (r :: roots)) p :=
  alloc₁ kind data parent h.null

/-- An assembly statement, whose field for the first child is no link. -/
theorem allocAsm (data parent template : ℕ) (h : Owns a₀ p.arena chain (y :: roots)) :
    Runs a₀ (allocNode 207 data parent template y)
      (fun r p' => Owns a₀ p'.arena chain (r :: roots)) p := by
  unfold Runs
  rw [allocNode_eq]
  exact ⟨⟨rfl, Nat.le_refl _⟩, h.null.put (.inl rfl) (.inr rfl)⟩

theorem linkSiblings (h : Owns a₀ p.arena chain (x :: roots)) :
    Runs a₀ (linkSiblings chain x) (fun c p' => Owns a₀ p'.arena c roots) p := by
  unfold OpticC.linkSiblings
  split
  · exact pure h.drop
  · rename_i hx
    split
    · rename_i hc
      exact pure (h.of_null.open_ (.inr .refl))
    · rename_i hc
      exact ⟨⟨rfl, Nat.le_refl _⟩, h.append hc hx (Owns.sets_next x) fun _ => rfl⟩

/-- What is linked replaces the old link of a root. -/
theorem relinkRoot {f : CAstNode → CAstNode} {u : Link} (hf : Owns.Sets f u x)
    (h : Owns a₀ p.arena chain (x :: d :: roots)) :
    Owns a₀ (p.arena.modify d f) chain (d :: roots) := by
  by_cases hd : d = 0
  · subst hd
    rw [Owns.modify_null]
    exact h.drop
  · have hlist : chain.1 ≠ 0 → ¬Reaches (links a₀.nodeAllocated p.arena) chain.1 d := fun hc =>
      ((h.drop.close).apart hc).resolve_right hd
    exact h.link hf (Owns.New.of_root (h.root d (by simp))) (fun hx => (h.apart hx).resolve_right hd)
      hlist

theorem setNextSibling (h : Owns a₀ p.arena chain (x :: d :: roots)) :
    Runs a₀ (setNextSibling d x) (fun _ p' => Owns a₀ p'.arena chain (d :: roots)) p :=
  ⟨⟨rfl, Nat.le_refl _⟩, relinkRoot (Owns.sets_next x) h⟩

theorem setFirstChild (h : Owns a₀ p.arena chain (x :: d :: roots)) :
    Runs a₀ (setFirstChild d x) (fun _ p' => Owns a₀ p'.arena chain (d :: roots)) p :=
  ⟨⟨rfl, Nat.le_refl _⟩, relinkRoot (Owns.sets_child x) h⟩

/-- The walk over a chain of new nodes stays below its first one. -/
theorem reaches_lastSibling {a : Arena} (hg : Grown a₀ a) {fuel off last : ℕ}
    (hoff : off = 0 ∨ a₀.nodeAllocated ≤ off) (h : lastSibling a fuel off = some last) :
    Reaches (links a₀.nodeAllocated a) off last := by
  induction fuel generalizing off with
  | zero => cases h
  | succ fuel ih =>
    rw [lastSibling] at h
    split at h
    · cases h
      exact .refl
    · rename_i n hget
      split at h
      · cases h
        exact .refl
      · rename_i hnext
        have hlo : a₀.nodeAllocated ≤ off := hoff.resolve_left (by have := (lt_of_get hget).1; omega)
        have hlink : links a₀.nodeAllocated a off .next = some n.nextSibling :=
          links_eq_some.2 ⟨hlo, n, hget, rfl, hnext⟩
        exact (ih (.inr (hg.inside hlink).1) h).head ⟨.next, hlink⟩

/-- Behind the last sibling of a chain that the root is not above of. -/
theorem setLast {off last fuel : ℕ} (h : Owns a₀ p.arena (0, 0) (x :: roots))
    (hoff : off = 0 ∨ a₀.nodeAllocated ≤ off)
    (hx : x ≠ 0 → ¬Reaches (links a₀.nodeAllocated p.arena) x off)
    (hlast : lastSibling p.arena fuel off = some last) :
    Runs a₀ (OpticC.setNextSibling last x) (fun _ p' => Owns a₀ p'.arena (0, 0) roots) p := by
  have hreach := reaches_lastSibling h.grown hoff hlast
  exact ⟨⟨rfl, Nat.le_refl _⟩, h.link (Owns.sets_next x) (Owns.New.of_reaches h.grown hoff hreach)
    (fun hx0 => h.apart_of_reaches hx0 hreach (hx hx0)) fun hc => absurd rfl hc⟩

/-- The chain behind a root that the walk is on. -/
theorem setLastOfRoot {last fuel : ℕ} (h : Owns a₀ p.arena (0, 0) (x :: d :: roots))
    (hlast : lastSibling p.arena fuel d = some last) :
    Runs a₀ (OpticC.setNextSibling last x) (fun _ p' => Owns a₀ p'.arena (0, 0) (d :: roots)) p := by
  by_cases hd : d = 0
  · subst hd
    have h0 : last = 0 := by
      cases fuel with
      | zero => cases hlast
      | succ fuel =>
        rw [lastSibling] at hlast
        simpa [Arena.get] using hlast.symm
    subst h0
    exact setNextSibling h
  · exact setLast h (Owns.New.of_root (h.root d (by simp)))
      (fun hx => (h.apart hx).resolve_right hd) hlast

theorem appendSibling {fuel : ℕ} (h : Owns a₀ p.arena (0, 0) (x :: d :: roots)) :
    Runs a₀ (appendSibling fuel d x) (fun _ p' => Owns a₀ p'.arena (0, 0) (d :: roots)) p := by
  unfold OpticC.appendSibling
  apply get
  split
  · exact throw h.grown
  · rename_i last hlast
    exact setLastOfRoot h hlast

theorem chainEnd {off : ℕ} (h : Owns a₀ p.arena chain roots) :
    Runs a₀ (chainEnd off) (fun last p' => p' = p ∧
      lastSibling p.arena p.arena.nodeAllocated off = some last) p := by
  unfold OpticC.chainEnd
  apply get
  dsimp only
  split
  · rename_i last hlast
    exact pure ⟨rfl, hlast⟩
  · exact throw h.grown

/-- The end of a list whose last node may be followed by others. -/
theorem chainEndOfList (h : Owns a₀ p.arena chain roots) :
    Runs a₀ (OpticC.chainEnd chain.2)
      (fun last p' => Owns a₀ p'.arena (chain.1, last) roots) p := by
  refine (chainEnd h).mono fun last p' hlast => ?_
  obtain ⟨rfl, hlast⟩ := hlast
  refine ⟨h.grown, h.root, h.distinct, ?_⟩
  by_cases hc : chain.1 = 0
  · exact .inl hc
  · have hpath := h.tail.resolve_left hc
    have hnew := Owns.New.of_reaches h.grown (Owns.New.of_root (h.root _ List.mem_cons_self)) hpath
    exact .inr (hpath.trans (reaches_lastSibling h.grown hnew hlast))

theorem appendAtEnd (h : Owns a₀ p.arena (0, 0) (x :: d :: roots)) :
    Runs a₀ (appendAtEnd d x) (fun _ p' => Owns a₀ p'.arena (0, 0) (d :: roots)) p := by
  refine (chainEnd h).bind fun last p₁ hlast => ?_
  obtain ⟨rfl, hlast⟩ := hlast
  exact setLastOfRoot h hlast

end Runs

end OpticC.NodeForest
