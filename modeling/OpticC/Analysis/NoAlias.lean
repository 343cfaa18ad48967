import OpticC.Analysis.Provenance

/-! The answers of `is_noalias`. Two nodes are told apart by their offsets, and every use of a
variable is a node of its own, so that two uses with nothing behind them do not alias. -/

namespace OpticC.Analysis

open DepthFirst

section Definitions

variable (a : Arena)

/-- `y` is a link of `x` that `trace_provenance` follows. -/
def Source (x y : ℕ) : Prop :=
  ∃ node, a.get x = some node ∧
    ((followsChild node = true ∧ y = node.firstChild) ∨ (y ≠ 0 ∧ y = node.nextSibling))

/-- The node `y` is in the provenance of `x`. -/
def TracesTo (x y : ℕ) : Prop := Relation.ReflTransGen (Source a) x y ∧ (a.get y).isSome

/-- An identifier, whose data is the offset of its name. -/
def Names (x : ℕ) (name : String) : Prop :=
  ∃ node, a.get x = some node ∧ node.kind = AST_IDENT ∧ a.getString node.data = some name

/-- The two nodes can denote the same object. -/
def MayAlias (p q : ℕ) : Prop :=
  p = q ∨ TracesTo a p q ∨ TracesTo a q p ∨
    ∃ x y name, TracesTo a p x ∧ TracesTo a q y ∧ Names a x name ∧ Names a y name

/-- `is_noalias` answers the same for both orders, and not that the nodes do not alias if they
can denote the same object. -/
def SoundFor (p q : ℕ) : Prop :=
  ∃ answer, (∃ depth, ∀ fuel ≥ depth,
      isNoalias a fuel p q = some answer ∧ isNoalias a fuel q p = some answer) ∧
    (MayAlias a p q → answer = false)

/-- No other node follows. -/
def Alone (x : ℕ) : Prop :=
  ∀ node, a.get x = some node → node.nextSibling = x ∨ a.get node.nextSibling = none

/-- Two uses of one variable, with no other node behind either. -/
structure SeparateUses (p q : ℕ) : Prop where
  distinct : p ≠ q
  name : ∃ name, Names a p name ∧ Names a q name
  left : Alone a p
  right : Alone a q

end Definitions

section Provenances

variable {a : Arena} {p q x : ℕ}

theorem step_sources : Step (sources a) = Source a := by
  funext x y
  refine propext ?_
  have hchild (node : CAstNode) :
      y ∈ (if followsChild node then [node.firstChild] else []) ↔
        followsChild node = true ∧ y = node.firstChild := by
    split_ifs with h <;> simp [h]
  simp only [Step, sources, Option.map_eq_some_iff, Source]
  constructor
  · rintro ⟨_, ⟨node, hnode, rfl⟩, hy⟩
    rw [List.mem_append, hchild, mem_present] at hy
    exact ⟨node, hnode, hy⟩
  · rintro ⟨node, hnode, hy⟩
    refine ⟨_, ⟨node, hnode, rfl⟩, ?_⟩
    rw [List.mem_append, hchild, mem_present]
    exact hy

theorem isSome_sources (x : ℕ) : (sources a x).isSome = (a.get x).isSome := Option.isSome_map

/-- The provenance of a node, from some depth on. -/
theorem exists_provenance (a : Arena) (p : ℕ) :
    ∃ provenance visited : List ℕ, provenance.Nodup ∧ (∀ x, x ∈ provenance ↔ TracesTo a p x) ∧
      ∀ fuel > a.nodeAllocated,
        traceProvenance a fuel p [] = some (⟨p, provenance, provenance.length ≤ 1⟩, visited) := by
  have hfinite : ∀ x, (sources a x).isSome → x ∈ Finset.range a.nodeAllocated := by
    intro x hx
    rw [isSome_sources] at hx
    exact mem_range_of_get a hx
  obtain ⟨r, hr, hexplores⟩ := exists_walk hfinite p
  refine ⟨r.2, r.1, hexplores.nodup, fun x => ?_, fun fuel hfuel => ?_⟩
  · rw [hexplores.mem_iff, step_sources, isSome_sources]
    rfl
  · rw [traceProvenance_eq, hr fuel (by rwa [Finset.card_range])]
    rfl

theorem tracesTo_self (hp : (a.get p).isSome) : TracesTo a p p := ⟨.refl, hp⟩

/-- The provenance of a node is the node itself, and no other. -/
def Unsourced (a : Arena) (p : ℕ) : Prop := ∀ x, TracesTo a p x → x = p

theorem length_le_one_iff {provenance : List ℕ} (hp : (a.get p).isSome) (hnodup : provenance.Nodup)
    (hmem : ∀ x, x ∈ provenance ↔ TracesTo a p x) : provenance.length ≤ 1 ↔ Unsourced a p := by
  have hself : p ∈ provenance := (hmem p).2 (tracesTo_self hp)
  constructor
  · intro hle x hx
    obtain ⟨y, rfl⟩ : ∃ y, provenance = [y] :=
      List.length_eq_one_iff.1 (Nat.le_antisymm hle (List.length_pos_of_mem hself))
    rw [List.mem_singleton.1 hself]
    exact List.mem_singleton.1 ((hmem x).2 hx)
  · intro halone
    have hsub : provenance ⊆ [p] := fun x hx => List.mem_singleton.2 (halone x ((hmem x).1 hx))
    exact (hnodup.subperm hsub).length_le

/-- The answer is that of two different nodes without sources. -/
theorem exists_answer (hp : (a.get p).isSome) (hq : (a.get q).isSome) :
    ∃ answer : Bool, (∀ fuel > a.nodeAllocated, isNoalias a fuel p q = some answer) ∧
      (answer = true ↔ p ≠ q ∧ Unsourced a p ∧ Unsourced a q) := by
  obtain ⟨provP, _, hnodupP, hmemP, htraceP⟩ := exists_provenance a p
  obtain ⟨provQ, _, hnodupQ, hmemQ, htraceQ⟩ := exists_provenance a q
  refine ⟨provP.all (· ∉ provQ) && decide (provP.length ≤ 1) && decide (provQ.length ≤ 1),
    fun fuel hfuel => ?_, ?_⟩
  · rw [isNoalias, htraceP fuel hfuel, htraceQ fuel hfuel]
    rfl
  · simp only [Bool.and_eq_true, List.all_eq_true, decide_eq_true_iff,
      length_le_one_iff hp hnodupP hmemP, length_le_one_iff hq hnodupQ hmemQ]
    constructor
    · rintro ⟨⟨hdisjoint, hP⟩, hQ⟩
      refine ⟨?_, hP, hQ⟩
      rintro rfl
      exact hdisjoint p ((hmemP p).2 (tracesTo_self hp)) ((hmemQ p).2 (tracesTo_self hq))
    · rintro ⟨hne, hP, hQ⟩
      refine ⟨⟨fun x hx hx' => hne ?_, hP⟩, hQ⟩
      rw [← hP x ((hmemP x).1 hx), ← hQ x ((hmemQ x).1 hx')]

end Provenances

section Soundness

variable {a : Arena} {p q : ℕ} {name : String}

theorem alone_of_unsourced (h : Unsourced a p) : Alone a p := by
  intro node hnode
  cases hnext : a.get node.nextSibling with
  | none => exact .inr rfl
  | some next =>
    have hsome : node.nextSibling ≠ 0 := by
      intro hzero
      rw [hzero, get_zero] at hnext
      cases hnext
    refine .inl (h _ ⟨.single ⟨node, hnode, .inr ⟨hsome, rfl⟩⟩, ?_⟩)
    rw [hnext]
    rfl

/-- Only the sibling of an identifier is followed. -/
theorem unsourced_of_alone (hname : Names a p name) (h : Alone a p) : Unsourced a p := by
  obtain ⟨node, hnode, hkind, -⟩ := hname
  have hchild : followsChild node = false := by
    simp [followsChild, hkind, AST_IDENT, AST_ASSIGN, AST_PTR, AST_UNOP]
  have hreach : ∀ x, Relation.ReflTransGen (Source a) p x → x = p ∨ a.get x = none := by
    intro x hpath
    induction hpath with
    | refl => exact .inl rfl
    | tail _ hstep ih =>
      obtain ⟨from_, hfrom, hlink⟩ := hstep
      rcases ih with rfl | hnone
      · obtain rfl := Option.some.inj (hnode.symm.trans hfrom)
        rcases hlink with ⟨hfollows, -⟩ | ⟨-, rfl⟩
        · rw [hchild] at hfollows
          cases hfollows
        · exact h node hnode
      · rw [hnone] at hfrom
        cases hfrom
  intro x hx
  rcases hreach x hx.1 with heq | hnone
  · exact heq
  · rw [TracesTo, hnone] at hx
    cases hx.2

/-- Two unsourced nodes that may alias are two uses of one variable. -/
theorem separateUses_of_mayAlias (hne : p ≠ q) (hp : Unsourced a p) (hq : Unsourced a q)
    (h : MayAlias a p q) : SeparateUses a p q := by
  rcases h with heq | htrace | htrace | ⟨x, y, name, hx, hy, hnameX, hnameY⟩
  · exact absurd heq hne
  · exact absurd (hp q htrace).symm hne
  · exact absurd (hq p htrace) hne
  · rw [hp x hx] at hnameX
    rw [hq y hy] at hnameY
    exact ⟨hne, ⟨name, hnameX, hnameY⟩, alone_of_unsourced hp, alone_of_unsourced hq⟩

/-- `is_noalias` is sound but for two separate uses of one variable. -/
theorem soundFor_iff (a : Arena) (p q : ℕ) (hp : (a.get p).isSome) (hq : (a.get q).isSome) :
    SoundFor a p q ↔ ¬ SeparateUses a p q := by
  obtain ⟨answer, hanswer, htrue⟩ := exists_answer hp hq
  obtain ⟨answer', hanswer', htrue'⟩ := exists_answer hq hp
  have hsame : answer' = answer := by
    rw [Bool.eq_iff_iff, htrue, htrue', ne_comm, and_comm (a := Unsourced a q)]
  rw [hsame] at hanswer'
  constructor
  · rintro ⟨answer₁, ⟨depth, hdepth⟩, hfalse⟩ ⟨hne, ⟨name, hnameP, hnameQ⟩, haloneP, haloneQ⟩
    have hfuel := hdepth (max depth (a.nodeAllocated + 1)) (le_max_left _ _)
    have heq : answer₁ = answer := Option.some.inj
      (hfuel.1.symm.trans (hanswer _ (lt_of_lt_of_le (Nat.lt_succ_self _) (le_max_right _ _))))
    have halias : MayAlias a p q :=
      .inr (.inr (.inr ⟨p, q, name, tracesTo_self hp, tracesTo_self hq, hnameP, hnameQ⟩))
    rw [htrue.2 ⟨hne, unsourced_of_alone hnameP haloneP, unsourced_of_alone hnameQ haloneQ⟩] at heq
    rw [heq] at hfalse
    cases hfalse halias
  · intro hseparate
    refine ⟨answer, ⟨a.nodeAllocated + 1, fun fuel hfuel => ⟨hanswer fuel hfuel, hanswer' fuel hfuel⟩⟩,
      fun halias => ?_⟩
    refine Bool.eq_false_iff.2 fun hyes => hseparate ?_
    obtain ⟨hne, hP, hQ⟩ := htrue.1 hyes
    exact separateUses_of_mayAlias hne hP hQ halias

/-- Two identifier nodes with the name `p`. -/
def twoUses : Arena :=
  (do
    let a ← Arena.new 8
    let (name, a) ← a.storeString "p"
    let (_, a) ← a.alloc ⟨AST_IDENT, true, 0, 0, 0, name⟩
    let (_, a) ← a.alloc ⟨AST_IDENT, true, 0, 0, 0, name⟩
    return a).getD (Arena.ofNodes [])

theorem soundFor_sameUse : SoundFor twoUses 1 1 :=
  (soundFor_iff twoUses 1 1 rfl rfl).2 fun h => h.distinct rfl

theorem not_soundFor_twoUses :
    ¬ ∀ (a : Arena) (p q : ℕ), (a.get p).isSome → (a.get q).isSome → SoundFor a p q := by
  intro h
  obtain ⟨answer, ⟨depth, hdepth⟩, hfalse⟩ := h twoUses 1 2 rfl rfl
  have hanswer : isNoalias twoUses (depth + 1) 1 2 = some true := rfl
  have hname (x : ℕ) (hx : twoUses.get x = some ⟨AST_IDENT, true, 0, 0, 0, 9⟩) :
      Names twoUses x "p" := ⟨_, hx, rfl, rfl⟩
  have halias : MayAlias twoUses 1 2 :=
    .inr (.inr (.inr ⟨1, 2, "p", tracesTo_self rfl, tracesTo_self rfl, hname 1 rfl, hname 2 rfl⟩))
  have hsame := hanswer.symm.trans (hdepth (depth + 1) (Nat.le_succ depth)).1
  rw [hfalse halias] at hsame
  cases hsame

end Soundness

end OpticC.Analysis
