import OpticC.Arena
import OpticC.Lib.DepthFirst

/-! The provenance of a pointer: the nodes met by a depth-first walk over the links of the arena,
which may have cycles. `dfs_provenance_walk` follows every link; `trace_provenance` follows the
sibling of every node, but the child of an assignment, of a pointer and of the operators `&` and
`*` only. -/

namespace OpticC.Analysis

open DepthFirst

def AST_PTR : ℕ := 7

def AST_IDENT : ℕ := 60

def AST_UNOP : ℕ := 65

def AST_ASSIGN : ℕ := 73

def OP_ADDR : ℕ := 4

def OP_DEREF : ℕ := 5

structure PointerProvenance where
  source : ℕ
  provenance : List ℕ
  isNoalias : Bool
  deriving DecidableEq

section Code

variable (a : Arena)

/-- The visited offsets and the result so far; `fuel` bounds the depth of the recursion. -/
def dfsRecursive : ℕ → ℕ → List ℕ × List ℕ → Option (List ℕ × List ℕ)
  | 0, _, _ => none
  | fuel + 1, node, (visited, result) =>
    if node ∈ visited ∨ node = 0 then some (visited, result)
    else
      match a.get node with
      | none => some (node :: visited, result)
      | some astNode => do
        let (visited, result) ←
          if astNode.firstChild ≠ 0 then
            dfsRecursive fuel astNode.firstChild (node :: visited, result ++ [node])
          else some (node :: visited, result ++ [node])
        if astNode.nextSibling ≠ 0 then dfsRecursive fuel astNode.nextSibling (visited, result)
        else some (visited, result)

def dfsProvenanceWalk (fuel start : ℕ) : Option (List ℕ) :=
  (dfsRecursive a fuel start ([], [])).map Prod.snd

/-- The arms of `trace_provenance` that go on to the child. -/
def followsChild (astNode : CAstNode) : Bool :=
  if astNode.kind = AST_ASSIGN then astNode.firstChild ≠ 0
  else if astNode.kind = AST_PTR then astNode.firstChild ≠ 0
  else if astNode.kind = AST_UNOP then
    if astNode.data = OP_ADDR ∧ astNode.firstChild ≠ 0 then true
    else astNode.data = OP_DEREF ∧ astNode.firstChild ≠ 0
  else false

def traceProvenance : ℕ → ℕ → List ℕ → Option (PointerProvenance × List ℕ)
  | 0, _, _ => none
  | fuel + 1, node, visited =>
    if node ∈ visited then some (⟨node, [], true⟩, visited)
    else
      match a.get node with
      | none => some (⟨node, [], true⟩, node :: visited)
      | some astNode => do
        let (child, visited) ←
          if followsChild astNode then
            (traceProvenance fuel astNode.firstChild (node :: visited)).map (Prod.map (·.provenance) id)
          else some ([], node :: visited)
        let (sibling, visited) ←
          if astNode.nextSibling ≠ 0 then
            (traceProvenance fuel astNode.nextSibling visited).map (Prod.map (·.provenance) id)
          else some ([], visited)
        let provenance := [node] ++ child ++ sibling
        return (⟨node, provenance, provenance.length ≤ 1⟩, visited)

def isNoalias (fuel ptrA ptrB : ℕ) : Option Bool := do
  let (pa, _) ← traceProvenance a fuel ptrA []
  let (pb, _) ← traceProvenance a fuel ptrB []
  return pa.provenance.all (· ∉ pb.provenance) && pa.isNoalias && pb.isNoalias

end Code

section Walks

/-! Both are walks of the library. -/

variable (a : Arena)

def present (offset : ℕ) : List ℕ := if offset ≠ 0 then [offset] else []

/-- The links that `dfs_recursive` follows. -/
def links (offset : ℕ) : Option (List ℕ) :=
  (a.get offset).map fun node => present node.firstChild ++ present node.nextSibling

/-- The links that `trace_provenance` follows. -/
def sources (offset : ℕ) : Option (List ℕ) :=
  (a.get offset).map fun node =>
    (if followsChild node then [node.firstChild] else []) ++ present node.nextSibling

theorem get_zero : a.get 0 = none := if_pos (.inl rfl)

/-- The nodes of an arena are finitely many. -/
theorem mem_range_of_get {offset : ℕ} (h : (a.get offset).isSome) :
    offset ∈ Finset.range a.nodeAllocated := by
  unfold Arena.get at h
  split_ifs at h with hout
  · cases h
  · exact Finset.mem_range.2 (by omega)

section Links

variable (walk : ℕ → List ℕ → Option (List ℕ × List ℕ)) (p : Prop) [Decidable p]

/-- A walk from an offset that may be left out. -/
theorem visitAll_optional (offset : ℕ) (rest visited : List ℕ) :
    visitAll walk ((if p then [offset] else []) ++ rest) visited =
      (if p then walk offset visited else some (visited, [])).bind fun r =>
        (visitAll walk rest r.1).map fun s => (s.1, r.2 ++ s.2) := by
  split_ifs with h
  · exact visitAll_cons walk offset rest visited
  · simp

theorem visitAll_last (offset : ℕ) (visited : List ℕ) :
    visitAll walk (if p then [offset] else []) visited =
      if p then walk offset visited else some (visited, []) := by
  have h := visitAll_optional walk p offset [] visited
  rw [List.append_nil] at h
  simp [h, visitAll]

end Links

theorem dfsRecursive_eq (fuel : ℕ) {node : ℕ} (hnode : node ≠ 0) (visited result : List ℕ) :
    dfsRecursive a fuel node (visited, result) =
      (visit (links a) fuel node visited).map fun r => (r.1, result ++ r.2) := by
  induction fuel generalizing node visited result with
  | zero => rfl
  | succ fuel ih =>
    rw [dfsRecursive, visit]
    by_cases hold : node ∈ visited
    · rw [if_pos (.inl hold), if_pos hold]
      simp
    rw [if_neg (not_or.2 ⟨hold, hnode⟩), if_neg hold]
    cases hget : a.get node with
    | none => simp [links, hget]
    | some astNode =>
      simp only [links, present, hget, Option.map_some, visitAll_optional, visitAll_last]
      by_cases hchild : astNode.firstChild = 0
      · by_cases hnext : astNode.nextSibling = 0
        · simp [hchild, hnext]
        · simp [hchild, hnext, ih hnext, Function.comp_def]
      · cases hvisit : visit (links a) fuel astNode.firstChild (node :: visited) with
        | none => simp [hchild, ih hchild, hvisit]
        | some r =>
          by_cases hnext : astNode.nextSibling = 0
          · simp [hchild, hnext, ih hchild, hvisit]
          · simp [hchild, hnext, ih hchild, ih hnext, hvisit, Function.comp_def]

theorem traceProvenance_eq (fuel node : ℕ) (visited : List ℕ) :
    traceProvenance a fuel node visited = (visit (sources a) fuel node visited).map fun r =>
      (⟨node, r.2, r.2.length ≤ 1⟩, r.1) := by
  induction fuel generalizing node visited with
  | zero => rfl
  | succ fuel ih =>
    rw [traceProvenance, visit]
    by_cases hold : node ∈ visited
    · rw [if_pos hold, if_pos hold]
      simp
    rw [if_neg hold, if_neg hold]
    cases hget : a.get node with
    | none => simp [sources, hget]
    | some astNode =>
      simp only [sources, present, hget, Option.map_some, visitAll_optional, visitAll_last, ih]
      cases hchild : followsChild astNode with
      | false =>
        by_cases hnext : astNode.nextSibling = 0
        · simp [hnext]
        · cases hvisit : visit (sources a) fuel astNode.nextSibling (node :: visited) <;>
            simp [hnext, hvisit]
      | true =>
        cases hvisit : visit (sources a) fuel astNode.firstChild (node :: visited) with
        | none => simp
        | some r =>
          by_cases hnext : astNode.nextSibling = 0
          · simp [hnext]
          · cases hrest : visit (sources a) fuel astNode.nextSibling r.1 <;> simp [hnext, hrest]

end Walks

section ExactWalk

variable (a : Arena)

/-- `y` is the first child or the next sibling of the node `x`. -/
def Link (x y : ℕ) : Prop :=
  ∃ node, a.get x = some node ∧ y ≠ 0 ∧ (y = node.firstChild ∨ y = node.nextSibling)

/-- The nodes that can be reached over links, the start first and each once. -/
structure ExactWalk (start : ℕ) (result : List ℕ) : Prop where
  nodup : result.Nodup
  mem_iff : ∀ x, x ∈ result ↔ Relation.ReflTransGen (Link a) start x ∧ (a.get x).isSome
  start_first : (a.get start).isSome → result.head? = some start

variable {a}

theorem mem_present {offset x : ℕ} : x ∈ present offset ↔ x ≠ 0 ∧ x = offset := by
  unfold present
  split_ifs with h
  · rw [List.mem_singleton]
    exact ⟨fun hx => ⟨hx ▸ h, hx⟩, fun hx => hx.2⟩
  · exact iff_of_false List.not_mem_nil fun hx => h (hx.2 ▸ hx.1)

theorem step_links : Step (links a) = Link a := by
  funext x y
  refine propext ?_
  simp only [Step, links, Option.map_eq_some_iff, Link]
  constructor
  · rintro ⟨_, ⟨node, hnode, rfl⟩, hy⟩
    rw [List.mem_append, mem_present, mem_present] at hy
    exact ⟨node, hnode, by tauto⟩
  · rintro ⟨node, hnode, hy⟩
    refine ⟨_, ⟨node, hnode, rfl⟩, ?_⟩
    rw [List.mem_append, mem_present, mem_present]
    tauto

theorem isSome_links (x : ℕ) : (links a x).isSome = (a.get x).isSome := Option.isSome_map

/-- The first vertex found is the one that the walk starts from. -/
theorem head_visit {next : ℕ → Option (List ℕ)} {fuel v : ℕ} {r : List ℕ × List ℕ}
    (h : visit next fuel v [] = some r) (hv : (next v).isSome) : r.2.head? = some v := by
  obtain ⟨vs, hvs⟩ := Option.isSome_iff_exists.1 hv
  cases fuel with
  | zero => cases h
  | succ fuel =>
    rw [visit, if_neg List.not_mem_nil, hvs] at h
    obtain ⟨rest, -, rfl⟩ := Option.map_eq_some_iff.1 h
    rfl

theorem exactWalk_zero : ExactWalk a 0 [] where
  nodup := List.nodup_nil
  mem_iff := by
    intro x
    refine iff_of_false List.not_mem_nil fun ⟨hpath, hx⟩ => ?_
    rcases Relation.ReflTransGen.cases_head hpath with rfl | ⟨y, ⟨node, hnode, -⟩, -⟩
    · rw [get_zero] at hx
      cases hx
    · rw [get_zero] at hnode
      cases hnode
  start_first := by
    rw [get_zero]
    rintro ⟨⟩

/-- The walk ends, with the nodes that can be reached, each once and the start first. -/
theorem dfsProvenanceWalk_exact (a : Arena) (start : ℕ) :
    ∃ result, (∃ depth, ∀ fuel ≥ depth, dfsProvenanceWalk a fuel start = some result) ∧
      ExactWalk a start result := by
  by_cases hstart : start = 0
  · subst hstart
    refine ⟨[], ⟨1, fun fuel hfuel => ?_⟩, exactWalk_zero⟩
    obtain ⟨fuel, rfl⟩ := Nat.exists_eq_add_of_le' hfuel
    rfl
  have hfinite : ∀ x, (links a x).isSome → x ∈ Finset.range a.nodeAllocated := by
    intro x hx
    rw [isSome_links] at hx
    exact mem_range_of_get a hx
  obtain ⟨r, hr, hexplores⟩ := exists_walk hfinite start
  refine ⟨r.2, ⟨(Finset.range a.nodeAllocated).card + 1, fun fuel hfuel => ?_⟩, ?_⟩
  · rw [dfsProvenanceWalk, dfsRecursive_eq a fuel hstart, hr fuel hfuel]
    rfl
  · refine ⟨hexplores.nodup, fun x => ?_, fun hsome => ?_⟩
    · rw [hexplores.mem_iff, step_links, isSome_links]
    · exact head_visit (hr _ (Nat.lt_succ_self _)) ((isSome_links start).trans hsome)

end ExactWalk

end OpticC.Analysis
