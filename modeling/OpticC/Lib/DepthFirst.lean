import Mathlib.Algebra.Ring.Int.Defs
import Mathlib.Algebra.Ring.Nat
import Mathlib.Data.Finset.Card
import Mathlib.Logic.Relation
import Mathlib.Tactic.Common

/-! Depth-first walks with a set of visited vertices that is passed from call to call. Where a
call returns, the vertices it has added have all their successors visited, which is what makes the
walk complete; a recursion is no deeper than there are vertices. -/

namespace DepthFirst

variable {V : Type*}

/-- A walk from each of the vertices, one after the other. -/
def visitAll (walk : V → List V → Option (List V × List V)) : List V → List V → Option (List V × List V)
  | [], visited => some (visited, [])
  | w :: ws, visited => do
    let (visited, found) ← walk w visited
    let (visited, more) ← visitAll walk ws visited
    return (visited, found ++ more)

/-- The visited vertices and those found, in preorder. Without successors, not even an empty list
of them, a vertex does not exist; it is visited, but not found. -/
def visit [DecidableEq V] (next : V → Option (List V)) : ℕ → V → List V → Option (List V × List V)
  | 0, _, _ => none
  | fuel + 1, v, visited =>
    if v ∈ visited then some (visited, [])
    else
      match next v with
      | none => some (v :: visited, [])
      | some vs => (visitAll (visit next fuel) vs (v :: visited)).map fun r => (r.1, v :: r.2)

/-- `w` is a successor of the vertex `v`. -/
def Step (next : V → Option (List V)) (v w : V) : Prop := ∃ vs, next v = some vs ∧ w ∈ vs

/-- What a walk from the roots does. -/
structure Explores (next : V → Option (List V)) (roots visited visited' found : List V) : Prop where
  grows : visited ⊆ visited'
  covers : roots ⊆ visited'
  done : found ⊆ visited'
  nodup : found.Nodup
  fresh : ∀ x ∈ found, x ∉ visited
  exist : ∀ x ∈ found, (next x).isSome
  reached : ∀ x ∈ found, ∃ r ∈ roots, Relation.ReflTransGen (Step next) r x
  complete : ∀ x ∈ visited', x ∉ visited → (next x).isSome → x ∈ found
  closed : ∀ x ∈ visited', x ∉ visited → ∀ y, Step next x y → y ∈ visited'

section Exploration

variable {next : V → Option (List V)} {v : V} {roots roots' visited visited' visited'' found more : List V}

theorem Explores.nil (visited : List V) : Explores next [] visited visited [] where
  grows := List.Subset.refl _
  covers := List.nil_subset _
  done := List.nil_subset _
  nodup := List.nodup_nil
  fresh := List.forall_mem_nil _
  exist := List.forall_mem_nil _
  reached := List.forall_mem_nil _
  complete := fun _ hold hnew _ => absurd hold hnew
  closed := fun _ hold hnew _ _ => absurd hold hnew

theorem Explores.skip (h : v ∈ visited) : Explores next [v] visited visited [] :=
  { Explores.nil visited with
    covers := List.cons_subset.2 ⟨h, List.nil_subset _⟩
    reached := List.forall_mem_nil _ }

theorem Explores.missing (h : next v = none) : Explores next [v] visited (v :: visited) [] where
  grows := List.subset_cons_self _ _
  covers := List.cons_subset.2 ⟨List.mem_cons_self, List.nil_subset _⟩
  done := List.nil_subset _
  nodup := List.nodup_nil
  fresh := List.forall_mem_nil _
  exist := List.forall_mem_nil _
  reached := List.forall_mem_nil _
  complete := by
    intro x hx hnew hexists
    obtain rfl : x = v := (List.mem_cons.1 hx).resolve_right hnew
    rw [h] at hexists
    cases hexists
  closed := by
    rintro x hx hnew y ⟨ws, hws, -⟩
    obtain rfl : x = v := (List.mem_cons.1 hx).resolve_right hnew
    rw [h] at hws
    cases hws

/-- The walk goes on with other roots. -/
theorem Explores.append (h1 : Explores next roots visited visited' found)
    (h2 : Explores next roots' visited' visited'' more) :
    Explores next (roots ++ roots') visited visited'' (found ++ more) where
  grows := List.Subset.trans h1.grows h2.grows
  covers := List.append_subset.2 ⟨List.Subset.trans h1.covers h2.grows, h2.covers⟩
  done := List.append_subset.2 ⟨List.Subset.trans h1.done h2.grows, h2.done⟩
  nodup := by
    refine List.nodup_append'.2 ⟨h1.nodup, h2.nodup, fun x hx hmore => ?_⟩
    exact h2.fresh x hmore (h1.done hx)
  fresh := by
    intro x hx
    rcases List.mem_append.1 hx with hx | hx
    · exact h1.fresh x hx
    · exact fun hold => h2.fresh x hx (h1.grows hold)
  exist := List.forall_mem_append.2 ⟨h1.exist, h2.exist⟩
  reached := by
    intro x hx
    rcases List.mem_append.1 hx with hx | hx
    · obtain ⟨r, hr, hpath⟩ := h1.reached x hx
      exact ⟨r, List.mem_append_left _ hr, hpath⟩
    · obtain ⟨r, hr, hpath⟩ := h2.reached x hx
      exact ⟨r, List.mem_append_right _ hr, hpath⟩
  complete := by
    intro x hx hnew hexists
    by_cases hfirst : x ∈ visited'
    · exact List.mem_append_left _ (h1.complete x hfirst hnew hexists)
    · exact List.mem_append_right _ (h2.complete x hx hfirst hexists)
  closed := by
    intro x hx hnew y hstep
    by_cases hfirst : x ∈ visited'
    · exact h2.grows (h1.closed x hfirst hnew y hstep)
    · exact h2.closed x hx hfirst y hstep

/-- A vertex is found before what the walk from its successors finds. -/
theorem Explores.cons {vs : List V} (hv : next v = some vs) (hnew : v ∉ visited)
    (h : Explores next vs (v :: visited) visited' found) :
    Explores next [v] visited visited' (v :: found) where
  grows := List.Subset.trans (List.subset_cons_self _ _) h.grows
  covers := List.cons_subset.2 ⟨h.grows List.mem_cons_self, List.nil_subset _⟩
  done := List.cons_subset.2 ⟨h.grows List.mem_cons_self, h.done⟩
  nodup := List.nodup_cons.2 ⟨fun hv => h.fresh v hv List.mem_cons_self, h.nodup⟩
  fresh := List.forall_mem_cons.2 ⟨hnew, fun x hx hold => h.fresh x hx (List.mem_cons_of_mem _ hold)⟩
  exist := List.forall_mem_cons.2 ⟨by rw [hv]; rfl, h.exist⟩
  reached := by
    refine List.forall_mem_cons.2 ⟨⟨v, List.mem_singleton_self v, .refl⟩, fun x hx => ?_⟩
    obtain ⟨r, hr, hpath⟩ := h.reached x hx
    exact ⟨v, List.mem_singleton_self v, .head ⟨vs, hv, hr⟩ hpath⟩
  complete := by
    intro x hx hfresh hexists
    by_cases hxv : x = v
    · exact hxv ▸ List.mem_cons_self
    · exact List.mem_cons_of_mem _ (h.complete x hx (List.not_mem_cons_of_ne_of_not_mem hxv hfresh) hexists)
  closed := by
    intro x hx hfresh y hstep
    by_cases hxv : x = v
    · obtain ⟨ws, hws, hy⟩ := hstep
      rw [hxv, hv] at hws
      cases hws
      exact h.covers hy
    · exact h.closed x hx (List.not_mem_cons_of_ne_of_not_mem hxv hfresh) y hstep

/-- From an empty set of visited vertices on, just the vertices that can be reached are found. -/
theorem Explores.mem_iff (h : Explores next [v] [] visited' found) (x : V) :
    x ∈ found ↔ Relation.ReflTransGen (Step next) v x ∧ (next x).isSome := by
  have hvisited : ∀ y, Relation.ReflTransGen (Step next) v y → y ∈ visited' := by
    intro y hpath
    induction hpath with
    | refl => exact h.covers (List.mem_singleton_self v)
    | tail _ hstep ih => exact h.closed _ ih List.not_mem_nil _ hstep
  constructor
  · intro hx
    obtain ⟨r, hr, hpath⟩ := h.reached x hx
    rw [List.mem_singleton.1 hr] at hpath
    exact ⟨hpath, h.exist x hx⟩
  · exact fun hx => h.complete x (hvisited x hx.1) List.not_mem_nil hx.2

end Exploration

section Walks

variable {walk walk' : V → List V → Option (List V × List V)} {next : V → Option (List V)}

theorem visitAll_cons (walk : V → List V → Option (List V × List V)) (w : V) (ws visited : List V) :
    visitAll walk (w :: ws) visited = (walk w visited).bind fun r =>
      (visitAll walk ws r.1).map fun s => (s.1, r.2 ++ s.2) := by
  simp only [visitAll, Option.map_eq_bind]
  rfl

theorem visitAll_explores (hwalk : ∀ w visited r, walk w visited = some r → Explores next [w] visited r.1 r.2)
    {ws visited : List V} {r : List V × List V} (h : visitAll walk ws visited = some r) :
    Explores next ws visited r.1 r.2 := by
  induction ws generalizing visited r with
  | nil =>
    cases h
    exact .nil visited
  | cons w ws ih =>
    obtain ⟨first, hfirst, h⟩ := Option.bind_eq_some_iff.1 h
    obtain ⟨rest, hrest, hr⟩ := Option.bind_eq_some_iff.1 h
    cases hr
    exact (hwalk w visited first hfirst).append (ih hrest)

theorem visitAll_congr {ws visited : List V} {r : List V × List V}
    (hsame : ∀ w visited r, walk w visited = some r → walk' w visited = some r)
    (h : visitAll walk ws visited = some r) : visitAll walk' ws visited = some r := by
  induction ws generalizing visited r with
  | nil => exact h
  | cons w ws ih =>
    obtain ⟨first, hfirst, h⟩ := Option.bind_eq_some_iff.1 h
    obtain ⟨rest, hrest, hr⟩ := Option.bind_eq_some_iff.1 h
    exact Option.bind_eq_some_iff.2 ⟨first, hsame w visited first hfirst,
      Option.bind_eq_some_iff.2 ⟨rest, ih hrest, hr⟩⟩

theorem visitAll_isSome {ws visited : List V}
    (hgrows : ∀ w visited r, walk w visited = some r → visited ⊆ r.1)
    (hwalk : ∀ w visited', visited ⊆ visited' → (walk w visited').isSome) :
    (visitAll walk ws visited).isSome := by
  induction ws generalizing visited with
  | nil => rfl
  | cons w ws ih =>
    obtain ⟨first, hfirst⟩ := Option.isSome_iff_exists.1 (hwalk w visited (List.Subset.refl _))
    have hmore : (visitAll walk ws first.1).isSome :=
      ih fun w visited' hsub => hwalk w visited' (List.Subset.trans (hgrows _ _ _ hfirst) hsub)
    obtain ⟨rest, hrest⟩ := Option.isSome_iff_exists.1 hmore
    exact Option.isSome_iff_exists.2 ⟨_, Option.bind_eq_some_iff.2 ⟨first, hfirst,
      Option.bind_eq_some_iff.2 ⟨rest, hrest, rfl⟩⟩⟩

variable [DecidableEq V]

theorem visit_explores {fuel : ℕ} {v : V} {visited : List V} {r : List V × List V}
    (h : visit next fuel v visited = some r) : Explores next [v] visited r.1 r.2 := by
  induction fuel generalizing v visited r with
  | zero => cases h
  | succ fuel ih =>
    rw [visit] at h
    by_cases hold : v ∈ visited
    · rw [if_pos hold] at h
      cases h
      exact .skip hold
    · rw [if_neg hold] at h
      cases hnext : next v with
      | none =>
        rw [hnext] at h
        cases h
        exact .missing hnext
      | some vs =>
        rw [hnext] at h
        obtain ⟨rest, hrest, rfl⟩ := Option.map_eq_some_iff.1 h
        exact .cons hnext hold (visitAll_explores (fun _ _ _ => ih) hrest)

/-- More depth does not change the result. -/
theorem visit_mono {fuel : ℕ} {v : V} {visited : List V} {r : List V × List V}
    (h : visit next fuel v visited = some r) : visit next (fuel + 1) v visited = some r := by
  induction fuel generalizing v visited r with
  | zero => cases h
  | succ fuel ih =>
    rw [visit] at h ⊢
    by_cases hold : v ∈ visited
    · rw [if_pos hold] at h ⊢
      exact h
    · rw [if_neg hold] at h ⊢
      cases hnext : next v with
      | none =>
        rw [hnext] at h
        exact h
      | some vs =>
        rw [hnext] at h
        obtain ⟨rest, hrest, rfl⟩ := Option.map_eq_some_iff.1 h
        exact Option.map_eq_some_iff.2 ⟨rest, visitAll_congr (fun _ _ _ => ih) hrest, rfl⟩

theorem visit_of_le {fuel fuel' : ℕ} {v : V} {visited : List V} {r : List V × List V}
    (hle : fuel ≤ fuel') (h : visit next fuel v visited = some r) :
    visit next fuel' v visited = some r := by
  induction hle with
  | refl => exact h
  | step _ ih => exact visit_mono ih

/-- Every level of the recursion visits one more vertex of a finite graph. -/
theorem visit_isSome {S : Finset V} (hS : ∀ v, (next v).isSome → v ∈ S) {fuel : ℕ} {v : V}
    {visited : List V} (hfuel : (S.filter (· ∉ visited)).card < fuel) :
    (visit next fuel v visited).isSome := by
  induction fuel generalizing v visited with
  | zero => exact absurd hfuel (Nat.not_lt_zero _)
  | succ fuel ih =>
    rw [visit]
    by_cases hold : v ∈ visited
    · rw [if_pos hold]
      rfl
    rw [if_neg hold]
    cases hnext : next v with
    | none => rfl
    | some vs =>
      have hgrows : ∀ w visited r, visit next fuel w visited = some r → visited ⊆ r.1 :=
        fun w visited r h => (visit_explores h).grows
      have hwalk : ∀ w visited', v :: visited ⊆ visited' → (visit next fuel w visited').isSome := by
        intro w visited' hsub
        refine ih (Nat.lt_of_lt_of_le (Finset.card_lt_card ?_) (Nat.le_of_lt_succ hfuel))
        refine (Finset.ssubset_iff_of_subset fun x hx => ?_).2 ⟨v, ?_, ?_⟩
        · rw [Finset.mem_filter] at hx ⊢
          exact ⟨hx.1, fun hin => hx.2 (hsub (List.mem_cons_of_mem _ hin))⟩
        · exact Finset.mem_filter.2 ⟨hS v (by rw [hnext]; rfl), hold⟩
        · exact fun hin => (Finset.mem_filter.1 hin).2 (hsub List.mem_cons_self)
      dsimp only
      rw [Option.isSome_map]
      exact visitAll_isSome hgrows hwalk

/-- The walk over a finite graph has one result, whatever the depth from the number of vertices
on, and finds just what can be reached, once. -/
theorem exists_walk {S : Finset V} (hS : ∀ v, (next v).isSome → v ∈ S) (v : V) :
    ∃ r : List V × List V, (∀ fuel > S.card, visit next fuel v [] = some r) ∧
      Explores next [v] [] r.1 r.2 := by
  have hlt : (S.filter (· ∉ ([] : List V))).card < S.card + 1 :=
    Nat.lt_succ_of_le (Finset.card_filter_le _ _)
  obtain ⟨r, hr⟩ := Option.isSome_iff_exists.1 (visit_isSome hS hlt (v := v))
  exact ⟨r, fun fuel hfuel => visit_of_le hfuel hr, visit_explores hr⟩

end Walks

end DepthFirst
