import OpticC.Frontend.Expression
import OpticC.Lib.Grouping

/-! Expression trees over operands and binary operators, the nodes that stand for
one in the arena, and the allocations that put it there. -/

namespace OpticC

open Grouping OpTree

/-- An identifier that is no GNU form, or an integer constant. -/
structure Operand where
  token : Token
  kind : token.kind = .identifier ∨ token.kind = .intConstant
  name : token.kind = .identifier → token.text ≠ "typeof" ∧ token.text ≠ "__typeof__" ∧
    token.text ≠ "__extension__" ∧ "__builtin_".isPrefixOf token.text = false
  nonempty : token.text.utf8ByteSize ≠ 0
  short : token.text.utf8ByteSize + 60 ≤ 2 ^ 32

structure BinaryOperator where
  token : Token
  binary : 0 < (binaryOperator token).1

def BinaryOperator.prec (o : BinaryOperator) : ℕ := (binaryOperator o.token).1
def BinaryOperator.code (o : BinaryOperator) : ℕ := (binaryOperator o.token).2

abbrev ExprTree := OpTree BinaryOperator Operand
abbrev Chain := List (BinaryOperator × Operand)

/-- The nodes below `off` are those of the tree, with each name read by `named`. -/
inductive NodesAt (a : Arena) (named : ℕ → String → Prop) : ℕ → ExprTree → Prop
  | identifier {off : ℕ} {n : CAstNode} {x : Operand} : a.get off = some n → n.kind = 60 →
      x.token.kind = .identifier → named n.data x.token.text → NodesAt a named off (leaf x)
  | intConstant {off : ℕ} {n : CAstNode} {x : Operand} : a.get off = some n → n.kind = 61 →
      x.token.kind = .intConstant → n.data = intConstantValue x.token.text →
      NodesAt a named off (leaf x)
  | binary {off : ℕ} {n w : CAstNode} {o : BinaryOperator} {l r : ExprTree} :
      a.get off = some n → n.kind = 64 → n.data = o.code →
      a.get n.firstChild = some w → w.kind = 0 →
      NodesAt a named w.firstChild l → NodesAt a named w.nextSibling r →
      NodesAt a named off (node o l r)

/-- The nodes and the names below `off` are those of the tree. -/
def ExprAt (a : Arena) : ℕ → ExprTree → Prop := NodesAt a fun name s => a.getString name = some s

theorem not_nodesAt_null (a : Arena) (named : ℕ → String → Prop) (t : ExprTree) :
    ¬NodesAt a named 0 t := by
  intro h
  cases h with
  | identifier hn => simp [Arena.get] at hn
  | intConstant hn => simp [Arena.get] at hn
  | binary hn => simp [Arena.get] at hn

/-- The kinds of the nodes determine the shape of the tree. -/
theorem NodesAt.shape_eq {a : Arena} {P Q : ℕ → String → Prop} {off : ℕ} {t u : ExprTree}
    (ht : NodesAt a P off t) (hu : NodesAt a Q off u) :
    t.map (fun _ => ()) (fun _ => ()) = u.map (fun _ => ()) (fun _ => ()) := by
  induction ht generalizing u with
  | identifier hn hk =>
    cases hu with
    | identifier => rfl
    | intConstant => rfl
    | binary hn' hk' =>
      rw [hn] at hn'
      cases hn'
      omega
  | intConstant hn hk =>
    cases hu with
    | identifier => rfl
    | intConstant => rfl
    | binary hn' hk' =>
      rw [hn] at hn'
      cases hn'
      omega
  | binary hn hk _ hw _ _ _ ihl ihr =>
    cases hu with
    | identifier hn' hk' =>
      rw [hn] at hn'
      cases hn'
      omega
    | intConstant hn' hk' =>
      rw [hn] at hn'
      cases hn'
      omega
    | binary hn' _ _ hw' _ hl hr =>
      rw [hn] at hn'
      cases hn'
      rw [hw] at hw'
      cases hw'
      simp only [OpTree.map, ihl hl, ihr hr]

section Build

/-- `alloc_node` on the arena alone. -/
def Arena.put (a : Arena) (n : CAstNode) : ℕ × Arena := (a.alloc n).getD (0, a)

def Arena.intern (a : Arena) (s : String) : ℕ × Arena := (a.storeString s).getD (0, a)

def buildLeaf (x : Operand) (a : Arena) : ℕ × Arena :=
  if x.token.kind = .identifier then
    let (name, a) := a.intern x.token.text
    a.put ⟨60, true, 0, 0, 0, name⟩
  else a.put ⟨61, true, 0, 0, 0, intConstantValue x.token.text⟩

/-- The allocations of the parser for a tree, in its order. -/
def build : ExprTree → Arena → ℕ × Arena
  | leaf x, a => buildLeaf x a
  | node o l r, a =>
    let (left, a) := build l a
    let (right, a) := build r a
    let (operands, a) := a.put ⟨0, true, 0, left, right, 0⟩
    a.put ⟨64, true, 0, operands, 0, o.code⟩

def Operand.slots (x : Operand) : ℕ :=
  if x.token.kind = .identifier then Arena.slotsNeeded x.token.text.utf8ByteSize else 0

def chainSlots (first : Operand) (rest : Chain) : ℕ :=
  first.slots + (rest.map fun q => q.2.slots).sum

theorem chainSlots_node (o : BinaryOperator) (l r : ExprTree) :
    chainSlots (node o l r).first (node o l r).rest =
      chainSlots l.first l.rest + chainSlots r.first r.rest := by
  simp only [chainSlots, OpTree.first, OpTree.rest, List.map_append, List.map_cons,
    List.sum_append, List.sum_cons]
  omega

/-- The arena has room for the nodes and the names of a chain. -/
structure Room (a : Arena) (first : Operand) (rest : Chain) : Prop where
  nodes : a.nodeAllocated + 3 * rest.length + 1 ≤ a.nodeCapacity
  strings : a.stringAllocated + chainSlots first rest ≤ a.stringCapacity

theorem put_of_lt {a : Arena} (n : CAstNode) (h : a.nodeAllocated < a.nodeCapacity) :
    a.alloc n = some (a.put n) := by
  simp only [Arena.put, Arena.alloc, if_neg (Nat.not_le.2 h), Option.getD_some]

theorem put_of_full {a : Arena} (n : CAstNode) (h : a.nodeCapacity ≤ a.nodeAllocated) :
    a.put n = (0, a) := by
  simp only [Arena.put, Arena.alloc, if_pos h, Option.getD_none]

theorem extends_put (a : Arena) (n : CAstNode) : a.Extends (a.put n).2 := by
  rcases Nat.lt_or_ge a.nodeAllocated a.nodeCapacity with h | h
  · exact Arena.extends_alloc (put_of_lt n h)
  · rw [put_of_full n h]
    exact Arena.Extends.refl a

theorem extends_intern (a : Arena) (s : String) : a.Extends (a.intern s).2 := by
  unfold Arena.intern
  cases h : a.storeString s with
  | none => exact Arena.Extends.refl a
  | some r => exact Arena.extends_storeString h

theorem extends_buildLeaf (x : Operand) (a : Arena) : a.Extends (buildLeaf x a).2 := by
  unfold buildLeaf
  split
  · exact (extends_intern a _).trans (extends_put _ _)
  · exact extends_put a _

theorem extends_build (t : ExprTree) (a : Arena) : a.Extends (build t a).2 := by
  induction t generalizing a with
  | leaf x => exact extends_buildLeaf x a
  | node o l r ihl ihr =>
    exact (((ihl a).trans (ihr _)).trans (extends_put _ _)).trans (extends_put _ _)

@[simp] theorem put_nodeCapacity (a : Arena) (n : CAstNode) :
    (a.put n).2.nodeCapacity = a.nodeCapacity := by
  unfold Arena.put Arena.alloc
  split_ifs <;> rfl

@[simp] theorem put_stringCapacity (a : Arena) (n : CAstNode) :
    (a.put n).2.stringCapacity = a.stringCapacity := by
  unfold Arena.put Arena.alloc
  split_ifs <;> rfl

@[simp] theorem put_stringAllocated (a : Arena) (n : CAstNode) :
    (a.put n).2.stringAllocated = a.stringAllocated := by
  unfold Arena.put Arena.alloc
  split_ifs <;> rfl

theorem put_nodeAllocated {a : Arena} (n : CAstNode) (h : a.nodeAllocated < a.nodeCapacity) :
    (a.put n).2.nodeAllocated = a.nodeAllocated + 1 := by
  simp only [Arena.put, Arena.alloc, if_neg (Nat.not_le.2 h), Option.getD_some]

theorem intern_nodes (a : Arena) (s : String) :
    (a.intern s).2.nodeCapacity = a.nodeCapacity ∧
      (a.intern s).2.nodeAllocated = a.nodeAllocated ∧
      (a.intern s).2.stringCapacity = a.stringCapacity := by
  unfold Arena.intern Arena.storeString
  split_ifs <;> exact ⟨rfl, rfl, rfl⟩

theorem intern_of_fits {a : Arena} {s : String} (hs : s.utf8ByteSize ≠ 0)
    (h : a.stringAllocated + Arena.slotsNeeded s.utf8ByteSize ≤ a.stringCapacity) :
    a.storeString s = some (a.intern s) ∧
      (a.intern s).2.stringAllocated = a.stringAllocated + Arena.slotsNeeded s.utf8ByteSize := by
  simp only [Arena.intern, Arena.storeString, if_neg hs, dif_neg (Nat.not_lt.2 h),
    Option.getD_some, and_self]

theorem intern_of_full {a : Arena} {s : String} (hs : s.utf8ByteSize ≠ 0)
    (h : a.stringCapacity < a.stringAllocated + Arena.slotsNeeded s.utf8ByteSize) :
    a.intern s = (0, a) := by
  simp only [Arena.intern, Arena.storeString, if_neg hs, dif_pos h, Option.getD_none]

theorem buildLeaf_frame (x : Operand) (a : Arena) :
    (buildLeaf x a).2.nodeCapacity = a.nodeCapacity ∧
      (buildLeaf x a).2.stringCapacity = a.stringCapacity := by
  obtain ⟨h1, -, h3⟩ := intern_nodes a x.token.text
  unfold buildLeaf
  split_ifs <;> simp [h1, h3]

theorem build_frame (t : ExprTree) (a : Arena) :
    (build t a).2.nodeCapacity = a.nodeCapacity ∧
      (build t a).2.stringCapacity = a.stringCapacity := by
  induction t generalizing a with
  | leaf x => exact buildLeaf_frame x a
  | node o l r ihl ihr =>
    simp only [build, put_nodeCapacity, put_stringCapacity, ihr, ihl, and_self]

theorem buildLeaf_fit {x : Operand} {a : Arena} (h : a.nodeAllocated < a.nodeCapacity) :
    (buildLeaf x a).2.nodeAllocated = a.nodeAllocated + 1 := by
  obtain ⟨h1, h2, -⟩ := intern_nodes a x.token.text
  unfold buildLeaf
  split_ifs
  · simp only
    rw [put_nodeAllocated _ (by omega), h2]
  · exact put_nodeAllocated _ h

theorem buildLeaf_full {x : Operand} {a : Arena} (h : a.nodeCapacity ≤ a.nodeAllocated) :
    (buildLeaf x a).1 = 0 ∧ (buildLeaf x a).2.nodeAllocated = a.nodeAllocated := by
  obtain ⟨h1, h2, -⟩ := intern_nodes a x.token.text
  unfold buildLeaf
  split_ifs
  · simp only
    rw [put_of_full _ (by omega)]
    exact ⟨rfl, h2⟩
  · rw [put_of_full _ h]
    exact ⟨rfl, rfl⟩

theorem build_fit {t : ExprTree} {a : Arena}
    (h : a.nodeAllocated + 3 * t.rest.length + 1 ≤ a.nodeCapacity) :
    (build t a).2.nodeAllocated = a.nodeAllocated + 3 * t.rest.length + 1 := by
  induction t generalizing a with
  | leaf x => exact buildLeaf_fit h
  | node o l r ihl ihr =>
    simp only [OpTree.rest, List.length_append, List.length_cons] at h ⊢
    have hl := ihl (a := a) (by omega)
    have hcl := (build_frame l a).1
    have hr := ihr (a := (build l a).2) (by omega)
    have hcr := (build_frame r (build l a).2).1
    simp only [build]
    rw [put_nodeAllocated _ (by rw [put_nodeAllocated _ (by omega), put_nodeCapacity]; omega),
      put_nodeAllocated _ (by omega)]
    omega

theorem put_put_full {b : Arena} {m n : CAstNode} (h : b.nodeCapacity ≤ b.nodeAllocated + 1) :
    ((b.put m).2.put n).1 = 0 ∧ b.nodeCapacity ≤ ((b.put m).2.put n).2.nodeAllocated := by
  have hfull : (b.put m).2.nodeCapacity ≤ (b.put m).2.nodeAllocated := by
    rcases Nat.lt_or_ge b.nodeAllocated b.nodeCapacity with hlt | hge
    · rw [put_nodeCapacity, put_nodeAllocated m hlt]
      exact h
    · rw [put_of_full m hge]
      exact hge
  rw [put_of_full n hfull]
  rw [put_nodeCapacity] at hfull
  exact ⟨rfl, hfull⟩

/-- Without room for all its nodes a tree has no root. -/
theorem build_full {t : ExprTree} {a : Arena}
    (h : a.nodeCapacity < a.nodeAllocated + 3 * t.rest.length + 1) :
    (build t a).1 = 0 ∧ a.nodeCapacity ≤ (build t a).2.nodeAllocated := by
  induction t generalizing a with
  | leaf x =>
    have := buildLeaf_full (x := x) (a := a) (Nat.le_of_lt_succ h)
    exact ⟨this.1, by rw [build, this.2]; exact Nat.le_of_lt_succ h⟩
  | node o l r ihl ihr =>
    simp only [OpTree.rest, List.length_append, List.length_cons] at h
    have hcl := (build_frame l a).1
    have hcr := (build_frame r (build l a).2).1
    have hmono := (extends_build r (build l a).2).allocated
    have hfull : a.nodeCapacity ≤ (build r (build l a).2).2.nodeAllocated + 1 := by
      rcases Nat.lt_or_ge a.nodeCapacity (a.nodeAllocated + 3 * l.rest.length + 1) with hlt | hge
      · have := (ihl hlt).2
        omega
      · have hl := build_fit hge
        rcases Nat.lt_or_ge (build l a).2.nodeCapacity
          ((build l a).2.nodeAllocated + 3 * r.rest.length + 1) with hlt | hge
        · have := (ihr hlt).2
          omega
        · have := build_fit hge
          omega
    rw [← hcl, ← hcr] at hfull ⊢
    exact put_put_full hfull

/-- The nodes the built tree is made of, in any later arena. -/
theorem build_get {o : BinaryOperator} {l r : ExprTree} {a b : Arena}
    (h : a.nodeAllocated + 3 * (node o l r).rest.length + 1 ≤ a.nodeCapacity)
    (hext : (build (node o l r) a).2.Extends b) :
    ∃ w, b.get (build (node o l r) a).1 = some ⟨64, true, 0, w, 0, o.code⟩ ∧
      b.get w = some ⟨0, true, 0, (build l a).1, (build r (build l a).2).1, 0⟩ := by
  simp only [OpTree.rest, List.length_append, List.length_cons] at h
  have hcl := (build_frame l a).1
  have hcr := (build_frame r (build l a).2).1
  have hl := build_fit (t := l) (a := a) (by omega)
  have hr := build_fit (t := r) (a := (build l a).2) (by omega)
  let operands : CAstNode := ⟨0, true, 0, (build l a).1, (build r (build l a).2).1, 0⟩
  have hlt : (build r (build l a).2).2.nodeAllocated < (build r (build l a).2).2.nodeCapacity := by
    omega
  have hlt' : ((build r (build l a).2).2.put operands).2.nodeAllocated <
      ((build r (build l a).2).2.put operands).2.nodeCapacity := by
    rw [put_nodeAllocated _ hlt, put_nodeCapacity]
    omega
  exact ⟨_, hext.nodes _ _ (Arena.get_alloc (put_of_lt _ hlt')),
    hext.nodes _ _ ((extends_put _ _).nodes _ _ (Arena.get_alloc (put_of_lt operands hlt)))⟩

theorem buildLeaf_get {x : Operand} {a b : Arena} (h : a.nodeAllocated < a.nodeCapacity)
    (hext : (buildLeaf x a).2.Extends b) :
    b.get (buildLeaf x a).1 = some (if x.token.kind = .identifier then
      ⟨60, true, 0, 0, 0, (a.intern x.token.text).1⟩
      else ⟨61, true, 0, 0, 0, intConstantValue x.token.text⟩) := by
  obtain ⟨h1, h2, -⟩ := intern_nodes a x.token.text
  unfold buildLeaf at hext ⊢
  split_ifs at hext ⊢
  · rw [← h1, ← h2] at h
    exact hext.nodes _ _ (Arena.get_alloc (put_of_lt _ h))
  · exact hext.nodes _ _ (Arena.get_alloc (put_of_lt _ h))

theorem buildLeaf_strings {x : Operand} {a : Arena}
    (h : a.stringAllocated + x.slots ≤ a.stringCapacity) :
    (buildLeaf x a).2.stringAllocated = a.stringAllocated + x.slots := by
  unfold Operand.slots at h ⊢
  unfold buildLeaf
  split_ifs at h ⊢ with hk
  · rw [put_stringAllocated, (intern_of_fits x.nonempty h).2]
  · exact put_stringAllocated _ _

theorem build_strings {t : ExprTree} {a : Arena}
    (h : a.stringAllocated + chainSlots t.first t.rest ≤ a.stringCapacity) :
    (build t a).2.stringAllocated = a.stringAllocated + chainSlots t.first t.rest := by
  induction t generalizing a with
  | leaf x =>
    exact buildLeaf_strings h
  | node o l r ihl ihr =>
    rw [chainSlots_node] at h ⊢
    have hcl := (build_frame l a).2
    have hl := ihl (a := a) (by omega)
    have hr := ihr (a := (build l a).2) (by omega)
    simp only [build, put_stringAllocated]
    omega

/-- The built nodes have the shape of the tree. -/
theorem nodesAt_build {t : ExprTree} {a b : Arena}
    (h : a.nodeAllocated + 3 * t.rest.length + 1 ≤ a.nodeCapacity)
    (hext : (build t a).2.Extends b) : NodesAt b (fun _ _ => True) (build t a).1 t := by
  induction t generalizing a with
  | leaf x =>
    have hget := buildLeaf_get h hext
    split_ifs at hget with hk
    · exact .identifier hget rfl hk trivial
    · exact .intConstant hget rfl (x.kind.resolve_left hk) rfl
  | node o l r ihl ihr =>
    obtain ⟨w, hn, hw⟩ := build_get h hext
    simp only [OpTree.rest, List.length_append, List.length_cons] at h
    have hcl := (build_frame l a).1
    have hl := build_fit (t := l) (a := a) (by omega)
    have hextr := ((extends_put _ _).trans (extends_put _ _)).trans hext
    exact .binary hn rfl rfl hw rfl (ihl (by omega) ((extends_build r _).trans hextr))
      (ihr (by omega) hextr)

/-- Given the nodes, a built tree can be read back when all its names were stored. -/
theorem exprAt_build_iff {t : ExprTree} {a b : Arena}
    (h : a.nodeAllocated + 3 * t.rest.length + 1 ≤ a.nodeCapacity)
    (hext : (build t a).2.Extends b) :
    ExprAt b (build t a).1 t ↔
      a.stringAllocated + chainSlots t.first t.rest ≤ a.stringCapacity := by
  induction t generalizing a with
  | leaf x =>
    have hget : b.get (build (leaf x) a).1 = _ := buildLeaf_get h hext
    rw [show chainSlots (leaf x : ExprTree).first (leaf x : ExprTree).rest = x.slots from rfl]
    unfold Operand.slots
    split_ifs at hget ⊢ with hk
    · constructor
      · intro ht
        cases ht with
        | identifier hn _ _ hname =>
          rw [hget] at hn
          cases hn
          by_contra hfull
          rw [intern_of_full x.nonempty (Nat.not_le.1 hfull)] at hname
          have : x.token.text = "" := by simpa [Arena.getString] using hname.symm
          exact x.nonempty (by rw [this]; rfl)
        | intConstant hn hk' =>
          rw [hget] at hn
          cases hn
          cases hk'
      · intro hfit
        have hholds := Arena.holds_storeString x.nonempty x.short (intern_of_fits x.nonempty hfit).1
        unfold build buildLeaf at hext
        rw [if_pos hk] at hext
        exact .identifier hget rfl hk (Arena.getString_of_holds
          (hext.strings _ _ ((extends_put _ _).strings _ _ hholds)))
    · have hkind := x.kind.resolve_left hk
      exact ⟨fun _ => a.strings_le, fun _ => .intConstant hget rfl hkind rfl⟩
  | node o l r ihl ihr =>
    obtain ⟨w, hn, hw⟩ := build_get h hext
    simp only [OpTree.rest, List.length_append, List.length_cons] at h
    have hcl := build_frame l a
    have hl := build_fit (t := l) (a := a) (by omega)
    have hextr := ((extends_put _ _).trans (extends_put _ _)).trans hext
    have hiffl := ihl (a := a) (by omega) ((extends_build r _).trans hextr)
    have hiffr := ihr (a := (build l a).2) (by omega) hextr
    rw [chainSlots_node]
    constructor
    · intro ht
      cases ht with
      | binary hn' _ _ hw' _ htl htr =>
        rw [hn] at hn'
        cases hn'
        rw [hw] at hw'
        cases hw'
        have hfl := hiffl.1 htl
        have hfr := hiffr.1 htr
        rw [build_strings hfl] at hfr
        omega
    · intro hfit
      have hsl := build_strings (t := l) (a := a) (by omega)
      exact .binary hn rfl rfl hw rfl (hiffl.2 (by omega)) (hiffr.2 (by omega))

end Build

end OpticC
