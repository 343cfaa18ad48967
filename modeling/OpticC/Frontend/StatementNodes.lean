import OpticC.Frontend.NodeForest
import OpticC.Frontend.ParenthesisedOperands
import OpticC.Frontend.StatementGrammar

/-! The allocations for expressions and statements: an arena that still has room behind them had room
for each of them. -/

namespace OpticC.Statements

open Expressions (Phrase Builds)

section Growth

/-- The slots that the texts take in the string pool, at most. -/
def slots (ts : List Token) : ℕ := (ts.map fun t => Arena.slotsNeeded t.text.utf8ByteSize).sum

@[simp] theorem slots_nil : slots [] = 0 := rfl

@[simp] theorem slots_cons (t : Token) (ts : List Token) :
    slots (t :: ts) = Arena.slotsNeeded t.text.utf8ByteSize + slots ts := rfl

@[simp] theorem slots_append (ts us : List Token) : slots (ts ++ us) = slots ts + slots us := by
  simp [slots]

/-- What the arena has allocated grows by at most `k` nodes and `m` slots, and its capacity is the
same. -/
structure Grows (k m : ℕ) (a b : Arena) : Prop where
  nodeCapacity : b.nodeCapacity = a.nodeCapacity
  stringCapacity : b.stringCapacity = a.stringCapacity
  nodeAllocated : a.nodeAllocated ≤ b.nodeAllocated
  nodes_le : b.nodeAllocated ≤ a.nodeAllocated + k
  stringAllocated : a.stringAllocated ≤ b.stringAllocated
  strings_le : b.stringAllocated ≤ a.stringAllocated + m

variable {k m k' m' : ℕ} {a b c : Arena}

theorem Grows.refl (a : Arena) : Grows 0 0 a a :=
  ⟨rfl, rfl, Nat.le_refl _, Nat.le_refl _, Nat.le_refl _, Nat.le_refl _⟩

theorem Grows.trans (h : Grows k m a b) (h' : Grows k' m' b c) : Grows (k + k') (m + m') a c := by
  obtain ⟨h₁, h₂, h₃, h₄, h₅, h₆⟩ := h
  obtain ⟨h₁', h₂', h₃', h₄', h₅', h₆'⟩ := h'
  exact ⟨h₁'.trans h₁, h₂'.trans h₂, by omega, by omega, by omega, by omega⟩

theorem Grows.mono (h : Grows k m a b) (hk : k ≤ k') (hm : m ≤ m') : Grows k' m' a b :=
  ⟨h.nodeCapacity, h.stringCapacity, h.nodeAllocated,
    Nat.le_trans h.nodes_le (Nat.add_le_add_left hk _), h.stringAllocated,
    Nat.le_trans h.strings_le (Nat.add_le_add_left hm _)⟩

theorem grows_put (a : Arena) (n : CAstNode) : Grows 1 0 a (a.put n).2 := by
  refine ⟨put_nodeCapacity a n, put_stringCapacity a n, (extends_put a n).allocated, ?_,
    Nat.le_of_eq (put_stringAllocated a n).symm, Nat.le_of_eq (put_stringAllocated a n)⟩
  by_cases hlt : a.nodeAllocated < a.nodeCapacity
  · exact Nat.le_of_eq (put_nodeAllocated n hlt)
  · rw [put_of_full n (Nat.le_of_not_lt hlt)]
    exact Nat.le_succ _

theorem grows_intern (a : Arena) (s : String) :
    Grows 0 (Arena.slotsNeeded s.utf8ByteSize) a (a.intern s).2 := by
  obtain ⟨hcapacity, hallocated, hstrings⟩ := intern_nodes a s
  have hpool : a.stringAllocated ≤ (a.intern s).2.stringAllocated ∧
      (a.intern s).2.stringAllocated ≤ a.stringAllocated + Arena.slotsNeeded s.utf8ByteSize := by
    unfold Arena.intern Arena.storeString
    split_ifs
    · exact ⟨Nat.le_refl _, Nat.le_add_right _ _⟩
    · exact ⟨Nat.le_refl _, Nat.le_add_right _ _⟩
    · exact ⟨Nat.le_add_right _ _, Nat.le_refl _⟩
  exact ⟨hcapacity, hstrings, Nat.le_of_eq hallocated.symm, Nat.le_of_eq hallocated, hpool.1,
    hpool.2⟩

theorem grows_setNextSibling (a : Arena) (offset next : ℕ) :
    Grows 0 0 a (a.setNextSibling offset next) := by
  unfold Arena.setNextSibling Arena.modify
  split_ifs
  · exact Grows.refl a
  · exact ⟨rfl, rfl, Nat.le_refl _, Nat.le_refl _, Nat.le_refl _, Nat.le_refl _⟩

theorem grows_link (a : Arena) (chain : ℕ × ℕ) (node : ℕ) : Grows 0 0 a (a.link chain node).2 := by
  unfold Arena.link
  split_ifs
  · exact Grows.refl a
  · exact Grows.refl a
  · exact grows_setNextSibling _ _ _

theorem grows_attach (a : Arena) (callee args : ℕ) : Grows 0 0 a (a.attach callee args) := by
  unfold Arena.attach
  split_ifs
  · exact grows_setNextSibling _ _ _
  · exact Grows.refl a

theorem grows_buildToken (t : Token) (a : Arena) : Grows 2 (slots [t]) a (buildToken t a).2 := by
  unfold buildToken
  split_ifs
  · exact ((grows_intern a _).trans (grows_put _ _)).mono (by omega) (by simp)
  · exact (grows_put a _).mono (by omega) (Nat.zero_le _)

/-- The equation of an allocation whose result has a name. -/
theorem grows_of_put {n : CAstNode} {w : ℕ} (h : a.put n = (w, b)) : Grows 1 0 a b := by
  have hgrows := grows_put a n
  rwa [h] at hgrows

theorem grows_of_intern {s : String} {w : ℕ} (h : a.intern s = (w, b)) :
    Grows 0 (Arena.slotsNeeded s.utf8ByteSize) a b := by
  have hgrows := grows_intern a s
  rwa [h] at hgrows

theorem grows_of_link {chain chain' : ℕ × ℕ} {node : ℕ} (h : a.link chain node = (chain', b)) :
    Grows 0 0 a b := by
  have hgrows := grows_link a chain node
  rwa [h] at hgrows

end Growth

section Room

/-- There is a node left, and room for any of the labels. -/
structure Room (a : Arena) (labels : List String) : Prop where
  nodes : a.nodeAllocated < a.nodeCapacity
  strings : ∀ l ∈ labels,
    a.stringAllocated + Arena.slotsNeeded l.utf8ByteSize ≤ a.stringCapacity

variable {a b : Arena} {k m : ℕ} {labels labels' : List String}

/-- An arena with room had room before. -/
theorem Grows.room (h : Grows k m a b) (hroom : Room b labels) : Room a labels := by
  have hnodes := hroom.nodes
  rw [h.nodeCapacity] at hnodes
  refine ⟨Nat.lt_of_le_of_lt h.nodeAllocated hnodes, fun l hl => ?_⟩
  have hstrings := hroom.strings l hl
  rw [h.stringCapacity] at hstrings
  exact Nat.le_trans (Nat.add_le_add_right h.stringAllocated _) hstrings

theorem Room.subset (h : Room a labels) (hsub : labels' ⊆ labels) : Room a labels' :=
  ⟨h.nodes, fun l hl => h.strings l (hsub hl)⟩

/-- An allocation behind which there is still room. -/
structure Allocates (a : Arena) (n : CAstNode) (off : ℕ) (b : Arena) : Prop where
  extends_ : a.Extends b
  off_eq : off = a.nodeAllocated
  get : b.get off = some n
  allocated : b.nodeAllocated = a.nodeAllocated + 1

theorem allocates_put {n : CAstNode} (hroom : Room (a.put n).2 labels) :
    Allocates a n (a.put n).1 (a.put n).2 := by
  have hlt := ((grows_put a n).room hroom).nodes
  exact ⟨extends_put a n, NodeForest.Owns.put_fst n hlt, Arena.get_alloc (put_of_lt n hlt),
    put_nodeAllocated n hlt⟩

theorem allocates_of_put {n : CAstNode} {w : ℕ} (h : a.put n = (w, b)) (hroom : Room b labels) :
    Allocates a n w b := by
  have hput := @allocates_put a labels n
  rw [h] at hput
  exact hput hroom

/-- The new node stands behind those of an earlier arena. -/
theorem Allocates.le {n : CAstNode} {w : ℕ} {a₀ : Arena} (h : Allocates a n w b)
    (hext : a₀.Extends a) : a₀.nodeAllocated ≤ w := by
  rw [h.off_eq]
  exact hext.allocated

theorem Allocates.ne_zero {n : CAstNode} {w : ℕ} (h : Allocates a n w b) : w ≠ 0 := by
  rw [h.off_eq]
  exact Nat.pos_iff_ne_zero.1 a.nodeAllocated_pos

/-- A label that is stored is at its offset. -/
theorem getString_intern {s : String} (hne : s ≠ "") (hshort : s.utf8ByteSize + 60 ≤ 2 ^ 32)
    (hroom : Room (a.intern s).2 (s :: labels)) :
    (a.intern s).1 ≠ 0 ∧ (a.intern s).2.Holds (a.intern s).1 s := by
  have hsize : s.utf8ByteSize ≠ 0 := by
    intro h
    exact hne (String.utf8ByteSize_eq_zero_iff.1 h)
  have hfits := ((grows_intern a s).room hroom).strings s (List.mem_cons_self ..)
  have hholds := Arena.holds_storeString hsize hshort (intern_of_fits hsize hfits).1
  exact ⟨Nat.pos_iff_ne_zero.1 hholds.pos, hholds⟩

end Room

section Roots

variable {T : String → Bool}

/-- The node of an expression. -/
def IsRoot (a : Arena) (n : ℕ) : Prop := ∃ node, a.get n = some node ∧ isExprKind node.kind = true

theorem isRoot_put {a b : Arena} {n : CAstNode} {w : ℕ} {labels : List String}
    (h : a.put n = (w, b)) (hroom : Room b labels) (hkind : isExprKind n.kind = true) :
    IsRoot b w := by
  obtain rfl : (a.put n).1 = w := by rw [h]
  obtain rfl : (a.put n).2 = b := by rw [h]
  exact ⟨n, (allocates_put hroom).get, hkind⟩

/-- The allocations for the tokens, which lead from `a` to `a'` and leave an expression at `n`. -/
structure Built (ts : List Token) (a : Arena) (n : ℕ) (a' : Arena) : Prop where
  grows : Grows (2 * ts.length) (slots ts) a a'
  root : ∀ labels, Room a' labels → IsRoot a' n

/-- The same behind an operand at `n`. -/
structure BuiltOn (ts : List Token) (n : ℕ) (a : Arena) (n' : ℕ) (a' : Arena) : Prop where
  grows : Grows (2 * ts.length) (slots ts) a a'
  root : ∀ labels, Room a' labels → IsRoot a n → IsRoot a' n'

variable {ts us : List Token} {k m : ℕ}

theorem built_put {a b : Arena} (h : Grows k m a b) (n : CAstNode) (hkind : isExprKind n.kind = true)
    (hk : k + 1 ≤ 2 * ts.length) (hm : m ≤ slots ts) : Built ts a (b.put n).1 (b.put n).2 :=
  ⟨(h.trans (grows_put b n)).mono hk hm, fun _ hroom => isRoot_put rfl hroom hkind⟩

theorem built_buildToken (t : Token) (a : Arena) :
    Built [t] a (buildToken t a).1 (buildToken t a).2 := by
  refine ⟨grows_buildToken t a, fun labels hroom => ?_⟩
  unfold buildToken at hroom ⊢
  split_ifs at hroom ⊢
  · exact isRoot_put rfl hroom rfl
  · exact isRoot_put rfl hroom rfl

/-- A postfix operator behind the operand. -/
theorem BuiltOn.step {n w n' : ℕ} {a b c a' : Arena} {node : CAstNode} (hgrows : Grows k m a b)
    (hput : b.put node = (w, c)) (hkind : isExprKind node.kind = true) (h : BuiltOn us w c n' a')
    (hk : k + 1 + 2 * us.length ≤ 2 * ts.length) (hm : m + slots us ≤ slots ts) :
    BuiltOn ts n a n' a' :=
  ⟨((hgrows.trans (grows_of_put hput)).trans h.grows).mono hk hm, fun labels hroom _ =>
    h.root labels hroom (isRoot_put hput (h.grows.room hroom) hkind)⟩

theorem Built.mono {a a' : Arena} {n : ℕ} (h : Built ts a n a') (hlen : ts.length ≤ us.length)
    (hslots : slots ts ≤ slots us) : Built us a n a' :=
  ⟨h.grows.mono (Nat.mul_le_mul_left 2 hlen) hslots, h.root⟩

/-- The tokens of an operand and of the operators behind it. -/
def chainTokens (e : Phrase T .unary) (ops : List (BinaryOperator × Phrase T .unary)) : List Token :=
  e.tokens ++ Expressions.spell ops

theorem chainTokens_operationList (e : Phrase T .unary) (rest : Phrase T .operations) :
    chainTokens e rest.operationList = e.tokens ++ rest.tokens := by
  rw [chainTokens, (Expressions.Phrase.tokens_operations rest rfl).1]

theorem built_builds {l : Expressions.Level} {e : Phrase T l} {a a' : Arena} {n : ℕ}
    (h : Builds e a n a') : Built e.tokens a n a' := by
  refine @Builds.rec T (fun e a n a' _ => Built e.tokens a n a')
    (fun e n a n' a' _ => BuiltOn e.tokens n a n' a')
    (fun e ops a n a' _ => Built (chainTokens e ops) a n a')
    (fun e _ a _ a' _ => Grows (2 * e.tokens.length + 1) (slots e.tokens) a a')
    ?atom ?parens ?suffixed ?prefixed ?binary ?choice ?single ?assign ?whole ?comma
    ?noSuffix ?index ?callEmpty ?call ?dot ?arrow ?increment ?decrement ?leaf ?node
    ?lastArgument ?argument l e a n a' h
  case atom =>
    intro x a
    exact built_buildToken x.token a
  case parens =>
    intro _ _ _ _ _ _ _ h
    exact h.mono (by simp; omega) (by simp; omega)
  case suffixed =>
    intro _ _ _ _ _ _ _ _ _ h hs
    exact ⟨(h.grows.trans hs.grows).mono (by simp; omega) (by simp), fun labels hroom =>
      hs.root labels hroom (h.root labels (hs.grows.room hroom))⟩
  case prefixed =>
    intro _ _ _ _ _ _ h
    exact built_put h.grows _ rfl (by simp only [Phrase.tokens, List.length_cons]; omega) (by simp)
  case binary =>
    intro _ _ _ _ _ _ h
    rw [chainTokens_operationList] at h
    exact h
  case choice =>
    intro _ _ _ _ _ _ _ _ _ _ _ _ _ _ _ _ _ _ hput hc ht he
    rw [chainTokens_operationList] at hc
    exact built_put (((hc.grows.trans ht.grows).trans he.grows).trans (grows_of_put hput)) _ rfl
      (by simp; omega) (by simp; omega)
  case single =>
    intro _ _ _ _ _ h
    exact h
  case assign =>
    intro _ _ _ _ _ _ _ _ _ _ hl hr
    exact built_put (hl.grows.trans hr.grows) _ rfl (by simp; omega) (by simp)
  case whole =>
    intro _ _ _ _ _ h
    exact h
  case comma =>
    intro _ _ _ _ _ _ _ _ _ _ hl hr
    exact built_put (hl.grows.trans hr.grows) _ rfl (by simp; omega) (by simp)
  case noSuffix =>
    intro n a
    exact ⟨Grows.refl a, fun _ _ hn => hn⟩
  case index =>
    intro _ _ _ _ _ _ _ _ _ _ _ _ _ hput _ h hrest
    exact BuiltOn.step h.grows hput rfl hrest (by simp; omega) (by simp; omega)
  case callEmpty =>
    intro _ _ _ _ _ _ _ _ _ hput _ hrest
    exact BuiltOn.step (Grows.refl _) hput rfl hrest (by simp; omega) (by simp; omega)
  case call =>
    intro _ _ _ _ _ _ _ _ _ _ _ _ _ hput _ hargs hrest
    exact BuiltOn.step (hargs.trans (grows_attach _ _ _)) hput rfl hrest (by simp; omega)
      (by simp; omega)
  case dot =>
    intro _ _ _ _ _ _ _ _ _ _ _ hintern hput _ hrest
    exact BuiltOn.step (grows_of_intern hintern) hput rfl hrest (by simp; omega) (by simp)
  case arrow =>
    intro _ _ _ _ _ _ _ _ _ _ _ hintern hput _ hrest
    exact BuiltOn.step (grows_of_intern hintern) hput rfl hrest (by simp; omega) (by simp)
  case increment =>
    intro _ _ _ _ _ _ _ _ hput _ hrest
    exact BuiltOn.step (Grows.refl _) hput rfl hrest (by simp; omega) (by simp)
  case decrement =>
    intro _ _ _ _ _ _ _ _ hput _ hrest
    exact BuiltOn.step (Grows.refl _) hput rfl hrest (by simp; omega) (by simp)
  case leaf =>
    intro _ _ _ _ _ h
    exact h.mono (by simp [chainTokens]) (by simp [chainTokens])
  case node =>
    intro _ _ _ _ _ _ _ _ _ _ _ _ _ _ hput hl hr
    exact built_put ((hl.grows.trans hr.grows).trans (grows_of_put hput)) _ rfl
      (by simp [chainTokens, Expressions.spell]; omega)
      (by simp [chainTokens, Expressions.spell]; omega)
  case lastArgument =>
    intro _ _ _ _ _ _ _ _ hput h
    exact (h.grows.trans (grows_of_put hput)).trans (grows_link _ _ _)
  case argument =>
    intro _ _ _ _ _ _ _ _ _ _ _ _ _ _ hput hlink _ h hrest
    exact (((h.grows.trans (grows_of_put hput)).trans (grows_of_link hlink)).trans hrest).mono
      (by simp; omega) (by simp)

end Roots

end OpticC.Statements
