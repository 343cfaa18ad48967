import OpticC.Frontend.FreshNodes

/-! GNU statement expressions `({ .. })`. Their body has a parsing loop of its own, which knows
declarations and expressions, and links the nodes of the expressions themselves. -/

namespace OpticC.StatementExpr

/-- A round of the loop: the node that is linked, `NULL` if there is none, what its `next_sibling`
was when it was returned, and whether the statement ends at a ";". -/
structure Piece where
  node : ℕ
  own : ℕ
  complete : Bool
  deriving DecidableEq, Repr

/-- `(first_stmt, last_stmt)`, with the rounds so far. -/
structure Body where
  chain : ℕ × ℕ
  pieces : List Piece
  deriving DecidableEq, Repr

section Parsing

def isAtEnd (p : Parser) : Bool := p.currentToken.kind == .eof

def isStorageClassSpecifier (p : Parser) : Bool :=
  let t := p.currentToken
  Parser.isWord t &&
    ["typedef", "extern", "static", "auto", "register", "_Thread_local", "__thread"].contains t.text

def ownSibling (a : Arena) (off : ℕ) : ℕ := ((a.get off).map CAstNode.nextSibling).getD 0

/-- `Err(_) => self.advance()`: the error is dropped with a token, and nothing is linked. -/
def parseOrAdvance (parse : ParserM ℕ) : ParserM ℕ := fun p =>
  match parse p with
  | .ok node p' => .ok node p'
  | .error .outOfFuel p' => .error .outOfFuel p'
  | .error (.parse _) p' => (do advance; return 0 : ParserM ℕ) p'

/-- `parse_declaration` passes the ";" itself. -/
def behindSemicolon (p : Parser) : Bool :=
  (p.tokens[p.current - 1]?).any fun t => Parser.isPunct t ";"

variable (declaration expression : ParserM ℕ)

/-- The loop of `parse_statement_expr`, with the rounds that are left of 10000. -/
def parseStatementExprLoop : ℕ → Body → ParserM Body
  | 0, b => return b
  | n + 1, b => do
    let p ← get
    if isAtEnd p || Parser.isPunct p.currentToken "\x7d" then return b
    else if ← skipPunctuator ";" then
      let empty ← allocNode 48 0 0 0 0
      let chain ← linkSiblings b.chain empty
      parseStatementExprLoop n ⟨chain, b.pieces ++ [⟨empty, 0, true⟩]⟩
    else
      let declares := p.isTypeSpecifier || isStorageClassSpecifier p
      let node ← parseOrAdvance (if declares then declaration else expression)
      let q ← get
      let chain ← linkSiblings b.chain node
      if (← get).current = p.current then advance
      let semicolon ← skipPunctuator ";"
      parseStatementExprLoop n ⟨chain, b.pieces ++
        [⟨node, ownSibling q.arena node, semicolon || declares && behindSemicolon q⟩]⟩

/-- `parse_statement_expr`, with the rounds of its loop. -/
def parseStatementExpr : ParserM (ℕ × Body) := do
  expect "("
  expect "\x7b"
  let b ← parseStatementExprLoop declaration expression 10000 ⟨(0, 0), []⟩
  expect "\x7d"
  expect ")"
  let node ← allocNode 202 0 0 b.chain.1 0
  return (node, b)

end Parsing

section Chains

/-- Each piece is linked to the next one, and the last one to what it was linked to itself. -/
def Linked (a : Arena) : List Piece → Prop
  | [] => True
  | [x] => ∃ n, a.get x.node = some n ∧ n.nextSibling = x.own
  | x :: y :: rest => (∃ n, a.get x.node = some n ∧ n.nextSibling = y.node) ∧ Linked a (y :: rest)

theorem Linked.extends {a a' : Arena} (hext : a.Extends a') {xs : List Piece} (h : Linked a xs) :
    Linked a' xs := by
  induction xs with
  | nil => trivial
  | cons x xs ih =>
    cases xs with
    | nil =>
      obtain ⟨n, hn, hnext⟩ := h
      exact ⟨n, hext.nodes _ _ hn, hnext⟩
    | cons y rest =>
      obtain ⟨⟨n, hn, hnext⟩, hrest⟩ := h
      exact ⟨⟨n, hext.nodes _ _ hn, hnext⟩, ih hrest⟩

theorem get_modify_of_ne {a : Arena} {off off' : ℕ} (f : CAstNode → CAstNode) (hne : off' ≠ off) :
    (a.modify off f).get off' = a.get off' := by
  unfold Arena.modify
  split
  · rfl
  · unfold Arena.get
    simp only [if_neg hne]

theorem get_modify_self {a : Arena} {off : ℕ} {n : CAstNode} (f : CAstNode → CAstNode)
    (h : a.get off = some n) : (a.modify off f).get off = some (f n) := by
  have hin : ¬(off = 0 ∨ off ≥ a.nodeAllocated) := by
    intro hout
    unfold Arena.get at h
    rw [if_pos hout] at h
    cases h
  unfold Arena.get at h
  rw [if_neg hin] at h
  cases h
  unfold Arena.modify
  rw [if_neg hin]
  unfold Arena.get
  simp only [if_neg hin, if_true]

/-- The last piece is linked to a new one. -/
theorem Linked.concat {a : Arena} {xs : List Piece} {last y : Piece}
    (hsorted : (xs ++ [last]).Pairwise fun x y => x.node < y.node) (h : Linked a (xs ++ [last]))
    (hy : ∃ n, a.get y.node = some n ∧ n.nextSibling = y.own) (hlt : last.node < y.node) :
    Linked (a.modify last.node fun n => { n with nextSibling := y.node }) (xs ++ [last, y]) := by
  induction xs with
  | nil =>
    obtain ⟨n, hn, -⟩ := h
    refine ⟨⟨_, get_modify_self _ hn, rfl⟩, ?_⟩
    obtain ⟨m, hm, hown⟩ := hy
    exact ⟨m, by rw [get_modify_of_ne _ (by omega)]; exact hm, hown⟩
  | cons x xs ih =>
    rw [List.cons_append, List.pairwise_cons] at hsorted
    have hlast : x.node < last.node := hsorted.1 last (by simp)
    have hx : ∀ {next : ℕ}, (∃ n, a.get x.node = some n ∧ n.nextSibling = next) →
        ∃ n, (a.modify last.node fun n => { n with nextSibling := y.node }).get x.node = some n ∧
          n.nextSibling = next := by
      rintro next ⟨n, hn, hnext⟩
      exact ⟨n, by rw [get_modify_of_ne _ (by omega)]; exact hn, hnext⟩
    cases xs with
    | nil =>
      obtain ⟨hfirst, hrest⟩ := h
      exact ⟨hx hfirst, ih hsorted.2 hrest⟩
    | cons z xs =>
      obtain ⟨hfirst, hrest⟩ := h
      exact ⟨hx hfirst, ih hsorted.2 hrest⟩

end Chains

section Loop

/-- What holds when the call returns. -/
def Gives {α : Type} (m : ParserM α) (p : Parser) (Q : α → Parser → Prop) : Prop :=
  ∀ r p', m p = .ok r p' → Q r p'

theorem Gives.bind {α β : Type} {m : ParserM α} {f : α → ParserM β} {p : Parser}
    {Q : α → Parser → Prop} {Q' : β → Parser → Prop} (h : Gives m p Q)
    (hf : ∀ r p', Q r p' → Gives (f r) p' Q') : Gives (m >>= f) p Q' := by
  intro r p' hrun
  simp only [Bind.bind, EStateM.bind] at hrun
  cases hm : m p with
  | error e p₁ =>
    rw [hm] at hrun
    cases hrun
  | ok r₁ p₁ =>
    rw [hm] at hrun
    exact hf r₁ p₁ (h r₁ p₁ hm) r p' hrun

theorem Gives.pure {α : Type} {r : α} {p : Parser} {Q : α → Parser → Prop} (h : Q r p) :
    Gives (Pure.pure r) p Q := by
  intro r' p' hrun
  cases hrun
  exact h

theorem Keeps.gives {α : Type} {a₀ : Arena} {m : ParserM α} {p : Parser} {Q : α → Arena → Prop}
    (h : Keeps a₀ m Q p) : Gives m p fun r p' => Left a₀ p p' ∧ Q r p'.arena := by
  intro r p' hrun
  unfold Keeps at h
  rw [hrun] at h
  exact h

/-- The token is looked at and passed, if anything; the arena stays as it is. -/
def SameArena {α : Type} (m : ParserM α) : Prop := ∀ p, Gives m p fun _ p' => p'.arena = p.arena

theorem sameArena_advance : SameArena advance := by
  intro p r p' hrun
  simp only [advance, modify_run] at hrun
  split at hrun <;> cases hrun <;> rfl

theorem sameArena_skipPunctuator (text : String) : SameArena (skipPunctuator text) := by
  intro p
  have hread : Gives (get : ParserM Parser) p fun q p' => q = p ∧ p' = p := by
    intro r p' hrun
    cases hrun
    exact ⟨rfl, rfl⟩
  unfold skipPunctuator
  refine hread.bind fun q p' hq => ?_
  rw [hq.1, hq.2]
  split
  · exact (sameArena_advance p).bind fun _ p' h => Gives.pure h
  · exact Gives.pure rfl

theorem sameArena_expect (text : String) : SameArena (expect text) := by
  intro p r p' hrun
  unfold expect at hrun
  rw [get_bind] at hrun
  split at hrun
  · exact sameArena_advance p r p' hrun
  · cases hrun

theorem keeps_parseOrAdvance {a₀ : Arena} {parse : ParserM ℕ} (h : KeepsNew a₀ parse) :
    KeepsNew a₀ (parseOrAdvance parse) := by
  intro p hp
  have hparse := h p hp
  unfold Keeps parseOrAdvance at *
  cases hrun : parse p with
  | ok node p' =>
    rw [hrun] at hparse
    exact hparse
  | error e p' =>
    rw [hrun] at hparse
    cases e with
    | outOfFuel => exact hparse
    | parse e =>
      have hadvance : Keeps a₀ (do advance; return 0 : ParserM ℕ) (fun r a => New a₀ a r) p' :=
        (Keeps.advance hparse.above).bind fun _ p'' hp'' _ _ => Keeps.pure hp'' (New.null _ _)
      unfold Keeps at hadvance
      simp only
      cases hrest : (do advance; return 0 : ParserM ℕ) p' with
      | ok node p'' =>
        rw [hrest] at hadvance
        exact ⟨⟨hadvance.1.above, Nat.le_trans hparse.grows hadvance.1.grows,
          hadvance.1.tokens.trans hparse.tokens⟩, hadvance.2⟩
      | error e p'' =>
        rw [hrest] at hadvance
        exact ⟨hadvance.above, Nat.le_trans hparse.grows hadvance.grows,
          hadvance.tokens.trans hparse.tokens⟩

/-- The pieces with a node. -/
def linkedPieces (pieces : List Piece) : List Piece := pieces.filter fun x => x.node ≠ 0

/-- What the loop knows of its chain. -/
structure Inv (b : Body) (a : Arena) : Prop where
  first : b.chain.1 = (((linkedPieces b.pieces).head?).map Piece.node).getD 0
  last : b.chain.2 = (((linkedPieces b.pieces).getLast?).map Piece.node).getD 0
  linked : Linked a (linkedPieces b.pieces)
  below : ∀ x ∈ linkedPieces b.pieces, x.node < a.nodeAllocated ∧ x.own < a.nodeAllocated
  sorted : (linkedPieces b.pieces).Pairwise fun x y => x.node < y.node ∧ x.own ≠ y.node

theorem inv_nil (a : Arena) : Inv ⟨(0, 0), []⟩ a := ⟨rfl, rfl, trivial, nofun, List.Pairwise.nil⟩

theorem Inv.extends {b : Body} {a a' : Arena} (h : Inv b a) (hext : a.Extends a') : Inv b a' :=
  ⟨h.first, h.last, h.linked.extends hext, fun x hx =>
    ⟨Nat.lt_of_lt_of_le (h.below x hx).1 hext.allocated,
      Nat.lt_of_lt_of_le (h.below x hx).2 hext.allocated⟩, h.sorted⟩

theorem ownSibling_lt {a₀ a : Arena} (h : Above a₀ a) {node : ℕ} (hnode : New a₀ a node)
    (hne : node ≠ 0) : (∃ n, a.get node = some n ∧ n.nextSibling = ownSibling a node) ∧
      ownSibling a node < a.nodeAllocated ∧ New a₀ a (ownSibling a node) := by
  obtain ⟨hge, hlt⟩ := hnode.resolve_left hne
  have hget : a.get node = some (a.nodes node) := by
    unfold Arena.get
    rw [if_neg (by omega)]
  have hown : ownSibling a node = (a.nodes node).nextSibling := by
    unfold ownSibling
    rw [hget]
    rfl
  have hnew := h.links node _ hge hget
  rw [← hown] at hnew
  refine ⟨⟨_, hget, hown.symm⟩, ?_, hnew⟩
  rcases hnew with hzero | ⟨-, hlt'⟩
  · rw [hzero]
    omega
  · exact hlt'

/-- The step: a node that is new since `a` is linked to the chain. -/
theorem Inv.link {b : Body} {a : Arena} (h : Inv b a) {p : Parser} (habove : Above a p.arena)
    {node : ℕ} (hnew : New a p.arena node) :
    Gives (linkSiblings b.chain node) p fun chain p' =>
      p'.current = p.current ∧ ∀ complete : Bool,
        Inv ⟨chain, b.pieces ++ [⟨node, ownSibling p.arena node, complete⟩]⟩ p'.arena := by
  have hkept := h.extends habove.extends_
  unfold linkSiblings
  split
  · rename_i hzero
    refine Gives.pure ⟨rfl, fun complete => ?_⟩
    have hsame : linkedPieces (b.pieces ++ [⟨node, ownSibling p.arena node, complete⟩]) =
        linkedPieces b.pieces := by
      simp [linkedPieces, hzero]
    constructor
    · rw [hsame]
      exact h.first
    · rw [hsame]
      exact h.last
    · rw [hsame]
      exact hkept.linked
    · rw [hsame]
      exact hkept.below
    · rw [hsame]
      exact h.sorted
  · rename_i hne
    obtain ⟨hge, hlt⟩ := hnew.resolve_left hne
    obtain ⟨hget, hown, -⟩ := ownSibling_lt habove hnew hne
    have hpieces : ∀ complete, linkedPieces
        (b.pieces ++ [⟨node, ownSibling p.arena node, complete⟩]) =
          linkedPieces b.pieces ++ [⟨node, ownSibling p.arena node, complete⟩] := by
      intro complete
      simp [linkedPieces, hne]
    have hbelow : ∀ complete : Bool, ∀ x ∈ linkedPieces b.pieces ++
        [⟨node, ownSibling p.arena node, complete⟩],
          x.node < p.arena.nodeAllocated ∧ x.own < p.arena.nodeAllocated := by
      intro complete x hx
      rcases List.mem_append.1 hx with hx | hx
      · exact hkept.below x hx
      · rw [List.mem_singleton.1 hx]
        exact ⟨hlt, hown⟩
    have hsorted : ∀ complete : Bool, List.Pairwise
        (fun x y : Piece => x.node < y.node ∧ x.own ≠ y.node)
          (linkedPieces b.pieces ++ [⟨node, ownSibling p.arena node, complete⟩]) := by
      intro complete
      rw [List.pairwise_append]
      refine ⟨h.sorted, List.pairwise_singleton _ _, fun x hx y hy => ?_⟩
      rw [List.mem_singleton.1 hy]
      have hx' := h.below x hx
      exact ⟨by simp only; omega, by simp only; omega⟩
    by_cases hempty : linkedPieces b.pieces = []
    · have hzero : b.chain.1 = 0 := by
        rw [h.first, hempty]
        rfl
      rw [if_pos hzero]
      refine Gives.pure ⟨rfl, fun complete => ?_⟩
      have hb := hbelow complete
      have hs := hsorted complete
      rw [← hpieces] at hb hs
      constructor
      · rw [hpieces, hempty]
        rfl
      · rw [hpieces, hempty]
        rfl
      · rw [hpieces, hempty]
        exact hget
      · exact hb
      · exact hs
    · obtain ⟨xs, last, hxs⟩ : ∃ xs last, linkedPieces b.pieces = xs ++ [last] :=
        ⟨_, _, (List.dropLast_append_getLast hempty).symm⟩
      have hmem : last ∈ linkedPieces b.pieces := by
        rw [hxs]
        simp
      have hnz : ∀ x ∈ linkedPieces b.pieces, x.node ≠ 0 := by
        intro x hx
        have := (List.mem_filter.1 hx).2
        simpa using this
      have hfirst : b.chain.1 ≠ 0 := by
        obtain ⟨x, rest, hcons⟩ := List.exists_cons_of_ne_nil hempty
        rw [h.first, hcons]
        exact hnz x (by rw [hcons]; exact List.mem_cons_self)
      have hlast : b.chain.2 = last.node := by
        rw [h.last, hxs, List.getLast?_concat]
        rfl
      rw [if_neg hfirst, hlast]
      intro chain p' hrun
      cases hrun
      refine ⟨rfl, fun complete => ?_⟩
      have hcount : (p.arena.modify last.node fun n => { n with nextSibling := node }).nodeAllocated =
          p.arena.nodeAllocated := by
        unfold Arena.modify
        split <;> rfl
      have hs := hsorted complete
      have hb := hbelow complete
      rw [← hpieces] at hs hb
      constructor
      · rw [hpieces, List.head?_append_of_ne_nil _ hempty]
        exact h.first
      · rw [hpieces, List.getLast?_concat]
        rfl
      · rw [hpieces, hxs, List.append_assoc]
        have hchain := hkept.linked
        have hsorted' := h.sorted
        rw [hxs] at hchain hsorted'
        exact hchain.concat (y := ⟨node, ownSibling p.arena node, complete⟩)
          (hsorted'.imp fun h => h.1) hget (Nat.lt_of_lt_of_le (h.below last hmem).1 hge)
      · intro x hx
        have hx' := hb x hx
        rw [← hcount] at hx'
        exact hx'
      · exact hs

variable {declaration expression : ParserM ℕ}

/-- The node of an empty statement -/
theorem gives_emptyNode (p : Parser) : Gives (allocNode 48 0 0 0 0) p fun empty p' =>
    Above p.arena p'.arena ∧ New p.arena p'.arena empty ∧ ownSibling p'.arena empty = 0 := by
  have halloc : Keeps p.arena (allocNode 48 0 0 0 0) (fun r a => New p.arena a r) p :=
    Keeps.allocNode 48 0 0 0 (Above.refl _) (New.null _ _)
  intro empty p' hrun
  obtain ⟨hleft, hnew⟩ := Keeps.gives halloc empty p' hrun
  refine ⟨hleft.above, hnew, ?_⟩
  rw [allocNode_eq] at hrun
  cases hrun
  rcases Nat.lt_or_ge p.arena.nodeAllocated p.arena.nodeCapacity with hlt | hfull
  · have hget : (p.arena.put ⟨48, true, 0, 0, 0, 0⟩).2.get (p.arena.put ⟨48, true, 0, 0, 0, 0⟩).1 =
        some ⟨48, true, 0, 0, 0, 0⟩ := Arena.get_alloc (put_of_lt _ hlt)
    unfold ownSibling
    rw [hget]
    rfl
  · rw [put_of_full _ hfull]
    rfl

theorem gives_get (p : Parser) : Gives (get : ParserM Parser) p fun q p' => q = p ∧ p' = p := by
  intro q p' hrun
  cases hrun
  exact ⟨rfl, rfl⟩

/-- The chain is known in each round of the loop. -/
theorem inv_parseStatementExprLoop (hdecl : ∀ a₀, KeepsNew a₀ declaration)
    (hexpr : ∀ a₀, KeepsNew a₀ expression) (n : ℕ) {b : Body} {p : Parser} (h : Inv b p.arena) :
    Gives (parseStatementExprLoop declaration expression n b) p fun b' p' => Inv b' p'.arena := by
  induction n generalizing b p with
  | zero => exact Gives.pure h
  | succ n ih =>
    rw [parseStatementExprLoop]
    refine (gives_get p).bind fun q p' hq => ?_
    rw [hq.1, hq.2]
    split
    · exact Gives.pure h
    · refine (sameArena_skipPunctuator ";" p).bind fun semicolon p₁ h₁ => ?_
      rw [← h₁] at h
      split
      · refine (gives_emptyNode p₁).bind fun empty p₂ h₂ => ?_
        refine (h.link h₂.1 h₂.2.1).bind fun chain p₃ h₃ => ?_
        have hinv := h₃.2 true
        rw [h₂.2.2] at hinv
        exact ih hinv
      · have hparse : ∀ a₀, KeepsNew a₀ (parseOrAdvance
            (if p.isTypeSpecifier || isStorageClassSpecifier p then declaration else expression)) := by
          intro a₀
          apply keeps_parseOrAdvance
          split
          · exact hdecl a₀
          · exact hexpr a₀
        refine (Keeps.gives (Q := fun r a => New p₁.arena a r)
          (hparse p₁.arena p₁ (Above.refl _))).bind fun node p₂ h₂ => ?_
        refine (gives_get p₂).bind fun q₂ p₂' hq₂ => ?_
        rw [hq₂.1, hq₂.2]
        refine (h.link h₂.1.above h₂.2).bind fun chain p₃ h₃ => ?_
        -- behind the link no node is touched
        have hrest : ∀ p₄ : Parser, p₄.arena = p₃.arena → Gives (do
            let semicolon ← skipPunctuator ";"
            parseStatementExprLoop declaration expression n ⟨chain, b.pieces ++
              [⟨node, ownSibling p₂.arena node, semicolon ||
                (p.isTypeSpecifier || isStorageClassSpecifier p) && behindSemicolon p₂⟩]⟩) p₄
                  fun b' p' => Inv b' p'.arena := by
          intro p₄ h₄
          refine (sameArena_skipPunctuator ";" p₄).bind fun semicolon p₅ h₅ => ?_
          apply ih
          rw [h₅, h₄]
          exact h₃.2 _
        refine (gives_get p₃).bind fun q₃ p₃' hq₃ => ?_
        rw [hq₃.1, hq₃.2]
        split
        · exact (sameArena_advance p₃).bind fun _ p₄ h₄ => hrest p₄ h₄
        · exact hrest p₃ rfl

/-- What is known of a statement expression that has been parsed. -/
theorem gives_parseStatementExpr (hdecl : ∀ a₀, KeepsNew a₀ declaration)
    (hexpr : ∀ a₀, KeepsNew a₀ expression) (p : Parser) :
    Gives (parseStatementExpr declaration expression) p fun r p' => Inv r.2 p'.arena ∧
      (r.1 ≠ 0 → p'.arena.get r.1 = some ⟨202, true, 0, r.2.chain.1, 0, 0⟩) := by
  unfold parseStatementExpr
  refine (sameArena_expect _ p).bind fun _ p₁ h₁ => ?_
  refine (sameArena_expect _ p₁).bind fun _ p₂ h₂ => ?_
  refine (inv_parseStatementExprLoop hdecl hexpr 10000 (inv_nil p₂.arena)).bind fun b p₃ h₃ => ?_
  refine (sameArena_expect _ p₃).bind fun _ p₄ h₄ => ?_
  refine (sameArena_expect _ p₄).bind fun _ p₅ h₅ => ?_
  have hinv : Inv b p₅.arena := by
    rw [h₅, h₄]
    exact h₃
  intro r p' hrun
  rw [bind_ok (allocNode_eq 202 0 0 b.chain.1 0 p₅)] at hrun
  cases hrun
  refine ⟨hinv.extends (extends_put _ _), fun hne => ?_⟩
  rcases Nat.lt_or_ge p₅.arena.nodeAllocated p₅.arena.nodeCapacity with hlt | hfull
  · exact Arena.get_alloc (put_of_lt _ hlt)
  · refine absurd ?_ hne
    rw [put_of_full _ hfull]

end Loop

section ControlStatements

/-- The keywords at which a control statement starts -/
def statementKeywords : List String :=
  ["if", "else", "while", "do", "for", "switch", "case", "default", "break", "continue", "goto",
    "return"]

/-- No expression starts at such a keyword, and no error is raised: `NULL` is returned. -/
theorem parseExpression_keyword (G : Productions) (n : ℕ) {p : Parser}
    (hkind : p.currentToken.kind = .keyword) (htext : p.currentToken.text ∈ statementKeywords) :
    parseExpression G (n + 9) p = .ok 0 p := by
  have hpunct : ∀ s, Parser.isPunct p.currentToken s = false := fun s =>
    isPunct_of_kind (by rw [hkind]; decide)
  have hskip : ∀ s, skipPunctuator s p = .ok false p := fun s => skipPunctuator_of_not (hpunct s)
  have hne : ∀ s : String, s ∉ statementKeywords → (p.currentToken.text == s) = false := by
    intro s hs
    rw [beq_eq_false_iff_ne]
    rintro rfl
    exact hs htext
  have hbuiltin : "__builtin_".isPrefixOf p.currentToken.text = false := by
    revert htext
    generalize p.currentToken.text = text
    intro htext
    simp only [statementKeywords, List.mem_cons, List.not_mem_nil, or_false] at htext
    rcases htext with rfl | rfl | rfl | rfl | rfl | rfl | rfl | rfl | rfl | rfl | rfl | rfl <;>
      decide
  have hprimary : parsePrimaryExpression G (n + 1) p = .ok 0 p := by
    rw [parsePrimaryExpression, get_bind]
    simp only [hpunct, hbuiltin, hne "typeof" (by decide), hne "__typeof__" (by decide),
      hne "__extension__" (by decide), hkind, Bool.false_and, Bool.or_self, Bool.and_false,
      Bool.false_eq_true, if_false]
    rfl
  have hpostfix : parsePostfixExpression G (n + 2) p = .ok 0 p := by
    rw [parsePostfixExpression, bind_ok hprimary]
    exact parsePostfixLoop_stop G n 0 fun s _ => hpunct s
  have hcast : parseCastExpression G (n + 4) p = .ok 0 p := by
    have hsizeof : ¬p.currentToken.text = "sizeof" := by simpa using hne "sizeof" (by decide)
    rw [parseCastExpression, bind_ok (hskip _)]
    simp only [Bool.false_eq_true, if_false]
    rw [parseUnaryExpression, get_bind]
    simp only [hkind, hsizeof, and_false, if_false, prefixOperator, reduceCtorEq, ne_eq,
      not_false_eq_true, if_true]
    exact hpostfix
  have hoperators : binaryOperator p.currentToken = (0, 0) := by
    unfold binaryOperator
    simp [hkind]
  have hbinary : parseBinaryOp G (n + 5) 0 p = .ok 0 p := by
    rw [parseBinaryOp, bind_ok hcast, parseBinaryOpLoop, get_bind, hoperators]
    rfl
  have hassign : assignmentOperator p.currentToken = none := by
    unfold assignmentOperator
    simp [hkind]
  have hconditional : parseConditionalExpression G (n + 6) p = .ok 0 p := by
    rw [parseConditionalExpression, bind_ok hbinary, bind_ok (hskip _)]
    rfl
  have hassignment : parseAssignmentExpression G (n + 7) p = .ok 0 p := by
    rw [parseAssignmentExpression, bind_ok hconditional, get_bind, hassign]
    rfl
  rw [parseExpression, parseCommaExpression, bind_ok hassignment, bind_ok (hskip _)]
  rfl

variable {declaration expression : ParserM ℕ}

theorem pieces_grow (n : ℕ) (b : Body) (p : Parser) :
    Gives (parseStatementExprLoop declaration expression n b) p fun b' _ =>
      ∃ rest, b'.pieces = b.pieces ++ rest := by
  -- a round adds a piece, and the others are kept by the rounds behind it
  have htrivial : ∀ {α : Type} (m : ParserM α) (p : Parser), Gives m p fun _ _ => True :=
    fun _ _ _ _ _ => trivial
  induction n generalizing b p with
  | zero => exact Gives.pure ⟨[], (List.append_nil _).symm⟩
  | succ n ih =>
    have hround : ∀ chain x p', Gives (parseStatementExprLoop declaration expression n
        ⟨chain, b.pieces ++ [x]⟩) p' fun b' _ => ∃ rest, b'.pieces = b.pieces ++ rest := by
      intro chain x p' b' p'' hrun
      obtain ⟨rest, hrest⟩ := ih ⟨chain, b.pieces ++ [x]⟩ p' b' p'' hrun
      exact ⟨x :: rest, by rw [hrest, List.append_assoc]; rfl⟩
    rw [parseStatementExprLoop]
    refine (htrivial _ p).bind fun q p₁ _ => ?_
    split
    · exact Gives.pure ⟨[], (List.append_nil _).symm⟩
    · refine (htrivial _ p₁).bind fun semicolon p₂ _ => ?_
      split
      · refine (htrivial _ p₂).bind fun empty p₃ _ => ?_
        refine (htrivial _ p₃).bind fun chain p₄ _ => ?_
        exact hround chain _ p₄
      · refine (htrivial _ p₂).bind fun node p₃ _ => ?_
        refine (htrivial _ p₃).bind fun q₃ p₄ _ => ?_
        refine (htrivial _ p₄).bind fun chain p₅ _ => ?_
        refine (htrivial _ p₅).bind fun q₅ p₆ _ => ?_
        split
        · refine (htrivial _ p₆).bind fun _ p₇ _ => ?_
          exact (htrivial _ p₇).bind fun _ p₈ _ => hround chain _ p₈
        · exact (htrivial _ p₆).bind fun _ p₈ _ => hround chain _ p₈

/-- A control statement in the body leaves a piece without a node. -/
theorem null_of_keyword (G : Productions) (fuel n : ℕ) (b : Body) {p : Parser}
    (hkind : p.currentToken.kind = .keyword) (htext : p.currentToken.text ∈ statementKeywords) :
    Gives (parseStatementExprLoop declaration (parseExpression G (fuel + 9)) (n + 1) b) p
      fun b' _ => ∃ x ∈ b'.pieces, x.node = 0 := by
  have hpunct : ∀ s, Parser.isPunct p.currentToken s = false := fun s =>
    isPunct_of_kind (by rw [hkind]; decide)
  have htype : (p.isTypeSpecifier || isStorageClassSpecifier p) = false := by
    unfold Parser.isTypeSpecifier isStorageClassSpecifier
    generalize p.currentToken = t at hkind htext
    simp only [statementKeywords, List.mem_cons, List.not_mem_nil, or_false] at htext
    simp only [hkind]
    rcases htext with h | h | h | h | h | h | h | h | h | h | h | h <;> rw [h] <;> simp
  have hend : isAtEnd p = false := by
    unfold isAtEnd
    rw [hkind]
    rfl
  have hparse : parseOrAdvance (parseExpression G (fuel + 9)) p = .ok 0 p := by
    unfold parseOrAdvance
    rw [parseExpression_keyword G fuel hkind htext]
  have hlink : linkSiblings b.chain 0 p = .ok b.chain p := rfl
  rw [parseStatementExprLoop]
  intro b' p' hrun
  rw [get_bind] at hrun
  simp only [hend, hpunct, htype, Bool.or_self, Bool.false_eq_true, if_false] at hrun
  rw [bind_ok (skipPunctuator_of_not (hpunct ";"))] at hrun
  simp only [Bool.false_eq_true, if_false] at hrun
  rw [bind_ok hparse, get_bind, bind_ok hlink, get_bind] at hrun
  simp only [if_true] at hrun
  suffices hgives : Gives _ _ fun (b' : Body) (_ : Parser) => ∃ x ∈ b'.pieces, x.node = 0 from
    hgives b' p' hrun
  refine Gives.bind (Q := fun _ _ => True) (fun _ _ _ => trivial) fun _ p₁ _ => ?_
  refine Gives.bind (Q := fun _ _ => True) (fun _ _ _ => trivial) fun semicolon p₂ _ => ?_
  intro b'' p'' hrest
  obtain ⟨rest, hpieces⟩ := pieces_grow n _ p₂ b'' p'' hrest
  rw [hpieces]
  exact ⟨_, List.mem_append_left _ (List.mem_append_right _ List.mem_cons_self), rfl⟩

end ControlStatements

end OpticC.StatementExpr
