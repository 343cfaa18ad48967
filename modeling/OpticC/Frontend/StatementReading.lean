import OpticC.Frontend.ParenthesisedOperands
import OpticC.Frontend.StatementNodes
import OpticC.Frontend.StuckProductions
import OpticC.Frontend.TranslationUnit

/-! How the parser reads the parts of a statement: the expressions in it, the keyword it begins
with, and the nodes that are allocated around them. -/

namespace OpticC.Statements

open Expressions (Mark Phrase Builds Outcome Never Ahead After)
open Approximation (Below)
open Grammar (tied)

section Expressions

variable {T : String → Bool}

theorem keepNodes_stuck (a : Arena) : Productions.stuck.KeepNodes a :=
  ⟨fun _ hp => Keeps.throw hp, fun _ hp => Keeps.throw hp, fun _ hp => Keeps.throw hp,
    fun _ hp => Keeps.throw hp, fun _ hp => Keeps.throw hp, fun _ hp => Keeps.throw hp,
    fun _ hp => Keeps.throw hp, fun _ _ hp => Keeps.throw hp⟩

/-- What an expression leaves in the arena. -/
structure Leaves {l : Expressions.Level} (e : Phrase T l) (a : Arena) (n : ℕ) (a' : Arena) :
    Prop where
  builds : Builds e a n a'
  extends_ : a.Extends a'
  new : New a a' n

/-- An expression that is read whole is read so by the productions tied together. -/
theorem outcome_tied {l : Expressions.Level} {e : Phrase T l} {S : Parser → Prop} {p : Parser}
    {parse : Productions → ℕ → ParserM ℕ} (hread : Outcome S (parse .stuck) p true (After e p))
    (hkeep : ∀ fuel, KeepsNew p.arena (parse .stuck fuel))
    (hbelow : ∀ G fuel, Below (parse .stuck fuel) (parse G fuel)) :
    Outcome Never (fun k => parse ((tied k).productions k) k) p true fun n q =>
      ∃ a, q = p.moved e.tokens.length a ∧ Leaves e p.arena n a := by
  obtain ⟨n, _, ⟨a, hbuilds, rfl⟩, N, hN⟩ := hread
  obtain ⟨hleft, hnew⟩ :=
    StatementExpr.Keeps.gives (hkeep N p (Above.refl _)) n _ (hN N (Nat.le_refl N))
  exact ⟨n, _, ⟨a, rfl, hbuilds, hleft.above.extends_, hnew⟩, N, fun k hk =>
    hbelow _ k p n _ (hN k hk)⟩

theorem outcome_expression {e : Phrase T .expression} (he : e.unbroken true = true) {p : Parser}
    {t : Token} {tail : List Token} (hT : p.typedefNames = T)
    (h : Ahead p (e.tokens ++ t :: tail)) (ht : Stops t) :
    Outcome Never (fun k => (tied k).expression) p true fun n q =>
      ∃ a, q = p.moved e.tokens.length a ∧ Leaves e p.arena n a := by
  have hread := Expressions.read_phrase .stuck e p t tail hT h ht
  rw [he] at hread
  exact Outcome.succ (outcome_tied hread
    (fun fuel => (expressionsKeep (keepNodes_stuck p.arena) fuel).expression)
    fun G fuel => (expressionsBelow G fuel).expression)

theorem outcome_conditional {e : Phrase T .conditional} (he : e.unbroken true = true) {p : Parser}
    {t : Token} {tail : List Token} (hT : p.typedefNames = T)
    (h : Ahead p (e.tokens ++ t :: tail)) (ht : Expressions.EndsConditional t) :
    Outcome Never (fun k => (tied k).conditionalExpression) p true fun n q =>
      ∃ a, q = p.moved e.tokens.length a ∧ Leaves e p.arena n a := by
  have hread := Expressions.read_phrase .stuck e p t tail hT h ht
  rw [he] at hread
  exact Outcome.succ (outcome_tied hread
    (fun fuel => (expressionsKeep (keepNodes_stuck p.arena) fuel).conditional)
    fun G fuel => (expressionsBelow G fuel).conditional)

theorem IsRoot.ne_zero {a : Arena} {n : ℕ} (h : IsRoot a n) : n ≠ 0 := by
  rintro rfl
  obtain ⟨node, hget, -⟩ := h
  rw [get_zero] at hget
  cases hget

variable {l : Expressions.Level} {e : Phrase T l} {a a' : Arena} {n : ℕ} {labels : List String}

theorem Leaves.grows (h : Leaves e a n a') : Grows (2 * e.tokens.length) (slots e.tokens) a a' :=
  (built_builds h.builds).grows

theorem Leaves.root (h : Leaves e a n a') (hroom : Room a' labels) : IsRoot a' n :=
  (built_builds h.builds).root labels hroom

/-- The offset of an expression is behind the nodes that were there before. -/
theorem Leaves.le (h : Leaves e a n a') (hroom : Room a' labels) : a.nodeAllocated ≤ n :=
  (h.new.resolve_left (h.root hroom).ne_zero).1

end Expressions

section Keywords

variable {S : Grammar} {fuel : ℕ} {p : Parser} {t : Token} {tail : List Token} {s : String}

theorem Keyword.not_isPunct (kw : Keyword s) (text : String) : Parser.isPunct kw.1 text = false :=
  isPunct_of_kind (by rw [kw.2.1]; decide)

theorem Keyword.isWord (kw : Keyword s) : Parser.isWord kw.1 = true := by
  simp [Parser.isWord, kw.2.1]

/-- The keyword is expected. -/
theorem expect_keyword (kw : Keyword s) (h : Ahead p (kw.1 :: tail)) :
    expect s p = .ok () (p.moved 1 p.arena) := by
  unfold expect
  rw [get_bind]
  simp only [h.currentToken, kw.2.2, if_true]
  exact Expressions.advance_ahead h

/-- A statement that begins with a keyword. -/
theorem parseStatement_keyword (kw : Keyword s) (hs : s ≠ "__attribute__")
    (h : Ahead p (kw.1 :: tail)) : Grammar.parseStatement S fuel p =
      (match s with
      | "if" => Grammar.parseIfStatement S
      | "while" => Grammar.parseWhileStatement S
      | "for" => Grammar.parseForStatement S
      | "return" => Grammar.parseReturnStatement S
      | "break" => Grammar.parseJump 46
      | "continue" => Grammar.parseJump 47
      | "switch" => Grammar.parseSwitchStatement S
      | "goto" => Grammar.parseGotoStatement S
      | "do" => Grammar.parseDoStatement S
      | "case" => Grammar.parseCaseLabel S
      | "default" => Grammar.parseDefaultLabel
      | "__extension__" => do
        advance
        S.statement
      | "__label__" => do
        advance
        Grammar.skipToSemicolon fuel
        allocNode 48 0 0 0 0
      | "asm" | "__asm__" | "__asm" => Grammar.parseAsmStmt S fuel
      | _ => Grammar.parsePlainStatement S) p := by
  have hbrace : ¬Parser.isPunct p.currentToken "\x7b" = true := by
    rw [h.currentToken, kw.not_isPunct]
    exact Bool.false_ne_true
  have hattribute : ¬p.isAttribute = true := by
    simp [Parser.isAttribute, h.currentToken, kw.2.2, hs]
  have hword : Parser.isWord p.currentToken = true := by rw [h.currentToken, kw.isWord]
  obtain rfl : p.currentToken.text = s := by rw [h.currentToken, kw.2.2]
  rw [Grammar.parseStatement, get_bind]
  exact (congrFun (if_neg hbrace) p).trans ((congrFun (if_neg hattribute) p).trans
    (congrFun (if_pos hword) p))

end Keywords

section Placement

/-- The nodes of a statement: all behind those of `a`, its own at `off` without a next sibling, and `R`
holds of every arena that has them. -/
structure Placed (a : Arena) (off : ℕ) (a' : Arena) (R : Arena → Prop) : Prop where
  extends_ : a.Extends a'
  fresh : a.nodeAllocated ≤ off
  node : ∃ node, a'.get off = some node ∧ node.nextSibling = 0
  holds : ∀ a'', Agrees a' a'' a.nodeAllocated off → R a''

variable {a b b' a₁ a₂ a'' : Arena} {off : ℕ} {labels : List String} {R R' : Arena → Prop}

theorem Placed.ne_zero (h : Placed a off b R) : off ≠ 0 := by
  rintro rfl
  obtain ⟨node, hget, -⟩ := h.node
  rw [get_zero] at hget
  cases hget

/-- Nodes behind those of `a`: `R` holds of every arena that has them. -/
structure Part (a a' : Arena) (R : Arena → Prop) : Prop where
  extends_ : a.Extends a'
  holds : ∀ a'', Agrees a' a'' a.nodeAllocated 0 → R a''

/-- What is kept of a later arena is kept of an earlier one. -/
theorem Agrees.earlier (h : Agrees b a'' a.nodeAllocated 0) (hext : a₁.Extends b) :
    Agrees a₁ a'' a.nodeAllocated 0 := by
  refine ⟨fun o n ho _ hn => h.get ho (hext.nodes o n hn), fun n hn => ?_,
    fun o s hs => h.strings o s (hext.strings o s hs)⟩
  rw [get_zero] at hn
  cases hn

theorem Part.trans (h : Part a a₁ R) (h' : Part a₁ b R') : Part a b fun a'' => R a'' ∧ R' a'' :=
  ⟨h.extends_.trans h'.extends_, fun a'' ha => ⟨h.holds a'' (ha.earlier h'.extends_),
    h'.holds a'' (ha.mono h.extends_.allocated)⟩⟩

theorem Part.mono (h : Part a b R) (hR : ∀ a'', R a'' → R' a'') : Part a b R' :=
  ⟨h.extends_, fun a'' ha => hR a'' (h.holds a'' ha)⟩

theorem part_put {n : CAstNode} (hput : a.put n = (off, b)) (hroom : Room b labels) :
    Part a b fun a'' => a''.get off = some n ∧ off ≠ 0 := by
  have halloc := allocates_of_put hput hroom
  exact ⟨halloc.extends_, fun a'' h =>
    ⟨h.get (halloc.le (Arena.Extends.refl a)) halloc.get, halloc.ne_zero⟩⟩

theorem Placed.part (h : Placed a off b R) : Part a b fun a'' => R a'' ∧ off ≠ 0 ∧
    ∃ node, a''.get off = some node ∧ node.nextSibling = 0 := by
  obtain ⟨node, hget, hnext⟩ := h.node
  exact ⟨h.extends_, fun a'' ha => ⟨h.holds a'' (ha.narrow (Nat.le_refl _) h.fresh), h.ne_zero, node,
    ha.get h.fresh hget, hnext⟩⟩

theorem get_nodeAllocated (a : Arena) : a.get a.nodeAllocated = none := if_pos (.inr (Nat.le_refl _))

/-- A statement whose own node is allocated last. -/
theorem Part.placed {n : CAstNode} (h : Part a b R) (hput : b.put n = (off, b'))
    (hroom : Room b' labels) (hnext : n.nextSibling = 0)
    (hR : ∀ a'' next, R a'' → a''.get off = some { n with nextSibling := next } → R' a'') :
    Placed a off b' R' := by
  have halloc := allocates_of_put hput hroom
  refine ⟨h.extends_.trans halloc.extends_, halloc.le h.extends_, ⟨n, halloc.get, hnext⟩,
    fun a'' ha => ?_⟩
  obtain ⟨next, hget⟩ := ha.root n halloc.get
  refine hR a'' next (h.holds a'' ⟨fun o m ho _ hm => ?_, fun m hm => ?_, fun o s hs => ?_⟩) hget
  · refine ha.nodes o m ho ?_ (halloc.extends_.nodes o m hm)
    rintro rfl
    rw [halloc.off_eq, get_nodeAllocated] at hm
    cases hm
  · rw [get_zero] at hm
    cases hm
  · exact ha.strings o s (halloc.extends_.strings o s hs)

theorem Placed.mono (h : Placed a off b R) (hR : ∀ a'', R a'' → R' a'') : Placed a off b R' :=
  ⟨h.extends_, h.fresh, h.node, fun a'' ha => hR a'' (h.holds a'' ha)⟩

end Placement

section Statements

variable {T : String → Bool}

/-- What a statement leaves in the arena, if there is room. -/
structure Laid (src : Source T false) (a : Arena) (off : ℕ) (a' : Arena) : Prop where
  grows : Grows (2 * src.tokens.length) (slots src.tokens) a a'
  placed : Room a' src.labels → ∃ s, Placed a off a' fun a'' => StmtAt a'' false off s ∧
    Reads a'' src s ∧ ∀ node, a''.get off = some node → (node.kind = 40 ↔ src.blockItems?.isSome)

def isElse (t : Token) : Bool := Parser.isWord t && t.text == "else"

/-- The parser reads the statement and no more. -/
def Reading (src : Source T false) : Prop :=
  ∀ p t tail, p.typedefNames = T → Ahead p (src.tokens ++ t :: tail) →
    (src.closed = false → isElse t = false) →
    Outcome Never (fun k => (tied k).statement) p true fun off q =>
      ∃ a, q = p.moved src.tokens.length a ∧ Laid src p.arena off a

variable {α : Type} {p : Parser} {t : Token} {tail : List Token}

variable {q : Parser} {k : ℕ} {a : Arena} {f : ℕ → ℕ → ParserM α} {Q : α → Parser → Prop}

/-- A token that is expected. -/
theorem outcome_expect {s : String} (mark : Mark s) (h : Ahead (q.moved k a) (mark.1 :: tail))
    {g : ℕ → ParserM α} (hg : Ahead (q.moved (k + 1) a) tail →
      Outcome Never g (q.moved (k + 1) a) true Q) :
    Outcome Never (fun i => expect s >>= fun _ => g i) (q.moved k a) true Q := by
  refine Outcome.step (Expressions.expect_ahead h mark.2) ?_
  have hnext := h.next a
  rw [Parser.moved_moved] at hnext
  show Outcome Never g ((q.moved k a).moved 1 a) true Q
  rw [Parser.moved_moved]
  exact hg hnext

/-- An expression in front of a token that ends it. -/
theorem outcome_whole {e : Phrase T .expression} (he : e.unbroken true = true)
    (hT : q.typedefNames = T) (ht : Stops t) (h : Ahead (q.moved k a) (e.tokens ++ t :: tail))
    (hf : ∀ n a', Leaves e a n a' → Ahead (q.moved (k + e.tokens.length) a') (t :: tail) →
      Outcome Never (fun i => f i n) (q.moved (k + e.tokens.length) a') true Q) :
    Outcome Never (fun i => (tied i).expression >>= fun n => f i n) (q.moved k a) true Q := by
  refine (outcome_expression he (p := q.moved k a) hT h ht).bind_sure (fun _ _ _ h => h.elim) ?_
  rintro n _ ⟨a', rfl, hleaves⟩
  have hnext := h.moved rfl a'
  rw [Parser.moved_moved] at hnext ⊢
  exact hf n a' hleaves hnext

/-- A parenthesised condition. -/
theorem outcome_condition {left : Mark "("} {c : Phrase T .expression} {right : Mark ")"}
    (hc : c.unbroken true = true) (hT : q.typedefNames = T)
    (h : Ahead (q.moved k a) (left.1 :: (c.tokens ++ right.1 :: tail)))
    (hf : ∀ n a', Leaves c a n a' → Ahead (q.moved (k + c.tokens.length + 2) a') tail →
      Outcome Never (fun i => f i n) (q.moved (k + c.tokens.length + 2) a') true Q) :
    Outcome Never (fun i => expect "(" >>= fun _ => (tied i).expression >>= fun n =>
      expect ")" >>= fun _ => f i n) (q.moved k a) true Q := by
  refine outcome_expect left h fun h => ?_
  refine outcome_whole hc hT (Expressions.stops_of_isPunct right.2 (by decide)) h
    fun n a' hleaves h => ?_
  refine outcome_expect right h fun h => ?_
  have hk : k + 1 + c.tokens.length + 1 = k + c.tokens.length + 2 := by omega
  rw [hk] at h ⊢
  exact hf n a' hleaves h

/-- A statement inside of another one. -/
theorem Reading.outcome {s : Source T false} (hs : Reading s) (hT : q.typedefNames = T)
    (h : Ahead (q.moved k a) (s.tokens ++ t :: tail)) (helse : s.closed = false → isElse t = false)
    (hf : ∀ off a', Laid s a off a' → Ahead (q.moved (k + s.tokens.length) a') (t :: tail) →
      Outcome Never (fun i => f i off) (q.moved (k + s.tokens.length) a') true Q) :
    Outcome Never (fun i => (tied i).statement >>= fun off => f i off) (q.moved k a) true Q := by
  refine (hs (q.moved k a) t tail hT h helse).bind_sure (fun _ _ _ h => h.elim) ?_
  rintro off _ ⟨a', rfl, hlaid⟩
  have hnext := h.moved rfl a'
  rw [Parser.moved_moved] at hnext ⊢
  exact hf off a' hlaid hnext

/-- A keyword that is expected. -/
theorem outcome_keyword {s : String} (kw : Keyword s) (h : Ahead (q.moved k a) (kw.1 :: tail))
    {g : ℕ → ParserM α} (hg : Ahead (q.moved (k + 1) a) tail →
      Outcome Never g (q.moved (k + 1) a) true Q) :
    Outcome Never (fun i => expect s >>= fun _ => g i) (q.moved k a) true Q := by
  refine Outcome.step (expect_keyword kw h) ?_
  have hnext := h.next a
  rw [Parser.moved_moved] at hnext
  show Outcome Never g ((q.moved k a).moved 1 a) true Q
  rw [Parser.moved_moved]
  exact hg hnext

/-- A node that is allocated. -/
theorem outcome_allocNode {kind data parent first next : ℕ} {g : ℕ → ℕ → ParserM α}
    (hg : ∀ w b, a.put ⟨kind, true, parent, first, next, data⟩ = (w, b) →
      Outcome Never (fun i => g i w) (q.moved k b) true Q) :
    Outcome Never (fun i => allocNode kind data parent first next >>= fun off => g i off)
      (q.moved k a) true Q :=
  Outcome.step (allocNode_eq _ _ _ _ _ _) (hg _ _ rfl)

/-- The node of the statement, allocated last. -/
theorem outcome_last {kind data parent first next len : ℕ} {Q : ℕ → Arena → Prop} (hlen : k = len)
    (hQ : ∀ w b, a.put ⟨kind, true, parent, first, next, data⟩ = (w, b) → Q w b) :
    Outcome Never (fun _ => allocNode kind data parent first next) (q.moved k a) true fun off q' =>
      ∃ b, q' = q.moved len b ∧ Q off b := by
  subst hlen
  exact ⟨_, _, ⟨_, rfl, hQ _ _ rfl⟩, 0, fun _ _ => allocNode_eq _ _ _ _ _ _⟩

/-- What has to be shown of a statement that is no block. -/
theorem laid_of_put {src : Source T false} {a b a' : Arena} {off k m : ℕ} {n : CAstNode}
    (hput : b.put n = (off, a')) (hgrows : Grows k m a b) (hk : k + 1 ≤ 2 * src.tokens.length)
    (hm : m ≤ slots src.tokens) (hnext : n.nextSibling = 0) (hblock : src.blockItems? = none)
    (hkind : n.kind ≠ 40)
    (hR : Room b src.labels → ∃ s, Part a b fun a'' => ∀ next,
      a''.get off = some { n with nextSibling := next } →
      StmtAt a'' false off s ∧ Reads a'' src s) : Laid src a off a' := by
  have hlast := grows_of_put hput
  refine ⟨(hgrows.trans hlast).mono hk hm, fun hroom => ?_⟩
  obtain ⟨s, hpart⟩ := hR (hlast.room hroom)
  refine ⟨s, hpart.placed hput hroom hnext fun a'' next hs hget => ?_⟩
  obtain ⟨hstmt, hreads⟩ := hs next hget
  refine ⟨hstmt, hreads, fun node hnode => ?_⟩
  rw [hget] at hnode
  cases hnode
  simp [hblock, hkind]

/-- The expression, seen from an arena that has its nodes. -/
theorem Leaves.part {l : Expressions.Level} {e : Phrase T l} {a a' : Arena} {n : ℕ}
    {labels : List String} (h : Leaves e a n a') (hroom : Room a' labels) :
    Part a a' fun a'' => ExprAt a'' e n ∧ n ≠ 0 ∧ IsRoot a'' n := by
  have hne := (h.root hroom).ne_zero
  obtain ⟨node, hget, hkind⟩ := h.root hroom
  exact ⟨h.extends_, fun a'' ha => ⟨⟨a, a', h.builds, ha.narrow (Nat.le_refl _) (h.le hroom)⟩,
    hne, node, ha.get (h.le hroom) hget, hkind⟩⟩

/-- A statement that begins with a keyword is read if the production of the keyword reads it. -/
theorem reading_of_keyword {s : String} {kw : Keyword s} {src : Source T false} {more : List Token}
    (htokens : src.tokens = kw.1 :: more) {parse : Grammar → ParserM ℕ}
    (hparse : ∀ S fuel p tail, Ahead p (kw.1 :: tail) → Grammar.parseStatement S fuel p = parse S p)
    (h : ∀ (q : Parser) (t : Token) (tail : List Token), q.typedefNames = T →
      Ahead (q.moved 0 q.arena) (src.tokens ++ t :: tail) →
      (src.closed = false → isElse t = false) →
      Outcome Never (fun k => parse (tied k)) (q.moved 0 q.arena) true fun off q' =>
        ∃ a, q' = q.moved src.tokens.length a ∧ Laid src q.arena off a) : Reading src := by
  intro p t tail hT hahead helse
  refine Outcome.succ (Outcome.congr (fun k => ?_) (h p t tail hT hahead helse))
  rw [htokens, List.cons_append] at hahead
  exact hparse (tied k) k p _ hahead

end Statements

end OpticC.Statements
