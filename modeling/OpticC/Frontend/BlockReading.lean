import OpticC.Frontend.StatementForms

/-! The items of a block: each is parsed and linked behind the one before, and the nodes of the block
are those of its items. Every statement is read to its end. -/

namespace OpticC.Statements

open Expressions (Mark Phrase Outcome Never Ahead)
open Grammar (tied)
open StatementExpr (isAtEnd isStorageClassSpecifier parseOrAdvance)

section Chains

variable {T : String → Bool}

/-- What the items of a block leave in the arena behind a chain of siblings: the first of them hangs
on the last node of the chain. -/
structure LaidItems (items : Source T true) (a : Arena) (chain : ℕ × ℕ) (a' : Arena)
    (chain' : ℕ × ℕ) : Prop where
  grows : Grows (2 * items.tokens.length) (slots items.tokens) a a'
  placed : Room a' items.labels → chain.2 < a.nodeAllocated → (chain.1 = 0 → chain.2 = 0) →
    ∃ s first, Agrees a a' 0 chain.2 ∧ chain'.1 = (if chain.1 = 0 then first else chain.1) ∧
      (∀ n, a.get chain.2 = some n → n.nextSibling = 0 →
        a'.get chain.2 = some { n with nextSibling := first }) ∧
      ∀ a'', Agrees a' a'' a.nodeAllocated 0 → StmtAt a'' true first s ∧ Reads a'' items s

theorem laidItems_nil (a : Arena) (chain : ℕ × ℕ) :
    LaidItems (.nil : Source T true) a chain a chain := by
  refine ⟨Grows.refl a, fun _ _ _ => ⟨.skip, 0, Agrees.refl a _ _, ?_, fun n hn hnext => ?_,
    fun _ _ => ⟨.nil, .nil⟩⟩⟩
  · split_ifs with h
    · exact h
    · rfl
  · rw [hn, ← hnext]

/-- The node at `off` is linked behind the chain. -/
theorem agrees_link {a : Arena} {chain : ℕ × ℕ} {off lo root : ℕ}
    (h : chain.2 < lo ∨ chain.2 = root) : Agrees a (a.link chain off).2 lo root := by
  unfold Arena.link
  split_ifs
  · exact Agrees.refl a _ _
  · exact Agrees.refl a _ _
  · exact Agrees.setNextSibling off h

/-- The last node of a chain that is not empty has the new one behind it. -/
theorem get_link {a : Arena} {chain : ℕ × ℕ} {off : ℕ} {n : CAstNode} (hoff : off ≠ 0)
    (hchain : chain.1 ≠ 0) (h : a.get chain.2 = some n) :
    (a.link chain off).2.get chain.2 = some { n with nextSibling := off } := by
  rw [Arena.link, if_neg hoff, if_neg hchain]
  exact StatementExpr.get_modify_self _ h

theorem link_fst {a : Arena} {chain : ℕ × ℕ} {off : ℕ} (hoff : off ≠ 0) :
    (a.link chain off).1 = (if chain.1 = 0 then off else chain.1, off) := by
  unfold Arena.link
  rw [if_neg hoff]
  split_ifs <;> rfl

theorem link_nodeAllocated (a : Arena) (chain : ℕ × ℕ) (off : ℕ) :
    (a.link chain off).2.nodeAllocated = a.nodeAllocated := by
  unfold Arena.link
  split_ifs
  · rfl
  · rfl
  · exact NodeForest.Owns.modify_nodeAllocated _ _ _

/-- An item in front of the others. -/
theorem laidItems_cons {src rest : Source T true} {toks : List Token} {labels : List String}
    {a a₁ a' : Arena} {chain chain' : ℕ × ℕ} {off : ℕ} {R : Arena → Stmt → Prop}
    (htokens : src.tokens = toks ++ rest.tokens) (hlabels : labels ⊆ src.labels)
    (hrest : rest.labels ⊆ src.labels) (hgrows : Grows (2 * toks.length) (slots toks) a a₁)
    (hitem : Room a₁ labels → ∃ s, Placed a off a₁ fun a'' => StmtAt a'' false off s ∧ R a'' s)
    (hitems : LaidItems rest (a₁.link chain off).2 (a₁.link chain off).1 a' chain')
    (hreads : ∀ a'' s t, R a'' s → Reads a'' rest t → Reads a'' src (.seq s t)) :
    LaidItems src a chain a' chain' := by
  refine ⟨((hgrows.trans (grows_link _ _ _)).trans hitems.grows).mono
    (by simp [htokens]; omega) (by simp [htokens]), fun hroom hlt hzero => ?_⟩
  have hroom₁ := (grows_link a₁ chain off).room (hitems.grows.room hroom)
  obtain ⟨s, hs⟩ := hitem (hroom₁.subset hlabels)
  have hoff := hs.ne_zero
  have hfresh := hs.fresh
  obtain ⟨node, hnode, hnodeNext⟩ := hs.node
  have hlast := (NodeForest.lt_of_get hnode).2
  have hfirst : (if chain.1 = 0 then off else chain.1) ≠ 0 := by
    split_ifs with h
    · exact hoff
    · exact h
  have hlink : Agrees a₁ (a₁.link chain off).2 0 chain.2 := agrees_link (.inr rfl)
  have hallocated := link_nodeAllocated a₁ chain off
  have hbehind := hitems.placed (hroom.subset hrest)
  rw [link_fst hoff] at hbehind
  obtain ⟨t, second, hagrees, hchain, hsecond, hholds⟩ :=
    hbehind (by omega) fun h => absurd h hfirst
  rw [if_neg hfirst] at hchain
  refine ⟨.seq s t, off, ⟨fun o n _ hne hn => ?_, fun n hn => ?_, fun o s' hs' => ?_⟩, hchain,
    fun n hn hnext => ?_, fun a'' ha => ?_⟩
  · have hold := (NodeForest.lt_of_get hn).2
    exact hagrees.nodes o n (Nat.zero_le _) (by omega)
      (hlink.nodes o n (Nat.zero_le _) hne (hs.extends_.nodes o n hn))
  · obtain ⟨next, hn⟩ := hlink.root n (hs.extends_.nodes _ n hn)
    exact ⟨next, hagrees.nodes _ _ (Nat.zero_le _) (by omega) hn⟩
  · exact hagrees.strings o s' (hlink.strings o s' (hs.extends_.strings o s' hs'))
  · have hne : chain.1 ≠ 0 := by
      intro h
      rw [hzero h, get_zero] at hn
      cases hn
    exact hagrees.nodes _ _ (Nat.zero_le _) (by omega)
      (get_link hoff hne (hs.extends_.nodes _ n hn))
  · have hnew : a.nodeAllocated ≤ (a₁.link chain off).2.nodeAllocated := by omega
    obtain ⟨hrestAt, hrestReads⟩ := hholds a'' (ha.mono hnew)
    obtain ⟨hitemAt, hitemReads⟩ := hs.holds a'' ((agrees_link (.inl hlt)).trans
      ((hagrees.mono (Nat.zero_le _)).trans (ha.narrow (Nat.le_refl _) hfresh)))
    have hnodes : Agrees a₁ (a₁.link chain off).2 a.nodeAllocated 0 := agrees_link (.inl hlt)
    have hkept := hnodes.get hfresh hnode
    exact ⟨.item (ha.get hfresh (hsecond node hkept hnodeNext)) hitemAt hrestAt,
      hreads a'' s t hitemReads hrestReads⟩

end Chains

section Rounds

variable {T : String → Bool} {q : Parser} {k rounds : ℕ} {a : Arena} {chain : ℕ × ℕ}
  {Q : ℕ × ℕ → Parser → Prop}

/-- The items and the brace behind them are read. -/
def ReadingItems (items : Source T true) : Prop :=
  ∀ (rounds : ℕ) (right : Mark "\x7d") (chain : ℕ × ℕ) (q : Parser) (k : ℕ) (a : Arena)
    (tail : List Token), items.count ≤ rounds → q.typedefNames = T →
    Ahead (q.moved k a) (items.tokens ++ right.1 :: tail) →
    Outcome Never (fun i => Grammar.parseItems (tied i) rounds chain) (q.moved k a) true
      fun chain' q' => ∃ a', q' = q.moved (k + items.tokens.length + 1) a' ∧
        LaidItems items a chain a' chain'

theorem readingItems_nil : ReadingItems (.nil : Source T true) := by
  intro rounds right chain q k a tail _ hT h
  cases rounds with
  | zero => exact outcome_skip right h fun h => Outcome.pure ⟨a, rfl, laidItems_nil a chain⟩
  | succ rounds => exact outcome_skip right h fun h => Outcome.pure ⟨a, rfl, laidItems_nil a chain⟩

/-- No error is dropped where there is none. -/
theorem outcome_parseOrAdvance {m : ℕ → ParserM ℕ} {p : Parser} {R : ℕ → Parser → Prop}
    (h : Outcome Never m p true R) : Outcome Never (fun i => parseOrAdvance (m i)) p true R := by
  obtain ⟨off, p', hR, N, hN⟩ := h
  refine ⟨off, p', hR, N, fun i hi => ?_⟩
  simp only [parseOrAdvance, hN i hi]

/-- An item that is parsed and linked. -/
theorem outcome_round (len : ℕ) {t : Token} {rest : List Token} (hlen : 0 < len)
    (hT : q.typedefNames = T) (h : Ahead (q.moved k a) (t :: rest)) (ht : Starts T t)
    (hsemi : Parser.isPunct t ";" = false) {P : ℕ → Arena → Prop}
    (hitem : Outcome Never (fun i => (tied i).statement) (q.moved k a) true fun off q' =>
      ∃ a', q' = q.moved (k + len) a' ∧ P off a')
    (hrest : ∀ off a₁, P off a₁ → Outcome Never (fun i => Grammar.parseItems (tied i) rounds
      (a₁.link chain off).1) (q.moved (k + len) (a₁.link chain off).2) true Q) :
    Outcome Never (fun i => Grammar.parseItems (tied i) (rounds + 1) chain) (q.moved k a) true Q := by
  have hend : isAtEnd (q.moved k a) = false := by
    simpa [isAtEnd, h.currentToken] using ht.notEof
  have hdeclaration := ht.notDeclaration (q.moved k a) hT h.currentToken
  refine Outcome.step (Expressions.not_skipPunctuator_ahead h ht.notClose) ?_
  simp only [Bool.false_eq_true, if_false]
  refine Outcome.congr (fun i => get_bind _ _) ?_
  simp only [hend, Bool.false_eq_true, if_false]
  refine Outcome.step (Expressions.not_skipPunctuator_ahead h hsemi) ?_
  simp only [Bool.false_eq_true, if_false]
  refine Outcome.congr (fun i => get_bind _ _) ?_
  simp only [hdeclaration, Bool.false_eq_true, if_false]
  refine (outcome_parseOrAdvance hitem).bind_sure (fun _ _ _ h => h.elim) ?_
  rintro off _ ⟨a₁, rfl, hP⟩
  refine Outcome.step (Expressions.linkSiblings_eq chain off _) ?_
  refine Outcome.congr (fun i => get_bind _ _) ?_
  have hmoved : ¬(q.moved (k + len) (a₁.link chain off).2).current = (q.moved k a).current := by
    simp only [Parser.moved]
    omega
  exact Outcome.congr (fun i => congrFun (if_neg hmoved) _) (hrest off a₁ hP)

/-- An empty statement among the items is a node of its own. -/
theorem outcome_emptyRound {semi : Mark ";"} {tail : List Token}
    (h : Ahead (q.moved k a) (semi.1 :: tail))
    (hrest : ∀ off a₁, a.put ⟨48, true, 0, 0, 0, 0⟩ = (off, a₁) → Outcome Never
      (fun i => Grammar.parseItems (tied i) rounds (a₁.link chain off).1)
      (q.moved (k + 1) (a₁.link chain off).2) true Q) :
    Outcome Never (fun i => Grammar.parseItems (tied i) (rounds + 1) chain) (q.moved k a) true Q := by
  have hend : isAtEnd (q.moved k a) = false := by
    simp [isAtEnd, h.currentToken, Expressions.kind_of_isPunct semi.2]
  refine Outcome.step (Expressions.not_skipPunctuator_ahead h
    (Expressions.isPunct_ne semi.2 (by decide))) ?_
  simp only [Bool.false_eq_true, if_false]
  refine Outcome.congr (fun i => get_bind _ _) ?_
  simp only [hend, Bool.false_eq_true, if_false]
  refine outcome_skip semi h fun _ => outcome_allocNode fun off a₁ hput => ?_
  exact Outcome.step (Expressions.linkSiblings_eq chain off _) (hrest off a₁ hput)

end Rounds

section Items

variable {T : String → Bool}

theorem length_pos_of_eq_cons {ts rest : List Token} {t : Token} (h : ts = t :: rest) :
    0 < ts.length := by
  rw [h]
  exact Nat.succ_pos _

/-- No `else` stands behind an item. -/
theorem items_noElse (items : Source T true) (hwf : items.WellFormed) (right : Mark "\x7d")
    (tail : List Token) :
    ∃ t rest, items.tokens ++ right.1 :: tail = t :: rest ∧ isElse t = false := by
  cases items with
  | nil => exact ⟨_, _, rfl, isElse_of_isPunct right.2⟩
  | item s rest =>
    obtain ⟨t, more, htokens, hstarts, -⟩ := statement_starts s hwf.1
    refine ⟨t, more ++ (rest.tokens ++ right.1 :: tail), ?_, hstarts.notElse⟩
    simp [htokens]
  | caseItem kw => exact ⟨_, _, rfl, (keyword_starts (T := T) kw (by decide)).notElse⟩
  | rangeItem kw => exact ⟨_, _, rfl, (keyword_starts (T := T) kw (by decide)).notElse⟩
  | defaultItem kw => exact ⟨_, _, rfl, (keyword_starts (T := T) kw (by decide)).notElse⟩

/-- An item that is laid down, and the statement it is. -/
structure LaidItem (R : Arena → Stmt → Prop) (toks : List Token) (labels : List String) (a : Arena)
    (off : ℕ) (a' : Arena) : Prop where
  grows : Grows (2 * toks.length) (slots toks) a a'
  placed : Room a' labels → ∃ s, Placed a off a' fun a'' => StmtAt a'' false off s ∧ R a'' s

variable {src rest : Source T true} {toks : List Token} {labels : List String}
  {R : Arena → Stmt → Prop}

/-- The items behind one that is laid down. -/
theorem outcome_behind {rounds : ℕ} {right : Mark "\x7d"} {chain : ℕ × ℕ} {q : Parser} {k : ℕ}
    {a a₁ : Arena} {off : ℕ} {tail : List Token} (hrest : ReadingItems rest)
    (htokens : src.tokens = toks ++ rest.tokens) (hlabels : labels ⊆ src.labels)
    (hlabels' : rest.labels ⊆ src.labels)
    (hreads : ∀ a'' s t, R a'' s → Reads a'' rest t → Reads a'' src (.seq s t))
    (hcount : rest.count ≤ rounds) (hT : q.typedefNames = T)
    (h : Ahead (q.moved k a) (src.tokens ++ right.1 :: tail))
    (hlaid : LaidItem R toks labels a off a₁) :
    Outcome Never (fun i => Grammar.parseItems (tied i) rounds (a₁.link chain off).1)
      (q.moved (k + toks.length) (a₁.link chain off).2) true fun chain' q' =>
        ∃ a', q' = q.moved (k + src.tokens.length + 1) a' ∧ LaidItems src a chain a' chain' := by
  rw [htokens, List.append_assoc] at h
  have hnext := h.moved rfl (a₁.link chain off).2
  rw [Parser.moved_moved] at hnext
  refine (hrest rounds right _ q _ _ tail hcount hT hnext).mono (fun _ h => h) ?_
  rintro chain' q' ⟨a', rfl, hitems⟩
  have hlen : k + toks.length + rest.tokens.length + 1 = k + src.tokens.length + 1 := by
    rw [htokens, List.length_append, Nat.add_assoc k]
  rw [hlen]
  exact ⟨a', rfl, laidItems_cons htokens hlabels hlabels' hlaid.grows hlaid.placed hitems hreads⟩

theorem readingItems_item {s : Source T false} {rest : Source T true} (hwf : s.WellFormed)
    (hwf' : rest.WellFormed) (hs : Reading s) (hrest : ReadingItems rest) :
    ReadingItems (.item s rest) := by
  intro rounds right chain q k a tail hcount hT h
  obtain ⟨rounds, rfl⟩ : ∃ n, rounds = n + 1 := ⟨rounds - 1, by simp [Source.count] at hcount; omega⟩
  simp only [Source.count, Nat.add_le_add_iff_right] at hcount
  have hbehind : ∀ off a₁, LaidItem (fun a'' s' => Reads a'' s s') s.tokens s.labels a off a₁ →
      Outcome Never (fun i => Grammar.parseItems (tied i) rounds (a₁.link chain off).1)
        (q.moved (k + s.tokens.length) (a₁.link chain off).2) true fun chain' q' =>
          ∃ a', q' = q.moved (k + (Source.item s rest).tokens.length + 1) a' ∧
            LaidItems (.item s rest) a chain a' chain' := fun off a₁ hlaid =>
    outcome_behind hrest rfl (List.subset_append_left _ _) (List.subset_append_right _ _)
      (fun a'' s' t hs ht => .item hs ht) hcount hT h hlaid
  simp only [Source.tokens, List.append_assoc] at h
  obtain ⟨t, more, htokens, hstarts, hempty⟩ := statement_starts s hwf
  by_cases hsemi : Parser.isPunct t ";" = true
  · obtain ⟨semi, rfl⟩ := hempty hsemi
    refine outcome_emptyRound h fun off a₁ hput =>
      hbehind off a₁ ⟨(grows_of_put hput).mono (by simp) (Nat.zero_le _), fun hroom => ⟨.skip, ?_⟩⟩
    have hpart : Part a a fun _ => True := ⟨Arena.Extends.refl a, fun _ _ => trivial⟩
    exact hpart.placed hput hroom rfl fun a'' next _ hget => ⟨.empty hget rfl, .empty⟩
  · obtain ⟨u, behind, hu, helse⟩ := items_noElse rest hwf' right tail
    have hitem := h
    rw [hu] at hitem
    rw [htokens] at h
    refine outcome_round s.tokens.length (length_pos_of_eq_cons htokens) hT h hstarts
      (Bool.eq_false_iff.2 hsemi) ?_ hbehind
    refine (hs (q.moved k a) u behind hT hitem fun _ => helse).mono (fun _ h => h) ?_
    rintro off q' ⟨a', rfl, hlaid⟩
    refine ⟨a', Parser.moved_moved _ _ _ _ _, hlaid.grows, fun hroom => ?_⟩
    obtain ⟨s', hs'⟩ := hlaid.placed hroom
    exact ⟨s', hs'.mono fun a'' h => ⟨h.1, h.2.1⟩⟩

/-- A case or default label. -/
theorem readingItems_label {w : String} {kw : Keyword w} (more : List Token)
    (parse : Grammar → ParserM ℕ) (hw : w ∈ statementWords)
    (htokens : src.tokens = kw.1 :: more ++ rest.tokens)
    (hcount : src.count = rest.count + 1) (hlabels : rest.labels = src.labels)
    (hparse : ∀ S fuel p tail, Ahead p (kw.1 :: tail) → Grammar.parseStatement S fuel p = parse S p)
    (hread : ∀ (q : Parser) (tail : List Token), q.typedefNames = T →
      Ahead (q.moved 0 q.arena) (kw.1 :: (more ++ tail)) →
      Outcome Never (fun i => parse (tied i)) (q.moved 0 q.arena) true fun off q' =>
        ∃ a', q' = q.moved (more.length + 1) a' ∧ LaidItem R (kw.1 :: more) [] q.arena off a')
    (hreads : ∀ a'' s t, R a'' s → Reads a'' rest t → Reads a'' src (.seq s t))
    (hrest : ReadingItems rest) : ReadingItems src := by
  intro rounds right chain q k a tail hrounds hT h
  obtain ⟨rounds, rfl⟩ : ∃ n, rounds = n + 1 := ⟨rounds - 1, by omega⟩
  have hahead := h
  rw [htokens, List.append_assoc] at hahead
  refine outcome_round (kw.1 :: more).length (Nat.succ_pos _) hT hahead
    (keyword_starts kw hw) (kw.not_isPunct ";") ?_ fun off a₁ hlaid => outcome_behind hrest htokens
      (List.nil_subset _) (hlabels ▸ List.Subset.refl _) hreads (by omega) hT h hlaid
  refine Outcome.succ (Outcome.congr (fun i => hparse (tied i) i _ _ hahead) ?_)
  refine (hread (q.moved k a) _ hT hahead).mono (fun _ h => h) ?_
  rintro off q' ⟨a', rfl, hlaid⟩
  exact ⟨a', Parser.moved_moved _ _ _ _ _, hlaid⟩

end Items

section CaseLabels

variable {T : String → Bool} {rest : Source T true}

theorem readingItems_default {kw : Keyword "default"} {colon : Mark ":"} (hrest : ReadingItems rest) :
    ReadingItems (.defaultItem kw colon rest) := by
  refine readingItems_label [colon.1] (fun _ => Grammar.parseDefaultLabel)
    (R := fun _ s => s = .case_ .default_) (by decide) rfl rfl rfl (fun S fuel p _ h =>
      (parseStatement_keyword kw (by decide) h : _ = Grammar.parseDefaultLabel p)) ?_ ?_ hrest
  · intro q tail hT h
    refine outcome_keyword kw h fun h => outcome_expect colon h fun _ => ?_
    refine outcome_last rfl fun off a' hput => ⟨(grows_of_put hput).mono (by simp) (by simp),
      fun hroom => ⟨.case_ .default_, ?_⟩⟩
    have hpart : Part q.arena q.arena fun _ => True := ⟨Arena.Extends.refl _, fun _ _ => trivial⟩
    exact hpart.placed hput hroom rfl fun a'' next _ hget => ⟨.default_ hget rfl, rfl⟩
  · rintro a'' _ t rfl ht
    exact .defaultItem ht

/-- A constant expression in front of a token that ends it. -/
theorem outcome_constant {α : Type} {q : Parser} {k : ℕ} {a : Arena} {t : Token} {tail : List Token}
    {Q : α → Parser → Prop} {f : ℕ → ℕ → ParserM α} {e : Phrase T .conditional}
    (he : e.unbroken true = true) (hT : q.typedefNames = T) (ht : Expressions.EndsConditional t)
    (h : Ahead (q.moved k a) (e.tokens ++ t :: tail))
    (hf : ∀ n a', Leaves e a n a' → Ahead (q.moved (k + e.tokens.length) a') (t :: tail) →
      Outcome Never (fun i => f i n) (q.moved (k + e.tokens.length) a') true Q) :
    Outcome Never (fun i => (tied i).conditionalExpression >>= fun n => f i n) (q.moved k a) true
      Q := by
  refine (outcome_conditional he (p := q.moved k a) hT h ht).bind_sure (fun _ _ _ h => h.elim) ?_
  rintro n _ ⟨a', rfl, hleaves⟩
  have hnext := h.moved rfl a'
  rw [Parser.moved_moved] at hnext ⊢
  exact hf n a' hleaves hnext

theorem colon_endsConditional (colon : Mark ":") : Expressions.EndsConditional colon.1 :=
  (Expressions.endsAssignment_of_stops (Expressions.stops_of_isPunct colon.2 (by decide))).1

theorem dots_endsConditional (dots : Mark "...") : Expressions.EndsConditional dots.1 := by
  have hne : ∀ s ∈ Expressions.postfixTexts, "..." ≠ s := by decide
  refine ⟨⟨fun s hs => Expressions.isPunct_ne dots.2 (hne s hs), ?_⟩,
    Expressions.isPunct_ne dots.2 (by decide)⟩
  unfold binaryOperator
  rw [Expressions.text_of_isPunct dots.2, if_neg (not_not.2 (Expressions.kind_of_isPunct dots.2))]
  rfl

theorem readingItems_case {kw : Keyword "case"} {e : Phrase T .conditional} {colon : Mark ":"}
    (he : e.unbroken true = true) (hrest : ReadingItems rest) :
    ReadingItems (.caseItem kw e colon rest) := by
  refine readingItems_label (e.tokens ++ [colon.1]) Grammar.parseCaseLabel
    (R := fun a'' s => ∃ n, ExprAt a'' e n ∧ s = .case_ (.value n)) (by decide) (by simp) rfl rfl
    (fun S fuel p _ h => (parseStatement_keyword kw (by decide) h : _ = Grammar.parseCaseLabel S p))
    ?_ ?_ hrest
  · intro q tail hT h
    rw [List.append_assoc] at h
    refine outcome_keyword kw h fun h => ?_
    refine outcome_constant he hT (colon_endsConditional colon) h fun n a₁ hleaves h => ?_
    have hdots : Parser.isPunct colon.1 "..." = false :=
      Expressions.isPunct_ne colon.2 (by decide)
    refine Outcome.congr (fun i => get_bind _ _) ?_
    simp only [h.currentToken, hdots, Bool.false_eq_true, if_false]
    refine outcome_expect colon h fun _ => outcome_last (by simp; omega) fun off a' hput =>
      ⟨(hleaves.grows.trans (grows_of_put hput)).mono
          (by simp only [List.length_cons, List.length_append]; omega) (by simp; omega),
        fun hroom => ⟨.case_ (.value n), ?_⟩⟩
    refine (hleaves.part ((grows_of_put hput).room hroom)).placed hput hroom rfl ?_
    rintro a'' next ⟨hexpr, hn, -⟩ hget
    exact ⟨.case_ hget rfl hn, n, hexpr, rfl⟩
  · rintro a'' _ t ⟨n, hexpr, rfl⟩ ht
    exact .caseItem hexpr ht

theorem readingItems_range {kw : Keyword "case"} {lo : Phrase T .conditional} {dots : Mark "..."}
    {hi : Phrase T .conditional} {colon : Mark ":"} (hlo : lo.unbroken true = true)
    (hhi : hi.unbroken true = true) (hrest : ReadingItems rest) :
    ReadingItems (.rangeItem kw lo dots hi colon rest) := by
  refine readingItems_label (lo.tokens ++ dots.1 :: (hi.tokens ++ [colon.1]))
    Grammar.parseCaseLabel
    (R := fun a'' s => ∃ n m, ExprAt a'' lo n ∧ ExprAt a'' hi m ∧ s = .case_ (.range n m)) (by decide)
    (by simp) rfl rfl
    (fun S fuel p _ h => (parseStatement_keyword kw (by decide) h : _ = Grammar.parseCaseLabel S p))
    ?_ ?_ hrest
  · intro q tail hT h
    rw [List.append_assoc, List.cons_append, List.append_assoc] at h
    refine outcome_keyword kw h fun h => ?_
    refine outcome_constant hlo hT (dots_endsConditional dots) h fun n a₁ hleaves h => ?_
    refine Outcome.congr (fun i => get_bind _ _) ?_
    simp only [h.currentToken, dots.2, if_true]
    refine outcome_advance h fun h => ?_
    refine outcome_constant hhi hT (colon_endsConditional colon) h fun m a₂ hleaves₂ h => ?_
    refine outcome_expect colon h fun _ => outcome_last (by simp; omega) fun off a' hput =>
      ⟨((hleaves.grows.trans hleaves₂.grows).trans (grows_of_put hput)).mono (by simp; omega)
        (by simp; omega),
        fun hroom => ⟨.case_ (.range n m), ?_⟩⟩
    have hroom₂ := (grows_of_put hput).room hroom
    refine ((hleaves.part (hleaves₂.grows.room hroom₂)).trans (hleaves₂.part hroom₂)).placed hput
      hroom rfl ?_
    rintro a'' next ⟨⟨hlo, hn, -⟩, hhi, hm, -⟩ hget
    exact ⟨.caseRange hget rfl hn hm, n, m, hlo, hhi, rfl⟩
  · rintro a'' _ t ⟨n, m, hlo, hhi, rfl⟩ ht
    exact .rangeItem hlo hhi ht

end CaseLabels

section Whole

variable {T : String → Bool}

theorem reading_block {left : Mark "\x7b"} {items : Source T true} {right : Mark "\x7d"}
    (hcount : items.count ≤ 10000) (hitems : ReadingItems items) :
    Reading (.block left items right) := by
  intro p t tail hT h _
  simp only [Source.tokens, List.cons_append, List.append_assoc, List.nil_append] at h
  have hparse : ∀ k, Grammar.parseStatement (tied k) k p =
      (advance >>= fun _ => Grammar.parseCompoundStatement (tied k)) (p.moved 0 p.arena) := by
    intro k
    rw [Grammar.parseStatement, get_bind]
    simp only [h.currentToken, left.2, if_true]
    rfl
  refine Outcome.succ (Outcome.congr hparse ?_)
  have hstart : Ahead (p.moved 0 p.arena) (left.1 :: (items.tokens ++ right.1 :: t :: tail)) := h
  refine outcome_advance hstart fun h => ?_
  refine (hitems 10000 right (0, 0) p 1 p.arena (t :: tail) hcount hT h).bind_sure
    (fun _ _ _ h => h.elim) ?_
  rintro chain _ ⟨a₁, rfl, hlaid⟩
  refine outcome_last (by simp; omega) fun off a' hput =>
    ⟨(hlaid.grows.trans (grows_of_put hput)).mono
        (by simp only [Source.tokens, List.length_cons, List.length_append]; omega)
        (by simp; omega),
      fun hroom => ?_⟩
  obtain ⟨s, first, hagrees, hfirst, -, hholds⟩ := hlaid.placed ((grows_of_put hput).room hroom)
    p.arena.nodeAllocated_pos fun _ => rfl
  rw [if_pos rfl] at hfirst
  have hpart : Part p.arena a₁ fun a'' => StmtAt a'' true first s ∧ Reads a'' items s :=
    ⟨⟨hlaid.grows.nodeAllocated, fun o n hn => hagrees.get (Nat.zero_le _) hn, hagrees.strings⟩,
      hholds⟩
  refine ⟨s, hpart.placed hput hroom rfl fun a'' next h hget => ?_⟩
  refine ⟨.compound hget rfl (hfirst ▸ h.1), .block h.2, fun node hnode => ?_⟩
  rw [hget] at hnode
  cases hnode
  simp [Source.blockItems?]

def Source.Read : {b : Bool} → Source T b → Prop
  | false, s => Reading s
  | true, items => ReadingItems items

/-- Every statement of the grammar is read to its end, and so are the items of a block. -/
theorem read_source {b : Bool} (src : Source T b) (hwf : src.WellFormed) : src.Read := by
  induction src with
  | nil => exact readingItems_nil
  | item s rest ihs ihrest => exact readingItems_item hwf.1 hwf.2 (ihs hwf.1) (ihrest hwf.2)
  | caseItem kw e colon rest ih => exact readingItems_case hwf.1 (ih hwf.2)
  | rangeItem kw lo dots hi colon rest ih => exact readingItems_range hwf.1 hwf.2.1 (ih hwf.2.2)
  | defaultItem kw colon rest ih => exact readingItems_default (ih hwf)
  | block left items right ih => exact reading_block hwf.1 (ih hwf.2)
  | empty semi => exact reading_empty
  | expr e semi => exact reading_expr hwf.1 hwf.2
  | ifThen kw left c right s ih => exact reading_ifThen hwf.1 (ih hwf.2)
  | ifElse kw left c right s kw' t ihs iht =>
    exact reading_ifElse hwf.1 hwf.2.1 (ihs hwf.2.2.1) (iht hwf.2.2.2)
  | while_ kw left c right s ih => exact reading_while hwf.1 (ih hwf.2)
  | doWhile kw s kw' left c right semi ih => exact reading_doWhile hwf.1 (ih hwf.2)
  | for_ kw left init semi cond semi' incr right s ih =>
    exact reading_for hwf.1 hwf.2.1 hwf.2.2.1 (ih hwf.2.2.2)
  | switch kw left c right s ih => exact reading_switch hwf.1 (ih hwf.2)
  | break_ kw semi => exact reading_break
  | continue_ kw semi => exact reading_continue
  | goto_ kw l semi => exact reading_goto
  | labeled l colon s ih => exact reading_labeled (ih hwf)
  | return_ kw e semi => exact reading_return hwf

/-- There is room for two nodes for each token and for each text twice. -/
structure Fits (a : Arena) (ts : List Token) : Prop where
  nodes : a.nodeAllocated + 2 * ts.length < a.nodeCapacity
  strings : a.stringAllocated + 2 * slots ts ≤ a.stringCapacity

theorem slotsNeeded_le_slots {b : Bool} (src : Source T b) :
    ∀ l ∈ src.labels, Arena.slotsNeeded l.utf8ByteSize ≤ slots src.tokens := by
  induction src with
  | item s rest ihs ihrest =>
    intro l hl
    simp only [Source.labels, List.mem_append] at hl
    have hslots := hl.imp (ihs l) (ihrest l)
    simp only [Source.tokens, slots_append]
    omega
  | ifElse kw left c right s kw' t ihs iht =>
    intro l hl
    simp only [Source.labels, List.mem_append] at hl
    have hslots := hl.imp (ihs l) (iht l)
    simp only [Source.tokens, slots_append, slots_cons]
    omega
  | labeled l colon s ih =>
    intro l' hl
    simp only [Source.labels, List.mem_cons] at hl
    simp only [Source.tokens, slots_cons]
    rcases hl with rfl | hl
    · omega
    · have hslots := ih l' hl
      omega
  | goto_ kw l semi =>
    intro l' hl
    simp only [Source.labels, List.mem_singleton] at hl
    simp only [Source.tokens, slots_cons, hl]
    omega
  | _ =>
    intro l hl
    first
      | exact absurd hl List.not_mem_nil
      | rename_i ih
        have hslots := ih l hl
        simp only [Source.tokens, slots_append, slots_cons]
        omega

theorem Fits.room {src : Source T false} {a a' : Arena} (h : Fits a src.tokens)
    (hgrows : Grows (2 * src.tokens.length) (slots src.tokens) a a') : Room a' src.labels := by
  obtain ⟨hnodes, hstrings⟩ := h
  have hnodes' := hgrows.nodes_le
  have hstrings' := hgrows.strings_le
  refine ⟨?_, fun l hl => ?_⟩
  · rw [hgrows.nodeCapacity]
    omega
  · have hslots := slotsNeeded_le_slots src l hl
    rw [hgrows.stringCapacity]
    omega

end Whole

section Runs

open Expressions (noTypedefs mark atomP expressionOf)

def keyword (s : String) : Keyword s := ⟨⟨.keyword, s, 1, 1, ""⟩, rfl, rfl⟩

def labelL : LabelName noTypedefs where
  token := nameToken "l"
  kind := rfl
  plain := by decide
  notType := by
    intro p hT hp
    rw [Parser.isTypeSpecifier, hp, hT]
    decide
  nonempty := by decide
  short := by decide

/-- `p` -/
def nameP : Phrase noTypedefs .expression := expressionOf (.suffixed (.atom atomP) .noSuffix)

/-- `{ l: while (p) if (p) break; else goto l; switch (p) { case p: ; default: p; } }` -/
def loopAndSwitch : Source noTypedefs false :=
  .block (mark "\x7b")
    (.item (.labeled labelL (mark ":") (.while_ (keyword "while") (mark "(") nameP (mark ")")
      (.ifElse (keyword "if") (mark "(") nameP (mark ")") (.break_ (keyword "break") (mark ";"))
        (keyword "else") (.goto_ (keyword "goto") labelL (mark ";")))))
    (.item (.switch (keyword "switch") (mark "(") nameP (mark ")") (.block (mark "\x7b")
      (.caseItem (keyword "case") (.binary (.suffixed (.atom atomP) .noSuffix) .noOperation)
        (mark ":") (.item (.empty (mark ";")) (.defaultItem (keyword "default") (mark ":")
          (.item (.expr nameP (mark ";")) .nil)))) (mark "\x7d"))) .nil)) (mark "\x7d")

theorem wellFormed_loopAndSwitch : loopAndSwitch.WellFormed := by
  have hp : ∀ t ∈ nameP.tokens.head?, t.text ∉ reserved := by
    rintro t ⟨⟩
    decide
  exact ⟨by decide, ⟨rfl, rfl, rfl, trivial, trivial⟩,
    ⟨rfl, by decide, rfl, trivial, ⟨rfl, hp⟩, trivial⟩, trivial⟩

/-- The parser in front of it and a semicolon. -/
def loopParser : Parser := parserAt (loopAndSwitch.tokens ++ [(mark ";").1])

theorem fits_loopAndSwitch : Fits loopParser.arena loopAndSwitch.tokens :=
  ⟨by decide, by decide⟩

end Runs

end OpticC.Statements
