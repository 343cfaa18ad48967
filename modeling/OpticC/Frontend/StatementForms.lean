import OpticC.Frontend.FirstTokens

/-! Every form of statement is read to its end, and its nodes are those of the statement. -/

namespace OpticC.Statements

open Expressions (Mark Phrase Level Outcome Never Ahead)
open Grammar (tied)

section Selection

variable {T : String → Bool}

theorem reading_ifThen {kw : Keyword "if"} {left : Mark "("} {c : Phrase T .expression}
    {right : Mark ")"} {s : Source T false} (hc : c.unbroken true = true) (hs : Reading s) :
    Reading (.ifThen kw left c right s) := by
  refine reading_of_keyword rfl (fun S fuel p _ h =>
    (parseStatement_keyword kw (by decide) h : _ = Grammar.parseIfStatement S p)) ?_
  intro q t tail hT h helse
  simp only [Source.tokens, List.cons_append, List.append_assoc] at h
  refine outcome_keyword kw h fun h => ?_
  refine outcome_condition hc hT h fun n a₁ hleaves h => ?_
  refine hs.outcome hT h (fun _ => helse rfl) fun off a₂ hlaid h => ?_
  have hnoElse : (Parser.isWord t && t.text == "else") = false := helse rfl
  refine Outcome.congr (fun k => get_bind _ _) ?_
  simp only [h.currentToken, hnoElse, Bool.false_eq_true, if_false, pure_bind]
  refine outcome_allocNode fun w₁ b₁ hput₁ => outcome_allocNode fun w₂ b₂ hput₂ =>
    outcome_last (by simp; omega) fun w b hput => ?_
  refine laid_of_put hput (((hleaves.grows.trans hlaid.grows).trans (grows_of_put hput₁)).trans
    (grows_of_put hput₂)) (by simp; omega) (by simp; omega)
    rfl rfl (by simp) fun hroom => ?_
  have hroom₁ := (grows_of_put hput₂).room hroom
  have hroom₂ := (grows_of_put hput₁).room hroom₁
  obtain ⟨s', hs'⟩ := hlaid.placed hroom₂
  refine ⟨.ite n s' .skip, ((((hleaves.part (hlaid.grows.room hroom₂)).trans hs'.part).trans
    (part_put hput₁ hroom₁)).trans (part_put hput₂ hroom)).mono fun a'' h next hget => ?_⟩
  obtain ⟨⟨⟨⟨hexpr, hn, -⟩, ⟨hstmt, hreads, -⟩, hoff, -⟩, hget₁, -⟩, hget₂, -⟩ := h
  exact ⟨.ifThen hget rfl hget₂ hn hget₁ hoff hstmt rfl, .ifThen hexpr hreads⟩

theorem isElse_keyword (kw : Keyword "else") : isElse kw.1 = true := by
  simp [isElse, kw.isWord, kw.2.2]

theorem reading_ifElse {kw : Keyword "if"} {left : Mark "("} {c : Phrase T .expression}
    {right : Mark ")"} {s : Source T false} {kw' : Keyword "else"} {t : Source T false}
    (hc : c.unbroken true = true) (hclosed : s.closed = true) (hs : Reading s) (ht : Reading t) :
    Reading (.ifElse kw left c right s kw' t) := by
  refine reading_of_keyword rfl (fun S fuel p _ h =>
    (parseStatement_keyword kw (by decide) h : _ = Grammar.parseIfStatement S p)) ?_
  intro q u tail hT h helse
  simp only [Source.tokens, List.cons_append, List.append_assoc] at h
  refine outcome_keyword kw h fun h => ?_
  refine outcome_condition hc hT h fun n a₁ hleaves h => ?_
  refine hs.outcome hT h (fun hopen => ?_) fun off₁ a₂ hlaid₁ h => ?_
  · rw [hclosed] at hopen
    cases hopen
  have htaken : (Parser.isWord kw'.1 && kw'.1.text == "else") = true := isElse_keyword kw'
  refine Outcome.congr (fun k => get_bind _ _) ?_
  simp only [h.currentToken, htaken, if_true]
  refine Outcome.step (Expressions.advance_ahead h) ?_
  have hnext := h.next (q.moved (0 + 1 + c.tokens.length + 2 + s.tokens.length) a₂).arena
  rw [Parser.moved_moved] at hnext ⊢
  refine ht.outcome hT hnext helse fun off₂ a₃ hlaid₂ h => ?_
  refine outcome_allocNode fun w₁ b₁ hput₁ => outcome_allocNode fun w₂ b₂ hput₂ =>
    outcome_last (by simp; omega) fun w b hput => ?_
  refine laid_of_put hput ((((hleaves.grows.trans hlaid₁.grows).trans hlaid₂.grows).trans
    (grows_of_put hput₁)).trans (grows_of_put hput₂)) (by simp; omega) (by simp; omega)
    rfl rfl (by simp) fun hroom => ?_
  have hroom₁ := (grows_of_put hput₂).room hroom
  have hroom₂ := (grows_of_put hput₁).room hroom₁
  have hroom₃ := hlaid₂.grows.room hroom₂
  obtain ⟨s', hs'⟩ := hlaid₁.placed (hroom₃.subset (List.subset_append_left _ _))
  obtain ⟨t', ht'⟩ := hlaid₂.placed (hroom₂.subset (List.subset_append_right _ _))
  refine ⟨.ite n s' t', (((((hleaves.part (hlaid₁.grows.room hroom₃)).trans hs'.part).trans
    ht'.part).trans (part_put hput₁ hroom₁)).trans (part_put hput₂ hroom)).mono
    fun a'' h next hget => ?_⟩
  obtain ⟨⟨⟨⟨⟨hexpr, hn, -⟩, ⟨hs, hreadS, -⟩, hoff₁, -⟩, ⟨ht, hreadT, -⟩, hoff₂, -⟩, hget₁, -⟩,
    hget₂, -⟩ := h
  exact ⟨.ifElse hget rfl hget₂ hn hget₁ hoff₁ hs hoff₂ ht, .ifElse hexpr hreadS hreadT⟩

end Selection

section Loops

variable {T : String → Bool}

theorem reading_while {kw : Keyword "while"} {left : Mark "("} {c : Phrase T .expression}
    {right : Mark ")"} {s : Source T false} (hc : c.unbroken true = true) (hs : Reading s) :
    Reading (.while_ kw left c right s) := by
  refine reading_of_keyword rfl (fun S fuel p _ h =>
    (parseStatement_keyword kw (by decide) h : _ = Grammar.parseWhileStatement S p)) ?_
  intro q t tail hT h helse
  simp only [Source.tokens, List.cons_append, List.append_assoc] at h
  refine outcome_keyword kw h fun h => ?_
  refine outcome_condition hc hT h fun n a₁ hleaves h => ?_
  refine hs.outcome hT h helse fun off a₂ hlaid h => ?_
  refine outcome_allocNode fun w₁ b₁ hput₁ => outcome_last (by simp; omega) fun w b hput => ?_
  refine laid_of_put hput ((hleaves.grows.trans hlaid.grows).trans (grows_of_put hput₁))
    (by simp; omega) (by simp; omega) rfl rfl (by simp) fun hroom => ?_
  have hroom₁ := (grows_of_put hput₁).room hroom
  obtain ⟨s', hs'⟩ := hlaid.placed hroom₁
  refine ⟨.while_ n s', (((hleaves.part (hlaid.grows.room hroom₁)).trans hs'.part).trans
    (part_put hput₁ hroom)).mono fun a'' h next hget => ?_⟩
  obtain ⟨⟨⟨hexpr, hn, -⟩, ⟨hstmt, hreads, -⟩, hoff, -⟩, hget₁, -⟩ := h
  exact ⟨.while_ hget rfl (by simp) hget₁ hn hoff hstmt, .while_ hexpr hreads⟩

/-- A semicolon that may stand there. -/
theorem outcome_skip {α : Type} {q : Parser} {k : ℕ} {a : Arena} {tail : List Token}
    {Q : α → Parser → Prop} {s : String} (mark : Mark s) (h : Ahead (q.moved k a) (mark.1 :: tail))
    {g : ℕ → Bool → ParserM α} (hg : Ahead (q.moved (k + 1) a) tail →
      Outcome Never (fun i => g i true) (q.moved (k + 1) a) true Q) :
    Outcome Never (fun i => skipPunctuator s >>= g i) (q.moved k a) true Q := by
  refine Outcome.step (Expressions.skipPunctuator_ahead h mark.2) ?_
  have hnext := h.next a
  rw [Parser.moved_moved] at hnext
  show Outcome Never (fun i => g i true) ((q.moved k a).moved 1 a) true Q
  rw [Parser.moved_moved]
  exact hg hnext

/-- Only the next sibling of the node at `off` changes. -/
theorem Agrees.setNextSibling {a : Arena} {off lo root : ℕ} (next : ℕ) (h : off < lo ∨ off = root) :
    Agrees a (a.setNextSibling off next) lo root := by
  refine ⟨fun o n ho hne hn => ?_, fun n hn => ?_, fun o s hs => ?_⟩
  · have hoff : o ≠ off := by omega
    rw [Arena.setNextSibling, StatementExpr.get_modify_of_ne _ hoff]
    exact hn
  · by_cases hoff : root = off
    · subst hoff
      exact ⟨next, StatementExpr.get_modify_self _ hn⟩
    · refine ⟨n.nextSibling, ?_⟩
      rw [Arena.setNextSibling, StatementExpr.get_modify_of_ne _ hoff]
      exact hn
  · unfold Arena.setNextSibling Arena.modify
    split_ifs
    · exact hs
    · exact ⟨hs.1, hs.2, hs.3, hs.4, hs.5, hs.6⟩

/-- The condition of a `do` hangs behind its body. -/
theorem Placed.behind {a a₁ a₂ : Arena} {off n : ℕ} {R : Arena → Prop} {l : Expressions.Level}
    {c : Phrase T l} {labels : List String} (h : Placed a off a₁ R) (hc : Leaves c a₁ n a₂)
    (hroom : Room a₂ labels) : Part a (a₂.setNextSibling off n) fun a'' => R a'' ∧ off ≠ 0 ∧
      (∃ node, a''.get off = some node ∧ node.nextSibling = n) ∧ ExprAt a'' c n ∧ n ≠ 0 := by
  obtain ⟨node, hget, -⟩ := h.node
  have hlt := (NodeForest.lt_of_get hget).2
  have hset : Agrees a₁ (a₂.setNextSibling off n) a.nodeAllocated off :=
    (Agrees.of_extends hc.extends_ _ _).trans (Agrees.setNextSibling n (.inr rfl))
  refine ⟨NodeForest.Owns.extends_modify (h.extends_.trans hc.extends_) (.inr h.fresh),
    fun a'' ha => ⟨h.holds a'' (hset.trans (ha.narrow (Nat.le_refl _) h.fresh)), h.ne_zero,
      ⟨_, ha.get h.fresh (StatementExpr.get_modify_self _ (hc.extends_.nodes _ _ hget)), rfl⟩, ?_,
      (hc.root hroom).ne_zero⟩⟩
  have hle := h.extends_.allocated
  exact ⟨a₁, a₂, hc.builds, (Agrees.setNextSibling n (.inl hlt)).trans
    (ha.narrow hle (Nat.le_trans hle (hc.le hroom)))⟩

/-- A node that is linked behind another one. -/
theorem outcome_setNextSibling {α : Type} {q : Parser} {k : ℕ} {a : Arena} {off next : ℕ}
    {Q : α → Parser → Prop} {g : ℕ → ParserM α}
    (hg : Outcome Never g (q.moved k (a.setNextSibling off next)) true Q) :
    Outcome Never (fun i => setNextSibling off next >>= fun _ => g i) (q.moved k a) true Q :=
  Outcome.step rfl hg

theorem reading_doWhile {kw : Keyword "do"} {s : Source T false} {kw' : Keyword "while"}
    {left : Mark "("} {c : Phrase T .expression} {right : Mark ")"} {semi : Mark ";"}
    (hc : c.unbroken true = true) (hs : Reading s) :
    Reading (.doWhile kw s kw' left c right semi) := by
  refine reading_of_keyword rfl (fun S fuel p _ h =>
    (parseStatement_keyword kw (by decide) h : _ = Grammar.parseDoStatement S p)) ?_
  intro q t tail hT h _
  simp only [Source.tokens, List.cons_append, List.append_assoc, List.nil_append] at h
  refine outcome_keyword kw h fun h => ?_
  refine hs.outcome hT h (fun _ => by simp [isElse, kw'.2.2]) fun off a₁ hlaid h => ?_
  refine outcome_keyword kw' h fun h => ?_
  refine outcome_condition hc hT h fun n a₂ hleaves h => ?_
  refine outcome_skip semi h fun h => ?_
  refine outcome_setNextSibling (outcome_last (by simp; omega) fun w b hput => ?_)
  refine laid_of_put hput ((hlaid.grows.trans hleaves.grows).trans (grows_setNextSibling _ _ _))
    (by simp; omega) (by simp; omega) rfl rfl (by simp) fun hroom => ?_
  have hroom₁ := (grows_setNextSibling _ _ _).room hroom
  obtain ⟨s', hs'⟩ := hlaid.placed (hleaves.grows.room hroom₁)
  refine ⟨.doWhile s' n, (hs'.behind hleaves hroom₁).mono fun a'' h next hget => ?_⟩
  obtain ⟨⟨hstmt, hreads, -⟩, hoff, ⟨node, hnode, rfl⟩, hexpr, hn⟩ := h
  exact ⟨.doWhile hget rfl rfl hoff hnode hn hstmt, .doWhile hexpr hreads⟩

end Loops

section Clauses

variable {T : String → Bool} {β : Type} {q : Parser} {k : ℕ} {a : Arena} {tail : List Token}

/-- An expression in front of the token that ends it, or that token alone. -/
theorem outcome_optional {e : Option (Phrase T .expression)} (he : Source.Unbroken e)
    (hT : q.typedefNames = T) {s : String} (hs : s ∈ [")", ";"]) (mark : Mark s)
    (h : Ahead (q.moved k a) (optional e ++ mark.1 :: tail)) {none_ : ℕ → ParserM β}
    {some_ : ℕ → ℕ → ParserM β} {Q : β → Parser → Prop}
    (hnone : e = none → Ahead (q.moved (k + 1) a) tail →
      Outcome Never none_ (q.moved (k + 1) a) true Q)
    (hsome : ∀ e' n a', e = some e' → Leaves e' a n a' →
      Ahead (q.moved (k + e'.tokens.length + 1) a') tail →
      Outcome Never (fun i => some_ i n) (q.moved (k + e'.tokens.length + 1) a') true Q) :
    Outcome Never (fun i => skipPunctuator s >>= fun found =>
      if found = true then none_ i
      else (tied i).expression >>= fun n => skipPunctuator s >>= fun _ => some_ i n)
      (q.moved k a) true Q := by
  cases e with
  | none => exact outcome_skip mark h fun h => hnone rfl h
  | some e =>
    have hstops : Stops mark.1 := by
      refine Expressions.stops_of_isPunct mark.2 ?_
      simp only [List.mem_cons, List.not_mem_nil, or_false] at hs ⊢
      exact hs.imp id fun hs => .inr (.inr hs)
    have hcolon : NoColon (mark.1 :: tail) := by
      refine noColon_mark mark tail ?_
      rintro rfl
      exact absurd hs (by decide)
    obtain ⟨t, rest, htokens, hbegins, -⟩ := phrase_begins e rfl hcolon
    have hnot : Parser.isPunct t s = false := by
      refine hbegins.not_isPunct ?_
      simp only [List.mem_cons, List.not_mem_nil, or_false] at hs
      rcases hs with rfl | rfl <;> decide
    have hahead : Ahead (q.moved k a) (t :: rest) := by
      rw [← htokens]
      exact h
    refine Outcome.step (Expressions.not_skipPunctuator_ahead hahead hnot) ?_
    refine outcome_whole (he e rfl) hT hstops h fun n a' hleaves h => ?_
    exact outcome_skip mark h fun h => hsome e n a' rfl hleaves h

/-- Behind the token that ends a clause. -/
theorem ahead_clause {ts : List Token} {t : Token} (h : Ahead (q.moved k a) (ts ++ t :: tail))
    (a' : Arena) : Ahead (q.moved (k + ts.length + 1) a') tail := by
  have hnext := (h.moved rfl a').next a'
  rwa [Parser.moved_moved, Parser.moved_moved, ← Nat.add_assoc] at hnext

/-- Nodes that are allocated for a clause, of which `R` holds if there is room. -/
structure Allots (ts : List Token) (a a' : Arena) (R : Arena → Prop) : Prop where
  grows : Grows (2 * ts.length + 1) (slots ts) a a'
  part : ∀ labels, Room a' labels → Part a a' R

theorem allots_put {n : CAstNode} {w : ℕ} {a b : Arena} {R : Arena → Prop} (hput : a.put n = (w, b))
    (hR : ∀ a'', a''.get w = some n → w ≠ 0 → R a'') : Allots [] a b R :=
  ⟨grows_of_put hput, fun _ hroom => (part_put hput hroom).mono fun a'' h => hR a'' h.1 h.2⟩

theorem Leaves.allots {l : Level} {e : Phrase T l} {a a' : Arena} {n : ℕ} {R : Arena → Prop}
    (h : Leaves e a n a') (hR : ∀ a'', ExprAt a'' e n → n ≠ 0 → IsRoot a'' n → R a'') :
    Allots e.tokens a a' R :=
  ⟨h.grows.mono (Nat.le_succ _) (Nat.le_refl _), fun _ hroom =>
    (h.part hroom).mono fun a'' h => hR a'' h.1 h.2.1 h.2.2⟩

/-- The first clause of a `for` as a statement. -/
def initStmt : Option (Phrase T .expression) → ℕ → Stmt
  | none, _ => .skip
  | some _, n => .expr n

theorem outcome_forInit {init : Option (Phrase T .expression)} (hinit : Source.Unbroken init)
    (hT : q.typedefNames = T) (semi : Mark ";")
    (h : Ahead (q.moved k a) (optional init ++ semi.1 :: tail)) :
    Outcome Never (fun i => Grammar.parseForInit (tied i)) (q.moved k a) true fun n q' =>
      ∃ a', q' = q.moved (k + (optional init).length + 1) a' ∧ Allots (optional init) a a' fun a'' =>
        n ≠ 0 ∧ StmtAt a'' false n (initStmt init n) ∧ InitAt a'' init (initStmt init n) := by
  have hspecifier : (q.moved k a).isTypeSpecifier = false := by
    cases init with
    | none => exact isTypeSpecifier_of_isPunct h.currentToken semi.2
    | some e =>
      obtain ⟨t, rest, htokens, hbegins, -⟩ := phrase_begins e rfl (noColon_mark semi tail (by decide))
      have hahead : Ahead (q.moved k a) (t :: rest) := by
        rw [← htokens]
        exact h
      exact (Bool.or_eq_false_iff.1 (hbegins.opens.notType (q.moved k a) hT hahead.currentToken)).1
  refine Outcome.congr (fun i => by
    rw [Grammar.parseForInit, get_bind, hspecifier, if_neg Bool.false_ne_true]) ?_
  refine outcome_optional hinit hT (by decide) semi h ?_ ?_
  · rintro rfl h
    refine outcome_last rfl fun w b hput => allots_put hput fun a'' hget hw => ?_
    exact ⟨hw, .empty hget rfl, rfl⟩
  · rintro e n a' rfl hleaves h
    refine Outcome.pure ⟨a', rfl, hleaves.allots fun a'' hexpr hn hroot => ?_⟩
    obtain ⟨node, hget, hkind⟩ := hroot
    exact ⟨hn, .bareExpr hget hkind, n, hexpr, rfl⟩

theorem outcome_forCondition {cond : Option (Phrase T .expression)} (hcond : Source.Unbroken cond)
    (hT : q.typedefNames = T) (semi : Mark ";")
    (h : Ahead (q.moved k a) (optional cond ++ semi.1 :: tail)) :
    Outcome Never (fun i => Grammar.parseForCondition (tied i)) (q.moved k a) true fun n q' =>
      ∃ a', q' = q.moved (k + (optional cond).length + 1) a' ∧ Allots (optional cond) a a' fun a'' =>
        n ≠ 0 ∧ ConditionAt a'' cond n := by
  refine outcome_optional hcond hT (by decide) semi h ?_ ?_
  · rintro rfl h
    exact outcome_last rfl fun w b hput => allots_put hput fun a'' hget hw => ⟨hw, _, hget, rfl, rfl⟩
  · rintro e n a' rfl hleaves h
    exact Outcome.pure ⟨a', rfl, hleaves.allots fun a'' hexpr hn _ => ⟨hn, hexpr⟩⟩

theorem outcome_forIncrement {incr : Option (Phrase T .expression)} (hincr : Source.Unbroken incr)
    (hT : q.typedefNames = T) (right : Mark ")")
    (h : Ahead (q.moved k a) (optional incr ++ right.1 :: tail)) :
    Outcome Never (fun i => Grammar.parseForIncrement (tied i)) (q.moved k a) true fun n q' =>
      ∃ a', q' = q.moved (k + (optional incr).length + 1) a' ∧ Allots (optional incr) a a' fun a'' =>
        OperandAt a'' incr (if n = 0 then none else some n) := by
  refine outcome_optional hincr hT (by decide) right h ?_ ?_
  · rintro rfl h
    exact Outcome.pure ⟨a, rfl, (Grows.refl a).mono (Nat.zero_le _) (Nat.zero_le _),
      fun _ _ => ⟨Arena.Extends.refl a, fun _ _ => rfl⟩⟩
  · rintro e n a' rfl hleaves h
    refine Outcome.pure ⟨a', rfl, hleaves.allots fun a'' hexpr hn _ => ⟨n, hexpr, if_neg hn⟩⟩

theorem reading_for {kw : Keyword "for"} {left : Mark "("} {init : Option (Phrase T .expression)}
    {semi : Mark ";"} {cond : Option (Phrase T .expression)} {semi' : Mark ";"}
    {incr : Option (Phrase T .expression)} {right : Mark ")"} {s : Source T false}
    (hinit : Source.Unbroken init) (hcond : Source.Unbroken cond) (hincr : Source.Unbroken incr)
    (hs : Reading s) : Reading (.for_ kw left init semi cond semi' incr right s) := by
  refine reading_of_keyword rfl (fun S fuel p _ h =>
    (parseStatement_keyword kw (by decide) h : _ = Grammar.parseForStatement S p)) ?_
  intro q t tail hT h helse
  simp only [Source.tokens, List.cons_append, List.append_assoc] at h
  refine outcome_keyword kw h fun h => ?_
  refine outcome_expect left h fun h => ?_
  refine (outcome_forInit hinit hT semi h).bind_sure (fun _ _ _ h => h.elim) ?_
  rintro n₁ _ ⟨a₁, rfl, hallots₁⟩
  refine (outcome_forCondition hcond hT semi' (ahead_clause h a₁)).bind_sure
    (fun _ _ _ h => h.elim) ?_
  rintro n₂ _ ⟨a₂, rfl, hallots₂⟩
  refine (outcome_forIncrement hincr hT right (ahead_clause (ahead_clause h a₁) a₂)).bind_sure
    (fun _ _ _ h => h.elim) ?_
  rintro n₃ _ ⟨a₃, rfl, hallots₃⟩
  refine hs.outcome hT (ahead_clause (ahead_clause (ahead_clause h a₁) a₂) a₃) helse
    fun off a₄ hlaid h => ?_
  refine outcome_allocNode fun w₁ b₁ hput₁ => outcome_allocNode fun w₂ b₂ hput₂ =>
    outcome_allocNode fun w₃ b₃ hput₃ => outcome_last (by simp; omega) fun w b hput => ?_
  have hgrows₂ := (grows_of_put hput₂).trans (grows_of_put hput₃)
  have hgrows₁ := (grows_of_put hput₁).trans hgrows₂
  refine laid_of_put hput ((((hallots₁.grows.trans hallots₂.grows).trans hallots₃.grows).trans
    hlaid.grows).trans hgrows₁) (by simp; omega) (by simp; omega)
    rfl rfl (by simp) fun hroom => ?_
  have hroom₄ := hgrows₁.room hroom
  have hroom₃ := hlaid.grows.room hroom₄
  have hroom₂ := hallots₃.grows.room hroom₃
  obtain ⟨s', hs'⟩ := hlaid.placed hroom₄
  have hwraps := ((part_put hput₁ (hgrows₂.room hroom)).trans
    (part_put hput₂ ((grows_of_put hput₃).room hroom))).trans (part_put hput₃ hroom)
  refine ⟨.seq (initStmt init n₁) (.for_ n₂ (if n₃ = 0 then none else some n₃) s'),
    (((((hallots₁.part _ (hallots₂.grows.room hroom₂)).trans (hallots₂.part _ hroom₂)).trans
      (hallots₃.part _ hroom₃)).trans hs'.part).trans hwraps).mono fun a'' h next hget => ?_⟩
  obtain ⟨⟨⟨⟨⟨hn₁, hinit, hinitAt⟩, hn₂, hcondAt⟩, hincrAt⟩, ⟨hstmt, hreads, -⟩, hoff, -⟩,
    ⟨⟨hget₁, -⟩, hget₂, -⟩, hget₃, -⟩ := h
  exact ⟨.for_ hget rfl hget₃ hget₂ hget₁ hn₁ hinit hn₂ hoff hstmt,
    .for_ hinitAt hcondAt hincrAt hreads⟩

end Clauses

section Switches

variable {T : String → Bool} {a : Arena} {off : ℕ} {n : CAstNode} {s : Stmt}

/-- The items of a statement whose node is that of a block. -/
theorem stmtAt_items (h : StmtAt a false off s) (hget : a.get off = some n) (hkind : n.kind = 40) :
    StmtAt a true n.firstChild s := by
  cases h with
  | compound hget' _ hitems =>
    rw [hget] at hget'
    cases hget'
    exact hitems
  | _ => simp_all [isExprKind]

theorem reads_items {src : Source T false} {items : Source T true}
    (hsrc : src.blockItems? = some items) (h : Reads a src s) : Reads a items s := by
  cases src with
  | block left items right =>
    cases hsrc
    cases h with
    | block h => exact h
  | _ => cases hsrc

theorem reading_switch {kw : Keyword "switch"} {left : Mark "("} {c : Phrase T .expression}
    {right : Mark ")"} {s : Source T false} (hc : c.unbroken true = true) (hs : Reading s) :
    Reading (.switch kw left c right s) := by
  refine reading_of_keyword rfl (fun S fuel p _ h =>
    (parseStatement_keyword kw (by decide) h : _ = Grammar.parseSwitchStatement S p)) ?_
  intro q t tail hT h helse
  simp only [Source.tokens, List.cons_append, List.append_assoc] at h
  refine outcome_keyword kw h fun h => ?_
  refine outcome_condition hc hT h fun n a₁ hleaves h => ?_
  refine hs.outcome hT h helse fun off a₂ hlaid h => ?_
  refine outcome_allocNode fun w₁ b₁ hput₁ => outcome_last (by simp; omega) fun w b hput => ?_
  refine laid_of_put hput ((hleaves.grows.trans hlaid.grows).trans (grows_of_put hput₁))
    (by simp; omega) (by simp; omega) rfl rfl (by simp) fun hroom => ?_
  have hroom₁ := (grows_of_put hput₁).room hroom
  obtain ⟨s', hs'⟩ := hlaid.placed hroom₁
  have hpart := ((hleaves.part (hlaid.grows.room hroom₁)).trans hs'.part).trans
    (part_put hput₁ hroom)
  cases hblock : s.blockItems? with
  | some items =>
    refine ⟨.switch n s', hpart.mono fun a'' h next hget => ?_⟩
    obtain ⟨⟨⟨hexpr, hn, -⟩, ⟨hstmt, hreads, hkind⟩, hoff, node, hnode, -⟩, hget₁, -⟩ := h
    have hkind : node.kind = 40 := (hkind node hnode).2 (by rw [hblock]; rfl)
    refine ⟨.switch hget rfl hget₁ hn hnode ?_, .switchItems hexpr hblock (reads_items hblock hreads)⟩
    rw [if_pos hkind]
    exact stmtAt_items hstmt hnode hkind
  | none =>
    refine ⟨.switch n (.seq s' .skip), hpart.mono fun a'' h next hget => ?_⟩
    obtain ⟨⟨⟨hexpr, hn, -⟩, ⟨hstmt, hreads, hkind⟩, hoff, node, hnode, hnext⟩, hget₁, -⟩ := h
    have hkind : node.kind ≠ 40 := by
      intro h40
      have hsome := (hkind node hnode).1 h40
      rw [hblock] at hsome
      cases hsome
    refine ⟨.switch hget rfl hget₁ hn hnode ?_, .switchSingle hexpr hblock hreads⟩
    rw [if_neg hkind]
    refine .item hnode hstmt ?_
    rw [hnext]
    exact .nil

end Switches

section Jumps

variable {T : String → Bool}

/-- A token that is passed over. -/
theorem outcome_advance {α : Type} {q : Parser} {k : ℕ} {a : Arena} {t : Token} {tail : List Token}
    {Q : α → Parser → Prop} (h : Ahead (q.moved k a) (t :: tail)) {g : ℕ → ParserM α}
    (hg : Ahead (q.moved (k + 1) a) tail → Outcome Never g (q.moved (k + 1) a) true Q) :
    Outcome Never (fun i => advance >>= fun _ => g i) (q.moved k a) true Q := by
  refine Outcome.step (Expressions.advance_ahead h) ?_
  have hnext := h.next a
  rw [Parser.moved_moved] at hnext
  show Outcome Never g ((q.moved k a).moved 1 a) true Q
  rw [Parser.moved_moved]
  exact hg hnext

theorem reading_break {kw : Keyword "break"} {semi : Mark ";"} :
    Reading (.break_ kw semi : Source T false) := by
  refine reading_of_keyword rfl (fun S fuel p _ h =>
    (parseStatement_keyword kw (by decide) h : _ = Grammar.parseJump 46 p)) ?_
  intro q t tail hT h _
  refine outcome_advance h fun h => outcome_skip semi h fun h => ?_
  refine outcome_last rfl fun w b hput => laid_of_put hput (Grows.refl _) (by simp) (by simp) rfl
    rfl (by simp) fun _ => ?_
  exact ⟨.break_, Arena.Extends.refl _, fun a'' _ next hget => ⟨.break_ hget rfl, .break_⟩⟩

theorem reading_continue {kw : Keyword "continue"} {semi : Mark ";"} :
    Reading (.continue_ kw semi : Source T false) := by
  refine reading_of_keyword rfl (fun S fuel p _ h =>
    (parseStatement_keyword kw (by decide) h : _ = Grammar.parseJump 47 p)) ?_
  intro q t tail hT h _
  refine outcome_advance h fun h => outcome_skip semi h fun h => ?_
  refine outcome_last rfl fun w b hput => laid_of_put hput (Grows.refl _) (by simp) (by simp) rfl
    rfl (by simp) fun _ => ?_
  exact ⟨.continue_, Arena.Extends.refl _, fun a'' _ next hget => ⟨.continue_ hget rfl, .continue_⟩⟩

theorem reading_return {kw : Keyword "return"} {e : Option (Phrase T .expression)} {semi : Mark ";"}
    (he : Source.Unbroken e) : Reading (.return_ kw e semi) := by
  refine reading_of_keyword rfl (fun S fuel p _ h =>
    (parseStatement_keyword kw (by decide) h : _ = Grammar.parseReturnStatement S p)) ?_
  intro q t tail hT h _
  simp only [Source.tokens, List.cons_append, List.append_assoc, List.nil_append] at h
  refine outcome_keyword kw h fun h => ?_
  refine outcome_optional he hT (by decide) semi h ?_ ?_
  · rintro rfl h
    refine outcome_last rfl fun w b hput =>
      laid_of_put hput (Grows.refl _) (by simp) (by simp) rfl rfl (by simp) fun _ => ?_
    exact ⟨.return_ none, Arena.Extends.refl _, fun a'' _ next hget =>
      ⟨.return_ hget rfl, .return_ rfl⟩⟩
  · rintro e n a' rfl hleaves h
    have hlen : 2 * e.tokens.length + 1 ≤ 2 * (Source.return_ kw (some e) semi).tokens.length := by
      simp only [Source.tokens, optional, List.length_cons, List.length_append]
      omega
    refine outcome_last (by simp; omega) fun w b hput =>
      laid_of_put hput hleaves.grows hlen (by simp; omega) rfl rfl (by simp) fun hroom => ?_
    refine ⟨.return_ (some n), (hleaves.part hroom).mono fun a'' h next hget => ?_⟩
    obtain ⟨hexpr, hn, -⟩ := h
    have hstmt := StmtAt.return_ hget rfl
    rw [if_neg hn] at hstmt
    exact ⟨hstmt, .return_ ⟨n, hexpr, rfl⟩⟩

end Jumps

section Labels

variable {T : String → Bool}

/-- A label that is stored. -/
theorem part_intern {a : Arena} (l : LabelName T) {labels : List String}
    (hroom : Room (a.intern l.token.text).2 (l.token.text :: labels)) :
    Part a (a.intern l.token.text).2 fun a'' => (a.intern l.token.text).1 ≠ 0 ∧
      a''.getString (a.intern l.token.text).1 = some l.token.text := by
  obtain ⟨hne, hholds⟩ := getString_intern l.nonempty.1 l.short hroom
  exact ⟨extends_intern a _, fun a'' ha =>
    ⟨hne, Arena.getString_of_holds (ha.strings _ _ hholds)⟩⟩

theorem reading_goto {kw : Keyword "goto"} {l : LabelName T} {semi : Mark ";"} :
    Reading (.goto_ kw l semi) := by
  refine reading_of_keyword rfl (fun S fuel p _ h =>
    (parseStatement_keyword kw (by decide) h : _ = Grammar.parseGotoStatement S p)) ?_
  intro q t tail hT h _
  simp only [Source.tokens, List.cons_append, List.nil_append] at h
  refine outcome_keyword kw h fun h => ?_
  refine Outcome.congr (fun k => get_bind _ _) ?_
  simp only [h.currentToken, if_neg l.nonempty.2, if_pos l.kind]
  refine outcome_advance h fun h => outcome_skip semi h fun h => ?_
  refine Outcome.step (storeString_eq _ _) ?_
  refine outcome_last rfl fun w b hput => laid_of_put hput (grows_intern _ _) (by simp)
    (by simp; omega) rfl rfl (by simp) fun hroom => ?_
  refine ⟨.goto_ l.token.text, (part_intern l hroom).mono fun a'' h next hget => ?_⟩
  exact ⟨.goto_ hget rfl h.1 h.2 l.nonempty.1, .goto_⟩

/-- A statement that begins with a token that is no keyword of a statement. -/
theorem parseStatement_plain {S : Grammar} {fuel : ℕ} {p : Parser} {t : Token} {tail : List Token}
    (h : Ahead p (t :: tail)) (hbrace : Parser.isPunct t "\x7b" = false)
    (ht : Parser.isWord t = true → t.text ∉ reserved) :
    Grammar.parseStatement S fuel p = Grammar.parsePlainStatement S p := by
  have hattribute : p.isAttribute = false := by
    unfold Parser.isAttribute
    rw [h.currentToken]
    by_cases hword : Parser.isWord t = true
    · have hne : t.text ≠ "__attribute__" := by
        intro heq
        have hres := ht hword
        rw [heq] at hres
        exact hres (by decide)
      simp [hne]
    · simp [Bool.eq_false_iff.2 hword]
  rw [Grammar.parseStatement, get_bind]
  simp only [h.currentToken, hbrace, hattribute, Bool.false_eq_true, if_false]
  split
  · rename_i hword
    have hres := ht hword
    generalize t.text = text at hres
    refine congrFun ?_ p
    split
    all_goals first
      | rfl
      | exact absurd hres (by decide)
  · rfl

/-- A statement that begins with such a token is read if its production reads it. -/
theorem reading_of_plain {src : Source T false} (parse : Grammar → ParserM ℕ)
    (hparse : ∀ S (q : Parser) t tail, q.typedefNames = T → Ahead q (src.tokens ++ t :: tail) →
      ∃ u rest, src.tokens ++ t :: tail = u :: rest ∧ Parser.isPunct u "\x7b" = false ∧
        (Parser.isWord u = true → u.text ∉ reserved) ∧ Grammar.parsePlainStatement S q = parse S q)
    (h : ∀ (q : Parser) (t : Token) (tail : List Token), q.typedefNames = T →
      Ahead (q.moved 0 q.arena) (src.tokens ++ t :: tail) →
      (src.closed = false → isElse t = false) →
      Outcome Never (fun k => parse (tied k)) (q.moved 0 q.arena) true fun off q' =>
        ∃ a, q' = q.moved src.tokens.length a ∧ Laid src q.arena off a) : Reading src := by
  intro p t tail hT hahead helse
  refine Outcome.succ (Outcome.congr (fun k => ?_) (h p t tail hT hahead helse))
  obtain ⟨u, rest, htokens, hbrace, hwords, hplain⟩ := hparse (tied k) p t tail hT hahead
  rw [htokens] at hahead
  exact (parseStatement_plain hahead hbrace hwords).trans hplain

theorem reading_labeled {l : LabelName T} {colon : Mark ":"} {s : Source T false} (hs : Reading s) :
    Reading (.labeled l colon s) := by
  refine reading_of_plain (fun S => Grammar.parseLabeledStatement S l.token.text) ?_ ?_
  · intro S q t tail hT h
    refine ⟨_, _, rfl, isPunct_of_kind (by rw [l.kind]; decide), fun _ => l.plain, ?_⟩
    have hcolon : q.peekToken 1 = some colon.1 := (h.next q.arena).getElem?
    rw [Grammar.parsePlainStatement, get_bind]
    simp only [h.currentToken, l.kind, hcolon, Option.any_some, colon.2, decide_true,
      Bool.and_true, if_true]
  · intro q t tail hT h helse
    simp only [Source.tokens, List.cons_append] at h
    refine outcome_advance h fun h => outcome_advance h fun h => ?_
    refine Outcome.step (storeString_eq _ _) ?_
    refine hs.outcome (a := (q.arena.intern l.token.text).2) hT h helse fun off a₁ hlaid h => ?_
    refine outcome_last (by simp; omega) fun w b hput => ?_
    have hlen : 0 + 2 * s.tokens.length + 1 ≤ 2 * (Source.labeled l colon s).tokens.length := by
      simp only [Source.tokens, List.length_cons]
      omega
    refine laid_of_put hput ((grows_intern _ _).trans hlaid.grows) hlen (by simp) rfl rfl (by simp)
      fun hroom => ?_
    obtain ⟨s', hs'⟩ := hlaid.placed (hroom.subset (List.subset_cons_self _ _))
    refine ⟨.labeled l.token.text s', ((part_intern l (hlaid.grows.room hroom)).trans
      hs'.part).mono fun a'' h next hget => ?_⟩
    obtain ⟨⟨hne, hstring⟩, ⟨hstmt, hreads, -⟩, hoff, -⟩ := h
    exact ⟨.labeled hget rfl hne hstring l.nonempty.1 hoff hstmt, .labeled hreads⟩

end Labels

section Expressions

variable {T : String → Bool}

/-- No label stands at the token. -/
theorem parsePlainStatement_eq {S : Grammar} {q : Parser} {t : Token} {rest : List Token}
    (h : Ahead q (t :: rest)) (hcolon : t.kind = .identifier → NoColon rest) :
    Grammar.parsePlainStatement S q = Grammar.parseExpressionStatement S q := by
  have hlabel : ¬(t.kind = .identifier ∧ (q.peekToken 1).any (Parser.isPunct · ":") = true) := by
    rintro ⟨hkind, hany⟩
    have hpeek : q.peekToken 1 = rest.head? := by
      cases rest with
      | nil =>
        have hdrop : q.tokens.drop (q.current + 1) = [] := by
          rw [← List.drop_drop, h]
          rfl
        exact List.getElem?_eq_none (List.drop_eq_nil_iff.1 hdrop)
      | cons u rest => exact (h.next q.arena).getElem?
    rw [hpeek, Option.any_eq_true] at hany
    obtain ⟨u, hu, hpunct⟩ := hany
    rw [hcolon hkind u hu] at hpunct
    cases hpunct
  rw [Grammar.parsePlainStatement, get_bind]
  simp only [h.currentToken, Bool.and_eq_true, decide_eq_true_eq, if_neg hlabel]

theorem reading_empty {semi : Mark ";"} : Reading (.empty semi : Source T false) := by
  refine reading_of_plain Grammar.parseExpressionStatement ?_ ?_
  · intro S q t tail hT h
    have hk := Expressions.kind_of_isPunct semi.2
    refine ⟨_, _, rfl, Expressions.isPunct_ne semi.2 (by decide), fun hword => ?_,
      parsePlainStatement_eq h fun hident => ?_⟩
    · rw [Parser.isWord, hk] at hword
      exact absurd hword (by decide)
    · rw [hk] at hident
      cases hident
  · intro q t tail hT h _
    refine outcome_skip semi h fun h => outcome_last rfl fun w b hput =>
      laid_of_put hput (Grows.refl _) (by simp) (by simp) rfl rfl (by simp) fun _ => ?_
    exact ⟨.skip, Arena.Extends.refl _, fun a'' _ next hget => ⟨.exprNone hget rfl rfl, .empty⟩⟩

theorem reading_expr {e : Phrase T .expression} {semi : Mark ";"} (he : e.unbroken true = true)
    (hwords : ∀ t ∈ e.tokens.head?, t.text ∉ reserved) : Reading (.expr e semi) := by
  refine reading_of_plain Grammar.parseExpressionStatement ?_ ?_
  · intro S q t tail hT h
    simp only [Source.tokens, List.append_assoc, List.cons_append, List.nil_append] at h ⊢
    obtain ⟨u, rest, htokens, hbegins, hcolon⟩ :=
      phrase_begins e rfl (noColon_mark semi (t :: tail) (by decide))
    obtain ⟨u', rest', htokens', -⟩ := e.opens rfl
    have hu : u' = u := by
      rw [htokens', List.cons_append, List.cons.injEq] at htokens
      exact htokens.1
    refine ⟨u, rest, htokens, hbegins.not_isPunct (by decide), fun _ => hwords u ?_, ?_⟩
    · rw [htokens', hu]
      rfl
    · rw [htokens] at h
      exact parsePlainStatement_eq h hcolon
  · intro q t tail hT h _
    simp only [Source.tokens, List.append_assoc, List.cons_append, List.nil_append] at h
    have hsome : Source.Unbroken (some e) := by
      rintro _ ⟨⟩
      exact he
    refine outcome_optional hsome hT (by decide) semi h (fun hnone => by cases hnone) ?_
    rintro e' n a' he' hleaves h
    cases he'
    have hlen : 2 * e.tokens.length + 1 ≤ 2 * (Source.expr e semi).tokens.length := by
      simp only [Source.tokens, List.length_append, List.length_cons]
      omega
    refine outcome_last (by simp) fun w b hput =>
      laid_of_put hput hleaves.grows hlen (by simp) rfl rfl (by simp) fun hroom => ?_
    refine ⟨.expr n, (hleaves.part hroom).mono fun a'' h next hget => ?_⟩
    exact ⟨.exprStmt hget rfl h.2.1, .expr h.1⟩

end Expressions

end OpticC.Statements
