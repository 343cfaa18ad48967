import OpticC.Backend.Lowering

/-! What the lowering of a statement leaves alone: the blocks that are neither the
insertion block nor new nor those of its own labels, and the two stacks. -/

namespace OpticC

namespace Builder

/-- A numbered block exists. -/
def Known (b : Builder) (id : BlockId) : Prop := ∀ n, id = .num n → n < b.count

/-- From `b` to `b'` code is only added, and only at the insertion block of `b` and at the
blocks of `T`. -/
structure Frame (T : BlockId → Prop) (b b' : Builder) : Prop where
  count : b.count ≤ b'.count
  grows : ∀ id, b.Known id → b.code id <+: b'.code id
  code : ∀ id, b.Known id → id ≠ b.insert → ¬T id → b'.code id = b.code id
  insert : b'.insert = b.insert ∨ T b'.insert
  known : b.Known b.insert → b'.Known b'.insert

variable {T : BlockId → Prop} {b b' b'' : Builder}

theorem Known.mono {id : BlockId} (h : b.Known id) (hcount : b.count ≤ b'.count) :
    b'.Known id := fun n hn => Nat.lt_of_lt_of_le (h n hn) hcount

theorem known_label (b : Builder) (l : String) : b.Known (.label l) := fun _ hn => nomatch hn

theorem known_num {n : ℕ} (h : n < b.count) : b.Known (.num n) := by
  intro m hm
  cases hm
  exact h

theorem append_code {id : BlockId} (h : b.Known id) :
    b.appendBasicBlock.code id = b.code id :=
  if_neg fun hid => Nat.lt_irrefl _ (h b.count hid)

namespace Frame

theorem refl (b : Builder) : Frame T b b :=
  ⟨Nat.le_refl _, fun _ _ => List.prefix_refl _, fun _ _ _ _ => rfl, .inl rfl, id⟩

theorem trans (h1 : Frame T b b') (h2 : Frame T b' b'') : Frame T b b'' := by
  refine ⟨Nat.le_trans h1.count h2.count, fun id hid => ?_, fun id hid hne hT => ?_, ?_,
    fun h => h2.known (h1.known h)⟩
  · exact (h1.grows id hid).trans (h2.grows id (hid.mono h1.count))
  · have hne' : id ≠ b'.insert := by
      rintro rfl
      rcases h1.insert with h | h
      · exact hne h
      · exact hT h
    rw [h2.code id (hid.mono h1.count) hne' hT, h1.code id hid hne hT]
  · rcases h2.insert with h | h
    · rw [h]
      exact h1.insert
    · exact .inr h

theorem mono {T' : BlockId → Prop} (h : Frame T b b') (hT : ∀ id, T id → T' id) :
    Frame T' b b' :=
  ⟨h.count, h.grows, fun id hid hne hn => h.code id hid hne fun ht => hn (hT id ht),
    h.insert.imp_right (hT _), h.known⟩

theorem emit (b : Builder) (i : Instr) : Frame T b (b.emit i) := by
  refine ⟨Nat.le_refl _, fun id _ => ?_, fun id _ hne _ => ?_, .inl rfl, id⟩
  · show _ <+: if id = b.insert then b.code id ++ [i] else b.code id
    split_ifs
    · exact List.prefix_append _ _
    · exact List.prefix_refl _
  · exact if_neg hne

theorem append (b : Builder) : Frame T b b.appendBasicBlock := by
  refine ⟨Nat.le_succ _, fun id hid => ?_, fun id hid _ _ => append_code hid, .inl rfl,
    fun h => h.mono (Nat.le_succ _)⟩
  simp only [append_code hid, List.prefix_refl]

theorem position {id : BlockId} (hT : T id) (hid : b.Known id) :
    Frame T b (b.positionAtEnd id) :=
  ⟨Nat.le_refl _, fun _ _ => List.prefix_refl _, fun _ _ _ _ => rfl, .inr hT, fun _ => hid⟩

theorem labelBlock (b : Builder) (l : String) : Frame T b (b.labelBlock l) :=
  ⟨Nat.le_refl _, fun _ _ => List.prefix_refl _, fun _ _ _ _ => rfl, .inl rfl, id⟩

theorem branchIfOpen (E : Expressions) (b : Builder) (target : BlockId) :
    Frame T b (b.branchIfOpen E target) := by
  unfold Builder.branchIfOpen
  split_ifs
  · exact .refl b
  · exact .emit b _

/-- The stacks are not part of the frame. -/
theorem exits (b : Builder) (s t : List BlockId) :
    Frame T b { b with breakStack := s, continueStack := t } :=
  ⟨Nat.le_refl _, fun _ _ => List.prefix_refl _, fun _ _ _ _ => rfl, .inl rfl, id⟩

end Frame

end Builder

open Builder

section Lower

variable (E : Expressions)

theorem lowerOptional_frame {T : BlockId → Prop} (e : Option ℕ) (b : Builder) :
    Frame T b (lowerOptional e b) := by
  cases e with
  | none => exact .refl b
  | some e => exact .emit b _

theorem branchToTop_frame {T : BlockId → Prop} (stack : List BlockId) (b : Builder) :
    Frame T b (branchToTop stack b) := by
  cases stack with
  | nil => exact .refl b
  | cons target stack => exact .emit b _

theorem closeBlock_frame {T : BlockId → Prop} {b : Builder} {id : BlockId} (target : BlockId)
    (hT : T id) (hid : b.Known id) : Frame T b (closeBlock E target b id) :=
  (Frame.position hT hid).trans (Frame.branchIfOpen E _ _)

theorem foldl_closeBlock_frame {T : BlockId → Prop} {target : BlockId} {ids : List BlockId}
    {b : Builder} (hT : ∀ id ∈ ids, T id) (hid : ∀ id ∈ ids, b.Known id) :
    Frame T b (ids.foldl (closeBlock E target) b) := by
  induction ids generalizing b with
  | nil => exact .refl b
  | cons id ids ih =>
    have h := closeBlock_frame E target (hT id (by simp)) (hid id (by simp))
    exact h.trans (ih (fun i hi => hT i (by simp [hi]))
      fun i hi => (hid i (by simp [hi])).mono h.count)

theorem closeSwitch_frame {T : BlockId → Prop} {b : Builder} {otherwise : BlockId}
    (found : SwitchLabels) (target : BlockId) (hT : T otherwise) (hid : b.Known otherwise)
    (hTs : ∀ id ∈ found.blocks, T id) (hids : ∀ id ∈ found.blocks, b.Known id) :
    Frame T b (closeSwitch E found otherwise target b) := by
  unfold closeSwitch
  cases found.hasDefault with
  | true => exact foldl_closeBlock_frame E hTs hids
  | false =>
    have h := closeBlock_frame E target hT hid
    exact h.trans (foldl_closeBlock_frame E hTs fun id hid => (hids id hid).mono h.count)

/-- The first pass over a switch body only adds empty blocks. -/
theorem collectLabels_frame {T : BlockId → Prop} (c : ℕ) (otherwise : BlockId) (s : Stmt)
    (b : Builder) : Frame T b (collectLabels E c otherwise s b).2 := by
  fun_induction collectLabels E c otherwise s b with
  | case1 t b found b' h ih => simpa only [h] using ih
  | case2 l t b hl block found b' h ih =>
    exact (Frame.append b).trans (by simpa only [h] using ih)
  | case3 => assumption
  | case4 => exact .refl _

/-- The blocks of the labels are new, that of a default label apart. -/
theorem collectLabels_blocks (c : ℕ) (otherwise : BlockId) (s : Stmt) (b : Builder) :
    ∀ id ∈ (collectLabels E c otherwise s b).1.blocks, id = otherwise ∨
      ∃ n, b.count ≤ n ∧ n < (collectLabels E c otherwise s b).2.count ∧ id = .num n := by
  fun_induction collectLabels E c otherwise s b with
  | case1 t b found b' h ih =>
    rw [h] at ih
    intro id hid
    rcases List.mem_cons.1 hid with rfl | hid
    · exact .inl rfl
    · exact ih id hid
  | case2 l t b hl block found b' h ih =>
    have hcount := (collectLabels_frame E (T := fun _ => True) c otherwise t b.appendBasicBlock).count
    rw [h] at ih hcount
    intro id hid
    rcases List.mem_cons.1 hid with rfl | hid
    · exact .inr ⟨b.count, Nat.le_refl _, hcount, rfl⟩
    · rcases ih id hid with h | ⟨n, hn, hlt, rfl⟩
      · exact .inl h
      · exact .inr ⟨n, Nat.le_of_succ_le hn, hlt, rfl⟩
  | case3 s t b hdef hcase ih => exact ih
  | case4 => simp

/-- What the lowering of a statement may touch besides the insertion block: new blocks, the
blocks of its labels and, in a switch body, those of the case labels to come. -/
def Touch (blocks : Option (List BlockId)) (s : Stmt) (count : ℕ) (id : BlockId) : Prop :=
  (∃ n, count ≤ n ∧ id = .num n) ∨ (∃ l ∈ s.labels, id = .label l) ∨ id ∈ blocks.getD []

theorem Touch.num {blocks : Option (List BlockId)} {s : Stmt} {count n : ℕ} (h : count ≤ n) :
    Touch blocks s count (.num n) := .inl ⟨n, h, rfl⟩

/-- Part of a statement, lowered later, touches nothing else. -/
theorem Touch.part {blocks : Option (List BlockId)} {s t : Stmt} {count count' : ℕ}
    {id : BlockId} (h : Touch none s count' id) (hs : ∀ l ∈ s.labels, l ∈ t.labels)
    (hcount : count ≤ count') : Touch blocks t count id := by
  rcases h with ⟨n, hn, rfl⟩ | ⟨l, hl, rfl⟩ | h
  · exact .num (Nat.le_trans hcount hn)
  · exact .inr (.inl ⟨l, hs l hl, rfl⟩)
  · cases h

/-- A statement that is lowered from the block `id` on. -/
theorem lower_at_frame {T : BlockId → Prop} {s : Stmt} {b : Builder} {id : BlockId}
    (h : ∀ b, Frame (Touch none s b.count) b (lower E none s b)) (hT : T id) (hid : b.Known id)
    (hpart : ∀ id, Touch none s b.count id → T id) (target : BlockId) :
    Frame T b ((lower E none s (b.positionAtEnd id)).branchIfOpen E target) :=
  ((Frame.position hT hid).trans ((h (b.positionAtEnd id)).mono hpart)).trans
    (Frame.branchIfOpen E _ _)

/-- The condition of a loop, then its body. -/
theorem loop_frame {T : BlockId → Prop} {s : Stmt} {b : Builder} {condB bodyB : BlockId}
    (h : ∀ b, Frame (Touch none s b.count) b (lower E none s b)) (c : ℕ) (hcond : T condB)
    (hcondK : b.Known condB) (hbody : T bodyB) (hbodyK : b.Known bodyB)
    (hpart : ∀ id, Touch none s b.count id → T id) (endB target : BlockId) :
    Frame T b ((lower E none s (((lowerExpr c (b.positionAtEnd condB)).emit
      (.condBr c bodyB endB)).positionAtEnd bodyB)).branchIfOpen E target) := by
  have htest : Frame T b ((lowerExpr c (b.positionAtEnd condB)).emit (.condBr c bodyB endB)) :=
    ((Frame.position hcond hcondK).trans (Frame.emit _ _)).trans (Frame.emit _ _)
  exact htest.trans (lower_at_frame E h hbody (hbodyK.mono htest.count) hpart target)

/-- Both loops without an increment. -/
theorem while_frame {T : BlockId → Prop} {s : Stmt} {b : Builder}
    (h : ∀ b, Frame (Touch none s b.count) b (lower E none s b)) (c : ℕ)
    (hnum : ∀ n, b.count ≤ n → T (.num n))
    (hpart : ∀ n id, b.count ≤ n → Touch none s n id → T id) (isDoWhile : Bool) :
    Frame T b (whileLoop E isDoWhile c (lower E none s) b) := by
  simp only [whileLoop]
  generalize (if isDoWhile then BlockId.num (b.count + 1) else .num b.count) = first
  generalize hb1 : ((b.appendBasicBlock.appendBasicBlock.appendBasicBlock.pushBreak
    (.num (b.count + 2))).pushContinue (.num b.count)).emit (.br first) = b1
  have h1 : Frame T b b1 := by
    subst hb1
    exact ((((Frame.append b).trans (.append _)).trans (.append _)).trans
      (.exits _ _ _)).trans (.emit _ _)
  have hcount1 : b1.count = b.count + 3 := by
    subst hb1
    rfl
  have h2 := loop_frame E (T := T) (b := b1) h c (hnum b.count (by omega)) (known_num (by omega))
    (hnum (b.count + 1) (by omega)) (known_num (by omega))
    (fun id => hpart _ id (by omega)) (.num (b.count + 2)) (.num b.count)
  exact ((h1.trans h2).trans (.exits _ _ _)).trans (.position (hnum (b.count + 2) (by omega))
    (known_num (Nat.lt_of_lt_of_le (by omega) h2.count)))

theorem lower_seq {blocks : Option (List BlockId)} {s t : Stmt} {b : Builder}
    (h : blocks.getD [] = [] ∨ ∀ l, s ≠ .case_ l) :
    lower E blocks (.seq s t) b = lower E blocks t (lower E none s b) := by
  rw [lower]
  rintro block bs l rfl rfl
  rcases h with h | h
  · cases h
  · exact h l rfl

theorem seq_cases (blocks : Option (List BlockId)) (s : Stmt) :
    (blocks.getD [] = [] ∨ ∀ l, s ≠ .case_ l) ∨
      ∃ B bs l, blocks = some (B :: bs) ∧ s = .case_ l := by
  by_cases hplain : blocks.getD [] = [] ∨ ∀ l, s ≠ .case_ l
  · exact .inl hplain
  · obtain ⟨hne, l, rfl⟩ : blocks.getD [] ≠ [] ∧ ∃ l, s = .case_ l := by simpa using hplain
    obtain _ | _ | ⟨B, bs⟩ := blocks
    · exact absurd rfl hne
    · exact absurd rfl hne
    · exact .inr ⟨B, bs, l, rfl, rfl⟩

/-- Only the items of a switch body need the blocks of its labels. -/
theorem lower_of_ne_seq {blocks : Option (List BlockId)} {s : Stmt} {b : Builder}
    (h : ∀ t u, s ≠ .seq t u) : lower E blocks s b = lower E none s b := by
  cases s with
  | seq s t => exact absurd rfl (h s t)
  | _ => simp only [lower]

theorem lower_frame (blocks : Option (List BlockId)) (s : Stmt) (b : Builder)
    (hblocks : ∀ id ∈ blocks.getD [], b.Known id) :
    Frame (Touch blocks s b.count) b (lower E blocks s b) := by
  induction s generalizing blocks b with
  | skip =>
    simp only [lower]
    exact .refl b
  | expr e =>
    simp only [lower]
    exact .emit b _
  | case_ l =>
    simp only [lower]
    exact .refl b
  | seq s t ihs iht =>
    have hs : ∀ id, Touch none s b.count id → Touch blocks (.seq s t) b.count id :=
      fun id h => h.part (fun _ => List.mem_append_left _) (Nat.le_refl _)
    have ht : ∀ bs n id, b.count ≤ n → bs.getD [] ⊆ blocks.getD [] → Touch bs t n id →
        Touch blocks (.seq s t) b.count id := by
      rintro bs n id hn hbs (⟨m, hm, rfl⟩ | ⟨l, hl, rfl⟩ | h)
      · exact .num (Nat.le_trans hn hm)
      · exact .inr (.inl ⟨l, List.mem_append_right _ hl, rfl⟩)
      · exact .inr (.inr (hbs h))
    obtain hplain | ⟨B, bs, l, rfl, rfl⟩ := seq_cases blocks s
    · rw [lower_seq E hplain]
      have h1 := (ihs none b (by simp)).mono hs
      exact h1.trans ((iht blocks _ fun id hid => (hblocks id hid).mono h1.count).mono
        fun id => ht blocks _ id h1.count fun _ h => h)
    · rw [lower]
      have h1 : Frame (Touch (some (B :: bs)) (.seq (.case_ l) t) b.count) b
          ((b.branchIfOpen E B).positionAtEnd B) :=
        (Frame.branchIfOpen E b B).trans (.position (.inr (.inr (by simp)))
          ((hblocks B (by simp)).mono (by simp)))
      exact h1.trans ((iht (some bs) _ fun id hid =>
        (hblocks id (List.mem_cons_of_mem _ hid)).mono h1.count).mono
        fun id => ht (some bs) _ id h1.count (List.subset_cons_self _ _))
  | ite c s t ihs iht =>
    simp only [lower, lowerExpr_count]
    generalize hT : Touch blocks (.ite c s t) b.count = T
    have hnum : ∀ n, b.count ≤ n → T (.num n) := fun n hn => hT ▸ .num hn
    have hs : ∀ n id, b.count ≤ n → Touch none s n id → T id :=
      fun n id hn h => hT ▸ h.part (fun _ => List.mem_append_left _) hn
    have ht : ∀ n id, b.count ≤ n → Touch none t n id → T id :=
      fun n id hn h => hT ▸ h.part (fun _ => List.mem_append_right _) hn
    generalize hb1 : (lowerExpr c b).appendBasicBlock.appendBasicBlock.appendBasicBlock.emit
      (.condBr c (.num b.count) (.num (b.count + 1))) = b1
    have h1 : Frame T b b1 := by
      subst hb1
      exact ((((Frame.emit b _).trans (.append _)).trans (.append _)).trans (.append _)).trans
        (.emit _ _)
    have hcount1 : b1.count = b.count + 3 := by
      subst hb1
      rfl
    have h2 := lower_at_frame E (T := T) (b := b1) (fun b => ihs none b (by simp))
      (hnum b.count (Nat.le_refl _)) (known_num (by omega)) (fun id => hs _ id (by omega))
      (.num (b.count + 2))
    have hcount2 := h2.count
    have h3 := lower_at_frame E (T := T) (fun b => iht none b (by simp))
      (hnum (b.count + 1) (by omega)) (known_num (Nat.lt_of_lt_of_le (by omega) hcount2))
      (fun id => ht _ id (Nat.le_trans (by omega) hcount2)) (.num (b.count + 2))
    have hcount3 := h3.count
    exact ((h1.trans h2).trans h3).trans (.position (hnum _ (by omega))
      (known_num (Nat.lt_of_lt_of_le (Nat.lt_of_lt_of_le (by omega) hcount2) hcount3)))
  | while_ c s ih =>
    simp only [lower]
    generalize hT : Touch blocks (.while_ c s) b.count = T
    have hnum : ∀ n, b.count ≤ n → T (.num n) := fun n hn => hT ▸ .num hn
    have hs : ∀ n id, b.count ≤ n → Touch none s n id → T id :=
      fun n id hn h => hT ▸ h.part (fun _ hl => hl) hn
    exact while_frame E (fun b => ih none b (by simp)) c hnum hs _
  | doWhile s c ih =>
    simp only [lower]
    generalize hT : Touch blocks (.doWhile s c) b.count = T
    have hnum : ∀ n, b.count ≤ n → T (.num n) := fun n hn => hT ▸ .num hn
    have hs : ∀ n id, b.count ≤ n → Touch none s n id → T id :=
      fun n id hn h => hT ▸ h.part (fun _ hl => hl) hn
    exact while_frame E (fun b => ih none b (by simp)) c hnum hs _
  | for_ c i s ih =>
    simp only [lower]
    generalize hT : Touch blocks (.for_ c i s) b.count = T
    have hnum : ∀ n, b.count ≤ n → T (.num n) := fun n hn => hT ▸ .num hn
    have hs : ∀ n id, b.count ≤ n → Touch none s n id → T id :=
      fun n id hn h => hT ▸ h.part (fun _ hl => hl) hn
    generalize hb1 : (((b.appendBasicBlock.appendBasicBlock.appendBasicBlock.appendBasicBlock
      ).pushBreak (.num (b.count + 3))).pushContinue (.num (b.count + 1))).emit
      (.br (.num b.count)) = b1
    have h1 : Frame T b b1 := by
      subst hb1
      exact (((((Frame.append b).trans (.append _)).trans (.append _)).trans (.append _)).trans
        (.exits _ _ _)).trans (.emit _ _)
    have hcount1 : b1.count = b.count + 4 := by
      subst hb1
      rfl
    have h2 := loop_frame E (T := T) (b := b1) (fun b => ih none b (by simp)) c
      (hnum b.count (by omega)) (known_num (by omega)) (hnum (b.count + 2) (by omega))
      (known_num (by omega)) (fun id => hs _ id (by omega)) (.num (b.count + 3))
      (.num (b.count + 1))
    have hcount2 := h2.count
    have h3 := (Frame.position (T := T) (hnum (b.count + 1) (by omega))
      (known_num (Nat.lt_of_lt_of_le (by omega) hcount2))).trans
      ((lowerOptional_frame i _).trans (.branchIfOpen E _ (.num b.count)))
    exact (((h1.trans h2).trans h3).trans (.exits _ _ _)).trans (.position (hnum _ (by omega))
      (known_num (Nat.lt_of_lt_of_le (Nat.lt_of_lt_of_le (by omega) hcount2) h3.count)))
  | switch c s ih =>
    simp only [lower, lowerExpr_count]
    generalize hT : Touch blocks (.switch c s) b.count = T
    have hnum : ∀ n, b.count ≤ n → T (.num n) := fun n hn => hT ▸ .num hn
    have h1 : Frame T b (lowerExpr c b).appendBasicBlock.appendBasicBlock :=
      ((Frame.emit b _).trans (.append _)).trans (.append _)
    have hcount1 : (lowerExpr c b).appendBasicBlock.appendBasicBlock.count = b.count + 2 := rfl
    generalize (lowerExpr c b).appendBasicBlock.appendBasicBlock = b1 at h1 hcount1 ⊢
    have h2 := collectLabels_frame E (T := T) c (.num (b.count + 1)) s b1
    have hblocks2 := collectLabels_blocks E c (.num (b.count + 1)) s b1
    generalize collectLabels E c (.num (b.count + 1)) s b1 = r at h2 hblocks2 ⊢
    obtain ⟨found, b2⟩ := r
    have hcount2 : b.count + 2 ≤ b2.count := hcount1 ▸ h2.count
    have hfound : ∀ id ∈ found.blocks, T id ∧ b2.Known id := by
      intro id hid
      rcases hblocks2 id hid with rfl | ⟨n, hn, hlt, rfl⟩
      · exact ⟨hnum _ (by omega), known_num (by omega)⟩
      · exact ⟨hnum _ (by omega), known_num hlt⟩
    have h3 : Frame T b2 ((b2.emit (.switch c (.num (b.count + 1))
        (dedupCases found.cases))).pushBreak (.num b.count)) :=
      (Frame.emit b2 _).trans (.exits _ _ _)
    have h4 := (ih (some found.blocks) _ fun id hid => (hfound id hid).2.mono h3.count).mono
      (show ∀ id, _ → T id by
        intro id h
        rcases h with ⟨n, hn, rfl⟩ | ⟨l, hl, rfl⟩ | h
        · exact hnum n (Nat.le_trans (Nat.le_trans (by omega) hcount2) (Nat.le_trans h3.count hn))
        · exact hT ▸ .inr (.inl ⟨l, hl, rfl⟩)
        · exact (hfound id h).1)
    have h5 := h3.trans (h4.trans (Frame.branchIfOpen E _ (.num b.count)))
    have h6 := closeSwitch_frame E (T := T) found (.num b.count)
      (hnum (b.count + 1) (by omega)) (known_num (Nat.lt_of_lt_of_le (by omega) h5.count))
      (fun id hid => (hfound id hid).1) fun id hid => (hfound id hid).2.mono h5.count
    exact ((((h1.trans h2).trans h5).trans h6).trans (.exits _ _ _)).trans
      (.position (hnum _ (Nat.le_refl _))
        (known_num (Nat.lt_of_lt_of_le (by omega) (h5.trans h6).count)))
  | break_ =>
    simp only [lower]
    exact branchToTop_frame _ b
  | continue_ =>
    simp only [lower]
    exact branchToTop_frame _ b
  | goto_ l =>
    simp only [lower]
    exact (Frame.labelBlock b l).trans (Frame.emit _ _)
  | labeled l s ih =>
    simp only [lower]
    have hl : Touch blocks (.labeled l s) b.count (.label l) := .inr (.inl ⟨l, by simp [Stmt.labels], rfl⟩)
    have h1 := (Frame.labelBlock b l).trans ((Frame.branchIfOpen E _ (.label l)).trans
      (.position hl (known_label _ l)))
    exact h1.trans ((ih none _ (by simp)).mono fun id h =>
      h.part (fun _ => List.mem_cons_of_mem _) h1.count)
  | return_ e =>
    simp only [lower]
    exact (lowerOptional_frame e b).trans (Frame.emit _ _)

theorem foldl_closeBlock_exits (target : BlockId) (ids : List BlockId) (b : Builder) :
    (ids.foldl (closeBlock E target) b).exits = b.exits := by
  induction ids generalizing b with
  | nil => rfl
  | cons id ids ih =>
    rw [List.foldl_cons, ih, closeBlock]
    simp

theorem closeSwitch_exits (found : SwitchLabels) (otherwise target : BlockId) (b : Builder) :
    (closeSwitch E found otherwise target b).exits = b.exits := by
  simp only [closeSwitch, foldl_closeBlock_exits]
  split_ifs
  · rfl
  · simp [closeBlock]

theorem collectLabels_exits (c : ℕ) (otherwise : BlockId) (s : Stmt) (b : Builder) :
    (collectLabels E c otherwise s b).2.exits = b.exits := by
  fun_induction collectLabels E c otherwise s b <;> simp_all

theorem lowerOptional_exits (e : Option ℕ) (b : Builder) :
    (lowerOptional e b).exits = b.exits := by
  cases e <;> rfl

theorem branchToTop_exits (stack : List BlockId) (b : Builder) :
    (branchToTop stack b).exits = b.exits := by
  cases stack <;> rfl

/-- The stacks are those in front of the statement again behind it. -/
theorem lower_exits (blocks : Option (List BlockId)) (s : Stmt) (b : Builder) :
    (lower E blocks s b).exits = b.exits := by
  induction s generalizing blocks b with
  | seq s t ihs iht =>
    obtain hplain | ⟨B, bs, l, rfl, rfl⟩ := seq_cases blocks s
    · rw [lower_seq E hplain, iht, ihs]
    · rw [lower, iht]
      simp
  | switch c s ih => simp [lower, ih, lowerExpr, closeSwitch_exits, collectLabels_exits]
  | for_ c i s ih => simp [lower, ih, lowerExpr, lowerOptional_exits]
  | break_ => simp only [lower, branchToTop_exits]
  | continue_ => simp only [lower, branchToTop_exits]
  | return_ e => simp [lower, lowerOptional_exits]
  | _ => simp [lower, whileLoop, lowerExpr, *]

end Lower

end OpticC
