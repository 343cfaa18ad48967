import OpticC.Backend.Placement

/-! The parts of a statement, each with the builder in front of it. -/

namespace OpticC

open Builder

section Ready

variable (names : List String)

/-- The builder in front of a statement. -/
structure Ready (blocks : Option (List BlockId)) (s : Stmt) (b : Builder) : Prop where
  fits : s.Fits names b.exits.1.head?.isSome b.exits.2.head?.isSome
  insert : b.Known b.insert
  labels : ∀ l ∈ s.labels, b.Fresh (.label l)
  blocks : ∀ bs ∈ blocks, bs.length = s.itemLabels.length ∧ bs.Nodup ∧
    ∀ B ∈ bs, b.Fresh B ∧ ∃ n, B = .num n

variable {names} {T : BlockId → Prop} {b b' : Builder} {s t : Stmt}

theorem Ready.known {blocks : Option (List BlockId)} (h : Ready names blocks s b) :
    ∀ id ∈ blocks.getD [], b.Known id := by
  intro id hid
  cases blocks with
  | none => cases hid
  | some bs => exact ((h.blocks bs rfl).2.2 id hid).1.known

/-- A part of a statement, when it is its turn. -/
theorem Ready.of_frame (h : Frame T b b')
    (hfits : s.Fits names b'.exits.1.head?.isSome b'.exits.2.head?.isSome)
    (hins : b.Known b.insert) (hlabels : ∀ l ∈ s.labels, b.Fresh (.label l))
    (hT : ∀ l ∈ s.labels, ¬T (.label l)) : Ready names none s b' :=
  ⟨hfits, h.known hins, fun l hl => h.fresh (hlabels l hl) (hT l hl), by simp⟩

/-- A statement that goes into a fresh block. -/
theorem Ready.of_fresh {n : ℕ} {st : List BlockId × List BlockId} (hn : b.Fresh (.num n))
    (hst : b.exits = st) (hfits : s.Fits names st.1.head?.isSome st.2.head?.isSome)
    (hlabels : ∀ l ∈ s.labels, b.Fresh (.label l)) :
    Ready names none s (b.positionAtEnd (.num n)) := by
  subst hst
  have hpos : Frame (· = .num n) b (b.positionAtEnd (.num n)) := .position rfl hn.known
  exact ⟨hfits, hn.known, fun l hl => hpos.fresh (hlabels l hl) (by simp), by simp⟩

theorem entry_ready (h : s.Fits names false false) :
    Ready names none s entry :=
  ⟨h, known_num Nat.zero_lt_one, fun l _ => ⟨known_label _ l, rfl, nofun⟩, by simp⟩

end Ready

section At

variable (E : Expressions)

/-- A statement in the block `n`, and the branch behind it. -/
def lowerAt (s : Stmt) (n : ℕ) (target : BlockId) (b : Builder) : Builder :=
  (lower E none s (b.positionAtEnd (.num n))).branchIfOpen E target

/-- The block `n` and what the lowering of `s` may touch. -/
def At (n : ℕ) (s : Stmt) (count : ℕ) (id : BlockId) : Prop := id = .num n ∨ Touch none s count id

variable {E} {b : Builder} {s : Stmt} {n : ℕ}

theorem at_num {m count : ℕ} : At n s count (.num m) ↔ m = n ∨ count ≤ m := by
  simp [At, touch_num]

theorem at_label {count : ℕ} {l : String} : At n s count (.label l) ↔ l ∈ s.labels := by
  simp [At, touch_label]

/-- The new blocks and those of the labels of `s`. -/
theorem lower_frame_none (s : Stmt) (b : Builder) :
    Frame (Touch none s b.count) b (lower E none s b) := lower_frame E none s b (by simp)

theorem lowerAt_frame (h : b.Known (.num n)) (target : BlockId) :
    Frame (At n s b.count) b (lowerAt E s n target b) :=
  lower_at_frame E (lower_frame_none s) (.inl rfl) h (fun _ h => .inr h) target

theorem lowerAt_exits (target : BlockId) : (lowerAt E s n target b).exits = b.exits := by
  simp [lowerAt, lower_exits]

end At

section Parts

variable (E : Expressions) (names : List String)

/-- An `if`, with the builders behind its new blocks, behind the branch on its condition
and behind its first statement. -/
structure IteParts (c : ℕ) (s t : Stmt) (b b1 b2 b3 : Builder) : Prop where
  lowered : lower E none (.ite c s t) b =
    (lowerAt E t (b.count + 1) (.num (b.count + 2)) b3).positionAtEnd (.num (b.count + 2))
  appended : Appended 3 (lowerExpr c b) b1
  start : b2 = b1.emit (.condBr c (.num b.count) (.num (b.count + 1)))
  middle : b3 = lowerAt E s b.count (.num (b.count + 2)) b2
  thenFresh : b2.Fresh (.num b.count)
  thenReady : Ready names none s (b2.positionAtEnd (.num b.count))
  elseFresh : b3.Fresh (.num (b.count + 1))
  elseReady : Ready names none t (b3.positionAtEnd (.num (b.count + 1)))
  mergeFresh : (lowerAt E t (b.count + 1) (.num (b.count + 2)) b3).Fresh (.num (b.count + 2))
  exits2 : b2.exits = b.exits
  exits3 : b3.exits = b.exits

/-- The condition and the body of a loop, with the builders behind its new blocks, in front
of the condition, behind it and behind the body. -/
structure LoopParts (k body end_ cont : ℕ) (first : BlockId) (c : ℕ) (s : Stmt)
    (b b1 b2 b3 b4 : Builder) : Prop where
  appended : Appended k b b1
  start : b2 = ((b1.pushBreak (.num end_)).pushContinue (.num cont)).emit (.br first)
  test : b3 = (lowerExpr c (b2.positionAtEnd (.num b.count))).emit
    (.condBr c (.num body) (.num end_))
  behind : b4 = lowerAt E s body (.num cont) b3
  condFresh : b2.Fresh (.num b.count)
  bodyFresh : b3.Fresh (.num body)
  bodyReady : Ready names none s (b3.positionAtEnd (.num body))
  exits3 : b3.exits = (.num end_ :: b.exits.1, .num cont :: b.exits.2)
  rest : ∀ n, b.count < n → n ≠ body → n < b.count + k → b4.Fresh (.num n)
  frame : Frame (· = .num b.count) b2 b3

variable {E names} {b b1 b2 : Builder} {s t : Stmt}

theorem ite_parts {c : ℕ} (h : Ready names none (.ite c s t) b) :
    ∃ b1 b2 b3, IteParts E names c s t b b1 b2 b3 := by
  obtain ⟨hfs, hft, hdisj⟩ := h.fits
  obtain ⟨b1, hb1⟩ : ∃ b1, (lowerExpr c b).appendBasicBlock.appendBasicBlock.appendBasicBlock = b1 :=
    ⟨_, rfl⟩
  have happ : Appended 3 (lowerExpr c b) b1 :=
    hb1 ▸ (((Appended.zero (b := lowerExpr c b) h.insert).succ).succ).succ
  obtain ⟨b2, hb2⟩ : ∃ b2, b2 = b1.emit (.condBr c (.num b.count) (.num (b.count + 1))) :=
    ⟨_, rfl⟩
  have hframe2 : Frame (fun _ => False) b b2 :=
    hb2 ▸ ((Frame.emit b (.eval c)).trans (happ.frame _)).trans (.emit _ _)
  have hfresh2 : ∀ n, b.count ≤ n → n < b.count + 3 → b2.Fresh (.num n) :=
    fun n hn hlt => hb2 ▸ (happ.fresh n hn hlt).emit _
  have hexits2 : b2.exits = b.exits := hb2 ▸ happ.exits
  have hcount2 : b2.count = b.count + 3 := hb2 ▸ happ.count
  have hthenF := hfresh2 b.count (by omega) (by omega)
  have hthen := lowerAt_frame (E := E) (s := s) hthenF.known (.num (b.count + 2))
  obtain ⟨b3, hb3⟩ : ∃ b3, b3 = lowerAt E s b.count (.num (b.count + 2)) b2 := ⟨_, rfl⟩
  rw [← hb3] at hthen
  have hexits3 : b3.exits = b.exits := hb3 ▸ (lowerAt_exits _).trans hexits2
  have hcount3 := hthen.count
  have hfresh3 : ∀ n, b.count + 1 ≤ n → n < b.count + 3 → b3.Fresh (.num n) := fun n hn hlt =>
    hthen.fresh (hfresh2 n (by omega) hlt) (by rw [at_num]; omega)
  have helseF := hfresh3 (b.count + 1) (by omega) (by omega)
  have hlabels : ∀ l ∈ (Stmt.ite c s t).labels, b2.Fresh (.label l) :=
    fun l hl => hframe2.fresh (h.labels l hl) fun h => h
  refine ⟨b1, b2, b3, ?_, happ, hb2, hb3, hthenF, ?_, helseF, ?_, ?_, hexits2, hexits3⟩
  · simp only [lower, lowerExpr_count, hb1, hb2, hb3, lowerAt]
  · exact .of_fresh hthenF hexits2 hfs fun l hl => hlabels l (List.mem_append_left _ hl)
  · exact .of_fresh helseF hexits3 hft fun l hl =>
      hthen.fresh (hlabels l (List.mem_append_right _ hl))
        (by rw [at_label]; exact fun h => hdisj h hl)
  · exact (lowerAt_frame helseF.known _).fresh (hfresh3 (b.count + 2) (by omega) (by omega))
      (by rw [at_num]; omega)

theorem loop_parts {k body : ℕ} (h : Appended k b b1) (hfits : s.Fits names true true)
    (hlabels : ∀ l ∈ s.labels, b.Fresh (.label l)) (hbody : b.count < body)
    (hlt : body < b.count + k) (end_ cont : ℕ) (first : BlockId) (c : ℕ) :
    ∃ b2 b3 b4, LoopParts E names k body end_ cont first c s b b1 b2 b3 b4 := by
  obtain ⟨b2, hb2⟩ : ∃ b2, b2 = ((b1.pushBreak (.num end_)).pushContinue (.num cont)).emit
    (.br first) := ⟨_, rfl⟩
  have hframe2 : Frame (fun _ => False) b1 b2 := hb2 ▸ (Frame.exits _ _ _).trans (.emit _ _)
  have hfresh2 : ∀ n, b.count ≤ n → n < b.count + k → b2.Fresh (.num n) :=
    fun n hn hlt => hframe2.fresh (h.fresh n hn hlt) fun h => h
  have hcondF := hfresh2 b.count (by omega) (by omega)
  obtain ⟨b3, hb3⟩ : ∃ b3, b3 = (lowerExpr c (b2.positionAtEnd (.num b.count))).emit
    (.condBr c (.num body) (.num end_)) := ⟨_, rfl⟩
  have hframe3 : Frame (· = .num b.count) b2 b3 :=
    hb3 ▸ ((Frame.position (T := (· = .num b.count)) rfl hcondF.known).trans (.emit _ _)).trans
      (.emit _ _)
  have hfresh3 : ∀ n, b.count < n → n < b.count + k → b3.Fresh (.num n) :=
    fun n hn hlt => hframe3.fresh (hfresh2 n (by omega) hlt) (by simp; omega)
  have hcount3 : b3.count = b.count + k := by
    rw [hb3, hb2]
    exact h.count
  have hexits3 : b3.exits = (.num end_ :: b.exits.1, .num cont :: b.exits.2) := by
    rw [hb3, hb2]
    simp [lowerExpr, h.exits]
  have hbodyF := hfresh3 body hbody hlt
  refine ⟨b2, b3, _, h, hb2, hb3, rfl, hcondF, hbodyF, .of_fresh hbodyF hexits3 hfits ?_, hexits3,
    fun n hn hne hlt => ?_, hframe3⟩
  · exact fun l hl => hframe3.fresh (hframe2.fresh ((h.frame fun _ => False).fresh (hlabels l hl)
      fun h => h) fun h => h) (by simp)
  · exact (lowerAt_frame hbodyF.known _).fresh (hfresh3 n hn hlt) (by rw [at_num]; omega)

theorem whileLoop_parts (isDoWhile : Bool) (hins : b.Known b.insert)
    (hfits : s.Fits names true true) (hlabels : ∀ l ∈ s.labels, b.Fresh (.label l)) (c : ℕ) :
    ∃ first b1 b2 b3 b4, first = .num (if isDoWhile then b.count + 1 else b.count) ∧
      whileLoop E isDoWhile c (lower E none s) b =
        b4.popBreak.popContinue.positionAtEnd (.num (b.count + 2)) ∧
      LoopParts E names 3 (b.count + 1) (b.count + 2) b.count first c s b b1 b2 b3 b4 := by
  have happ : Appended 3 b _ := (((Appended.zero hins).succ).succ).succ
  obtain ⟨b2, b3, b4, hp⟩ := loop_parts (E := E) happ hfits hlabels (Nat.lt_succ_self _) (by omega)
    (b.count + 2) b.count (.num (if isDoWhile then b.count + 1 else b.count)) c
  refine ⟨_, _, b2, b3, b4, rfl, ?_, hp⟩
  rw [hp.behind, hp.test, hp.start]
  cases isDoWhile <;> rfl

theorem for_parts (incr : Option ℕ) (hins : b.Known b.insert)
    (hfits : s.Fits names true true) (hlabels : ∀ l ∈ s.labels, b.Fresh (.label l)) (c : ℕ) :
    ∃ b1 b2 b3 b4, lower E none (.for_ c incr s) b =
        ((lowerOptional incr (b4.positionAtEnd (.num (b.count + 1)))).branchIfOpen E
          (.num b.count)).popBreak.popContinue.positionAtEnd (.num (b.count + 3)) ∧
      LoopParts E names 4 (b.count + 2) (b.count + 3) (b.count + 1) (.num b.count) c s
        b b1 b2 b3 b4 := by
  have happ : Appended 4 b _ := ((((Appended.zero hins).succ).succ).succ).succ
  obtain ⟨b2, b3, b4, hp⟩ := loop_parts (E := E) happ hfits hlabels
    (show b.count < b.count + 2 by omega) (by omega) (b.count + 3) (b.count + 1) (.num b.count) c
  refine ⟨_, b2, b3, b4, ?_, hp⟩
  rw [hp.behind, hp.test, hp.start]
  simp only [lower, lowerAt]

theorem seq_parts {blocks : Option (List BlockId)} (h : Ready names blocks (.seq s t) b)
    (hplain : blocks.getD [] = [] ∨ ∀ l, s ≠ .case_ l) :
    Ready names none s b ∧ Ready names blocks t (lower E none s b) ∧
      ∀ bs ∈ blocks, ∀ l, s ≠ .case_ l := by
  obtain ⟨hfs, hft, hdisj⟩ := h.fits
  have hne : ∀ bs ∈ blocks, ∀ l, s ≠ .case_ l := by
    rintro bs rfl l rfl
    rcases hplain with hbs | hs
    · obtain rfl : bs = [] := hbs
      have hlen := (h.blocks [] rfl).1
      simp [Stmt.itemLabels] at hlen
    · exact hs l rfl
  have hframe := lower_frame_none (E := E) s b
  refine ⟨⟨hfs, h.insert, fun l hl => h.labels l (List.mem_append_left _ hl), by simp⟩,
    ⟨by rw [lower_exits]; exact hft, hframe.known h.insert, fun l hl => hframe.fresh
      (h.labels l (List.mem_append_right _ hl)) fun h => hdisj (touch_label.1 h) hl, ?_⟩, hne⟩
  intro bs hbs
  obtain ⟨hlen, hnodup, hfresh⟩ := h.blocks bs hbs
  refine ⟨?_, hnodup, fun B hB => ?_⟩
  · rw [hlen, Stmt.itemLabels_seq (hne bs hbs)]
  · obtain ⟨hf, n, rfl⟩ := hfresh B hB
    have hlt := hf.known n rfl
    exact ⟨hframe.fresh hf fun h => Nat.lt_irrefl _ (Nat.lt_of_lt_of_le hlt (touch_num.1 h)), n, rfl⟩

theorem labeled_parts {l : String} (h : Ready names none (.labeled l s) b) :
    ((b.labelBlock l).branchIfOpen E (.label l)).Fresh (.label l) ∧ Ready names none s
      (((b.labelBlock l).branchIfOpen E (.label l)).positionAtEnd (.label l)) := by
  obtain ⟨hl, hfs⟩ := h.fits
  have hfl := h.labels l List.mem_cons_self
  have hbranch := (Frame.labelBlock (T := fun _ => False) b l).trans
    (.branchIfOpen E _ (.label l))
  have hfresh := hbranch.fresh hfl fun h => h
  have hframe := (hbranch.mono fun id h => h.elim).trans
    (Frame.position (T := (· = .label l)) rfl hfresh.known)
  refine ⟨hfresh, .of_frame hframe (by simpa using hfs) h.insert
    (fun l' hl' => h.labels l' (List.mem_cons_of_mem _ hl')) fun l' hl' h => hl ?_⟩
  obtain rfl : l' = l := BlockId.label.inj h
  exact hl'

end Parts

end OpticC
