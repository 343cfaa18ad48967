import OpticC.Backend.Frame
import OpticC.Backend.Compiled

/-! The code that the lowering of a statement leaves behind carries the statement out. -/

namespace OpticC

open Builder

section Static

/-- What the lowering of a statement in a function with the labels `names` relies on; the
flags say whether something takes a `break` and a `continue`. -/
def Stmt.Fits (names : List String) : Bool → Bool → Stmt → Prop
  | i, j, .seq s t => s.Fits names i j ∧ t.Fits names i j ∧ s.labels.Disjoint t.labels
  | i, j, .ite _ s t => s.Fits names i j ∧ t.Fits names i j ∧ s.labels.Disjoint t.labels
  | _, _, .while_ _ s => s.Fits names true true
  | _, _, .doWhile s _ => s.Fits names true true
  | _, _, .for_ _ _ s => s.Fits names true true
  | _, j, .switch _ s => s.itemLabels.count .default_ ≤ 1 ∧ s.Fits names true j
  | i, j, .labeled l s => l ∉ s.labels ∧ s.Fits names i j
  | i, _, .break_ => i = true
  | _, j, .continue_ => j = true
  | _, _, .goto_ l => l ∈ names
  | _, _, _ => True

theorem Stmt.fits_of_valid {names : List String} {i j : Bool} {s : Stmt}
    (hnodup : s.labels.Nodup) (htargets : ∀ l ∈ s.targets, l ∈ names) (henc : s.Enclosed i j)
    (hswitch : s.AllSwitches fun _ items => items.caseLabels.count .default_ ≤ 1) :
    s.Fits names i j := by
  induction s generalizing i j with
  | seq s t ihs iht =>
    obtain ⟨hs, ht, hne⟩ := List.nodup_append.1 hnodup
    exact ⟨ihs hs (fun l hl => htargets l (List.mem_append_left _ hl)) henc.1 hswitch.1,
      iht ht (fun l hl => htargets l (List.mem_append_right _ hl)) henc.2 hswitch.2,
      fun l h h' => hne l h l h' rfl⟩
  | ite c s t ihs iht =>
    obtain ⟨hs, ht, hne⟩ := List.nodup_append.1 hnodup
    exact ⟨ihs hs (fun l hl => htargets l (List.mem_append_left _ hl)) henc.1 hswitch.1,
      iht ht (fun l hl => htargets l (List.mem_append_right _ hl)) henc.2 hswitch.2,
      fun l h h' => hne l h l h' rfl⟩
  | while_ c s ih => exact ih hnodup htargets henc hswitch
  | doWhile s c ih => exact ih hnodup htargets henc hswitch
  | for_ c i s ih => exact ih hnodup htargets henc hswitch
  | switch c s ih =>
    have hcount := s.itemLabels_sublist.count_le .default_
    exact ⟨Nat.le_trans hcount hswitch.1, ih hnodup htargets henc hswitch.2⟩
  | labeled l s ih =>
    obtain ⟨hl, hnodup⟩ := List.nodup_cons.1 hnodup
    exact ⟨hl, ih hnodup htargets henc hswitch⟩
  | break_ => exact henc
  | continue_ => exact henc
  | goto_ l => exact htargets l (List.mem_singleton_self l)
  | _ => trivial

end Static

section Fresh

/-- The block exists, holds nothing and is not where instructions go. -/
structure Builder.Fresh (b : Builder) (id : BlockId) : Prop where
  known : b.Known id
  empty : b.code id = []
  away : b.insert ≠ id

variable {T : BlockId → Prop} {b b' : Builder} {id : BlockId}

theorem Builder.Frame.fresh (h : Frame T b b') (hf : b.Fresh id) (hT : ¬T id) : b'.Fresh id := by
  refine ⟨hf.known.mono h.count, ?_, ?_⟩
  · rw [h.code id hf.known (Ne.symm hf.away) hT, hf.empty]
  · rintro rfl
    rcases h.insert with h | h
    · exact hf.away h.symm
    · exact hT h

/-- Before any block has the number `n`, nothing can be in it. -/
theorem Builder.fresh_append {n : ℕ} (h : b.Known b.insert) (hn : n = b.count) :
    b.appendBasicBlock.Fresh (.num n) := by
  subst hn
  refine ⟨known_num (Nat.lt_succ_self _), if_pos rfl, fun hins => ?_⟩
  exact Nat.lt_irrefl _ (h b.count hins)

theorem touch_num {s : Stmt} {n m : ℕ} : Touch none s n (.num m) ↔ n ≤ m := by
  simp [Touch]

theorem touch_label {s : Stmt} {n : ℕ} {l : String} : Touch none s n (.label l) ↔ l ∈ s.labels := by
  simp [Touch]

end Fresh

section Positions

variable {E : Expressions} (F : BlockId → List Instr)

/-- The code has in every block of the builder what the builder has there. -/
def Within (b : Builder) : Prop := ∀ id, b.Known id → b.code id <+: F id

/-- The position in the code where the next instruction goes. -/
def posAt (b : Builder) : Pos :=
  if (b.code b.insert).any Instr.isTerminator then none
  else some ((F b.insert).drop (b.code b.insert).length)

variable {F} {T : BlockId → Prop} {b b' : Builder} {id : BlockId} {i : Instr}

theorem Builder.Frame.within (h : Frame T b b') (hF : Within F b') : Within F b :=
  fun id hid => (h.grows id hid).trans (hF id (hid.mono h.count))

theorem posAt_fresh (h : b.Fresh id) : posAt F (b.positionAtEnd id) = some (F id) := by
  simp [posAt, positionAtEnd, h.empty]

theorem posAt_append (h : b.Known b.insert) : posAt F b.appendBasicBlock = posAt F b := by
  unfold posAt
  rw [show b.appendBasicBlock.insert = b.insert from rfl, append_code h]

theorem emit_code : (b.emit i).code b.insert = b.code b.insert ++ [i] := if_pos rfl

/-- What is emitted at a position stands there. -/
theorem stands_emit (hF : Within F (b.emit i)) (h : b.Known b.insert) :
    ∀ l, posAt F b = some l → ∃ tl, l = i :: tl ∧
      F b.insert = b.code b.insert ++ i :: tl := by
  intro l hl
  obtain ⟨tl, htl⟩ := hF b.insert h
  rw [emit_code, List.append_assoc] at htl
  unfold posAt at hl
  split_ifs at hl
  rw [← htl, List.drop_left] at hl
  exact ⟨tl, (Option.some.inj hl).symm, htl.symm⟩

theorem emits_eval {e : ℕ} (hF : Within F (b.emit (.eval e))) (h : b.Known b.insert) :
    Emits [e] (posAt F b) (posAt F (b.emit (.eval e))) := by
  intro l hl
  obtain ⟨tl, rfl, htl⟩ := stands_emit hF h l hl
  refine ⟨tl, rfl, ?_⟩
  unfold posAt at hl ⊢
  split_ifs at hl with hterm
  rw [show (b.emit (.eval e)).insert = b.insert from rfl, emit_code, htl, if_neg (by
    rw [List.any_append]
    simpa [Instr.isTerminator] using hterm)]
  simp

theorem jumps_emit (hF : Within F (b.emit i)) (h : b.Known b.insert) :
    Jumps i (posAt F b) := by
  intro l hl
  obtain ⟨tl, rfl, -⟩ := stands_emit hF h l hl
  exact ⟨tl, rfl⟩

theorem posAt_emit (hi : i.isTerminator) : posAt F (b.emit i) = none := by
  unfold posAt
  rw [show (b.emit i).insert = b.insert from rfl, emit_code, if_pos]
  simp [hi]

/-- An open position has no terminator before it. -/
theorem closed_of_posAt {l : List Instr} (h : posAt F b = some l) : b.closed E = false := by
  unfold posAt at h
  split_ifs at h with hterm
  simp only [Bool.not_eq_true, List.any_eq_false] at hterm
  unfold closed hasTerminator
  cases hlast : ((b.code b.insert).filter (Instr.isReal E)).getLast? with
  | none => rfl
  | some i =>
    have hi := List.mem_of_getLast? hlast
    simpa using hterm i (List.mem_filter.1 hi).1

theorem reach_branchIfOpen {target : BlockId} (hF : Within F (b.branchIfOpen E target))
    (h : b.Known b.insert) : Reach F (posAt F b) (some (F target)) := by
  intro l hl
  unfold Builder.branchIfOpen at hF
  rw [if_neg (by simp [closed_of_posAt hl])] at hF
  exact Reach.of_jumps F (jumps_emit hF h) l hl

/-- Two instructions put into a fresh block are its first. -/
theorem fresh_emit_emit {j : Instr} (h : b.Fresh id)
    (hF : Within F (((b.positionAtEnd id).emit i).emit j)) : ∃ tl, F id = i :: j :: tl := by
  obtain ⟨tl, htl⟩ := hF id h.known
  refine ⟨tl, ?_⟩
  rw [← htl]
  simp [emit, positionAtEnd, h.empty]

end Positions

section Appended
variable {F : BlockId → List Instr} {T : BlockId → Prop} {b b' : Builder}

theorem Builder.Fresh.emit {id : BlockId} (h : b.Fresh id) (i : Instr) : (b.emit i).Fresh id :=
  (Frame.emit (T := fun _ => False) b i).fresh h fun h => h

theorem Builder.Fresh.pop {id : BlockId} (h : b.Fresh id) : b.popBreak.popContinue.Fresh id :=
  ⟨h.known, h.empty, h.away⟩

theorem emits_optional {e : Option ℕ} (hF : Within F (lowerOptional e b)) (h : b.Known b.insert) :
    Emits e.toList (posAt F b) (posAt F (lowerOptional e b)) := by
  cases e with
  | none => exact fun l hl => ⟨l, rfl, hl⟩
  | some e => exact emits_eval hF h

/-- An expression and the branch behind it, put into a fresh block. -/
theorem fresh_optional {E : Expressions} {id target : BlockId} {e : Option ℕ} (h : b.Fresh id)
    (hF : Within F ((lowerOptional e (b.positionAtEnd id)).branchIfOpen E target)) :
    ∃ tl, F id = e.toList.map .eval ++ .br target :: tl := by
  have hopen : (lowerOptional e (b.positionAtEnd id)).closed E = false := by
    cases e with
    | none => simp [lowerOptional, closed, hasTerminator, positionAtEnd, h.empty]
    | some e =>
      cases he : E.emits e <;> simp [lowerOptional, lowerExpr, closed, hasTerminator, emit,
        positionAtEnd, h.empty, Instr.isReal, Instr.isTerminator, he]
  unfold Builder.branchIfOpen at hF
  rw [if_neg (by simp [hopen])] at hF
  obtain ⟨tl, htl⟩ := hF id (by cases e <;> exact h.known)
  refine ⟨tl, ?_⟩
  rw [← htl]
  cases e <;> simp [lowerOptional, lowerExpr, emit, positionAtEnd, h.empty]

/-- `b'` is `b` with `k` new blocks. -/
structure Appended (k : ℕ) (b b' : Builder) : Prop where
  insert : b'.Known b'.insert
  count : b'.count = b.count + k
  fresh : ∀ n, b.count ≤ n → n < b.count + k → b'.Fresh (.num n)
  frame : ∀ T, Frame T b b'
  exits : b'.exits = b.exits
  insert_eq : b'.insert = b.insert
  code : ∀ id, b.Known id → b'.code id = b.code id
  pos : ∀ F, posAt F b' = posAt F b

theorem Appended.zero (h : b.Known b.insert) : Appended 0 b b :=
  ⟨h, rfl, fun n h h' => by omega, fun _ => .refl b, rfl, rfl, fun _ _ => rfl, fun _ => rfl⟩

theorem Appended.succ {k : ℕ} (h : Appended k b b') :
    Appended (k + 1) b b'.appendBasicBlock := by
  have hframe := fun T => Frame.append (T := T) b'
  refine ⟨(hframe fun _ => False).known h.insert, ?_, fun n hn hlt => ?_,
    fun T => (h.frame T).trans (hframe T), h.exits, h.insert_eq, fun id hid => ?_,
    fun F => (posAt_append h.insert).trans (h.pos F)⟩
  · rw [appendBasicBlock_count, h.count, Nat.add_assoc]
  · by_cases hn' : n = b'.count
    · exact fresh_append h.insert hn'
    · have := h.count
      exact (hframe fun _ => False).fresh (h.fresh n hn (by omega)) fun h => h
  · rw [← h.code id hid]
    exact append_code (hid.mono (h.frame fun _ => False).count)

end Appended

section Switches

variable (E : Expressions) (c : ℕ) (otherwise : BlockId)

/-- What the first pass over a switch body finds, and where its blocks come from. -/
structure Collected (s : Stmt) (b : Builder) (r : SwitchLabels × Builder) : Prop where
  length : r.1.blocks.length = s.itemLabels.length
  cases_ : r.1.cases =
    (s.itemLabels.zip r.1.blocks).flatMap fun q => (caseValues E c q.1).map (·, q.2)
  hasDefault : r.1.hasDefault = true ↔ CaseLabel.default_ ∈ s.itemLabels
  default_ : ∀ B, (CaseLabel.default_, B) ∈ s.itemLabels.zip r.1.blocks → B = otherwise
  other : ∀ B ∈ r.1.blocks, B = otherwise ∧ CaseLabel.default_ ∈ s.itemLabels ∨
    ∃ n, b.count ≤ n ∧ B = .num n ∧ r.2.Fresh B
  nodup : s.itemLabels.count .default_ ≤ 1 → ∀ n < b.count, otherwise = .num n →
    r.1.blocks.Nodup

theorem collectLabels_collected (s : Stmt) (b : Builder) (hins : b.Known b.insert) :
    Collected E c otherwise s b (collectLabels E c otherwise s b) := by
  fun_induction collectLabels E c otherwise s b with
  | case1 t b found b' h ih =>
    rw [h] at ih
    have hr := ih hins
    refine ⟨?_, ?_, ?_, ?_, ?_, ?_⟩
    · simp [Stmt.itemLabels, hr.length]
    · exact hr.cases_
    · simp [Stmt.itemLabels]
    · intro B hB
      rcases List.mem_cons.1 hB with h | h
      · exact (Prod.mk.inj h).2
      · exact hr.default_ B h
    · intro B hB
      rcases List.mem_cons.1 hB with rfl | hB
      · exact .inl ⟨rfl, List.mem_cons_self⟩
      · exact (hr.other B hB).imp_left fun h => ⟨h.1, List.mem_cons_of_mem _ h.2⟩
    · intro hcount n hn heq
      have hzero : t.itemLabels.count .default_ = 0 := by
        simpa [Stmt.itemLabels] using hcount
      refine List.nodup_cons.2 ⟨fun hmem => ?_, hr.nodup (by omega) n hn heq⟩
      rcases hr.other _ hmem with ⟨-, h⟩ | ⟨m, hm, h, -⟩
      · exact List.count_eq_zero.1 hzero h
      · rw [heq] at h
        cases h
        omega
  | case2 l t b hl block found b' h ih =>
    have hframe := collectLabels_frame E (T := fun _ => False) c otherwise t b.appendBasicBlock
    rw [h] at ih hframe
    have hr := ih ((Frame.append (T := fun _ => False) b).known hins)
    have hne : l ≠ .default_ := hl
    refine ⟨?_, ?_, ?_, ?_, ?_, ?_⟩
    · simp [Stmt.itemLabels, hr.length]
    · simp only [Stmt.itemLabels, List.zip_cons_cons, List.flatMap_cons]
      exact congrArg _ hr.cases_
    · rw [hr.hasDefault]
      simp [Stmt.itemLabels, hne.symm]
    · intro B hB
      rcases List.mem_cons.1 hB with h | h
      · exact absurd (Prod.mk.inj h).1.symm hne
      · exact hr.default_ B h
    · intro B hB
      rcases List.mem_cons.1 hB with rfl | hB
      · exact .inr ⟨b.count, Nat.le_refl _, rfl, hframe.fresh (fresh_append hins rfl) fun h => h⟩
      · rcases hr.other B hB with ⟨h, h'⟩ | ⟨n, hn, h⟩
        · exact .inl ⟨h, List.mem_cons_of_mem _ h'⟩
        · exact .inr ⟨n, Nat.le_of_succ_le hn, h⟩
    · intro hcount n hn heq
      have hcount' : t.itemLabels.count .default_ ≤ 1 := by
        simpa [Stmt.itemLabels, List.count_cons, hne] using hcount
      refine List.nodup_cons.2 ⟨fun hmem => ?_, hr.nodup hcount' n (Nat.lt_succ_of_lt hn) heq⟩
      rcases hr.other _ hmem with ⟨h, -⟩ | ⟨m, hm, h, -⟩
      · obtain rfl : b.count = n := BlockId.num.inj (h.trans heq)
        exact Nat.lt_irrefl _ hn
      · obtain rfl : b.count = m := BlockId.num.inj h
        exact Nat.lt_irrefl _ hm
  | case3 s t b hdef hcase ih =>
    have hr := ih hins
    have hitems : (Stmt.seq s t).itemLabels = t.itemLabels := by
      cases s with
      | case_ l => exact absurd rfl (hcase l)
      | _ => rfl
    exact ⟨by rw [hitems]; exact hr.length, by rw [hitems]; exact hr.cases_,
      by rw [hitems]; exact hr.hasDefault, by rw [hitems]; exact hr.default_,
      by rw [hitems]; exact hr.other, by rw [hitems]; exact hr.nodup⟩
  | case4 s b =>
    have hitems : s.itemLabels = [] := by
      cases s with
      | seq s t => simp_all
      | _ => rfl
    exact ⟨by simp [hitems], by simp [hitems], by simp [hitems], by simp [hitems], by simp,
      fun _ _ _ _ => List.nodup_nil⟩

theorem collectLabels_pos {F : BlockId → List Instr} (s : Stmt) (b : Builder)
    (hins : b.Known b.insert) : posAt F (collectLabels E c otherwise s b).2 = posAt F b := by
  fun_induction collectLabels E c otherwise s b with
  | case1 t b found b' h ih =>
    rw [h] at ih
    exact ih hins
  | case2 l t b hl block found b' h ih =>
    rw [h] at ih
    exact (ih ((Frame.append (T := fun _ => False) b).known hins)).trans (posAt_append hins)
  | case3 s t b hdef hcase ih => exact ih hins
  | case4 => rfl

end Switches

end OpticC
