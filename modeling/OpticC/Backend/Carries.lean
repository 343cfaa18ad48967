import OpticC.Backend.Parts

/-! The lowering of every statement carries the statement out, by induction on the
statement. -/

namespace OpticC

open Builder

section Lowering

/-- The lowering carries a statement out. -/
def Carries (E : Expressions) (F : BlockId → List Instr) (names : List String)
    (blocks : Option (List BlockId)) (s : Stmt) : Prop :=
  ∀ b, Ready names blocks s b → Within F (lower E blocks s b) →
    Compiled E F names (blocks.map s.itemLabels.zip) b.exits.1.head? b.exits.2.head? s
      (posAt F b) (posAt F (lower E blocks s b))

variable {E : Expressions} {F : BlockId → List Instr}
  {names : List String} {b : Builder}
  {s t : Stmt}

theorem carries_of_none {blocks : Option (List BlockId)} (hs : ∀ t u, s ≠ .seq t u)
    (h : Carries E F names none s) : Carries E F names blocks s := by
  intro b hb hF
  rw [lower_of_ne_seq E hs] at hF ⊢
  have hc := h b ⟨hb.fits, hb.insert, hb.labels, by simp⟩ hF
  have hitems : s.itemLabels = [] := by
    cases s with
    | seq s t => exact absurd rfl (hs s t)
    | _ => rfl
  cases blocks with
  | none => exact hc
  | some bs =>
    rw [hitems]
    exact .last hs hc

/-- A statement in a block of its own. -/
theorem carries_at {n : ℕ} {target : BlockId} (hs : Carries E F names none s)
    (hn : b.Fresh (.num n)) (hready : Ready names none s (b.positionAtEnd (.num n)))
    (hF : Within F (lowerAt E s n target b)) :
    ∃ m, Compiled E F names none b.exits.1.head? b.exits.2.head? s (some (F (.num n))) m ∧
      Reach F m (some (F target)) := by
  have hbranch := Frame.branchIfOpen (T := fun _ => False) E
    (lower E none s (b.positionAtEnd (.num n))) target
  have hc := hs _ hready (hbranch.within hF)
  rw [posAt_fresh hn] at hc
  exact ⟨_, hc, reach_branchIfOpen hF ((lower_frame_none s _).known hn.known)⟩

theorem carries_ite {c : ℕ} (hs : Carries E F names none s) (ht : Carries E F names none t) :
    Carries E F names none (.ite c s t) := by
  intro b hb hF
  obtain ⟨b1, b2, b3, hp⟩ := ite_parts hb
  rw [hp.lowered] at hF ⊢
  have hF4 : Within F (lowerAt E t (b.count + 1) (.num (b.count + 2)) b3) := hF
  have hF3 : Within F b3 := (lowerAt_frame hp.elseFresh.known _).within hF4
  have hF2 : Within F b2 :=
    (lowerAt_frame hp.thenFresh.known (.num (b.count + 2))).within (hp.middle ▸ hF3)
  obtain ⟨m, hcs, hm⟩ := carries_at hs hp.thenFresh hp.thenReady (hp.middle ▸ hF3)
  obtain ⟨m', hct, hm'⟩ := carries_at ht hp.elseFresh hp.elseReady hF4
  rw [hp.exits2] at hcs
  rw [hp.exits3] at hct
  have hF2' := hp.start ▸ hF2
  have hF0 := ((hp.appended.frame fun _ => False).trans (.emit _ _)).within hF2'
  rw [posAt_fresh hp.mergeFresh]
  have hemit : Emits [c] (posAt F b) (posAt F b1) := by
    rw [hp.appended.pos]
    exact emits_eval hF0 hb.insert
  exact .ite hemit (jumps_emit hF2' hp.appended.insert) hcs hm hct hm'

/-- The branch to a loop, its condition and its body. -/
theorem carries_loop {k body end_ cont c : ℕ} {first : BlockId} {b1 b2 b3 b4 : Builder}
    (hs : Carries E F names none s)
    (hp : LoopParts E names k body end_ cont first c s b b1 b2 b3 b4) (hF : Within F b4) :
    Jumps (.br first) (posAt F b) ∧
      (∃ tl, F (.num b.count) = .eval c :: .condBr c (.num body) (.num end_) :: tl) ∧
      ∃ m, Compiled E F names none (some (.num end_)) (some (.num cont)) s
        (some (F (.num body))) m ∧ Reach F m (some (F (.num cont))) := by
  have hF3 : Within F b3 := (lowerAt_frame hp.bodyFresh.known (.num cont)).within (hp.behind ▸ hF)
  have hF2 := hp.start ▸ hp.frame.within hF3
  have hc := carries_at hs hp.bodyFresh hp.bodyReady (hp.behind ▸ hF)
  rw [hp.exits3] at hc
  refine ⟨?_, fresh_emit_emit hp.condFresh (hp.test ▸ hF3), hc⟩
  rw [← hp.appended.pos]
  exact jumps_emit (b := (b1.pushBreak (.num end_)).pushContinue (.num cont)) hF2
    hp.appended.insert

theorem carries_while {c : ℕ} (hs : Carries E F names none s) :
    Carries E F names none (.while_ c s) := by
  intro b hb hF
  simp only [lower] at hF ⊢
  obtain ⟨first, b1, b2, b3, b4, rfl, heq, hp⟩ :=
    whileLoop_parts false hb.insert hb.fits hb.labels c
  rw [heq] at hF ⊢
  obtain ⟨hj, ⟨tl, hcond⟩, m, hc, hm⟩ := carries_loop hs hp hF
  rw [posAt_fresh (hp.rest (b.count + 2) (by omega) (by omega) (by omega)).pop]
  exact .while_ hj hcond hc hm

theorem carries_doWhile {c : ℕ} (hs : Carries E F names none s) :
    Carries E F names none (.doWhile s c) := by
  intro b hb hF
  simp only [lower] at hF ⊢
  obtain ⟨first, b1, b2, b3, b4, rfl, heq, hp⟩ :=
    whileLoop_parts true hb.insert hb.fits hb.labels c
  rw [heq] at hF ⊢
  obtain ⟨hj, ⟨tl, hcond⟩, m, hc, hm⟩ := carries_loop hs hp hF
  rw [posAt_fresh (hp.rest (b.count + 2) (by omega) (by omega) (by omega)).pop]
  exact .doWhile hj hcond hc hm

theorem carries_for {c : ℕ} {incr : Option ℕ} (hs : Carries E F names none s) :
    Carries E F names none (.for_ c incr s) := by
  intro b hb hF
  obtain ⟨b1, b2, b3, b4, heq, hp⟩ := for_parts incr hb.insert hb.fits hb.labels c
  rw [heq] at hF ⊢
  have hincr := hp.rest (b.count + 1) (by omega) (by omega) (by omega)
  have hF5 : Within F ((lowerOptional incr (b4.positionAtEnd (.num (b.count + 1)))).branchIfOpen E
    (.num b.count)) := hF
  have hframe5 := (Frame.position (T := (· = .num (b.count + 1))) rfl hincr.known).trans
    ((lowerOptional_frame incr _).trans (.branchIfOpen E _ (.num b.count)))
  obtain ⟨hj, ⟨tl, hcond⟩, m, hc, hm⟩ := carries_loop hs hp (hframe5.within hF5)
  obtain ⟨tl', hhead'⟩ := fresh_optional hincr hF5
  have hend := hframe5.fresh (hp.rest (b.count + 3) (by omega) (by omega) (by omega)) (by simp)
  rw [posAt_fresh hend.pop]
  exact .for_ hj hcond hc hm hhead'

theorem carries_seq {blocks : Option (List BlockId)}
    (hplain : blocks.getD [] = [] ∨ ∀ l, s ≠ .case_ l) (hs : Carries E F names none s)
    (ht : Carries E F names blocks t) : Carries E F names blocks (.seq s t) := by
  intro b hb hF
  obtain ⟨hbs, hbt, hne⟩ := seq_parts hb hplain
  rw [lower_seq E hplain] at hF ⊢
  have hcs := hs b hbs ((lower_frame E blocks t _ hbt.known).within hF)
  have hct := ht _ hbt hF
  rw [lower_exits] at hct
  cases blocks with
  | none => exact .seq hcs hct
  | some bs =>
    rw [Option.map_some, Stmt.itemLabels_seq (hne bs rfl)]
    exact .item (hne bs rfl) hcs hct

theorem carries_label {B : BlockId} {bs : List BlockId} {l : CaseLabel}
    (ht : Carries E F names (some bs) t) : Carries E F names (some (B :: bs)) (.seq (.case_ l) t) := by
  intro b hb hF
  obtain ⟨hlen, hnodup, hfresh⟩ := hb.blocks _ rfl
  obtain ⟨hB, hnodup'⟩ := List.nodup_cons.1 hnodup
  obtain ⟨hfB, n, rfl⟩ := hfresh B List.mem_cons_self
  rw [lower] at hF ⊢
  have hbranch := Frame.branchIfOpen (T := fun _ => False) E b (.num n)
  have hpos := Frame.position (T := (· = .num n)) rfl (hbranch.fresh hfB fun h => h).known
  have hframe := (hbranch.mono fun id h => h.elim).trans hpos
  have ht' : Ready names (some bs) t ((b.branchIfOpen E (.num n)).positionAtEnd (.num n)) := by
    refine ⟨by simpa using hb.fits.2.1, hframe.known hb.insert, fun l hl => hframe.fresh
      (hb.labels l (List.mem_append_right _ hl)) (by simp), ?_⟩
    rintro bs' ⟨rfl⟩
    refine ⟨by simpa [Stmt.itemLabels] using hlen, hnodup', fun B' hB' => ?_⟩
    obtain ⟨hf, hn⟩ := hfresh B' (List.mem_cons_of_mem _ hB')
    exact ⟨hframe.fresh hf fun h => hB (h ▸ hB'), hn⟩
  have hF1 : Within F (b.branchIfOpen E (.num n)) :=
    (lower_frame E (some bs) t _ ht'.known).within hF
  have hct := ht _ ht' hF
  rw [posAt_fresh (hbranch.fresh hfB fun h => h)] at hct
  simp only [positionAtEnd_exits, branchIfOpen_exits] at hct
  exact .label (reach_branchIfOpen hF1 hb.insert) hct

theorem carries_labeled {l : String} (hs : Carries E F names none s) :
    Carries E F names none (.labeled l s) := by
  intro b hb hF
  obtain ⟨hfresh, hbs⟩ := labeled_parts hb
  simp only [lower] at hF ⊢
  have hF1 : Within F ((b.labelBlock l).branchIfOpen E (.label l)) :=
    (lower_frame_none (E := E) s
      (((b.labelBlock l).branchIfOpen E (.label l)).positionAtEnd (.label l))).within hF
  have hc := hs _ hbs hF
  rw [posAt_fresh hfresh] at hc
  simp only [positionAtEnd_exits, branchIfOpen_exits, labelBlock_exits] at hc
  exact .labeled (reach_branchIfOpen (b := b.labelBlock l) hF1 hb.insert) hc

/-- Without a default label its block goes behind the switch. -/
theorem reach_closeSwitch {found : SwitchLabels} {otherwise target : BlockId}
    (hother : b.Fresh otherwise) (hdefault : found.hasDefault = false)
    (hids : ∀ id ∈ found.blocks, b.Known id)
    (hF : Within F (closeSwitch E found otherwise target b)) :
    Reach F (some (F otherwise)) (some (F target)) := by
  simp only [closeSwitch, hdefault, Bool.false_eq_true, if_false] at hF
  have hframe := closeBlock_frame E (T := (· = otherwise)) target rfl hother.known
  have hF' := (foldl_closeBlock_frame E (T := fun _ => True) (fun _ _ => trivial)
    fun id hid => (hids id hid).mono hframe.count).within hF
  rw [← posAt_fresh (F := F) hother]
  exact reach_branchIfOpen hF' hother.known

theorem mem_zip_of_length {α β : Type} {x : α} {xs : List α} {ys : List β} (h : x ∈ xs)
    (hlen : ys.length = xs.length) : ∃ y, (x, y) ∈ xs.zip ys := by
  rw [← List.map_fst_zip (Nat.le_of_eq hlen.symm)] at h
  obtain ⟨⟨x', y⟩, hmem, rfl⟩ := List.mem_map.1 h
  exact ⟨y, hmem⟩

theorem carries_switch {c : ℕ} (hs : ∀ bs, Carries E F names (some bs) s) :
    Carries E F names none (.switch c s) := by
  intro b hb hF
  obtain ⟨hdefault, hfs⟩ := hb.fits
  simp only [lower, lowerExpr_count] at hF ⊢
  have happ : Appended 2 (lowerExpr c b) _ :=
    ((Appended.zero (b := lowerExpr c b) hb.insert).succ).succ
  generalize (lowerExpr c b).appendBasicBlock.appendBasicBlock = b1 at hF happ ⊢
  have hcount1 : b1.count = b.count + 2 := happ.count
  have hcollected := collectLabels_collected E c (.num (b.count + 1)) s b1 happ.insert
  have hframe2 := collectLabels_frame E (T := fun _ => False) c (.num (b.count + 1)) s b1
  have hexits2 := collectLabels_exits E c (.num (b.count + 1)) s b1
  have hpos2 := collectLabels_pos (F := F) E c (.num (b.count + 1)) s b1 happ.insert
  generalize collectLabels E c (.num (b.count + 1)) s b1 = r at *
  obtain ⟨found, b2⟩ := r
  have hstart : Frame (fun _ => False) b b2 :=
    ((Frame.emit b _).trans (happ.frame _)).trans hframe2
  have hcount2 : b.count + 2 ≤ b2.count := hcount1 ▸ hframe2.count
  have hframe3 : Frame (fun _ => False) b2 ((b2.emit (.switch c (.num (b.count + 1))
      (dedupCases found.cases))).pushBreak (.num b.count)) := (Frame.emit b2 _).trans (.exits _ _ _)
  have hpos3 : posAt F ((b2.emit (.switch c (.num (b.count + 1))
      (dedupCases found.cases))).pushBreak (.num b.count)) = none := posAt_emit (b := b2) rfl
  have hjump : Within F ((b2.emit (.switch c (.num (b.count + 1))
      (dedupCases found.cases))).pushBreak (.num b.count)) →
      Jumps (.switch c (.num (b.count + 1)) (dedupCases found.cases)) (posAt F b2) :=
    fun hF => jumps_emit (b := b2) hF (hstart.known hb.insert)
  have hexits3 : ((b2.emit (.switch c (.num (b.count + 1)) (dedupCases found.cases))).pushBreak
      (.num b.count)).exits = (.num b.count :: b.exits.1, b.exits.2) := by
    simp only [pushBreak_exits, emit_exits, hexits2, happ.exits]
    rfl
  generalize (b2.emit (.switch c (.num (b.count + 1)) (dedupCases found.cases))).pushBreak
    (.num b.count) = b3 at *
  have hfresh3 : ∀ n, b.count ≤ n → n < b.count + 2 → b3.Fresh (.num n) := fun n hn hlt =>
    hframe3.fresh (hframe2.fresh (happ.fresh n hn hlt) fun h => h) fun h => h
  have hblocks : ∀ B ∈ found.blocks, b3.Fresh B ∧ ∃ n, b.count + 1 ≤ n ∧ B = .num n := by
    intro B hB
    rcases hcollected.other B hB with ⟨rfl, -⟩ | ⟨n, hn, rfl, hf⟩
    · exact ⟨hfresh3 _ (by omega) (by omega), _, Nat.le_refl _, rfl⟩
    · exact ⟨hframe3.fresh hf fun h => h, n, by omega, rfl⟩
  have hready : Ready names (some found.blocks) s b3 := by
    refine ⟨by rw [hexits3]; exact hfs, hframe3.known (hstart.known hb.insert),
      fun l hl => hframe3.fresh (hstart.fresh (hb.labels l hl) fun h => h) fun h => h, ?_⟩
    rintro bs ⟨rfl⟩
    refine ⟨hcollected.length, hcollected.nodup hdefault _ (by omega) rfl, fun B hB => ?_⟩
    obtain ⟨hf, n, -, rfl⟩ := hblocks B hB
    exact ⟨hf, n, rfl⟩
  have hframe4 := (lower_frame E (some found.blocks) s b3 hready.known).trans
    (.branchIfOpen E _ (.num b.count))
  have hcarry := fun hF => hs found.blocks b3 hready ((Frame.branchIfOpen (T := fun _ => False) E _
    (.num b.count)).within hF)
  have hreach : Within F ((lower E (some found.blocks) s b3).branchIfOpen E (.num b.count)) →
      Reach F (posAt F (lower E (some found.blocks) s b3)) (some (F (.num b.count))) :=
    fun hF => reach_branchIfOpen hF
      ((lower_frame E (some found.blocks) s b3 hready.known).known hready.insert)
  rw [hpos3, hexits3] at hcarry
  have hcount3 := hframe3.count
  have htouch : ∀ n, b.count ≤ n → n < b.count + 2 → .num n ∉ found.blocks →
      ¬Touch (some found.blocks) s b3.count (.num n) := by
    rintro n hn hlt hnot (⟨m, hm, h⟩ | ⟨l, -, h⟩ | h)
    · obtain rfl : n = m := BlockId.num.inj h
      omega
    · cases h
    · exact hnot h
  have hend : .num b.count ∉ found.blocks := by
    intro h
    obtain ⟨-, n, hn, h⟩ := hblocks _ h
    obtain rfl : b.count = n := BlockId.num.inj h
    omega
  generalize (lower E (some found.blocks) s b3).branchIfOpen E (.num b.count) = b5 at *
  have hF6 : Within F (closeSwitch E found (.num (b.count + 1)) (.num b.count) b5) := hF
  have hend5 : b5.Fresh (.num b.count) := hframe4.fresh (hfresh3 _ (by omega) (by omega))
    (htouch _ (by omega) (by omega) hend)
  have hother3 : b3.Fresh (.num (b.count + 1)) := hfresh3 _ (by omega) (by omega)
  have hknown5 : ∀ id ∈ found.blocks, b5.Known id :=
    fun id hid => (hblocks id hid).1.known.mono hframe4.count
  have hframe6 := closeSwitch_frame E (T := fun id => id = .num (b.count + 1) ∨ id ∈ found.blocks)
    found (.num b.count) (.inl rfl) (hother3.known.mono hframe4.count)
    (fun id hid => .inr hid) hknown5
  have hend6 := hframe6.fresh hend5 (by simpa using hend)
  rw [posAt_fresh (b := (closeSwitch E found (.num (b.count + 1)) (.num b.count) b5).popBreak)
    ⟨hend6.known, hend6.empty, hend6.away⟩]
  have hF5 := hframe6.within hF6
  have hF3 := hframe4.within hF5
  have hF1 : Within F (lowerExpr c b) := ((happ.frame fun _ => False).trans
    (hframe2.trans hframe3)).within hF3
  have hemit : Emits [c] (posAt F b) (posAt F b2) := by
    rw [hpos2, happ.pos]
    exact emits_eval hF1 hb.insert
  refine .switch hemit ?_ (hcarry hF5) (hreach hF5) hcollected.default_ ?_
  · rw [switchEntries, ← hcollected.cases_]
    exact hjump hF3
  · intro hno
    have hnot : CaseLabel.default_ ∉ s.itemLabels := fun h =>
      (mem_zip_of_length h hcollected.length).elim hno
    have hother5 : b5.Fresh (.num (b.count + 1)) := by
      refine hframe4.fresh hother3 (htouch _ (by omega) (by omega) fun h => ?_)
      rcases hcollected.other _ h with ⟨-, h⟩ | ⟨n, hn, h, -⟩
      · exact hnot h
      · obtain rfl : b.count + 1 = n := BlockId.num.inj h
        omega
    refine reach_closeSwitch hother5 ?_ hknown5 hF6
    rw [← Bool.not_eq_true, hcollected.hasDefault]
    exact hnot

theorem carries_expr {e : ℕ} : Carries E F names none (.expr e) := by
  intro b hb hF
  simp only [lower] at hF ⊢
  exact .expr (emits_eval hF hb.insert)

theorem carries_return {e : Option ℕ} : Carries E F names none (.return_ e) := by
  intro b hb hF
  simp only [lower] at hF ⊢
  rw [posAt_emit rfl]
  have hins : (lowerOptional e b).Known (lowerOptional e b).insert :=
    (lowerOptional_frame (T := fun _ => False) e b).known hb.insert
  refine .return_ (emits_optional ?_ hb.insert) (jumps_emit hF hins)
  exact (Frame.emit (T := fun _ => False) _ _).within hF

/-- A branch to the top of a stack that is not empty. -/
theorem jumps_branchToTop {stack : List BlockId} (h : stack.head?.isSome) (hins : b.Known b.insert)
    (hF : Within F (branchToTop stack b)) : ∃ target, stack.head? = some target ∧
      Jumps (.br target) (posAt F b) ∧ posAt F (branchToTop stack b) = none := by
  cases stack with
  | nil => cases h
  | cons target stack => exact ⟨target, rfl, jumps_emit hF hins, posAt_emit rfl⟩

theorem carries_break : Carries E F names none .break_ := by
  intro b hb hF
  simp only [lower] at hF ⊢
  obtain ⟨target, htop, hj, hpos⟩ := jumps_branchToTop hb.fits hb.insert hF
  rw [show posAt F (branchToTop b.breakStack b) = none from hpos, htop]
  exact .break_ hj

theorem carries_continue : Carries E F names none .continue_ := by
  intro b hb hF
  simp only [lower] at hF ⊢
  obtain ⟨target, htop, hj, hpos⟩ := jumps_branchToTop hb.fits hb.insert hF
  rw [show posAt F (branchToTop b.continueStack b) = none from hpos, htop]
  exact .continue_ hj

theorem carries_goto {l : String} : Carries E F names none (.goto_ l) := by
  intro b hb hF
  simp only [lower] at hF ⊢
  rw [posAt_emit rfl]
  exact .goto_ hb.fits (jumps_emit (b := b.labelBlock l) hF hb.insert)

/-- The lowering of every statement carries it out. -/
theorem carries (blocks : Option (List BlockId)) (s : Stmt) : Carries E F names blocks s := by
  induction s generalizing blocks with
  | seq s t ihs iht =>
    obtain hplain | ⟨B, bs, l, rfl, rfl⟩ := seq_cases blocks s
    · exact carries_seq hplain (ihs none) (iht blocks)
    · exact carries_label (iht (some bs))
  | skip =>
    refine carries_of_none (by simp) fun b hb hF => ?_
    simp only [lower]
    exact .skip
  | case_ l =>
    refine carries_of_none (by simp) fun b hb hF => ?_
    simp only [lower]
    exact .case_
  | expr e => exact carries_of_none (by simp) carries_expr
  | ite c s t ihs iht => exact carries_of_none (by simp) (carries_ite (ihs none) (iht none))
  | while_ c s ih => exact carries_of_none (by simp) (carries_while (ih none))
  | doWhile s c ih => exact carries_of_none (by simp) (carries_doWhile (ih none))
  | for_ c i s ih => exact carries_of_none (by simp) (carries_for (ih none))
  | switch c s ih => exact carries_of_none (by simp) (carries_switch fun bs => ih (some bs))
  | labeled l s ih => exact carries_of_none (by simp) (carries_labeled (ih none))
  | break_ => exact carries_of_none (by simp) carries_break
  | continue_ => exact carries_of_none (by simp) carries_continue
  | goto_ l => exact carries_of_none (by simp) carries_goto
  | return_ e => exact carries_of_none (by simp) carries_return

end Lowering

end OpticC
