import OpticC.Backend.Parts

/-! When every block of the emitted function holds one terminator, as its last
instruction: exactly when no statement puts an instruction behind a jump. -/

namespace OpticC

open Builder

section Blocks

variable (E : Expressions)

/-- No instruction stands behind a terminator. -/
def Clean (code : List Instr) : Prop :=
  ∀ i ∈ (code.filter (Instr.isReal E)).dropLast, i.isTerminator = false

/-- Every block of a function holds one terminator, its last instruction. -/
def WellFormed (f : Function) : Prop :=
  ∀ id ∈ f.ids, hasTerminator E (f.code id) = true ∧ Clean E (f.code id)

/-- No block holds an instruction behind a terminator. -/
def AllClean (b : Builder) : Prop := ∀ id, b.Known id → Clean E (b.code id)

variable {E} {b b' : Builder} {i : Instr} {id : BlockId}

theorem hasTerminator_append (code : List Instr) (i : Instr) :
    hasTerminator E (code ++ [i]) =
      if i.isReal E then i.isTerminator else hasTerminator E code := by
  unfold hasTerminator
  rw [List.filter_append]
  split_ifs with hi
  · simp [hi]
  · simp [hi]

theorem clean_append {code : List Instr} :
    Clean E (code ++ [i]) ↔ Clean E code ∧ (i.isReal E → hasTerminator E code = false) := by
  unfold Clean hasTerminator
  rw [List.filter_append]
  by_cases hi : i.isReal E
  · rw [List.filter_cons_of_pos hi, List.filter_nil, List.dropLast_concat]
    obtain h | ⟨init, last, h⟩ := List.eq_nil_or_concat (code.filter (Instr.isReal E))
    · simp [h]
    · rw [h]
      simp [hi, or_imp, forall_and]
  · rw [List.filter_cons_of_neg hi, List.filter_nil, List.append_nil]
    simp [hi]

theorem clean_nil : Clean E [] := by simp [Clean]

theorem closed_emit : (b.emit i).closed E = if i.isReal E then i.isTerminator else b.closed E := by
  rw [closed, show (b.emit i).insert = b.insert from rfl, emit_code, hasTerminator_append]
  rfl

theorem closed_fresh (h : b.Fresh id) : (b.positionAtEnd id).closed E = false := by
  simp [closed, positionAtEnd, h.empty, hasTerminator]

theorem allClean_emit (h : b.Known b.insert) :
    AllClean E (b.emit i) ↔ AllClean E b ∧ (i.isReal E → b.closed E = false) := by
  constructor
  · intro hc
    have hins := hc b.insert h
    rw [emit_code, clean_append] at hins
    refine ⟨fun id hid => ?_, hins.2⟩
    by_cases heq : id = b.insert
    · exact heq ▸ hins.1
    · have := hc id hid
      rwa [show (b.emit i).code id = b.code id from if_neg heq] at this
  · rintro ⟨hc, hi⟩ id hid
    by_cases heq : id = b.insert
    · subst heq
      rw [emit_code, clean_append]
      exact ⟨hc _ hid, hi⟩
    · rw [show (b.emit i).code id = b.code id from if_neg heq]
      exact hc id hid

theorem allClean_branchIfOpen (h : b.Known b.insert) :
    AllClean E (b.branchIfOpen E id) ↔ AllClean E b := by
  unfold branchIfOpen
  split_ifs with hclosed
  · exact Iff.rfl
  · rw [allClean_emit h]
    simp [hclosed]

theorem Appended.allClean {k : ℕ} (h : Appended k b b') : AllClean E b' ↔ AllClean E b := by
  constructor
  · intro hc id hid
    rw [← h.code id hid]
    exact hc id (hid.mono (h.frame fun _ => False).count)
  · intro hc id hid
    by_cases hknown : b.Known id
    · rw [h.code id hknown]
      exact hc id hknown
    · cases id with
      | label l => exact absurd (known_label b l) hknown
      | num n =>
        have hlt := hid n rfl
        have hge : b.count ≤ n := Nat.le_of_not_lt fun hn => hknown (known_num hn)
        rw [(h.fresh n hge (h.count ▸ hlt)).empty]
        exact clean_nil

theorem Appended.closed {k : ℕ} (h : Appended k b b') (hins : b.Known b.insert) :
    b'.closed E = b.closed E := by
  unfold Builder.closed
  rw [h.insert_eq, h.code _ hins]

end Blocks

section Tidy

/-- The place behind the statement is behind a jump; the flag says so of the place before
it. -/
def Stmt.jumped : Bool → Stmt → Bool
  | dead, .seq s t => t.jumped (s.jumped dead)
  | _, .labeled _ s => s.jumped false
  | _, .break_ => true
  | _, .continue_ => true
  | _, .goto_ _ => true
  | _, .return_ _ => true
  | dead, .skip => dead
  | dead, .expr _ => dead
  | dead, .case_ _ => dead
  | _, _ => false

/-- Behind a jump no statement emits an instruction before the next label. -/
def Stmt.Tidy (E : Expressions) : Bool → Stmt → Prop
  | dead, .seq s t => s.Tidy E dead ∧ t.Tidy E (s.jumped dead)
  | dead, .ite _ s t => dead = false ∧ s.Tidy E false ∧ t.Tidy E false
  | dead, .while_ _ s => dead = false ∧ s.Tidy E false
  | dead, .doWhile s _ => dead = false ∧ s.Tidy E false
  | dead, .for_ _ _ s => dead = false ∧ s.Tidy E false
  | _, .labeled _ s => s.Tidy E false
  | dead, .expr e => E.emits e → dead = false
  | _, .skip => True
  | _, .case_ _ => True
  | dead, _ => dead = false

/-- The lowering of a statement is clean when the statement is tidy, and then ends where
`jumped` says. -/
def TidyLowered (E : Expressions) (names : List String) (s : Stmt) :
    Prop :=
  ∀ b, Ready names none s b →
    (AllClean E (lower E none s b) ↔ AllClean E b ∧ s.Tidy E (b.closed E)) ∧
    (AllClean E (lower E none s b) → (lower E none s b).closed E = s.jumped (b.closed E))

variable {E : Expressions} {names : List String} {b : Builder}
  {s t : Stmt}

theorem allClean_lowerAt {n : ℕ} {target : BlockId} (hs : TidyLowered E names s)
    (hn : b.Fresh (.num n)) (hready : Ready names none s (b.positionAtEnd (.num n))) :
    AllClean E (lowerAt E s n target b) ↔ AllClean E b ∧ s.Tidy E false := by
  have hins := (lower_frame_none (E := E) s (b.positionAtEnd (.num n))).known hn.known
  rw [lowerAt, allClean_branchIfOpen hins, (hs _ hready).1, closed_fresh hn]
  exact Iff.rfl

theorem tidyLowered_ite {c : ℕ} (hs : TidyLowered E names s) (ht : TidyLowered E names t) :
    TidyLowered E names (.ite c s t) := by
  intro b hb
  obtain ⟨b1, b2, b3, hp⟩ := ite_parts (E := E) hb
  rw [hp.lowered]
  refine ⟨?_, fun _ => closed_fresh hp.mergeFresh⟩
  have h1 : AllClean E b1 ↔ AllClean E b ∧ (E.emits c → b.closed E = false) :=
    hp.appended.allClean.trans (allClean_emit hb.insert)
  have h1' : b1.closed E = if E.emits c then false else b.closed E :=
    (hp.appended.closed (b := lowerExpr c b) hb.insert).trans closed_emit
  have h2 : AllClean E b2 ↔ AllClean E b1 ∧ b1.closed E = false := by
    rw [hp.start, allClean_emit hp.appended.insert]
    simp [Instr.isReal]
  have h3 : AllClean E b3 ↔ AllClean E b2 ∧ s.Tidy E false := by
    rw [hp.middle]
    exact allClean_lowerAt hs hp.thenFresh hp.thenReady
  have h4 : AllClean E (lowerAt E t (b.count + 1) (.num (b.count + 2)) b3) ↔
      AllClean E b3 ∧ t.Tidy E false :=
    allClean_lowerAt ht hp.elseFresh hp.elseReady
  refine h4.trans ?_
  rw [h3, h2, h1, h1']
  cases E.emits c <;> simp [Stmt.Tidy, and_assoc]

/-- A loop is clean when it is entered from an open block and its body is tidy. -/
theorem allClean_loop {k body end_ cont c : ℕ} {first : BlockId} {b1 b2 b3 b4 : Builder}
    (hs : TidyLowered E names s) (hins : b.Known b.insert)
    (hp : LoopParts E names k body end_ cont first c s b b1 b2 b3 b4) :
    AllClean E b4 ↔ AllClean E b ∧ b.closed E = false ∧ s.Tidy E false := by
  have h2 : AllClean E b2 ↔ AllClean E b ∧ b.closed E = false := by
    rw [hp.start, allClean_emit (b := (b1.pushBreak (.num end_)).pushContinue (.num cont))
      hp.appended.insert]
    show AllClean E b1 ∧ (_ → b1.closed E = false) ↔ _
    rw [hp.appended.allClean, hp.appended.closed hins]
    simp [Instr.isReal]
  have hopen := closed_fresh (E := E) hp.condFresh
  have h3 : AllClean E b3 ↔ AllClean E b2 := by
    rw [hp.test, allClean_emit hp.condFresh.known, lowerExpr, closed_emit,
      allClean_emit hp.condFresh.known, hopen]
    simp [Instr.isTerminator, AllClean, positionAtEnd, Known]
  have h4 : AllClean E b4 ↔ AllClean E b3 ∧ s.Tidy E false := by
    rw [hp.behind]
    exact allClean_lowerAt hs hp.bodyFresh hp.bodyReady
  rw [h4, h3, h2, and_assoc]

theorem tidyLowered_whileLoop {c : ℕ} (isDoWhile : Bool) (hs : TidyLowered E names s)
    (hins : b.Known b.insert) (hfits : s.Fits names true true)
    (hlabels : ∀ l ∈ s.labels, b.Fresh (.label l)) :
    (AllClean E (whileLoop E isDoWhile c (lower E none s) b) ↔
      AllClean E b ∧ b.closed E = false ∧ s.Tidy E false) ∧
    (whileLoop E isDoWhile c (lower E none s) b).closed E = false := by
  obtain ⟨first, b1, b2, b3, b4, -, heq, hp⟩ := whileLoop_parts (E := E) isDoWhile hins hfits hlabels c
  rw [heq]
  have hclean := allClean_loop hs hins hp
  exact ⟨hclean,
    closed_fresh (hp.rest (b.count + 2) (by omega) (by omega) (by omega)).pop⟩

theorem tidyLowered_for {c : ℕ} {incr : Option ℕ} (hs : TidyLowered E names s) :
    TidyLowered E names (.for_ c incr s) := by
  intro b hb
  obtain ⟨b1, b2, b3, b4, heq, hp⟩ := for_parts (E := E) incr hb.insert hb.fits hb.labels c
  have hincr := hp.rest (b.count + 1) (by omega) (by omega) (by omega)
  have hframe5 := (Frame.position (T := (· = .num (b.count + 1))) rfl hincr.known).trans
    ((lowerOptional_frame incr _).trans (.branchIfOpen E _ (.num b.count)))
  have hend := hframe5.fresh (hp.rest (b.count + 3) (by omega) (by omega) (by omega)) (by simp)
  rw [heq]
  refine ⟨?_, fun _ => closed_fresh hend.pop⟩
  have hopt : AllClean E (lowerOptional incr (b4.positionAtEnd (.num (b.count + 1)))) ↔
      AllClean E b4 := by
    cases incr with
    | none => exact Iff.rfl
    | some e =>
      rw [lowerOptional, lowerExpr, allClean_emit hincr.known, closed_fresh hincr]
      simp [AllClean, positionAtEnd, Known]
  have hbranch : AllClean E ((lowerOptional incr (b4.positionAtEnd (.num (b.count + 1)))).branchIfOpen
      E (.num b.count)) ↔ AllClean E b4 :=
    (allClean_branchIfOpen ((lowerOptional_frame (T := fun _ => False) incr _).known
      hincr.known)).trans hopt
  exact hbranch.trans (allClean_loop hs hb.insert hp)

theorem tidyLowered_seq (hs : TidyLowered E names s) (ht : TidyLowered E names t) :
    TidyLowered E names (.seq s t) := by
  intro b hb
  obtain ⟨hbs, hbt, -⟩ := seq_parts (E := E) hb (.inl rfl)
  rw [lower_seq E (.inl rfl)]
  obtain ⟨hs1, hs2⟩ := hs b hbs
  obtain ⟨ht1, ht2⟩ := ht _ hbt
  constructor
  · rw [ht1]
    constructor
    · rintro ⟨hclean, htidy⟩
      rw [hs2 hclean] at htidy
      exact ⟨(hs1.1 hclean).1, (hs1.1 hclean).2, htidy⟩
    · rintro ⟨hclean, hstidy, httidy⟩
      have hclean' := hs1.2 ⟨hclean, hstidy⟩
      exact ⟨hclean', by rw [hs2 hclean']; exact httidy⟩
  · intro hclean
    rw [ht2 hclean, hs2 (ht1.1 hclean).1]
    rfl

theorem tidyLowered_labeled {l : String} (hs : TidyLowered E names s) :
    TidyLowered E names (.labeled l s) := by
  intro b hb
  obtain ⟨hfresh, hbs⟩ := labeled_parts (E := E) hb
  simp only [lower]
  obtain ⟨hs1, hs2⟩ := hs _ hbs
  rw [closed_fresh hfresh] at hs1 hs2
  exact ⟨hs1.trans (and_congr_left' (allClean_branchIfOpen (b := b.labelBlock l) hb.insert)), hs2⟩

/-- A statement that is lowered to one jump. -/
theorem tidyLowered_jump (hs : ∀ b, Ready names none s b →
    ∃ b' i, i.isTerminator ∧ lower E none s b = b'.emit i ∧ b'.Known b'.insert ∧
      (AllClean E b' ∧ b'.closed E = false ↔ AllClean E b ∧ b.closed E = false))
    (htidy : ∀ dead, s.Tidy E dead ↔ dead = false) (hjumped : ∀ dead, s.jumped dead = true) :
    TidyLowered E names s := by
  intro b hb
  obtain ⟨b', i, hi, heq, hins, hiff⟩ := hs b hb
  have hreal : i.isReal E = true := by
    cases i <;> first | rfl | cases hi
  rw [heq, allClean_emit hins, closed_emit, if_pos hreal, htidy, hjumped]
  exact ⟨by simpa [hreal] using hiff, fun _ => hi⟩

theorem branchToTop_eq {stack : List BlockId} (h : stack.head?.isSome) (b : Builder) :
    ∃ target, branchToTop stack b = b.emit (.br target) := by
  cases stack with
  | nil => cases h
  | cons target stack => exact ⟨target, rfl⟩

theorem allClean_lowerOptional {e : Option ℕ} (h : b.Known b.insert) :
    AllClean E (lowerOptional e b) ∧ (lowerOptional e b).closed E = false ↔
      AllClean E b ∧ b.closed E = false := by
  cases e with
  | none => exact Iff.rfl
  | some e =>
    rw [lowerOptional, lowerExpr, allClean_emit h, closed_emit]
    cases he : E.emits e <;> simp [Instr.isReal, Instr.isTerminator, he]

theorem tidyLowered (s : Stmt) (h : s.NoSwitch) : TidyLowered E names s := by
  induction s with
  | skip =>
    intro b hb
    simp [lower, Stmt.Tidy, Stmt.jumped]
  | expr e =>
    intro b hb
    simp only [lower, lowerExpr]
    rw [allClean_emit hb.insert, closed_emit]
    refine ⟨Iff.rfl, fun hclean => ?_⟩
    split_ifs with he
    · exact (hclean.2 he).symm
    · rfl
  | case_ l =>
    intro b hb
    simp [lower, Stmt.Tidy, Stmt.jumped]
  | seq s t ihs iht => exact tidyLowered_seq (ihs h.1) (iht h.2)
  | ite c s t ihs iht => exact tidyLowered_ite (ihs h.1) (iht h.2)
  | while_ c s ih =>
    intro b hb
    obtain ⟨h1, h2⟩ := tidyLowered_whileLoop (c := c) false (ih h) hb.insert hb.fits hb.labels
    simp only [lower]
    exact ⟨h1, fun _ => h2⟩
  | doWhile s c ih =>
    intro b hb
    obtain ⟨h1, h2⟩ := tidyLowered_whileLoop (c := c) true (ih h) hb.insert hb.fits hb.labels
    simp only [lower]
    exact ⟨h1, fun _ => h2⟩
  | for_ c i s ih => exact tidyLowered_for (ih h)
  | switch c s => exact h.elim
  | labeled l s ih => exact tidyLowered_labeled (ih h)
  | break_ =>
    refine tidyLowered_jump (fun b hb => ?_) (fun _ => Iff.rfl) fun _ => rfl
    obtain ⟨target, heq⟩ := branchToTop_eq hb.fits b
    exact ⟨b, .br target, rfl, by simp only [lower]; exact heq, hb.insert, Iff.rfl⟩
  | continue_ =>
    refine tidyLowered_jump (fun b hb => ?_) (fun _ => Iff.rfl) fun _ => rfl
    obtain ⟨target, heq⟩ := branchToTop_eq hb.fits b
    exact ⟨b, .br target, rfl, by simp only [lower]; exact heq, hb.insert, Iff.rfl⟩
  | goto_ l =>
    refine tidyLowered_jump (fun b hb => ?_) (fun _ => Iff.rfl) fun _ => rfl
    exact ⟨b.labelBlock l, .br (.label l), rfl, by simp only [lower], hb.insert, Iff.rfl⟩
  | return_ e =>
    refine tidyLowered_jump (fun b hb => ?_) (fun _ => Iff.rfl) fun _ => rfl
    exact ⟨lowerOptional e b, .ret, rfl, by simp only [lower],
      (lowerOptional_frame (T := fun _ => False) e b).known hb.insert,
      allClean_lowerOptional hb.insert⟩

end Tidy

section Invariants

variable (E : Expressions)

/-- A property of builders that everything the lowering does keeps. -/
structure Builder.Kept (P : Builder → Prop) : Prop where
  emit : ∀ b i, i ≠ .unreachable → P b → P (b.emit i)
  append : ∀ b, P b → P b.appendBasicBlock
  position : ∀ b id, P b → P (b.positionAtEnd id)
  labelBlock : ∀ b l, P b → P (b.labelBlock l)
  pushBreak : ∀ b id, P b → P (b.pushBreak id)
  pushContinue : ∀ b id, P b → P (b.pushContinue id)
  popBreak : ∀ b, P b → P b.popBreak
  popContinue : ∀ b, P b → P b.popContinue

variable {E} {P : Builder → Prop} {b : Builder}

theorem Builder.Kept.branchIfOpen (h : Kept P) (target : BlockId) (hb : P b) :
    P (b.branchIfOpen E target) := by
  unfold Builder.branchIfOpen
  split_ifs
  · exact hb
  · exact h.emit b _ (by simp) hb

theorem Builder.Kept.lowerOptional (h : Kept P) (e : Option ℕ) (hb : P b) :
    P (lowerOptional e b) := by
  cases e with
  | none => exact hb
  | some e => exact h.emit b _ (by simp) hb

theorem Builder.Kept.branchToTop (h : Kept P) (stack : List BlockId) (hb : P b) :
    P (branchToTop stack b) := by
  cases stack with
  | nil => exact hb
  | cons target stack => exact h.emit b _ (by simp) hb

theorem Builder.Kept.closeBlocks (h : Kept P) (target : BlockId) (ids : List BlockId) (hb : P b) :
    P (ids.foldl (closeBlock E target) b) := by
  induction ids generalizing b with
  | nil => exact hb
  | cons id ids ih => exact ih (h.branchIfOpen target (h.position b id hb))

theorem Builder.Kept.collectLabels (h : Kept P) (c : ℕ) (otherwise : BlockId) (s : Stmt)
    (hb : P b) : P (collectLabels E c otherwise s b).2 := by
  fun_induction OpticC.collectLabels E c otherwise s b with
  | case1 t b found b' heq ih =>
    rw [heq] at ih
    exact ih hb
  | case2 l t b hl block found b' heq ih =>
    rw [heq] at ih
    exact ih (h.append b hb)
  | case3 s t b hdef hcase ih => exact ih hb
  | case4 => exact hb

theorem Builder.Kept.closeSwitch (h : Kept P) (found : SwitchLabels) (otherwise target : BlockId)
    (hb : P b) : P (closeSwitch E found otherwise target b) := by
  unfold OpticC.closeSwitch
  cases found.hasDefault with
  | true => exact h.closeBlocks target _ hb
  | false => exact h.closeBlocks target _ (h.branchIfOpen target (h.position b otherwise hb))

theorem Builder.Kept.whileLoop (h : Kept P) (isDoWhile : Bool) (c : ℕ) {body : Builder → Builder}
    (hbody : ∀ b, P b → P (body b)) (hb : P b) : P (whileLoop E isDoWhile c body b) := by
  have hnew := h.append _ (h.append _ (h.append b hb))
  have hcond := h.emit _ (.eval c) (by simp) (h.position _ (.num b.count)
    (h.emit _ (.br (if isDoWhile then .num (b.count + 1) else .num b.count)) (by simp)
      (h.pushContinue _ (.num b.count) (h.pushBreak _ (.num (b.count + 2)) hnew))))
  have hrest := h.branchIfOpen (E := E) (.num b.count) (hbody _ (h.position _ (.num (b.count + 1))
    (h.emit _ (.condBr c (.num (b.count + 1)) (.num (b.count + 2))) (by simp) hcond)))
  exact h.position _ _ (h.popContinue _ (h.popBreak _ hrest))

theorem Builder.Kept.lower (h : Kept P) (blocks : Option (List BlockId)) (s : Stmt) (hb : P b) :
    P (lower E blocks s b) := by
  induction s generalizing blocks b with
  | seq s t ihs iht =>
    obtain hplain | ⟨B, bs, l, rfl, rfl⟩ := seq_cases blocks s
    · rw [lower_seq E hplain]
      exact iht blocks (ihs none hb)
    · rw [OpticC.lower]
      exact iht (some bs) (h.position _ B (h.branchIfOpen B hb))
  | ite c s t ihs iht =>
    simp only [OpticC.lower]
    have hc := h.append _ (h.append _ (h.append _ (h.emit b (.eval c) (by simp) hb)))
    have hs := h.branchIfOpen (E := E) (.num (b.count + 2)) (ihs none (h.position _ (.num b.count)
      (h.emit _ (.condBr c (.num b.count) (.num (b.count + 1))) (by simp) hc)))
    exact h.position _ _ (h.branchIfOpen _ (iht none (h.position _ _ hs)))
  | while_ c s ih =>
    simp only [OpticC.lower]
    exact h.whileLoop false c (fun b hb => ih none hb) hb
  | doWhile s c ih =>
    simp only [OpticC.lower]
    exact h.whileLoop true c (fun b hb => ih none hb) hb
  | for_ c i s ih =>
    simp only [OpticC.lower]
    have hnew := h.append _ (h.append _ (h.append _ (h.append b hb)))
    have hcond := h.emit _ (.eval c) (by simp) (h.position _ (.num b.count)
      (h.emit _ (.br (.num b.count)) (by simp) (h.pushContinue _ (.num (b.count + 1))
        (h.pushBreak _ (.num (b.count + 3)) hnew))))
    have hbody := h.branchIfOpen (E := E) (.num (b.count + 1)) (ih none (h.position _
      (.num (b.count + 2)) (h.emit _ (.condBr c (.num (b.count + 2)) (.num (b.count + 3)))
        (by simp) hcond)))
    have hincr := h.branchIfOpen (E := E) (.num b.count) (h.lowerOptional i (h.position _
      (.num (b.count + 1)) hbody))
    exact h.position _ _ (h.popContinue _ (h.popBreak _ hincr))
  | switch c s ih =>
    simp only [OpticC.lower, lowerExpr_count]
    have hcond := h.append _ (h.append _ (h.emit b (.eval c) (by simp) hb))
    have hcollect := h.collectLabels (E := E) c (.num (b.count + 1)) s hcond
    have hswitch := h.emit _ (.switch c (.num (b.count + 1)) (dedupCases
      (OpticC.collectLabels E c (.num (b.count + 1)) s
        (lowerExpr c b).appendBasicBlock.appendBasicBlock).1.cases)) (by simp) hcollect
    have hitems := h.branchIfOpen (E := E) (.num b.count)
      (ih (some (OpticC.collectLabels E c (.num (b.count + 1)) s
        (lowerExpr c b).appendBasicBlock.appendBasicBlock).1.blocks)
        (h.pushBreak _ (.num b.count) hswitch))
    exact h.position _ _ (h.popBreak _ (h.closeSwitch _ _ _ hitems))
  | labeled l s ih =>
    simp only [OpticC.lower]
    exact ih none (h.position _ _ (h.branchIfOpen _ (h.labelBlock b l hb)))
  | break_ =>
    simp only [OpticC.lower]
    exact h.branchToTop _ hb
  | continue_ =>
    simp only [OpticC.lower]
    exact h.branchToTop _ hb
  | goto_ l =>
    simp only [OpticC.lower]
    exact h.emit _ _ (by simp) (h.labelBlock b l hb)
  | return_ e =>
    simp only [OpticC.lower]
    exact h.emit _ _ (by simp) (h.lowerOptional e hb)
  | expr e =>
    simp only [OpticC.lower]
    exact h.emit b _ (by simp) hb
  | skip =>
    simp only [OpticC.lower]
    exact hb
  | case_ l =>
    simp only [OpticC.lower]
    exact hb

end Invariants

section Functions

variable {E : Expressions} {b : Builder} {s : Stmt}

theorem kept_label (l : String) : Kept fun b => l ∈ b.labels where
  emit _ _ _ h := h
  append _ h := h
  position _ _ h := h
  labelBlock b l' h := by
    unfold labelBlock
    split_ifs
    · exact h
    · exact List.mem_cons_of_mem _ h
  pushBreak _ _ h := h
  pushContinue _ _ h := h
  popBreak _ h := h
  popContinue _ h := h

theorem kept_unreachable : Kept fun b => ∀ id, .unreachable ∉ b.code id where
  emit b i hi h id := by
    by_cases hid : id = b.insert
    · subst hid
      rw [emit_code]
      simpa using ⟨h _, Ne.symm hi⟩
    · rw [show (b.emit i).code id = b.code id from if_neg hid]
      exact h id
  append b h id := by
    by_cases hid : id = .num b.count
    · simp [appendBasicBlock, hid]
    · rw [show b.appendBasicBlock.code id = b.code id from if_neg hid]
      exact h id
  position _ _ h := h
  labelBlock _ _ h := h
  pushBreak _ _ h := h
  pushContinue _ _ h := h
  popBreak _ h := h
  popContinue _ h := h

/-- The labels of a statement all get a block. -/
theorem lower_labels (h : s.NoSwitch) {l : String} (hl : l ∈ s.labels) (b : Builder) :
    l ∈ (lower E none s b).labels := by
  have hkept := kept_label l
  induction s generalizing b with
  | seq s t ihs iht =>
    rw [lower_seq E (.inl rfl)]
    rcases List.mem_append.1 hl with hl | hl
    · exact hkept.lower none t (ihs h.1 hl b)
    · exact iht h.2 hl _
  | ite c s t ihs iht =>
    simp only [lower]
    rcases List.mem_append.1 hl with hl | hl
    · exact hkept.position _ _ (hkept.branchIfOpen _ (hkept.lower none t
        (hkept.position _ _ (hkept.branchIfOpen _ (ihs h.1 hl _)))))
    · exact hkept.position _ _ (hkept.branchIfOpen _ (iht h.2 hl _))
  | while_ c s ih =>
    simp only [lower, whileLoop]
    exact hkept.branchIfOpen _ (ih h hl _)
  | doWhile s c ih =>
    simp only [lower, whileLoop]
    exact hkept.branchIfOpen _ (ih h hl _)
  | for_ c i s ih =>
    simp only [lower]
    exact hkept.branchIfOpen _ (hkept.lowerOptional i
      (hkept.position _ _ (hkept.branchIfOpen _ (ih h hl _))))
  | switch c s => exact h.elim
  | labeled l' s ih =>
    simp only [lower]
    rcases List.mem_cons.1 hl with rfl | hl
    · refine hkept.lower none s (hkept.position _ _ (hkept.branchIfOpen _ ?_))
      unfold labelBlock
      split_ifs with hmem
      · simpa using hmem
      · exact List.mem_cons_self
    · exact ih h hl _
  | _ => cases hl

theorem terminated_ok (scalarReturn : Bool) (id : BlockId) (code : List Instr) :
    hasTerminator E (terminated E scalarReturn id code) = true ∧
      (Clean E (terminated E scalarReturn id code) ↔ Clean E code) := by
  unfold terminated
  split_ifs with h
  · exact ⟨h, Iff.rfl⟩
  · rw [hasTerminator_append, clean_append]
    simp [Instr.isReal, Instr.isTerminator, h]
  · rw [hasTerminator_append, clean_append]
    simp [Instr.isReal, Instr.isTerminator, h]

/-- Only an empty block becomes one that holds `unreachable` first. -/
theorem terminated_head {scalarReturn : Bool} {id : BlockId} {code : List Instr}
    (h : .unreachable ∉ code)
    (hhead : ((terminated E scalarReturn id code).filter (Instr.isReal E)).head? =
      some .unreachable) : code.filter (Instr.isReal E) = [] := by
  cases hcode : code.filter (Instr.isReal E) with
  | nil => rfl
  | cons i rest =>
    have hi : i = .unreachable := by
      unfold terminated at hhead
      split_ifs at hhead <;> simpa [List.filter_append, hcode] using hhead
    have hmem : i ∈ code.filter (Instr.isReal E) := hcode ▸ List.mem_cons_self
    exact absurd (List.mem_filter.1 hmem).1 (hi ▸ h)

theorem mem_ids {id : BlockId} :
    id ∈ b.ids ↔ b.Known id ∧ ∀ l, id = .label l → l ∈ b.labels := by
  cases id <;> simp [ids, Known]

theorem wellFormed_finish (scalarReturn : Bool) (hins : b.Known b.insert)
    (hunreachable : ∀ id, .unreachable ∉ b.code id)
    (hlabels : ∀ l, l ∉ b.labels → b.code (.label l) = [] ∧ b.insert ≠ .label l) :
    WellFormed E (finish E scalarReturn b) ↔ AllClean E b := by
  obtain ⟨b', hb'⟩ : ∃ b', defaultReturn E b = b' := ⟨_, rfl⟩
  have hreturned : (AllClean E b' ↔ AllClean E b) ∧ (∀ id, .unreachable ∉ b'.code id) ∧
      ∀ l, l ∉ b'.labels → b'.code (.label l) = [] := by
    subst hb'
    unfold defaultReturn
    split_ifs with hclosed
    · exact ⟨Iff.rfl, hunreachable, fun l hl => (hlabels l hl).1⟩
    · refine ⟨?_, kept_unreachable.emit b _ (by simp) hunreachable, fun l hl => ?_⟩
      · rw [allClean_emit hins]
        simp [hclosed]
      · rw [← (hlabels l hl).1]
        exact if_neg (Ne.symm (hlabels l hl).2)
  obtain ⟨hiff, hunreachable', hlabels'⟩ := hreturned
  rw [← hiff]
  simp only [finish, hb']
  constructor
  · intro hwf id hid
    by_cases hmem : id ∈ b'.ids
    · cases hdead : isDead E b'.ids (fun id => terminated E scalarReturn id (b'.code id)) id with
      | false =>
        exact (terminated_ok scalarReturn id _).2.1
          (hwf id (List.mem_filter.2 ⟨hmem, by simp [hdead]⟩)).2
      | true =>
        have hhead := of_decide_eq_true (Bool.and_eq_true_iff.1 hdead).2
        simp [Clean, terminated_head (hunreachable' id) hhead]
    · cases id with
      | num n => exact absurd (mem_ids.2 ⟨hid, nofun⟩) hmem
      | label l =>
        have hl : l ∉ b'.labels := fun hl =>
          hmem (mem_ids.2 ⟨hid, fun l' h => BlockId.label.inj h ▸ hl⟩)
        rw [hlabels' l hl]
        exact clean_nil
  · intro hclean id hid
    have hmem := (List.mem_filter.1 hid).1
    obtain ⟨hterm, hclean'⟩ := terminated_ok (E := E) scalarReturn id (b'.code id)
    exact ⟨hterm, hclean'.2 (hclean id (mem_ids.1 hmem).1)⟩

/-- The function that a body without switches becomes is well formed exactly when the body
is tidy. -/
theorem wellFormed_lowerBody (scalarReturn : Bool) (hvalid : s.JumpsValid) (hplain : s.NoSwitch) :
    WellFormed E (lowerBody E scalarReturn s) ↔ s.Tidy E false := by
  have hready : Ready s.labels none s entry :=
    entry_ready (Stmt.fits_of_valid hvalid.unique hvalid.declared hvalid.enclosed hvalid.defaults)
  have hframe := lower_frame_none (E := E) s entry
  have hclean : AllClean E entry := fun id _ => clean_nil
  rw [lowerBody, wellFormed_finish scalarReturn (hframe.known hready.insert)
    (kept_unreachable.lower none s fun _ => List.not_mem_nil) fun l hl => ?_,
    (tidyLowered s hplain entry hready).1]
  · exact and_iff_right hclean
  · have hnot : l ∉ s.labels := fun h => hl (lower_labels hplain h entry)
    have hfresh : entry.Fresh (.label l) := ⟨known_label _ l, rfl, nofun⟩
    have := hframe.fresh hfresh fun h => hnot (touch_label.1 h)
    exact ⟨this.empty, this.away⟩

end Functions

end OpticC
