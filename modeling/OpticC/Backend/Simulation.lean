import OpticC.Backend.Compiled

/-! Code that carries out the body of a function shows the trace C prescribes: the
simulation between the C machine and the machine of the emitted code. -/

namespace OpticC

open Behaviour

section Measure

def Stmt.size : Stmt → ℕ
  | .skip => 1
  | .seq s t => s.size + t.size + 2
  | .ite _ s t => s.size + t.size + 2
  | .while_ _ s => s.size + 3
  | .doWhile s _ => s.size + 3
  | .for_ _ _ s => s.size + 3
  | .switch _ s => s.size + 3
  | .labeled _ s => s.size + 2
  | _ => 2

def Cont.size : Cont → ℕ
  | .stop => 0
  | .seq s k => s.size + k.size + 1
  | .loop _ _ _ k => k.size + 1
  | .switch k => k.size + 1

/-- How many steps the code may have none for. -/
def stutter : CState → ℕ
  | ⟨.run s k, _⟩ => s.size + k.size
  | ⟨.test _ _ _ k, _⟩ => k.size
  | ⟨.done, _⟩ => 0

theorem Cont.size_break {k k' : Cont} (h : k.break_ = some k') : k'.size ≤ k.size := by
  induction k with
  | stop => cases h
  | seq s k ih =>
    have := ih h
    simp only [Cont.size]
    omega
  | loop c i s k =>
    cases h
    simp only [Cont.size]
    omega
  | switch k =>
    cases h
    simp only [Cont.size]
    omega

theorem Cont.size_continue {k k' : Cont} (h : k.continue_ = some k') : k'.size ≤ k.size := by
  induction k with
  | stop => cases h
  | seq s k ih =>
    have := ih h
    simp only [Cont.size]
    omega
  | loop c i s k =>
    cases h
    exact Nat.le_refl _
  | switch k ih =>
    have := ih h
    simp only [Cont.size]
    omega

end Measure

variable {E : Expressions} {F : BlockId → List Instr} {names : List String}


section Continuations

theorem ContAt.of_reach {brk cont : Option BlockId} {p q : Pos} {k : Cont} (h : Reach F p q)
    (hk : ContAt E F names brk cont q k) : ContAt E F names brk cont p k := by
  cases hk with
  | stop h' => exact .stop (h.trans h')
  | seq h' hc hk => exact .seq (h.trans h') hc hk
  | loop h' hn hcond hc hm hk => exact .loop (h.trans h') hn hcond hc hm hk
  | switch h' hk => exact .switch (h.trans h') hk

theorem ContAt.break_ {brk cont : Option BlockId} {target : BlockId} {p : Pos} {k : Cont}
    (hk : ContAt E F names brk cont p k) (hbrk : brk = some target) :
    ∃ k' brk' cont', k.break_ = some k' ∧ ContAt E F names brk' cont' (some (F target)) k' := by
  induction hk with
  | stop => cases hbrk
  | seq _ _ _ ih => exact ih hbrk
  | loop _ _ _ _ _ hk =>
    cases hbrk
    exact ⟨_, _, _, rfl, hk⟩
  | switch _ hk =>
    cases hbrk
    exact ⟨_, _, _, rfl, hk⟩

theorem ContAt.continue_ {brk cont : Option BlockId} {target : BlockId} {p : Pos} {k : Cont}
    (hk : ContAt E F names brk cont p k) (hcont : cont = some target) :
    ∃ k' brk' cont', k.continue_ = some k' ∧
      ContAt E F names brk' cont' (some (F target)) k' := by
  induction hk with
  | stop => cases hcont
  | seq _ _ _ ih => exact ih hcont
  | loop _ hn hcond hc hm hk =>
    cases hcont
    exact ⟨_, _, _, rfl, .loop (.refl F _) hn hcond hc hm hk⟩
  | switch _ _ ih => exact ih hcont

end Continuations

section Labels

theorem findLabel_isSome {l : String} {s : Stmt} (h : l ∈ s.labels) (k : Cont) :
    (findLabel l s k).isSome := by
  induction s generalizing k with
  | seq s t ihs iht =>
    rcases List.mem_append.1 h with h | h
    · simp [findLabel, ihs h]
    · simp [findLabel, iht h]
  | ite c s t ihs iht =>
    rcases List.mem_append.1 h with h | h
    · simp [findLabel, ihs h]
    · simp [findLabel, iht h]
  | while_ c s ih => exact ih h _
  | doWhile s c ih => exact ih h _
  | for_ c i s ih => exact ih h _
  | switch c s ih => exact ih h _
  | labeled l' s ih =>
    unfold findLabel
    split_ifs with hl
    · rfl
    · exact ih ((List.mem_cons.1 h).resolve_left fun h' => hl h'.symm) k
  | _ => cases h

/-- Where C goes on at a label, the block of the label goes on. -/
theorem Compiled.findLabel {labs : Option (List (CaseLabel × BlockId))}
    {brk cont : Option BlockId} {s s' : Stmt} {p q : Pos} {k k' : Cont} {l : String}
    (h : Compiled E F names labs brk cont s p q) (hk : ContAt E F names brk cont q k)
    (hl : OpticC.findLabel l s k = some (s', k')) :
    ∃ brk' cont' q', Compiled E F names none brk' cont' s' (some (F (.label l))) q' ∧
      ContAt E F names brk' cont' q' k' := by
  induction h generalizing k with
  | seq hs ht ihs iht =>
    rcases Option.or_eq_some_iff.1 hl with hl | ⟨-, hl⟩
    · exact ihs (.seq (.refl F _) ht hk) hl
    · exact iht hk hl
  | item _ hs ht ihs iht =>
    rcases Option.or_eq_some_iff.1 hl with hl | ⟨-, hl⟩
    · exact ihs (.seq (.refl F _) ht hk) hl
    · exact iht hk hl
  | label _ ht iht =>
    rcases Option.or_eq_some_iff.1 hl with hl | ⟨-, hl⟩
    · cases hl
    · exact iht hk hl
  | last _ _ ih => exact ih hk hl
  | ite _ _ hs hm ht hm' ihs iht =>
    rcases Option.or_eq_some_iff.1 hl with hl | ⟨-, hl⟩
    · exact ihs (.of_reach hm hk) hl
    · exact iht (.of_reach hm' hk) hl
  | while_ hp hcond hs hm ih => exact ih (.loop hm (.inl ⟨rfl, .refl _⟩) hcond hs hm hk) hl
  | doWhile hp hcond hs hm ih => exact ih (.loop hm (.inl ⟨rfl, .refl _⟩) hcond hs hm hk) hl
  | @for_ _ _ _ i _ _ _ _ tl' condB _ _ _ hp hcond hs hm hincr ih =>
    refine ih (.loop hm ?_ hcond hs hm hk) hl
    cases i with
    | none => exact .inl ⟨rfl, by rw [hincr]; exact .br (.refl _)⟩
    | some e => exact .inr ⟨e, tl', rfl, hincr⟩
  | switch _ _ _ hm _ _ ih => exact ih (.switch hm hk) hl
  | labeled hp hs ih =>
    unfold OpticC.findLabel at hl
    split_ifs at hl with heq
    · cases hl
      exact ⟨_, _, _, heq ▸ hs, hk⟩
    · exact ih hk hl
  | _ => cases hl

end Labels

section Dispatch

theorem findCase_none (P : CaseLabel → Bool) {s : Stmt} (h : ∀ l ∈ s.caseLabels, P l = false)
    (k : Cont) : findCase P s k = none := by
  induction s generalizing k with
  | seq s t ihs iht =>
    have hs := ihs (fun l hl => h l (List.mem_append_left _ hl)) (.seq t k)
    have ht := iht (fun l hl => h l (List.mem_append_right _ hl)) k
    simp [findCase, hs, ht]
  | ite c s t ihs iht =>
    have hs := ihs (fun l hl => h l (List.mem_append_left _ hl)) k
    have ht := iht (fun l hl => h l (List.mem_append_right _ hl)) k
    simp [findCase, hs, ht]
  | while_ c s ih => exact ih h _
  | doWhile s c ih => exact ih h _
  | for_ c i s ih => exact ih h _
  | labeled l s ih => exact ih h _
  | case_ l => simp [findCase, h l (List.mem_singleton_self l)]
  | _ => rfl

theorem Compiled.map_fst {labs : List (CaseLabel × BlockId)} {brk cont : Option BlockId}
    {s : Stmt} {p q : Pos} (h : Compiled E F names (some labs) brk cont s p q) :
    labs.map Prod.fst = s.itemLabels := by
  generalize hlabs : some labs = L at h
  induction h generalizing labs with
  | @item _ _ _ s _ _ _ _ hne _ _ _ iht =>
    cases hlabs
    rw [iht rfl]
    cases s with
    | case_ l => exact absurd rfl (hne l)
    | _ => rfl
  | label _ _ iht =>
    cases hlabs
    rw [List.map_cons, iht rfl]
    rfl
  | @last _ _ s _ _ hne _ _ =>
    cases hlabs
    cases s with
    | seq s t => exact absurd rfl (hne s t)
    | _ => rfl
  | _ => cases hlabs

/-- The first label of a switch body that a test accepts has the block where C goes on. -/
theorem Compiled.findCase {labs : List (CaseLabel × BlockId)} {brk cont : Option BlockId}
    {s : Stmt} {p q : Pos} {k : Cont} (h : Compiled E F names (some labs) brk cont s p q)
    (hk : ContAt E F names brk cont q k) (P : CaseLabel → Bool)
    (hinner : ∀ l ∈ s.innerLabels, P l = false) :
    (labs.find? (fun x => P x.1) = none → OpticC.findCase P s k = none) ∧
      ∀ x, labs.find? (fun x => P x.1) = some x → ∃ k', OpticC.findCase P s k = some k' ∧
        ∃ brk' cont', ContAt E F names brk' cont' (some (F x.2)) k' := by
  generalize hlabs : some labs = L at h
  induction h generalizing labs k with
  | @item _ _ _ s t _ _ _ hne _ _ _ iht =>
    cases hlabs
    rw [Stmt.innerLabels_seq hne] at hinner
    have hs := findCase_none P (fun l hl => hinner l (List.mem_append_left _ hl)) (.seq t k)
    simp only [OpticC.findCase, hs, Option.none_or]
    exact iht hk (fun l hl => hinner l (List.mem_append_right _ hl)) rfl
  | @label _ _ _ l B t _ _ _ ht iht =>
    cases hlabs
    obtain ⟨hnone, hsome⟩ := iht hk hinner rfl
    simp only [OpticC.findCase, List.find?_cons]
    cases hl : P l with
    | true =>
      refine ⟨fun h => by simp at h, fun x hx => ?_⟩
      simp only [Option.some.injEq] at hx
      subst hx
      exact ⟨_, rfl, _, _, .seq (.refl F _) ht hk⟩
    | false => exact ⟨hnone, hsome⟩
  | @last _ _ s _ _ hne _ _ =>
    cases hlabs
    refine ⟨fun _ => findCase_none P ?_ k, fun x hx => by cases hx⟩
    cases s with
    | seq s t => exact absurd rfl (hne s t)
    | _ => exact hinner
  | _ => cases hlabs

theorem lookup_filter_ne {α : Type} {n m : ℕ} (h : n ≠ m) (l : List (ℕ × α)) :
    (l.filter fun r => r.1 ≠ m).lookup n = l.lookup n := by
  induction l with
  | nil => rfl
  | cons r l ih =>
    by_cases hr : r.1 = m
    · have hn : (n == r.1) = false := by simpa [hr] using h
      rw [List.filter_cons_of_neg (by simpa using hr), ih, List.lookup_cons, hn]
    · rw [List.filter_cons_of_pos (by simpa using hr), List.lookup_cons, List.lookup_cons, ih]

theorem lookup_dedupCases (n : ℕ) (l : List (ℕ × BlockId)) :
    (dedupCases l).lookup n = l.lookup n := by
  induction l with
  | nil => rfl
  | cons q l ih =>
    rw [dedupCases, List.lookup_cons, List.lookup_cons]
    by_cases hq : n = q.1
    · simp [hq]
    · rw [lookup_filter_ne hq, ih]

theorem lookup_map_const (n : ℕ) (B : BlockId) (values : List ℕ) :
    (values.map (·, B)).lookup n = if n ∈ values then some B else none := by
  induction values with
  | nil => rfl
  | cons v values ih =>
    rw [List.map_cons, List.lookup_cons, ih]
    by_cases hv : n = v
    · simp [hv]
    · have hbeq : (n == v) = false := by simpa using hv
      simp [hbeq, hv]

/-- The switch instruction finds the first label that enters the value. -/
theorem lookup_switchEntries (c n : ℕ) (labs : List (CaseLabel × BlockId)) :
    (switchEntries E c labs).lookup n =
      (labs.find? fun x => n ∈ caseValues E c x.1).map Prod.snd := by
  rw [switchEntries, lookup_dedupCases]
  induction labs with
  | nil => rfl
  | cons x labs ih =>
    rw [List.flatMap_cons, List.lookup_append, ih, lookup_map_const, List.find?_cons]
    by_cases hx : n ∈ caseValues E c x.1 <;> simp [hx]

theorem find?_congr_of_mem {α : Type} {P Q : α → Bool} {l : List α} (h : ∀ x ∈ l, P x = Q x) :
    l.find? P = l.find? Q := by
  induction l with
  | nil => rfl
  | cons x l ih =>
    rw [List.find?_cons, List.find?_cons, h x (by simp), ih fun y hy => h y (by simp [hy])]

/-- On every value the switch instruction goes to a block where the code goes on as C
does. -/
theorem ContAt.selectCase {c : ℕ} {v : ℤ} {s : Stmt} {m : Pos} {k : Cont}
    {labs : List (CaseLabel × BlockId)} {endB otherwise : BlockId} {brk cont : Option BlockId}
    (hex : DispatchExact E c s v)
    (hs : Compiled E F names (some labs) (some endB) cont s none m)
    (hm : Reach F m (some (F endB)))
    (hdef : ∀ B, (CaseLabel.default_, B) ∈ labs → B = otherwise)
    (hno : (∀ B, (CaseLabel.default_, B) ∉ labs) → Reach F (some (F otherwise)) (some (F endB)))
    (hk : ContAt E F names brk cont (some (F endB)) k) :
    ∃ brk' cont', ContAt E F names brk' cont'
      (some (F (switchTarget E c otherwise (switchEntries E c labs) v)))
      (OpticC.selectCase E.toConstants c v s k) := by
  have hmem : ∀ x ∈ labs, x.1 ∈ s.itemLabels := by
    intro x hx
    rw [← hs.map_fst]
    exact List.mem_map.2 ⟨x, hx, rfl⟩
  have hcongr : (labs.find? fun x => (BitVec.ofInt (E.width c) v).toNat ∈ caseValues E c x.1) =
      labs.find? fun x => x.1.Takes E.toConstants c v := by
    exact find?_congr_of_mem fun x hx => decide_eq_decide.2 (hex.entered x.1 (hmem x hx))
  rw [switchTarget, lookup_switchEntries, hcongr, OpticC.selectCase]
  have hend : ContAt E F names (some endB) cont m (.switch k) := .switch hm hk
  obtain ⟨hnone, hsome⟩ := hs.findCase hend (fun l => l.Takes E.toConstants c v)
    fun l hl => decide_eq_false (hex.inner l hl)
  cases hfind : labs.find? fun x => x.1.Takes E.toConstants c v with
  | some x =>
    obtain ⟨k', hk', hcont⟩ := hsome x hfind
    rw [hk']
    exact hcont
  | none =>
    rw [hnone hfind, Option.none_or]
    have hinner : CaseLabel.default_ ∉ s.innerLabels := by
      intro h
      obtain ⟨l, hl, htakes⟩ := hex.default_ h
      rw [← hs.map_fst] at hl
      obtain ⟨x, hx, rfl⟩ := List.mem_map.1 hl
      exact List.find?_eq_none.1 hfind x hx (decide_eq_true htakes)
    obtain ⟨hnone, hsome⟩ := hs.findCase hend (fun l => l = .default_)
      fun l hl => decide_eq_false fun h => hinner (h ▸ hl)
    cases hfind : labs.find? fun x => decide (x.1 = .default_) with
    | some x =>
      obtain ⟨k', hk', hcont⟩ := hsome x hfind
      have hx : x.1 = .default_ := by simpa using List.find?_some hfind
      have hB : x.2 = otherwise := hdef x.2 (by rw [← hx]; exact List.mem_of_find?_eq_some hfind)
      rw [hk', ← hB]
      exact hcont
    | none =>
      rw [hnone hfind]
      refine ⟨brk, cont, hk.of_reach (hno fun B hB => ?_)⟩
      have := List.find?_eq_none.1 hfind _ hB
      simp at this

end Dispatch

section Paths

variable {ω : Oracle} {tr : Trace}

theorem Leads.path {l l' : List Instr} (h : Leads F l l') :
    ∃ n, Path (fMachine E ω F) n ⟨.running l, tr⟩ ⟨.running l', tr⟩ := by
  induction h with
  | refl l => exact ⟨0, .refl _ _⟩
  | br _ ih =>
    obtain ⟨n, hn⟩ := ih
    exact ⟨1 + n, (Path.one rfl).trans hn (.inl rfl)⟩

/-- Branches, then one step. -/
theorem Leads.step {l l' : List Instr} {t : FState} (h : Leads F l l')
    (hstep : fStep E ω F ⟨.running l', tr⟩ = some t) :
    ∃ n, Path (fMachine E ω F) (n + 1) ⟨.running l, tr⟩ t := by
  obtain ⟨n, hn⟩ := h.path
  exact ⟨n, hn.trans (.one hstep) (.inl rfl)⟩

/-- Branches, the evaluation of an expression, and one step that shows nothing. -/
theorem Leads.eval_step {l l' : List Instr} {e : ℕ} {t : FState}
    (h : Leads F l (.eval e :: l')) (hstep : fStep E ω F ⟨.running l', tr ++ [e]⟩ = some t)
    (ht : t.trace = tr ++ [e]) :
    ∃ n, Path (fMachine E ω F) (n + 1) ⟨.running l, tr⟩ t := by
  have heval : fStep E ω F ⟨.running (.eval e :: l'), tr⟩ = some ⟨.running l', tr ++ [e]⟩ := rfl
  obtain ⟨n, hn⟩ := h.step heval
  exact ⟨n + 1, hn.trans (.one hstep) (.inr ht.symm)⟩

end Paths

section Match

/-- The states of C and of the code that stand for each other. -/
inductive Match (E : Expressions) (F : BlockId → List Instr) (names : List String)
    : CState → FState → Prop
  | run {labs : Option (List (CaseLabel × BlockId))} {brk cont : Option BlockId} {s : Stmt}
      {k : Cont} {l l' : List Instr} {q : Pos} {tr : Trace} : Leads F l l' →
      Compiled E F names labs brk cont s (some l') q → ContAt E F names brk cont q k →
      Match E F names ⟨.run s k, tr⟩ ⟨.running l, tr⟩
  | test {brk cont : Option BlockId} {c : ℕ} {i : Option ℕ} {s : Stmt} {k : Cont}
      {l tl : List Instr} {m : Pos} {condB nextB bodyB endB : BlockId} {tr : Trace} :
      Leads F l (F condB) →
      (i = none ∧ Leads F (F nextB) (F condB) ∨
        ∃ e tl', i = some e ∧ F nextB = .eval e :: .br condB :: tl') →
      F condB = .eval c :: .condBr c bodyB endB :: tl →
      Compiled E F names none (some endB) (some nextB) s (some (F bodyB)) m →
      Reach F m (some (F nextB)) → ContAt E F names brk cont (some (F endB)) k →
      Match E F names ⟨.test c i s k, tr⟩ ⟨.running l, tr⟩
  | done {tr : Trace} : Match E F names ⟨.done, tr⟩ ⟨.returned, tr⟩

theorem Match.skip {brk cont : Option BlockId} {k : Cont} {l : List Instr} {tr : Trace}
    (hk : ContAt E F names brk cont (some l) k) :
    Match E F names ⟨.run .skip k, tr⟩ ⟨.running l, tr⟩ :=
  .run (.refl l) (.skip) hk

end Match

section Steps

variable {ω : Oracle} {body : Stmt} {tr : Trace} {l : List Instr}

/-- The code has a path to a state that stands for the next state of C, or the next state
already stands for the same and fewer steps without code are left. -/
def Follows (E : Expressions) (F : BlockId → List Instr) (names : List String)
    (ω : Oracle) (s s' : CState) (t : FState) : Prop :=
  (Match E F names s' t ∧ stutter s' < stutter s) ∨
    ∃ n t', Path (fMachine E ω F) (n + 1) t t' ∧ Match E F names s' t'

/-- The test of a loop. -/
theorem follows_test {s : CState} {c : ℕ} {i : Option ℕ} {b : Stmt} {k : Cont}
    {brk cont : Option BlockId} {tl : List Instr} {m : Pos} {condB nextB bodyB endB : BlockId}
    (hl : Leads F l (F condB))
    (hnext : i = none ∧ Leads F (F nextB) (F condB) ∨
      ∃ e tl', i = some e ∧ F nextB = .eval e :: .br condB :: tl')
    (hcond : F condB = .eval c :: .condBr c bodyB endB :: tl)
    (hb : Compiled E F names none (some endB) (some nextB) b (some (F bodyB)) m)
    (hm : Reach F m (some (F nextB))) (hk : ContAt E F names brk cont (some (F endB)) k) :
    Follows E F names ω s
      (execute ω tr c fun v => if v ≠ 0 then .run b (.loop c i b k) else .run .skip k)
      ⟨.running l, tr⟩ := by
  rw [hcond] at hl
  obtain ⟨n, hpath⟩ := hl.eval_step (E := E) (ω := ω) rfl rfl
  refine .inr ⟨n, _, hpath, ?_⟩
  unfold execute
  by_cases hv : ω (tr ++ [c]) ≠ 0
  · simp only [if_pos hv]
    exact .run (.refl _) hb (.loop hm hnext hcond hb hm hk)
  · simp only [if_neg hv]
    exact .skip hk

theorem follows_skip {brk cont : Option BlockId} {k : Cont} {s' : CState}
    (hk : ContAt E F names brk cont (some l) k)
    (hstep : cStep E.toConstants ω body ⟨.run .skip k, tr⟩ = some s') :
    Follows E F names ω ⟨.run .skip k, tr⟩ s' ⟨.running l, tr⟩ := by
  cases hk with
  | stop hret =>
    cases hstep
    obtain ⟨l', hl', hlead⟩ := hret l rfl
    cases hl'
    obtain ⟨n, hpath⟩ := hlead.step (E := E) (ω := ω) (t := ⟨.returned, tr⟩) rfl
    exact .inr ⟨n, _, hpath, .done⟩
  | @seq _ _ _ _ _ _ t k hreach hc hk =>
    cases hstep
    obtain ⟨l', rfl, hlead⟩ := hreach l rfl
    refine .inl ⟨.run hlead hc hk, ?_⟩
    simp only [stutter, Cont.size, Stmt.size]
    omega
  | @loop _ _ c i b k _ _ tl condB nextB bodyB endB hreach hnext hcond hb hm hk =>
    obtain ⟨l', hl', hlead⟩ := hreach l rfl
    cases hl'
    cases i with
    | none =>
      cases hstep
      have hlead' : Leads F (F nextB) (F condB) := by
        rcases hnext with ⟨-, h⟩ | ⟨e, tl', h, -⟩
        · exact h
        · cases h
      refine .inl ⟨.test (hlead.trans F hlead') hnext hcond hb hm hk, ?_⟩
      simp only [stutter, Cont.size, Stmt.size]
      omega
    | some e =>
      cases hstep
      obtain ⟨tl', htl'⟩ : ∃ tl', F nextB = .eval e :: .br condB :: tl' := by
        rcases hnext with ⟨h, -⟩ | ⟨e', tl', h, h'⟩
        · cases h
        · cases h
          exact ⟨tl', h'⟩
      rw [htl'] at hlead
      obtain ⟨n, hpath⟩ := hlead.eval_step (E := E) (ω := ω) rfl rfl
      exact .inr ⟨n, _, hpath, .test (.refl _) hnext hcond hb hm hk⟩
  | switch hreach hk =>
    cases hstep
    refine .inl ⟨.skip (.of_reach hreach hk), ?_⟩
    simp only [stutter, Cont.size, Stmt.size]
    omega

theorem follows_seq {labs : Option (List (CaseLabel × BlockId))} {brk cont : Option BlockId}
    {s t : Stmt} {k : Cont} {l' : List Instr} {q : Pos} (hl : Leads F l l')
    (hc : Compiled E F names labs brk cont (.seq s t) (some l') q)
    (hk : ContAt E F names brk cont q k) :
    Follows E F names ω ⟨.run (.seq s t) k, tr⟩ ⟨.run s (.seq t k), tr⟩ ⟨.running l, tr⟩ := by
  have hsize : stutter ⟨.run s (.seq t k), tr⟩ < stutter ⟨.run (.seq s t) k, tr⟩ := by
    simp only [stutter, Cont.size, Stmt.size]
    omega
  cases hc with
  | seq hs ht => exact .inl ⟨.run hl hs (.seq (.refl F _) ht hk), hsize⟩
  | item _ hs ht => exact .inl ⟨.run hl hs (.seq (.refl F _) ht hk), hsize⟩
  | label hreach ht => exact .inl ⟨.run hl .case_ (.seq hreach ht hk), hsize⟩
  | last hne _ => exact absurd rfl (hne s t)

/-- Outside of a sequence the labels of a switch body play no part. -/
theorem Compiled.none_of_ne_seq {labs : Option (List (CaseLabel × BlockId))}
    {brk cont : Option BlockId} {s : Stmt} {p q : Pos}
    (h : Compiled E F names labs brk cont s p q) (hne : ∀ t u, s ≠ .seq t u) :
    Compiled E F names none brk cont s p q := by
  cases h with
  | item => exact absurd rfl (hne _ _)
  | label => exact absurd rfl (hne _ _)
  | seq => exact absurd rfl (hne _ _)
  | last _ h => exact h
  | skip => exact .skip
  | expr h => exact .expr h
  | ite h1 h2 h3 h4 h5 h6 => exact .ite h1 h2 h3 h4 h5 h6
  | while_ h1 h2 h3 h4 => exact .while_ h1 h2 h3 h4
  | doWhile h1 h2 h3 h4 => exact .doWhile h1 h2 h3 h4
  | for_ h1 h2 h3 h4 h5 => exact .for_ h1 h2 h3 h4 h5
  | switch h1 h2 h3 h4 h5 h6 => exact .switch h1 h2 h3 h4 h5 h6
  | case_ => exact .case_
  | break_ h => exact .break_ h
  | continue_ h => exact .continue_ h
  | goto_ h1 h2 => exact .goto_ h1 h2
  | labeled h1 h2 => exact .labeled h1 h2
  | return_ h1 h2 => exact .return_ h1 h2

/-- A jump of the code that C does not show: the target goes on as C does. -/
theorem follows_jump {s : Stmt} {k k' : Cont} {l' : List Instr} {target : BlockId}
    {brk cont : Option BlockId} (hl : Leads F l l') (hj : Jumps (.br target) (some l'))
    (hk : ContAt E F names brk cont (some (F target)) k') (hs : 1 < s.size)
    (hsize : k'.size ≤ k.size) :
    Follows E F names ω ⟨.run s k, tr⟩ ⟨.run .skip k', tr⟩ ⟨.running l, tr⟩ := by
  obtain ⟨tl, rfl⟩ := hj l' rfl
  refine .inl ⟨.run (hl.trans F (.br (.refl _))) .skip hk, ?_⟩
  simp only [stutter, Stmt.size]
  omega

theorem follows_run {s : Stmt} {k : Cont} {l' : List Instr} {q : Pos} {s' : CState}
    {brk cont : Option BlockId}
    (hω : ∀ c items, s = .switch c items → DispatchExact E c items (ω (tr ++ [c])))
    (hgoto : ∀ l ∈ names, ∃ s k, findLabel l body .stop = some (s, k) ∧ ∃ brk' cont' q',
      Compiled E F names none brk' cont' s (some (F (.label l))) q' ∧
        ContAt E F names brk' cont' q' k)
    (hl : Leads F l l') (hne : ∀ t u, s ≠ .seq t u)
    (hc : Compiled E F names none brk cont s (some l') q) (hk : ContAt E F names brk cont q k)
    (hstep : cStep E.toConstants ω body ⟨.run s k, tr⟩ = some s') :
    Follows E F names ω ⟨.run s k, tr⟩ s' ⟨.running l, tr⟩ := by
  cases hc with
  | seq => exact absurd rfl (hne _ _)
  | skip =>
    exact follows_skip (hk.of_reach fun l1 hl1 => ⟨l', rfl, by cases hl1; exact hl⟩) hstep
  | expr he =>
    cases hstep
    obtain ⟨l1, rfl, rfl⟩ := he l' rfl
    obtain ⟨n, hpath⟩ := hl.step (E := E) (ω := ω) rfl
    exact .inr ⟨n, _, hpath, .skip hk⟩
  | @ite _ _ c s t _ _ _ _ thenB elseB mergeB he hj hs hm ht hm' =>
    cases hstep
    obtain ⟨l1, rfl, rfl⟩ := he l' rfl
    obtain ⟨tl, rfl⟩ := hj l1 rfl
    obtain ⟨n, hpath⟩ := hl.eval_step (E := E) (ω := ω) rfl rfl
    refine .inr ⟨n, _, hpath, ?_⟩
    unfold execute
    by_cases hv : ω (tr ++ [c]) ≠ 0
    · simp only [if_pos hv]
      exact .run (.refl _) hs (hk.of_reach hm)
    · simp only [if_neg hv]
      exact .run (.refl _) ht (hk.of_reach hm')
  | while_ hj hcond hs hm =>
    cases hstep
    obtain ⟨tl, rfl⟩ := hj l' rfl
    refine .inl ⟨.test (hl.trans F (.br (.refl _))) (.inl ⟨rfl, .refl _⟩) hcond hs hm hk, ?_⟩
    simp only [stutter, Stmt.size]
    omega
  | doWhile hj hcond hs hm =>
    cases hstep
    obtain ⟨tl, rfl⟩ := hj l' rfl
    refine .inl ⟨.run (hl.trans F (.br (.refl _))) hs
      (.loop hm (.inl ⟨rfl, .refl _⟩) hcond hs hm hk), ?_⟩
    simp only [stutter, Stmt.size, Cont.size]
    omega
  | @for_ _ _ _ i _ _ _ _ tl' condB _ _ _ hj hcond hs hm hincr =>
    cases hstep
    obtain ⟨tl, rfl⟩ := hj l' rfl
    refine .inl ⟨.test (hl.trans F (.br (.refl _))) ?_ hcond hs hm hk, ?_⟩
    · cases i with
      | none => exact .inl ⟨rfl, by rw [hincr]; exact .br (.refl _)⟩
      | some e => exact .inr ⟨e, tl', rfl, hincr⟩
    · simp only [stutter, Stmt.size]
      omega
  | switch he hj hs hm hdef hno =>
    cases hstep
    obtain ⟨l1, rfl, rfl⟩ := he l' rfl
    obtain ⟨tl, rfl⟩ := hj l1 rfl
    obtain ⟨n, hpath⟩ := hl.eval_step (E := E) (ω := ω) rfl rfl
    obtain ⟨brk', cont', hk'⟩ := ContAt.selectCase (hω _ _ rfl) hs hm hdef hno hk
    exact .inr ⟨n, _, hpath, .skip hk'⟩
  | case_ =>
    cases hstep
    refine .inl ⟨.run hl .skip hk, ?_⟩
    simp only [stutter, Stmt.size]
    omega
  | break_ hj =>
    obtain ⟨k', brk', cont', hbreak, hk'⟩ := hk.break_ rfl
    obtain rfl : (⟨.run .skip k', tr⟩ : CState) = s' := by simpa [cStep, hbreak] using hstep
    exact follows_jump hl hj hk' (by decide) (Cont.size_break hbreak)
  | continue_ hj =>
    obtain ⟨k', brk', cont', hcontinue, hk'⟩ := hk.continue_ rfl
    obtain rfl : (⟨.run .skip k', tr⟩ : CState) = s' := by simpa [cStep, hcontinue] using hstep
    exact follows_jump hl hj hk' (by decide) (Cont.size_continue hcontinue)
  | goto_ hmem hj =>
    obtain ⟨s1, k1, hfind, brk', cont', q', hc', hk'⟩ := hgoto _ hmem
    obtain rfl : (⟨.run s1 k1, tr⟩ : CState) = s' := by simpa [cStep, hfind] using hstep
    obtain ⟨tl, rfl⟩ := hj l' rfl
    obtain ⟨n, hpath⟩ := hl.step (E := E) (ω := ω) rfl
    exact .inr ⟨n, _, hpath, .run (.refl _) hc' hk'⟩
  | labeled hreach hs =>
    cases hstep
    obtain ⟨l1, hl1, hlead⟩ := hreach l' rfl
    cases hl1
    refine .inl ⟨.run (hl.trans F hlead) hs hk, ?_⟩
    simp only [stutter, Stmt.size]
    omega
  | @return_ _ _ e _ _ he hj =>
    obtain ⟨l1, rfl, rfl⟩ := he l' rfl
    obtain ⟨tl, rfl⟩ := hj l1 rfl
    cases e with
    | none =>
      cases hstep
      obtain ⟨n, hpath⟩ := hl.step (E := E) (ω := ω) rfl
      exact .inr ⟨n, _, hpath, .done⟩
    | some e =>
      cases hstep
      obtain ⟨n, hpath⟩ := hl.eval_step (E := E) (ω := ω) rfl rfl
      exact .inr ⟨n, _, hpath, .done⟩

end Steps

section Run

variable {ω : Oracle} {body : Stmt}

/-- A state that stands for a state of C is never stuck. -/
theorem match_progress {s : CState} {t : FState} (h : Match E F names s t)
    (hgoto : ∀ l ∈ names, ∃ s k, findLabel l body .stop = some (s, k))
    (hnone : cStep E.toConstants ω body s = none) : s.Final ∧ t.focus = .returned := by
  cases h with
  | @run labs brk cont s k l l' q tr hl hc hk =>
    cases s with
    | break_ =>
      cases hc.none_of_ne_seq (by simp) with
      | break_ hj =>
        obtain ⟨k', _, _, hbreak, -⟩ := hk.break_ rfl
        simp [cStep, hbreak] at hnone
    | continue_ =>
      cases hc.none_of_ne_seq (by simp) with
      | continue_ hj =>
        obtain ⟨k', _, _, hcontinue, -⟩ := hk.continue_ rfl
        simp [cStep, hcontinue] at hnone
    | goto_ l =>
      cases hc.none_of_ne_seq (by simp) with
      | goto_ hmem hj =>
        obtain ⟨s1, k1, hfind⟩ := hgoto _ hmem
        simp [cStep, hfind] at hnone
    | skip =>
      cases k with
      | loop c i s k => cases i <;> simp [cStep] at hnone
      | _ => simp [cStep] at hnone
    | return_ e => cases e <;> simp [cStep] at hnone
    | _ => simp [cStep] at hnone
  | test => simp [cStep] at hnone
  | done => exact ⟨rfl, rfl⟩

/-- Code that carries out the body simulates its run. -/
theorem simulation {q : Pos} (hω : SwitchesExact E ω body)
    (hbody : Compiled E F body.labels none none none body (some (F (.num 0))) q)
    (hend : ContAt E F body.labels none none q .stop) :
    Simulation (cMachine E.toConstants ω body) (fMachine E ω F) CState.Final FState.Final
      (fun s t => Reaches (cMachine E.toConstants ω body) (cStart body) s ∧ Match E F body.labels s t)
      stutter := by
  have hgoto : ∀ l ∈ body.labels, ∃ s k, findLabel l body .stop = some (s, k) ∧
      ∃ brk' cont' q', Compiled E F body.labels none brk' cont' s (some (F (.label l))) q' ∧
        ContAt E F body.labels brk' cont' q' k := by
    intro l hl
    obtain ⟨⟨s, k⟩, hfind⟩ := Option.isSome_iff_exists.1 (findLabel_isSome hl .stop)
    exact ⟨s, k, hfind, hbody.findLabel hend hfind⟩
  have hfollows : ∀ s t s', Reaches (cMachine E.toConstants ω body) (cStart body) s →
      Match E F body.labels s t → cStep E.toConstants ω body s = some s' →
      Follows E F body.labels ω s s' t := by
    intro s t s' hreach h hstep
    cases h with
    | @run labs brk cont s k l l' q tr hl hc hk =>
      by_cases hs : ∃ t u, s = .seq t u
      · obtain ⟨t, u, rfl⟩ := hs
        cases hstep
        exact follows_seq hl hc hk
      · have hne : ∀ t u, s ≠ .seq t u := fun t u h => hs ⟨t, u, h⟩
        have hexact : ∀ c items, s = .switch c items → DispatchExact E c items (ω (tr ++ [c])) := by
          rintro c items rfl
          exact hω c items k tr hreach
        exact follows_run hexact hgoto hl hne (hc.none_of_ne_seq hne) hk hstep
    | test hl hnext hcond hb hm hk =>
      cases hstep
      exact follows_test hl hnext hcond hb hm hk
    | done => cases hstep
  refine ⟨fun s t h => ?_, fun s t s' ⟨hreach, h⟩ hstep => ?_, fun s t h hnone => ?_⟩
  · obtain ⟨-, h⟩ := h
    cases h <;> rfl
  · have hreach' : Reaches (cMachine E.toConstants ω body) (cStart body) s' := hreach.step hstep
    rcases hfollows s t s' hreach h hstep with ⟨hm, hless⟩ | ⟨n, t', hpath, hm⟩
    · exact .inl ⟨⟨hreach', hm⟩, hless⟩
    · exact .inr ⟨n, t', hpath, hreach', hm⟩
  · obtain ⟨hfinal, hret⟩ := match_progress h.2
      (fun l hl => by obtain ⟨s, k, h, -⟩ := hgoto l hl; exact ⟨s, k, h⟩) hnone
    obtain ⟨focus, trace⟩ := t
    cases hret
    exact ⟨hfinal, 0, _, .refl _ _, rfl, rfl, rfl⟩

end Run

end OpticC
