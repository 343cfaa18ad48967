import OpticC.Frontend.DirectiveRounds
import OpticC.Frontend.MacroTermination

/-! The loop of `resolve_includes` against the tree of the file: its two stacks select the
groups that the tree selects. -/

namespace OpticC.Preprocessor

section Trees

variable {σ : Type} (S : Services σ) (file : String) (doc : Doc σ)

mutual
/-- A group that is not selected is passed over. -/
theorem Group.loop_skip (g : Group) {following : List PpToken} {stack taken : List Bool}
    (hnamed : g.Named) (hfits : g.Fits S file following) (hactive : stack.all id = false) :
    loop S file ⟨doc, [], stack, taken⟩ (g.tokens ++ following) =
      loop S file ⟨doc, [], stack, taken⟩ following := by
  cases g with
  | last text => exact loop_text_skipped S file hactive doc text hfits
  | next text part behind =>
    obtain ⟨htext, hpart, hbehind⟩ := hfits
    rw [Group.tokens, List.append_assoc, List.append_assoc,
      loop_text_skipped S file hactive doc text htext, part.loop_skip hnamed.1 hpart hactive]
    exact behind.loop_skip hnamed.2 hbehind hactive
theorem Part.loop_skip (p : Part) {following : List PpToken} {stack taken : List Bool}
    (hnamed : p.Named) (hfits : p.Fits S file following) (hactive : stack.all id = false) :
    loop S file ⟨doc, [], stack, taken⟩ (p.tokens ++ following) =
      loop S file ⟨doc, [], stack, taken⟩ following := by
  cases p with
  | directive p line => exact loop_directive_skipped S file doc line hactive hfits.1
  | conditional o line group arms =>
    obtain ⟨hend, -, hgroup, harms⟩ := hfits
    rw [Part.tokens, List.append_assoc, List.append_assoc,
      loop_opening_skipped S file doc o line hactive hend hnamed.1,
      group.loop_skip hnamed.2.1 hgroup rfl]
    exact arms.loop_skip hnamed.2.2 harms (.inr hactive)
theorem Arms.loop_skip (a : Arms) {following : List PpToken} {stack taken : List Bool} {b t : Bool}
    (hnamed : a.Named) (hfits : a.Fits S file following)
    (hskip : t = true ∨ stack.all id = false) :
    loop S file ⟨doc, [], b :: stack, t :: taken⟩ (a.tokens ++ following) =
      loop S file ⟨doc, [], stack, taken⟩ following := by
  cases a with
  | endif line => exact loop_endif S file doc line hfits
  | elseGroup line group endif =>
    obtain ⟨hend, hgroup, hendif⟩ := hfits
    rw [Arms.tokens, List.append_assoc, List.append_assoc,
      loop_else_skipped S file doc line hskip hend, group.loop_skip hnamed hgroup rfl]
    exact loop_endif S file doc endif hendif
  | elif line group arms =>
    obtain ⟨hend, -, hgroup, harms⟩ := hfits
    obtain ⟨b', hinactive, hloop⟩ := loop_elif_skipped S file doc line
      hskip hend
    rw [Arms.tokens, List.append_assoc, List.append_assoc, hloop,
      group.loop_skip hnamed.1 hgroup hinactive]
    exact arms.loop_skip hnamed.2 harms hskip
end

theorem andThen_assoc {α β γ ε : Type} (r : Doc σ × Except ε α) (f : Doc σ → α → Doc σ × Except ε β)
    (k : Doc σ → β → Doc σ × Except ε γ) :
    andThen (andThen r f) k = andThen r fun d a => andThen (f d a) k := by
  obtain ⟨d, e | a⟩ := r <;> rfl

/-- What an `#include` leaves of its line is text. -/
theorem Part.run_carry {p : Part} {doc doc' : Doc σ} {carry : List PpToken} {left : ℕ}
    (h : p.run S file doc left = (doc', .ok carry)) : ∀ t ∈ carry, t.kind ≠ .hash := by
  cases p with
  | directive p line =>
    rw [Part.run] at h
    cases hperform : perform S file p doc line.rest with
    | mk d r =>
      rw [hperform] at h
      cases r with
      | error e => cases h
      | ok rest =>
        cases h
        exact fun t ht => line.hash_notMem_rest t ((perform_suffix S file hperform).subset ht)
  | conditional o line group arms =>
    have hnil : ∀ {r : Doc σ × Except (PreprocessorError × ℕ) PUnit},
        andThen r (fun d _ => (d, .ok [])) = (doc', .ok carry) → carry = [] := by
      rintro ⟨d, e | a⟩ hr <;> cases hr
      rfl
    rw [Part.run] at h
    cases hholds : o.holds S file doc.unit line.rest with
    | error e =>
      rw [hholds] at h
      cases h
    | ok b =>
      rw [hholds] at h
      cases b <;> · rw [hnil h]; exact fun t ht => absurd ht List.not_mem_nil

theorem noDirective_of_hash {text : List PpToken} (h : ∀ t ∈ text, t.kind ≠ .hash)
    (following : List PpToken) : NoDirective text following := by
  intro t rest hsuffix
  have ht := h t (hsuffix.subset List.mem_cons_self)
  simp [isDirectiveStart, ht]

theorem Part.begins (p : Part) (following : List PpToken) : Begins (p.tokens ++ following) := by
  cases p with
  | directive p line => exact line.begins following
  | conditional o line group arms =>
    rw [Part.tokens, List.append_assoc]
    exact line.begins _

theorem Arms.begins (a : Arms) (following : List PpToken) : Begins (a.tokens ++ following) := by
  cases a with
  | endif line => exact line.begins following
  | elseGroup line group endif =>
    rw [Arms.tokens, List.append_assoc]
    exact line.begins _
  | elif line group arms =>
    rw [Arms.tokens, List.append_assoc]
    exact line.begins _

/-- Behind the selected group the other arms are passed over. -/
theorem Group.selected_run (g : Group) (arms : Arms) {following : List PpToken}
    {stack taken : List Bool} {doc : Doc σ} (harms : arms.Fits S file following)
    (hnamed : ∀ d, g.run S file doc [] (arms.tokens.length + following.length) = (d, .ok ()) →
      arms.Named)
    (hrun : loop S file ⟨doc, [], true :: stack, true :: taken⟩
        ([] ++ (g.tokens ++ (arms.tokens ++ following))) =
      andThen (g.run S file doc [] (arms.tokens ++ following).length) fun doc _ =>
        loop S file ⟨doc, [], true :: stack, true :: taken⟩ (arms.tokens ++ following)) :
    loop S file ⟨doc, [], true :: stack, true :: taken⟩ (g.tokens ++ (arms.tokens ++ following)) =
      andThen (g.run S file doc [] (arms.tokens.length + following.length)) fun doc _ =>
        loop S file ⟨doc, [], stack, taken⟩ following := by
  rw [List.nil_append, List.length_append] at hrun
  rw [hrun]
  cases hresult : g.run S file doc [] (arms.tokens.length + following.length) with
  | mk d r =>
    cases r with
    | error e => rfl
    | ok _ => exact arms.loop_skip S file d (hnamed d hresult) harms (.inl rfl)

mutual
/-- A selected group contributes what the tree says, when the groups passed over in it have
their names. -/
theorem Group.loop_run (g : Group) {following carry : List PpToken} {stack taken : List Bool}
    {doc : Doc σ} (hfits : g.Fits S file following)
    (hskips : g.SkipsNamed S file doc carry following.length) (hactive : stack.all id = true)
    (hcarry : ∀ t ∈ carry, t.kind ≠ .hash) (hbegins : Begins following) :
    loop S file ⟨doc, [], stack, taken⟩ (carry ++ (g.tokens ++ following)) =
      andThen (g.run S file doc carry following.length) fun doc _ =>
        loop S file ⟨doc, [], stack, taken⟩ following := by
  rw [loop_text S file hactive doc [] carry (noDirective_of_hash hcarry _), List.nil_append]
  cases g with
  | last text =>
    rw [Group.tokens, loop_text S file hactive doc carry text hfits, loop_flush S file hbegins,
      Group.run]
    cases emit S file doc (carry ++ text) <;> rfl
  | next text part behind =>
    obtain ⟨htext, hpart, hbehind⟩ := hfits
    rw [Group.tokens, List.append_assoc, List.append_assoc,
      loop_text S file hactive doc carry text htext, loop_flush S file (part.begins _), Group.run]
    cases hemit : emit S file doc (carry ++ text) with
    | error f => simp [andThen]
    | ok doc₁ =>
      obtain ⟨hskips₁, hskips₂⟩ := hskips doc₁ hemit
      rw [← List.length_append] at hskips₁ hskips₂ ⊢
      have hrun : loop S file ⟨doc₁, [], stack, taken⟩ _ = _ := part.loop_run hpart hskips₁ hactive
      simp only
      rw [hrun, andThen_assoc]
      cases hresult : part.run S file doc₁ (behind.tokens ++ following).length with
      | mk doc₂ r =>
        cases r with
        | error e => rfl
        | ok carry₂ =>
          exact behind.loop_run hbehind (hskips₂ doc₂ carry₂ hresult) hactive
            (part.run_carry S file hresult) hbegins
theorem Part.loop_run (p : Part) {following : List PpToken} {stack taken : List Bool}
    {doc : Doc σ} (hfits : p.Fits S file following)
    (hskips : p.SkipsNamed S file doc following.length) (hactive : stack.all id = true) :
    loop S file ⟨doc, [], stack, taken⟩ (p.tokens ++ following) =
      andThen (p.run S file doc following.length) fun doc carry =>
        loop S file ⟨doc, [], stack, taken⟩ (carry ++ following) := by
  cases p with
  | directive p line =>
    rw [Part.tokens, loop_directive S file doc line hactive hfits.1 hfits.2, Part.run]
    cases perform S file p doc line.rest with
    | mk d r => cases r <;> rfl
  | conditional o line group arms =>
    obtain ⟨hend, hclosed, hgroup, harms⟩ := hfits
    rw [Part.SkipsNamed] at hskips
    rw [Part.tokens, List.append_assoc, List.append_assoc,
      loop_opening S file doc o line hactive hend hclosed, Part.run]
    cases hholds : o.holds S file doc.unit line.rest with
    | error e => simp [andThen]
    | ok b =>
      rw [hholds] at hskips
      cases b with
      | true =>
        simp only [andThen_assoc]
        exact group.selected_run S file arms harms hskips.2 (group.loop_run hgroup
          (List.length_append ▸ hskips.1) (by simpa using hactive)
          (fun t ht => absurd ht List.not_mem_nil) (arms.begins following))
      | false =>
        simp only [andThen_assoc]
        rw [group.loop_skip S file doc hskips.1 hgroup rfl]
        exact arms.loop_run harms hskips.2 hactive
theorem Arms.loop_run (a : Arms) {following : List PpToken} {stack taken : List Bool}
    {doc : Doc σ} (hfits : a.Fits S file following)
    (hskips : a.SkipsNamed S file doc following.length) (hactive : stack.all id = true) :
    loop S file ⟨doc, [], false :: stack, false :: taken⟩ (a.tokens ++ following) =
      andThen (a.run S file doc following.length) fun doc _ =>
        loop S file ⟨doc, [], stack, taken⟩ following := by
  cases a with
  | endif line => exact loop_endif S file doc line hfits
  | elseGroup line group endif =>
    obtain ⟨hend, hgroup, hendif⟩ := hfits
    rw [Arms.SkipsNamed, ← List.length_append] at hskips
    rw [Arms.tokens, List.append_assoc, List.append_assoc,
      loop_else S file doc line hactive hend, Arms.run, ← List.length_append]
    have hrun : loop S file ⟨doc, [], true :: stack, true :: taken⟩ _ = _ := group.loop_run hgroup hskips
      (by simpa using hactive) (fun t ht => absurd ht List.not_mem_nil) (endif.begins following)
    rw [List.nil_append] at hrun
    rw [hrun]
    exact congrArg (andThen _) (funext fun d => funext fun _ => loop_endif S file d endif hendif)
  | elif line group arms =>
    obtain ⟨hend, hclosed, hgroup, harms⟩ := hfits
    rw [Arms.SkipsNamed] at hskips
    rw [Arms.tokens, List.append_assoc, List.append_assoc,
      loop_elif S file doc line hactive hend hclosed, Arms.run]
    cases hholds : evalCondition S file doc.unit line.rest with
    | error e => simp [andThen]
    | ok b =>
      rw [hholds] at hskips
      cases b with
      | true =>
        exact group.selected_run S file arms harms hskips.2 (group.loop_run hgroup
          (List.length_append ▸ hskips.1) (by simpa using hactive)
          (fun t ht => absurd ht List.not_mem_nil) (arms.begins following))
      | false =>
        simp only
        rw [group.loop_skip S file doc hskips.1 hgroup rfl]
        exact arms.loop_run harms hskips.2 hactive
end

mutual
/-- An error of the tree is at one of its tokens, or at what follows. -/
theorem Group.run_left (g : Group) {doc : Doc σ} {carry : List PpToken} {left : ℕ}
    {e : PreprocessorError × ℕ} (h : (g.run S file doc carry left).2 = .error e) :
    e.2 ≤ g.tokens.length + left := by
  cases g with
  | last text =>
    rw [Group.run] at h
    cases hemit : emit S file doc (carry ++ text) with
    | error f =>
      rw [hemit] at h
      cases h
      exact Nat.le_add_left _ _
    | ok d =>
      rw [hemit] at h
      cases h
  | next text part behind =>
    rw [Group.run] at h
    simp only [Group.tokens, List.length_append]
    cases hemit : emit S file doc (carry ++ text) with
    | error f =>
      rw [hemit] at h
      cases h
      simp only
      omega
    | ok d =>
      rw [hemit] at h
      cases hresult : part.run S file d (behind.tokens.length + left) with
      | mk d₂ r =>
        simp only [hresult] at h
        cases r with
        | error e' =>
          cases h
          have hle := part.run_left (congrArg Prod.snd hresult)
          omega
        | ok carry₂ =>
          have hle := behind.run_left h
          omega
theorem Part.run_left (p : Part) {doc : Doc σ} {left : ℕ} {e : PreprocessorError × ℕ}
    (h : (p.run S file doc left).2 = .error e) : e.2 ≤ p.tokens.length + left := by
  cases p with
  | directive p line =>
    rw [Part.run] at h
    cases hperform : perform S file p doc line.rest with
    | mk d r =>
      rw [hperform] at h
      cases r <;> cases h
      exact Nat.le_refl _
  | conditional o line group arms =>
    have hclosed : ∀ {r : Doc σ × Except (PreprocessorError × ℕ) PUnit},
        (andThen r fun d _ => (d, .ok ([] : List PpToken))).2 = .error e → r.2 = .error e := by
      rintro ⟨d, e' | a⟩ hr <;> cases hr
      rfl
    rw [Part.run] at h
    simp only [Part.tokens, List.length_append]
    cases hholds : o.holds S file doc.unit line.rest with
    | error e' =>
      rw [hholds] at h
      cases h
      simp only
      omega
    | ok b =>
      rw [hholds] at h
      cases b with
      | true =>
        have hle := group.run_left (hclosed h)
        omega
      | false =>
        have hle := arms.run_left (hclosed h)
        omega
theorem Arms.run_left (a : Arms) {doc : Doc σ} {left : ℕ} {e : PreprocessorError × ℕ}
    (h : (a.run S file doc left).2 = .error e) : e.2 ≤ a.tokens.length + left := by
  cases a with
  | endif line => cases h
  | elseGroup line group endif =>
    have hle := group.run_left h
    simp only [Arms.tokens, List.length_append]
    omega
  | elif line group arms =>
    rw [Arms.run] at h
    simp only [Arms.tokens, List.length_append]
    cases hholds : evalCondition S file doc.unit line.rest with
    | error e' =>
      rw [hholds] at h
      cases h
      simp only
      omega
    | ok b =>
      rw [hholds] at h
      cases b with
      | true =>
        have hle := group.run_left h
        omega
      | false =>
        have hle := arms.run_left h
        omega
end

/-- The loop ends with an error in front of the last `n` tokens. -/
def FailsBefore (r : Doc σ × Except (PreprocessorError × ℕ) PUnit) (n : ℕ) : Prop :=
  ∃ doc e m, r = (doc, .error (e, m)) ∧ n < m

theorem FailsBefore.of_le {r : Doc σ × Except (PreprocessorError × ℕ) PUnit} {n n' : ℕ}
    (h : FailsBefore r n) (hle : n' ≤ n) : FailsBefore r n' := by
  obtain ⟨doc, e, m, hr, hlt⟩ := h
  exact ⟨doc, e, m, hr, Nat.lt_of_le_of_lt hle hlt⟩

theorem Line.fails {d : Directive} (l : Line d) {r : Doc σ × Except (PreprocessorError × ℕ) PUnit}
    {doc : Doc σ} {n : ℕ} (h : ∃ e, r = (doc, .error (e, l.tokens.length + n))) :
    FailsBefore r n := by
  obtain ⟨e, hr⟩ := h
  refine ⟨doc, e, _, hr, ?_⟩
  rw [Line.tokens, List.length_cons]
  omega

mutual
/-- A group that is passed over fails at an `#ifdef` or `#ifndef` without a name. -/
theorem Group.skip_fails (g : Group) {following : List PpToken} {stack taken : List Bool}
    {doc : Doc σ} (hnamed : ¬g.Named) (hfits : g.Fits S file following)
    (hactive : stack.all id = false) :
    FailsBefore (loop S file ⟨doc, [], stack, taken⟩ (g.tokens ++ following)) following.length := by
  cases g with
  | last text => exact absurd trivial hnamed
  | next text part behind =>
    obtain ⟨htext, hpart, hbehind⟩ := hfits
    rw [Group.tokens, List.append_assoc, List.append_assoc,
      loop_text_skipped S file hactive doc text htext]
    by_cases hp : part.Named
    · rw [part.loop_skip S file doc hp hpart hactive]
      exact behind.skip_fails (fun hb => hnamed ⟨hp, hb⟩) hbehind hactive
    · exact (part.skip_fails hp hpart hactive).of_le (by simp)
theorem Part.skip_fails (p : Part) {following : List PpToken} {stack taken : List Bool}
    {doc : Doc σ} (hnamed : ¬p.Named) (hfits : p.Fits S file following)
    (hactive : stack.all id = false) :
    FailsBefore (loop S file ⟨doc, [], stack, taken⟩ (p.tokens ++ following)) following.length := by
  cases p with
  | directive p line => exact absurd trivial hnamed
  | conditional o line group arms =>
    obtain ⟨hend, -, hgroup, harms⟩ := hfits
    rw [Part.tokens, List.append_assoc, List.append_assoc]
    by_cases ho : o.Named line.rest
    · rw [loop_opening_skipped S file doc o line hactive hend ho]
      by_cases hg : group.Named
      · rw [group.loop_skip S file doc hg hgroup rfl]
        exact arms.skip_fails (fun ha => hnamed ⟨ho, hg, ha⟩) harms (.inr hactive)
      · exact (group.skip_fails hg hgroup rfl).of_le (by simp)
    · exact (line.fails (loop_opening_unnamed S file doc o line hend ho)).of_le (by
        simp only [List.length_append]
        omega)
theorem Arms.skip_fails (a : Arms) {following : List PpToken} {stack taken : List Bool} {b t : Bool}
    {doc : Doc σ} (hnamed : ¬a.Named) (hfits : a.Fits S file following)
    (hskip : t = true ∨ stack.all id = false) :
    FailsBefore (loop S file ⟨doc, [], b :: stack, t :: taken⟩ (a.tokens ++ following))
      following.length := by
  cases a with
  | endif line => exact absurd trivial hnamed
  | elseGroup line group endif =>
    obtain ⟨hend, hgroup, -⟩ := hfits
    rw [Arms.tokens, List.append_assoc, List.append_assoc,
      loop_else_skipped S file doc line hskip hend]
    exact (group.skip_fails hnamed hgroup rfl).of_le (by simp)
  | elif line group arms =>
    obtain ⟨hend, -, hgroup, harms⟩ := hfits
    obtain ⟨b', hinactive, hloop⟩ := loop_elif_skipped S file doc line
      hskip hend
    rw [Arms.tokens, List.append_assoc, List.append_assoc, hloop]
    by_cases hg : group.Named
    · rw [group.loop_skip S file doc hg hgroup hinactive]
      exact arms.skip_fails (fun ha => hnamed ⟨hg, ha⟩) harms hskip
    · exact (group.skip_fails hg hgroup hinactive).of_le (by simp)
end

/-- The loop fails, and earlier than the tree may. -/
def FailsFirst {α : Type} (r : Doc σ × Except (PreprocessorError × ℕ) PUnit)
    (tree : Doc σ × Except (PreprocessorError × ℕ) α) (n : ℕ) : Prop :=
  ∃ doc e m, r = (doc, .error (e, m)) ∧ n < m ∧ ∀ e', tree.2 = .error e' → e'.2 < m

theorem FailsBefore.first {α : Type} {r : Doc σ × Except (PreprocessorError × ℕ) PUnit}
    {tree : Doc σ × Except (PreprocessorError × ℕ) α} {n m : ℕ} (h : FailsBefore r m)
    (hle : n ≤ m) (htree : ∀ e', tree.2 = .error e' → e'.2 ≤ m) : FailsFirst r tree n := by
  obtain ⟨doc, e, k, hr, hlt⟩ := h
  exact ⟨doc, e, k, hr, Nat.lt_of_le_of_lt hle hlt, fun e' he' =>
    Nat.lt_of_le_of_lt (htree e' he') hlt⟩

/-- What stands behind does not come first. -/
theorem FailsFirst.andThen {α β : Type} {r : Doc σ × Except (PreprocessorError × ℕ) PUnit}
    {tree : Doc σ × Except (PreprocessorError × ℕ) α} {n m : ℕ} (h : FailsFirst r tree m)
    (hle : n ≤ m) {k : Doc σ → α → Doc σ × Except (PreprocessorError × ℕ) β}
    (hk : ∀ d a e', (k d a).2 = .error e' → e'.2 ≤ m) :
    FailsFirst r (Preprocessor.andThen tree k) n := by
  obtain ⟨doc, e, i, hr, hlt, htree⟩ := h
  refine ⟨doc, e, i, hr, Nat.lt_of_le_of_lt hle hlt, fun e' he' => ?_⟩
  obtain ⟨d, e'' | a⟩ := tree
  · exact htree e' (by cases he'; rfl)
  · exact Nat.lt_of_le_of_lt (hk d a e' he') hlt

/-- A name is missing in the selected group, or in an arm behind it. -/
theorem Group.selected_fails (g : Group) (arms : Arms) {following : List PpToken}
    {stack taken : List Bool} {doc : Doc σ} (hgroup : g.Fits S file (arms.tokens ++ following))
    (harms : arms.Fits S file following) (hactive : stack.all id = true)
    (hskips : ¬(g.SkipsNamed S file doc [] (arms.tokens.length + following.length) ∧
      ∀ d, g.run S file doc [] (arms.tokens.length + following.length) = (d, .ok ()) → arms.Named))
    (hfails : ¬g.SkipsNamed S file doc [] (arms.tokens ++ following).length →
      FailsFirst (loop S file ⟨doc, [], true :: stack, true :: taken⟩
          ([] ++ (g.tokens ++ (arms.tokens ++ following))))
        (g.run S file doc [] (arms.tokens ++ following).length) (arms.tokens ++ following).length) :
    FailsFirst
      (loop S file ⟨doc, [], true :: stack, true :: taken⟩ (g.tokens ++ (arms.tokens ++ following)))
      (g.run S file doc [] (arms.tokens.length + following.length)) following.length := by
  rw [List.length_append, List.nil_append] at hfails
  by_cases hg : g.SkipsNamed S file doc [] (arms.tokens.length + following.length)
  · rw [not_and] at hskips
    simp only [not_forall] at hskips
    obtain ⟨d, hresult, hnamed⟩ := hskips hg
    have hrun : loop S file ⟨doc, [], true :: stack, true :: taken⟩ _ = _ := g.loop_run S file hgroup
      (List.length_append ▸ hg) (by simpa using hactive) (fun t ht => absurd ht List.not_mem_nil)
      (arms.begins following)
    rw [List.nil_append, List.length_append, hresult] at hrun
    rw [hrun, hresult]
    exact (arms.skip_fails S file hnamed harms (.inl rfl)).first (Nat.le_refl _)
      fun e' he' => nomatch he'
  · obtain ⟨doc', e, m, hr, hlt, htree⟩ := hfails hg
    exact ⟨doc', e, m, hr, Nat.lt_of_le_of_lt (Nat.le_add_left _ _) hlt, htree⟩

/-- A name is missing in the group that is passed over, or on the way to the selected one. -/
theorem Group.passed_fails (g : Group) (arms : Arms) {following : List PpToken}
    {stack taken : List Bool} {doc : Doc σ} (hgroup : g.Fits S file (arms.tokens ++ following))
    (hskips : ¬(g.Named ∧ arms.SkipsNamed S file doc following.length))
    (hfails : ¬arms.SkipsNamed S file doc following.length →
      FailsFirst (loop S file ⟨doc, [], false :: stack, false :: taken⟩ (arms.tokens ++ following))
        (arms.run S file doc following.length) following.length) :
    FailsFirst
      (loop S file ⟨doc, [], false :: stack, false :: taken⟩
        (g.tokens ++ (arms.tokens ++ following)))
      (arms.run S file doc following.length) following.length := by
  by_cases hg : g.Named
  · rw [g.loop_skip S file doc hg hgroup rfl]
    exact hfails fun ha => hskips ⟨hg, ha⟩
  · exact (g.skip_fails S file hg hgroup rfl).first (by simp) fun e' he' => by
      rw [List.length_append]
      exact arms.run_left S file he'

mutual
/-- Where a name is missing in a group that is passed over, the loop fails. -/
theorem Group.run_fails (g : Group) {following carry : List PpToken} {stack taken : List Bool}
    {doc : Doc σ} (hfits : g.Fits S file following)
    (hskips : ¬g.SkipsNamed S file doc carry following.length) (hactive : stack.all id = true)
    (hcarry : ∀ t ∈ carry, t.kind ≠ .hash) :
    FailsFirst (loop S file ⟨doc, [], stack, taken⟩ (carry ++ (g.tokens ++ following)))
      (g.run S file doc carry following.length) following.length := by
  cases g with
  | last text => exact absurd trivial hskips
  | next text part behind =>
    obtain ⟨htext, hpart, hbehind⟩ := hfits
    rw [Group.SkipsNamed] at hskips
    simp only [not_forall, exists_prop] at hskips
    obtain ⟨doc₁, hemit, hskips⟩ := hskips
    rw [loop_text S file hactive doc [] carry (noDirective_of_hash hcarry _), List.nil_append,
      Group.tokens, List.append_assoc, List.append_assoc,
      loop_text S file hactive doc carry text htext, loop_flush S file (part.begins _), Group.run,
      hemit]
    rw [← List.length_append] at hskips ⊢
    simp only
    by_cases hp : part.SkipsNamed S file doc₁ (behind.tokens ++ following).length
    · rw [not_and] at hskips
      simp only [not_forall] at hskips
      obtain ⟨doc₂, carry₂, hresult, hb⟩ := hskips hp
      rw [part.loop_run S file hpart hp hactive, hresult]
      exact behind.run_fails hbehind hb hactive (part.run_carry S file hresult)
    · refine (part.run_fails hpart hp hactive).andThen (by simp) fun d a e' he' => ?_
      rw [List.length_append]
      exact behind.run_left S file he'
theorem Part.run_fails (p : Part) {following : List PpToken} {stack taken : List Bool}
    {doc : Doc σ} (hfits : p.Fits S file following)
    (hskips : ¬p.SkipsNamed S file doc following.length) (hactive : stack.all id = true) :
    FailsFirst (loop S file ⟨doc, [], stack, taken⟩ (p.tokens ++ following))
      (p.run S file doc following.length) following.length := by
  cases p with
  | directive p line => exact absurd trivial hskips
  | conditional o line group arms =>
    obtain ⟨hend, hclosed, hgroup, harms⟩ := hfits
    rw [Part.SkipsNamed] at hskips
    rw [Part.tokens, List.append_assoc, List.append_assoc,
      loop_opening S file doc o line hactive hend hclosed, Part.run]
    cases hholds : o.holds S file doc.unit line.rest with
    | error e =>
      rw [hholds] at hskips
      exact absurd trivial hskips
    | ok b =>
      rw [hholds] at hskips
      cases b with
      | true =>
        exact (group.selected_fails S file arms hgroup harms hactive hskips fun hg =>
          group.run_fails hgroup hg (by simpa using hactive)
            fun t ht => absurd ht List.not_mem_nil).andThen (Nat.le_refl _)
          fun d a e' he' => nomatch he'
      | false =>
        exact (group.passed_fails S file arms hgroup hskips fun ha =>
          arms.run_fails harms ha hactive).andThen (Nat.le_refl _)
          fun d a e' he' => nomatch he'
theorem Arms.run_fails (a : Arms) {following : List PpToken} {stack taken : List Bool}
    {doc : Doc σ} (hfits : a.Fits S file following)
    (hskips : ¬a.SkipsNamed S file doc following.length) (hactive : stack.all id = true) :
    FailsFirst (loop S file ⟨doc, [], false :: stack, false :: taken⟩ (a.tokens ++ following))
      (a.run S file doc following.length) following.length := by
  cases a with
  | endif line => exact absurd trivial hskips
  | elseGroup line group endif =>
    obtain ⟨hend, hgroup, hendif⟩ := hfits
    rw [Arms.SkipsNamed, ← List.length_append] at hskips
    rw [Arms.tokens, List.append_assoc, List.append_assoc,
      loop_else S file doc line hactive hend, Arms.run, ← List.length_append]
    have hfails : FailsFirst (loop S file ⟨doc, [], true :: stack, true :: taken⟩ _) _ _ :=
      group.run_fails hgroup hskips (by simpa using hactive) fun t ht => absurd ht List.not_mem_nil
    obtain ⟨doc', e, m, hr, hlt, htree⟩ := hfails
    exact ⟨doc', e, m, hr, Nat.lt_of_le_of_lt (by simp) hlt, htree⟩
  | elif line group arms =>
    obtain ⟨hend, hclosed, hgroup, harms⟩ := hfits
    rw [Arms.SkipsNamed] at hskips
    rw [Arms.tokens, List.append_assoc, List.append_assoc,
      loop_elif S file doc line hactive hend hclosed, Arms.run]
    cases hholds : evalCondition S file doc.unit line.rest with
    | error e =>
      rw [hholds] at hskips
      exact absurd trivial hskips
    | ok b =>
      rw [hholds] at hskips
      cases b with
      | true =>
        exact group.selected_fails S file arms hgroup harms hactive hskips fun hg =>
          group.run_fails hgroup hg (by simpa using hactive)
            fun t ht => absurd ht List.not_mem_nil
      | false =>
        exact group.passed_fails S file arms hgroup hskips fun ha =>
          arms.run_fails harms ha hactive
end

end Trees

section Files

variable {σ : Type} (S : Services σ) (file : String)

theorem loop_end (doc : Doc σ) : loop S file ⟨doc, [], [], []⟩ [] = (doc, .ok ()) := by
  rw [loop]
  rfl

theorem resolveIncludes_eq_run {g : Group} (hfits : g.Fits S file []) (unit : PpState σ)
    (hskips : g.SkipsNamed S file ⟨unit, []⟩ [] 0) :
    resolveIncludes S file unit g.tokens = g.run S file ⟨unit, []⟩ [] 0 := by
  have hrun : loop S file ⟨⟨unit, []⟩, [], [], []⟩ _ = _ := g.loop_run S file hfits hskips rfl
    (fun t ht => absurd ht List.not_mem_nil) (.inl rfl)
  rw [List.nil_append, List.append_nil] at hrun
  rw [resolveIncludes, hrun]
  simp only [loop_end, List.length_nil]
  obtain ⟨doc, e | _⟩ := g.run S file ⟨unit, []⟩ [] 0 <;> rfl

theorem resolveIncludes_ne_run {g : Group} (hfits : g.Fits S file []) (unit : PpState σ)
    (hskips : ¬g.SkipsNamed S file ⟨unit, []⟩ [] 0) :
    resolveIncludes S file unit g.tokens ≠ g.run S file ⟨unit, []⟩ [] 0 := by
  have hfails : FailsFirst (loop S file ⟨⟨unit, []⟩, [], [], []⟩ _) _ _ :=
    g.run_fails S file hfits hskips rfl fun t ht => absurd ht List.not_mem_nil
  obtain ⟨doc, e, m, hloop, -, htree⟩ := hfails
  rw [List.nil_append, List.append_nil] at hloop
  intro heq
  rw [resolveIncludes, hloop] at heq
  exact absurd (htree (e, m) (congrArg Prod.snd heq.symm)) (Nat.lt_irrefl _)

/-- The loop emits the text and performs the directives of the selected groups, and nothing
else, exactly if no `#ifdef` and no `#ifndef` lacks its name in a group that is passed over. -/
theorem resolveIncludes_eq_run_iff {g : Group} (hfits : g.Fits S file []) (unit : PpState σ) :
    resolveIncludes S file unit g.tokens = g.run S file ⟨unit, []⟩ [] 0 ↔
      g.SkipsNamed S file ⟨unit, []⟩ [] 0 := by
  refine ⟨fun heq => ?_, resolveIncludes_eq_run S file hfits unit⟩
  by_cases hskips : g.SkipsNamed S file ⟨unit, []⟩ [] 0
  · exact hskips
  · exact absurd heq (resolveIncludes_ne_run S file hfits unit hskips)

end Files

section Examples

/-- Without `#if` and `#include`. -/
def noServices : Services PUnit where
  expand := fun table tokens => expandMacroTokens ascii table 1 tokens
  condition := fun _ _ _ => .ok (0, 0)
  resolveIncludeFile := fun unit path _ => (unit, .error (.fileNotFound path))

def noMacros : PpState PUnit := ⟨[], [], [], [], false, ()⟩

def piece (kind : PpTokenKind) (text : String) : PpToken := ⟨kind, text, 1, 1⟩

def directiveLine {d : Directive} (name : String) (args : List PpToken)
    (names : Directive.ofName name = d)
    (args_kind : ∀ t ∈ args, t.kind ≠ .newline ∧ t.kind ≠ .hash) : Line d where
  hash := piece .hash "#"
  gap := []
  name := piece .identifier name
  args := args
  ending := some (piece .newline "\n")
  hash_kind := rfl
  gap_kind := noGap_kind
  name_kind := rfl
  names := names
  args_kind := args_kind
  ending_newline := fun _ h => Option.some.inj h ▸ ⟨rfl, rfl⟩

def endifLine : Line .endif :=
  directiveLine "endif" [] rfl fun _ h => absurd h List.not_mem_nil

def ifdefLine (args : List PpToken) (h : ∀ t ∈ args, t.kind ≠ .newline ∧ t.kind ≠ .hash) :
    Line Opening.ifdef.directive :=
  directiveLine "ifdef" args rfl h

theorem directiveLine_endsBefore {d : Directive} {name : String} {args : List PpToken}
    {names : Directive.ofName name = d}
    {args_kind : ∀ t ∈ args, t.kind ≠ .newline ∧ t.kind ≠ .hash} (following : List PpToken) :
    (directiveLine name args names args_kind).EndsBefore following :=
  fun h => nomatch h

theorem noDirective_nil (following : List PpToken) : NoDirective [] following :=
  noDirective_of_hash (fun _ h => absurd h List.not_mem_nil) following

/-- `#ifdef A`, around the group. -/
def insideIfdef (group : Group) : Group :=
  .next [] (.conditional .ifdef
    (ifdefLine [piece .whitespace " ", piece .identifier "A"] (by simp [piece]))
    group (.endif endifLine)) (.last [])

theorem insideIfdef_fits {group : Group}
    (h : group.Fits noServices "a.c" (endifLine.tokens ++ [])) :
    (insideIfdef group).Fits noServices "a.c" [] :=
  ⟨noDirective_nil _, ⟨directiveLine_endsBefore _, (nomatch ·), h, directiveLine_endsBefore _⟩,
    noDirective_nil _⟩

/-- `A` is not a macro, so the group is passed over. -/
theorem insideIfdef_skipsNamed_iff (group : Group) :
    (insideIfdef group).SkipsNamed noServices "a.c" ⟨noMacros, []⟩ [] 0 ↔ group.Named := by
  have hholds : Opening.ifdef.holds noServices "a.c" noMacros
      [piece .whitespace " ", piece .identifier "A", piece .newline "\n"] = .ok false := rfl
  rw [insideIfdef, Group.SkipsNamed]
  constructor
  · intro h
    have hpart := (h ⟨noMacros, []⟩ rfl).1
    rw [Part.SkipsNamed] at hpart
    exact hpart.1
  · intro hnamed doc hdoc
    cases hdoc
    exact ⟨⟨hnamed, trivial⟩, fun _ _ _ => trivial⟩

/-- The text `x` in a group that is not selected. -/
def unselectedText : Group := .last [piece .identifier "x", piece .newline "\n"]

/-- An `#ifdef` without a name. -/
def namelessIfdef : Group :=
  .next [] (.conditional .ifdef (ifdefLine [] fun _ h => absurd h List.not_mem_nil) (.last [])
    (.endif endifLine)) (.last [])

theorem unselectedText_fits (following : List PpToken) :
    unselectedText.Fits noServices "a.c" following :=
  noDirective_of_hash (by simp [piece]) following

theorem resolveIncludes_unselectedText :
    resolveIncludes noServices "a.c" noMacros (insideIfdef unselectedText).tokens =
      (insideIfdef unselectedText).run noServices "a.c" ⟨noMacros, []⟩ [] 0 :=
  (resolveIncludes_eq_run_iff noServices "a.c" (insideIfdef_fits (unselectedText_fits _))
    noMacros).2 ((insideIfdef_skipsNamed_iff unselectedText).2 trivial)

theorem not_resolveIncludes_namelessIfdef :
    (insideIfdef namelessIfdef).Fits noServices "a.c" [] ∧
      ((insideIfdef namelessIfdef).run noServices "a.c" ⟨noMacros, []⟩ [] 0).2 = .ok () ∧
      resolveIncludes noServices "a.c" noMacros (insideIfdef namelessIfdef).tokens ≠
        (insideIfdef namelessIfdef).run noServices "a.c" ⟨noMacros, []⟩ [] 0 := by
  have hfits : (insideIfdef namelessIfdef).Fits noServices "a.c" [] := insideIfdef_fits
    ⟨noDirective_nil _, ⟨directiveLine_endsBefore _, (nomatch ·), noDirective_nil _,
      directiveLine_endsBefore _⟩, noDirective_nil _⟩
  refine ⟨hfits, rfl, resolveIncludes_ne_run noServices "a.c" hfits noMacros fun h => ?_⟩
  obtain ⟨⟨hnamed, -⟩, -⟩ := (insideIfdef_skipsNamed_iff namelessIfdef).1 h
  rcases hnamed with ho | ⟨r, hr⟩
  · cases ho
  · cases hr

end Examples

end OpticC.Preprocessor
