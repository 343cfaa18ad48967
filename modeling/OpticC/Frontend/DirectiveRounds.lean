import OpticC.Frontend.ConditionalGroups

/-! What the rounds of `resolve_includes` do at each kind of line, in a group that is selected
and in one that is not. -/

namespace OpticC.Preprocessor

section Lines

variable {d : Directive} (l : Line d) {following : List PpToken}

theorem Line.hash_notMem_rest : ∀ t ∈ l.rest, t.kind ≠ .hash := by
  intro t ht
  rcases List.mem_append.1 ht with hargs | hending
  · exact (l.args_kind t hargs).2
  · rw [(l.ending_newline t (Option.mem_toList.1 hending)).1]
    decide

/-- Either the line has its newline, or nothing follows it. -/
theorem Line.stopped_or (h : l.EndsBefore following) : Stopped l.rest ∨ following = [] := by
  cases hending : l.ending with
  | none => exact .inr (h hending)
  | some n =>
    obtain ⟨hkind, htext⟩ := l.ending_newline n hending
    refine .inl ⟨⟨n, List.mem_append_right _ (by simp [hending]), hkind⟩, fun t ht hnewline => ?_⟩
    rcases List.mem_append.1 ht with hargs | ht
    · exact absurd hnewline (l.args_kind t hargs).1
    · rw [hending] at ht
      exact List.mem_singleton.1 ht ▸ htext

theorem skipToDirectiveEnd_line {args : List PpToken} (hargs : ∀ t ∈ args, t.kind ≠ .newline)
    (ending : Option PpToken) (hending : ∀ t ∈ ending, t.kind = .newline) :
    skipToDirectiveEnd (args ++ ending.toList) = [] := by
  unfold skipToDirectiveEnd
  rw [List.dropWhile_append_of_pos fun t ht => by simpa using hargs t ht]
  cases ending with
  | none => rfl
  | some n => simp [hending n rfl]

/-- Wherever a reading stands in the line, the end of the line is the end of its tokens. -/
theorem Line.skipToDirectiveEnd_suffix {tokens : List PpToken} (h : tokens <:+ l.rest) :
    skipToDirectiveEnd tokens = [] := by
  obtain ⟨front, hfront⟩ := h
  rcases List.append_eq_append_iff.1 hfront with ⟨args, hargs, rfl⟩ | ⟨rear, -, hrear⟩
  · refine skipToDirectiveEnd_line (fun t ht => ?_) _ fun t ht => (l.ending_newline t ht).1
    exact (l.args_kind t (hargs ▸ List.mem_append_right _ ht)).1
  · have hone : tokens.length ≤ l.ending.toList.length := by
      rw [hrear, List.length_append]
      omega
    cases hending : l.ending with
    | none =>
      rw [hending] at hone
      rw [List.eq_nil_of_length_eq_zero (Nat.le_zero.1 hone)]
      rfl
    | some n =>
      rw [hending] at hrear
      cases tokens with
      | nil => rfl
      | cons t rest =>
        have ht : t ∈ [n] := by
          have : t ∈ rear ++ t :: rest := List.mem_append_right _ List.mem_cons_self
          rwa [← hrear] at this
        rw [hending, List.length_cons] at hone
        have hrest : rest = [] := List.eq_nil_of_length_eq_zero (by simpa using hone)
        rw [List.mem_singleton.1 ht, hrest]
        simp [skipToDirectiveEnd, (l.ending_newline n hending).1]

theorem Line.skip (h : l.EndsBefore following) :
    skipToDirectiveEnd (l.tokens ++ following) = following := by
  have hfront : ∀ t ∈ l.hash :: (l.gap ++ [l.name]), t.kind ≠ .newline := by
    intro t ht
    rcases List.mem_cons.1 ht with rfl | ht
    · rw [l.hash_kind]
      decide
    · rcases List.mem_append.1 ht with ht | ht
      · rw [l.gap_kind t ht]
        decide
      · rw [List.mem_singleton.1 ht, l.name_kind]
        decide
  have htokens : l.tokens ++ following = (l.hash :: (l.gap ++ [l.name])) ++ (l.rest ++ following) := by
    simp [Line.tokens]
  have hrest := l.skipToDirectiveEnd_suffix (List.suffix_refl _)
  rw [htokens, skipToDirectiveEnd,
    List.dropWhile_append_of_pos fun t ht => by simpa using hfront t ht]
  rcases l.stopped_or h with hstop | rfl
  · exact (hstop.skipToDirectiveEnd following).trans (by rw [hrest, List.nil_append])
  · rw [List.append_nil]
    exact hrest

theorem Line.skipWhitespace_gap (following : List PpToken) :
    skipWhitespace (l.gap ++ l.name :: following) = l.name :: following := by
  unfold skipWhitespace
  rw [List.dropWhile_append_of_pos fun t ht => by simp [l.gap_kind t ht],
    List.dropWhile_cons_of_neg (by simp [l.name_kind])]

theorem Line.isDirectiveStart (following : List PpToken) :
    isDirectiveStart (l.tokens ++ following) = true := by
  simp [Line.tokens, Preprocessor.isDirectiveStart, l.hash_kind, l.skipWhitespace_gap, l.name_kind]

theorem Line.parseDirectiveName (following : List PpToken) :
    parseDirectiveName (l.gap ++ l.name :: following) = (l.name.text, following) := by
  unfold Preprocessor.parseDirectiveName
  rw [l.skipWhitespace_gap]
  exact if_pos l.name_kind

theorem Line.argument (h : l.EndsBefore following) :
    parseSimpleDirectiveArg (l.rest ++ following) =
      (parseSimpleDirectiveArg l.rest).map fun r => (r.1, following) := by
  have hends : ∀ r, parseSimpleDirectiveArg l.rest = .ok r → r.2 = [] := by
    intro r hr
    unfold parseSimpleDirectiveArg at hr
    split at hr
    · rename_i heq
      split_ifs at hr
      cases hr
      exact l.skipToDirectiveEnd_suffix (skipWhitespace_cons_suffix heq)
    · cases hr
  rcases l.stopped_or h with hstop | rfl
  · rw [hstop.parseSimpleDirectiveArg]
    cases harg : parseSimpleDirectiveArg l.rest with
    | error e => rfl
    | ok r => exact congrArg (fun rest => Except.ok (r.1, rest ++ following)) (hends r harg)
  · rw [List.append_nil]
    cases harg : parseSimpleDirectiveArg l.rest with
    | error e => rfl
    | ok r => exact congrArg (fun rest => Except.ok (r.1, rest)) (hends r harg)

variable {σ : Type} (S : Services σ) (file : String)

theorem Line.perform {p : Plain} (l : Line (.plain p)) (doc : Doc σ) (h : l.EndsBefore following)
    (hpath : p = .includeFile → PathClosed file l.rest following) :
    perform S file p doc (l.rest ++ following) =
      ((Preprocessor.perform S file p doc l.rest).1,
        (Preprocessor.perform S file p doc l.rest).2.map (· ++ following)) := by
  rcases l.stopped_or h with hstop | rfl
  · exact hstop.perform following S file p doc hpath
  · simp only [List.append_nil]
    cases Preprocessor.perform S file p doc l.rest with
    | mk doc' r => cases r <;> rfl

theorem Line.parseIfExpression (h : l.EndsBefore following)
    (hclosed : l.ConditionClosed S file following) (unit : PpState σ) :
    parseIfExpression S file unit (l.rest ++ following) =
      (S.condition unit file l.rest).map fun r => (r.1, following) := by
  obtain ⟨happend, htaken⟩ := hclosed unit
  unfold Preprocessor.parseIfExpression
  rw [happend]
  cases hcond : S.condition unit file l.rest with
  | error e => rfl
  | ok r =>
    obtain ⟨value, taken⟩ := r
    have hle := htaken value taken hcond
    refine congrArg (fun rest => Except.ok (value, rest)) ?_
    have hnil := l.skipToDirectiveEnd_suffix (List.drop_suffix taken l.rest)
    have hdrop : (l.rest ++ following).drop taken = l.rest.drop taken ++ following :=
      List.drop_append_of_le_length (by rw [Line.rest, List.length_append]; omega)
    rw [hdrop]
    have hargs : l.rest.drop taken = l.args.drop taken ++ l.ending.toList :=
      List.drop_append_of_le_length hle
    cases hending : l.ending with
    | none => rw [h hending, List.append_nil, hnil]
    | some n =>
      have hstop : Stopped (l.rest.drop taken) := by
        obtain ⟨hkind, htext⟩ := l.ending_newline n hending
        refine ⟨⟨n, hargs ▸ List.mem_append_right _ (by simp [hending]), hkind⟩, fun t ht hn => ?_⟩
        rcases List.mem_append.1 (List.mem_of_mem_drop ht) with ht | ht
        · exact absurd hn (l.args_kind t ht).1
        · exact (l.ending_newline t (Option.mem_toList.1 ht)).2
      rw [hstop.skipToDirectiveEnd, hnil, List.nil_append]

end Lines

section Rounds

variable {σ : Type} (S : Services σ) (file : String) {stack taken : List Bool}

theorem loop_cons (s : Scanner σ) (t : PpToken) (rest : List PpToken) :
    loop S file s (t :: rest) =
      match round S file s t rest with
      | (s, .error e) => (s.doc, .error (e, rest.length + 1))
      | (s, .ok rest) => loop S file s rest := by
  rw [loop]
  split <;> rename_i heq <;> rw [heq]

/-- The end of the file, or a directive. -/
def Begins (following : List PpToken) : Prop := following = [] ∨ isDirectiveStart following = true

theorem Line.begins {d : Directive} (l : Line d) (following : List PpToken) :
    Begins (l.tokens ++ following) :=
  .inr (l.isDirectiveStart following)

/-- Before a directive, and at the end, text that was put off is expanded. -/
theorem loop_flush {following : List PpToken} (h : Begins following) (d : Doc σ)
    (pending : List PpToken) :
    loop S file ⟨d, pending, stack, taken⟩ following =
      match emit S file d pending with
      | .error f => (d, .error (.fault f, following.length))
      | .ok d => loop S file ⟨d, [], stack, taken⟩ following := by
  have hempty : ∀ d : Doc σ, emit S file d [] = .ok d := fun _ => rfl
  rcases h with rfl | h
  · rw [loop]
    simp only [flushPending]
    cases hemit : emit S file d pending with
    | error f => rfl
    | ok doc =>
      simp only [Except.map]
      rw [loop]
      simp only [flushPending, hempty, Except.map]
  · cases following with
    | nil => cases h
    | cons t rest =>
      simp only [loop_cons, round, if_pos h, flushPending, hempty]
      cases hemit : emit S file d pending with
      | error f => rfl
      | ok doc => rfl

/-- Text of an active group is put off. -/
theorem loop_text {following : List PpToken} (hactive : stack.all id = true) (d : Doc σ)
    (pending text : List PpToken) (htext : NoDirective text following) :
    loop S file ⟨d, pending, stack, taken⟩ (text ++ following) =
      loop S file ⟨d, pending ++ text, stack, taken⟩ following := by
  induction text generalizing pending with
  | nil => rw [List.append_nil, List.nil_append]
  | cons t rest ih =>
    have hstart := htext t rest (List.suffix_refl _)
    rw [List.cons_append, loop_cons, round, if_neg (by rw [hstart]; decide)]
    simp only [Scanner.active, hactive, if_true]
    rw [ih (pending ++ [t]) fun u more h => htext u more (h.trans (List.suffix_cons _ _)),
      List.append_assoc, List.singleton_append]

/-- Text of a group that is not selected is left out. -/
theorem loop_text_skipped {following : List PpToken} (hactive : stack.all id = false) (d : Doc σ)
    (text : List PpToken) (htext : NoDirective text following) :
    loop S file ⟨d, [], stack, taken⟩ (text ++ following) =
      loop S file ⟨d, [], stack, taken⟩ following := by
  induction text with
  | nil => rfl
  | cons t rest ih =>
    have hstart := htext t rest (List.suffix_refl _)
    rw [List.cons_append, loop_cons, round, if_neg (by rw [hstart]; decide)]
    simp only [Scanner.active, hactive]
    exact ih fun u more h => htext u more (h.trans (List.suffix_cons _ _))

/-- At the line of a directive, with nothing put off. -/
theorem loop_line {d : Directive} (l : Line d) (doc : Doc σ) (following : List PpToken) :
    loop S file ⟨doc, [], stack, taken⟩ (l.tokens ++ following) =
      match directiveRound S file ⟨doc, [], stack, taken⟩ d (l.tokens ++ following)
        (l.rest ++ following) with
      | (s, .error e) => (s.doc, .error (e, (l.tokens ++ following).length))
      | (s, .ok rest) => loop S file s rest := by
  have hstart := l.isDirectiveStart following
  have htokens : l.tokens ++ following = l.hash :: (l.gap ++ l.name :: (l.rest ++ following)) := by
    simp [Line.tokens]
  rw [htokens] at hstart ⊢
  rw [loop_cons, round, if_pos hstart]
  simp only [flushPending, emit, if_true, Except.map, l.parseDirectiveName, l.names,
    List.length_cons]

variable {following : List PpToken} {b t : Bool} (doc : Doc σ)

theorem loop_directive {p : Plain} (l : Line (.plain p)) (hactive : stack.all id = true)
    (hend : l.EndsBefore following) (hpath : p = .includeFile → PathClosed file l.rest following) :
    loop S file ⟨doc, [], stack, taken⟩ (l.tokens ++ following) =
      match perform S file p doc l.rest with
      | (doc, .error e) => (doc, .error (e, l.tokens.length + following.length))
      | (doc, .ok carry) => loop S file ⟨doc, [], stack, taken⟩ (carry ++ following) := by
  rw [loop_line, List.length_append]
  simp only [directiveRound, Scanner.active, hactive, if_true, l.perform S file doc hend hpath]
  cases perform S file p doc l.rest with
  | mk doc r => cases r <;> rfl

theorem loop_directive_skipped {p : Plain} (l : Line (.plain p)) (hactive : stack.all id = false)
    (hend : l.EndsBefore following) :
    loop S file ⟨doc, [], stack, taken⟩ (l.tokens ++ following) =
      loop S file ⟨doc, [], stack, taken⟩ following := by
  rw [loop_line]
  simp [directiveRound, Scanner.active, hactive, l.skip hend]

theorem loop_opening (o : Opening) (l : Line o.directive) (hactive : stack.all id = true)
    (hend : l.EndsBefore following) (hclosed : o = .ifExpr → l.ConditionClosed S file following) :
    loop S file ⟨doc, [], stack, taken⟩ (l.tokens ++ following) =
      match o.holds S file doc.unit l.rest with
      | .error e => (doc, .error (e, l.tokens.length + following.length))
      | .ok b => loop S file ⟨doc, [], b :: stack, b :: taken⟩ following := by
  rw [loop_line, List.length_append]
  have harg := l.argument hend
  have hcond := fun ho => l.parseIfExpression S file hend (hclosed ho) doc.unit
  generalize l.rest = line at harg hcond ⊢
  cases o with
  | ifdef =>
    simp only [Opening.directive, directiveRound, harg, Opening.holds, Scanner.active, hactive,
      Bool.true_and]
    cases parseSimpleDirectiveArg line <;> rfl
  | ifndef =>
    simp only [Opening.directive, directiveRound, harg, Opening.holds, Scanner.active, hactive,
      Bool.true_and]
    cases parseSimpleDirectiveArg line <;> rfl
  | ifExpr =>
    simp only [Opening.directive, directiveRound, Scanner.active, hactive, if_true, hcond rfl,
      Opening.holds, evalCondition]
    cases S.condition doc.unit file line <;> rfl

theorem loop_opening_skipped (o : Opening) (l : Line o.directive) (hactive : stack.all id = false)
    (hend : l.EndsBefore following) (hnamed : o.Named l.rest) :
    loop S file ⟨doc, [], stack, taken⟩ (l.tokens ++ following) =
      loop S file ⟨doc, [], false :: stack, false :: taken⟩ following := by
  rw [loop_line]
  have harg := l.argument hend
  have hskip := l.skip hend
  generalize l.tokens ++ following = here at hskip ⊢
  generalize l.rest = line at harg hnamed ⊢
  rcases hnamed with rfl | ⟨r, hr⟩
  · simp [Opening.directive, directiveRound, Scanner.active, hactive, Scanner.pushGroup, hskip]
  · rw [hr] at harg
    cases o <;>
      simp [Opening.directive, directiveRound, harg, Except.map, Scanner.active, hactive,
        Scanner.pushGroup, hskip]

/-- The conditions of a skipped group are not evaluated, but its names are asked for. -/
theorem loop_opening_unnamed (o : Opening) (l : Line o.directive)
    (hend : l.EndsBefore following) (hnamed : ¬o.Named l.rest) :
    ∃ e, loop S file ⟨doc, [], stack, taken⟩ (l.tokens ++ following) =
      (doc, .error (e, l.tokens.length + following.length)) := by
  rw [loop_line, List.length_append]
  have harg := l.argument hend
  generalize l.rest = line at harg hnamed ⊢
  cases hr : parseSimpleDirectiveArg line with
  | ok r => exact absurd (.inr ⟨r, hr⟩) hnamed
  | error e =>
    rw [hr] at harg
    cases o with
    | ifdef => exact ⟨e, by simp [Opening.directive, directiveRound, harg, Except.map]⟩
    | ifndef => exact ⟨e, by simp [Opening.directive, directiveRound, harg, Except.map]⟩
    | ifExpr => exact absurd (.inl rfl) hnamed

theorem loop_elif (l : Line .elif) (hactive : stack.all id = true) (hend : l.EndsBefore following)
    (hclosed : l.ConditionClosed S file following) :
    loop S file ⟨doc, [], b :: stack, false :: taken⟩ (l.tokens ++ following) =
      match evalCondition S file doc.unit l.rest with
      | .error e => (doc, .error (e, l.tokens.length + following.length))
      | .ok b => loop S file ⟨doc, [], b :: stack, b :: taken⟩ following := by
  rw [loop_line, List.length_append]
  simp only [directiveRound, List.head?_cons, Scanner.parentActive, List.tail_cons, hactive,
    l.parseIfExpression S file hend hclosed, evalCondition]
  cases S.condition doc.unit file l.rest with
  | error e => rfl
  | ok r =>
    simp only [Except.map, Option.some.injEq, Bool.false_eq_true, if_false, if_true]
    cases r.1 != 0 <;> rfl

/-- A branch was taken, or the conditional is in a group that is not selected. -/
theorem loop_elif_skipped (l : Line .elif) (hskip : t = true ∨ stack.all id = false)
    (hend : l.EndsBefore following) :
    ∃ b', (b' :: stack).all id = false ∧
      loop S file ⟨doc, [], b :: stack, t :: taken⟩ (l.tokens ++ following) =
        loop S file ⟨doc, [], b' :: stack, t :: taken⟩ following := by
  rw [loop_line]
  cases t with
  | true =>
    exact ⟨false, rfl, by simp [directiveRound, Scanner.setGroup, l.skip hend]⟩
  | false =>
    have hparent : stack.all id = false := by simpa using hskip
    exact ⟨b, by simp [List.all_cons, hparent],
      by simp [directiveRound, Scanner.parentActive, hparent, l.skip hend]⟩

theorem loop_else (l : Line .elseGroup) (hactive : stack.all id = true)
    (hend : l.EndsBefore following) :
    loop S file ⟨doc, [], b :: stack, false :: taken⟩ (l.tokens ++ following) =
      loop S file ⟨doc, [], true :: stack, true :: taken⟩ following := by
  rw [loop_line]
  simp [directiveRound, Scanner.parentActive, hactive, Scanner.setGroup, Scanner.setTaken,
    l.skip hend]

theorem loop_else_skipped (l : Line .elseGroup) (hskip : t = true ∨ stack.all id = false)
    (hend : l.EndsBefore following) :
    loop S file ⟨doc, [], b :: stack, t :: taken⟩ (l.tokens ++ following) =
      loop S file ⟨doc, [], false :: stack, t :: taken⟩ following := by
  rw [loop_line]
  rcases hskip with rfl | hparent
  · simp [directiveRound, Scanner.setGroup, l.skip hend]
  · simp [directiveRound, Scanner.parentActive, hparent, Scanner.setGroup, l.skip hend]

theorem loop_endif (l : Line .endif) (hend : l.EndsBefore following) :
    loop S file ⟨doc, [], b :: stack, t :: taken⟩ (l.tokens ++ following) =
      loop S file ⟨doc, [], stack, taken⟩ following := by
  rw [loop_line]
  simp [directiveRound, Scanner.popGroup, l.skip hend]

end Rounds

end OpticC.Preprocessor
