import OpticC.Frontend.ResolveIncludes

/-! The line of a directive. What reads it stops at its newline, so it finds the same in the
line alone as in the line with all that follows. -/

namespace OpticC.Preprocessor

/-- There is a newline, where what reads a line stops. -/
structure Stopped (tokens : List PpToken) : Prop where
  newline : ∃ t ∈ tokens, t.kind = .newline
  text : ∀ t ∈ tokens, t.kind = .newline → t.text = "\n"

section Stopped

variable {tokens : List PpToken} (following : List PpToken)

theorem Stopped.tail {t : PpToken} (h : Stopped (t :: tokens)) (ht : t.kind ≠ .newline) :
    Stopped tokens := by
  obtain ⟨⟨n, hn, hkind⟩, htext⟩ := h
  refine ⟨?_, fun m hm => htext m (List.mem_cons_of_mem t hm)⟩
  rcases List.mem_cons.1 hn with rfl | hn
  · exact absurd hkind ht
  · exact ⟨n, hn, hkind⟩

theorem Stopped.ne_nil (h : Stopped tokens) : tokens ≠ [] := by
  rintro rfl
  obtain ⟨n, hn, -⟩ := h.newline
  cases hn

theorem Stopped.skipWhitespace (h : Stopped tokens) :
    Stopped (skipWhitespace tokens) ∧
      Preprocessor.skipWhitespace (tokens ++ following) =
        Preprocessor.skipWhitespace tokens ++ following := by
  induction tokens with
  | nil => exact absurd rfl h.ne_nil
  | cons t rest ih =>
    unfold Preprocessor.skipWhitespace
    by_cases ht : t.kind = .whitespace
    · have hrest := ih (h.tail (by rw [ht]; decide))
      rw [List.cons_append, List.dropWhile_cons_of_pos (by simp [ht]),
        List.dropWhile_cons_of_pos (by simp [ht])]
      exact hrest
    · rw [List.cons_append, List.dropWhile_cons_of_neg (by simp [ht]),
        List.dropWhile_cons_of_neg (by simp [ht])]
      exact ⟨h, rfl⟩

theorem Stopped.skipToDirectiveEnd (h : Stopped tokens) :
    skipToDirectiveEnd (tokens ++ following) = skipToDirectiveEnd tokens ++ following := by
  induction tokens with
  | nil => exact absurd rfl h.ne_nil
  | cons t rest ih =>
    unfold Preprocessor.skipToDirectiveEnd
    by_cases ht : t.kind = .newline
    · rw [List.cons_append, List.dropWhile_cons_of_neg (by simp [ht]),
        List.dropWhile_cons_of_neg (by simp [ht])]
      rfl
    · rw [List.cons_append, List.dropWhile_cons_of_pos (by simp [ht]),
        List.dropWhile_cons_of_pos (by simp [ht])]
      exact ih (h.tail ht)

theorem Stopped.takeWhile (h : Stopped tokens) :
    (tokens ++ following).takeWhile (fun t => t.kind != .newline) =
      tokens.takeWhile fun t => t.kind != .newline := by
  induction tokens with
  | nil => exact absurd rfl h.ne_nil
  | cons t rest ih =>
    by_cases ht : t.kind = .newline
    · rw [List.cons_append, List.takeWhile_cons_of_neg (by simp [ht]),
        List.takeWhile_cons_of_neg (by simp [ht])]
    · rw [List.cons_append, List.takeWhile_cons_of_pos (by simp [ht]),
        List.takeWhile_cons_of_pos (by simp [ht]), ih (h.tail ht)]

theorem skipClose_append {tokens : List PpToken} (h : tokens ≠ []) :
    skipClose (tokens ++ following) = skipClose tokens ++ following := by
  cases tokens with
  | nil => exact absurd rfl h
  | cons t rest =>
    simp only [List.cons_append, skipClose]
    split_ifs <;> rfl

/-- The loop of `parse_macro_params` at its next token. -/
theorem parseMacroParams_cons {tokens rest : List PpToken} {t : PpToken}
    (h : skipWhitespace tokens = t :: rest) (file : String) (params : List String) :
    parseMacroParams file tokens params =
      if t.text = ")" then .ok (params, false, none, rest)
      else if t.text = "..." then .ok (params, true, none, skipClose (skipWhitespace rest))
      else if t.kind = .identifier then
        match skipWhitespace rest with
        | [] => parseMacroParams file [] (params ++ [t.text])
        | next :: more =>
          if next.text = "..." then
            .ok (params, true, some t.text, skipClose (skipWhitespace more))
          else if next.text = "," then parseMacroParams file more (params ++ [t.text])
          else parseMacroParams file (next :: more) (params ++ [t.text])
      else .error ("expected parameter name in macro definition in " ++ file) := by
  rw [parseMacroParams]
  split
  · rename_i heq
    rw [h] at heq
    cases heq
  · rename_i heq
    rw [h] at heq
    cases heq
    split_ifs
    · rfl
    · rfl
    · split <;> rename_i heq' <;> rw [heq']
    · rfl

/-- `parse_macro_params` stops at the newline at the latest. -/
theorem Stopped.parseMacroParams (h : Stopped tokens) (file : String) (params : List String) :
    parseMacroParams file (tokens ++ following) params =
      (parseMacroParams file tokens params).map fun r =>
        (r.1, r.2.1, r.2.2.1, r.2.2.2 ++ following) := by
  induction hlen : tokens.length using Nat.strongRecOn generalizing tokens params with
  | _ n ih =>
    obtain ⟨hstop, happend⟩ := h.skipWhitespace following
    cases hskip : Preprocessor.skipWhitespace tokens with
    | nil => exact absurd hskip hstop.ne_nil
    | cons t rest =>
      rw [hskip] at hstop
      rw [hskip, List.cons_append] at happend
      rw [parseMacroParams_cons happend, parseMacroParams_cons hskip]
      have hlt := length_skipWhitespace_cons hskip
      by_cases hclose : t.text = ")"
      · rw [if_pos hclose, if_pos hclose]
        rfl
      rw [if_neg hclose, if_neg hclose]
      by_cases hnewline : t.kind = .newline
      · have htext := hstop.text t List.mem_cons_self hnewline
        have hkind : t.kind ≠ .identifier := by rw [hnewline]; decide
        rw [if_neg (by rw [htext]; decide), if_neg hkind, if_neg (by rw [htext]; decide), if_neg hkind]
        rfl
      obtain ⟨hstop', happend'⟩ := (hstop.tail hnewline).skipWhitespace following
      by_cases hdots : t.text = "..."
      · rw [if_pos hdots, if_pos hdots, happend', skipClose_append _ hstop'.ne_nil]
        rfl
      rw [if_neg hdots, if_neg hdots]
      by_cases hname : t.kind = .identifier
      · rw [if_pos hname, if_pos hname, happend']
        cases hskip' : Preprocessor.skipWhitespace rest with
        | nil => exact absurd hskip' hstop'.ne_nil
        | cons next more =>
          rw [hskip'] at hstop'
          have hlt' := length_skipWhitespace_cons hskip'
          simp only [List.cons_append]
          by_cases hnext : next.kind = .newline
          · have htext := hstop'.text next List.mem_cons_self hnext
            rw [if_neg (by rw [htext]; decide), if_neg (by rw [htext]; decide),
              if_neg (by rw [htext]; decide), if_neg (by rw [htext]; decide)]
            exact ih _ (by rw [← hlen, List.length_cons]; omega) hstop' (params ++ [t.text]) rfl
          have hmore := hstop'.tail hnext
          by_cases hdots' : next.text = "..."
          · obtain ⟨hstop'', happend''⟩ := hmore.skipWhitespace following
            rw [if_pos hdots', if_pos hdots', happend'', skipClose_append _ hstop''.ne_nil]
            rfl
          rw [if_neg hdots', if_neg hdots']
          by_cases hcomma : next.text = ","
          · rw [if_pos hcomma, if_pos hcomma]
            exact ih _ (by rw [← hlen]; omega) hmore (params ++ [t.text]) rfl
          · rw [if_neg hcomma, if_neg hcomma]
            exact ih _ (by rw [← hlen, List.length_cons]; omega) hstop' (params ++ [t.text]) rfl
      · rw [if_neg hname, if_neg hname]
        rfl

theorem Stopped.skipClose (h : Stopped tokens) : Stopped (skipClose tokens) := by
  unfold Preprocessor.skipClose
  split
  · split_ifs with hclose
    · exact h.tail fun hnewline => absurd
        ((h.text _ List.mem_cons_self hnewline).symm.trans hclose) (by decide)
    · exact h
  · exact h

/-- The newline is still there behind the parameters. -/
theorem Stopped.afterParams (h : Stopped tokens) {file : String} {params : List String}
    {r : List String × Bool × Option String × List PpToken}
    (hr : Preprocessor.parseMacroParams file tokens params = .ok r) : Stopped r.2.2.2 := by
  have hskip : ∀ {ts : List PpToken}, Stopped ts → Stopped (Preprocessor.skipWhitespace ts) :=
    fun hts => (hts.skipWhitespace []).1
  have htail : ∀ {t : PpToken} {text : String} {ts : List PpToken}, Stopped (t :: ts) →
      t.text = text → text ≠ "\n" → Stopped ts := fun hts htext hne =>
    hts.tail fun hnewline => hne (htext.symm.trans (hts.text _ List.mem_cons_self hnewline))
  have hname : ∀ {t : PpToken} {ts : List PpToken}, Stopped (t :: ts) → t.kind = .identifier →
      Stopped ts := fun hts hkind => hts.tail (by rw [hkind]; decide)
  fun_induction Preprocessor.parseMacroParams file tokens params with
  | case1 => exact absurd (by assumption) (hskip h).ne_nil
  | case2 =>
    rename_i heq hclose
    cases hr
    exact htail (heq ▸ hskip h) hclose (by decide)
  | case3 =>
    rename_i heq _ hdots
    cases hr
    exact (hskip (htail (heq ▸ hskip h) hdots (by decide))).skipClose
  | case4 =>
    rename_i heq _ _ hkind heq' _
    exact absurd heq' (hskip (hname (heq ▸ hskip h) hkind)).ne_nil
  | case5 =>
    rename_i heq _ _ hkind _ _ heq' hdots
    cases hr
    exact (hskip (htail (heq' ▸ hskip (hname (heq ▸ hskip h) hkind)) hdots (by decide))).skipClose
  | case6 =>
    rename_i heq _ _ hkind _ _ heq' _ hcomma ih
    exact ih (htail (heq' ▸ hskip (hname (heq ▸ hskip h) hkind)) hcomma (by decide)) hr
  | case7 =>
    rename_i heq _ _ hkind _ _ heq' _ _ ih
    exact ih (heq' ▸ hskip (hname (heq ▸ hskip h) hkind)) hr
  | case8 => cases hr

theorem Stopped.processDefine (h : Stopped tokens) (table : MacroTable) (file : String) :
    processDefine table (tokens ++ following) file =
      (Preprocessor.processDefine table tokens file).map fun r => (r.1, r.2 ++ following) := by
  obtain ⟨hstop, happend⟩ := h.skipWhitespace following
  unfold Preprocessor.processDefine
  rw [happend]
  cases hskip : Preprocessor.skipWhitespace tokens with
  | nil => exact absurd hskip hstop.ne_nil
  | cons t rest =>
    rw [hskip] at hstop
    simp only [List.cons_append]
    by_cases hname : t.kind = .identifier
    · rw [if_neg (not_not.2 hname), if_neg (not_not.2 hname)]
      have hrest := hstop.tail (by rw [hname]; decide)
      cases hbehind : rest with
      | nil => exact absurd hbehind hrest.ne_nil
      | cons paren inside =>
        rw [hbehind] at hrest
        have hend := hrest.skipToDirectiveEnd following
        have hline := hrest.takeWhile following
        simp only [List.cons_append]
        by_cases hparen : paren.text = "("
        · rw [if_pos hparen, if_pos hparen]
          have hinside := hrest.tail fun hnewline => absurd
            ((hrest.text _ List.mem_cons_self hnewline).symm.trans hparen) (by decide)
          rw [hinside.parseMacroParams following file []]
          cases hparams : Preprocessor.parseMacroParams file inside [] with
          | error e => rfl
          | ok r =>
            obtain ⟨hbody, happend'⟩ := (hinside.afterParams hparams).skipWhitespace following
            have hend' := hbody.skipToDirectiveEnd following
            have hline' := hbody.takeWhile following
            simp only [Except.map, bind, Except.bind, pure, Except.pure]
            rw [happend', hline']
            exact congrArg (fun rest => Except.ok (_, rest)) hend'
        · rw [if_neg hparen, if_neg hparen]
          simp only [Except.map, pure, Except.pure]
          rw [← List.cons_append, hline]
          exact congrArg (fun rest => Except.ok (_, rest)) hend
    · rw [if_pos hname, if_pos hname]
      rfl

theorem Stopped.processUndef (h : Stopped tokens) (table : MacroTable) :
    processUndef table (tokens ++ following) =
      ((Preprocessor.processUndef table tokens).1,
        (Preprocessor.processUndef table tokens).2 ++ following) := by
  obtain ⟨hstop, happend⟩ := h.skipWhitespace following
  unfold Preprocessor.processUndef
  rw [happend]
  cases hskip : Preprocessor.skipWhitespace tokens with
  | nil => exact absurd hskip hstop.ne_nil
  | cons t rest =>
    rw [hskip] at hstop
    simp only [List.cons_append]
    by_cases hname : t.kind = .identifier
    · rw [if_pos hname, if_pos hname,
        (hstop.tail (by rw [hname]; decide)).skipToDirectiveEnd following]
    · rw [if_neg hname, if_neg hname, ← List.cons_append, hstop.skipToDirectiveEnd following]

theorem Stopped.parseSimpleDirectiveArg (h : Stopped tokens) :
    parseSimpleDirectiveArg (tokens ++ following) =
      (Preprocessor.parseSimpleDirectiveArg tokens).map fun r => (r.1, r.2 ++ following) := by
  obtain ⟨hstop, happend⟩ := h.skipWhitespace following
  unfold Preprocessor.parseSimpleDirectiveArg
  rw [happend]
  cases hskip : Preprocessor.skipWhitespace tokens with
  | nil => exact absurd hskip hstop.ne_nil
  | cons t rest =>
    rw [hskip] at hstop
    simp only [List.cons_append]
    by_cases hname : t.kind = .identifier
    · rw [if_pos hname, if_pos hname,
        (hstop.tail (by rw [hname]; decide)).skipToDirectiveEnd following]
      rfl
    · rw [if_neg hname, if_neg hname]
      rfl

/-- The path of the line does not need what follows: a `<` has its `>`. -/
def PathClosed (file : String) (tokens following : List PpToken) : Prop :=
  parseIncludePath file (tokens ++ following) =
    (parseIncludePath file tokens).map fun r => (r.1, r.2 ++ following)

theorem Stopped.perform {σ : Type} (S : Services σ) (file : String) (p : Plain) (d : Doc σ)
    (h : Stopped tokens) (hpath : p = .includeFile → PathClosed file tokens following) :
    perform S file p d (tokens ++ following) =
      ((Preprocessor.perform S file p d tokens).1,
        (Preprocessor.perform S file p d tokens).2.map (· ++ following)) := by
  cases p with
  | includeFile =>
    simp only [Preprocessor.perform, performInclude]
    rw [hpath rfl]
    cases Preprocessor.parseIncludePath file tokens with
    | error e => rfl
    | ok r =>
      simp only [Except.map]
      split
      · rfl
      · rfl
      · split_ifs <;> rfl
  | define =>
    simp only [Preprocessor.perform]
    rw [h.processDefine]
    cases Preprocessor.processDefine d.unit.macros tokens file <;> rfl
  | undef =>
    simp only [Preprocessor.perform]
    rw [h.processUndef]
    rfl
  | pragma =>
    simp only [Preprocessor.perform, parsePragmaText]
    rw [h.takeWhile, h.skipToDirectiveEnd]
    rfl
  | error =>
    simp only [Preprocessor.perform, parseDiagnosticText]
    rw [h.takeWhile]
    rfl
  | warning =>
    simp only [Preprocessor.perform, parseDiagnosticText]
    rw [h.takeWhile, h.skipToDirectiveEnd]
    rfl
  | other =>
    simp only [Preprocessor.perform]
    rw [h.skipToDirectiveEnd]
    rfl

end Stopped

end OpticC.Preprocessor
