import OpticC.Frontend.IfAgreement
import OpticC.Frontend.IfSimulation

/-! Where an `#if` line has the value of its expansion. The evaluator takes each expansion as
an expression of its own, which is what the expanded line says where the expansion is an
operand for the operators around it. -/

namespace OpticC.Preprocessor

open Enumerators (UnaryOp BinaryOp)

section Blocked

variable {chars : CharClasses} {table : MacroTable}

/-- A token that the stack does not block is scanned alike under a smaller stack. -/
theorem scanToken_unblocked {expanding expanding' : List String} {t : Token} (rest : List Token)
    (hfree : ¬(t.kind = .identifier ∧ expanding.contains t.text = true ∧
      t.text ≠ "__LINE__" ∧ t.text ≠ "__FILE__")) (hsub : ∀ n ∈ expanding', n ∈ expanding) :
    (scanToken chars table expanding' t rest).2 = (scanToken chars table expanding t rest).2 ∧
      ((scanToken chars table expanding' t rest).1 = (scanToken chars table expanding t rest).1 ∨
        ∃ functionLike name tokens, ∃ more : List String, table.lookup name ≠ none ∧
          (functionLike = false → more = [name]) ∧ (functionLike = true → more = []) ∧
          (scanToken chars table expanding t rest).1 =
            .scan functionLike name tokens (expanding ++ more) ∧
          (scanToken chars table expanding' t rest).1 =
            .scan functionLike name tokens (expanding' ++ more)) := by
  unfold scanToken
  by_cases hkind : t.kind = .identifier
  swap
  · rw [if_pos hkind, if_pos hkind]
    exact ⟨rfl, .inl rfl⟩
  rw [if_neg (not_not.2 hkind), if_neg (not_not.2 hkind)]
  by_cases hline : t.text = "__LINE__"
  · rw [if_pos hline, if_pos hline]
    exact ⟨rfl, .inl rfl⟩
  rw [if_neg hline, if_neg hline]
  by_cases hfile : t.text = "__FILE__"
  · rw [if_pos hfile, if_pos hfile]
    exact ⟨rfl, .inl rfl⟩
  have hblocked : ¬expanding.contains t.text = true := fun h => hfree ⟨hkind, h, hline, hfile⟩
  have hblocked' : ¬expanding'.contains t.text = true := fun h =>
    hblocked (List.contains_iff_mem.2 (hsub _ (List.contains_iff_mem.1 h)))
  rw [if_neg hfile, if_neg hfile, if_neg hblocked, if_neg hblocked']
  cases hlookup : table.lookup t.text with
  | none => exact ⟨rfl, .inl rfl⟩
  | some d =>
    have hne : table.lookup t.text ≠ none := by rw [hlookup]; exact Option.some_ne_none d
    cases d with
    | objectLike replacement =>
      exact ⟨rfl, .inr ⟨false, t.text, replacement, [t.text], hne, fun _ => rfl,
        by rintro ⟨⟩, rfl, rfl⟩⟩
    | functionLike params isVariadic variadicParam replacement =>
      simp only
      cases hdrop : rest.dropWhile Token.isWhitespace with
      | nil => exact ⟨rfl, .inl rfl⟩
      | cons paren inside =>
        simp only
        by_cases hparen : paren.text = "("
        swap
        · rw [if_neg hparen, if_neg hparen]
          exact ⟨rfl, .inl rfl⟩
        rw [if_pos hparen, if_pos hparen]
        cases hexpand : expandFunctionMacroTokens chars params isVariadic variadicParam
            (collectArgs params.length isVariadic inside [] [] 0).1 replacement [] with
        | error e => exact ⟨rfl, .inl rfl⟩
        | ok expanded =>
          refine ⟨rfl, .inr ⟨true, t.text, expanded, [], hne, by rintro ⟨⟩, fun _ => rfl, ?_, ?_⟩⟩ <;>
            rw [List.append_nil]

theorem mapM_cons_ok {α β ε : Type} {f : α → Except ε β} {x : α} {l : List α} {r : List β}
    (h : (x :: l).mapM f = .ok r) : ∃ y ys, f x = .ok y ∧ l.mapM f = .ok ys ∧ r = y :: ys := by
  rw [List.mapM_cons] at h
  obtain ⟨y, hy, h⟩ := bind_eq_ok h
  obtain ⟨ys, hys, h⟩ := bind_eq_ok h
  exact ⟨y, ys, hy, hys, (Except.ok.inj h).symm⟩

/-- A scan runs its outputs one by one. -/
theorem expand_eq_run (chars : CharClasses) (table : MacroTable) (fuel : ℕ) :
    ∃ run : Output → Except Fault (List Token),
      (∀ t, run (.push t) = .ok [t]) ∧ (∀ e, run (.fault e) = .error e) ∧
      (∀ functionLike name tokens expanding, run (.scan functionLike name tokens expanding) =
        expandMacroTokensWithStack chars table fuel tokens expanding) ∧
      ∀ tokens expanding, expandMacroTokensWithStack chars table (fuel + 1) tokens expanding =
        (outputs chars table expanding tokens).mapM run >>= fun parts => pure parts.flatten :=
  ⟨_, fun _ => rfl, fun _ => rfl, fun _ _ _ _ => rfl, fun _ _ => rfl⟩

/-- A blocked name is pushed as it is. -/
theorem scanToken_blocked {expanding : List String} {t : Token} (rest : List Token)
    (hkind : t.kind = .identifier) (hblocked : expanding.contains t.text = true)
    (hne : t.text ≠ "__LINE__" ∧ t.text ≠ "__FILE__") :
    (scanToken chars table expanding t rest).1 = .push t := by
  unfold scanToken
  rw [if_neg (not_not.2 hkind), if_neg hne.1, if_neg hne.2, if_pos hblocked]

/-- A result in which no macro is left does not depend on what the stack blocks. -/
theorem expand_unblocked (fuel : ℕ) {tokens result : List Token} {expanding expanding' : List String}
    (h : expandMacroTokensWithStack chars table fuel tokens expanding = .ok result)
    (hplain : ∀ t ∈ result, t.kind = .identifier → table.lookup t.text = none)
    (hnames : ∀ n ∈ expanding, table.lookup n ≠ none) (hsub : ∀ n ∈ expanding', n ∈ expanding) :
    expandMacroTokensWithStack chars table fuel tokens expanding' = .ok result := by
  induction fuel generalizing tokens result expanding expanding' with
  | zero => cases h
  | succ fuel ih =>
    obtain ⟨run, hpush, hfault, hscan, hexpand⟩ := expand_eq_run chars table fuel
    rw [hexpand] at h ⊢
    obtain ⟨parts, hparts, hresult⟩ := bind_eq_ok h
    obtain rfl := Except.ok.inj hresult
    have hrun : (outputs chars table expanding' tokens).mapM run = .ok parts := by
      clear h hresult
      induction hn : tokens.length using Nat.strongRecOn generalizing tokens parts with
      | ind n ihn =>
      cases tokens with
      | nil =>
        rw [outputs] at hparts ⊢
        exact hparts
      | cons t rest =>
        rw [outputs] at hparts ⊢
        obtain ⟨part, parts', hpart, hparts', rfl⟩ := mapM_cons_ok hparts
        have hpart_plain : ∀ u ∈ part, u.kind = .identifier → table.lookup u.text = none :=
          fun u hu => hplain u (by simp [hu])
        have hrest_plain : ∀ u ∈ parts'.flatten, u.kind = .identifier → table.lookup u.text = none :=
          fun u hu => hplain u (by rw [List.flatten_cons]; exact List.mem_append_right _ hu)
        have hless := length_scanToken_le chars table expanding t rest
        have hgo := ihn (scanToken chars table expanding t rest).2.length
          (by rw [← hn, List.length_cons]; omega) parts' hparts' hrest_plain rfl
        by_cases hblocked : t.kind = .identifier ∧ expanding.contains t.text = true ∧
            t.text ≠ "__LINE__" ∧ t.text ≠ "__FILE__"
        · obtain ⟨hkind, hcontains, hne⟩ := hblocked
          rw [scanToken_blocked rest hkind hcontains hne, hpush] at hpart
          obtain rfl := Except.ok.inj hpart
          exact absurd (hpart_plain t (List.mem_singleton_self t) hkind)
            (hnames _ (List.contains_iff_mem.1 hcontains))
        · obtain ⟨hrest, hsame | ⟨functionLike, name, tokens, more, hname, hfalse, htrue, hfrom, hto⟩⟩ :=
            scanToken_unblocked rest hblocked hsub
          · rw [hsame, hrest, List.mapM_cons, hpart]
            simp only [bind, Except.bind, hgo]
            rfl
          · rw [hfrom, hscan] at hpart
            have hmore : ∀ n ∈ more, table.lookup n ≠ none := fun n hn => by
              cases functionLike with
              | false =>
                rw [hfalse rfl] at hn
                rwa [List.mem_singleton.1 hn]
              | true =>
                rw [htrue rfl] at hn
                exact absurd hn List.not_mem_nil
            have hnested : expandMacroTokensWithStack chars table fuel tokens (expanding' ++ more) =
                .ok part := by
              refine ih hpart hpart_plain (fun n hn => ?_) fun n hn => ?_
              · exact (List.mem_append.1 hn).elim (hnames n) (hmore n)
              · exact List.mem_append.2 ((List.mem_append.1 hn).imp_left (hsub n))
            rw [hto, hrest, List.mapM_cons, hscan, hnested]
            simp only [bind, Except.bind, hgo]
            rfl
    rw [hrun]
    rfl

end Blocked

section Invocations

variable {env : IfEnv}

/-- No identifier of the tree is a macro. -/
theorem OperandTree.identifiers_plain {e : OperandTree} (he : e.Readable (IsPlain env)) {t : PpToken}
    (ht : t ∈ e.tokens) (hkind : t.kind = .identifier) : env.macros.lookup t.text = none := by
  have hmark : ∀ {text : String} (m : Mark .punctuator text), t ∉ m.tokens := fun m hm => by
    rcases List.mem_append.1 hm with hgap | htoken
    · exact absurd (hkind.symm.trans (m.gap_kind t hgap)) (by decide)
    · rw [List.mem_singleton.1 htoken] at hkind
      exact absurd (hkind.symm.trans m.token_kind) (by decide)
  induction e with
  | operand o =>
    obtain ⟨gap, u, htokens, hgap, hplain, -⟩ := he
    rw [OperandTree.tokens, htokens] at ht
    rcases List.mem_append.1 ht with ht | ht
    · exact absurd (hkind.symm.trans (hgap t ht)) (by decide)
    · obtain rfl := List.mem_singleton.1 ht
      obtain ⟨-, h | h | ⟨-, -, hlookup⟩⟩ := hplain
      · exact absurd (hkind.symm.trans h) (by decide)
      · exact absurd (hkind.symm.trans h) (by decide)
      · exact hlookup
  | paren opening e closing ih =>
    rcases List.mem_append.1 ht with ht | ht
    · exact absurd ht (hmark opening)
    · exact (List.mem_append.1 ht).elim (ih he) fun ht => absurd ht (hmark closing)
  | unary op m e ih => exact (List.mem_append.1 ht).elim (fun ht => absurd ht (hmark m)) (ih he.1)
  | binary op l m r ihl ihr =>
    rcases List.mem_append.1 ht with ht | ht
    · exact ihl he.1 ht
    · exact (List.mem_append.1 ht).elim (fun ht => absurd ht (hmark m)) (ihr he.2.1)
  | cond c question x colon y ihc ihx ihy =>
    rcases List.mem_append.1 ht with ht | ht
    · exact ihc he.1 ht
    rcases List.mem_append.1 ht with ht | ht
    · exact absurd ht (hmark question)
    rcases List.mem_append.1 ht with ht | ht
    · exact ihx he.2.1 ht
    · exact (List.mem_append.1 ht).elim (fun ht => absurd ht (hmark colon)) (ihy he.2.2.1)

theorem ifMacroLine_identifier {tokens : List Token} {t : Token} (ht : t ∈ tokens)
    (hkind : t.kind = .identifier) :
    ∃ u ∈ ifMacroLine tokens, u.kind = .identifier ∧ u.text = t.text := by
  refine ⟨⟨.identifier, t.text, t.line, t.column⟩, List.mem_filter.2 ⟨List.mem_map.2 ⟨t, ht, ?_⟩, rfl⟩,
    rfl, rfl⟩
  simp only [hkind]

/-- In an expansion that is an expression no macro is left. -/
theorem expansion_plain {expansion : List Token} {e : OperandTree} {gap : List PpToken}
    (he : e.Readable (IsPlain env)) (htokens : ifMacroLine expansion = e.tokens ++ gap)
    (hgap : ∀ g ∈ gap, g.kind = .whitespace) :
    ∀ t ∈ expansion, t.kind = .identifier → env.macros.lookup t.text = none := by
  intro t ht hkind
  obtain ⟨u, hu, hukind, htext⟩ := ifMacroLine_identifier ht hkind
  rw [htokens] at hu
  rcases List.mem_append.1 hu with hu | hu
  · exact htext ▸ e.identifiers_plain he hu hukind
  · exact absurd (hukind.symm.trans (hgap u hu)) (by decide)

variable {parseOr conditional : List PpToken → IfResult} {m : ℕ}

theorem evalIfMacroTokens_tree (hor : Reads (IsPlain env) parseOr 1 1 m) {expansion : List Token}
    {e : OperandTree} {gap : List PpToken} (htokens : ifMacroLine expansion = e.tokens ++ gap)
    (hgap : ∀ g ∈ gap, g.kind = .whitespace) (he : e.Readable (IsPlain env)) (hpos : 1 ≤ e.level)
    (hm : e.size < m) : evalIfMacroTokens parseOr expansion = e.computed := by
  have hsome : ¬(ifMacroLine expansion).all (fun t => t.kind == .whitespace) = true := by
    intro hall
    have hsize := e.size_le he []
    have hnil : skipWhitespace e.tokens = [] := by
      unfold skipWhitespace
      refine List.dropWhile_eq_nil_iff.2 fun t ht => ?_
      rw [htokens] at hall
      exact List.all_eq_true.1 hall t (List.mem_append_left _ ht)
    have := e.size_pos
    rw [List.append_nil, hnil] at hsize
    simp only [List.length_nil] at hsize
    omega
  have hend : skipWhitespace (gap ++ [⟨.newline, "\n", 0, 0⟩]) = [⟨.newline, "\n", 0, 0⟩] := by
    rw [skipWhitespace_gap hgap, skipWhitespace_cons (by decide)]
  have hstop : Stops 1 (gap ++ [⟨.newline, "\n", 0, 0⟩]) := by
    intro t more hskip
    rw [hend] at hskip
    obtain ⟨rfl, rfl⟩ := List.cons.inj hskip
    exact ⟨fun op => by cases op <;> exact fun h => absurd h (by decide), fun h => absurd h (by decide)⟩
  rw [evalIfMacroTokens, if_neg hsome, htokens, List.append_assoc]
  rcases hor.cases he hpos hm hstop with ⟨err, hparse, hvalue⟩ | ⟨v, behind, hparse, hvalue, -⟩
  · rw [hparse, hvalue]
    rfl
  · rw [hparse, hvalue]
    rfl

theorem unexpandedOperand_none {t : PpToken} {rest : List PpToken}
    (h : unexpandedOperand env t rest = none) : t.text ≠ "defined" ∧ featureProbe env t.text = none := by
  unfold unexpandedOperand at h
  split_ifs at h with hdefined
  exact ⟨hdefined, Option.map_eq_none_iff.1 h⟩

/-- An invocation is read as its expansion by itself. -/
theorem readsInvocations (hor : Reads (IsPlain env) parseOr 1 1 m) :
    ReadsInvocations env (parseIfPrimary env (parseIfIdentifier env parseOr) conditional) m := by
  intro t rest behind gap expansion e hkind hword hoperand hinv htokens hgap he hpos hm
  obtain ⟨hdefined, hprobe⟩ := unexpandedOperand_none hoperand
  have hvalue := evalIfMacroTokens_tree hor htokens hgap he hpos hm
  have hplain := expansion_plain he htokens hgap
  have hidentifier : parseIfIdentifier env parseOr t.text rest =
      e.computed.map fun v => (v, behind) := by
    unfold parseIfIdentifier
    simp only [hprobe]
    unfold invocation at hinv
    cases hlookup : env.macros.lookup t.text with
    | none =>
      rw [hlookup] at hinv
      cases hinv
    | some d =>
      rw [hlookup] at hinv
      cases d with
      | objectLike replacement =>
        obtain ⟨hexpand, rfl⟩ := Prod.mk.inj (Option.some.inj hinv)
        -- the evaluator does not block the name, which makes no difference here
        have hunblocked : expandMacroTokens env.chars env.macros env.expansionFuel replacement =
            .ok expansion := by
          refine expand_unblocked _ hexpand hplain (fun n hn => ?_) fun n hn =>
            absurd hn List.not_mem_nil
          rw [List.mem_singleton.1 hn, hlookup]
          exact Option.some_ne_none _
        simp only [hunblocked, liftFault, Except.mapError, bind, Except.bind, hvalue]
        cases e.computed <;> rfl
      | functionLike params isVariadic variadicParam replacement =>
        simp only at hinv ⊢
        cases hskip : skipWhitespace rest with
        | nil =>
          rw [hskip] at hinv
          cases hinv
        | cons paren inside =>
          rw [hskip] at hinv
          simp only at hinv ⊢
          split_ifs at hinv with hparen
          obtain ⟨hexpand, rfl⟩ := Prod.mk.inj (Option.some.inj hinv)
          obtain ⟨substituted, hsubstituted, hscan⟩ := bind_eq_ok hexpand
          rw [if_pos hparen]
          simp only [hsubstituted, hscan, liftFault, Except.mapError, bind, Except.bind, hvalue]
          cases e.computed <;> rfl
  rw [parseIfPrimary, skipWhitespace_cons (hkind ▸ by decide)]
  simp only [if_neg hword.1, if_neg hdefined, hkind, reduceCtorEq, if_false, if_true, hidentifier]
  cases e.computed <;> rfl

theorem parseIfOrBy_similar (m : ℕ) {fuel : ℕ} (hfuel : 2 * m < fuel) :
    Similar env (parseIfOrBy env (parseIfIdentifier env) fuel)
      (parseIfOrBy env (plainIdentifier env) fuel) 1 m := by
  induction m generalizing fuel with
  | zero => exact fun ts ts' _ hlt => absurd hlt (Nat.not_lt_zero _)
  | succ m ih =>
    obtain ⟨f, rfl⟩ : ∃ f, fuel = f + 1 := ⟨fuel - 1, by omega⟩
    have hor := ih (show 2 * m < f by omega)
    have hconditional : Similar env (parseIfConditionalOf (parseIfOrBy env (parseIfIdentifier env) f) f)
        (parseIfConditionalOf (parseIfOrBy env (plainIdentifier env) f) f) 0 m :=
      fun ts ts' hts hlt => parseIfConditionalOf_similar hor hts hlt (by omega) (by omega)
    have hleft := parseIfOrBy_reads env (parseIfIdentifier env)
      (fun o (ho : IsPlain env o) _ _ => ho.takes parseIfIdentifier_handler _ _) (m + 1) f (by omega)
    have hright := parseIfOrBy_reads env (plainIdentifier env)
      (fun o (ho : IsPlain env o) _ _ => ho.takes plainIdentifier_handler _ _) m f (by omega)
    have hright' : Reads (IsPlain env)
        (parseIfConditionalOf (parseIfOrBy env (plainIdentifier env) f) f) 0 0 m :=
      fun e he hlevel hn rest hstop => parseIfConditionalOf_tree hright e he hn (by omega) hstop
    have hplain : ReadsPlain env (parseIfPrimary env
        (plainIdentifier env (parseIfOrBy env (plainIdentifier env) f))
        (parseIfConditionalOf (parseIfOrBy env (plainIdentifier env) f) f)) (m + 1) :=
      ⟨fun j => parseIfPrimary_reads env (fun o ho => ho.takes plainIdentifier_handler _ _) hright' j,
        parseIfPrimary_skip env, fun o ho => ho.takes plainIdentifier_handler _ _⟩
    exact (levelOk_or (readsInvocations hleft) hplain
      (parseIfPrimary_similar hconditional (Nat.le_refl _)) (Nat.succ_pos m) (by omega)
      (by omega)).similar

/-- The value of the line, `none` where the evaluator gives up. -/
def lineValue (r : IfResult) : Option (BitVec 64) := (r.map Prod.fst).toOption

/-- A line whose expansions are operands where they stand has the value of the line with its
macros replaced. -/
theorem lineValue_expandIfLine (env : IfEnv) {line expanded : List PpToken}
    (hfits : Fits env (.operand 0) line) (hline : expandIfLine env line = .ok expanded) {fuel : ℕ}
    (hfuel : 2 * (line.length + expanded.length + 1) < fuel) :
    lineValue (evalIfLine env fuel line) = lineValue (evalExpandedLine env fuel expanded) := by
  have hle := pending_le line
  have hle' := pending_le expanded
  have hor : Similar env (parseIfOrBy env (parseIfIdentifier env) fuel)
      (parseIfOrBy env (plainIdentifier env) fuel) 1 (line.length + expanded.length + 1) :=
    parseIfOrBy_similar _ hfuel
  have hless : pending line + pending expanded < fuel := by omega
  have hsame := parseIfConditionalOf_similar hor (hfits.expands hline).operand_head (by omega) hless
    hless
  unfold evalIfLine evalExpandedLine parseIfConditional parseIfOr
  rcases hsame with ⟨e, e', h, h'⟩ | ⟨v, rest, rest', h, h', -, -⟩
  · rw [h, h']
    rfl
  · rw [h, h']
    rfl

end Invocations

section Lines

def sumToken (kind : TokenKind) (text : String) : Token := ⟨kind, text, 1, 1, "a.c"⟩

/-- `#define SUM 1 + 1`, `#define CHOICE 1 ? 2 : 3` and `#define ID(x) x` -/
def sumEnv : IfEnv :=
  { emptyEnv with
    expansionFuel := 2
    macros := [
      ("SUM", .objectLike
        [sumToken .intLiteral "1", sumToken .punctuator "+", sumToken .intLiteral "1"]),
      ("CHOICE", .objectLike [sumToken .intLiteral "1", sumToken .punctuator "?",
        sumToken .intLiteral "2", sumToken .punctuator ":", sumToken .intLiteral "3"]),
      ("ID", .functionLike ["x"] false none [sumToken .identifier "x"])] }

def numberPiece (text : String) : PpToken := ⟨.number, text, 1, 1⟩

def signPiece (text : String) : PpToken := ⟨.punctuator, text, 1, 1⟩

def namePiece (text : String) : PpToken := ⟨.identifier, text, 1, 1⟩

/-- An operand that is one number. -/
def numberOperand (text : String) : IfOperand where
  tokens := [numberPiece text]
  tokens_ne := List.cons_ne_nil _ _
  value := .ok (parseIntLiteral text)

def sumTree : OperandTree :=
  .binary .add (.operand (numberOperand "1")) (markOf _ _) (.operand (numberOperand "1"))

theorem one_plain : PlainToken sumEnv (numberPiece "1") :=
  ⟨⟨by decide, by decide, fun op => by cases op <;> decide⟩, .inl rfl⟩

theorem sumTree_readable : sumTree.Readable (IsPlain sumEnv) := by
  have hone : IsPlain sumEnv (numberOperand "1") :=
    ⟨[], numberPiece "1", rfl, fun g hg => absurd hg List.not_mem_nil, one_plain, rfl⟩
  exact ⟨hone, hone, by decide, by decide, fun h => absurd h (by decide)⟩

/-- `SUM == 2` -/
def sumEquals : List PpToken := [namePiece "SUM", signPiece "==", numberPiece "2"]

theorem sumEquals_fits : Fits sumEnv (.operand 0) sumEquals := by
  have htwo : PlainToken sumEnv (numberPiece "2") :=
    ⟨⟨by decide, by decide, fun op => by cases op <;> decide⟩, .inl rfl⟩
  have hbehind : Fits sumEnv (.operator sumTree.level) [signPiece "==", numberPiece "2"] :=
    .binary .eq rfl rfl (.inl (by decide)) (.plain htwo (.nil _))
  have hinv : invocation sumEnv "SUM" [signPiece "==", numberPiece "2"] =
      some (.ok [sumToken .intLiteral "1", sumToken .punctuator "+", sumToken .intLiteral "1"],
        [signPiece "==", numberPiece "2"]) := by
    decide +kernel
  have htokens : ifMacroLine [sumToken .intLiteral "1", sumToken .punctuator "+",
      sumToken .intLiteral "1"] = sumTree.tokens ++ [] := by
    decide
  exact .expanded rfl ⟨by decide, by decide, fun op => by cases op <;> decide⟩ (by decide)
    hinv htokens (fun g hg => absurd hg List.not_mem_nil) sumTree_readable (by decide) (by decide)
    hbehind

theorem expandIfLine_sumEquals : expandIfLine sumEnv sumEquals =
    .ok [numberPiece "1", signPiece "+", numberPiece "1", signPiece "==", numberPiece "2"] := by
  decide +kernel

theorem lineValue_sumEquals : lineValue (evalIfLine sumEnv 19 sumEquals) = lineValue
    (evalExpandedLine sumEnv 19
      [numberPiece "1", signPiece "+", numberPiece "1", signPiece "==", numberPiece "2"]) :=
  lineValue_expandIfLine sumEnv sumEquals_fits expandIfLine_sumEquals (by decide)

/-- `SUM * 2` is computed as `(1 + 1) * 2`, of `CHOICE` only the condition is read, and `ID`
without arguments counts as 1. -/
theorem not_lineValue_expandIfLine :
    (expandIfLine sumEnv [namePiece "SUM", signPiece "*", numberPiece "2"] =
        .ok [numberPiece "1", signPiece "+", numberPiece "1", signPiece "*", numberPiece "2"] ∧
      lineValue (evalIfLine sumEnv 19 [namePiece "SUM", signPiece "*", numberPiece "2"]) = some 4 ∧
      lineValue (evalExpandedLine sumEnv 19
        [numberPiece "1", signPiece "+", numberPiece "1", signPiece "*", numberPiece "2"]) =
          some 3) ∧
    (expandIfLine sumEnv [namePiece "CHOICE"] =
        .ok [numberPiece "1", signPiece "?", numberPiece "2", signPiece ":", numberPiece "3"] ∧
      lineValue (evalIfLine sumEnv 19 [namePiece "CHOICE"]) = some 1 ∧
      lineValue (evalExpandedLine sumEnv 19
        [numberPiece "1", signPiece "?", numberPiece "2", signPiece ":", numberPiece "3"]) =
          some 2) ∧
    expandIfLine sumEnv [namePiece "ID"] = .ok [namePiece "ID"] ∧
      lineValue (evalIfLine sumEnv 19 [namePiece "ID"]) = some 1 ∧
      lineValue (evalExpandedLine sumEnv 19 [namePiece "ID"]) = some 0 := by
  decide +kernel

end Lines

end OpticC.Preprocessor
