import Mathlib.Algebra.Ring.Int.Defs
import Mathlib.Algebra.Ring.Nat
import Mathlib.Data.List.Basic
import Mathlib.Algebra.BigOperators.Group.List.Basic
import Mathlib.Algebra.Order.BigOperators.Group.List
import Mathlib.Algebra.Order.Group.Nat
import Mathlib.Tactic.SplitIfs

/-! The prerequisites of a rule in a makefile, as `make` reads them from the line behind the colon:
blanks separate the names, a backslash quotes a character that has a meaning of its own, `$$` is a
dollar. A name that is read takes at least as much text as its quoted form. -/

namespace OpticC.MakeRules

section Reading

/-- A character that has a meaning of its own at some place in a list of prerequisites, and that a
backslash quotes. -/
def special (c : Char) : Bool :=
  [' ', '\t', '#', ':', ';', '=', '|', '*', '?', '[', '~', '('].contains c

def isBlank (c : Char) : Bool := c == ' ' || c == '\t'

/-- A word ends at a blank and where a comment begins. -/
def endsWord (c : Char) : Bool := isBlank c || c == '#'

/-- A backslash in front of this text quotes: behind further backslashes there is a special
character or the end. In front of other text it stands for itself. -/
def quotes (t : List Char) : Bool := (t.dropWhile (· == '\\')).head?.all special

/-- A word, and the text behind it. There is none if the line goes on in the next one, and if a
character gives the line another meaning: a variable, a pattern, a recipe, an assignment. -/
def readWord : List Char → Option (List Char × List Char)
  | [] => some ([], [])
  | c :: t =>
    if c = '\\' then
      if quotes t then
        match t with
        | [] => none
        | d :: t => (readWord t).map fun r => (d :: r.1, r.2)
      else (readWord t).map fun r => (c :: r.1, r.2)
    else if endsWord c then some ([], c :: t)
    else if c = '$' then
      match t with
      | [] => none
      | d :: t => if d = '$' then (readWord t).map fun r => (d :: r.1, r.2) else none
    else if special c then none
    else (readWord t).map fun r => (c :: r.1, r.2)

theorem special_of_endsWord {c : Char} (h : endsWord c = true) : special c = true := by
  unfold endsWord isBlank at h
  simp only [Bool.or_eq_true, beq_iff_eq] at h
  rcases h with (rfl | rfl) | rfl <;> decide

theorem ne_backslash_of_endsWord {c : Char} (h : endsWord c = true) : c ≠ '\\' := by
  rintro rfl
  revert h
  decide

theorem readWord_end {c : Char} (h : endsWord c = true) (r : List Char) :
    readWord (c :: r) = some ([], c :: r) := by
  rw [readWord.eq_def]
  exact (if_neg (ne_backslash_of_endsWord h)).trans (if_pos h)

theorem readWord_literal {t : List Char} (h : ¬quotes t = true) :
    readWord ('\\' :: t) = (readWord t).map fun r => ('\\' :: r.1, r.2) := by
  rw [readWord.eq_def]
  exact (if_pos rfl).trans (if_neg h)

theorem readWord_ordinary {c : Char} (hc : c ≠ '\\') (hd : c ≠ '$') (hs : ¬special c = true)
    (t : List Char) : readWord (c :: t) = (readWord t).map fun r => (c :: r.1, r.2) := by
  rw [readWord.eq_def]
  simp only [if_neg hc, if_neg (fun h => hs (special_of_endsWord h)), if_neg hd, if_neg hs]

theorem readWord_quoted {d : Char} {t : List Char} (h : quotes (d :: t) = true) :
    readWord ('\\' :: d :: t) = (readWord t).map fun r => (d :: r.1, r.2) := by
  rw [readWord.eq_def]
  exact (if_pos rfl).trans (if_pos h)

theorem readWord_dollar (t : List Char) :
    readWord ('$' :: '$' :: t) = (readWord t).map fun r => ('$' :: r.1, r.2) := by
  rw [readWord.eq_def]
  rfl

/-- The words of a line, at most `fuel`. -/
def readNames : ℕ → List Char → Option (List (List Char))
  | 0, _ => none
  | fuel + 1, line =>
    match line.dropWhile isBlank with
    | [] => some []
    | c :: rest =>
      if c = '#' then some []
      else (readWord (c :: rest)).bind fun r => (readNames fuel r.2).map (r.1 :: ·)

/-- The names in the text behind the colon of a rule. -/
def prerequisites (text : List Char) : Option (List (List Char)) :=
  let line := text.takeWhile (· ≠ '\n')
  readNames (line.length + 1) line

end Reading

section Quoting

/-- The quoted form of a name -/
def escape : List Char → List Char
  | [] => []
  | c :: t =>
    if c = '\\' then if quotes t then '\\' :: '\\' :: escape t else '\\' :: escape t
    else if c = '$' then '$' :: '$' :: escape t
    else if special c then '\\' :: c :: escape t
    else c :: escape t

/-- What can follow a word. -/
def Ends (r : List Char) : Prop := ∀ c ∈ r.head?, endsWord c = true

theorem quotes_cons_backslash (t : List Char) : quotes ('\\' :: t) = quotes t := by
  unfold quotes
  rw [List.dropWhile_cons_of_pos (by decide)]

theorem quotes_cons {c : Char} (h : c ≠ '\\') (t : List Char) : quotes (c :: t) = special c := by
  unfold quotes
  rw [List.dropWhile_cons_of_neg (by simpa using h)]
  simp

theorem quotes_of_ends {r : List Char} (h : Ends r) : quotes r = true := by
  cases r with
  | nil => rfl
  | cons c r =>
    rw [quotes_cons (ne_backslash_of_endsWord (h c rfl))]
    exact special_of_endsWord (h c rfl)

theorem quotes_escape (t : List Char) {r : List Char} (hr : Ends r) :
    quotes (escape t ++ r) = quotes t := by
  induction t with
  | nil => exact quotes_of_ends hr
  | cons c t ih =>
    rw [escape]
    split_ifs with hc hq hd hs
    · subst hc
      simp only [List.cons_append, quotes_cons_backslash, ih]
    · subst hc
      simp only [List.cons_append, quotes_cons_backslash, ih]
    · subst hd
      rw [List.cons_append, quotes_cons (by decide), quotes_cons (by decide)]
    · rw [List.cons_append, quotes_cons_backslash, List.cons_append, quotes_cons hc, quotes_cons hc]
    · rw [List.cons_append, quotes_cons hc, quotes_cons hc]

/-- A quoted name is read back. -/
theorem readWord_escape (w : List Char) {r : List Char} (hr : Ends r) :
    readWord (escape w ++ r) = some (w, r) := by
  induction w with
  | nil =>
    cases r with
    | nil => rfl
    | cons c r => exact readWord_end (hr c rfl) r
  | cons c w ih =>
    have hquotes := quotes_escape w hr
    rw [escape]
    split_ifs with hc hq hd hs
    · subst hc
      simp only [List.cons_append]
      rw [readWord_quoted (by rw [quotes_cons_backslash, hquotes]; exact hq), ih]
      rfl
    · subst hc
      simp only [List.cons_append]
      rw [readWord_literal (by rw [hquotes]; exact hq), ih]
      rfl
    · subst hd
      simp only [List.cons_append]
      rw [readWord_dollar, ih]
      rfl
    · simp only [List.cons_append]
      rw [readWord_quoted (by rw [quotes_cons hc]; exact hs), ih]
      rfl
    · rw [List.cons_append, readWord_ordinary hc hd hs, ih]
      rfl

/-- A backslash that stands for itself in the text does so in the word. -/
theorem quotes_readWord {t w rest : List Char} (h : readWord t = some (w, rest))
    (hq : ¬quotes t = true) : ¬quotes w = true := by
  induction t generalizing w with
  | nil => exact absurd rfl hq
  | cons c t ih =>
    by_cases hc : c = '\\'
    · subst hc
      rw [quotes_cons_backslash] at hq
      rw [readWord_literal hq] at h
      obtain ⟨⟨w', rest'⟩, hrest, hw⟩ := Option.map_eq_some_iff.1 h
      cases hw
      rw [quotes_cons_backslash]
      exact ih hrest hq
    · rw [quotes_cons hc] at hq
      by_cases hd : c = '$'
      · subst hd
        cases t with
        | nil => cases h
        | cons d t =>
          by_cases hdollar : d = '$'
          · subst hdollar
            rw [readWord_dollar] at h
            obtain ⟨⟨w', rest'⟩, -, hw⟩ := Option.map_eq_some_iff.1 h
            cases hw
            rw [quotes_cons (by decide)]
            decide
          · rw [readWord.eq_def] at h
            simp [endsWord, isBlank, hdollar] at h
      · rw [readWord_ordinary hc hd hq] at h
        obtain ⟨⟨w', rest'⟩, -, hw⟩ := Option.map_eq_some_iff.1 h
        cases hw
        rw [quotes_cons hc]
        exact hq

theorem length_escape_cons_le (c : Char) (w : List Char) :
    (escape (c :: w)).length ≤ (escape w).length + 2 := by
  rw [escape]
  split_ifs <;> simp

/-- The text of a word is at least as long as its quoted form. -/
theorem length_readWord {t w rest : List Char} (h : readWord t = some (w, rest)) :
    (escape w).length + rest.length ≤ t.length ∧ Ends rest := by
  induction t using readWord.induct generalizing w with
  | case1 =>
    cases h
    exact ⟨Nat.le_refl _, nofun⟩
  | case2 => cases h
  | case3 d t hq ih =>
    rw [readWord_quoted hq] at h
    obtain ⟨⟨w', rest'⟩, hrest, hw⟩ := Option.map_eq_some_iff.1 h
    simp only [Prod.mk.injEq] at hw
    obtain ⟨rfl, rfl⟩ := hw
    obtain ⟨hlen, hends⟩ := ih hrest
    have hcons := length_escape_cons_le d w'
    simp only [List.length_cons]
    exact ⟨by omega, hends⟩
  | case4 t hq ih =>
    rw [readWord_literal hq] at h
    obtain ⟨⟨w', rest'⟩, hrest, hw⟩ := Option.map_eq_some_iff.1 h
    simp only [Prod.mk.injEq] at hw
    obtain ⟨rfl, rfl⟩ := hw
    obtain ⟨hlen, hends⟩ := ih hrest
    rw [escape, if_pos rfl, if_neg (quotes_readWord hrest hq)]
    simp only [List.length_cons]
    exact ⟨by omega, hends⟩
  | case5 c t hc hend =>
    rw [readWord_end hend] at h
    cases h
    refine ⟨by simp [escape], fun d hd => ?_⟩
    cases hd
    exact hend
  | case6 => cases h
  | case7 t _ _ ih =>
    rw [readWord_dollar] at h
    obtain ⟨⟨w', rest'⟩, hrest, hw⟩ := Option.map_eq_some_iff.1 h
    simp only [Prod.mk.injEq] at hw
    obtain ⟨rfl, rfl⟩ := hw
    obtain ⟨hlen, hends⟩ := ih hrest
    have hcons := length_escape_cons_le '$' w'
    simp only [List.length_cons]
    exact ⟨by omega, hends⟩
  | case8 d t hd =>
    rw [readWord.eq_def] at h
    simp [endsWord, isBlank, hd] at h
  | case9 c t hc hend hd hs =>
    rw [readWord.eq_def] at h
    simp only [if_neg hc, if_neg hend, if_neg hd, if_pos hs] at h
    cases h
  | case10 c t hc _ hd hs ih =>
    rw [readWord_ordinary hc hd hs] at h
    obtain ⟨⟨w', rest'⟩, hrest, hw⟩ := Option.map_eq_some_iff.1 h
    simp only [Prod.mk.injEq] at hw
    obtain ⟨rfl, rfl⟩ := hw
    obtain ⟨hlen, hends⟩ := ih hrest
    rw [escape, if_neg hc, if_neg hd, if_neg hs]
    simp only [List.length_cons]
    exact ⟨by omega, hends⟩

theorem length_le_escape (w : List Char) : w.length ≤ (escape w).length := by
  induction w with
  | nil => exact Nat.le_refl _
  | cons c w ih =>
    rw [escape]
    split_ifs <;> simp only [List.length_cons] <;> omega

/-- A name that stands for itself -/
structure Ordinary (w : List Char) : Prop where
  chars : ∀ c ∈ w, c ≠ '$' ∧ special c = false
  last : w.getLast? ≠ some '\\'

theorem Ordinary.tail {c : Char} {w : List Char} (h : Ordinary (c :: w)) : Ordinary w := by
  refine ⟨fun d hd => h.chars d (List.mem_cons_of_mem _ hd), fun hlast => h.last ?_⟩
  cases w with
  | nil => cases hlast
  | cons d w => rw [List.getLast?_cons_cons, hlast]

theorem Ordinary.not_quotes {w : List Char} (h : Ordinary ('\\' :: w)) : ¬quotes w = true := by
  induction w with
  | nil => exact absurd rfl h.last
  | cons c w ih =>
    by_cases hc : c = '\\'
    · subst hc
      rw [quotes_cons_backslash]
      exact ih h.tail
    · rw [quotes_cons hc, (h.chars c (by simp)).2]
      decide

/-- The quoted form is as long as the name just for the names that stand for themselves. -/
theorem length_escape_eq_iff {w : List Char} : (escape w).length = w.length ↔ Ordinary w := by
  induction w with
  | nil => exact ⟨fun _ => ⟨nofun, nofun⟩, fun _ => rfl⟩
  | cons c w ih =>
    have hle := length_le_escape w
    constructor
    · intro h
      rw [escape] at h
      split_ifs at h with hc hq hd hs <;> simp only [List.length_cons] at h
      · omega
      · subst hc
        have hw := ih.1 (by omega)
        refine ⟨?_, ?_⟩
        · intro d hd
          rcases List.mem_cons.1 hd with rfl | hd
          · decide
          · exact hw.chars d hd
        · intro hlast
          cases w with
          | nil => exact hq rfl
          | cons d w =>
            rw [List.getLast?_cons_cons] at hlast
            exact hw.last hlast
      · omega
      · omega
      · have hw := ih.1 (by omega)
        refine ⟨?_, ?_⟩
        · intro d hd'
          rcases List.mem_cons.1 hd' with rfl | hd'
          · exact ⟨hd, by simpa using hs⟩
          · exact hw.chars d hd'
        · intro hlast
          cases w with
          | nil => exact hc (Option.some.inj hlast)
          | cons d w =>
            rw [List.getLast?_cons_cons] at hlast
            exact hw.last hlast
    · intro h
      have hw := ih.2 h.tail
      obtain ⟨hd, hs⟩ := h.chars c List.mem_cons_self
      rw [escape]
      split_ifs with hc hq
      · subst hc
        exact absurd hq h.not_quotes
      · simp [hw]
      · simp_all
      · simp [hw]

theorem Ordinary.escape_eq {w : List Char} (h : Ordinary w) : escape w = w := by
  induction w with
  | nil => rfl
  | cons c w ih =>
    obtain ⟨hd, hs⟩ := h.chars c List.mem_cons_self
    have hs' : ¬special c = true := by
      rw [hs]
      decide
    rw [escape, if_neg hd, if_neg hs', ih h.tail]
    split_ifs with hc hq
    · subst hc
      exact absurd hq h.not_quotes
    · rw [hc]
    · rfl

end Quoting

section Names

/-- The text that names take in their quoted forms, with a blank or the end behind each -/
def weight (names : List (List Char)) : ℕ := (names.map fun n => (escape n).length + 1).sum

theorem readWord_ne_nil {c : Char} {t w rest : List Char} (hc : ¬endsWord c = true)
    (h : readWord (c :: t) = some (w, rest)) : w ≠ [] := by
  rintro rfl
  rw [readWord.eq_def] at h
  simp only [if_neg hc] at h
  split_ifs at h
  · split at h
    · cases h
    · obtain ⟨r, -, hr⟩ := Option.map_eq_some_iff.1 h
      cases hr
  · obtain ⟨r, -, hr⟩ := Option.map_eq_some_iff.1 h
    cases hr
  · split at h
    · cases h
    · split_ifs at h
      obtain ⟨r, -, hr⟩ := Option.map_eq_some_iff.1 h
      cases hr
  · obtain ⟨r, -, hr⟩ := Option.map_eq_some_iff.1 h
    cases hr

/-- Nothing is read at the end and from a comment. -/
theorem readNames_stop {fuel : ℕ} {line : List Char} {names : List (List Char)}
    (h : readNames fuel line = some names) (hline : ∀ c ∈ line.head?, c = '#') : names = [] := by
  cases fuel with
  | zero => cases h
  | succ fuel =>
    cases line with
    | nil =>
      cases h
      rfl
    | cons c t =>
      rw [hline c rfl] at h
      cases h
      rfl

/-- The names that are read fit in the line in their quoted forms. -/
theorem weight_le {fuel : ℕ} {line : List Char} {names : List (List Char)}
    (h : readNames fuel line = some names) :
    weight names ≤ (line.dropWhile isBlank).length + 1 ∧ ∀ n ∈ names, n ≠ [] := by
  induction fuel generalizing line names with
  | zero => cases h
  | succ fuel ih =>
    rw [readNames] at h
    have hblank : ∀ c ∈ (line.dropWhile isBlank).head?, ¬isBlank c = true := by
      intro c hc
      have := List.head?_dropWhile_not isBlank line
      rw [hc] at this
      simpa using this
    split at h
    · cases h
      exact ⟨Nat.zero_le _, nofun⟩
    · rename_i c rest hline
      rw [hline] at hblank ⊢
      split_ifs at h with hcomment
      · cases h
        exact ⟨Nat.zero_le _, nofun⟩
      · obtain ⟨⟨w, rest'⟩, hword, hrest⟩ := Option.bind_eq_some_iff.1 h
        obtain ⟨names', hnames, rfl⟩ := Option.map_eq_some_iff.1 hrest
        obtain ⟨hlen, hends⟩ := length_readWord hword
        obtain ⟨hweight, hne⟩ := ih hnames
        have hc : ¬endsWord c = true := by
          have := hblank c rfl
          simp_all [endsWord]
        refine ⟨?_, ?_⟩
        · have hstep : weight names' ≤ rest'.length := by
            cases rest' with
            | nil =>
              rw [readNames_stop hnames nofun]
              exact Nat.zero_le _
            | cons e l =>
              by_cases he : isBlank e = true
              · rw [List.dropWhile_cons_of_pos he] at hweight
                have hle := (List.dropWhile_suffix isBlank (l := l)).length_le
                simp only [List.length_cons]
                omega
              · have hhash : e = '#' := by
                  have := hends e rfl
                  simp_all [endsWord]
                rw [readNames_stop hnames fun d hd => (Option.some.inj hd).symm.trans hhash]
                exact Nat.zero_le _
          simp only [weight, List.map_cons, List.sum_cons] at hstep ⊢
          omega
        · intro n hn
          rcases List.mem_cons.1 hn with rfl | hn
          · exact readWord_ne_nil hc hword
          · exact hne n hn

theorem length_intercalate (names : List (List Char)) :
    ([' '].intercalate names).length ≤ (names.map fun n => n.length + 1).sum - 1 := by
  induction names with
  | nil => exact Nat.le_refl _
  | cons n names ih =>
    cases names with
    | nil => simp [List.intercalate]
    | cons m names =>
      rw [List.intercalate_cons_cons]
      simp only [List.length_append, List.map_cons, List.sum_cons, List.length_singleton] at ih ⊢
      omega

theorem mem_intercalate {names : List (List Char)} {n : List Char} (hn : n ∈ names) {c : Char}
    (hc : c ∈ n) : c ∈ [' '].intercalate names := by
  induction names with
  | nil => cases hn
  | cons m names ih =>
    cases names with
    | nil =>
      rw [List.intercalate_singleton, ← List.mem_singleton.1 hn]
      exact hc
    | cons k names =>
      rw [List.intercalate_cons_cons]
      rcases List.mem_cons.1 hn with rfl | hn
      · exact List.mem_append_left _ (List.mem_append_left _ hc)
      · exact List.mem_append_right _ (ih hn)

theorem mem_of_mem_intercalate {names : List (List Char)} {c : Char}
    (h : c ∈ [' '].intercalate names) : c = ' ' ∨ ∃ n ∈ names, c ∈ n := by
  induction names with
  | nil => cases h
  | cons n names ih =>
    cases names with
    | nil =>
      rw [List.intercalate_singleton] at h
      exact .inr ⟨n, List.mem_cons_self, h⟩
    | cons m names =>
      rw [List.intercalate_cons_cons, List.mem_append, List.mem_append, List.mem_singleton] at h
      rcases h with (h | h) | h
      · exact .inr ⟨n, List.mem_cons_self, h⟩
      · exact .inl h
      · exact (ih h).imp id fun ⟨k, hk, hc⟩ => ⟨k, List.mem_cons_of_mem _ hk, hc⟩

theorem length_names_le {names : List (List Char)} (hne : ∀ n ∈ names, n ≠ []) :
    names.length ≤ ([' '].intercalate names).length := by
  induction names with
  | nil => exact Nat.le_refl _
  | cons n names ih =>
    have hn := List.length_pos_iff.2 (hne n List.mem_cons_self)
    have hrest := ih fun m hm => hne m (List.mem_cons_of_mem _ hm)
    cases names with
    | nil =>
      rw [List.intercalate_singleton]
      exact hn
    | cons m names =>
      rw [List.intercalate_cons_cons]
      simp only [List.length_append, List.length_cons] at hrest ⊢
      omega

theorem length_le_weight (names : List (List Char)) :
    (names.map fun n => n.length + 1).sum ≤ weight names :=
  List.sum_le_sum fun n _ => Nat.succ_le_succ (length_le_escape n)

/-- With no text to spare no name has a quoted form that is longer. -/
theorem ordinary_of_weight {names : List (List Char)}
    (h : weight names ≤ (names.map fun n => n.length + 1).sum) : ∀ n ∈ names, Ordinary n := by
  induction names with
  | nil => nofun
  | cons n names ih =>
    have htail := length_le_weight names
    have hhead := length_le_escape n
    simp only [weight, List.map_cons, List.sum_cons] at h htail
    intro m hm
    rcases List.mem_cons.1 hm with rfl | hm
    · exact length_escape_eq_iff.1 (by omega)
    · refine ih ?_ m hm
      unfold weight
      omega

/-- A name that can stand in a list as it is -/
structure PlainName (w : List Char) : Prop extends Ordinary w where
  ne_nil : w ≠ []
  newline : '\n' ∉ w

/-- Names that are written as they are, with blanks between them, are read back with nothing left
out only if each of them is plain, and then nothing else is read. -/
theorem plain_of_prerequisites {names others read : List (List Char)} {tail : List Char}
    (h : prerequisites ([' '].intercalate names ++ '\n' :: tail) = some read)
    (hperm : read.Perm (names ++ others)) : others = [] ∧ ∀ n ∈ names, PlainName n := by
  have hline : ([' '].intercalate names ++ '\n' :: tail).takeWhile (· ≠ '\n') =
      ([' '].intercalate names).takeWhile (· ≠ '\n') := by
    rw [List.takeWhile_append]
    split_ifs with hall
    · rw [List.takeWhile_cons_of_neg (by simp), List.append_nil]
      exact (List.takeWhile_prefix _).eq_of_length hall |>.symm
    · rfl
  simp only [prerequisites, hline] at h
  obtain ⟨hfits, hne⟩ := weight_le h
  have hsum : weight read = weight names + weight others := by
    unfold weight
    rw [(hperm.map _).sum_eq, List.map_append, List.sum_append]
  have hjoin := length_intercalate names
  have htake := (List.takeWhile_prefix (p := (· ≠ '\n')) (l := [' '].intercalate names)).length_le
  have hdrop := (List.dropWhile_suffix isBlank
    (l := ([' '].intercalate names).takeWhile (· ≠ '\n'))).length_le
  have hle := length_le_weight names
  have hothers : others = [] := by
    cases others with
    | nil => rfl
    | cons o others =>
      have ho : o ≠ [] := hne o (hperm.mem_iff.2 (by simp))
      have hpos := List.length_pos_iff.2 ho
      have hesc := length_le_escape o
      simp only [weight, List.map_cons, List.sum_cons] at hsum hfits hle
      omega
  refine ⟨hothers, fun n hn => ?_⟩
  have hweight : weight others = 0 := by rw [hothers]; rfl
  have hordinary : ∀ n ∈ names, Ordinary n := ordinary_of_weight (by
    cases names with
    | nil => exact Nat.le_refl _
    | cons m names =>
      simp only [List.map_cons, List.sum_cons] at hjoin ⊢
      omega)
  have hall : (([' '].intercalate names).takeWhile (· ≠ '\n')).length =
      ([' '].intercalate names).length := by
    have hpos : 0 < (names.map fun n => n.length + 1).sum := by
      obtain ⟨l, r, rfl⟩ := List.append_of_mem hn
      simp only [List.map_append, List.map_cons, List.sum_append, List.sum_cons]
      omega
    omega
  refine { hordinary n hn with ne_nil := hne n (hperm.mem_iff.2 (List.mem_append_left _ hn)), newline := ?_ }
  intro hnl
  have hself := (List.takeWhile_prefix (p := (· ≠ '\n'))).eq_of_length hall
  have hmem := mem_intercalate hn hnl
  rw [← hself] at hmem
  simpa using List.all_eq_true.1 List.all_takeWhile _ hmem

theorem readNames_blank (fuel : ℕ) (line : List Char) :
    readNames fuel (' ' :: line) = readNames fuel line := by
  cases fuel with
  | zero => rfl
  | succ fuel =>
    rw [readNames, readNames, List.dropWhile_cons_of_pos (by decide)]

theorem escape_cons {n : List Char} (hne : n ≠ []) : ∃ c t, escape n = c :: t ∧ ¬endsWord c = true := by
  cases n with
  | nil => exact absurd rfl hne
  | cons c t =>
    rw [escape]
    split_ifs with hc hq hd hs
    · exact ⟨_, _, rfl, by decide⟩
    · exact ⟨_, _, rfl, by decide⟩
    · exact ⟨_, _, rfl, by decide⟩
    · exact ⟨_, _, rfl, by decide⟩
    · exact ⟨c, _, rfl, fun h => hs (special_of_endsWord h)⟩

theorem readNames_word {n r : List Char} (hne : n ≠ []) (hr : Ends r) (fuel : ℕ) :
    readNames (fuel + 1) (escape n ++ r) = (readNames fuel r).map (n :: ·) := by
  obtain ⟨c, t, hct, hc⟩ := escape_cons hne
  have hword := readWord_escape n hr
  simp only [endsWord, Bool.or_eq_true, not_or, beq_iff_eq] at hc
  rw [hct] at hword ⊢
  rw [readNames, List.cons_append, List.dropWhile_cons_of_neg hc.1]
  simp only [if_neg hc.2]
  rw [← List.cons_append, hword]
  rfl

/-- Quoted names are read back. -/
theorem readNames_escape {names : List (List Char)} (hne : ∀ n ∈ names, n ≠ []) {fuel : ℕ}
    (hfuel : names.length < fuel) :
    readNames fuel ([' '].intercalate (names.map escape)) = some names := by
  induction names generalizing fuel with
  | nil =>
    obtain ⟨fuel, rfl⟩ := Nat.exists_eq_succ_of_ne_zero (Nat.ne_of_gt hfuel)
    rfl
  | cons n names ih =>
    obtain ⟨fuel, rfl⟩ := Nat.exists_eq_succ_of_ne_zero (Nat.ne_of_gt (Nat.zero_lt_of_lt hfuel))
    have hn : n ≠ [] := hne n List.mem_cons_self
    have hrest := ih (fun m hm => hne m (List.mem_cons_of_mem _ hm)) (Nat.lt_of_succ_lt_succ hfuel)
    cases names with
    | nil =>
      have hword := readNames_word hn (r := []) nofun fuel
      rw [List.append_nil] at hword
      rw [List.map_cons, List.map_nil, List.intercalate_singleton, hword]
      exact congrArg (Option.map (n :: ·)) hrest
    | cons m names =>
      rw [List.map_cons, List.map_cons, List.intercalate_cons_cons, List.append_assoc, readNames_word hn]
      · rw [List.singleton_append, readNames_blank, ← List.map_cons, hrest]
        rfl
      · intro c hc
        cases hc
        rfl

/-- Plain names are read back as they are. -/
theorem prerequisites_of_plain {names : List (List Char)} (h : ∀ n ∈ names, PlainName n)
    (tail : List Char) :
    prerequisites ([' '].intercalate names ++ '\n' :: tail) = some names := by
  have hself : names.map escape = names := by
    conv_rhs => rw [← List.map_id names]
    exact List.map_congr_left fun n hn => (h n hn).toOrdinary.escape_eq
  have hnewline : ∀ c ∈ [' '].intercalate names, c ≠ '\n' := by
    intro c hc
    rcases mem_of_mem_intercalate hc with rfl | ⟨n, hn, hcn⟩
    · decide
    · rintro rfl
      exact (h n hn).newline hcn
  have hline : ([' '].intercalate names ++ '\n' :: tail).takeWhile (· ≠ '\n') =
      [' '].intercalate names := by
    rw [List.takeWhile_append_of_pos (by simpa using hnewline), List.takeWhile_cons_of_neg (by simp),
      List.append_nil]
  have hround := readNames_escape (fun n hn => (h n hn).ne_nil)
    (Nat.lt_succ_of_le (length_names_le fun n hn => (h n hn).ne_nil))
  rw [hself] at hround
  simp only [prerequisites, hline]
  exact hround

end Names

end OpticC.MakeRules
