import OpticC.Driver.Invocation
import OpticC.Lib.LastWord

/-! A command line is a list of settings, each spelled in one of its ways. The invocation is what the
settings make of the default one, and every command line without an option that lacks its value can
be read so. -/

namespace OpticC.Driver

open Words LastWord

/-- What an option says. -/
inductive Setting
  | printVersion
  | printVersionOnly
  | printTarget
  | printFileName (name : Text)
  | outputType (type : OutputType)
  | output (path : Text)
  | includePath (path : Text)
  | forceInclude (path : Text)
  | define (name value : Text)
  | undefine (name : Text)
  | linkLib (name : Text)
  | optimization (level : ℕ)
  | returnThunk (mode : Text)
  | depfile (path : Text)
  | depTarget (target : Text)
  | depend
  | depPhony
  | freestanding
  | nostdinc
  | sourceFile (path : Text)
  | passed
  deriving DecidableEq

section Grammar

/-- The settings of one word. -/
def flags : List (String × Setting) :=
  [("--version", .printVersion), ("-dumpversion", .printVersionOnly), ("-dumpmachine", .printTarget),
    ("-c", .outputType .Object), ("-shared", .outputType .SharedLib), ("-MD", .depend),
    ("-MMD", .depend), ("-MP", .depPhony), ("-ffreestanding", .freestanding),
    ("-nostdinc", .nostdinc), ("-O0", .optimization 0), ("-O1", .optimization 1),
    ("-O2", .optimization 2), ("-O3", .optimization 3), ("-Os", .optimization 2),
    ("-Oz", .optimization 2)]

/-- The options with a value in the next word; that of `-x` means nothing. -/
def valued : List (String × (Text → Setting)) :=
  [("-o", .output), ("-I", .includePath), ("-isystem", .includePath), ("-iquote", .includePath),
    ("-U", .undefine), ("-l", .linkLib), ("-MF", .depfile), ("-MT", .depTarget),
    ("-include", .forceInclude), ("-x", fun _ => .passed)]

/-- The options with a value in the same word that must not be empty. -/
def joined : List (String × (Text → Setting)) :=
  [("-I", .includePath), ("-isystem", .includePath), ("-iquote", .includePath), ("-U", .undefine),
    ("-l", .linkLib)]

/-- The options with any value in the same word. -/
def assigned : List (String × (Text → Setting)) :=
  [("-print-file-name=", .printFileName), ("-Wp,-MD,", .depfile), ("-Wp,-MMD,", .depfile),
    ("-mfunction-return=", .returnThunk)]

/-- The text of a definition. -/
inductive Defines : Text → Text → Text → Prop
  | value {name value : Text} : '=' ∉ name → Defines (name ++ '=' :: value) name value
  | plain {name : Text} : '=' ∉ name → Defines name name ['1']

/-- An option that is passed over: no other one is written like it. -/
structure Passed (w : Text) : Prop where
  dash : w.head? = some '-'
  not_flag : ∀ e ∈ flags, w ≠ e.1.toList
  not_valued : ∀ e ∈ valued, w ≠ e.1.toList
  not_joined : ∀ e ∈ joined, ¬e.1.toList <+: w
  not_assigned : ∀ e ∈ assigned, ¬e.1.toList <+: w
  not_define : ¬"-D".toList <+: w

inductive Spelled : Setting → List Text → Prop
  | flag {e : String × Setting} : e ∈ flags → Spelled e.2 [e.1.toList]
  | apart {e : String × (Text → Setting)} {value : Text} : e ∈ valued →
    Spelled (e.2 value) [e.1.toList, value]
  | joined {e : String × (Text → Setting)} {value : Text} : e ∈ joined → value ≠ [] →
    Spelled (e.2 value) [e.1.toList ++ value]
  | assigned {e : String × (Text → Setting)} {value : Text} : e ∈ assigned →
    Spelled (e.2 value) [e.1.toList ++ value]
  | defineApart {text name value : Text} : Defines text name value →
    Spelled (.define name value) ["-D".toList, text]
  | defineJoined {text name value : Text} : Defines text name value → text ≠ [] →
    Spelled (.define name value) ["-D".toList ++ text]
  | passed {w : Text} : Passed w → Spelled .passed [w]
  | sourceFile {path : Text} : path.head? ≠ some '-' → Spelled (.sourceFile path) [path]

/-- The words of a list of settings. -/
inductive Line : List Setting → List Text → Prop
  | nil : Line [] []
  | cons {setting : Setting} {ws : List Text} {settings : List Setting} {rest : List Text} :
    Spelled setting ws → Line settings rest → Line (setting :: settings) (ws ++ rest)

/-- A `-x` at the end passes over nothing. -/
def Reads (settings : List Setting) (words : List Text) : Prop :=
  ∃ ws, Line settings ws ∧ (words = ws ∨ words = ws ++ ["-x".toList])

/-- A word that needs the next one. -/
def TakesValue (w : Text) : Prop := w = "-D".toList ∨ ∃ e ∈ valued, w = e.1.toList

/-- The words of a command line: a word `@path` stands for the words of a file. -/
inductive Expands (readFile : Text → Except Text Text) : List Text → List Text → Prop
  | nil : Expands readFile [] []
  | word {arg : Text} {args words : List Text} : arg.head? ≠ some '@' →
    Expands readFile args words → Expands readFile (arg :: args) (arg :: words)
  | file {path content : Text} {args ws words : List Text} : readFile path = .ok content →
    Spaced Preprocessor.isWhiteSpace content ws → Expands readFile args words →
    Expands readFile (('@' :: path) :: args) (ws ++ words)

end Grammar

section Meaning

def Setting.apply (s : State) : Setting → State
  | .printVersion => s.modify fun v => { v with printVersion := true }
  | .printVersionOnly => s.modify fun v => { v with printVersionOnly := true }
  | .printTarget => s.modify fun v => { v with printTarget := some "x86_64-linux-gnu".toList }
  | .printFileName name => s.modify fun v => { v with printFileName := some name }
  | .outputType type => s.modify fun v => { v with outputType := type }
  | .output path => s.modify fun v => { v with output := path }
  | .includePath path => addInclude path s
  | .forceInclude path => s.modify fun v => { v with forceIncludes := v.forceIncludes ++ [path] }
  | .define name value =>
    s.modify fun v => { v with defines := Function.update v.defines name (some value) }
  | .undefine name => Driver.undefine name s
  | .linkLib name => addLib name s
  | .optimization level => s.modify fun v => { v with optimization := level }
  | .returnThunk mode =>
    s.modify fun v => { v with returnThunkExtern := mode = "thunk-extern".toList }
  | .depfile path => setDepfile path s
  | .depTarget target => s.modify fun v => { v with depTarget := some target }
  | .depend => { s with depRequested := true }
  | .depPhony => ⟨{ s.invocation with depPhony := true }, true⟩
  | .freestanding => s.modify fun v => { v with freestanding := true }
  | .nostdinc => s.modify fun v => { v with nostdinc := true }
  | .sourceFile path => s.modify fun v => { v with sourceFiles := v.sourceFiles ++ [path] }
  | .passed => s

def applyAll (settings : List Setting) : State :=
  settings.foldl Setting.apply ⟨.default, false⟩

end Meaning

section Reading

theorem State.modify_eq (f : DirectDriverInvocation → DirectDriverInvocation) (s : State) :
    s.modify f = ⟨f s.invocation, s.depRequested⟩ := rfl

theorem parseDefineArg_of_defines {text name value : Text} (h : Defines text name value)
    (defines : Text → Option Text) :
    parseDefineArg text defines = Function.update defines name (some value) := by
  cases h with
  | value h =>
    have hne : ∀ c ∈ name, (decide (c ≠ '=')) = true := fun c hc => by
      simpa using fun hc' : c = '=' => h (hc' ▸ hc)
    rw [parseDefineArg, if_pos (by simp), List.takeWhile_append_of_pos hne,
      List.dropWhile_append_of_pos hne]
    simp
  | plain h => rw [parseDefineArg, if_neg h]

/-- Every text defines something. -/
theorem exists_defines (text : Text) : ∃ name value, Defines text name value := by
  by_cases h : '=' ∈ text
  · obtain ⟨name, value, rfl, hname⟩ := List.eq_append_cons_of_mem h
    exact ⟨name, value, .value hname⟩
  · exact ⟨text, _, .plain h⟩

theorem parseArgs_flag {e : String × Setting} (he : e ∈ flags) (s : State) (rest : List Text) :
    parseArgs s (e.1.toList :: rest) = parseArgs (e.2.apply s) rest := by
  simp only [flags, List.mem_cons, List.not_mem_nil, or_false] at he
  rcases he with rfl | rfl | rfl | rfl | rfl | rfl | rfl | rfl | rfl | rfl | rfl | rfl | rfl | rfl |
    rfl | rfl <;> rfl

theorem parseArgs_valued {e : String × (Text → Setting)} (he : e ∈ valued) (s : State)
    (value : Text) (rest : List Text) :
    parseArgs s (e.1.toList :: value :: rest) = parseArgs ((e.2 value).apply s) rest := by
  simp only [valued, List.mem_cons, List.not_mem_nil, or_false] at he
  rcases he with rfl | rfl | rfl | rfl | rfl | rfl | rfl | rfl | rfl | rfl <;> rfl

/-- An argument that is not matched as a whole. -/
theorem parseArgs_joinedAction {arg : Text} (h : exactAction arg = none) (s : State)
    (rest : List Text) : parseArgs s (arg :: rest) = parseArgs (joinedAction arg s) rest := by
  rw [parseArgs.eq_def]
  simp only [h]

theorem parseArgs_joined {e : String × (Text → Setting)} (he : e ∈ joined) {value : Text}
    (hvalue : value ≠ []) (s : State) (rest : List Text) :
    parseArgs s ((e.1.toList ++ value) :: rest) = parseArgs ((e.2 value).apply s) rest := by
  obtain ⟨c, value, rfl⟩ := List.exists_cons_of_ne_nil hvalue
  simp only [joined, List.mem_cons, List.not_mem_nil, or_false] at he
  rcases he with rfl | rfl | rfl | rfl | rfl
  all_goals
    rw [parseArgs_joinedAction (by simp [exactAction])]
    simp [joinedAction, stripPrefix, stripNonempty, List.isPrefixOf?, Option.filter, Setting.apply]

theorem parseArgs_assigned {e : String × (Text → Setting)} (he : e ∈ assigned) (value : Text)
    (s : State) (rest : List Text) :
    parseArgs s ((e.1.toList ++ value) :: rest) = parseArgs ((e.2 value).apply s) rest := by
  simp only [assigned, List.mem_cons, List.not_mem_nil, or_false] at he
  rcases he with rfl | rfl | rfl | rfl
  all_goals
    rw [parseArgs_joinedAction (by simp [exactAction])]
    simp [joinedAction, stripPrefix, stripNonempty, List.isPrefixOf?, Option.filter, Setting.apply]

theorem parseArgs_defineJoined {text name value : Text} (h : Defines text name value)
    (hne : text ≠ []) (s : State) (rest : List Text) :
    parseArgs s (("-D".toList ++ text) :: rest) =
      parseArgs ((Setting.define name value).apply s) rest := by
  have hdefine : define text s = (Setting.define name value).apply s := by
    rw [define, Setting.apply, State.modify_eq, State.modify_eq, parseDefineArg_of_defines h]
  obtain ⟨c, text, rfl⟩ := List.exists_cons_of_ne_nil hne
  rw [parseArgs_joinedAction (by simp [exactAction]), ← hdefine]
  simp [joinedAction, stripPrefix, stripNonempty, List.isPrefixOf?, Option.filter]

theorem isPrefixOf?_eq_some_iff {start w value : Text} :
    start.isPrefixOf? w = some value ↔ w = start ++ value := by
  induction start generalizing w with
  | nil => simp [List.isPrefixOf?]
  | cons c start ih =>
    cases w with
    | nil => simp [List.isPrefixOf?]
    | cons d w =>
      rw [List.isPrefixOf?, List.cons_append, List.cons.injEq]
      by_cases h : c = d
      · rw [if_pos (by simpa using h), ih]
        simp [h]
      · rw [if_neg (by simpa using h)]
        simp [Ne.symm h]

theorem stripPrefix_eq_some_iff {start : String} {w value : Text} :
    stripPrefix start w = some value ↔ w = start.toList ++ value := isPrefixOf?_eq_some_iff

theorem stripPrefix_eq_none {start : String} {w : Text} (h : ¬start.toList <+: w) :
    stripPrefix start w = none := by
  rw [Option.eq_none_iff_forall_ne_some]
  intro value hvalue
  exact h ⟨value, (stripPrefix_eq_some_iff.1 hvalue).symm⟩

theorem stripNonempty_eq_none {start : String} {w : Text} (h : ¬start.toList <+: w) :
    stripNonempty start w = none := by
  rw [stripNonempty, stripPrefix_eq_none h]
  rfl

/-- A word that is no flag and takes no value. -/
theorem exactAction_eq_none {w : Text} (hflag : ∀ e ∈ flags, w ≠ e.1.toList)
    (hvalued : ∀ e ∈ valued, w ≠ e.1.toList) (hdefine : w ≠ "-D".toList) :
    exactAction w = none := by
  simp only [flags, valued, List.forall_mem_cons] at hflag hvalued
  simp only [exactAction]
  simp only [hflag, hvalued, hdefine, if_false, or_false]

/-- A level that is no flag leaves the optimization as it is. -/
theorem optimizationLevel_of_not_flag {level : Text}
    (h : ∀ e ∈ flags, "-O".toList ++ level ≠ e.1.toList) (current : ℕ) :
    optimizationLevel level current = current := by
  simp only [flags, List.forall_mem_cons] at h
  simp at h
  simp [optimizationLevel, h]

theorem joinedAction_passed {w : Text} (h : Passed w) : joinedAction w = id := by
  have hjoined := h.not_joined
  have hassigned := h.not_assigned
  simp only [joined, assigned, List.forall_mem_cons] at hjoined hassigned
  simp only [joinedAction, stripPrefix_eq_none hassigned.1, stripPrefix_eq_none hassigned.2.1,
    stripPrefix_eq_none hassigned.2.2.1, stripPrefix_eq_none hassigned.2.2.2.1,
    stripNonempty_eq_none hjoined.1, stripNonempty_eq_none hjoined.2.1,
    stripNonempty_eq_none hjoined.2.2.1, stripNonempty_eq_none hjoined.2.2.2.1,
    stripNonempty_eq_none hjoined.2.2.2.2.1, stripNonempty_eq_none h.not_define, Option.or_none,
    h.dash, if_true]
  cases hlevel : stripPrefix "-O" w with
  | none => rfl
  | some level =>
    have hflag := h.not_flag
    rw [stripPrefix_eq_some_iff.1 hlevel] at hflag
    funext s
    simp only [optimizationLevel_of_not_flag hflag]
    rfl

theorem parseArgs_passed {w : Text} (h : Passed w) (s : State) (rest : List Text) :
    parseArgs s (w :: rest) = parseArgs s rest := by
  have hdefine : w ≠ "-D".toList := fun hw => h.not_define (hw ▸ List.prefix_refl _)
  rw [parseArgs_joinedAction (exactAction_eq_none h.not_flag h.not_valued hdefine),
    joinedAction_passed h]
  rfl

theorem parseArgs_sourceFile {path : Text} (h : path.head? ≠ some '-') (s : State)
    (rest : List Text) :
    parseArgs s (path :: rest) = parseArgs ((Setting.sourceFile path).apply s) rest := by
  cases path with
  | nil => rfl
  | cons c path =>
    have hc : c ≠ '-' := fun hc => h (hc ▸ rfl)
    rw [parseArgs_joinedAction (by simp [exactAction, hc])]
    simp [joinedAction, stripPrefix, stripNonempty, List.isPrefixOf?, Setting.apply, hc, Ne.symm hc]

/-- One setting. -/
theorem parseArgs_spelled {setting : Setting} {ws : List Text} (h : Spelled setting ws) (s : State)
    (rest : List Text) : parseArgs s (ws ++ rest) = parseArgs (setting.apply s) rest := by
  cases h with
  | flag he => exact parseArgs_flag he s rest
  | apart he => exact parseArgs_valued he s _ rest
  | joined he hvalue => exact parseArgs_joined he hvalue s rest
  | assigned he => exact parseArgs_assigned he _ s rest
  | defineApart h =>
    rename_i text name value
    have hdefine : define text s = (Setting.define name value).apply s := by
      rw [define, Setting.apply, State.modify_eq, State.modify_eq, parseDefineArg_of_defines h]
    rw [← hdefine]
    rfl
  | defineJoined h hne => exact parseArgs_defineJoined h hne s rest
  | passed h => exact parseArgs_passed h s rest
  | sourceFile h => exact parseArgs_sourceFile h s rest

/-- A list of settings. -/
theorem parseArgs_line {settings : List Setting} {ws : List Text} (h : Line settings ws) (s : State)
    (rest : List Text) :
    parseArgs s (ws ++ rest) = parseArgs (settings.foldl Setting.apply s) rest := by
  induction h generalizing s with
  | nil => rfl
  | cons hsetting _ ih =>
    rw [List.append_assoc, parseArgs_spelled hsetting, ih]
    rfl

theorem exists_spelled_pair {w : Text} (h : TakesValue w) (value : Text) :
    ∃ setting, Spelled setting [w, value] := by
  rcases h with rfl | ⟨e, he, rfl⟩
  · obtain ⟨name, value', h⟩ := exists_defines value
    exact ⟨_, .defineApart h⟩
  · exact ⟨_, .apart he⟩

theorem valued_of_joined {e : String × (Text → Setting)} (he : e ∈ joined) : e ∈ valued := by
  simp only [joined, List.mem_cons, List.not_mem_nil, or_false] at he
  rcases he with rfl | rfl | rfl | rfl | rfl <;> simp [valued]

/-- Any other word is a setting of its own. -/
theorem exists_spelled {w : Text} (h : ¬TakesValue w) : ∃ setting, Spelled setting [w] := by
  have hvalued : ∀ e ∈ valued, w ≠ e.1.toList := fun e he hw => h (.inr ⟨e, he, hw⟩)
  by_cases hflag : ∃ e ∈ flags, w = e.1.toList
  · obtain ⟨e, he, rfl⟩ := hflag
    exact ⟨_, .flag he⟩
  by_cases hjoined : ∃ e ∈ joined, e.1.toList <+: w
  · obtain ⟨e, he, value, rfl⟩ := hjoined
    refine ⟨_, .joined he ?_⟩
    rintro rfl
    exact hvalued e (valued_of_joined he) (List.append_nil _)
  by_cases hassigned : ∃ e ∈ assigned, e.1.toList <+: w
  · obtain ⟨e, he, value, rfl⟩ := hassigned
    exact ⟨_, .assigned he⟩
  by_cases hdefine : "-D".toList <+: w
  · obtain ⟨text, rfl⟩ := hdefine
    obtain ⟨name, value, htext⟩ := exists_defines text
    refine ⟨_, .defineJoined htext ?_⟩
    rintro rfl
    exact h (.inl (List.append_nil _))
  by_cases hdash : w.head? = some '-'
  · exact ⟨_, .passed ⟨hdash, fun e he hw => hflag ⟨e, he, hw⟩, hvalued,
      fun e he hw => hjoined ⟨e, he, hw⟩, fun e he hw => hassigned ⟨e, he, hw⟩, hdefine⟩⟩
  · exact ⟨_, .sourceFile hdash⟩

/-- Every list of words is read as settings, up to a word at its end that needs a value. -/
theorem exists_line (words : List Text) : ∃ settings ws, Line settings ws ∧
    (words = ws ∨ ∃ w, TakesValue w ∧ words = ws ++ [w]) := by
  induction h : words.length using Nat.strong_induction_on generalizing words with
  | _ n ih =>
    -- what follows a setting is read first
    have hcons : ∀ {setting : Setting} {ws rest : List Text}, Spelled setting ws → ws ≠ [] →
        words = ws ++ rest → ∃ settings ws', Line settings ws' ∧
          (words = ws' ∨ ∃ w, TakesValue w ∧ words = ws' ++ [w]) := by
      rintro setting ws rest hspelled hne rfl
      have hlt : rest.length < n := by
        rw [← h, List.length_append]
        exact Nat.lt_add_of_pos_left (List.length_pos_iff.2 hne)
      obtain ⟨settings, ws', hline, hws | ⟨w, hw, hws⟩⟩ := ih rest.length hlt rest rfl
      · exact ⟨_, _, .cons hspelled hline, .inl (by rw [hws])⟩
      · exact ⟨_, _, .cons hspelled hline, .inr ⟨w, hw, by rw [hws, List.append_assoc]⟩⟩
    cases words with
    | nil => exact ⟨[], [], .nil, .inl rfl⟩
    | cons w rest =>
      by_cases hw : TakesValue w
      · cases rest with
        | nil => exact ⟨[], [], .nil, .inr ⟨w, hw, rfl⟩⟩
        | cons value rest =>
          obtain ⟨setting, hspelled⟩ := exists_spelled_pair hw value
          exact hcons hspelled (List.cons_ne_nil _ _) rfl
      · obtain ⟨setting, hspelled⟩ := exists_spelled hw
        exact hcons hspelled (List.cons_ne_nil _ _) rfl

/-- The word at the end that needs a value. -/
theorem parseArgs_lacking {w : Text} (h : TakesValue w) (s : State) :
    parseArgs s [w] = if w = "-x".toList then .ok s else .error (missingValue w) := by
  rcases h with rfl | ⟨e, he, rfl⟩
  · rfl
  · simp only [valued, List.mem_cons, List.not_mem_nil, or_false] at he
    rcases he with rfl | rfl | rfl | rfl | rfl | rfl | rfl | rfl | rfl | rfl <;> rfl

theorem parseArgs_reads {settings : List Setting} {words : List Text} (h : Reads settings words)
    (s : State) : parseArgs s words = .ok (settings.foldl Setting.apply s) := by
  obtain ⟨ws, hline, rfl | rfl⟩ := h
  · have h := parseArgs_line hline s []
    rwa [List.append_nil] at h
  · rw [parseArgs_line hline]
    rfl

/-- The words that are read, and the others. -/
theorem reads_or_lacking (words : List Text) : (∃ settings, Reads settings words) ∨
    ∃ settings ws w, Line settings ws ∧ TakesValue w ∧ w ≠ "-x".toList ∧ words = ws ++ [w] := by
  obtain ⟨settings, ws, hline, rfl | ⟨w, hw, rfl⟩⟩ := exists_line words
  · exact .inl ⟨settings, _, hline, .inl rfl⟩
  · by_cases hx : w = "-x".toList
    · exact .inl ⟨settings, ws, hline, .inr (by rw [hx])⟩
    · exact .inr ⟨settings, ws, w, hline, hw, hx, rfl⟩

end Reading

section Expansion

variable {readFile : Text → Except Text Text}

theorem stripPrefix_at_eq_none {arg : Text} (h : arg.head? ≠ some '@') :
    stripPrefix "@" arg = none := by
  rw [Option.eq_none_iff_forall_ne_some]
  rintro path hpath
  rw [stripPrefix_eq_some_iff.1 hpath] at h
  exact h rfl

theorem stripPrefix_at (path : Text) : stripPrefix "@" ('@' :: path) = some path := rfl

theorem expandResponseFiles_of_expands {args words : List Text} (h : Expands readFile args words) :
    expandResponseFiles readFile args = .ok words := by
  induction h with
  | nil => rfl
  | word hhead _ ih =>
    rw [expandResponseFiles, expandResponseFile, stripPrefix_at_eq_none hhead, ih]
    rfl
  | file hread hspaced _ ih =>
    rw [expandResponseFiles, expandResponseFile, stripPrefix_at]
    simp only [hread, ih, words_of_spaced hspaced]
    rfl

/-- The message about a response file that cannot be read. -/
def unreadable (path e : Text) : Text :=
  "Failed to read response file ".toList ++ path ++ ": ".toList ++ e

/-- The arguments are expanded, up to the first response file that cannot be read. -/
theorem expands_or_unreadable (args : List Text) : (∃ words, Expands readFile args words) ∨
    ∃ before words path after e, args = before ++ ('@' :: path) :: after ∧
      Expands readFile before words ∧ readFile path = .error e := by
  induction args with
  | nil => exact .inl ⟨[], .nil⟩
  | cons arg args ih =>
    -- what is in front of the rest
    have hcons : ∀ ws, (∀ {args words}, Expands readFile args words →
        Expands readFile (arg :: args) (ws ++ words)) →
        (∃ words, Expands readFile (arg :: args) words) ∨
          ∃ before words path after e, arg :: args = before ++ ('@' :: path) :: after ∧
            Expands readFile before words ∧ readFile path = .error e := by
      intro ws hws
      rcases ih with ⟨words, h⟩ | ⟨before, words, path, after, e, rfl, h, he⟩
      · exact .inl ⟨_, hws h⟩
      · exact .inr ⟨arg :: before, _, path, after, e, rfl, hws h, he⟩
    by_cases hhead : arg.head? = some '@'
    · obtain ⟨path, rfl⟩ : ∃ path, arg = '@' :: path := by
        cases arg with
        | nil => cases hhead
        | cons c path => exact ⟨path, by rw [Option.some.inj hhead]⟩
      cases hread : readFile path with
      | ok content => exact hcons _ (Expands.file hread (spaced_words content))
      | error e => exact .inr ⟨[], [], path, args, e, rfl, .nil, hread⟩
    · exact hcons [arg] (Expands.word hhead)

theorem expandResponseFiles_unreadable {before words after : List Text} {path e : Text}
    (h : Expands readFile before words) (he : readFile path = .error e) :
    expandResponseFiles readFile (before ++ ('@' :: path) :: after) =
      .error (unreadable path e) := by
  induction h with
  | nil =>
    rw [List.nil_append, expandResponseFiles, expandResponseFile, stripPrefix_at]
    simp only [he]
    rfl
  | word hhead _ ih =>
    rw [List.cons_append, expandResponseFiles, expandResponseFile, stripPrefix_at_eq_none hhead, ih]
    rfl
  | file hread _ _ ih =>
    rw [List.cons_append, expandResponseFiles, expandResponseFile, stripPrefix_at]
    simp only [hread, ih]
    rfl

theorem parseDirectDriverArgs_of_expands {args words : List Text}
    (h : Expands readFile args.tail words) :
    parseDirectDriverArgs readFile args = parseArgs ⟨.default, false⟩ words >>= finish := by
  rw [parseDirectDriverArgs, expandResponseFiles_of_expands h]
  rfl

/-- An invocation is what the settings of the command line make of the default one. -/
theorem parseDirectDriverArgs_eq_ok_iff (readFile : Text → Except Text Text) (args : List Text)
    (v : DirectDriverInvocation) :
    parseDirectDriverArgs readFile args = .ok v ↔ ∃ words settings,
      Expands readFile args.tail words ∧ Reads settings words ∧
        finish (applyAll settings) = .ok v := by
  constructor
  · intro h
    rcases @expands_or_unreadable readFile args.tail with
      ⟨words, hwords⟩ | ⟨before, words, path, after, e, hargs, hbefore, he⟩
    · rw [parseDirectDriverArgs_of_expands hwords] at h
      rcases reads_or_lacking words with
        ⟨settings, hreads⟩ | ⟨settings, ws, w, hline, hw, hx, rfl⟩
      · rw [parseArgs_reads hreads] at h
        exact ⟨words, settings, hwords, hreads, h⟩
      · rw [parseArgs_line hline, parseArgs_lacking hw, if_neg hx] at h
        cases h
    · rw [parseDirectDriverArgs, hargs, expandResponseFiles_unreadable hbefore he] at h
      cases h
  · rintro ⟨words, settings, hwords, hreads, h⟩
    rw [parseDirectDriverArgs_of_expands hwords, parseArgs_reads hreads]
    exact h

end Expansion

section Fields

namespace Setting

def asks : Setting → Option Bool
  | .printVersion => some true
  | .printVersionOnly => some true
  | .printTarget => some true
  | .printFileName _ => some true
  | _ => none

def source : Setting → Option Text
  | .sourceFile path => some path
  | _ => none

def included : Setting → Option Text
  | .includePath path => some path
  | _ => none

def forced : Setting → Option Text
  | .forceInclude path => some path
  | _ => none

def lib : Setting → Option Text
  | .linkLib name => some name
  | _ => none

def outputPath : Setting → Option Text
  | .output path => some path
  | _ => none

def typeOf : Setting → Option OutputType
  | .outputType type => some type
  | _ => none

def level : Setting → Option ℕ
  | .optimization level => some level
  | _ => none

def isFreestanding : Setting → Option Bool
  | .freestanding => some true
  | _ => none

/-- The rule that is written behind the build. -/
def rule : Setting → Option (Option Text)
  | .depfile path => some (some path)
  | _ => none

def requestsRule : Setting → Option Bool
  | .depfile _ => some true
  | .depend => some true
  | .depPhony => some true
  | _ => none

/-- What a setting makes of the macro of a name. -/
def macroOf (name : Text) : Setting → Option (Option Text)
  | .define n value => if n = name then some (some value) else none
  | .undefine n => if n = name then some none else none
  | _ => none

end Setting

variable (settings : List Setting)

/-- The last definition of a macro counts. -/
theorem applyAll_defines (name : Text) : (applyAll settings).invocation.defines name =
    (lastWord (Setting.macroOf name) settings).getD none := by
  refine @read_foldl _ _ _ (Setting.macroOf name) Setting.apply
    (fun s => s.invocation.defines name) (fun s setting => ?_) settings ⟨.default, false⟩
  cases setting with
  | define n value =>
    simp only [Setting.apply, State.modify, Setting.macroOf, Function.update_apply, eq_comm]
    split_ifs <;> rfl
  | undefine n =>
    simp only [Setting.apply, undefine, State.modify, Setting.macroOf, Function.update_apply,
      eq_comm]
    split_ifs <;> rfl
  | _ => rfl

theorem applyAll_asks : (applyAll settings).invocation.asks =
    (lastWord Setting.asks settings).getD false := by
  refine @read_foldl _ _ _ Setting.asks Setting.apply (fun s => s.invocation.asks)
    (fun s setting => ?_) settings ⟨.default, false⟩
  cases setting with
  | printVersion => rfl
  | printVersionOnly => simp [Setting.apply, State.modify, DirectDriverInvocation.asks, Setting.asks]
  | printTarget => simp [Setting.apply, State.modify, DirectDriverInvocation.asks, Setting.asks]
  | printFileName name =>
    simp [Setting.apply, State.modify, DirectDriverInvocation.asks, Setting.asks]
  | _ => rfl

theorem applyAll_output : (applyAll settings).invocation.output =
    (lastWord Setting.outputPath settings).getD "a.out".toList := by
  refine @read_foldl _ _ _ Setting.outputPath Setting.apply (fun s => s.invocation.output)
    (fun s setting => ?_) settings ⟨.default, false⟩
  cases setting <;> rfl

theorem applyAll_outputType : (applyAll settings).invocation.outputType =
    (lastWord Setting.typeOf settings).getD .Executable := by
  refine @read_foldl _ _ _ Setting.typeOf Setting.apply (fun s => s.invocation.outputType)
    (fun s setting => ?_) settings ⟨.default, false⟩
  cases setting <;> rfl

theorem applyAll_optimization : (applyAll settings).invocation.optimization =
    (lastWord Setting.level settings).getD 0 := by
  refine @read_foldl _ _ _ Setting.level Setting.apply (fun s => s.invocation.optimization)
    (fun s setting => ?_) settings ⟨.default, false⟩
  cases setting <;> rfl

theorem applyAll_freestanding : (applyAll settings).invocation.freestanding =
    (lastWord Setting.isFreestanding settings).getD false := by
  refine @read_foldl _ _ _ Setting.isFreestanding Setting.apply (fun s => s.invocation.freestanding)
    (fun s setting => ?_) settings ⟨.default, false⟩
  cases setting <;> rfl

theorem applyAll_depfile : (applyAll settings).invocation.depfile =
    (lastWord Setting.rule settings).getD none := by
  refine @read_foldl _ _ _ Setting.rule Setting.apply (fun s => s.invocation.depfile)
    (fun s setting => ?_) settings ⟨.default, false⟩
  cases setting <;> rfl

theorem applyAll_depRequested : (applyAll settings).depRequested =
    (lastWord Setting.requestsRule settings).getD false := by
  refine @read_foldl _ _ _ Setting.requestsRule Setting.apply (fun s => s.depRequested)
    (fun s setting => ?_) settings ⟨.default, false⟩
  cases setting <;> rfl

theorem applyAll_sourceFiles : (applyAll settings).invocation.sourceFiles =
    settings.filterMap Setting.source := by
  refine @collect_foldl _ _ _ Setting.apply (fun s => s.invocation.sourceFiles) Setting.source
    (fun s setting => ?_) settings ⟨.default, false⟩
  cases setting <;> first | rfl | exact (List.append_nil _).symm

theorem applyAll_includePaths : (applyAll settings).invocation.includePaths =
    settings.filterMap Setting.included := by
  refine @collect_foldl _ _ _ Setting.apply (fun s => s.invocation.includePaths) Setting.included
    (fun s setting => ?_) settings ⟨.default, false⟩
  cases setting <;> first | rfl | exact (List.append_nil _).symm

theorem applyAll_forceIncludes : (applyAll settings).invocation.forceIncludes =
    settings.filterMap Setting.forced := by
  refine @collect_foldl _ _ _ Setting.apply (fun s => s.invocation.forceIncludes) Setting.forced
    (fun s setting => ?_) settings ⟨.default, false⟩
  cases setting <;> first | rfl | exact (List.append_nil _).symm

theorem applyAll_linkLibs : (applyAll settings).invocation.linkLibs =
    settings.filterMap Setting.lib := by
  refine @collect_foldl _ _ _ Setting.apply (fun s => s.invocation.linkLibs) Setting.lib
    (fun s setting => ?_) settings ⟨.default, false⟩
  cases setting <;> first | rfl | exact (List.append_nil _).symm

/-- Some setting asks for a text, for which no source is needed. -/
def Asks : Prop := ∃ setting ∈ settings, setting.asks ≠ none

variable {settings}

theorem applyAll_asks_eq_true_iff : (applyAll settings).invocation.asks = true ↔ Asks settings := by
  rw [applyAll_asks]
  constructor
  · intro h
    by_contra hnot
    have hnone : lastWord Setting.asks settings = none := lastWord_eq_none_iff.2 fun setting hs => by
      by_contra hasks
      exact hnot ⟨setting, hs, hasks⟩
    rw [hnone] at h
    cases h
  · rintro ⟨setting, hs, hasks⟩
    cases hlast : lastWord Setting.asks settings with
    | none => exact absurd (lastWord_eq_none_iff.1 hlast setting hs) hasks
    | some b =>
      obtain ⟨_, setting, _, -, hb, -⟩ := lastWord_eq_some_iff.1 hlast
      cases setting <;> cases hb <;> rfl

theorem hosted_defines (v : DirectDriverInvocation) (name : Text) : v.hosted.defines name =
    (v.defines name).or (if v.freestanding ∧ name = "__STDC_HOSTED__".toList then some ['0']
      else none) := by
  unfold DirectDriverInvocation.hosted
  by_cases h : v.freestanding ∧ v.defines "__STDC_HOSTED__".toList = none
  · rw [if_pos h]
    simp only [Function.update_apply, h.1, true_and]
    by_cases hname : name = "__STDC_HOSTED__".toList
    · rw [if_pos hname, if_pos hname, hname, h.2]
      rfl
    · rw [if_neg hname, if_neg hname, Option.or_none]
  · rw [if_neg h]
    by_cases hname : v.freestanding ∧ name = "__STDC_HOSTED__".toList
    · cases hd : v.defines name with
      | none => exact absurd ⟨hname.1, hname.2 ▸ hd⟩ h
      | some value => rfl
    · rw [if_neg hname, Option.or_none]

/-- All but the macros is left as it is. -/
theorem hosted_eq (v : DirectDriverInvocation) : ∃ defines, v.hosted = { v with defines } := by
  unfold DirectDriverInvocation.hosted
  split_ifs <;> exact ⟨_, rfl⟩

/-- The end of the parsing. -/
theorem finish_eq (s : State) : finish s =
    if s.invocation.asks then .ok s.invocation.hosted
    else match s.invocation.sourceFiles with
      | [] => .error "no input files provided".toList
      | first :: _ =>
        .ok { s.invocation.hosted with
          output := s.invocation.outputFor first
          depfile := s.invocation.depfile.or (if s.depRequested then
            some (withExtension (s.invocation.outputFor first) ['d']) else none) } := by
  obtain ⟨defines, h⟩ := hosted_eq s.invocation
  unfold finish
  rw [h]
  show (if s.invocation.asks then _ else _) = _
  by_cases hasks : s.invocation.asks
  · rw [if_pos hasks, if_pos hasks]
  · rw [if_neg hasks, if_neg hasks]
    dsimp only
    cases s.invocation.sourceFiles with
    | nil => rfl
    | cons first rest =>
      dsimp only
      show Except.ok (if s.depRequested ∧ s.invocation.depfile = none then _ else _) = _
      cases s.depRequested with
      | false => cases s.invocation.depfile <;> rfl
      | true => cases s.invocation.depfile <;> rfl

/-- The fields of an invocation, read off the settings of its command line. -/
structure Agrees (settings : List Setting) (v : DirectDriverInvocation) : Prop where
  sourceFiles : v.sourceFiles = settings.filterMap Setting.source
  includePaths : v.includePaths = settings.filterMap Setting.included
  forceIncludes : v.forceIncludes = settings.filterMap Setting.forced
  linkLibs : v.linkLibs = settings.filterMap Setting.lib
  outputType : v.outputType = (lastWord Setting.typeOf settings).getD .Executable
  optimization : v.optimization = (lastWord Setting.level settings).getD 0
  /-- The last definition counts. -/
  defines : ∀ name, v.defines name = ((lastWord (Setting.macroOf name) settings).getD none).or
    (if lastWord Setting.isFreestanding settings = some true ∧ name = "__STDC_HOSTED__".toList then
      some ['0'] else none)

/-- The files of a build. -/
structure Builds (settings : List Setting) (v : DirectDriverInvocation) : Prop where
  output : ∃ first rest, v.sourceFiles = first :: rest ∧ v.output =
    if isPathOf "a.out".toList ((lastWord Setting.outputPath settings).getD "a.out".toList) then
      match v.outputType with
      | .Object => withExtension first ['o']
      | .SharedLib => "a.so".toList
      | .StaticLib => "liba.a".toList
      | .Executable => "a.out".toList
    else (lastWord Setting.outputPath settings).getD "a.out".toList
  depfile : v.depfile = ((lastWord Setting.rule settings).getD none).or
    (if lastWord Setting.requestsRule settings = some true then some (withExtension v.output ['d'])
      else none)

theorem getD_false_iff {o : Option Bool} : o.getD false = true ↔ o = some true := by
  cases o <;> simp

/-- The fields that the end of the parsing leaves alone. -/
theorem agrees_of_hosted {v : DirectDriverInvocation} {output : Text} {depfile : Option Text}
    (h : v = { (applyAll settings).invocation.hosted with output, depfile }) :
    Agrees settings v := by
  have hdefines := hosted_defines (applyAll settings).invocation
  obtain ⟨defines, hhosted⟩ := hosted_eq (applyAll settings).invocation
  rw [hhosted] at h hdefines
  subst h
  refine ⟨applyAll_sourceFiles settings, applyAll_includePaths settings,
    applyAll_forceIncludes settings, applyAll_linkLibs settings, applyAll_outputType settings,
    applyAll_optimization settings, fun name => ?_⟩
  rw [hdefines name, applyAll_defines, applyAll_freestanding]
  simp only [getD_false_iff]

/-- Every successful command line is a list of settings, and the invocation has the sources, the
include paths and the libraries in their order, the last type, level and definitions, and for a
build the output and the rule that go with them. -/
theorem parseDirectDriverArgs_agrees (readFile : Text → Except Text Text) {args : List Text}
    {v : DirectDriverInvocation} (h : parseDirectDriverArgs readFile args = .ok v) :
    ∃ words settings, Expands readFile args.tail words ∧ Reads settings words ∧
      Agrees settings v ∧ (Asks settings ∨ Builds settings v) := by
  obtain ⟨words, settings, hwords, hreads, hfinish⟩ :=
    (parseDirectDriverArgs_eq_ok_iff readFile args v).1 h
  refine ⟨words, settings, hwords, hreads, ?_⟩
  rw [finish_eq] at hfinish
  by_cases hasks : (applyAll settings).invocation.asks = true
  · rw [if_pos hasks] at hfinish
    cases hfinish
    exact ⟨agrees_of_hosted rfl, .inl (applyAll_asks_eq_true_iff.1 hasks)⟩
  · rw [if_neg hasks] at hfinish
    split at hfinish
    · cases hfinish
    · rename_i first rest hsources
      cases hfinish
      refine ⟨agrees_of_hosted rfl, .inr ?_⟩
      obtain ⟨defines, hhosted⟩ := hosted_eq (applyAll settings).invocation
      refine ⟨⟨first, rest, ?_, ?_⟩, ?_⟩
      · rw [hhosted]
        exact hsources
      · rw [hhosted, ← applyAll_output]
        rfl
      · dsimp only
        rw [applyAll_depfile, applyAll_depRequested]
        simp only [getD_false_iff]

/-- `optic_c -c @args` -/
def argsCommand : List Text := [['o', 'p', 't', 'i', 'c', '_', 'c'], ['-', 'c'], ['@', 'a', 'r', 'g', 's']]

/-- The file `args` has the lines `-DX=1 m.c` and `-DX=2 -MD`. -/
def argsFile (_ : Text) : Except Text Text :=
  .ok ['-', 'D', 'X', '=', '1', ' ', 'm', '.', 'c', '\n', '-', 'D', 'X', '=', '2', ' ', '-', 'M', 'D']

theorem parseDirectDriverArgs_agrees_args : ∃ v, parseDirectDriverArgs argsFile argsCommand = .ok v ∧
    ∃ words settings, Expands argsFile argsCommand.tail words ∧ Reads settings words ∧
      Agrees settings v ∧ (Asks settings ∨ Builds settings v) := by
  obtain ⟨v, hv⟩ : ∃ v, parseDirectDriverArgs argsFile argsCommand = .ok v := ⟨_, rfl⟩
  exact ⟨v, hv, parseDirectDriverArgs_agrees argsFile hv⟩

/-- A command line is refused for a response file that cannot be read, for an option at its end
that lacks its value, and for want of a source. -/
theorem parseDirectDriverArgs_eq_error_iff (readFile : Text → Except Text Text) (args : List Text)
    (e : Text) :
    parseDirectDriverArgs readFile args = .error e ↔
      (∃ before words path after cause, args.tail = before ++ ('@' :: path) :: after ∧
        Expands readFile before words ∧ readFile path = .error cause ∧ e = unreadable path cause) ∨
      (∃ settings ws w, Expands readFile args.tail (ws ++ [w]) ∧ Line settings ws ∧ TakesValue w ∧
        w ≠ "-x".toList ∧ e = missingValue w) ∨
      ∃ words settings, Expands readFile args.tail words ∧ Reads settings words ∧
        ¬Asks settings ∧ settings.filterMap Setting.source = [] ∧
        e = "no input files provided".toList := by
  constructor
  · intro h
    rcases @expands_or_unreadable readFile args.tail with
      ⟨words, hwords⟩ | ⟨before, words, path, after, cause, hargs, hbefore, hcause⟩
    · rw [parseDirectDriverArgs_of_expands hwords] at h
      rcases reads_or_lacking words with
        ⟨settings, hreads⟩ | ⟨settings, ws, w, hline, hw, hx, rfl⟩
      · rw [parseArgs_reads hreads] at h
        have hfinish : finish (applyAll settings) = .error e := h
        rw [finish_eq] at hfinish
        by_cases hasks : (applyAll settings).invocation.asks = true
        · rw [if_pos hasks] at hfinish
          cases hfinish
        · rw [if_neg hasks] at hfinish
          split at hfinish
          · rename_i hsources
            cases hfinish
            exact .inr (.inr ⟨words, settings, hwords, hreads,
              fun h => hasks (applyAll_asks_eq_true_iff.2 h),
              (applyAll_sourceFiles _).symm.trans hsources, rfl⟩)
          · cases hfinish
      · rw [parseArgs_line hline, parseArgs_lacking hw, if_neg hx] at h
        cases h
        exact .inr (.inl ⟨settings, ws, w, hwords, hline, hw, hx, rfl⟩)
    · rw [parseDirectDriverArgs, hargs, expandResponseFiles_unreadable hbefore hcause] at h
      cases h
      exact .inl ⟨before, words, path, after, cause, hargs, hbefore, hcause, rfl⟩
  · rintro (⟨before, words, path, after, cause, hargs, hbefore, hcause, rfl⟩ |
      ⟨settings, ws, w, hwords, hline, hw, hx, rfl⟩ |
      ⟨words, settings, hwords, hreads, hasks, hsources, rfl⟩)
    · rw [parseDirectDriverArgs, hargs, expandResponseFiles_unreadable hbefore hcause]
      rfl
    · rw [parseDirectDriverArgs_of_expands hwords, parseArgs_line hline, parseArgs_lacking hw,
        if_neg hx]
      rfl
    · rw [parseDirectDriverArgs_of_expands hwords, parseArgs_reads hreads]
      show finish (applyAll settings) = _
      rw [finish_eq, if_neg fun h => hasks (applyAll_asks_eq_true_iff.1 h), applyAll_sourceFiles,
        hsources]

end Fields

end OpticC.Driver
