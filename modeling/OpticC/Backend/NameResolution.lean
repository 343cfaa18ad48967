import OpticC.Backend.Scoping

/-! When the names of a translation unit are looked up as C has them. -/

namespace OpticC

open Function

/-- The tables say what C says. -/
def Agree (T : NameTables) (e : Env) : Prop := ∀ x, T.entry x = e x

section Record

variable (T : NameTables) (n : String)

def Entry.addStructInfo (o : Entry) (type : LlvmType) : Option (ℕ × List String) → Entry
  | none => o
  | some (structType, fields) =>
    { o with
      fields := some fields
      structType := if type.isPointer then some structType else o.structType }

@[simp]
theorem entry_recordStructInfo (type : LlvmType) (info : Option (ℕ × List String)) :
    (T.recordStructInfo n type info).entry = update T.entry n ((T.entry n).addStructInfo type info) := by
  cases info with
  | none => exact (update_eq_self n T.entry).symm
  | some q =>
    funext x
    by_cases hx : x = n
    · subst hx
      simp only [NameTables.entry, NameTables.recordStructInfo, Entry.addStructInfo, update_self]
      split_ifs <;> simp
    · simp only [NameTables.entry, NameTables.recordStructInfo, update_of_ne hx]
      split_ifs <;> simp [hx]

@[simp]
theorem entry_recordStructTag (tag : Option String) : (T.recordStructTag n tag).entry =
    update T.entry n { T.entry n with tag := tag.or (T.entry n).tag } := by
  cases tag with
  | none => exact (update_eq_self n T.entry).symm
  | some tag =>
    funext x
    by_cases hx : x = n
    · subst hx
      simp [NameTables.entry, NameTables.recordStructTag]
    · simp [NameTables.entry, NameTables.recordStructTag, hx]

@[simp]
theorem entry_recordGlobalTag (tag : Option String) : (T.recordGlobalTag n tag).entry = T.entry := by
  cases tag <;> rfl

@[simp]
theorem entry_recordGlobal (b : VariableBinding) : (T.recordGlobal n b).entry = T.entry := rfl

@[simp]
theorem entry_insertScopedVariable (b : VariableBinding) : (T.insertScopedVariable n b).entry =
    update T.entry n { T.entry n with binding := some b } := by
  funext x
  by_cases hx : x = n
  · subst hx
    simp [NameTables.entry, NameTables.insertScopedVariable]
  · simp [NameTables.entry, NameTables.insertScopedVariable, hx]

@[simp]
theorem entry_recordBytePointer (isByte : Bool) : (T.recordBytePointer n isByte).entry =
    update T.entry n { T.entry n with bytePointer := (T.entry n).bytePointer || isByte } := by
  funext x
  by_cases hx : x = n
  · subst hx
    cases isByte <;> simp [NameTables.entry, NameTables.recordBytePointer]
  · cases isByte <;> simp [NameTables.entry, NameTables.recordBytePointer, hx]

theorem hasBytePointerIdent_entry (idents : List String) :
    T.hasBytePointerIdent idents = Env.hasBytePointerIdent T.entry idents := rfl

end Record

section Register

variable {T : NameTables} {e : Env} {d : Declaration} {r : Declarator}

/-- A fact that is there again is the new one. -/
theorem or_of_covers {α : Type} {a b : Option α} (h : b.isSome → a.isSome) : a.or b = a := by
  cases a with
  | none =>
    cases b with
    | none => rfl
    | some b => simp at h
  | some a => rfl

/-- The entry of a new object over that of an old one of its name. -/
theorem addStructInfo_of_covers {o new : Entry} (type : LlvmType) (info : Option (ℕ × List String))
    (h : new.Covers o) (hfields : new.fields = info.map Prod.snd)
    (hstruct : new.structType = if type.isPointer then info.map Prod.fst else none) :
    (o.addStructInfo type info).fields = new.fields ∧
      (o.addStructInfo type info).structType = new.structType := by
  have hf := h.fields
  have hs := h.structType
  rw [hfields] at hf ⊢
  rw [hstruct] at hs ⊢
  cases info with
  | none =>
    refine ⟨?_, ?_⟩
    · simpa [Entry.addStructInfo, Option.not_isSome_iff_eq_none] using hf
    · simpa [Entry.addStructInfo, Option.not_isSome_iff_eq_none] using hs
  | some q =>
    refine ⟨rfl, ?_⟩
    by_cases hp : type.isPointer
    · simp [Entry.addStructInfo, hp]
    · simpa [Entry.addStructInfo, hp, Option.not_isSome_iff_eq_none] using hs

@[simp] theorem addStructInfo_binding (o : Entry) (type : LlvmType) (info : Option (ℕ × List String)) :
    (o.addStructInfo type info).binding = o.binding := by
  cases info <;> rfl

@[simp] theorem addStructInfo_tag (o : Entry) (type : LlvmType) (info : Option (ℕ × List String)) :
    (o.addStructInfo type info).tag = o.tag := by
  cases info <;> rfl

@[simp] theorem addStructInfo_bytePointer (o : Entry) (type : LlvmType)
    (info : Option (ℕ × List String)) :
    (o.addStructInfo type info).bytePointer = o.bytePointer := by
  cases info <;> rfl

/-- The byte pointers of an initializer, with the new object among them or not. -/
theorem byte_of_covers {n : String} {idents : List String} {isPtr isChar : Bool}
    (E1 : Env) (hE1 : ∀ x, (E1 x).bytePointer = (e x).bytePointer)
    (h : (e n).bytePointer → (isPtr && (isChar ||
      Env.hasBytePointerIdent (update e n .unknown) idents))) :
    ((e n).bytePointer || (isPtr && (isChar || Env.hasBytePointerIdent E1 idents))) =
      (isPtr && (isChar || Env.hasBytePointerIdent (update e n .unknown) idents)) := by
  by_cases hn : (e n).bytePointer
  · rw [hn, Bool.true_or]
    exact (h hn).symm
  · have hsame : Env.hasBytePointerIdent E1 idents =
        Env.hasBytePointerIdent (update e n .unknown) idents := by
      unfold Env.hasBytePointerIdent
      congr 1
      funext x
      by_cases hx : x = n
      · subst hx
        simp [hE1, hn, Entry.unknown]
      · simp [hE1, hx]
    simp [hn, hsame]

theorem agree_registerLocal (h : Agree T e) (hstorage : d.storage = .automatic)
    (hc : (d.entry r e).Covers (e r.name)) :
    Agree (T.registerLocal d r) (update e r.name (d.entry r e)) := by
  have hT : T.entry = e := funext h
  obtain ⟨hfields, hstruct⟩ :=
    addStructInfo_of_covers r.type d.structInfo hc rfl rfl
  have htag : d.recordTag.or (e r.name).tag = d.recordTag := or_of_covers hc.tag
  have hbyte : (d.entry r e).bytePointer = (r.type.isPointer && (d.isChar ||
      Env.hasBytePointerIdent (update e r.name .unknown) r.initIdents)) := by
    simp [Declaration.entry, hstorage]
  have hcbyte := hc.bytePointer
  rw [hbyte] at hcbyte
  intro x
  simp only [NameTables.registerLocal, entry_recordBytePointer, entry_insertScopedVariable,
    entry_recordStructTag, entry_recordStructInfo, hT, update_idem, update_self,
    hasBytePointerIdent_entry]
  congr 1
  ext1
  · rfl
  · exact hfields
  · exact hstruct
  · simpa using htag.trans (show d.recordTag = (d.entry r e).tag from rfl)
  · rw [hbyte, ← byte_of_covers (update e r.name _) (fun y => ?_) hcbyte]
    · rw [addStructInfo_bytePointer]
    · by_cases hy : y = r.name
      · subst hy
        simp
      · simp [hy]

theorem agree_registerStatic (h : Agree T e) (hstorage : d.storage = .static)
    (hc : (d.entry r e).Covers (e r.name)) :
    Agree (T.registerStatic d r) (update e r.name (d.entry r e)) := by
  have hT : T.entry = e := funext h
  obtain ⟨hfields, hstruct⟩ :=
    addStructInfo_of_covers r.type d.structInfo hc rfl rfl
  have htag : d.recordTag.or (e r.name).tag = d.recordTag := or_of_covers hc.tag
  have hbyte : (d.entry r e).bytePointer = (d.isChar && r.type.isPointer) := by
    simp [Declaration.entry, hstorage, Bool.and_comm]
  have hcbyte := hc.bytePointer
  rw [hbyte] at hcbyte
  intro x
  simp only [NameTables.registerStatic, entry_recordBytePointer, entry_insertScopedVariable,
    entry_recordGlobal, entry_recordGlobalTag, entry_recordStructTag, entry_recordStructInfo, hT,
    update_idem, update_self]
  congr 1
  ext1
  · rfl
  · exact hfields
  · exact hstruct
  · simpa using htag.trans (show d.recordTag = (d.entry r e).tag from rfl)
  · rw [hbyte, addStructInfo_bytePointer]
    cases hold : (e r.name).bytePointer with
    | false => rfl
    | true => exact (hcbyte hold).symm

theorem agree_registerParam {p : Param} (h : Agree T e) (hc : p.entry.Covers (e p.name)) :
    Agree (T.registerParam p) (e.param p) := by
  have hT : T.entry = e := funext h
  obtain ⟨hfields, hstruct⟩ :=
    addStructInfo_of_covers p.type p.structInfo hc rfl rfl
  have htag : (e p.name).tag = none := by
    simpa [Param.entry, Option.not_isSome_iff_eq_none] using hc.tag
  have hcbyte : (e p.name).bytePointer → (p.type.isPointer && isBytePointerName p.name) :=
    hc.bytePointer
  have hinsert : ({ T with variables_ := update T.variables_ p.name (some p.binding) } : NameTables).entry =
      update e p.name { e p.name with binding := some p.binding } := by
    rw [← hT]
    funext x
    by_cases hx : x = p.name
    · subst hx
      simp [NameTables.entry]
    · simp [NameTables.entry, hx]
  intro x
  simp only [NameTables.registerParam, entry_recordBytePointer, entry_recordStructInfo, hinsert,
    update_idem, update_self, Env.param]
  congr 1
  ext1
  · rw [addStructInfo_binding]
    rfl
  · rw [← hfields]
    cases p.structInfo <;> rfl
  · rw [← hstruct]
    cases p.structInfo <;> rfl
  · rw [addStructInfo_tag]
    exact htag
  · rw [addStructInfo_bytePointer]
    show ((e p.name).bytePointer || (p.type.isPointer && isBytePointerName p.name)) =
      (p.type.isPointer && isBytePointerName p.name)
    cases hold : (e p.name).bytePointer with
    | false => rfl
    | true => exact (hcbyte hold).symm

theorem agree_lowerUse (h : Agree T e) (u : NameUse) : Agree (T.lowerUse u) (e.use u) := by
  have hT : T.entry = e := funext h
  cases u with
  | occurs x => exact h
  | assigns x rhs =>
    have hvar : T.variables_ x = (e x).binding := congrArg Entry.binding (h x)
    intro y
    simp only [NameTables.lowerUse, Env.use, entry_recordBytePointer, hasBytePointerIdent_entry, hT,
      hvar]
    split_ifs with hbyte
    · rw [hbyte, Bool.or_true]
    · rw [Bool.not_eq_true] at hbyte
      rw [hbyte, Bool.or_false, update_eq_self]

theorem agree_lowerUses (h : Agree T e) (uses : List NameUse) :
    Agree (uses.foldl NameTables.lowerUse T) (uses.foldl Env.use e) := by
  induction uses generalizing T e with
  | nil => exact h
  | cons u us ih => exact ih (agree_lowerUse h u)

theorem usesRight (h : Agree T e) (uses : List NameUse) : UsesRight uses T e := by
  induction uses generalizing T e with
  | nil => trivial
  | cons u us ih => exact ⟨fun x _ => h x, ih (agree_lowerUse h u)⟩

end Register

section Scopes

/-- Inside the innermost scope the bindings in front of it can still be put back. -/
def Saved (T T' : NameTables) : Prop :=
  ∀ saved stack, T.scopeStack = saved :: stack → ∃ saved', T'.scopeStack = saved' :: stack ∧
    ∀ x, (saved' x).getD (T'.variables_ x) = (saved x).getD (T.variables_ x)

variable {T T' : NameTables} {d : Declaration} {r : Declarator}

theorem Saved.refl (T : NameTables) : Saved T T := fun saved _ h => ⟨saved, h, fun _ => rfl⟩

theorem Saved.trans {T'' : NameTables} (h : Saved T T') (h' : Saved T' T'') : Saved T T'' := by
  intro saved stack hstack
  obtain ⟨saved', hstack', hx'⟩ := h saved stack hstack
  obtain ⟨saved'', hstack'', hx''⟩ := h' saved' stack hstack'
  exact ⟨saved'', hstack'', fun x => (hx'' x).trans (hx' x)⟩

theorem Saved.of_eq (hv : T'.variables_ = T.variables_) (hs : T'.scopeStack = T.scopeStack) :
    Saved T T' := by
  intro saved stack hstack
  exact ⟨saved, hs.trans hstack, fun x => by rw [hv]⟩

theorem Saved.insert (T : NameTables) (n : String) (b : VariableBinding) :
    Saved T (T.insertScopedVariable n b) := by
  intro saved stack hstack
  refine ⟨update saved n (some ((saved n).getD (T.variables_ n))), ?_, fun x => ?_⟩
  · simp [NameTables.insertScopedVariable, hstack]
  · by_cases hx : x = n
    · subst hx
      simp
    · simp [NameTables.insertScopedVariable, hx]

theorem Saved.structInfo (T : NameTables) (n : String) (type : LlvmType)
    (info : Option (ℕ × List String)) : Saved T (T.recordStructInfo n type info) := by
  cases info <;> exact .of_eq rfl rfl

theorem Saved.structTag (T : NameTables) (n : String) (tag : Option String) :
    Saved T (T.recordStructTag n tag) := by
  cases tag <;> exact .of_eq rfl rfl

theorem Saved.globalTag (T : NameTables) (n : String) (tag : Option String) :
    Saved T (T.recordGlobalTag n tag) := by
  cases tag <;> exact .of_eq rfl rfl

theorem Saved.global (T : NameTables) (n : String) (b : VariableBinding) :
    Saved T (T.recordGlobal n b) := .of_eq rfl rfl

theorem Saved.bytePointer (T : NameTables) (n : String) (isByte : Bool) :
    Saved T (T.recordBytePointer n isByte) := by
  cases isByte <;> exact .of_eq rfl rfl

theorem saved_registerLocal (T : NameTables) : Saved T (T.registerLocal d r) :=
  (((Saved.structInfo T _ _ _).trans (.structTag _ _ _)).trans (.insert _ _ _)).trans
    (.bytePointer _ _ _)

theorem saved_registerStatic (T : NameTables) : Saved T (T.registerStatic d r) :=
  (((((Saved.structInfo T _ _ _).trans (.structTag _ _ _)).trans (.globalTag _ _ _)).trans
    (.insert _ _ _)).trans (.global _ _ _)).trans (.bytePointer _ _ _)

theorem saved_lowerUses (T : NameTables) (uses : List NameUse) :
    Saved T (uses.foldl NameTables.lowerUse T) := by
  induction uses generalizing T with
  | nil => exact .refl T
  | cons u us ih =>
    refine Saved.trans ?_ (ih (T.lowerUse u))
    cases u with
    | occurs x => exact .refl T
    | assigns x rhs => exact .bytePointer _ _ _

theorem saved_lowerDeclarators (T : NameTables) (rs : List Declarator) :
    Saved T (NameTables.lowerDeclarators d rs T) := by
  induction rs generalizing T with
  | nil => exact .refl T
  | cons r rs ih =>
    unfold NameTables.lowerDeclarators
    split_ifs
    · exact (saved_registerStatic T).trans (ih _)
    · exact saved_registerStatic T
    · exact ((saved_registerLocal T).trans (saved_lowerUses _ _)).trans (ih _)

/-- A scope that is left has put its bindings back. -/
theorem popScope_of_saved (h : Saved T.pushScope T') :
    T'.popScope.variables_ = T.variables_ ∧ T'.popScope.scopeStack = T.scopeStack := by
  obtain ⟨saved, hstack, hx⟩ := h _ _ rfl
  unfold NameTables.popScope
  rw [hstack]
  exact ⟨funext hx, rfl⟩

theorem saved_lowerItem (T : NameTables) (s : Item) : Saved T (T.lowerItem s) := by
  induction s generalizing T with
  | skip => exact .refl T
  | expr uses => exact saved_lowerUses T uses
  | decl d =>
    show Saved T (NameTables.lowerVarDecl d T)
    unfold NameTables.lowerVarDecl
    split_ifs
    · exact .refl T
    · exact saved_lowerDeclarators T _
  | seq s t ihs iht => exact (ihs T).trans (iht _)
  | compound s ih =>
    obtain ⟨hv, hs⟩ := popScope_of_saved (ih T.pushScope)
    exact .of_eq hv hs
  | for_ init rest ihi ihr => exact (ihi T).trans (ihr _)
  | switch s ih =>
    obtain ⟨hv, hs⟩ := popScope_of_saved (ih T.pushScope)
    exact .of_eq hv hs

end Scopes

section Items

variable {file e : Env} {T : NameTables} {d : Declaration}

theorem agree_lowerDeclarators {rs : List Declarator} (h : Agree T e) (hfits : DeclaratorsFit file d rs e)
    (hstorage : d.storage ≠ .typedef_) :
    DeclaratorsRight file d rs T e ∧
      Agree (NameTables.lowerDeclarators d rs T) (scopeDeclarators file d rs e) := by
  induction rs generalizing T e with
  | nil => exact ⟨trivial, h⟩
  | cons r rs ih =>
    cases hs : d.storage with
    | typedef_ => exact absurd hs hstorage
    | extern_ => simp [DeclaratorsFit, hs] at hfits
    | static =>
      simp only [DeclaratorsFit, hs] at hfits
      obtain ⟨hc, hlast, hrest⟩ := hfits
      have hreg := agree_registerStatic h hs hc
      rw [show update e r.name (d.entry r e) = d.declare file r e by
        simp [Declaration.declare, hs]] at hreg
      obtain ⟨hright, hagree⟩ := ih hreg hrest
      simp only [DeclaratorsRight, NameTables.lowerDeclarators, scopeDeclarators, Declaration.uses, hs]
      refine ⟨?_, ?_⟩
      · simpa using fun _ => hright
      · by_cases hi : r.hasInit
        · simpa [hi] using hagree
        · obtain rfl : rs = [] := hlast.resolve_left hi
          simpa [hi, scopeDeclarators] using hreg
    | automatic =>
      simp only [DeclaratorsFit, hs] at hfits
      obtain ⟨hc, hrest⟩ := hfits
      have hreg := agree_registerLocal h hs hc
      rw [show update e r.name (d.entry r e) = d.declare file r e by
        simp [Declaration.declare, hs]] at hreg
      obtain ⟨hright, hagree⟩ := ih (agree_lowerUses hreg r.initUses) hrest
      simp only [DeclaratorsRight, NameTables.lowerDeclarators, scopeDeclarators, Declaration.uses, hs]
      refine ⟨?_, ?_⟩
      · simpa using ⟨usesRight hreg r.initUses, hright⟩
      · simpa using hagree

/-- A type name that hides no object is nothing to the tables. -/
theorem scopeDeclarators_typedef {rs : List Declarator} (hs : d.storage = .typedef_)
    (hfits : DeclaratorsFit file d rs e) :
    DeclaratorsRight file d rs T e ∧ scopeDeclarators file d rs e = e := by
  induction rs with
  | nil => exact ⟨trivial, rfl⟩
  | cons r rs ih =>
    simp only [DeclaratorsFit, hs] at hfits
    have hsame : d.declare file r e = e := by
      simp only [Declaration.declare, hs, ← hfits.1, update_eq_self]
    refine ⟨by simp [DeclaratorsRight, hs], ?_⟩
    rw [hsame] at hfits
    simpa [scopeDeclarators, Declaration.uses, hs, hsame] using (ih hfits.2).2

/-- What a block leaves behind, when it changes nothing but bindings. -/
theorem agree_block {s : Item} (hT : Agree T e) (h : Agree (T.pushScope.lowerItem s) (s.scope file e))
    (hsides : ∀ x, (s.scope file e x).SameSides (e x)) :
    Agree (T.pushScope.lowerItem s).popScope e := by
  obtain ⟨hv, -⟩ := popScope_of_saved (saved_lowerItem T.pushScope s)
  intro x
  have hpop : (T.pushScope.lowerItem s).popScope.entry x =
      { (T.pushScope.lowerItem s).entry x with
        binding := (T.pushScope.lowerItem s).popScope.variables_ x } := by
    unfold NameTables.popScope
    split <;> rfl
  have hbinding : T.variables_ x = (e x).binding := congrArg Entry.binding (hT x)
  rw [hpop, h x, hv, hbinding]
  exact hsides x

theorem agree_lowerItem {s : Item} (h : Agree T e) (hfits : s.Fits file e) :
    s.Right file T e ∧ Agree (T.lowerItem s) (s.scope file e) := by
  induction s generalizing T e with
  | skip => exact ⟨trivial, h⟩
  | expr uses => exact ⟨usesRight h uses, agree_lowerUses h uses⟩
  | decl d =>
    by_cases hs : d.storage = .typedef_
    · obtain ⟨hright, hscope⟩ := scopeDeclarators_typedef hs hfits
      refine ⟨hright, ?_⟩
      show Agree (NameTables.lowerVarDecl d T) (scopeDeclarators file d d.declarators e)
      rw [NameTables.lowerVarDecl, if_pos hs, hscope]
      exact h
    · obtain ⟨hright, hagree⟩ := agree_lowerDeclarators h hfits hs
      refine ⟨hright, ?_⟩
      show Agree (NameTables.lowerVarDecl d T) _
      rw [NameTables.lowerVarDecl, if_neg hs]
      exact hagree
  | seq s t ihs iht =>
    obtain ⟨hright, hagree⟩ := ihs h hfits.1
    obtain ⟨hright', hagree'⟩ := iht hagree hfits.2
    exact ⟨⟨hright, hright'⟩, hagree'⟩
  | compound s ih =>
    obtain ⟨hright, hagree⟩ := ih (T := T.pushScope) h hfits.1
    have hblock := agree_block h hagree hfits.2
    exact ⟨⟨hright, fun x => (hblock x).trans (h x).symm⟩, hblock⟩
  | for_ init rest ihi ihr =>
    obtain ⟨hinit, hrest, hsame⟩ := hfits
    obtain ⟨hright, hagree⟩ := ihi h hinit
    obtain ⟨hright', hagree'⟩ := ihr hagree hrest
    have hfor : Agree (T.lowerItem (.for_ init rest)) e := fun x => (hagree' x).trans (hsame x)
    exact ⟨⟨hright, hright', fun x => (hfor x).trans (h x).symm⟩, hfor⟩
  | switch s ih =>
    obtain ⟨hright, hagree⟩ := ih (T := T.pushScope) h hfits.1
    have hblock := agree_block h hagree hfits.2
    exact ⟨⟨hright, fun x => (hblock x).trans (h x).symm⟩, hblock⟩

theorem agree_registerParams {ps : List Param} (h : Agree T e) (hfits : ParamsFit ps e) :
    Agree (ps.foldl NameTables.registerParam T) (ps.foldl Env.param e) := by
  induction ps generalizing T e with
  | nil => exact h
  | cons p ps ih => exact ih (agree_registerParam h hfits.1) hfits.2

end Items

section Units

variable {file : Env} {T T' : NameTables}

/-- The same global names. -/
def SameGlobals (T T' : NameTables) : Prop :=
  T'.globalVariables = T.globalVariables ∧ T'.globalStructTags = T.globalStructTags

theorem SameGlobals.trans {T'' : NameTables} (h : SameGlobals T T') (h' : SameGlobals T' T'') :
    SameGlobals T T'' := ⟨h'.1.trans h.1, h'.2.trans h.2⟩

theorem sameGlobals_structInfo (T : NameTables) (n : String) (type : LlvmType)
    (info : Option (ℕ × List String)) : SameGlobals T (T.recordStructInfo n type info) := by
  cases info <;> exact ⟨rfl, rfl⟩

theorem sameGlobals_bytePointer (T : NameTables) (n : String) (isByte : Bool) :
    SameGlobals T (T.recordBytePointer n isByte) := by
  cases isByte <;> exact ⟨rfl, rfl⟩

theorem sameGlobals_registerLocal (T : NameTables) (d : Declaration) (r : Declarator) :
    SameGlobals T (T.registerLocal d r) := by
  have htag : SameGlobals (T.recordStructInfo r.name r.type d.structInfo)
      ((T.recordStructInfo r.name r.type d.structInfo).recordStructTag r.name d.recordTag) := by
    cases d.recordTag <;> exact ⟨rfl, rfl⟩
  exact ((sameGlobals_structInfo T _ _ _).trans htag).trans (sameGlobals_bytePointer _ _ _)

theorem sameGlobals_lowerUses (T : NameTables) (uses : List NameUse) :
    SameGlobals T (uses.foldl NameTables.lowerUse T) := by
  induction uses generalizing T with
  | nil => exact ⟨rfl, rfl⟩
  | cons u us ih =>
    refine SameGlobals.trans ?_ (ih (T.lowerUse u))
    cases u with
    | occurs x => exact ⟨rfl, rfl⟩
    | assigns x rhs => exact sameGlobals_bytePointer _ _ _

theorem sameGlobals_lowerDeclarators {d : Declaration} (hd : d.storage ≠ .static) (T : NameTables)
    (rs : List Declarator) : SameGlobals T (NameTables.lowerDeclarators d rs T) := by
  induction rs generalizing T with
  | nil => exact ⟨rfl, rfl⟩
  | cons r rs ih =>
    rw [NameTables.lowerDeclarators, if_neg hd]
    exact ((sameGlobals_registerLocal T d r).trans (sameGlobals_lowerUses _ _)).trans (ih _)

/-- Without static variables a function leaves the global names alone. -/
theorem sameGlobals_lowerItem (T : NameTables) {s : Item} (h : s.NoStatic) :
    SameGlobals T (T.lowerItem s) := by
  induction s generalizing T with
  | skip => exact ⟨rfl, rfl⟩
  | expr uses => exact sameGlobals_lowerUses T uses
  | decl d =>
    show SameGlobals T (NameTables.lowerVarDecl d T)
    unfold NameTables.lowerVarDecl
    split_ifs
    · exact ⟨rfl, rfl⟩
    · exact sameGlobals_lowerDeclarators h T _
  | seq s t ihs iht => exact (ihs T h.1).trans (iht _ h.2)
  | compound s ih =>
    have hin := ih T.pushScope h
    refine SameGlobals.trans hin ?_
    show SameGlobals _ (NameTables.popScope _)
    unfold NameTables.popScope
    split <;> exact ⟨rfl, rfl⟩
  | for_ init rest ihi ihr => exact (ihi T h.1).trans (ihr _ h.2)
  | switch s ih =>
    have hin := ih T.pushScope h
    refine SameGlobals.trans hin ?_
    show SameGlobals _ (NameTables.popScope _)
    unfold NameTables.popScope
    split <;> exact ⟨rfl, rfl⟩

theorem unitRight_of_globals {unit : List TopLevel} (h : ∀ t ∈ unit, t.IsGlobal) :
    UnitRight unit T file := by
  induction unit generalizing T file with
  | nil => trivial
  | cons t ts ih =>
    cases t with
    | global g => exact ih fun t ht => h t (List.mem_cons_of_mem _ ht)
    | func params body => exact (h _ List.mem_cons_self).elim

theorem agree_declareGlobal {g : GlobalVar} (h : Agree T.enterFunction file)
    (hg : file g.name = .unknown) :
    Agree (T.lowerGlobalVar g).enterFunction (file.declareGlobal g) := by
  have hnew : file.declareGlobal g = update file g.name g.entry := by
    simp [Env.declareGlobal, hg, Entry.unknown]
  rw [hnew]
  intro x
  have hx' := h x
  by_cases hx : x = g.name
  · subst hx
    rw [hg] at hx'
    have htag : T.globalStructTags g.name = none := congrArg Entry.tag hx'
    cases htag' : g.tag <;>
      simp [NameTables.lowerGlobalVar, NameTables.enterFunction, NameTables.entry,
        NameTables.recordGlobalTag, NameTables.recordGlobal, GlobalVar.entry, htag, htag']
  · rw [update_of_ne hx, ← hx']
    cases htag : g.tag <;>
      simp [NameTables.lowerGlobalVar, NameTables.enterFunction, NameTables.entry,
        NameTables.recordGlobalTag, NameTables.recordGlobal, hx, htag]

theorem sameGlobals_registerParams (T : NameTables) (ps : List Param) :
    SameGlobals T (ps.foldl NameTables.registerParam T) := by
  induction ps generalizing T with
  | nil => exact ⟨rfl, rfl⟩
  | cons p ps ih =>
    refine SameGlobals.trans ?_ (ih (T.registerParam p))
    have hinsert : SameGlobals T
        { T with variables_ := update T.variables_ p.name (some p.binding) } := ⟨rfl, rfl⟩
    exact (hinsert.trans (sameGlobals_bytePointer _ _ _)).trans (sameGlobals_structInfo _ _ _ _)

theorem unitRight_of_fits {unit : List TopLevel} (h : Agree T.enterFunction file)
    (hfits : UnitFits unit file) : UnitRight unit T file := by
  induction unit generalizing T file with
  | nil => trivial
  | cons t ts ih =>
    cases t with
    | global g => exact ih (agree_declareGlobal h hfits.1) hfits.2
    | func params body =>
      obtain ⟨hparams, hbody, hstatic, hrest⟩ := hfits
      have hstart := agree_registerParams h hparams
      refine ⟨h, (agree_lowerItem hstart hbody).1, ?_⟩
      rcases hstatic with hstatic | hlast
      · apply ih _ hrest
        have hsame : SameGlobals T (T.lowerFuncDef params body) :=
          (sameGlobals_registerParams T.enterFunction params).trans (sameGlobals_lowerItem _ hstatic)
        have henter : (T.lowerFuncDef params body).enterFunction.entry = T.enterFunction.entry := by
          simp only [NameTables.enterFunction, hsame.1, hsame.2]
          rfl
        intro x
        rw [henter]
        exact h x
      · exact unitRight_of_globals hlast

theorem sameSides_update {e : Env} {n : String} {new : Entry} (h : new.SameSides (e n)) (x : String) :
    (update e n new x).SameSides (e x) := by
  by_cases hx : x = n
  · subst hx
    rwa [update_self]
  · rw [update_of_ne hx]
    rfl

def intDeclaration (storage : Storage) (name : String) (ptr : ℕ) : Declaration :=
  ⟨storage, 2, none, none, [⟨name, ptr, .int 32, none, false, [], []⟩]⟩

/-- `struct S g; void f(char *p) { int i; { int i; i; p; } for (i;;) { g; } }` and behind it
`void h(void) { static int n; n; }`. -/
def shadowUnit : List TopLevel :=
  [.global ⟨"g", 0, .struct 0, some "S"⟩,
    .func [⟨"p", 1, .ptr, none, none⟩] (.compound (.seq (.decl (intDeclaration .automatic "i" 2))
      (.seq (.compound (.seq (.decl (intDeclaration .automatic "i" 3))
          (.expr [.occurs "i", .occurs "p"])))
        (.for_ (.expr [.occurs "i"]) (.compound (.expr [.occurs "g"])))))),
    .func [] (.compound (.seq (.decl (intDeclaration .static "n" 4)) (.expr [.occurs "n"])))]

/-- `void f(void) { int i; for (int i;;) ; i; }` -/
def forUnit : List TopLevel :=
  [.func [] (.compound (.seq (.decl (intDeclaration .automatic "i" 0))
    (.seq (.for_ (.decl (intDeclaration .automatic "i" 1)) .skip) (.expr [.occurs "i"]))))]

end Units

end OpticC
