import OpticC.Types.StructLayout

/-! What a layout leaves as it was: the names and the types of the members, and their widths,
unless a width stands without an offset. The alignment is one of the members' or 1, and divides
the size in every build. -/

namespace OpticC.StructLayout

variable {o : Overflow} {T : TypeSystem}

/-- The bytes are placed, not yet the members. -/
structure Moves (st st' : LayoutState) : Prop where
  maxAlign : st'.maxAlign = st.maxAlign
  newMembers : st'.newMembers = st.newMembers

theorem Moves.refl (st : LayoutState) : Moves st st := ⟨rfl, rfl⟩

theorem Moves.trans {a b c : LayoutState} (h1 : Moves a b) (h2 : Moves b c) : Moves a c :=
  ⟨h2.maxAlign.trans h1.maxAlign, h2.newMembers.trans h1.newMembers⟩

theorem moves_closeUnit {st st' : LayoutState} (h : closeUnit o st = some st') : Moves st st' := by
  unfold closeUnit at h
  split at h
  · obtain ⟨offset, -, hresult⟩ := Option.bind_eq_some_iff.1 h
    cases hresult
    exact ⟨rfl, rfl⟩
  · cases h
    exact Moves.refl st

theorem moves_closeFullUnit {bitWidth : ℕ} {st st' : LayoutState}
    (h : closeFullUnit o bitWidth st = some st') : Moves st st' := by
  unfold closeFullUnit at h
  split at h
  · obtain ⟨bits, -, h⟩ := Option.bind_eq_some_iff.1 h
    obtain ⟨remaining, -, h⟩ := Option.bind_eq_some_iff.1 h
    split_ifs at h
    · exact moves_closeUnit h
    · cases h
      exact Moves.refl st
  · cases h
    exact Moves.refl st

theorem moves_openUnit {align size : ℕ} {st st' : LayoutState}
    (h : openUnit o align size st = some st') : Moves st st' := by
  unfold openUnit at h
  split at h
  · cases h
    exact Moves.refl st
  · obtain ⟨offset, -, hresult⟩ := Option.bind_eq_some_iff.1 h
    cases hresult
    exact ⟨rfl, rfl⟩

/-- The member with another place; its width may be dropped with its offset. -/
structure Kept (m placed : StructMember) : Prop where
  name : placed.name = m.name
  typeId : placed.typeId = m.typeId
  bitWidth : (m.bitOffset = none → m.bitWidth = none) → placed.bitWidth = m.bitWidth

/-- What one round of the loop does, whatever overflows. -/
structure Rounds (T : TypeSystem) (st : LayoutState) (m : StructMember) (st' : LayoutState) :
    Prop where
  maxAlign : st'.maxAlign = if T.alignOf m.typeId > st.maxAlign then T.alignOf m.typeId else st.maxAlign
  newMembers : ∃ placed, st'.newMembers = st.newMembers ++ [placed] ∧ Kept m placed

theorem rounds_placeBitField {m : StructMember} {bitWidth : ℕ} {st st' : LayoutState}
    (hwidth : m.bitWidth = some bitWidth) (h : placeBitField o T m bitWidth st = some st') :
    st'.maxAlign = st.maxAlign ∧
      ∃ placed, st'.newMembers = st.newMembers ++ [placed] ∧ Kept m placed := by
  obtain ⟨closed, hclosed, h⟩ := Option.bind_eq_some_iff.1 h
  obtain ⟨opened, hopened, h⟩ := Option.bind_eq_some_iff.1 h
  obtain ⟨used, -, hresult⟩ := Option.bind_eq_some_iff.1 h
  cases hresult
  have hmoves := (moves_closeFullUnit hclosed).trans (moves_openUnit hopened)
  exact ⟨hmoves.maxAlign, _, congrArg (· ++ _) hmoves.newMembers, rfl, rfl, fun _ => hwidth.symm⟩

theorem rounds_placeBytes {m : StructMember} {bitOffset bitWidth : Option ℕ} {st st' : LayoutState}
    (hwidth : (m.bitOffset = none → m.bitWidth = none) → bitWidth = m.bitWidth)
    (h : placeBytes o T m bitOffset bitWidth st = some st') :
    st'.maxAlign = st.maxAlign ∧
      ∃ placed, st'.newMembers = st.newMembers ++ [placed] ∧ Kept m placed := by
  obtain ⟨closed, hclosed, h⟩ := Option.bind_eq_some_iff.1 h
  obtain ⟨offset, -, h⟩ := Option.bind_eq_some_iff.1 h
  obtain ⟨end_, -, hresult⟩ := Option.bind_eq_some_iff.1 h
  cases hresult
  have hmoves := moves_closeUnit hclosed
  exact ⟨hmoves.maxAlign, _, congrArg (· ++ _) hmoves.newMembers, rfl, rfl, hwidth⟩

theorem rounds_layoutMember {m : StructMember} {st st' : LayoutState}
    (h : layoutMember o T st m = some st') : Rounds T st m st' := by
  unfold layoutMember at h
  dsimp only at h
  generalize hraised : LayoutState.mk st.offset
    (if T.alignOf m.typeId > st.maxAlign then T.alignOf m.typeId else st.maxAlign) _ _ _ _ = raised at h
  subst hraised
  split at h
  · next bitOff bitWidth hoffset hwidth =>
    by_cases hshares : bitOff = 0 ∧ 0 < bitWidth
    · rw [if_pos hshares] at h
      have hround := rounds_placeBitField hwidth h
      exact ⟨hround.1, hround.2⟩
    · rw [if_neg hshares] at h
      have hround := rounds_placeBytes (fun _ => rfl) h
      exact ⟨hround.1, hround.2⟩
  · next hnone =>
    have hwidth (hboth : m.bitOffset = none → m.bitWidth = none) : none = m.bitWidth := by
      cases hoffset : m.bitOffset with
      | none => exact (hboth hoffset).symm
      | some bitOff =>
        cases hw : m.bitWidth with
        | none => rfl
        | some bitWidth => exact (hnone bitOff bitWidth hoffset hw).elim
    have hround := rounds_placeBytes hwidth h
    exact ⟨hround.1, hround.2⟩

/-- What a property of alignments that 1 has says of the loop. -/
theorem rounds_layoutMembers {p : ℕ → Prop} {ms : List StructMember} {st st' : LayoutState}
    (hp : ∀ m ∈ ms, p (T.alignOf m.typeId)) (hstart : p st.maxAlign)
    (h : ms.foldlM (layoutMember o T) st = some st') :
    p st'.maxAlign ∧ ∃ placed, st'.newMembers = st.newMembers ++ placed ∧ List.Forall₂ Kept ms placed := by
  induction ms generalizing st with
  | nil =>
    cases h
    exact ⟨hstart, [], (List.append_nil _).symm, .nil⟩
  | cons m ms ih =>
    rw [List.foldlM_cons] at h
    obtain ⟨next, hnext, h⟩ := Option.bind_eq_some_iff.1 h
    have hround := rounds_layoutMember hnext
    have halign : p next.maxAlign := by
      rw [hround.maxAlign]
      split_ifs
      · exact hp m List.mem_cons_self
      · exact hstart
    obtain ⟨hmax, rest, hrest, hkept⟩ := ih (fun m hm => hp m (List.mem_cons_of_mem _ hm)) halign h
    obtain ⟨placed, hplaced, hm⟩ := hround.newMembers
    refine ⟨hmax, placed :: rest, ?_, .cons hm hkept⟩
    rw [hrest, hplaced, List.append_assoc]
    rfl

theorem unionAlign {p : ℕ → Prop} {ms : List StructMember} {a : ℕ}
    (hp : ∀ m ∈ ms, p (T.alignOf m.typeId)) (ha : p a) :
    p (ms.foldl (fun a m => if T.alignOf m.typeId > a then T.alignOf m.typeId else a) a) := by
  induction ms generalizing a with
  | nil => exact ha
  | cons m ms ih =>
    rw [List.foldl_cons]
    refine ih (fun m hm => hp m (List.mem_cons_of_mem _ hm)) ?_
    split_ifs
    · exact hp m List.mem_cons_self
    · exact ha

theorem kept_union (ms : List StructMember) :
    List.Forall₂ Kept ms (ms.map fun m => { m with offset := 0 }) := by
  rw [List.forall₂_map_right_iff, List.forall₂_same]
  exact fun m _ => ⟨rfl, rfl, fun _ => rfl⟩

/-- The members of a layout are those of the type, and its alignment is a member's or 1. -/
theorem computeLayoutInfo_keeps {p : ℕ → Prop} {ms : List StructMember} {isUnion : Bool}
    {info : LayoutInfo} (hone : p 1) (hp : ∀ m ∈ ms, p (T.alignOf m.typeId))
    (h : computeLayoutInfo o T ms isUnion = some info) :
    p info.align ∧ List.Forall₂ Kept ms info.members := by
  cases isUnion with
  | true =>
    obtain ⟨size, -, hinfo⟩ := Option.bind_eq_some_iff.1 h
    cases hinfo
    exact ⟨unionAlign hp hone, kept_union ms⟩
  | false =>
    obtain ⟨st, hst, h⟩ := Option.bind_eq_some_iff.1 h
    obtain ⟨closed, hclosed, h⟩ := Option.bind_eq_some_iff.1 h
    obtain ⟨size, -, hinfo⟩ := Option.bind_eq_some_iff.1 h
    cases hinfo
    obtain ⟨halign, placed, hplaced, hkept⟩ := rounds_layoutMembers hp hone hst
    have hmoves := moves_closeUnit hclosed
    refine ⟨?_, ?_⟩
    · rw [← hmoves.maxAlign] at halign
      exact halign
    · rw [show closed.newMembers = placed from hmoves.newMembers.trans hplaced]
      exact hkept

theorem Overflow.word_dvd {w a n v : ℕ} (ha : a ∣ n) (hw : a ∣ 2 ^ w) (h : o.word w n = some v) :
    a ∣ v := by
  unfold word at h
  split_ifs at h
  · cases h
    exact ha
  · cases o with
    | panics => cases h
    | wraps =>
      cases h
      exact (Nat.dvd_mod_iff hw).2 ha

theorem roundSize_dvd {size align v : ℕ} (halign : align ∣ 2 ^ 64) (h : roundSize o size align = some v) :
    align ∣ v := by
  have hpos : 0 < align := Nat.pos_of_dvd_of_pos halign (Nat.two_pow_pos 64)
  rw [roundSize, if_pos hpos] at h
  obtain ⟨sum, -, h⟩ := Option.bind_eq_some_iff.1 h
  obtain ⟨last, -, h⟩ := Option.bind_eq_some_iff.1 h
  rw [if_neg (Nat.ne_of_gt hpos)] at h
  exact Overflow.word_dvd (Nat.dvd_mul_left align _) halign h

/-- The size is a multiple of the alignment, also where it wraps. -/
theorem computeLayoutInfo_dvd {ms : List StructMember} {isUnion : Bool} {info : LayoutInfo}
    (halign : info.align ∣ 2 ^ 64) (h : computeLayoutInfo o T ms isUnion = some info) :
    info.align ∣ info.size := by
  cases isUnion with
  | true =>
    obtain ⟨size, hsize, hinfo⟩ := Option.bind_eq_some_iff.1 h
    cases hinfo
    exact roundSize_dvd halign hsize
  | false =>
    obtain ⟨st, -, h⟩ := Option.bind_eq_some_iff.1 h
    obtain ⟨closed, -, h⟩ := Option.bind_eq_some_iff.1 h
    obtain ⟨size, hsize, hinfo⟩ := Option.bind_eq_some_iff.1 h
    cases hinfo
    exact roundSize_dvd halign hsize

section Wrapping

/-! In a release build only a division by zero stops a layout. -/

theorem word_wraps (w n : ℕ) : (Overflow.wraps.word w n).isSome := by
  unfold Overflow.word
  split_ifs <;> rfl

theorem sub_wraps (w a b : ℕ) : (Overflow.wraps.sub w a b).isSome := by
  unfold Overflow.sub
  split_ifs <;> rfl

theorem isSome_bind {α β : Type} {x : Option α} {f : α → Option β} (hx : x.isSome)
    (hf : ∀ a, (f a).isSome) : (x.bind f).isSome := by
  obtain ⟨a, rfl⟩ := Option.isSome_iff_exists.1 hx
  exact hf a

theorem alignOffset_wraps {align : ℕ} (h : align ≠ 0) (offset : ℕ) :
    (alignOffset .wraps offset align).isSome := by
  refine isSome_bind (word_wraps _ _) fun sum => isSome_bind (sub_wraps _ _ _) fun last => ?_
  rw [if_neg h]
  exact word_wraps _ _

theorem closeUnit_wraps (st : LayoutState) : (closeUnit .wraps st).isSome := by
  unfold closeUnit
  split
  · exact isSome_bind (word_wraps _ _) fun _ => rfl
  · rfl

theorem closeFullUnit_wraps (bitWidth : ℕ) (st : LayoutState) :
    (closeFullUnit .wraps bitWidth st).isSome := by
  unfold closeFullUnit
  split
  · refine isSome_bind (word_wraps _ _) fun bits => isSome_bind (sub_wraps _ _ _) fun remaining => ?_
    split_ifs
    · exact closeUnit_wraps st
    · rfl
  · rfl

theorem openUnit_wraps {align : ℕ} (h : align ≠ 0) (size : ℕ) (st : LayoutState) :
    (openUnit .wraps align size st).isSome := by
  unfold openUnit
  split
  · rfl
  · exact isSome_bind (alignOffset_wraps h _) fun _ => rfl

theorem layoutMember_wraps {m : StructMember} (h : T.alignOf m.typeId ≠ 0) (st : LayoutState) :
    (layoutMember .wraps T st m).isSome := by
  have hbytes (bitOffset bitWidth : Option ℕ) (st : LayoutState) :
      (placeBytes .wraps T m bitOffset bitWidth st).isSome :=
    isSome_bind (closeUnit_wraps st) fun _ => isSome_bind (alignOffset_wraps h _) fun _ =>
      isSome_bind (word_wraps _ _) fun _ => rfl
  unfold layoutMember
  dsimp only
  split
  · next bitOff bitWidth _ _ =>
    by_cases hshares : bitOff = 0 ∧ 0 < bitWidth
    · rw [if_pos hshares]
      exact isSome_bind (closeFullUnit_wraps _ _) fun _ => isSome_bind (openUnit_wraps h _ _) fun _ =>
        isSome_bind (word_wraps _ _) fun _ => rfl
    · rw [if_neg hshares]
      exact hbytes _ _ _
  · exact hbytes _ _ _

theorem layoutMembers_wraps {ms : List StructMember} (h : ∀ m ∈ ms, T.alignOf m.typeId ≠ 0)
    (st : LayoutState) : (ms.foldlM (layoutMember .wraps T) st).isSome := by
  induction ms generalizing st with
  | nil => rfl
  | cons m ms ih =>
    rw [List.foldlM_cons]
    exact isSome_bind (layoutMember_wraps (h m List.mem_cons_self) st)
      (ih fun m hm => h m (List.mem_cons_of_mem _ hm))

theorem computeLayoutInfo_wraps {ms : List StructMember} (h : ∀ m ∈ ms, T.alignOf m.typeId ≠ 0)
    (isUnion : Bool) : (computeLayoutInfo .wraps T ms isUnion).isSome := by
  have hround (size maxAlign : ℕ) : (roundSize .wraps size maxAlign).isSome := by
    unfold roundSize
    split_ifs with hpos
    · exact alignOffset_wraps (Nat.ne_of_gt hpos) size
    · rfl
  cases isUnion with
  | true => exact isSome_bind (hround _ _) fun _ => rfl
  | false =>
    exact isSome_bind (layoutMembers_wraps h _) fun _ => isSome_bind (closeUnit_wraps _) fun _ =>
      isSome_bind (hround _ _) fun _ => rfl

end Wrapping

end OpticC.StructLayout
