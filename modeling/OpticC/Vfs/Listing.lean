import OpticC.Vfs.Contents

/-! Directories listed over several calls of `readdir`, each from the offset that came with the
last entry of the call before. The root counts its children from 0, but hands out 2 with the first
of them, and its dots come last with 1 and 2; other directories do not look at the offset. -/

namespace OpticC.Vfs

structure DirEntry where
  ino : ℕ
  offset : ℕ
  kind : FileType
  name : String
  deriving DecidableEq

section Code

variable (v : Vfs)

/-- The entries of the children with an index that is not below `offset`. -/
def childEntries (node : VfsNode) (offset : ℕ) : List DirEntry :=
  node.children.zipIdx.filterMap fun child =>
    if child.2 ≥ offset then
      (v.fileNodes child.1).map fun n => ⟨child.1, child.2 + 2, n.fileType, n.name⟩
    else none

/-- The dots of the root. -/
def rootDots (offset : ℕ) : List DirEntry :=
  ([(FUSE_ROOT_ID, FileType.directory, "."), (FUSE_ROOT_ID, FileType.directory, "..")].zipIdx).filterMap
    fun entry =>
      if entry.2 ≥ offset then some ⟨entry.1.1, entry.2 + 1, entry.1.2.1, entry.1.2.2⟩ else none

/-- The entries that are added to the reply. -/
def readdir (ino offset : ℕ) : Except Errno (List DirEntry) :=
  if ino = FUSE_ROOT_ID then
    .ok ((v.fileNodes ino).elim [] (v.childEntries · offset) ++ rootDots offset)
  else
    match v.fileNodes ino with
    | none => .error .ENOENT
    | some node =>
      if node.fileType = .directory then
        .ok ([⟨ino, 0, .directory, "."⟩, ⟨node.parent, 1, .directory, ".."⟩] ++ v.childEntries node 0)
      else .error .ENOTDIR

/-- Calls until nothing is reported, or for as many cuts as there are: of each reply the first
entry and as many more as the cut says are taken. -/
def session (ino : ℕ) : List ℕ → ℕ → List DirEntry × Bool
  | [], _ => ([], false)
  | cut :: cuts, offset =>
    match v.readdir ino offset with
    | .ok (entry :: entries) =>
      let taken := entry :: entries.take cut
      let (rest, ended) := session ino cuts (taken.getLast (List.cons_ne_nil _ _)).offset
      (taken ++ rest, ended)
    | .ok [] => ([], true)
    | .error _ => ([], false)

end Code

section Specification

variable (v : Vfs)

/-- An entry without the offset. -/
def DirEntry.what (entry : DirEntry) : ℕ × FileType × String := (entry.ino, entry.kind, entry.name)

def parentOf (ino : ℕ) (node : VfsNode) : ℕ := if ino = FUSE_ROOT_ID then FUSE_ROOT_ID else node.parent

/-- The dots and the children. -/
def contents (ino : ℕ) (node : VfsNode) : List (ℕ × FileType × String) :=
  [(ino, .directory, "."), (parentOf ino node, .directory, "..")] ++
    (v.childEntries node 0).map DirEntry.what

/-- However the replies are cut, the calls come to an end and have reported everything once. -/
def ListsAll (ino : ℕ) (node : VfsNode) : Prop :=
  ∀ cuts : ℕ → ℕ, ∃ rounds, (v.session ino ((List.range rounds).map cuts) 0).2 = true ∧
    ((v.session ino ((List.range rounds).map cuts) 0).1.map DirEntry.what).Perm (v.contents ino node)

end Specification

section Directories

variable {v : Vfs} {ino : ℕ} {node : VfsNode}

/-- A directory other than the root has its dots in every reply. -/
theorem session_endless (hnode : v.fileNodes ino = some node) (hdir : node.fileType = .directory)
    (hroot : ino ≠ FUSE_ROOT_ID) (cuts : List ℕ) (offset : ℕ) : (v.session ino cuts offset).2 = false := by
  induction cuts generalizing offset with
  | nil => rfl
  | cons cut cuts ih =>
    have hread : v.readdir ino offset = .ok (⟨ino, 0, .directory, "."⟩ ::
        ⟨node.parent, 1, .directory, ".."⟩ :: v.childEntries node 0) := by
      rw [readdir, if_neg hroot, hnode]
      exact if_pos hdir
    rw [session, hread]
    exact ih _

theorem childEntries_filter (v : Vfs) (node : VfsNode) {offset offset' : ℕ} (hle : offset ≤ offset') :
    v.childEntries node offset' =
      (v.childEntries node offset).filter fun entry => offset' + 2 ≤ entry.offset := by
  unfold childEntries
  rw [List.filter_filterMap]
  refine List.filterMap_congr fun child _ => ?_
  by_cases hchild : child.2 ≥ offset'
  · rw [if_pos hchild, if_pos (Nat.le_trans hle hchild)]
    cases v.fileNodes child.1 with
    | none => rfl
    | some n =>
      rw [Option.map_some, Option.filter_some_pos]
      simpa using hchild
  · rw [if_neg hchild]
    split_ifs
    · cases v.fileNodes child.1 with
      | none => rfl
      | some n =>
        rw [Option.map_some, Option.filter_some_neg]
        simpa using hchild
    · rfl

theorem rootDots_of_two_le {offset : ℕ} (h : 2 ≤ offset) : rootDots offset = [] := by
  simp only [rootDots, List.zipIdx_cons, List.zipIdx_nil, List.filterMap_cons, List.filterMap_nil]
  rw [if_neg (by omega), if_neg (by omega)]

/-- Taken one by one, the entries of a session are children, each once at most. -/
theorem length_session_le (hnode : v.fileNodes FUSE_ROOT_ID = some node) (rounds offset : ℕ)
    (h : 2 ≤ offset ∨ v.childEntries node offset ≠ []) :
    (v.session FUSE_ROOT_ID (List.replicate rounds 0) offset).1.length ≤
      (v.childEntries node offset).length := by
  induction rounds generalizing offset with
  | zero => exact Nat.zero_le _
  | succ rounds ih =>
    have hread : v.readdir FUSE_ROOT_ID offset = .ok (v.childEntries node offset ++ rootDots offset) := by
      rw [readdir, if_pos rfl, hnode]
      rfl
    rw [List.replicate_succ, session, hread]
    cases hentries : v.childEntries node offset with
    | nil =>
      rw [rootDots_of_two_le (h.resolve_right fun hne => hne hentries)]
      exact Nat.le_refl 0
    | cons entry entries =>
      have hoffset : ∃ i, offset ≤ i ∧ entry.offset = i + 2 := by
        have hmem : entry ∈ v.childEntries node offset := hentries ▸ List.mem_cons_self
        obtain ⟨child, -, hchild⟩ := List.mem_filterMap.1 hmem
        split_ifs at hchild with hge
        obtain ⟨n, -, rfl⟩ := Option.map_eq_some_iff.1 hchild
        exact ⟨child.2, hge, rfl⟩
      obtain ⟨i, hi, hentry⟩ := hoffset
      have hnext := ih entry.offset (.inl (by omega))
      have hfewer : (v.childEntries node entry.offset).length ≤ entries.length := by
        rw [childEntries_filter v node (show offset ≤ entry.offset by omega), hentries,
          List.filter_cons_of_neg (by simp)]
        exact List.length_filter_le _ _
      exact Nat.succ_le_succ (Nat.le_trans hnext hfewer)

/-- The root without children reports its dots, together or one after the other. -/
theorem session_rootDots (hnode : v.fileNodes FUSE_ROOT_ID = some node)
    (hnone : v.childEntries node 0 = []) (cuts : ℕ → ℕ) :
    ∃ rounds, v.session FUSE_ROOT_ID ((List.range rounds).map cuts) 0 = (rootDots 0, true) := by
  have hread (offset : ℕ) : v.readdir FUSE_ROOT_ID offset = .ok (rootDots offset) := by
    rw [readdir, if_pos rfl, hnode, Option.elim_some, childEntries_filter v node (Nat.zero_le offset),
      hnone]
    rfl
  cases hcut : cuts 0 with
  | zero =>
    refine ⟨3, ?_⟩
    simp [List.range_succ, session, hread, hcut, rootDots]
  | succ cut =>
    refine ⟨2, ?_⟩
    simp [List.range_succ, session, hread, hcut, rootDots]

/-- Only the root is listed, and only while it has no children. -/
theorem listsAll_iff (v : Vfs) (ino : ℕ) (node : VfsNode) (hnode : v.fileNodes ino = some node)
    (hdir : node.fileType = .directory) :
    v.ListsAll ino node ↔ ino = FUSE_ROOT_ID ∧ v.childEntries node 0 = [] := by
  constructor
  · intro hlists
    obtain rfl : ino = FUSE_ROOT_ID := by
      by_contra hroot
      obtain ⟨rounds, hended, -⟩ := hlists fun _ => 0
      rw [session_endless hnode hdir hroot] at hended
      cases hended
    refine ⟨rfl, ?_⟩
    by_contra hchildren
    obtain ⟨rounds, -, hall⟩ := hlists fun _ => 0
    have hle := length_session_le hnode rounds 0 (.inr hchildren)
    have hlength := hall.length_eq
    rw [List.length_map, List.map_const', List.length_range] at hlength
    rw [hlength, contents, List.length_append, List.length_map] at hle
    exact absurd hle (by simp)
  · rintro ⟨rfl, hnone⟩ cuts
    obtain ⟨rounds, hsession⟩ := session_rootDots hnode hnone cuts
    refine ⟨rounds, by rw [hsession], ?_⟩
    rw [hsession, contents, hnone]
    exact List.Perm.refl _

theorem listsAll_new : Vfs.new.ListsAll FUSE_ROOT_ID rootNode :=
  (listsAll_iff Vfs.new FUSE_ROOT_ID rootNode rfl rfl).2 ⟨rfl, rfl⟩

/-- The directory `.optic` of a new file system. -/
theorem not_listsAll_optic :
    ¬ Vfs.new.addDirs.2.ListsAll 2 ⟨".optic", 2, .directory, none, [3], FUSE_ROOT_ID⟩ := by
  intro h
  obtain ⟨rounds, hended, -⟩ := h fun _ => 0
  rw [session_endless (show Vfs.new.addDirs.2.fileNodes 2 = some _ from rfl) rfl (by decide)] at hended
  cases hended

end Directories

end OpticC.Vfs
