import OpticC.Vfs.Contents

/-! Files read by their paths. `read_file` asks for the prefix `.optic/vfs/src` and then looks for
the rest of the path from the root on, where `.optic` is the only name, not from `src` on. -/

namespace OpticC.Vfs

section Definitions

variable (v : Vfs)

/-- The names on the way from the root to an inode. -/
inductive PathTo : ℕ → List String → Prop
  | root : PathTo FUSE_ROOT_ID []
  | child {parent inode : ℕ} {names : List String} {node n : VfsNode} (h : PathTo parent names)
      (hparent : v.fileNodes parent = some node) (hmem : inode ∈ node.children)
      (hchild : v.fileNodes inode = some n) : PathTo inode (names ++ [n.name])

/-- A regular file below `.optic/vfs/src`. -/
structure FileAt (inode : ℕ) (names : List String) (content : List UInt8) : Prop where
  path : v.PathTo inode names
  below : [".optic", "vfs", "src"] <+: names
  file : ∃ node, v.fileNodes inode = some node ∧ node.fileType = .regularFile ∧
    node.content = some content

def pathOf (names : List String) : String :=
  String.ofList (['/'].intercalate (names.map String.toList))

/-- Every file is read by the names from the root, no two by the same, and nothing else is read. -/
structure Readable (analysis : AliasAnalyzer) : Prop where
  read : ∀ inode names content, v.FileAt inode names content →
    v.readFile analysis (pathOf names) = some (served analysis content)
  distinct : ∀ inode inode' names content content', v.FileAt inode names content →
    v.FileAt inode' names content' → inode = inode'
  others : ∀ path, (∀ inode names content, v.FileAt inode names content → path ≠ pathOf names) →
    v.readFile analysis path = none

end Definitions

/-- The arena has no root node, or one that is not valid. -/
def NoRoot (a : Arena) : Prop :=
  ∀ root node, findRootNode a = some root → a.get root = some node → node.isValid = false

section Projection

variable {v v' : Vfs} {a : Arena}

/-- The directories, from the inode `n` on; `files` is what `src` holds. -/
structure Dirs (v : Vfs) (n : ℕ) (files : List ℕ) : Prop where
  root_lt : FUSE_ROOT_ID < n
  next : n + 3 ≤ v.nextInode
  root : v.fileNodes FUSE_ROOT_ID = some { rootNode with children := [n] }
  optic : v.fileNodes n = some ⟨".optic", n, .directory, none, [n + 1], FUSE_ROOT_ID⟩
  vfs : v.fileNodes (n + 1) = some ⟨"vfs", n + 1, .directory, none, [n + 2], n⟩
  src : v.fileNodes (n + 2) = some ⟨"src", n + 2, .directory, none, files, n + 1⟩

theorem link_other {parent inode k : ℕ} {node : VfsNode} (hparent : k ≠ parent) (hinode : k ≠ inode) :
    (v.link parent inode node).fileNodes k = v.fileNodes k := by
  change Function.update (Function.update _ _ _) _ _ k = _
  rw [Function.update_of_ne hinode, Function.update_of_ne hparent]

theorem link_self {parent inode : ℕ} {node : VfsNode} :
    (v.link parent inode node).fileNodes inode = some node := Function.update_self _ _ _

theorem link_parent {parent inode : ℕ} {node p : VfsNode} (hne : parent ≠ inode)
    (hp : v.fileNodes parent = some p) :
    (v.link parent inode node).fileNodes parent = some { p with children := p.children ++ [inode] } := by
  change Function.update (Function.update _ _ _) _ _ parent = _
  rw [Function.update_of_ne hne, Function.update_self, hp]
  rfl

theorem dirs_addDirs (v : Vfs) : Dirs v.addDirs.2 v.nextInode [] := by
  have hroot : FUSE_ROOT_ID < v.nextInode := v.root_lt
  have hroot0 : FUSE_ROOT_ID ≠ v.nextInode := Nat.ne_of_lt hroot
  have hroot1 : FUSE_ROOT_ID ≠ v.nextInode + 1 := by omega
  have hroot2 : FUSE_ROOT_ID ≠ v.nextInode + 2 := by omega
  have hnext (n : ℕ) : n ≠ n + 1 ∧ n ≠ n + 2 := by omega
  have hinit : v.initRoot.fileNodes FUSE_ROOT_ID = some rootNode := by
    simp only [initRoot, Function.update_self]
  refine ⟨hroot, Nat.le_refl _, ?_, ?_, ?_, link_self⟩
  · exact (link_other hroot1 hroot2).trans
      ((link_other hroot0 hroot1).trans (link_parent (v := v.initRoot.takeInode.2) hroot0 hinit))
  · exact (link_other (hnext v.nextInode).1 (hnext v.nextInode).2).trans
      (link_parent (hnext v.nextInode).1 link_self)
  · exact link_parent (hnext (v.nextInode + 1)).1 link_self

/-- A node keeps all but its children. -/
def Kept (v v' : Vfs) : Prop :=
  ∀ k < v.nextInode, ∀ node, v.fileNodes k = some node →
    ∃ children, v'.fileNodes k = some { node with children := children }

theorem Kept.refl (v : Vfs) : Kept v v := fun _ _ node h => ⟨node.children, h⟩

theorem Kept.trans {u : Vfs} (hnext : u.nextInode ≤ v.nextInode) (h1 : Kept u v) (h2 : Kept v v') :
    Kept u v' := by
  intro k hk node hnode
  obtain ⟨children, hchildren⟩ := h1 k hk node hnode
  obtain ⟨children', hchildren'⟩ := h2 k (Nat.lt_of_lt_of_le hk hnext) _ hchildren
  exact ⟨children', hchildren'⟩

theorem kept_addFile (v : Vfs) (parent : ℕ) (name : String) (content : List UInt8) :
    Kept v (v.addFile parent name content).2 := by
  intro k hk node hnode
  have hne : k ≠ v.nextInode := Nat.ne_of_lt hk
  by_cases hparent : k = parent
  · subst hparent
    exact ⟨_, link_parent (v := v.takeInode.2) hne hnode⟩
  · exact ⟨node.children, (link_other (v := v.takeInode.2) hparent hne).trans hnode⟩

/-- The loop changes no node below its parents, and of the others their children only. -/
theorem reconstructTree_frame {m fuel : ℕ} {queue : List (ℕ × ℕ)} (hqueue : ∀ q ∈ queue, m ≤ q.2)
    (hm : m ≤ v.nextInode) (h : reconstructTree a fuel queue v = some v') :
    (∀ k < m, v'.fileNodes k = v.fileNodes k) ∧ Kept v v' ∧ v.nextInode ≤ v'.nextInode := by
  induction fuel generalizing queue v with
  | zero =>
    cases queue with
    | nil =>
      cases h
      exact ⟨fun _ _ => rfl, Kept.refl _, Nat.le_refl _⟩
    | cons => cases h
  | succ fuel ih =>
    cases queue with
    | nil =>
      cases h
      exact ⟨fun _ _ => rfl, Kept.refl _, Nat.le_refl _⟩
    | cons q queue =>
      have hrest : ∀ q ∈ queue, m ≤ q.2 := fun q hq => hqueue q (List.mem_cons_of_mem _ hq)
      have hparent : m ≤ q.2 := hqueue q List.mem_cons_self
      rw [reconstructTree] at h
      cases hget : a.get q.1 with
      | none =>
        rw [hget] at h
        exact ih hrest hm h
      | some node =>
        rw [hget] at h
        dsimp only at h
        split_ifs at h
        · obtain ⟨content, -, h⟩ := Option.bind_eq_some_iff.1 h
          obtain ⟨children, -, h⟩ := Option.bind_eq_some_iff.1 h
          have hnew : ∀ q' ∈ (children.map fun child => (child.1, v.nextInode)).reverse ++ queue, m ≤ q'.2 := by
            intro q' hq'
            rcases List.mem_append.1 hq' with hq' | hq'
            · obtain ⟨child, -, rfl⟩ := List.mem_map.1 (List.mem_reverse.1 hq')
              exact hm
            · exact hrest q' hq'
          obtain ⟨hsame, hkept, hnext⟩ := ih (v := (v.addFile q.2 (getNodeName a node) content).2) hnew
            (Nat.le_succ_of_le hm) h
          refine ⟨fun k hk => ?_, Kept.trans (Nat.le_succ _) (kept_addFile v _ _ _) hkept,
            Nat.le_trans (Nat.le_succ _) hnext⟩
          rw [hsame k hk]
          exact link_other (v := v.takeInode.2) (Nat.ne_of_lt (Nat.lt_of_lt_of_le hk hparent))
            (Nat.ne_of_lt (Nat.lt_of_lt_of_le hk hm))
        · exact ih hrest hm h

theorem Dirs.of_same {n : ℕ} {files : List ℕ} (h : Dirs v n files) (hnext : v.nextInode ≤ v'.nextInode)
    (hsame : ∀ k < n + 3, v'.fileNodes k = v.fileNodes k) : Dirs v' n files where
  root_lt := h.root_lt
  next := Nat.le_trans h.next hnext
  root := (hsame _ (by have := h.root_lt; omega)).trans h.root
  optic := (hsame _ (by omega)).trans h.optic
  vfs := (hsame _ (by omega)).trans h.vfs
  src := (hsame _ (by omega)).trans h.src

/-- A file in `src`. -/
theorem Dirs.addFile {n : ℕ} (h : Dirs v n []) (hn : v.nextInode = n + 3) (name : String)
    (content : List UInt8) : Dirs (v.addFile (n + 2) name content).2 n [n + 3] := by
  have hroot := h.root_lt
  have hother {k : ℕ} (hparent : k ≠ n + 2) (hk : k < n + 3) :
      (v.addFile (n + 2) name content).2.fileNodes k = v.fileNodes k :=
    link_other (v := v.takeInode.2) hparent (by omega)
  refine ⟨hroot, Nat.le_succ_of_le h.next, ?_, ?_, ?_, ?_⟩
  · exact (hother (by omega) (by omega)).trans h.root
  · exact (hother (by omega) (by omega)).trans h.optic
  · exact (hother (by omega) (by omega)).trans h.vfs
  · rw [← hn]
    exact link_parent (v := v.takeInode.2) (by omega) h.src

/-- A valid root node becomes the one file in `src`. -/
theorem exists_rootFile {fuel root : ℕ} {node : CAstNode} (hroot : findRootNode a = some root)
    (hget : a.get root = some node) (hvalid : node.isValid = true)
    (h : v.reconstructFromArena a fuel = some v') :
    Dirs v' v.nextInode [v.nextInode + 3] ∧ ∃ content children,
      v'.fileNodes (v.nextInode + 3) = some ⟨getNodeName a node, v.nextInode + 3, .regularFile,
        some content, children, v.nextInode + 2⟩ := by
  have htree : reconstructTree a fuel [(root, v.nextInode + 2)] v.addDirs.2 = some v' := by
    rw [reconstructFromArena, hroot] at h
    exact h
  cases fuel with
  | zero => cases htree
  | succ fuel =>
    rw [reconstructTree, hget] at htree
    dsimp only at htree
    rw [if_pos hvalid] at htree
    obtain ⟨content, -, htree⟩ := Option.bind_eq_some_iff.1 htree
    obtain ⟨children, -, htree⟩ := Option.bind_eq_some_iff.1 htree
    have hqueue : ∀ q ∈ (children.map fun child => (child.1, v.nextInode + 3)).reverse ++ [],
        v.nextInode + 3 ≤ q.2 := by
      intro q hq
      rw [List.append_nil, List.mem_reverse] at hq
      obtain ⟨child, -, rfl⟩ := List.mem_map.1 hq
      exact Nat.le_refl _
    have hfile := (dirs_addDirs v).addFile rfl (getNodeName a node) content
    obtain ⟨hsame, hkept, hnext⟩ := reconstructTree_frame
      (v := (v.addDirs.2.addFile (v.nextInode + 2) (getNodeName a node) content).2) hqueue
      (Nat.le_succ _) htree
    refine ⟨hfile.of_same hnext hsame, content, ?_⟩
    exact hkept (v.nextInode + 3) (Nat.lt_succ_self _) _ (link_self (v := v.addDirs.2.takeInode.2))

/-- Without a valid root node there are the directories only. -/
theorem dirs_of_noRoot {fuel : ℕ} (hnone : NoRoot a) (h : v.reconstructFromArena a fuel = some v') :
    Dirs v' v.nextInode [] := by
  have hdirs := dirs_addDirs v
  cases hroot : findRootNode a with
  | none =>
    rw [reconstructFromArena, hroot] at h
    cases h
    exact hdirs
  | some root =>
    rw [reconstructFromArena, hroot] at h
    cases fuel with
    | zero => cases h
    | succ fuel =>
      cases hget : a.get root with
      | none =>
        simp only [reconstructTree, hget] at h
        cases h
        exact hdirs
      | some node =>
        simp only [reconstructTree, hget, hnone root node hroot hget, Bool.false_eq_true, if_false] at h
        cases h
        exact hdirs

end Projection

section Walks

variable {v : Vfs} {n : ℕ}

theorem walk_single {inode child : ℕ} {node c : VfsNode} {part : String} {parts : List String}
    (hnode : v.fileNodes inode = some node) (hchildren : node.children = [child])
    (hchild : v.fileNodes child = some c) :
    v.walk inode (part :: parts) = if c.name = part then v.walk child parts else none := by
  rw [walk, hnode]
  dsimp only
  rw [findChild, hchildren]
  by_cases hname : c.name = part <;> simp [hchild, hname]

/-- From a set of nodes with all their children no other node is reached. -/
theorem walk_mem {S : ℕ → Prop}
    (hclosed : ∀ i, S i → ∀ node, v.fileNodes i = some node → ∀ c ∈ node.children, S c)
    {inode found : ℕ} {parts : List String} (h : S inode) (hwalk : v.walk inode parts = some found) :
    S found := by
  induction parts generalizing inode with
  | nil =>
    cases hwalk
    exact h
  | cons part parts ih =>
    rw [walk] at hwalk
    cases hnode : v.fileNodes inode with
    | none =>
      rw [hnode] at hwalk
      cases hwalk
    | some node =>
      rw [hnode] at hwalk
      dsimp only at hwalk
      cases hfind : v.findChild node part with
      | none =>
        rw [hfind] at hwalk
        cases hwalk
      | some child =>
        rw [hfind] at hwalk
        exact ih (hclosed inode h node hnode child (List.mem_of_find?_eq_some hfind)) hwalk

theorem pathTo_mem {S : ℕ → Prop}
    (hclosed : ∀ i, S i → ∀ node, v.fileNodes i = some node → ∀ c ∈ node.children, S c)
    (hroot : S FUSE_ROOT_ID) {inode : ℕ} {names : List String} (h : v.PathTo inode names) : S inode := by
  induction h with
  | root => exact hroot
  | child _ hparent hmem _ ih => exact hclosed _ ih _ hparent _ hmem

/-- A node without content is not read. -/
theorem readFile_eq_none {analysis : AliasAnalyzer} {path : String}
    (h : ∀ inode node, v.walk FUSE_ROOT_ID ((pathParts path).drop 3) = some inode →
      v.fileNodes inode = some node → node.content = none) : v.readFile analysis path = none := by
  rw [readFile]
  split_ifs
  · rfl
  cases hwalk : v.walk FUSE_ROOT_ID ((pathParts path).drop 3) with
  | none => rfl
  | some inode =>
    cases hnode : v.fileNodes inode with
    | none => simp [hnode]
    | some node => simp [hnode, h inode node hwalk hnode]

/-- The inodes of the directories. -/
def DirInode (n i : ℕ) : Prop := i = FUSE_ROOT_ID ∨ i = n ∨ i = n + 1 ∨ i = n + 2

theorem Dirs.isDirectory {files : List ℕ} (h : Dirs v n files) {i : ℕ} (hi : DirInode n i)
    {node : VfsNode} (hnode : v.fileNodes i = some node) :
    node.fileType = .directory ∧ node.content = none := by
  rcases hi with rfl | rfl | rfl | rfl
  · rw [h.root] at hnode
    cases hnode
    exact ⟨rfl, rfl⟩
  · rw [h.optic] at hnode
    cases hnode
    exact ⟨rfl, rfl⟩
  · rw [h.vfs] at hnode
    cases hnode
    exact ⟨rfl, rfl⟩
  · rw [h.src] at hnode
    cases hnode
    exact ⟨rfl, rfl⟩

theorem Dirs.closed (h : Dirs v n []) (i : ℕ) (hi : DirInode n i) (node : VfsNode)
    (hnode : v.fileNodes i = some node) : ∀ c ∈ node.children, DirInode n c := by
  rcases hi with rfl | rfl | rfl | rfl
  · rw [h.root] at hnode
    cases hnode
    exact List.forall_mem_singleton.2 (.inr (.inl rfl))
  · rw [h.optic] at hnode
    cases hnode
    exact List.forall_mem_singleton.2 (.inr (.inr (.inl rfl)))
  · rw [h.vfs] at hnode
    cases hnode
    exact List.forall_mem_singleton.2 (.inr (.inr (.inr rfl)))
  · rw [h.src] at hnode
    cases hnode
    exact List.forall_mem_nil _

/-- Without a file there is nothing to be read, and nothing is read. -/
theorem Dirs.readable (h : Dirs v n []) (analysis : AliasAnalyzer) : v.Readable analysis := by
  have hnone : ∀ inode names content, ¬ v.FileAt inode names content := by
    rintro inode names content ⟨hpath, -, node, hnode, hfile, -⟩
    have hdir := (h.isDirectory (pathTo_mem h.closed (.inl rfl) hpath) hnode).1
    rw [hfile] at hdir
    cases hdir
  refine ⟨fun inode names content hfile => absurd hfile (hnone _ _ _),
    fun inode _ names content _ hfile => absurd hfile (hnone _ _ _), fun path _ => ?_⟩
  refine readFile_eq_none fun inode node hwalk hnode => ?_
  exact (h.isDirectory (walk_mem h.closed (.inl rfl) hwalk) hnode).2

/-- From the root on the file is reached by the names of the directories and its own only. -/
theorem Dirs.walk_file {file : VfsNode} (h : Dirs v n [n + 3]) (hfile : v.fileNodes (n + 3) = some file)
    {inode : ℕ} {parts : List String} (hwalk : v.walk FUSE_ROOT_ID parts = some inode) :
    DirInode n inode ∨ ∃ rest, parts = ".optic" :: "vfs" :: "src" :: file.name :: rest := by
  cases parts with
  | nil =>
    cases hwalk
    exact .inl (.inl rfl)
  | cons optic parts =>
    rw [walk_single h.root rfl h.optic] at hwalk
    split_ifs at hwalk with hoptic
    subst hoptic
    cases parts with
    | nil =>
      cases hwalk
      exact .inl (.inr (.inl rfl))
    | cons vfs parts =>
      rw [walk_single h.optic rfl h.vfs] at hwalk
      split_ifs at hwalk with hvfs
      subst hvfs
      cases parts with
      | nil =>
        cases hwalk
        exact .inl (.inr (.inr (.inl rfl)))
      | cons src parts =>
        rw [walk_single h.vfs rfl h.src] at hwalk
        split_ifs at hwalk with hsrc
        subst hsrc
        cases parts with
        | nil =>
          cases hwalk
          exact .inl (.inr (.inr (.inr rfl)))
        | cons name parts =>
          rw [walk_single h.src rfl hfile] at hwalk
          split_ifs at hwalk with hname
          subst hname
          exact .inr ⟨parts, rfl⟩

end Walks

section Names

/-- The path to a file in `src` has the directories' names and the parts of its own. -/
theorem pathParts_pathOf (name : String) :
    pathParts (pathOf [".optic", "vfs", "src", name]) =
      ".optic" :: "vfs" :: "src" :: (name.toList.splitOn '/').map String.ofList := by
  have hjoined : ['/'].intercalate ([".optic", "vfs", "src", name].map String.toList) =
      ".optic".toList ++ '/' :: ("vfs".toList ++ '/' :: ("src".toList ++ '/' :: name.toList)) := by
    simp [List.intercalate_cons_cons]
  have hstart (rest : List Char) : (".optic".toList ++ rest).dropWhile (· == '/') = ".optic".toList ++ rest := by
    rw [show ".optic".toList = ['.', 'o', 'p', 't', 'i', 'c'] from by decide]
    rfl
  rw [pathParts, pathOf, String.toList_ofList, hjoined, hstart,
    List.splitOn_append_cons_self_of_not_mem (by decide),
    List.splitOn_append_cons_self_of_not_mem (by decide),
    List.splitOn_append_cons_self_of_not_mem (by decide)]
  simp only [List.map_cons, String.ofList_toList]

/-- A name is no part of itself behind three others. -/
theorem splitOn_ne {name a b c : List Char} {rest : List (List Char)} :
    name.splitOn '/' ≠ a :: b :: c :: name :: rest := by
  intro h
  have hjoin : ['/'].intercalate (name.splitOn '/') = name := List.intercalate_splitOn '/'
  have hlength := congrArg List.length hjoin
  rw [h] at hlength
  have hle : name.length ≤ (['/'].intercalate (name :: rest)).length := by
    cases rest with
    | nil => simp
    | cons d rest => simp [List.intercalate_cons_cons]
  simp only [List.intercalate_cons_cons, List.length_append, List.length_singleton] at hlength
  omega

end Names

section Readability

variable {v v' : Vfs} {a : Arena} {fuel : ℕ}

theorem fileAt_root {n : ℕ} {file : VfsNode} {content : List UInt8} (h : Dirs v n [n + 3])
    (hfile : v.fileNodes (n + 3) = some file) (htype : file.fileType = .regularFile)
    (hcontent : file.content = some content) :
    v.FileAt (n + 3) [".optic", "vfs", "src", file.name] content where
  path := .child (.child (.child (.child .root h.root List.mem_cons_self h.optic) h.optic
    List.mem_cons_self h.vfs) h.vfs List.mem_cons_self h.src) h.src List.mem_cons_self hfile
  below := ⟨[file.name], rfl⟩
  file := ⟨file, hfile, htype, hcontent⟩

/-- The file of the root node is not read by its path. -/
theorem readFile_root {n : ℕ} {file : VfsNode} (analysis : AliasAnalyzer) (h : Dirs v n [n + 3])
    (hfile : v.fileNodes (n + 3) = some file) :
    v.readFile analysis (pathOf [".optic", "vfs", "src", file.name]) = none := by
  refine readFile_eq_none fun inode node hwalk hnode => ?_
  rw [pathParts_pathOf] at hwalk
  rcases h.walk_file hfile hwalk with hdir | ⟨rest, hrest⟩
  · exact (h.isDirectory hdir hnode).2
  · have hsplit := congrArg (List.map String.toList) hrest
    simp only [List.drop_succ_cons, List.drop_zero, List.map_map, List.map_cons] at hsplit
    rw [show String.toList ∘ String.ofList = id from funext fun _ => String.toList_ofList,
      List.map_id] at hsplit
    exact absurd hsplit splitOn_ne

/-- The files can be read by their paths only where there are none. -/
theorem readable_iff (v v' : Vfs) (a : Arena) (fuel : ℕ) (analysis : AliasAnalyzer)
    (h : v.reconstructFromArena a fuel = some v') : v'.Readable analysis ↔ NoRoot a := by
  constructor
  · intro hreadable root node hroot hget
    refine Bool.eq_false_iff.2 fun hvalid => ?_
    obtain ⟨hdirs, content, children, hfile⟩ := exists_rootFile hroot hget hvalid h
    have hread := hreadable.read _ _ _ (fileAt_root hdirs hfile rfl rfl)
    rw [readFile_root analysis hdirs hfile] at hread
    cases hread
  · exact fun hnone => (dirs_of_noRoot hnone h).readable analysis

/-- Of an arena without nodes there are the directories only. -/
theorem readable_empty : ∃ v', Vfs.new.reconstructFromArena (Arena.ofNodes []) 0 = some v' ∧
    v'.Readable ⟨[]⟩ :=
  ⟨_, rfl, (readable_iff Vfs.new _ (Arena.ofNodes []) 0 ⟨[]⟩ rfl).2 fun _ _ hroot _ => nomatch hroot⟩

/-- An arena of one valid node, whose file `node_0.c` cannot be read. -/
theorem not_readable_node :
    ∃ v', Vfs.new.reconstructFromArena (Arena.ofNodes [⟨0, true, 0, 0, 0, 0⟩]) 2 = some v' ∧
      v'.readFile ⟨[]⟩ (pathOf [".optic", "vfs", "src", "node_0.c"]) = none ∧ ¬ v'.Readable ⟨[]⟩ := by
  have hsome : (Vfs.new.reconstructFromArena (Arena.ofNodes [⟨0, true, 0, 0, 0, 0⟩]) 2).isSome = true := by
    decide
  obtain ⟨v', hv'⟩ := Option.isSome_iff_exists.1 hsome
  have hget : (Arena.ofNodes [⟨0, true, 0, 0, 0, 0⟩]).get 1 = some ⟨0, true, 0, 0, 0, 0⟩ := rfl
  obtain ⟨hdirs, content, children, hfile⟩ := exists_rootFile (by decide) hget rfl hv'
  have hname : getNodeName (Arena.ofNodes [⟨0, true, 0, 0, 0, 0⟩]) ⟨0, true, 0, 0, 0, 0⟩ = "node_0.c" := by
    decide
  rw [hname] at hfile
  have hnone := readFile_root ⟨[]⟩ hdirs hfile
  refine ⟨v', hv', hnone, fun hreadable => ?_⟩
  have hread := hreadable.read _ _ _ (fileAt_root hdirs hfile rfl rfl)
  rw [hnone] at hread
  cases hread

end Readability

end OpticC.Vfs
