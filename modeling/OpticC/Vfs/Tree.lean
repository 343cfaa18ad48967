import Mathlib.Logic.Function.Basic
import OpticC.Arena

/-! The file system over an arena: under `.optic/vfs/src` a file for the root node and, as the
children of each file, the files of the children of its node. -/

namespace OpticC

inductive FileType
  | directory
  | regularFile
  deriving DecidableEq

structure VfsNode where
  name : String
  inode : ℕ
  fileType : FileType
  content : Option (List UInt8)
  children : List ℕ
  parent : ℕ
  deriving DecidableEq

def FUSE_ROOT_ID : ℕ := 1

def rootNode : VfsNode := ⟨"", FUSE_ROOT_ID, .directory, none, [], FUSE_ROOT_ID⟩

/-- The nodes by inode, and the inode of the next one, which is not the root's. -/
structure Vfs where
  fileNodes : ℕ → Option VfsNode
  nextInode : ℕ
  root_lt : FUSE_ROOT_ID < nextInode

namespace Vfs

def new : Vfs := ⟨Function.update (fun _ => none) FUSE_ROOT_ID (some rootNode), FUSE_ROOT_ID + 1, Nat.lt_succ_self _⟩

variable (v : Vfs)

def initRoot : Vfs := { v with fileNodes := Function.update v.fileNodes FUSE_ROOT_ID (some rootNode) }

/-- `next_inode` -/
def takeInode : ℕ × Vfs := (v.nextInode, { v with nextInode := v.nextInode + 1, root_lt := Nat.lt_succ_of_lt v.root_lt })

/-- A node with an entry in its parent, if there is one. -/
def link (parent inode : ℕ) (node : VfsNode) : Vfs :=
  let pushed := Function.update v.fileNodes parent
    ((v.fileNodes parent).map fun p => { p with children := p.children ++ [inode] })
  { v with fileNodes := Function.update pushed inode (some node) }

def addDir (parent : ℕ) (name : String) (inode : ℕ) : Vfs :=
  v.link parent inode ⟨name, inode, .directory, none, [], parent⟩

def addFile (parent : ℕ) (name : String) (content : List UInt8) : ℕ × Vfs :=
  let (inode, v) := v.takeInode
  (inode, v.link parent inode ⟨name, inode, .regularFile, some content, [], parent⟩)

section Reconstruction

variable (a : Arena)

/-- The loop of `find_root_node`, which sees no more nodes than there are. -/
def findRootFrom : ℕ → ℕ → Option ℕ
  | 0, _ => none
  | rounds + 1, cursor =>
    match a.get cursor with
    | none => none
    | some node =>
      if node.kind = 0 ∧ node.parent = 0 then some cursor
      else if cursor + 1 ≥ a.nodeCapacity then none
      else findRootFrom rounds (cursor + 1)

def findRootNode : Option ℕ := findRootFrom a a.nodeAllocated 1

/-- The nodes of the loops from a first child over the next siblings. -/
def siblings : ℕ → ℕ → Option (List (ℕ × CAstNode))
  | 0, _ => none
  | fuel + 1, child =>
    if child = 0 then some []
    else
      match a.get child with
      | none => some []
      | some node => (siblings fuel node.nextSibling).map fun rest => (child, node) :: rest

def getNodeName (node : CAstNode) : String :=
  let numbered := "node_" ++ toString node.kind ++ ".c"
  if node.data ≠ 0 then (a.getString node.data).getD numbered else numbered

def kindName (kind : ℕ) : String :=
  match kind with
  | 1 => "FUNCTION_DECL"
  | 2 => "VAR_DECL"
  | 3 => "BINARY_OP"
  | 4 => "UNARY_OP"
  | 5 => "CALL_EXPR"
  | 6 => "IF_STMT"
  | 7 => "WHILE_STMT"
  | 8 => "RETURN_STMT"
  | _ => "UNKNOWN"

def nodeToSource (node : CAstNode) : String := "/* " ++ kindName node.kind ++ " */"

def bytes (s : String) : List UInt8 := s.toByteArray.data.toList

def reconstructFileContent (fuel kind data firstChild : ℕ) : Option (List UInt8) :=
  (siblings a fuel firstChild).map fun children =>
    bytes ("/* OPTIC RECONSTRUCTED FILE */\n" ++
      "/* NodeKind: " ++ toString kind ++ ", DataOffset: " ++ toString data ++ " */\n" ++
      String.join (children.map fun child => nodeToSource child.2 ++ "\n"))

/-- The loop of `reconstruct_tree`. The queue is a stack, here with its top first. -/
def reconstructTree : ℕ → List (ℕ × ℕ) → Vfs → Option Vfs
  | _, [], v => some v
  | 0, _ :: _, _ => none
  | fuel + 1, (offset, parent) :: queue, v =>
    match a.get offset with
    | none => reconstructTree fuel queue v
    | some node =>
      if node.isValid then do
        let content ← reconstructFileContent a fuel node.kind node.data node.firstChild
        let (fileInode, v) := v.addFile parent (getNodeName a node) content
        let children ← siblings a fuel node.firstChild
        reconstructTree fuel ((children.map fun child => (child.1, fileInode)).reverse ++ queue) v
      else reconstructTree fuel queue v

/-- `.optic/vfs/src`, empty: the inode of `src` and the file system. -/
def addDirs : ℕ × Vfs :=
  let v := v.initRoot
  let (srcDirInode, v) := v.takeInode
  let v := v.addDir FUSE_ROOT_ID ".optic" srcDirInode
  let (vfsSrcInode, v) := v.takeInode
  let v := v.addDir srcDirInode "vfs" vfsSrcInode
  let (srcInode, v) := v.takeInode
  (srcInode, v.addDir vfsSrcInode "src" srcInode)

def reconstructFromArena (fuel : ℕ) : Option Vfs :=
  let (srcInode, v) := v.addDirs
  match findRootNode a with
  | some root => reconstructTree a fuel [(root, srcInode)] v
  | none => some v

end Reconstruction

end Vfs

end OpticC
