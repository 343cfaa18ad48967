import OpticC.Lib.LossyText
import OpticC.Vfs.Tree

/-! What is read from a file: the whole by `read_file`, a part by `read`. With diagnostics both
pass the bytes through `inject_error_comments`, which ends the last line of what it is given. -/

namespace OpticC

open LossyText

inductive DiagnosticSeverity
  | note
  | warning
  | error
  deriving DecidableEq

structure Diagnostic where
  severity : DiagnosticSeverity
  node : ℕ
  message : String
  provenanceTrace : List ℕ
  deriving DecidableEq

structure AliasAnalyzer where
  diagnostics : List Diagnostic

namespace AliasAnalyzer

def isVulnerable (_analysis : AliasAnalyzer) (_line : List UInt8) : Bool := false

def hasVulnerabilities (analysis : AliasAnalyzer) : Bool := !analysis.diagnostics.isEmpty

end AliasAnalyzer

inductive Errno
  | ENOENT
  | EISDIR
  | ENOTDIR
  | EINVAL
  deriving DecidableEq

structure FileAttr where
  ino : ℕ
  size : ℕ
  blocks : ℕ
  blksize : ℕ
  kind : FileType
  perm : ℕ
  nlink : ℕ
  deriving DecidableEq

namespace Vfs

section Code

variable (v : Vfs) (analysis : AliasAnalyzer)

def checkVulnerability (line : List UInt8) : Option (List UInt8) :=
  if analysis.isVulnerable line then some line else none

/-- A line, behind a comment if it is vulnerable. -/
def injectLine (line : List UInt8) : List UInt8 :=
  ((checkVulnerability analysis line).elim [] fun vulnerable =>
    bytes "// [OPTIC ERROR] " ++ vulnerable ++ [newline]) ++ line ++ [newline]

def injectErrorComments (content : List UInt8) : List UInt8 :=
  (lines (fromUtf8Lossy content)).flatMap (injectLine analysis)

/-- The bytes as they are given out. -/
def served (content : List UInt8) : List UInt8 :=
  if analysis.hasVulnerabilities then injectErrorComments analysis content else content

/-- The first child with a name. -/
def findChild (node : VfsNode) (name : String) : Option ℕ :=
  node.children.find? fun child => (v.fileNodes child).any fun n => n.name = name

/-- The loop of `read_file` over the parts of a path. -/
def walk : ℕ → List String → Option ℕ
  | inode, [] => some inode
  | inode, part :: parts =>
    match v.fileNodes inode with
    | none => none
    | some node =>
      match v.findChild node part with
      | none => none
      | some child => walk child parts

/-- `path.trim_start_matches('/').split('/')` -/
def pathParts (path : String) : List String :=
  ((path.toList.dropWhile (· == '/')).splitOn '/').map String.ofList

def readFile (path : String) : Option (List UInt8) :=
  let parts := pathParts path
  if parts.length < 4 ∨ parts[0]? ≠ some ".optic" ∨ parts[1]? ≠ some "vfs" ∨ parts[2]? ≠ some "src" then none
  else do
    let inode ← v.walk FUSE_ROOT_ID (parts.drop 3)
    let node ← v.fileNodes inode
    let content ← node.content
    return served analysis content

def getattr (ino : ℕ) : Except Errno FileAttr :=
  match v.fileNodes ino with
  | none => .error .ENOENT
  | some node => .ok
      { ino := node.inode
        size := (node.content.map List.length).getD 4096
        blocks := 1
        blksize := 512
        kind := node.fileType
        perm := if node.fileType = .directory then 0o755 else 0o644
        nlink := if node.fileType = .directory then 2 else 1 }

def read (ino offset size : ℕ) : Except Errno (List UInt8) :=
  match v.fileNodes ino with
  | none => .error .ENOENT
  | some node =>
    match node.content with
    | none => .error .EISDIR
    | some content =>
      if offset ≥ content.length then .error .EINVAL
      else
        let stop := min (offset + size) content.length
        .ok (served analysis ((content.take stop).drop offset))

/-- Reads of these sizes, each from where the last one ended. -/
def readChunks (ino : ℕ) : ℕ → List ℕ → Except Errno (List UInt8)
  | _, [] => .ok []
  | offset, size :: sizes => do
    let data ← v.read analysis ino offset size
    let rest ← readChunks ino (offset + size) sizes
    return data ++ rest

end Code

end Vfs

end OpticC
