import Pimento.VirtualFileSystem

/-!
Paths, and the file manager that walks them.
-/

namespace Pimento

/-- `SLASH`. -/
def slash : Char := '/'

inductive PathToken
  | current
  | parent
  | literal (s : String)
  deriving DecidableEq, Repr

namespace PathToken

def toStr : PathToken → String
  | current => currentName
  | parent => parentName
  | literal s => s

def fromStr (s : String) : PathToken :=
  if s = currentName then current else if s = parentName then parent else literal s

end PathToken

/-- The starting directory of a path representation. -/
inductive PathStart
  | root
  | node (n : Node)
  deriving DecidableEq, Repr

structure PathInfo where
  tokens : List PathToken
  start : PathStart
  deriving DecidableEq, Repr

namespace PathInfo

def pathStrToTokens (path : String) : List PathToken :=
  (path.splitOn slash.toString).filterMap fun s => if s = "" then none else some (.fromStr s)

/-- A path representation for an absolute path. -/
def absolute (path : String) : Option PathInfo :=
  if path.toList.head? = some slash then some ⟨pathStrToTokens path, .root⟩ else none

def new (path : String) (start : Node) : PathInfo :=
  match absolute path with
  | some p => p
  | none => ⟨pathStrToTokens path, .node start⟩

/-- A path representation for the parent of this path. -/
def parent (path : PathInfo) : PathInfo :=
  match path.tokens.getLast? with
  | some (.literal _) => ⟨path.tokens.dropLast, path.start⟩
  | _ => ⟨path.tokens ++ [.parent], path.start⟩

def lastToken (path : PathInfo) : Option PathToken := path.tokens.getLast?

end PathInfo

namespace FileManager

open VirtualFileSystem

variable {W : Type} (fs : FileSystem W)

/-- One token: open the directory and look for the name. -/
def walkToken (currentNode : Node) (token : PathToken) : Exec (Vfs W) Node := do
  let directory ← VirtualFileSystem.opendir fs currentNode
  let bound := fs.readBound directory.node (← .get).world
  let nodeLink ← Handle.withHandle directory (findLink fs token.toStr bound)
  return nodeLink.node

def walkTokens : List PathToken → Node → Exec (Vfs W) Node
  | [], currentNode => pure currentNode
  | token :: tokens, currentNode => do walkTokens tokens (← walkToken fs currentNode token)

def startNode : PathStart → Exec (Vfs W) Node
  | .root => VirtualFileSystem.root fs
  | .node n => pure n

/-- Walks the file system using the given path representation. -/
def walk (path : PathInfo) : Exec (Vfs W) Node := do
  walkTokens fs path.tokens (← startNode fs path.start)

def mount (mountPoint : PathInfo) (subtree : FsId) : Exec (Vfs W) Unit := do
  VirtualFileSystem.mount fs (← walk fs mountPoint) subtree

/-- The operations that name a new or an old entry by the last token of the path. -/
def atLastToken (op : Node → String → Exec (Vfs W) Unit) (path : PathInfo) :
    Exec (Vfs W) Unit := do
  let parent ← walk fs path.parent
  match path.lastToken with
  | some (.literal name) => op parent name
  | _ => .err

def mkdir : PathInfo → Exec (Vfs W) Unit := atLastToken fs (VirtualFileSystem.mkdir fs)

def rmdir : PathInfo → Exec (Vfs W) Unit := atLastToken fs (VirtualFileSystem.rmdir fs)

def mknod : PathInfo → Exec (Vfs W) Unit := atLastToken fs (VirtualFileSystem.mknod fs)

def unlink : PathInfo → Exec (Vfs W) Unit := atLastToken fs (VirtualFileSystem.unlink fs)

def opendir (path : PathInfo) : Exec (Vfs W) Directory := do
  VirtualFileSystem.opendir fs (← walk fs path)

def openFile (path : PathInfo) : Exec (Vfs W) File := do
  VirtualFileSystem.openFile fs (← walk fs path)

end FileManager

end Pimento
