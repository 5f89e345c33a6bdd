import Pimento.ByteMemory
import Pimento.Exec

/-!
Nodes, links, open directories and open files, over any implementation of a file system.

A file system is known by its identity, the allocation its `Arc` and `Weak` pointers share. Its
methods work on a world that holds the file systems and whatever is behind them.
-/

namespace Pimento

/-- The identity of a file system. -/
abbrev FsId := ℕ

inductive NodeType
  | characterDevice
  | directory
  | file
  deriving DecidableEq, Repr

structure Node where
  fileSystem : FsId
  nodeId : ℕ
  nodeType : NodeType
  deriving DecidableEq, Repr

/-- `PartialEq for Node`: the type is not compared. -/
def Node.same (n m : Node) : Bool := n.fileSystem = m.fileSystem && n.nodeId = m.nodeId

/-- A node linked from a directory. -/
structure NodeLink where
  name : String
  node : Node
  deriving DecidableEq, Repr

/-- An open directory. -/
structure Directory where
  node : Node
  position : ℕ
  deriving DecidableEq, Repr

/-- An open file. -/
structure File where
  node : Node
  position : ℕ
  deriving DecidableEq, Repr

/-- `CURRENT`. -/
def currentName : String := "."

/-- `PARENT`. -/
def parentName : String := ".."

/-- The file systems of a world: which are alive, and the methods of each. -/
structure FileSystem (W : Type) where
  /-- `Weak::upgrade` succeeds. -/
  alive : FsId → W → Bool
  root : FsId → W → Node
  mkdir : FsId → Node → String → Exec W Unit
  rmdir : FsId → Node → String → Exec W Unit
  mknod : FsId → Node → String → Exec W Unit
  unlink : FsId → Node → String → Exec W Unit
  opendir : FsId → Node → Exec W Unit
  readdir : FsId → Node → ℕ → Exec W (Option NodeLink)
  openFile : FsId → Node → Exec W Unit
  seek : FsId → Node → ℕ → Exec W Unit
  read : FsId → Node → ℕ → ℕ → Exec W (List Byte)
  write : FsId → Node → ℕ → List Byte → Exec W ℕ
  /-- The directory cannot be read more often than this before it ends. -/
  readBound : Node → W → ℕ

namespace FileSystem

variable {W : Type} (fs : FileSystem W)

/-- `node.file_system().upgrade().ok_or(())?`. -/
def upgrade (node : Node) : Exec W FsId := do
  .guard (fs.alive node.fileSystem (← .get))
  return node.fileSystem

end FileSystem

/-- A world with an open file or directory. -/
structure Handle (W H : Type) where
  world : W
  handle : H
  deriving DecidableEq, Repr

namespace Handle

variable {W H α : Type}

/-- Work on the world. -/
def onWorld (x : Exec W α) : Exec (Handle W H) α := .zoom world (fun w s => { s with world := w }) x

/-- Work with a new handle, and drop it. -/
def withHandle (handle : H) (x : Exec (Handle W H) α) : Exec W α := fun w =>
  ((x ⟨w, handle⟩).1, (x ⟨w, handle⟩).2.world)

/-- Work that leaves the world as it is leaves everything. -/
lemma onWorld_same {x : Exec W α} {s : Handle W H} {r : Outcome α}
    (h : x s.world = (r, s.world)) : onWorld x s = (r, s) := by
  simp [onWorld, Exec.zoom, h]

lemma onWorld_eq {x : Exec W α} {r : Outcome α} {w w' : W} {h : H} (hx : x w = (r, w')) :
    onWorld x ⟨w, h⟩ = (r, ⟨w', h⟩) := by
  rw [onWorld, Exec.zoom, hx]

/-- A file system that is there can be called. -/
lemma upgrade_eq {fs : FileSystem W} {node : Node} {w : W} {h : H}
    (ha : fs.alive node.fileSystem w = true) :
    onWorld (fs.upgrade node) ⟨w, h⟩ = (.ok node.fileSystem, ⟨w, h⟩) := by
  refine onWorld_same ?_
  rw [FileSystem.upgrade, Exec.get_bind, Exec.guard_bind, if_pos ha]
  rfl

end Handle

namespace Directory

variable {W : Type} (fs : FileSystem W)

def new (node : Node) : Directory := ⟨node, 0⟩

def readdir : Exec (Handle W Directory) (Option NodeLink) := do
  let directory := (← .get).handle
  let fileSystem ← Handle.onWorld (fs.upgrade directory.node)
  let nodeLink ← Handle.onWorld (fs.readdir fileSystem directory.node directory.position)
  .modify fun s => { s with handle := { s.handle with position := s.handle.position + 1 } }
  return nodeLink

variable {fs} in
lemma readdir_ok {w w' : W} {directory : Directory} {reply : Option NodeLink}
    (ha : fs.alive directory.node.fileSystem w = true)
    (h : fs.readdir directory.node.fileSystem directory.node directory.position w =
      (.ok reply, w')) :
    Directory.readdir fs ⟨w, directory⟩ =
      (.ok reply, ⟨w', { directory with position := directory.position + 1 }⟩) := by
  rw [Directory.readdir, Exec.get_bind, Exec.bind_ok (Handle.upgrade_eq ha),
    Exec.bind_ok (Handle.onWorld_eq h)]
  rfl

end Directory

namespace File

variable {W : Type} (fs : FileSystem W)

def new (node : Node) : File := ⟨node, 0⟩

def seek (position : ℕ) : Exec (Handle W File) Unit := do
  let file := (← .get).handle
  let fileSystem ← Handle.onWorld (fs.upgrade file.node)
  Handle.onWorld (fs.seek fileSystem file.node position)
  .modify fun s => { s with handle := { s.handle with position } }

def read (count : ℕ) : Exec (Handle W File) (List Byte) := do
  let file := (← .get).handle
  let fileSystem ← Handle.onWorld (fs.upgrade file.node)
  let buf ← Handle.onWorld (fs.read fileSystem file.node file.position count)
  .modify fun s =>
    { s with handle := { s.handle with position := s.handle.position + buf.length } }
  return buf

def write (buf : List Byte) : Exec (Handle W File) ℕ := do
  let file := (← .get).handle
  let fileSystem ← Handle.onWorld (fs.upgrade file.node)
  let len ← Handle.onWorld (fs.write fileSystem file.node file.position buf)
  .modify fun s => { s with handle := { s.handle with position := s.handle.position + len } }
  return len

variable {fs} {w w' : W} {file : File}

lemma seek_ok {position : ℕ} (ha : fs.alive file.node.fileSystem w = true)
    (h : fs.seek file.node.fileSystem file.node position w = (.ok (), w')) :
    File.seek fs position ⟨w, file⟩ = (.ok (), ⟨w', { file with position }⟩) := by
  rw [File.seek, Exec.get_bind, Exec.bind_ok (Handle.upgrade_eq ha),
    Exec.bind_ok (Handle.onWorld_eq h)]
  rfl

lemma read_ok {count : ℕ} {buf : List Byte} (ha : fs.alive file.node.fileSystem w = true)
    (h : fs.read file.node.fileSystem file.node file.position count w = (.ok buf, w')) :
    File.read fs count ⟨w, file⟩ =
      (.ok buf, ⟨w', { file with position := file.position + buf.length }⟩) := by
  rw [File.read, Exec.get_bind, Exec.bind_ok (Handle.upgrade_eq ha),
    Exec.bind_ok (Handle.onWorld_eq h)]
  rfl

lemma read_err {count : ℕ} (ha : fs.alive file.node.fileSystem w = true)
    (h : fs.read file.node.fileSystem file.node file.position count w = (.err, w')) :
    File.read fs count ⟨w, file⟩ = (.err, ⟨w', file⟩) := by
  rw [File.read, Exec.get_bind, Exec.bind_ok (Handle.upgrade_eq ha),
    Exec.bind_err (Handle.onWorld_eq h)]

lemma write_ok {buf : List Byte} {len : ℕ} (ha : fs.alive file.node.fileSystem w = true)
    (h : fs.write file.node.fileSystem file.node file.position buf w = (.ok len, w')) :
    File.write fs buf ⟨w, file⟩ =
      (.ok len, ⟨w', { file with position := file.position + len }⟩) := by
  rw [File.write, Exec.get_bind, Exec.bind_ok (Handle.upgrade_eq ha),
    Exec.bind_ok (Handle.onWorld_eq h)]
  rfl

lemma write_err {buf : List Byte} (ha : fs.alive file.node.fileSystem w = true)
    (h : fs.write file.node.fileSystem file.node file.position buf w = (.err, w')) :
    File.write fs buf ⟨w, file⟩ = (.err, ⟨w', file⟩) := by
  rw [File.write, Exec.get_bind, Exec.bind_ok (Handle.upgrade_eq ha),
    Exec.bind_err (Handle.onWorld_eq h)]

end File

end Pimento
