import Pimento.FileSystem

/-!
The virtual file system: a mount table over file systems.
-/

namespace Pimento

/-- A record that `subtree` is mounted on `mountPoint`. -/
structure Mount where
  mountPoint : Node
  subtree : FsId
  deriving DecidableEq, Repr

/-- A virtual file system with the world its file systems live in. -/
structure Vfs (W : Type) where
  rootFileSystem : FsId
  mounts : List Mount
  world : W

namespace VirtualFileSystem

variable {W : Type} {α : Type} (fs : FileSystem W)

/-- Work on the world. -/
def onWorld (x : Exec W α) : Exec (Vfs W) α := .zoom Vfs.world (fun w s => { s with world := w }) x

/-- Work that leaves the world as it is leaves everything. -/
lemma onWorld_same {x : Exec W α} {s : Vfs W} {r : Outcome α} (h : x s.world = (r, s.world)) :
    onWorld x s = (r, s) := by
  simp [onWorld, Exec.zoom, h]

/-- Gets the node at the root of the virtual file system. -/
def root : Exec (Vfs W) Node := do
  let s ← .get
  return fs.root s.rootFileSystem s.world

/-- The loop of `resolve_mount_point`, for at most the given number of iterations. -/
def resolveMountPointLoop : ℕ → Node → Bool → Exec (Vfs W) (Node × Bool)
  | 0, _, _ => .hang
  | n + 1, node, changed => do
    let fileSystem ← onWorld (fs.upgrade node)
    let s ← .get
    if !node.same (fs.root fileSystem s.world) then return (node, changed)
    else
      match s.mounts.find? fun mount => mount.subtree = fileSystem with
      | some mount => resolveMountPointLoop n mount.mountPoint true
      | none => return (node, changed)

/-- Resolves a node to its lowest mount point. Every iteration but the last one uses a record
of the table, so more of them than records would go round for ever. -/
def resolveMountPoint (node : Node) : Exec (Vfs W) (Node × Bool) := do
  resolveMountPointLoop fs ((← .get).mounts.length + 1) node false

/-- The loop of `resolve_subtree`, for at most the given number of iterations. -/
def resolveSubtreeLoop : ℕ → Node → Bool → Exec (Vfs W) (Node × Bool)
  | 0, _, _ => .hang
  | n + 1, node, changed => do
    let s ← .get
    match s.mounts.find? fun mount => mount.mountPoint.same node with
    | some mount => resolveSubtreeLoop n (fs.root mount.subtree s.world) true
    | none => return (node, changed)

/-- Resolves a node to its highest subtree. -/
def resolveSubtree (node : Node) : Exec (Vfs W) (Node × Bool) := do
  resolveSubtreeLoop fs ((← .get).mounts.length + 1) node false

def mount (mountPoint : Node) (subtree : FsId) : Exec (Vfs W) Unit := do
  let (mountPoint, _) ← resolveSubtree fs mountPoint
  -- only directories can be mount points
  .guard (mountPoint.nodeType = .directory)
  -- a subtree cannot have multiple mount points
  .guard (!(← .get).mounts.any fun mount => mount.subtree = subtree)
  .modify fun s => { s with mounts := s.mounts ++ [⟨mountPoint, subtree⟩] }

/-- The checks shared by the operations that change a directory, and the operation. -/
def changeDirectory (op : FsId → Node → String → Exec W Unit) (parent : Node) (name : String) :
    Exec (Vfs W) Unit := do
  let (parent, _) ← resolveSubtree fs parent
  .guard (parent.nodeType = .directory)
  .guard (!(name = currentName || name = parentName))
  let fileSystem ← onWorld (fs.upgrade parent)
  onWorld (op fileSystem parent name)

variable {fs} in
lemma resolveSubtreeLoop_state {s : Vfs W} (k : ℕ) (node : Node) (changed : Bool) :
    (resolveSubtreeLoop fs k node changed s).2 = s := by
  induction k generalizing node changed with
  | zero => rfl
  | succ k ih =>
    rw [resolveSubtreeLoop, Exec.get_bind]
    rcases hm : s.mounts.find? fun mount => mount.mountPoint.same node with _ | mount <;>
      simp only [hm]
    · rfl
    · exact ih _ _

variable {fs} in
/-- Resolving a node leaves everything as it is. -/
lemma resolveSubtree_state {node : Node} {s : Vfs W} : (resolveSubtree fs node s).2 = s :=
  resolveSubtreeLoop_state _ node false

variable {fs} in
/-- What a directory operation does once its parent is resolved. -/
lemma changeDirectory_of_resolved (op : FsId → Node → String → Exec W Unit) {node dir : Node}
    {b : Bool} (name : String) {s : Vfs W} (hr : resolveSubtree fs node s = (.ok (dir, b), s)) :
    changeDirectory fs op node name s =
      if dir.nodeType = .directory ∧ (name ≠ currentName ∧ name ≠ parentName) ∧
          fs.alive dir.fileSystem s.world then
        onWorld (op dir.fileSystem dir name) s
      else (.err, s) := by
  unfold changeDirectory
  rw [Exec.bind_ok hr]
  simp only
  rw [Exec.guard_bind]
  by_cases hd : dir.nodeType = .directory
  · rw [if_pos (by simpa using hd), Exec.guard_bind]
    by_cases hname : name ≠ currentName ∧ name ≠ parentName
    · rw [if_pos (by simpa using hname)]
      by_cases ha : fs.alive dir.fileSystem s.world = true
      · have hu : onWorld (fs.upgrade dir) s = (.ok dir.fileSystem, s) := by
          refine onWorld_same ?_
          rw [FileSystem.upgrade, Exec.get_bind, Exec.guard_bind, if_pos ha]
          rfl
        rw [if_pos ⟨hd, hname, ha⟩, Exec.bind_ok hu]
      · have hu : onWorld (fs.upgrade dir) s = (.err, s) := by
          refine onWorld_same ?_
          rw [FileSystem.upgrade, Exec.get_bind, Exec.guard_bind, if_neg ha]
        rw [if_neg fun hc => ha hc.2.2, Exec.bind_err hu]
    · rw [if_neg (by simpa [not_and_or, ← not_or] using hname), if_neg fun hc => hname hc.2.1]
  · rw [if_neg (by simpa using hd), if_neg fun hc => hd hc.1]

def mkdir : Node → String → Exec (Vfs W) Unit := changeDirectory fs fs.mkdir

def rmdir : Node → String → Exec (Vfs W) Unit := changeDirectory fs fs.rmdir

def mknod : Node → String → Exec (Vfs W) Unit := changeDirectory fs fs.mknod

/-- The operation called is `rmdir`. -/
def unlink : Node → String → Exec (Vfs W) Unit := changeDirectory fs fs.rmdir

def opendir (node : Node) : Exec (Vfs W) Directory := do
  let (node, _) ← resolveSubtree fs node
  .guard (node.nodeType = .directory)
  let fileSystem ← onWorld (fs.upgrade node)
  onWorld (fs.opendir fileSystem node)
  return Directory.new node

def openFile (node : Node) : Exec (Vfs W) File := do
  let (node, _) ← resolveSubtree fs node
  .guard (node.nodeType ≠ .directory)
  let fileSystem ← onWorld (fs.upgrade node)
  onWorld (fs.openFile fileSystem node)
  return File.new node

/-- `Directory::readdir` on an open directory of the virtual file system. -/
def readDirectory : Exec (Handle (Vfs W) Directory) (Option NodeLink) := fun s =>
  let (result, s') := Directory.readdir fs ⟨s.world.world, s.handle⟩
  (result, ⟨{ s.world with world := s'.world }, s'.handle⟩)

/-- The first link with this name. `readdir` has the loop as `while let Ok(Some(..))` before an
`Err`, `walk` with `?`: either way an error ends it with an error. -/
def findLink (name : String) : ℕ → Exec (Handle (Vfs W) Directory) NodeLink
  | 0 => .hang
  | n + 1 => fun s =>
    match readDirectory fs s with
    | (.ok (some nodeLink), s') =>
      if nodeLink.name = name then (.ok nodeLink, s') else findLink name n s'
    | (.ok none, s') => (.err, s')
    | (.err, s') => (.err, s')
    | (.panic, s') => (.panic, s')
    | (.hang, s') => (.hang, s')

/-- Reads contents from the directory. -/
def readdir : Exec (Handle (Vfs W) Directory) (Option NodeLink) := do
  let readdir ← readDirectory fs
  match readdir with
  | some nodeLink =>
    if nodeLink.name = parentName then
      let directory := (← .get).handle
      let (mountPoint, changed) ← Handle.onWorld (resolveMountPoint fs directory.node)
      if changed then
        let mountPointDir ← Handle.onWorld (opendir fs mountPoint)
        let bound := fs.readBound mountPointDir.node (← .get).world.world
        let nodeLink ← Handle.onWorld
          (Handle.withHandle mountPointDir (findLink fs parentName bound))
        return some nodeLink
      else return some nodeLink
    else return some nodeLink
  | none => return none

end VirtualFileSystem

end Pimento
