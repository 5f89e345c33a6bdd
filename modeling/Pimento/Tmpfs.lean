import Mathlib.Data.List.Basic
import Pimento.FileSystem

/-!
The temporary file system.

A directory is the list of its links and a file the list of its bytes. Every node takes room on
the heap, so the counter of nodes never wraps.
-/

namespace Pimento

/-- A temporary file system. -/
structure Tmpfs where
  root : Node
  nodeCounter : ℕ
  directories : Std.TreeMap ℕ (List NodeLink)
  files : Std.TreeMap ℕ (List Byte)

/-- The links of a new directory: itself and its parent. -/
def newDirectory (node parent : Node) : List NodeLink := [⟨currentName, node⟩, ⟨parentName, parent⟩]

namespace Tmpfs

/-- Creates a temporary file system. -/
def new (me : FsId) : Tmpfs :=
  let root : Node := ⟨me, 0, .directory⟩
  { root
    nodeCounter := 1
    directories := (∅ : Std.TreeMap ℕ (List NodeLink)).insert 0 (newDirectory root root)
    files := ∅ }

/-- `node_counter.fetch_add(1, Relaxed)`. -/
def nextNodeId : Exec Tmpfs ℕ := do
  let s ← .get
  .modify fun s => { s with nodeCounter := s.nodeCounter + 1 }
  return s.nodeCounter

/-- `directories.get_mut(&dir.node_id()).ok_or(())?.push(..)`. -/
def pushLink (dir : Node) (nodeLink : NodeLink) : Exec Tmpfs Unit := do
  let nodeLinks ← .okOr ((← .get).directories[dir.nodeId]?)
  .modify fun s =>
    { s with directories := s.directories.insert dir.nodeId (nodeLinks ++ [nodeLink]) }

def mkdir (dir : Node) (name : String) : Exec Tmpfs Unit := do
  let nodeId ← nextNodeId
  let childNode : Node := ⟨dir.fileSystem, nodeId, .directory⟩
  pushLink dir ⟨name, childNode⟩
  .modify fun s =>
    { s with directories := s.directories.insert nodeId (newDirectory childNode dir) }
  -- the child is linked once more
  pushLink dir ⟨name, childNode⟩

/-- `todo!()`. -/
def rmdir (_dir : Node) (_name : String) : Exec Tmpfs Unit := .panic

def mknod (dir : Node) (name : String) : Exec Tmpfs Unit := do
  let nodeId ← nextNodeId
  let childNode : Node := ⟨dir.fileSystem, nodeId, .file⟩
  .modify fun s => { s with files := s.files.insert nodeId [] }
  pushLink dir ⟨name, childNode⟩

/-- `todo!()`. -/
def unlink (_dir : Node) (_name : String) : Exec Tmpfs Unit := .panic

def opendir (_node : Node) : Exec Tmpfs Unit := pure ()

def readdir (directory : Node) (position : ℕ) : Exec Tmpfs (Option NodeLink) := do
  let nodeLinks ← .okOr ((← .get).directories[directory.nodeId]?)
  return nodeLinks[position]?

def openFile (_node : Node) : Exec Tmpfs Unit := pure ()

def seek (_file : Node) (_position : ℕ) : Exec Tmpfs Unit := pure ()

/-- The end of a range that starts at a position, with the addition of `usize`. -/
def rangeEnd (position count : ℕ) : ℕ := (position + count) % 2 ^ 64

/-- A range that starts after its end cannot be taken out of a slice. -/
def read (file : Node) (position count : ℕ) : Exec Tmpfs (List Byte) := do
  let bytes ← .okOr ((← .get).files[file.nodeId]?)
  let stop := min (rangeEnd position count) bytes.length
  if stop < position then .panic
  return (bytes.drop position).take (stop - position)

/-- `copy_from_slice` takes a source of just the length of the range. -/
def write (file : Node) (position : ℕ) (buf : List Byte) : Exec Tmpfs ℕ := do
  let bytes ← .okOr ((← .get).files[file.nodeId]?)
  let stop := rangeEnd position buf.length
  let bytes := bytes ++ List.replicate (stop - bytes.length) 0
  .modify fun s => { s with files := s.files.insert file.nodeId bytes }
  if stop < position then .panic
  if stop - position ≠ buf.length then .panic
  .modify fun s =>
    { s with files := s.files.insert file.nodeId (bytes.take position ++ buf ++ bytes.drop stop) }
  return stop - position

section Read

variable {t : Tmpfs} {file : Node} {bytes : List Byte} {position count : ℕ}

lemma read_same (file : Node) (position count : ℕ) (t : Tmpfs) :
    (Tmpfs.read file position count t).2 = t := by
  unfold Tmpfs.read
  rw [Exec.get_bind]
  rcases t.files[file.nodeId]? with _ | bytes
  · rfl
  · simp only [Exec.okOr_some, Exec.pure_bind]
    split <;> rfl

lemma read_of_none (position count : ℕ) (h : t.files[file.nodeId]? = none) :
    Tmpfs.read file position count t = (.err, t) := by
  rw [Tmpfs.read, Exec.get_bind, h]
  rfl

lemma read_of_some (h : t.files[file.nodeId]? = some bytes) (hp : position ≤ bytes.length)
    (hlt : position + count < 2 ^ 64) : Tmpfs.read file position count t =
      (.ok ((bytes.take (min (position + count) bytes.length)).drop position), t) := by
  have hend : rangeEnd position count = position + count := Nat.mod_eq_of_lt hlt
  rw [Tmpfs.read, Exec.get_bind, h]
  simp only [Exec.okOr_some, Exec.pure_bind, hend]
  rw [if_neg (by omega), List.drop_take]
  rfl

end Read

variable {t : Tmpfs} {dir : Node} {l : List NodeLink}

lemma pushLink_of_some (nodeLink : NodeLink) (h : t.directories[dir.nodeId]? = some l) :
    pushLink dir nodeLink t =
      (.ok (), { t with directories :=
        t.directories.insert dir.nodeId (l ++ [nodeLink]) }) := by
  simp [pushLink, h]

/-- What `mkdir` leaves in a directory that exists: the new one, linked twice. -/
lemma mkdir_of_some (name : String) (h : t.directories[dir.nodeId]? = some l)
    (hne : dir.nodeId ≠ t.nodeCounter) :
    ∃ t' : Tmpfs, mkdir dir name t = (.ok (), t') ∧ t'.root = t.root ∧
      t'.nodeCounter = t.nodeCounter + 1 ∧ t'.files = t.files ∧
      ∀ k : ℕ, t'.directories[k]? =
        if k = dir.nodeId then
          some (l ++ List.replicate 2 ⟨name, dir.fileSystem, t.nodeCounter, .directory⟩)
        else if k = t.nodeCounter then
          some (newDirectory ⟨dir.fileSystem, t.nodeCounter, .directory⟩ dir)
        else t.directories[k]? := by
  have h₁ := pushLink_of_some (t := { t with nodeCounter := t.nodeCounter + 1 })
    ⟨name, dir.fileSystem, t.nodeCounter, .directory⟩ h
  unfold mkdir nextNodeId
  simp only [Exec.bind_assoc, Exec.get_bind, Exec.modify_bind, Exec.pure_bind]
  rw [Exec.bind_ok h₁, Exec.modify_bind, pushLink_of_some
    (l := l ++ [⟨name, dir.fileSystem, t.nodeCounter, .directory⟩])]
  · refine ⟨_, rfl, rfl, rfl, rfl, fun k => ?_⟩
    simp only [Std.TreeMap.getElem?_insert, Std.compare_eq_iff_eq, List.append_assoc]
    by_cases hk : k = dir.nodeId
    · simp [hk, List.replicate]
    · simp [hk, Ne.symm hk, eq_comm]
  · simp only [Std.TreeMap.getElem?_insert, Std.compare_eq_iff_eq, hne.symm, if_true, if_false]

lemma mknod_of_some (name : String) (h : t.directories[dir.nodeId]? = some l) :
    mknod dir name t = (.ok (), { t with
      nodeCounter := t.nodeCounter + 1
      files := t.files.insert t.nodeCounter []
      directories := t.directories.insert dir.nodeId
        (l ++ [⟨name, dir.fileSystem, t.nodeCounter, .file⟩]) }) := by
  have hp := pushLink_of_some (t := { t with
    nodeCounter := t.nodeCounter + 1, files := t.files.insert t.nodeCounter [] })
    ⟨name, dir.fileSystem, t.nodeCounter, .file⟩ h
  unfold mknod nextNodeId
  simp only [Exec.bind_assoc, Exec.get_bind, Exec.modify_bind, Exec.pure_bind]
  exact hp

end Tmpfs

end Pimento
