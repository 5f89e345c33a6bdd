import Pimento.FileSteps

/-!
Which methods of which file systems the operations of the virtual file system call.

The operations are watched from the world they work on: it notes every call that changes names
before the file system makes it. They work on any world, so that they do what they do unwatched.
-/

namespace Pimento

/-- A method of a file system that changes names, and the operation of the same name. -/
inductive NamespaceMethod
  | mkdir
  | rmdir
  | mknod
  | unlink
  deriving DecidableEq, Repr

/-- A call of a method of a file system. -/
structure NamespaceCall where
  method : NamespaceMethod
  fileSystem : FsId
  dir : Node
  name : String
  deriving DecidableEq, Repr

/-- A world with the calls that have been made on its file systems. -/
structure Watched (W : Type) where
  world : W
  calls : List NamespaceCall

namespace NamespaceMethod

variable {W : Type} (fs : FileSystem W)

/-- The method of a file system. -/
def call : NamespaceMethod → FsId → Node → String → Exec W Unit
  | mkdir => fs.mkdir
  | rmdir => fs.rmdir
  | mknod => fs.mknod
  | unlink => fs.unlink

/-- The operation of the virtual file system. -/
def operation : NamespaceMethod → Node → String → Exec (Vfs W) Unit
  | mkdir => VirtualFileSystem.mkdir fs
  | rmdir => VirtualFileSystem.rmdir fs
  | mknod => VirtualFileSystem.mknod fs
  | unlink => VirtualFileSystem.unlink fs

end NamespaceMethod

namespace Watched

variable {W α : Type}

def onWorld (x : Exec W α) : Exec (Watched W) α := .zoom world (fun w s => { s with world := w }) x

/-- Note a call, and make it. -/
def note (fs : FileSystem W) (method : NamespaceMethod) (f : FsId) (dir : Node) (name : String) :
    Exec (Watched W) Unit := do
  .modify fun s => { s with calls := s.calls ++ [⟨method, f, dir, name⟩] }
  onWorld (method.call fs f dir name)

/-- The file systems, watched. -/
def fileSystem (fs : FileSystem W) : FileSystem (Watched W) where
  alive f w := fs.alive f w.world
  root f w := fs.root f w.world
  mkdir := note fs .mkdir
  rmdir := note fs .rmdir
  mknod := note fs .mknod
  unlink := note fs .unlink
  opendir f node := onWorld (fs.opendir f node)
  readdir f node position := onWorld (fs.readdir f node position)
  openFile f node := onWorld (fs.openFile f node)
  seek f node position := onWorld (fs.seek f node position)
  read f node position count := onWorld (fs.read f node position count)
  write f node position buf := onWorld (fs.write f node position buf)
  readBound node w := fs.readBound node w.world

end Watched

namespace NamespaceCalls

open VirtualFileSystem Walk

variable {W : Type} (fs : FileSystem W)

/-- The name can be changed in the node that a parent resolves to. -/
def Accepted (s : Vfs (Watched W)) (dir : Node) (name : String) : Prop :=
  dir.nodeType = .directory ∧ (name ≠ currentName ∧ name ≠ parentName) ∧
    fs.alive dir.fileSystem s.world.world

instance (s : Vfs (Watched W)) (dir : Node) (name : String) : Decidable (Accepted fs s dir name) :=
  inferInstanceAs (Decidable (_ ∧ _ ∧ _))

/-- The operation makes the one call of the same name on the directory `dir` and returns its
result, or is refused and makes no call. -/
def Reaches (s : Vfs (Watched W)) (method : NamespaceMethod) (parent dir : Node) (name : String) :
    Prop :=
  let (result, t) := method.operation (Watched.fileSystem fs) parent name s
  if Accepted fs s dir name then
    t.world.calls = s.world.calls ++ [⟨method, dir.fileSystem, dir, name⟩] ∧
      (result, t.world.world) = method.call fs dir.fileSystem dir name s.world.world ∧
      t.mounts = s.mounts
  else result = .err ∧ t = s

/-- The method that an operation calls. -/
def called : NamespaceMethod → NamespaceMethod
  | .unlink => .rmdir
  | method => method

variable {fs} {s : Vfs (Watched W)} {parent dir : Node} {name : String} {b : Bool}

/-- An operation makes one call, or none where it is refused. -/
lemma operation_eq (method : NamespaceMethod)
    (hr : (resolveSubtree (Watched.fileSystem fs) parent s).1 = .ok (dir, b)) :
    method.operation (Watched.fileSystem fs) parent name s =
      if Accepted fs s dir name then
        (((called method).call fs dir.fileSystem dir name s.world.world).1,
          { s with world :=
            ⟨((called method).call fs dir.fileSystem dir name s.world.world).2,
              s.world.calls ++ [⟨called method, dir.fileSystem, dir, name⟩]⟩ })
      else (.err, s) := by
  have hres : resolveSubtree (Watched.fileSystem fs) parent s = (.ok (dir, b), s) := by
    rw [Exec.eq_of_fst hr, resolveSubtree_state]
  have hop : method.operation (Watched.fileSystem fs) =
      changeDirectory (Watched.fileSystem fs) (Watched.note fs (called method)) := by
    cases method <;> rfl
  rw [hop, changeDirectory_of_resolved _ name hres]
  rfl

/-- **Calls of the same name**: an operation reaches the method of its name unless it is `unlink`
on a name that can be changed. -/
theorem reaches_iff (method : NamespaceMethod)
    (hr : (resolveSubtree (Watched.fileSystem fs) parent s).1 = .ok (dir, b)) :
    Reaches fs s method parent dir name ↔ ¬ (method = .unlink ∧ Accepted fs s dir name) := by
  unfold Reaches
  rw [operation_eq method hr]
  by_cases ha : Accepted fs s dir name
  · simp only [if_pos ha]
    cases method <;> simp [called, ha]
  · simp only [if_neg ha]
    simp [ha]

/-- The state with a file system mounted on `/a`, before any call. -/
def watchedMount : Vfs (Watched (Files Unit)) :=
  ⟨withMount.rootFileSystem, withMount.mounts, ⟨withMount.world, []⟩⟩

/-- Making a directory in `/a` reaches `mkdir` of the file system mounted there. -/
theorem reaches_mkdir :
    Reaches (Files.fileSystem noDevices) watchedMount .mkdir ⟨0, 1, .directory⟩ ⟨1, 0, .directory⟩
      "b" :=
  (reaches_iff (b := true) .mkdir (by decide +kernel)).mpr (by decide +kernel)

/-- Unlinking a name in `/a` calls `rmdir`. -/
theorem unlink_not_reaches :
    Accepted (Files.fileSystem noDevices) watchedMount ⟨1, 0, .directory⟩ "b" ∧
      (NamespaceMethod.unlink.operation (Watched.fileSystem (Files.fileSystem noDevices))
        ⟨0, 1, .directory⟩ "b" watchedMount).2.world.calls =
          [⟨.rmdir, 1, ⟨1, 0, .directory⟩, "b"⟩] ∧
      ¬ Reaches (Files.fileSystem noDevices) watchedMount .unlink ⟨0, 1, .directory⟩
        ⟨1, 0, .directory⟩ "b" := by
  have ha : Accepted (Files.fileSystem noDevices) watchedMount ⟨1, 0, .directory⟩ "b" := by
    decide +kernel
  have hcalls : (NamespaceMethod.unlink.operation
      (Watched.fileSystem (Files.fileSystem noDevices)) ⟨0, 1, .directory⟩ "b"
        watchedMount).2.world.calls = [⟨.rmdir, 1, ⟨1, 0, .directory⟩, "b"⟩] := by
    decide +kernel
  refine ⟨ha, hcalls, fun hreach => ?_⟩
  unfold Reaches at hreach
  simp only [if_pos ha, hcalls] at hreach
  exact absurd hreach.1 (by decide +kernel)

end NamespaceCalls

end Pimento
