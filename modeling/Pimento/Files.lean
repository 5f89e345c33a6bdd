import Pimento.Devfs
import Pimento.FileManager

/-!
The file systems of the kernel, and what happens to them.

The kernel creates temporary and device file systems, mounts them, makes directories and files
by path and registers devices. A file system is mounted while it is fresh: nothing is mounted in
it, and the path of the mount point does not start in it.
-/

namespace Pimento

inductive Instance
  | tmpfs (t : Tmpfs)
  | devfs (d : Devfs)

namespace Instance

def root : Instance → Node
  | tmpfs t => t.root
  | devfs d => d.root

def nodeCounter : Instance → ℕ
  | tmpfs t => t.nodeCounter
  | devfs d => d.nodeCounter

def directories : Instance → Std.TreeMap ℕ (List NodeLink)
  | tmpfs t => t.directories
  | devfs d => d.directories

/-- The type of the nodes that are no directories. -/
def leafType : Instance → NodeType
  | tmpfs _ => .file
  | devfs _ => .characterDevice

def isDirectory (i : Instance) (nodeId : ℕ) : Bool := (i.directories[nodeId]?).isSome

def typeOf (i : Instance) (nodeId : ℕ) : NodeType :=
  if i.isDirectory nodeId then .directory else i.leafType

end Instance

/-- All file systems, by identity, with the devices behind them. -/
structure Files (D : Type) where
  instances : List Instance
  devices : D

namespace Files

variable {D α : Type}

/-- Call a method of a file system. The methods a device file system does not have are those of
the trait, which return `Err(())`. -/
def call (f : FsId) (tmpfs : Exec Tmpfs α) (devfs : Devfs → Exec D α) : Exec (Files D) α := fun w =>
  match w.instances[f]? with
  | some (.tmpfs t) =>
    ((tmpfs t).1, { w with instances := w.instances.set f (.tmpfs (tmpfs t).2) })
  | some (.devfs d) => ((devfs d w.devices).1, { w with devices := (devfs d w.devices).2 })
  | none => (.err, w)

/-- The links of a directory. -/
def entries (w : Files D) (node : Node) : Option (List NodeLink) := do
  (← w.instances[node.fileSystem]?).directories[node.nodeId]?

/-- A method of a device file system that only looks. -/
def look (x : Exec Devfs α) (d : Devfs) : Exec D α := fun w => ((x d).1, w)

/-- A call that changes nothing in the file system it reaches changes nothing. -/
lemma call_same {f : FsId} {i : Instance} {tmpfs : Exec Tmpfs α} {devfs : Devfs → Exec D α}
    {w : Files D} {r : Outcome α} (hi : w.instances[f]? = some i)
    (ht : ∀ t, i = .tmpfs t → tmpfs t = (r, t))
    (hd : ∀ d, i = .devfs d → devfs d w.devices = (r, w.devices)) :
    call f tmpfs devfs w = (r, w) := by
  obtain ⟨hlt, hget⟩ := List.getElem?_eq_some_iff.mp hi
  unfold call
  rw [hi]
  cases i with
  | tmpfs t =>
    have hset := List.set_getElem_self hlt
    rw [hget] at hset
    simp [ht t rfl, hset]
  | devfs d => simp [hd d rfl]

/-- The methods of every file system. -/
def fileSystem (devices : CharacterDevices D) : FileSystem (Files D) where
  alive f w := f < w.instances.length
  root f w := (w.instances[f]?.map Instance.root).getD ⟨f, 0, .directory⟩
  mkdir f dir name := call f (Tmpfs.mkdir dir name) fun _ => .err
  rmdir f dir name := call f (Tmpfs.rmdir dir name) fun _ => .err
  mknod f dir name := call f (Tmpfs.mknod dir name) fun _ => .err
  unlink f dir name := call f (Tmpfs.unlink dir name) fun _ => .err
  opendir f node := call f (Tmpfs.opendir node) (look (Devfs.opendir node))
  readdir f directory position :=
    call f (Tmpfs.readdir directory position) (look (Devfs.readdir directory position))
  openFile f node := call f (Tmpfs.openFile node) (look (Devfs.openFile node))
  seek f file position := call f (Tmpfs.seek file position) (look (Devfs.seek file position))
  read f file position count :=
    call f (Tmpfs.read file position count) fun d => d.read devices file position count
  write f file position buf :=
    call f (Tmpfs.write file position buf) fun d => d.write devices file position buf
  readBound node w := ((w.entries node).map List.length).getD 0 + 1

/-- Every file system reads its directories off their links. -/
lemma readdir_eq (devices : CharacterDevices D) {w : Files D} {node : Node} {i : Instance}
    {nodeLinks : List NodeLink} (position : ℕ) (hi : w.instances[node.fileSystem]? = some i)
    (hl : i.directories[node.nodeId]? = some nodeLinks) :
    (fileSystem devices).readdir node.fileSystem node position w =
      (.ok nodeLinks[position]?, w) := by
  refine call_same hi (fun t ht => ?_) (fun d hd => ?_)
  · subst ht
    simp [Tmpfs.readdir, show t.directories[node.nodeId]? = _ from hl]
  · subst hd
    simp [look, Devfs.readdir, show d.directories[node.nodeId]? = _ from hl]

/-- `Devfs::register_character_device` on a file system the kernel holds. -/
def registerCharacterDevice (f : FsId) (name : String) (device : ℕ) (w : Files D) : Files D :=
  match w.instances[f]? with
  | some (.devfs d) =>
    { w with instances :=
        w.instances.set f (.devfs (Devfs.registerCharacterDevice name device d).2) }
  | _ => w

inductive Kind
  | tmpfs
  | devfs
  deriving DecidableEq, Repr

def newInstance (me : FsId) : Kind → Instance
  | .tmpfs => .tmpfs (.new me)
  | .devfs => .devfs (.new me)

/-- A node of one of the file systems. -/
def Known (w : Files D) (node : Node) : Prop :=
  ∃ i, w.instances[node.fileSystem]? = some i ∧ node.nodeId < i.nodeCounter ∧
    node.nodeType = i.typeOf node.nodeId

end Files

/-- What is done to the file systems. -/
inductive FileEvent
  | create (kind : Files.Kind)
  | mkdir (path : PathInfo)
  | mknod (path : PathInfo)
  | mount (path : PathInfo) (subtree : FsId)
  | registerCharacterDevice (f : FsId) (name : String) (device : ℕ)
  deriving DecidableEq, Repr

namespace VirtualFileSystem

variable {D : Type} (devices : CharacterDevices D)

/-- Creates a virtual file system. -/
def new (d : D) : Vfs (Files D) := ⟨0, [], ⟨[.tmpfs (.new 0)], d⟩⟩

/-- A path starts at the root or at a node of one of the file systems. -/
def Startable (s : Vfs (Files D)) : PathStart → Prop
  | .root => True
  | .node n => s.world.Known n

/-- A file system that can be the subtree of a mount on this path. -/
structure Fresh (s : Vfs (Files D)) (path : PathInfo) (f : FsId) : Prop where
  lt : f < s.world.instances.length
  notRoot : f ≠ s.rootFileSystem
  notStart : ∀ n, path.start = .node n → n.fileSystem ≠ f
  empty : ∀ m ∈ s.mounts, m.mountPoint.fileSystem ≠ f

/-- What an event does. What a call returns goes to its caller; the state is kept whatever it
returns. -/
inductive Does (s : Vfs (Files D)) : FileEvent → Vfs (Files D) → Prop
  | create (kind : Files.Kind) :
      Does s (.create kind) { s with world := { s.world with
        instances := s.world.instances ++ [Files.newInstance s.world.instances.length kind] } }
  | mkdir {path : PathInfo} (h : Startable s path.start) :
      Does s (.mkdir path) (FileManager.mkdir (Files.fileSystem devices) path s).2
  | mknod {path : PathInfo} (h : Startable s path.start) :
      Does s (.mknod path) (FileManager.mknod (Files.fileSystem devices) path s).2
  | mount {path : PathInfo} {f : FsId} (h : Startable s path.start) (hf : Fresh s path f) :
      Does s (.mount path f) (FileManager.mount (Files.fileSystem devices) path f s).2
  | registerCharacterDevice (f : FsId) (name : String) (device : ℕ) :
      Does s (.registerCharacterDevice f name device)
        { s with world := s.world.registerCharacterDevice f name device }

/-- The states that any sequence of events leads to. -/
inductive Reachable (d : D) : Vfs (Files D) → Prop
  | new : Reachable d (new d)
  | step {s s' : Vfs (Files D)} {e : FileEvent} (h : Reachable d s) (hs : Does devices s e s') :
      Reachable d s'

end VirtualFileSystem

end Pimento
