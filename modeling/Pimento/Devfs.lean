import Pimento.Tmpfs

/-!
The device file system: one directory of character devices.
-/

namespace Pimento

/-- What the kernel's character devices do, on a state of their own. -/
structure CharacterDevices (D : Type) where
  read : ℕ → ℕ → Exec D (List Byte)
  write : ℕ → List Byte → Exec D ℕ

/-- A device file system. A device is known by its number. -/
structure Devfs where
  root : Node
  nodeCounter : ℕ
  directories : Std.TreeMap ℕ (List NodeLink)
  characterDevices : Std.TreeMap ℕ ℕ

namespace Devfs

/-- Creates a device file system. -/
def new (me : FsId) : Devfs :=
  let root : Node := ⟨me, 0, .directory⟩
  { root
    nodeCounter := 1
    directories := (∅ : Std.TreeMap ℕ (List NodeLink)).insert 0 (newDirectory root root)
    characterDevices := ∅ }

/-- Registers a character device. -/
def registerCharacterDevice (name : String) (device : ℕ) : Exec Devfs Unit := do
  let nodeId := (← .get).nodeCounter
  .modify fun s => { s with nodeCounter := nodeId + 1 }
  let childNode : Node := ⟨(← .get).root.fileSystem, nodeId, .characterDevice⟩
  .modify fun s => { s with characterDevices := s.characterDevices.insert nodeId device }
  let rootId := (← .get).root.nodeId
  let nodeLinks ← .okOr ((← .get).directories[rootId]?)
  .modify fun s =>
    { s with directories := s.directories.insert rootId (nodeLinks ++ [⟨name, childNode⟩]) }

def opendir (_node : Node) : Exec Devfs Unit := pure ()

def readdir (directory : Node) (position : ℕ) : Exec Devfs (Option NodeLink) := do
  let nodeLinks ← .okOr ((← .get).directories[directory.nodeId]?)
  return nodeLinks[position]?

def openFile (_node : Node) : Exec Devfs Unit := pure ()

def seek (_file : Node) (_position : ℕ) : Exec Devfs Unit := pure ()

variable {D : Type} (devices : CharacterDevices D)

/-- The device of a node. -/
def deviceOf (s : Devfs) (file : Node) : Option ℕ :=
  match file.nodeType with
  | .characterDevice => s.characterDevices[file.nodeId]?
  | _ => none

def read (s : Devfs) (file : Node) (_position count : ℕ) : Exec D (List Byte) := do
  devices.read (← .okOr (s.deviceOf file)) count

def write (s : Devfs) (file : Node) (_position : ℕ) (buf : List Byte) : Exec D ℕ := do
  devices.write (← .okOr (s.deviceOf file)) buf

lemma registerCharacterDevice_of_some {s : Devfs} (name : String) (device : ℕ)
    {nodeLinks : List NodeLink} (h : s.directories[s.root.nodeId]? = some nodeLinks) :
    registerCharacterDevice name device s = (.ok (), { s with
      nodeCounter := s.nodeCounter + 1
      characterDevices := s.characterDevices.insert s.nodeCounter device
      directories := s.directories.insert s.root.nodeId
        (nodeLinks ++ [⟨name, s.root.fileSystem, s.nodeCounter, .characterDevice⟩]) }) := by
  simp [registerCharacterDevice, h]

end Devfs

end Pimento
