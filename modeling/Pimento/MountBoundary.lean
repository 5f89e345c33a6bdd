import Pimento.FileSteps

/-!
Reading a directory of the virtual file system.

`readdir` turns the `..` of a mounted root into the `..` of the lowest mount point. It opens
that mount point through the mount table, which leads back up to the root on top.
-/

namespace Pimento.MountBoundary

open Climb FileTree MountTable VirtualFileSystem Walk

variable {D : Type} (devices : CharacterDevices D)

/-- The node is the root of a file system that is mounted. -/
def mountedRoot (s : Vfs (Files D)) (node : Node) : Bool :=
  node.same ((Files.fileSystem devices).root node.fileSystem s.world) &&
    s.mounts.any fun m => m.subtree = node.fileSystem

/-- The link at the position of an open directory. -/
def storedLink (s : Vfs (Files D)) (directory : Directory) : Option NodeLink :=
  (s.world.entries directory.node).bind fun nodeLinks => nodeLinks[directory.position]?

/-- `readdir` reads the `..` of a mounted root as the `..` of the lowest mount point, up to what
is mounted on it, and every other link as it is stored. -/
def readsAcross (s : Vfs (Files D)) (directory : Directory) : Bool :=
  let fs := Files.fileSystem devices
  let result := (VirtualFileSystem.readdir fs ⟨s, directory⟩).1
  match storedLink s directory with
  | some stored =>
    if stored.name = parentName && mountedRoot devices s directory.node then
      match result, (resolveMountPoint fs directory.node s).1 with
      | .ok (some nodeLink), .ok (mountPoint, _) =>
        nodeLink.name = parentName &&
          (find s.world mountPoint parentName).any (sameDirectory devices s nodeLink.node)
      | _, _ => false
    else result = .ok (some stored)
  | none => result = .ok none

variable {devices} {s : Vfs (Files D)} {dir node : Node} {position : ℕ}

section

variable (h : Inv s)

include h

lemma mountedRoot_iff (hn : s.world.Known node) :
    mountedRoot devices s node ↔ (down (Files.fileSystem devices) s node).isSome := by
  have ht := h.table devices
  unfold mountedRoot down
  rw [ht.points.same_iff hn (ht.root _ (ht.alive _ hn)).1]
  by_cases hr : node = (Files.fileSystem devices).root node.fileSystem s.world
  · rw [if_pos hr]
    simp [← hr, List.find?_isSome]
  · simp [hr]

/-- The lowest mount point of a mounted root is a mount point. -/
lemma bottom_point {r : Node} (hd : down (Files.fileSystem devices) s node = some r) :
    ∃ m ∈ s.mounts, m.mountPoint = bottom (Files.fileSystem devices) s node := by
  have hl := ((h.table devices).ends_bottom node).tail hd
  rcases Relation.ReflTransGen.cases_tail hl.leads with he | ⟨x, -, hx⟩
  · obtain ⟨-, m, hm, -, hp⟩ := down_eq_some hd
    exact ⟨m, hm, hp.trans he.symm⟩
  · obtain ⟨-, m, hm, -, hp⟩ := down_eq_some hx
    exact ⟨m, hm, hp⟩

/-- Above a mount point there is the root of a mounted file system. -/
lemma top_point (devices : CharacterDevices D) {m : Mount} (hm : m ∈ s.mounts) :
    ∃ m' ∈ s.mounts, top (Files.fileSystem devices) s m.mountPoint =
      (Files.fileSystem devices).root m'.subtree s.world := by
  have hends := (h.table devices).ends_top m.mountPoint
  refine (leads_mounted hends.leads).resolve_left fun he => ?_
  have hstop := hends.stops
  rw [he] at hstop
  exact up_eq_none.mp hstop m hm rfl

/-- The name is no `..`, or nothing is to be crossed: the stored link is returned. -/
lemma readdir_stored (devices : CharacterDevices D) (position : ℕ) {nodeLinks : List NodeLink}
    (hn : s.world.Known dir)
    (hl : s.world.entries dir = some nodeLinks)
    (hs : ∀ stored, nodeLinks[position]? = some stored → stored.name = parentName →
      down (Files.fileSystem devices) s dir = none) :
    (VirtualFileSystem.readdir (Files.fileSystem devices) ⟨s, ⟨dir, position⟩⟩).1 =
      .ok nodeLinks[position]? := by
  unfold VirtualFileSystem.readdir
  rw [Exec.bind_ok (h.readDirectory_eq devices hn hl)]
  rcases hp : nodeLinks[position]? with _ | stored
  · rfl
  · by_cases hname : stored.name = parentName
    · have hm := (h.table devices).resolveMountPoint_eq hn
      rw [hs stored hp hname] at hm
      simp only [hname, if_true, Exec.get_bind]
      rw [Exec.bind_ok (Handle.onWorld_same hm)]
      rfl
    · simp [hname]

/-- The `..` of a mounted root is read as the root that is on top of the lowest mount point. -/
lemma readdir_crosses {nodeLinks : List NodeLink} {stored : NodeLink} {r : Node}
    (hn : s.world.Known dir) (hl : s.world.entries dir = some nodeLinks)
    (hs : nodeLinks[position]? = some stored) (hname : stored.name = parentName)
    (hd : down (Files.fileSystem devices) s dir = some r) :
    (VirtualFileSystem.readdir (Files.fileSystem devices) ⟨s, ⟨dir, position⟩⟩).1 =
      .ok (some ⟨parentName, top (Files.fileSystem devices) s
        (bottom (Files.fileSystem devices) s dir)⟩) := by
  have ht := h.table devices
  have hm := ht.resolveMountPoint_eq hn
  rw [hd] at hm
  obtain ⟨m, hmem, hbot⟩ := bottom_point h hd
  obtain ⟨m', hmem', htop⟩ := top_point h devices hmem
  rw [hbot] at htop
  have hk := ht.top_known (ht.bottom_known hn)
  have ho := h.opendir_eq devices (ht.bottom_known hn)
  have hfind := h.find_parent_root devices hmem'
  generalize bottom (Files.fileSystem devices) s dir = mp at hm htop hk ho ⊢
  have hdir : (top (Files.fileSystem devices) s mp).nodeType = .directory := by
    rw [htop, h.root_eq devices (h.subtree m' hmem')]
  rw [← htop] at hfind
  generalize top (Files.fileSystem devices) s mp = node at hk ho hdir hfind ⊢
  obtain ⟨i, links, -, -, he⟩ := exists_entries hk hdir
  simp only [find, he, Option.bind_some, Option.map_eq_some_iff] at hfind
  obtain ⟨link, hlink, rfl⟩ := hfind
  have hf := h.findLink_new devices parentName hk he
  rw [hlink] at hf
  simp only [hdir, if_true] at ho
  unfold VirtualFileSystem.readdir
  rw [Exec.bind_ok (h.readDirectory_eq devices hn hl), hs]
  simp only [hname, if_true, Exec.get_bind]
  rw [Exec.bind_ok (Handle.onWorld_same hm)]
  simp only [Option.isSome_some, if_true]
  rw [Exec.bind_ok (Handle.onWorld_same ho), Exec.get_bind, Exec.bind_ok (Handle.onWorld_same hf)]
  have hln : link.name = parentName := by simpa using List.find?_some hlink
  simp [← hln]

/-- What is on top of a directory is on top of its parent only when it is its own parent. -/
lemma top_parent_iff {parent : Node} (hn : s.world.Known node) (hd : node.nodeType = .directory)
    (hp : find s.world node parentName = some parent) :
    top (Files.fileSystem devices) s (top (Files.fileSystem devices) s node) =
        top (Files.fileSystem devices) s parent ↔ node.nodeId = 0 := by
  have ht := h.table devices
  obtain ⟨k, hfind, -, h0, hlt⟩ := h.find_parent hn hd
  obtain rfl := Option.some.inj (hp.symm.trans hfind)
  rw [ht.top_top]
  constructor
  · intro he
    have hpar := ht.top_injective (x := node) (y := ⟨node.fileSystem, k, .directory⟩) rfl he
    by_contra hne
    have := hlt hne
    rw [hpar] at this
    simp at this
  · intro hz
    obtain ⟨f, j, ty⟩ := node
    simp only at hd hz h0
    rw [h0 hz, hd, hz]

end

/-- **Mount boundary**: `readdir` reads across the boundary of a mounted root exactly when the
lowest mount point is the root of its own file system, or what it reads is no `..` of a mounted
root at all. -/
theorem readsAcross_iff {d : D} {directory : Directory} (hr : Reachable devices d s)
    (hn : s.world.Known directory.node) (hd : directory.node.nodeType = .directory) :
    readsAcross devices s directory ↔
      (mountedRoot devices s directory.node ∧
          (storedLink s directory).any (fun stored => stored.name = parentName) →
        (bottom (Files.fileSystem devices) s directory.node).nodeId = 0) := by
  have h := Inv.of_reachable hr
  have ht := h.table devices
  obtain ⟨dir, position⟩ := directory
  obtain ⟨i, nodeLinks, -, -, he⟩ := exists_entries hn hd
  simp only [readsAcross, storedLink, he, Option.bind_some]
  rcases hp : nodeLinks[position]? with _ | stored
  · have hx := readdir_stored h devices position hn he (by simp [hp])
    simp [hx, hp]
  · by_cases hname : stored.name = parentName
    · rcases hdown : down (Files.fileSystem devices) s dir with _ | r
      · -- nothing to cross
        have hx := readdir_stored h devices position hn he
          fun _ _ _ => hdown
        have hm : mountedRoot devices s dir = false := by
          rw [← Bool.not_eq_true, mountedRoot_iff h hn, hdown]
          simp
        simp [hx, hp, hm]
      · have hx := readdir_crosses h hn he hp hname hdown
        have hm : mountedRoot devices s dir = true := by
          rw [mountedRoot_iff h hn, hdown]
          rfl
        obtain ⟨m, hmem, hbot⟩ := bottom_point h hdown
        have hbd : (bottom (Files.fileSystem devices) s dir).nodeType = .directory := by
          rw [← hbot]
          exact (h.point m hmem).2
        have hbk := ht.bottom_known hn
        obtain ⟨parent, hfind, hpk, -, -⟩ := h.find_parent hbk hbd
        have hsame := h.sameDirectory_iff devices (ht.top_known hbk) hpk
        simp only [hname, hm, hx, ht.resolveMountPoint_eq hn, hfind, decide_true, Bool.true_and,
          if_true, Option.any_some, true_and, forall_const]
        exact hsame.trans (top_parent_iff h hbk hbd hfind)
    · have hx := readdir_stored h devices position hn he
        fun _ h₁ h₂ => absurd (by rw [hp] at h₁; rw [Option.some.inj h₁]; exact h₂) hname
      simp [hx, hp, hname]

lemma known_mountedRoot : withMount.world.Known ⟨1, 0, .directory⟩ := by
  have h := Inv.of_reachable reachable_withMount
  have hlt : 1 < withMount.world.instances.length := by decide +kernel
  rw [← h.root_eq noDevices hlt]
  exact ((h.table noDevices).root 1 (by simpa [Files.fileSystem] using hlt)).1

theorem readsAcross_iff_run :
    readsAcross noDevices withMount ⟨⟨1, 0, .directory⟩, 0⟩ ↔
      (mountedRoot noDevices withMount ⟨1, 0, .directory⟩ ∧
          (storedLink withMount ⟨⟨1, 0, .directory⟩, 0⟩).any
            (fun stored => stored.name = parentName) →
        (bottom (Files.fileSystem noDevices) withMount ⟨1, 0, .directory⟩).nodeId = 0) :=
  readsAcross_iff reachable_withMount known_mountedRoot rfl

/-- The `..` of the file system mounted on `/a` is read as its own root, not as `/`. -/
theorem mounted_not_readsAcross :
    Reachable noDevices () withMount ∧ withMount.world.Known ⟨1, 0, .directory⟩ ∧
      readsAcross noDevices withMount ⟨⟨1, 0, .directory⟩, 1⟩ = false ∧
      (VirtualFileSystem.readdir (Files.fileSystem noDevices)
        ⟨withMount, ⟨⟨1, 0, .directory⟩, 1⟩⟩).1 = .ok (some ⟨parentName, 1, 0, .directory⟩) :=
  ⟨reachable_withMount, known_mountedRoot, by decide +kernel, by decide +kernel⟩

end Pimento.MountBoundary
