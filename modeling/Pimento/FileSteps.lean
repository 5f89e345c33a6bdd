import Pimento.Creation
import Pimento.Walk

/-!
Whatever is done to the file systems, they stay trees under a sound mount table.
-/

namespace Pimento.Walk

open FileTree MountTable VirtualFileSystem

variable {D : Type} {devices : CharacterDevices D} {s s' : Vfs (Files D)} {n dir : Node} {f : FsId}
  {i i' : Instance} {name : String}

lemma known_set (hi : s.world.instances[f]? = some i) (hg : Grows i i') (hn : s.world.Known n) :
    Files.Known { s.world with instances := s.world.instances.set f i' } n := by
  obtain ⟨j, hj, hlt, ht⟩ := hn
  obtain ⟨hfl, -⟩ := List.getElem?_eq_some_iff.mp hi
  by_cases hf : n.fileSystem = f
  · subst hf
    obtain rfl := Option.some.inj (hi.symm.trans hj)
    exact ⟨i', by simp [hfl], by have := hg.counter; omega, by rw [ht, hg.typeOf _ hlt]⟩
  · exact ⟨j, by simp [Ne.symm hf, hj], hlt, ht⟩

lemma known_append (j : Instance) (hn : s.world.Known n) :
    Files.Known { s.world with instances := s.world.instances ++ [j] } n := by
  obtain ⟨i, hi, hlt, ht⟩ := hn
  obtain ⟨hfl, -⟩ := List.getElem?_eq_some_iff.mp hi
  exact ⟨i, by rw [List.getElem?_append_left hfl, hi], hlt, ht⟩

/-- The frame of a change to the file systems: what was known stays known. -/
lemma Inv.of_world (h : Inv s) {w : Files D}
    (hlen : s.world.instances.length ≤ w.instances.length)
    (ht : ∀ f i, w.instances[f]? = some i → Tree f i)
    (hk : ∀ n, s.world.Known n → w.Known n) : Inv { s with world := w } where
  tree := ht
  root := h.root.trans_le hlen
  stacked := h.stacked
  point m hm := ⟨hk _ (h.point m hm).1, (h.point m hm).2⟩
  subtree m hm := (h.subtree m hm).trans_le hlen

lemma Inv.set (h : Inv s) (hi : s.world.instances[f]? = some i) (hg : Grows i i')
    (ht : Tree f i') :
    Inv { s with world := { s.world with instances := s.world.instances.set f i' } } := by
  refine h.of_world (by simp) (fun g j hj => ?_) (fun n => known_set hi hg)
  by_cases hf : g = f
  · subst hf
    obtain ⟨hlt, -⟩ := List.getElem?_eq_some_iff.mp hi
    obtain rfl : i' = j := by simpa [hlt] using hj
    exact ht
  · simp only [List.getElem?_set, Ne.symm hf, if_false] at hj
    exact h.tree g j hj

lemma Inv.create (h : Inv s) (kind : Files.Kind) :
    Inv { s with world := { s.world with
      instances := s.world.instances ++ [Files.newInstance s.world.instances.length kind] } } := by
  refine h.of_world (by simp) (fun g j hj => ?_) (fun n => known_append _)
  rcases Nat.lt_trichotomy g s.world.instances.length with hg | rfl | hg
  · rw [List.getElem?_append_left hg] at hj
    exact h.tree g j hj
  · obtain rfl : Files.newInstance s.world.instances.length kind = j := by simpa using hj
    exact tree_newInstance _ kind
  · rw [List.getElem?_eq_none (by simp; omega)] at hj
    simp at hj

lemma Inv.registerCharacterDevice (h : Inv s) (f : FsId) (name : String) (device : ℕ) :
    Inv { s with world := s.world.registerCharacterDevice f name device } := by
  unfold Files.registerCharacterDevice
  split
  · rename_i d hi
    have ht := h.tree f _ hi
    obtain ⟨nodeLinks, hl⟩ := Option.isSome_iff_exists.mp ht.rootDirectory
    have hr : d.root = ⟨f, 0, .directory⟩ := ht.root
    have ha := adds_registerCharacterDevice name device
      (congrArg Node.fileSystem hr)
      (show d.directories[d.root.nodeId]? = some nodeLinks by rw [hr]; exact hl)
    exact h.set hi ha.grows (ha.tree ht)
  · exact h

/-- What a call that adds to a directory leaves behind. -/
lemma Inv.call (h : Inv s) {op : Exec Tmpfs Unit} (hn : s.world.Known dir)
    (hd : dir.nodeType = .directory)
    (hop : ∀ t nodeLinks, s.world.instances[dir.fileSystem]? = some (.tmpfs t) →
      t.directories[dir.nodeId]? = some nodeLinks →
      ∃ t' nodeType, op t = (.ok (), t') ∧
        Adds dir.fileSystem (.tmpfs t) dir.nodeId nodeLinks nodeType (.tmpfs t')) :
    Inv { s with world := (Files.call dir.fileSystem op (fun _ => .err) s.world).2 } := by
  obtain ⟨i, nodeLinks, hi, hl, -⟩ := exists_entries hn hd
  unfold Files.call
  rw [hi]
  cases i with
  | tmpfs t =>
    obtain ⟨t', nodeType, ht', ha⟩ := hop t nodeLinks hi hl
    simp only [ht']
    exact h.set hi ha.grows (ha.tree (h.tree _ _ hi))
  | devfs d => exact h

/-- The operations that change a directory keep the invariant if what they call does. -/
lemma Inv.changeDirectory (h : Inv s) {op : FsId → Node → String → Exec (Files D) Unit}
    (hn : s.world.Known n)
    (hop : ∀ dir name, s.world.Known dir → dir.nodeType = .directory →
      Inv { s with world := (op dir.fileSystem dir name s.world).2 }) :
    Inv (changeDirectory (Files.fileSystem devices) op n name s).2 := by
  have ht := h.table devices
  have hk := ht.top_known hn
  unfold VirtualFileSystem.changeDirectory
  rw [Exec.bind_ok (ht.resolveSubtree_eq hn)]
  generalize top (Files.fileSystem devices) s n = node at hk ⊢
  simp only
  rw [Exec.guard_bind]
  split
  · rename_i hd
    rw [Exec.guard_bind]
    split
    · rw [Exec.bind_ok (ht.points.upgrade_eq hk)]
      exact hop node name hk (by simpa using hd)
    · exact h
  · exact h

lemma Inv.atLastToken (h : Inv s) {op : Node → String → Exec (Vfs (Files D)) Unit}
    {path : PathInfo} (hp : Startable s path.start)
    (hop : ∀ n name, s.world.Known n → Inv (op n name s).2) :
    Inv (FileManager.atLastToken (Files.fileSystem devices) op path s).2 := by
  have hstart : path.parent.start = path.start := by
    unfold PathInfo.parent
    split <;> rfl
  have hw := h.walk_eq devices (path.parent) (by rwa [hstart])
  unfold FileManager.atLastToken
  rcases hx : follow devices s path.parent.tokens (start devices s path.parent.start) with _ | n
  · rw [hx] at hw
    rw [Exec.bind_err hw]
    exact h
  · rw [hx] at hw
    rw [Exec.bind_ok hw]
    have hn := h.follow_known (h.start_known devices (by rwa [hstart])) hx
    cases path.lastToken with
    | none => exact h
    | some token =>
      cases token with
      | literal name => exact hop n name hn
      | current => exact h
      | parent => exact h

/-- Making a node in a directory keeps the invariant. -/
lemma Inv.make (h : Inv s) (op : Creation) (name : String) (hn : s.world.Known dir)
    (hd : dir.nodeType = .directory) :
    Inv { s with world :=
      (Files.call dir.fileSystem (op.make dir name) (fun _ => .err) s.world).2 } := by
  refine h.call hn hd fun t nodeLinks hi hl => ?_
  have hlt := (h.tree _ _ hi).below dir.nodeId (by simp [Instance.isDirectory,
    Instance.directories, hl])
  obtain ⟨t', ht', hm⟩ := op.exists_makes name hl hlt.ne
  exact ⟨t', _, ht', hm.adds (by rw [← hd])⟩

lemma Inv.mkdir (h : Inv s) {path : PathInfo} (hp : Startable s path.start) :
    Inv (FileManager.mkdir (Files.fileSystem devices) path s).2 :=
  h.atLastToken hp fun _ _ hn => h.changeDirectory hn fun _ name hk hd => h.make .mkdir name hk hd

lemma Inv.mknod (h : Inv s) {path : PathInfo} (hp : Startable s path.start) :
    Inv (FileManager.mknod (Files.fileSystem devices) path s).2 :=
  h.atLastToken hp fun _ _ hn => h.changeDirectory hn fun _ name hk hd => h.make .mknod name hk hd

/-- A walk that starts outside of a file system that is not mounted stays outside. -/
lemma Inv.top_outside (devices : CharacterDevices D) (h : Inv s)
    (hf : ∀ m ∈ s.mounts, m.subtree ≠ f) (hne : n.fileSystem ≠ f) :
    (top (Files.fileSystem devices) s n).fileSystem ≠ f := by
  have ht := h.table devices
  rcases leads_mounted (ht.ends_top n).leads with he | ⟨m, hm, he⟩
  · rwa [he]
  · rw [he, ht.points.root_fileSystem hm]
    exact hf m hm

lemma Inv.follow_outside (h : Inv s) {tokens : List PathToken} {m : Node} (hn : s.world.Known n)
    (hf : ∀ m ∈ s.mounts, m.subtree ≠ f) (hne : n.fileSystem ≠ f)
    (hx : follow devices s tokens n = some m) : m.fileSystem ≠ f := by
  induction tokens generalizing n with
  | nil =>
    obtain rfl := Option.some.inj hx
    exact hne
  | cons token tokens ih =>
    obtain ⟨n', hn', hx'⟩ := Option.bind_eq_some_iff.mp hx
    obtain ⟨hk, hfs⟩ := h.next_known hn hn'
    refine ih hk ?_ hx'
    rw [hfs]
    exact h.top_outside devices hf hne

/-- The mount point of a fresh file system lies outside of it. -/
lemma Inv.point_outside (devices : CharacterDevices D) (h : Inv s) {path : PathInfo}
    (hp : Startable s path.start) (hf : Fresh s path f) (hsub : ∀ m ∈ s.mounts, m.subtree ≠ f)
    (hx : follow devices s path.tokens (start devices s path.start) = some n) :
    (top (Files.fileSystem devices) s n).fileSystem ≠ f := by
  have hout : (start devices s path.start).fileSystem ≠ f := by
    cases hst : path.start with
    | root =>
      rw [start, ((h.table devices).root _ (by simpa [Files.fileSystem] using h.root)).2]
      exact hf.notRoot.symm
    | node n => exact hf.notStart n hst
  exact h.top_outside devices hsub (h.follow_outside (h.start_known devices hp) hsub hout hx)

lemma Inv.mount (h : Inv s) {path : PathInfo} (hp : Startable s path.start)
    (hf : Fresh s path f) : Inv (FileManager.mount (Files.fileSystem devices) path f s).2 := by
  have ht := h.table devices
  have hw := h.walk_eq devices path hp
  have hs := h.start_known devices hp
  unfold FileManager.mount
  rcases hx : follow devices s path.tokens (start devices s path.start) with _ | n
  · rw [hx] at hw
    rw [Exec.bind_err hw]
    exact h
  · rw [hx] at hw
    have hn := h.follow_known hs hx
    rw [Exec.bind_ok hw, VirtualFileSystem.mount, Exec.bind_ok (ht.resolveSubtree_eq hn)]
    simp only
    rw [Exec.guard_bind]
    split
    · rename_i hd
      rw [Exec.get_bind, Exec.guard_bind]
      split
      · rename_i hsub
        have hsub : ∀ m ∈ s.mounts, m.subtree ≠ f := by simpa using hsub
        have htop := h.point_outside devices hp hf hsub hx
        refine ⟨h.tree, h.root, h.stacked.snoc (up_eq_none.mp (ht.ends_top n).stops) hsub hf.empty
          htop, fun m hm => ?_, fun m hm => ?_⟩
        · rcases List.mem_append.mp hm with hm | hm
          · exact h.point m hm
          · obtain rfl := List.mem_singleton.mp hm
            exact ⟨ht.top_known hn, by simpa using hd⟩
        · rcases List.mem_append.mp hm with hm | hm
          · exact h.subtree m hm
          · obtain rfl := List.mem_singleton.mp hm
            exact hf.lt
      · exact h
    · exact h

/-- The invariant holds in the beginning. -/
lemma inv_new (d : D) : Inv (VirtualFileSystem.new d) := by
  refine ⟨fun f i hi => ?_, by simp [VirtualFileSystem.new], .nil, by simp [VirtualFileSystem.new],
    by simp [VirtualFileSystem.new]⟩
  cases f with
  | zero =>
    obtain rfl : Instance.tmpfs (.new 0) = i := by simpa [VirtualFileSystem.new] using hi
    exact tree_newInstance 0 .tmpfs
  | succ f => simp [VirtualFileSystem.new] at hi

/-- The invariant is kept by every event. -/
lemma Inv.step {e : FileEvent} (h : Inv s) (hs : Does devices s e s') : Inv s' := by
  cases hs with
  | create kind => exact h.create kind
  | mkdir hp => exact h.mkdir hp
  | mknod hp => exact h.mknod hp
  | mount hp hf => exact h.mount hp hf
  | registerCharacterDevice f name device => exact h.registerCharacterDevice f name device

/-- **Invariant of the file systems**: it holds in every state that any events lead to. -/
theorem Inv.of_reachable {d : D} (h : Reachable devices d s) : Inv s := by
  induction h with
  | new => exact inv_new d
  | step _ hs ih => exact ih.step hs

/-- A kernel without devices. -/
def noDevices : CharacterDevices Unit := ⟨fun _ _ => .err, fun _ _ => .err⟩

/-- The path `/name`. -/
def rootEntry (name : String) : PathInfo := ⟨[.literal name], .root⟩

/-- A directory `/a`. -/
def withDirectory : Vfs (Files Unit) :=
  (FileManager.mkdir (Files.fileSystem noDevices) (rootEntry "a") (VirtualFileSystem.new ())).2

/-- One more temporary file system. -/
def withFileSystem : Vfs (Files Unit) :=
  { withDirectory with world := { withDirectory.world with
      instances := withDirectory.world.instances ++
        [Files.newInstance withDirectory.world.instances.length .tmpfs] } }

/-- It is mounted on `/a`. -/
def withMount : Vfs (Files Unit) :=
  (FileManager.mount (Files.fileSystem noDevices) (rootEntry "a") 1 withFileSystem).2

lemma reachable_withDirectory : Reachable noDevices () withDirectory :=
  .step .new (.mkdir (by simp [rootEntry, Startable]))

lemma reachable_withMount : Reachable noDevices () withMount := by
  refine .step (.step reachable_withDirectory (.create .tmpfs)) (.mount ?_ ⟨?_, ?_, ?_, ?_⟩)
  · simp [rootEntry, Startable]
  · decide +kernel
  · decide +kernel
  · simp [rootEntry]
  · decide +kernel

end Pimento.Walk
