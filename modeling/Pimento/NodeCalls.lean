import Pimento.FileSteps
import Pimento.Runs

/-!
Calls on the virtual file system by node, in any order and with any mounts.

A mount may close a cycle, after which a call can go round for ever. What a call that returns
can do is said once, and holds whatever is mounted where.
-/

namespace Pimento

open Climb FileTree MountTable VirtualFileSystem Walk Runs

namespace VirtualFileSystem

/-- What `mount` does under its second lock. -/
def record {W : Type} (mountPoint : Node) (subtree : FsId) : Exec (Vfs W) Unit := do
  -- only directories can be mount points
  .guard (mountPoint.nodeType = .directory)
  -- a subtree cannot have multiple mount points
  .guard (!(← .get).mounts.any fun mount => mount.subtree = subtree)
  .modify fun s => { s with mounts := s.mounts ++ [⟨mountPoint, subtree⟩] }

/-- A mount is its two locked sections. -/
lemma mount_eq_sections {W : Type} (fs : FileSystem W) (mountPoint : Node) (subtree : FsId) :
    mount fs mountPoint subtree =
      resolveSubtree fs mountPoint >>= fun r => record r.1 subtree := rfl

lemma record_eq {W : Type} (point : Node) (f : FsId) (s : Vfs W) :
    record point f s =
      if point.nodeType = .directory ∧ ∀ m ∈ s.mounts, m.subtree ≠ f then
        (.ok (), { s with mounts := s.mounts ++ [⟨point, f⟩] })
      else (.err, s) := by
  unfold record
  rw [Exec.guard_bind]
  by_cases hd : point.nodeType = .directory
  · rw [if_pos (by simpa using hd), Exec.get_bind, Exec.guard_bind]
    by_cases hs : ∀ m ∈ s.mounts, m.subtree ≠ f
    · rw [if_pos (by simpa using hs), if_pos ⟨hd, hs⟩]
      rfl
    · rw [if_neg (by simpa using hs), if_neg fun hc => hs hc.2]
  · rw [if_neg (by simpa using hd), if_neg fun hc => hd hc.1]

end VirtualFileSystem

/-- The operation of the virtual file system. -/
def Creation.byNode {D : Type} (devices : CharacterDevices D) :
    Creation → Node → String → Exec (Vfs (Files D)) Unit
  | .mkdir => VirtualFileSystem.mkdir (Files.fileSystem devices)
  | .mknod => VirtualFileSystem.mknod (Files.fileSystem devices)

namespace NodeCalls

variable {D : Type} (devices : CharacterDevices D)

instance {w : Files D} {node : Node} : Decidable (w.Known node) :=
  match h : w.instances[node.fileSystem]? with
  | some i => decidable_of_iff (node.nodeId < i.nodeCounter ∧ node.nodeType = i.typeOf node.nodeId)
      ⟨fun hk => ⟨i, h, hk⟩, fun ⟨j, hj, hk⟩ => by
        obtain rfl := Option.some.inj (h.symm.trans hj)
        exact hk⟩
  | none => .isFalse fun ⟨j, hj, _⟩ => by simp [h] at hj

inductive NodeCall
  | create (kind : Files.Kind)
  | make (op : Creation) (parent : Node) (name : String)
  | mount (mountPoint : Node) (subtree : FsId)
  | registerCharacterDevice (f : FsId) (name : String) (device : ℕ)
  deriving DecidableEq, Repr

section

variable (s : Vfs (Files D))

/-- The nodes and file systems of the call exist. -/
def Valid : NodeCall → Prop
  | .make _ parent _ => s.world.Known parent
  | .mount mountPoint subtree =>
    s.world.Known mountPoint ∧ subtree < s.world.instances.length
  | _ => True

instance (e : NodeCall) : Decidable (Valid s e) := by
  cases e <;> unfold Valid <;> infer_instance

/-- The state with one more file system. -/
def withNew (kind : Files.Kind) : Vfs (Files D) :=
  { s with world := { s.world with
    instances := s.world.instances ++ [Files.newInstance s.world.instances.length kind] } }

/-- The call. -/
def perform : NodeCall → Outcome Unit × Vfs (Files D)
  | .create kind => (.ok (), withNew s kind)
  | .make op parent name => op.byNode devices parent name s
  | .mount mountPoint subtree =>
    VirtualFileSystem.mount (Files.fileSystem devices) mountPoint subtree s
  | .registerCharacterDevice f name device =>
    (.ok (), { s with world := s.world.registerCharacterDevice f name device })

/-- A call that returns. One that goes round for ever has no next state. -/
def step (e : NodeCall) : Option (Vfs (Files D)) :=
  if Valid s e then
    match perform devices s e with
    | (.hang, _) => none
    | (_, s') => some s'
  else none

/-- The file systems are trees, whatever is mounted where. -/
structure Trees : Prop where
  tree : ∀ f i, s.world.instances[f]? = some i → Tree f i
  root : s.rootFileSystem < s.world.instances.length
  point : ∀ m ∈ s.mounts, s.world.Known m.mountPoint ∧ m.mountPoint.nodeType = .directory
  subtree : ∀ m ∈ s.mounts, m.subtree < s.world.instances.length

/-- The state with another instance of a file system. -/
def put (f : FsId) (i : Instance) : Vfs (Files D) :=
  { s with world := { s.world with instances := s.world.instances.set f i } }

/-- A name can be given to an entry of the directory that a node resolves to. -/
structure Places (parent : Node) (name : String) (dir : Node) (t : Tmpfs) : Prop where
  resolved : ∃ b, resolveSubtree (Files.fileSystem devices) parent s = (.ok (dir, b), s)
  known : s.world.Known dir
  directory : dir.nodeType = .directory
  name : name ≠ currentName ∧ name ≠ parentName
  tmpfs : s.world.instances[dir.fileSystem]? = some (.tmpfs t)

/-- The call has nothing to work on. -/
def Refused : NodeCall → Prop
  | .create _ => False
  | .make _ parent name => ∀ dir t, ¬ Places devices s parent name dir t
  | .mount mountPoint f => ∀ point b,
    resolveSubtree (Files.fileSystem devices) mountPoint s = (.ok (point, b), s) →
      point.nodeType = .directory → ∃ m ∈ s.mounts, m.subtree = f
  | .registerCharacterDevice f _ _ => ∀ d, s.world.instances[f]? ≠ some (.devfs d)

/-- What a call that returns does. -/
inductive Effect : NodeCall → Vfs (Files D) → Prop
  | refused {e : NodeCall} (hr : Refused devices s e) : Effect e s
  | create (kind : Files.Kind) : Effect (.create kind) (withNew s kind)
  | make {op : Creation} {parent dir : Node} {name : String} {nodeLinks : List NodeLink}
      {t t' : Tmpfs} (hp : Places devices s parent name dir t)
      (hm : op.Makes dir name nodeLinks t t') :
      Effect (.make op parent name) (put s dir.fileSystem (.tmpfs t'))
  | mount {mountPoint point : Node} {b : Bool} {f : FsId}
      (hr : resolveSubtree (Files.fileSystem devices) mountPoint s = (.ok (point, b), s))
      (hk : s.world.Known point) (ht : ∀ m ∈ s.mounts, m.mountPoint ≠ point)
      (hd : point.nodeType = .directory) (hs : ∀ m ∈ s.mounts, m.subtree ≠ f)
      (hf : f < s.world.instances.length) :
      Effect (.mount mountPoint f) { s with mounts := s.mounts ++ [⟨point, f⟩] }
  | registerCharacterDevice {f : FsId} {d : Devfs} (name : String) (device : ℕ)
      (hi : s.world.instances[f]? = some (.devfs d)) :
      Effect (.registerCharacterDevice f name device)
        (put s f (.devfs (Devfs.registerCharacterDevice name device d).2))

end

variable {devices} {s s' : Vfs (Files D)} {e : NodeCall} {n dir : Node} {f : FsId}
  {i i' : Instance} {name : String} {t : Tmpfs} {op : Creation}

lemma Inv.trees (h : Inv s) : Trees s := ⟨h.tree, h.root, h.point, h.subtree⟩

namespace Trees

variable (h : Trees s)

include h

lemma inv (hs : Stacked s.mounts) : Inv s := ⟨h.tree, h.root, hs, h.point, h.subtree⟩

/-- Without its mounts a state of trees is well formed. -/
lemma unmounted : Inv { s with mounts := [] } := ⟨h.tree, h.root, .nil, by simp, by simp⟩

lemma points (devices : CharacterDevices D) :
    Points (Files.fileSystem devices) s s.world.Known where
  same := (h.unmounted.table devices).same
  alive := (h.unmounted.table devices).alive
  root := (h.unmounted.table devices).root
  point m hm := (h.point m hm).1
  subtree m hm := by simpa [Files.fileSystem] using h.subtree m hm

lemma root_eq (devices : CharacterDevices D) (hf : f < s.world.instances.length) :
    (Files.fileSystem devices).root f s.world = ⟨f, 0, .directory⟩ :=
  h.unmounted.root_eq devices hf

/-- A climb comes to a known node on which nothing is mounted, or goes round for ever. -/
lemma resolveSubtree_cases (devices : CharacterDevices D) (hn : s.world.Known n) :
    (∃ t b, resolveSubtree (Files.fileSystem devices) n s = (.ok (t, b), s) ∧
        s.world.Known t ∧ ∀ m ∈ s.mounts, m.mountPoint ≠ t) ∨
      resolveSubtree (Files.fileSystem devices) n s = (.hang, s) := by
  have hp := h.points devices
  rw [hp.resolveSubtree_eq hn]
  rcases hc : climb (up (Files.fileSystem devices) s) (s.mounts.length + 1) n with _ | t
  · exact .inr rfl
  · have he := climb_ends hc
    exact .inl ⟨t, _, rfl, hp.leads_known hn he.leads, up_eq_none.mp he.stops⟩

/-- What a directory operation does once its parent is resolved. -/
lemma changeDirectory_eq (op : FsId → Node → String → Exec (Files D) Unit) {b : Bool}
    (name : String) (hr : resolveSubtree (Files.fileSystem devices) n s = (.ok (dir, b), s))
    (hk : s.world.Known dir) :
    changeDirectory (Files.fileSystem devices) op n name s =
      if dir.nodeType = .directory ∧ name ≠ currentName ∧ name ≠ parentName then
        ((op dir.fileSystem dir name s.world).1,
          { s with world := (op dir.fileSystem dir name s.world).2 })
      else (.err, s) := by
  have ha := (h.points devices).alive dir hk
  rw [changeDirectory_of_resolved op name hr]
  simp only [ha, and_true]
  rfl

/-- A node can be made where a name can be given to one. -/
lemma byNode_of_places (hp : Places devices s n name dir t) (op : Creation) :
    ∃ nodeLinks t', op.Makes dir name nodeLinks t t' ∧
      op.byNode devices n name s = (.ok (), put s dir.fileSystem (.tmpfs t')) := by
  obtain ⟨b, hr⟩ := hp.resolved
  obtain ⟨i, nodeLinks, hi, hl, -⟩ := exists_entries hp.known hp.directory
  obtain rfl := Option.some.inj (hp.tmpfs.symm.trans hi)
  have hlt := (h.tree _ _ hi).below dir.nodeId (by simp [Instance.isDirectory, hl])
  obtain ⟨t', ht', hm⟩ := op.exists_makes name hl hlt.ne
  refine ⟨nodeLinks, t', hm, ?_⟩
  have hc := h.changeDirectory_eq
    (fun f dir name => Files.call f (op.make dir name) fun _ => .err) name hr hp.known
  rw [if_pos ⟨hp.directory, hp.name⟩] at hc
  simp only [Files.call, hp.tmpfs, ht'] at hc
  cases op <;> exact hc

/-- Making a node is refused where that is not so. -/
lemma byNode_cases (devices : CharacterDevices D) (op : Creation) (name : String)
    (hn : s.world.Known n) :
    (∃ dir t, Places devices s n name dir t) ∨ op.byNode devices n name s = (.err, s) ∨
      resolveSubtree (Files.fileSystem devices) n s = (.hang, s) ∧
        op.byNode devices n name s = (.hang, s) := by
  have hop : op.byNode devices = changeDirectory (Files.fileSystem devices)
      (fun f dir name => Files.call f (op.make dir name) fun _ => .err) := by
    cases op <;> rfl
  rw [hop]
  rcases h.resolveSubtree_cases devices hn with ⟨dir, b, hr, hk, -⟩ | hr
  · have hc := h.changeDirectory_eq
      (fun f dir name => Files.call f (op.make dir name) fun _ => .err) name hr hk
    by_cases hd : dir.nodeType = .directory ∧ name ≠ currentName ∧ name ≠ parentName
    · obtain ⟨i, hi, -⟩ := id hk
      cases i with
      | tmpfs t => exact .inl ⟨dir, t, ⟨b, hr⟩, hk, hd.1, hd.2, hi⟩
      | devfs d =>
        rw [if_pos hd] at hc
        simp only [Files.call, hi, Exec.err_apply] at hc
        exact .inr (.inl hc)
    · rw [if_neg hd] at hc
      exact .inr (.inl hc)
  · exact .inr (.inr ⟨hr, Exec.bind_hang hr⟩)

end Trees

/-- What `mount` does once its mount point is resolved. -/
lemma mount_eq {point : Node} {b : Bool} (f : FsId)
    (hr : resolveSubtree (Files.fileSystem devices) n s = (.ok (point, b), s)) :
    VirtualFileSystem.mount (Files.fileSystem devices) n f s =
      if point.nodeType = .directory ∧ ∀ m ∈ s.mounts, m.subtree ≠ f then
        (.ok (), { s with mounts := s.mounts ++ [⟨point, f⟩] })
      else (.err, s) := by
  rw [mount_eq_sections, Exec.bind_ok hr, record_eq]

lemma step_eq_some :
    step devices s e = some s' ↔ Valid s e ∧ ∃ r ≠ .hang, perform devices s e = (r, s') := by
  unfold step
  by_cases hv : Valid s e
  · rw [if_pos hv]
    rcases perform devices s e with ⟨_ | _ | _ | _, u⟩ <;> simp [hv]
  · simp [hv]

/-- A call that returns does what is said. -/
lemma Trees.step_effect (h : Trees s) (hs : step devices s e = some s') :
    Effect devices s e s' := by
  obtain ⟨hv, r, hr, hp⟩ := step_eq_some.mp hs
  cases e with
  | create kind =>
    obtain ⟨-, rfl⟩ := Prod.ext_iff.mp hp
    exact .create kind
  | make op parent name =>
    by_cases hpl : ∃ dir t, Places devices s parent name dir t
    · obtain ⟨dir, t, hpl⟩ := hpl
      obtain ⟨nodeLinks, t', hm, he⟩ := h.byNode_of_places hpl op
      obtain ⟨-, rfl⟩ := Prod.ext_iff.mp (he.symm.trans hp)
      exact .make hpl hm
    · simp only [not_exists] at hpl
      rcases h.byNode_cases devices op name hv with ⟨dir, t, hp⟩ | he | ⟨-, he⟩
      · exact absurd hp (hpl dir t)
      · obtain ⟨-, rfl⟩ := Prod.ext_iff.mp (he.symm.trans hp)
        exact .refused hpl
      · exact absurd (congrArg Prod.fst (he.symm.trans hp)).symm hr
  | mount mountPoint f =>
    rcases h.resolveSubtree_cases devices hv.1 with ⟨point, b, hres, hk, ht⟩ | hres
    · have he := mount_eq f hres
      by_cases hc : point.nodeType = .directory ∧ ∀ m ∈ s.mounts, m.subtree ≠ f
      · rw [if_pos hc] at he
        obtain ⟨-, rfl⟩ := Prod.ext_iff.mp (he.symm.trans hp)
        exact .mount hres hk ht hc.1 hc.2 hv.2
      · rw [if_neg hc] at he
        obtain ⟨-, rfl⟩ := Prod.ext_iff.mp (he.symm.trans hp)
        refine .refused fun point' b' hres' hd => ?_
        obtain ⟨rfl, -⟩ : point = point' ∧ b = b' := by simpa [hres] using hres'
        simpa using not_and.mp hc hd
    · have he : perform devices s (.mount mountPoint f) = (.hang, s) := Exec.bind_hang hres
      exact absurd (congrArg Prod.fst (he.symm.trans hp)).symm hr
  | registerCharacterDevice f name device =>
    obtain ⟨-, rfl⟩ := Prod.ext_iff.mp hp
    rcases hi : s.world.instances[f]? with _ | t | d
    · simpa [perform, Files.registerCharacterDevice, hi] using
        Effect.refused (e := .registerCharacterDevice f name device) fun d => by simp [hi]
    · simpa [perform, Files.registerCharacterDevice, hi] using
        Effect.refused (e := .registerCharacterDevice f name device) fun d => by simp [hi]
    · simpa [perform, Files.registerCharacterDevice, hi] using
        .registerCharacterDevice name device hi

/-- Registering a device adds it to the root of its file system. -/
lemma Trees.adds_device (h : Trees s) {d : Devfs} (name : String) (device : ℕ)
    (hi : s.world.instances[f]? = some (.devfs d)) :
    ∃ nodeLinks, Adds f (.devfs d) 0 nodeLinks .characterDevice
      (.devfs (Devfs.registerCharacterDevice name device d).2) := by
  have ht := h.tree f _ hi
  obtain ⟨nodeLinks, hl⟩ := Option.isSome_iff_exists.mp ht.rootDirectory
  have hr : d.root = ⟨f, 0, .directory⟩ := ht.root
  have ha := adds_registerCharacterDevice name device (congrArg Node.fileSystem hr)
    (show d.directories[d.root.nodeId]? = some nodeLinks by rw [hr]; exact hl)
  rw [hr] at ha
  exact ⟨nodeLinks, ha⟩

lemma Places.adds (hp : Places devices s n name dir t) {t' : Tmpfs} {nodeLinks : List NodeLink}
    (hm : op.Makes dir name nodeLinks t t') :
    Adds dir.fileSystem (.tmpfs t) dir.nodeId nodeLinks op.nodeType (.tmpfs t') :=
  hm.adds (by rw [← hp.directory])

/-- A node known before a change of the file systems is known after it. -/
lemma Trees.of_world (h : Trees s) {w : Files D} (hi : Inv { s with mounts := [], world := w })
    (hk : ∀ n, s.world.Known n → w.Known n)
    (hlen : s.world.instances.length ≤ w.instances.length) : Trees { s with world := w } where
  tree := hi.tree
  root := hi.root
  point m hm := ⟨hk _ (h.point m hm).1, (h.point m hm).2⟩
  subtree m hm := (h.subtree m hm).trans_le hlen

lemma Trees.put (h : Trees s) {d : ℕ} {nodeLinks : List NodeLink} {nodeType : NodeType}
    (hi : s.world.instances[f]? = some i) (ha : Adds f i d nodeLinks nodeType i') :
    Trees (put s f i') :=
  h.of_world (h.unmounted.set hi ha.grows (ha.tree (h.tree f i hi)))
    (fun _ => known_set hi ha.grows) (by simp)

/-- **Trees**: every call keeps the file systems trees, whatever is mounted where. -/
theorem Trees.effect (h : Trees s) (he : Effect devices s e s') : Trees s' := by
  cases he with
  | refused => exact h
  | create kind =>
    exact h.of_world (h.unmounted.create kind) (fun _ => known_append _) (by simp)
  | make hp hm => exact h.put hp.tmpfs (hp.adds hm)
  | @mount mountPoint point b f hr hk ht hd hs hf =>
    refine ⟨h.tree, h.root, fun m hm => ?_, fun m hm => ?_⟩
    · rcases List.mem_append.mp hm with hm | hm
      · exact h.point m hm
      · obtain rfl := List.mem_singleton.mp hm
        exact ⟨hk, hd⟩
    · rcases List.mem_append.mp hm with hm | hm
      · exact h.subtree m hm
      · obtain rfl := List.mem_singleton.mp hm
        exact hf
  | registerCharacterDevice name device hi =>
    obtain ⟨nodeLinks, ha⟩ := h.adds_device name device hi
    exact h.put hi ha

lemma trees_new (d : D) : Trees (VirtualFileSystem.new d) := Inv.trees (inv_new d)

lemma Trees.of_run {es : List NodeCall} (h : Trees s) (hr : Run (step devices) s es s') :
    Trees s' :=
  hr.invariant (fun _ _ _ h hs => h.effect (h.step_effect hs)) h

end NodeCalls

end Pimento
