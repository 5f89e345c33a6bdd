import Pimento.NodeCalls

/-!
Names and links in the directories.

A name should stand for one entry of a directory, and a node should be linked once. `mkdir`
links its node twice, and neither `mknod` nor the registration of a device looks at the names
that a directory has.
-/

namespace Pimento.EntryNames

open FileTree MountTable NodeCalls Runs VirtualFileSystem Walk

variable {D : Type} (devices : CharacterDevices D)

/-- A link to a node besides `.` and `..`: its directory and its place there. -/
def LinkedAt (i : Instance) (nodeId : ℕ) (p : ℕ × ℕ) : Prop :=
  ∃ nodeLinks c, i.directories[p.1]? = some nodeLinks ∧ nodeLinks[p.2]? = some c ∧
    c.name ≠ currentName ∧ c.name ≠ parentName ∧ c.node.nodeId = nodeId

/-- The names of every directory are distinct, and every node but the root is linked once. -/
structure UniqueEntries (i : Instance) : Prop where
  names : ∀ (k : ℕ) (nodeLinks : List NodeLink), i.directories[k]? = some nodeLinks →
    (nodeLinks.map NodeLink.name).Nodup
  linked : ∀ nodeId, 0 < nodeId → nodeId < i.nodeCounter → ∃! p : ℕ × ℕ, LinkedAt i nodeId p

section

variable (s : Vfs (Files D))

/-- So it is in every file system. -/
def AllUnique : Prop :=
  ∀ (f : FsId) (i : Instance), s.world.instances[f]? = some i → UniqueEntries i

/-- The call makes no directory, and a node it makes gets a name that is not taken. -/
def NewName : NodeCall → Prop
  | .make op parent name => ∀ dir t, Places devices s parent name dir t →
    op = .mknod ∧ find s.world dir name = none
  | .registerCharacterDevice f name _ => ∀ d, s.world.instances[f]? = some (.devfs d) →
    find s.world ⟨f, 0, .directory⟩ name = none
  | _ => True

end

/-- What a change appends to a directory: so many links to a new node, under one name. -/
structure Appends (f : FsId) (i : Instance) (d : ℕ) (nodeLinks : List NodeLink) (name : String)
    (copies : ℕ) (nodeType : NodeType) (i' : Instance) : Prop where
  counter : i'.nodeCounter = i.nodeCounter + 1
  dir : i.directories[d]? = some nodeLinks
  pos : 0 < copies
  directories : ∀ k : ℕ, i'.directories[k]? =
    if k = d then
      some (nodeLinks ++ List.replicate copies ⟨name, f, i.nodeCounter, nodeType⟩)
    else if k = i.nodeCounter ∧ nodeType = .directory then
      some (newDirectory ⟨f, i.nodeCounter, .directory⟩ ⟨f, d, .directory⟩)
    else i.directories[k]?

variable {devices} {s s' : Vfs (Files D)} {e : NodeCall} {f : FsId} {i i' : Instance} {d k : ℕ}
  {nodeLinks links : List NodeLink} {name : String} {copies : ℕ} {nodeType : NodeType}

lemma nodup_append_replicate (n : Node) (hpos : 0 < copies) :
    ((nodeLinks ++ List.replicate copies (NodeLink.mk name n)).map NodeLink.name).Nodup ↔
      (nodeLinks.map NodeLink.name).Nodup ∧ copies = 1 ∧ name ∉ nodeLinks.map NodeLink.name := by
  rw [List.map_append, List.map_replicate, List.nodup_append', List.nodup_replicate]
  constructor
  · rintro ⟨hn, hc, hd⟩
    exact ⟨hn, by omega, fun hm => hd hm (List.mem_replicate.mpr ⟨by omega, rfl⟩)⟩
  · rintro ⟨hn, rfl, hm⟩
    exact ⟨hn, le_rfl, by simpa using hm⟩

/-- The links of a tree are to its nodes. -/
lemma nodeId_lt (ht : Tree f i) {c : NodeLink} (hl : i.directories[k]? = some links)
    (hc : c ∈ links) : c.node.nodeId < i.nodeCounter := by
  obtain ⟨parent, rest, rfl, hp, -, -, hr⟩ := ht.listing k links hl
  have hk := ht.below k (by simp [Instance.isDirectory, hl])
  have hp := ht.below parent hp
  rcases List.mem_append.mp hc with hc | hc
  · simp only [newDirectory, List.mem_cons, List.not_mem_nil, or_false] at hc
    rcases hc with rfl | rfl
    · exact hk
    · exact hp
  · exact (hr c hc).below

namespace Appends

variable (ha : Appends f i d nodeLinks name copies nodeType i') (ht : Tree f i)

include ha ht

lemma dir_lt : d < i.nodeCounter := ht.below d (by simp [Instance.isDirectory, ha.dir])

/-- The links of a directory in the order they were made. -/
lemma names_iff : (∀ (k : ℕ) (l : List NodeLink), i'.directories[k]? = some l →
      (l.map NodeLink.name).Nodup) ↔
    (∀ (k : ℕ) (l : List NodeLink), i.directories[k]? = some l → (l.map NodeLink.name).Nodup) ∧
      copies = 1 ∧ name ∉ nodeLinks.map NodeLink.name := by
  have hdl := ha.dir_lt ht
  have hd := ha.directories d
  rw [if_pos rfl] at hd
  constructor
  · intro h
    have hn := (nodup_append_replicate _ ha.pos).mp (h d _ hd)
    refine ⟨fun k l hk => ?_, hn.2⟩
    by_cases hkd : k = d
    · subst hkd
      obtain rfl := Option.some.inj (ha.dir.symm.trans hk)
      exact hn.1
    · have hlt := ht.below k (by simp [Instance.isDirectory, hk])
      refine h k l ?_
      rw [ha.directories, if_neg hkd, if_neg (by omega), hk]
  · rintro ⟨h, hc⟩ k l hk
    rw [ha.directories] at hk
    split at hk
    · obtain rfl := Option.some.inj hk
      exact (nodup_append_replicate _ ha.pos).mpr ⟨h d _ ha.dir, hc⟩
    · split at hk
      · obtain rfl := Option.some.inj hk
        simp [newDirectory, currentName, parentName]
      · exact h k l hk

/-- The links to the old nodes stay. -/
lemma linkedAt_old {nodeId : ℕ} (hlt : nodeId < i.nodeCounter) (p : ℕ × ℕ) :
    LinkedAt i' nodeId p ↔ LinkedAt i nodeId p := by
  have hdl := ha.dir_lt ht
  obtain ⟨k, j⟩ := p
  constructor
  · rintro ⟨l, c, hl, hc, hcur, hpar, hid⟩
    rw [ha.directories] at hl
    split at hl
    · rename_i hkd
      obtain rfl := Option.some.inj hl
      rcases List.mem_append.mp (List.mem_of_getElem? hc) with hm | hm
      · refine ⟨nodeLinks, c, by rw [show k = d from hkd, ha.dir], ?_, hcur, hpar, hid⟩
        by_cases hj : j < nodeLinks.length
        · rwa [List.getElem?_append_left hj] at hc
        · rw [List.getElem?_append_right (by omega)] at hc
          rw [List.eq_of_mem_replicate (List.mem_of_getElem? hc)] at hid
          simp only at hid
          omega
      · rw [List.eq_of_mem_replicate hm] at hid
        simp only at hid
        omega
    · split at hl
      · obtain rfl := Option.some.inj hl
        have hm := List.mem_of_getElem? hc
        simp only [newDirectory, List.mem_cons, List.not_mem_nil, or_false] at hm
        rcases hm with rfl | rfl
        · exact absurd rfl hcur
        · exact absurd rfl hpar
      · exact ⟨l, c, hl, hc, hcur, hpar, hid⟩
  · rintro ⟨l, c, hl, hc, hrest⟩
    simp only at hl hc
    have hkl := ht.below k (by simp [Instance.isDirectory, hl])
    by_cases hkd : k = d
    · subst hkd
      obtain rfl := Option.some.inj (ha.dir.symm.trans hl)
      refine ⟨_, c, (ha.directories k).trans (if_pos rfl), ?_, hrest⟩
      rw [List.getElem?_append_left (List.getElem?_eq_some_iff.mp hc).1, hc]
    · refine ⟨l, c, ?_, hc, hrest⟩
      simp only
      rw [ha.directories, if_neg hkd, if_neg (by omega), hl]

/-- The new node is linked where the change appends it. -/
lemma linkedAt_new (hname : name ≠ currentName ∧ name ≠ parentName) (hc : copies = 1)
    (p : ℕ × ℕ) : LinkedAt i' i.nodeCounter p ↔ p = (d, nodeLinks.length) := by
  subst hc
  obtain ⟨k, j⟩ := p
  constructor
  · rintro ⟨l, c, hl, hc, hcur, hpar, hid⟩
    rw [ha.directories] at hl
    split at hl
    · rename_i hkd
      obtain rfl := Option.some.inj hl
      by_cases hj : j < nodeLinks.length
      · rw [List.getElem?_append_left hj] at hc
        have := nodeId_lt ht ha.dir (List.mem_of_getElem? hc)
        omega
      · have hlen := (List.getElem?_eq_some_iff.mp hc).1
        simp only [List.length_append, List.length_replicate] at hlen
        simp only at hkd
        rw [hkd, show j = nodeLinks.length by omega]
    · split at hl
      · obtain rfl := Option.some.inj hl
        have hm := List.mem_of_getElem? hc
        simp only [newDirectory, List.mem_cons, List.not_mem_nil, or_false] at hm
        rcases hm with rfl | rfl
        · exact absurd rfl hcur
        · exact absurd rfl hpar
      · have := nodeId_lt ht hl (List.mem_of_getElem? hc)
        omega
  · rintro ⟨⟩
    refine ⟨_, ⟨name, f, i.nodeCounter, nodeType⟩, (ha.directories d).trans (if_pos rfl), ?_,
      hname.1,
      hname.2, rfl⟩
    simp

/-- **One change**: the entries are unique after it exactly when they were so before, and the
node is linked once under a name that is not taken. -/
theorem uniqueEntries_iff :
    UniqueEntries i' ↔ UniqueEntries i ∧ copies = 1 ∧ name ∉ nodeLinks.map NodeLink.name := by
  constructor
  · intro h
    obtain ⟨hn, hc⟩ := (ha.names_iff ht).mp h.names
    refine ⟨⟨hn, fun nodeId h0 hlt => ?_⟩, hc⟩
    have hu := h.linked nodeId h0 (by rw [ha.counter]; omega)
    simpa only [ha.linkedAt_old ht hlt] using hu
  · rintro ⟨h, hc, hname⟩
    refine ⟨(ha.names_iff ht).mpr ⟨h.names, hc, hname⟩, fun nodeId h0 hlt => ?_⟩
    rw [ha.counter] at hlt
    rcases Nat.lt_or_ge nodeId i.nodeCounter with hold | hnew
    · simpa only [ha.linkedAt_old ht hold] using h.linked nodeId h0 hold
    · obtain rfl : nodeId = i.nodeCounter := by omega
      -- the name is none of the two that every directory has
      have hdots : name ≠ currentName ∧ name ≠ parentName := by
        obtain ⟨parent, rest, rfl, -⟩ := ht.listing d nodeLinks ha.dir
        simp only [newDirectory, List.cons_append, List.map_cons, List.mem_cons, not_or] at hname
        exact ⟨hname.1, hname.2.1⟩
      simp only [ha.linkedAt_new ht hdots hc]
      exact existsUnique_eq

end Appends

/-- A new file system has unique entries. -/
lemma uniqueEntries_newInstance (f : FsId) (kind : Files.Kind) :
    UniqueEntries (Files.newInstance f kind) := by
  refine ⟨fun k l hl => ?_, fun nodeId h0 hlt => ?_⟩
  · rw [directories_newInstance] at hl
    split at hl
    · obtain rfl := Option.some.inj hl
      simp [newDirectory, currentName, parentName]
    · simp at hl
  · rw [nodeCounter_newInstance] at hlt
    omega

lemma appends_make {parent dir : Node} {t t' : Tmpfs} {op : Creation}
    (hp : Places devices s parent name dir t) (hm : op.Makes dir name nodeLinks t t') :
    Appends dir.fileSystem (.tmpfs t) dir.nodeId nodeLinks name op.copies op.nodeType
      (.tmpfs t') where
  counter := hm.counter
  dir := hm.entries
  pos := by cases op <;> simp [Creation.copies]
  directories k := by
    have hk := hm.directories k
    simp only [Instance.directories, Instance.nodeCounter, Creation.nodeType_eq_directory]
    rw [hk, ← hp.directory]

lemma appends_device (h : Trees s) {d : Devfs} (name : String) (device : ℕ)
    (hi : s.world.instances[f]? = some (.devfs d)) :
    ∃ nodeLinks, s.world.entries ⟨f, 0, .directory⟩ = some nodeLinks ∧
      Appends f (.devfs d) 0 nodeLinks name 1 .characterDevice
        (.devfs (Devfs.registerCharacterDevice name device d).2) := by
  have ht := h.tree f _ hi
  obtain ⟨nodeLinks, hl⟩ := Option.isSome_iff_exists.mp ht.rootDirectory
  have hr : d.root = ⟨f, 0, .directory⟩ := ht.root
  have hd : d.directories[d.root.nodeId]? = some nodeLinks := by rw [hr]; exact hl
  refine ⟨nodeLinks, by simp [Files.entries, hi, hl], ?_⟩
  rw [Devfs.registerCharacterDevice_of_some name device hd, hr]
  refine ⟨rfl, hl, by omega, fun k => ?_⟩
  simp only [Instance.directories, Std.TreeMap.getElem?_insert, Std.compare_eq_iff_eq]
  by_cases hk : k = 0
  · simp [hk, Instance.nodeCounter]
  · simp [hk, Ne.symm hk]

lemma allUnique_put (hi : s.world.instances[f]? = some i) :
    AllUnique (put s f i') ↔
      (∀ g j, g ≠ f → s.world.instances[g]? = some j → UniqueEntries j) ∧ UniqueEntries i' := by
  have hlt := (List.getElem?_eq_some_iff.mp hi).1
  constructor
  · intro h
    refine ⟨fun g j hg hj => h g j ?_, h f i' ?_⟩
    · simpa [put, Ne.symm hg] using hj
    · simp [put, hlt]
  · rintro ⟨h, hi'⟩ g j hj
    by_cases hg : g = f
    · subst hg
      obtain rfl : i' = j := by simpa [put, hlt] using hj
      exact hi'
    · exact h g j hg (by simpa [put, Ne.symm hg] using hj)

/-- The entries after a change, from the entries before it. -/
lemma allUnique_appends (h : Trees s) (hi : s.world.instances[f]? = some i)
    (ha : Appends f i d nodeLinks name copies nodeType i') :
    AllUnique (put s f i') ↔
      AllUnique s ∧ copies = 1 ∧ name ∉ nodeLinks.map NodeLink.name := by
  rw [allUnique_put hi, ha.uniqueEntries_iff (h.tree f i hi)]
  constructor
  · rintro ⟨hrest, hu, hc⟩
    refine ⟨fun g j hj => ?_, hc⟩
    by_cases hg : g = f
    · subst hg
      obtain rfl := Option.some.inj (hi.symm.trans hj)
      exact hu
    · exact hrest g j hg hj
  · rintro ⟨hu, hc⟩
    exact ⟨fun g j _ hj => hu g j hj, hu f i hi, hc⟩

lemma find_eq_none_iff {dir : Node} (hl : s.world.entries dir = some nodeLinks) :
    find s.world dir name = none ↔ name ∉ nodeLinks.map NodeLink.name := by
  simp only [find, hl, Option.bind_some, Option.map_eq_none_iff, List.find?_eq_none, List.mem_map,
    not_exists, not_and, decide_eq_true_eq]

/-- **One call**: the entries are unique after it exactly when they were so before it, it makes no
directory, and the name of the node it makes is not taken. -/
theorem step_iff (h : Trees s) (hs : step devices s e = some s') :
    AllUnique s' ↔ AllUnique s ∧ NewName devices s e := by
  cases h.step_effect hs with
  | refused hr =>
    cases e with
    | create kind => exact hr.elim
    | make op parent name =>
        simp [NewName, show ∀ dir t, ¬ Places devices s parent name dir t from hr]
    | mount mountPoint f => simp [NewName]
    | registerCharacterDevice f name device =>
      simp [NewName, show ∀ d, s.world.instances[f]? ≠ some (.devfs d) from hr]
  | create kind =>
    simp only [NewName, and_true]
    constructor
    · intro hu f i hi
      exact hu f i (by
        simp [withNew, List.getElem?_append_left (List.getElem?_eq_some_iff.mp hi).1, hi])
    · intro hu f i hi
      rcases List.mem_append.mp (List.mem_of_getElem? hi) with hm | hm
      · obtain ⟨g, hg⟩ := List.mem_iff_getElem?.mp hm
        exact hu g i hg
      · rw [List.mem_singleton.mp hm]
        exact uniqueEntries_newInstance _ kind
  | @make op parent dir name nodeLinks t t' hp hm =>
    have hl : s.world.entries dir = some nodeLinks := by
      simp [Files.entries, hp.tmpfs, Instance.directories, hm.entries]
    rw [allUnique_appends h hp.tmpfs (appends_make hp hm), ← find_eq_none_iff hl]
    refine and_congr_right fun _ => ?_
    have hop : op.copies = 1 ↔ op = .mknod := by cases op <;> simp [Creation.copies]
    rw [hop]
    refine ⟨fun hc dir' t' hp' => ?_, fun hc => hc dir t hp⟩
    obtain ⟨b, hr⟩ := hp.resolved
    obtain ⟨b', hr'⟩ := hp'.resolved
    obtain ⟨rfl, -⟩ : dir = dir' ∧ b = b' := by simpa [hr] using hr'
    exact hc
  | mount hr hk ht hd hs hf => simp [NewName, AllUnique]
  | @registerCharacterDevice f d name device hi =>
    obtain ⟨nodeLinks, hl, ha⟩ := appends_device h name device hi
    rw [allUnique_appends h hi ha, ← find_eq_none_iff hl]
    simp [NewName, hi]

open Classical in
/-- **Unique entries**: in every state reached, the names of each directory are distinct and every
node but the root is linked once exactly when no call made a directory, or a node under a name
that was taken. -/
theorem allUnique_iff {d : D} {es : List NodeCall}
    (h : Run (step devices) (VirtualFileSystem.new d) es s) :
    AllUnique s ↔
      Run (guarded (NewName devices) (step devices)) (VirtualFileSystem.new d) es s := by
  refine h.iff_guarded (J := Trees) (fun s e t hj hs => hj.effect (hj.step_effect hs))
    (fun s e t hj hs => step_iff hj hs) (trees_new d) fun f i hi => ?_
  rw [List.mem_singleton.mp (List.mem_of_getElem? hi)]
  exact uniqueEntries_newInstance 0 .tmpfs

/-- A directory `/a` is made. -/
def makeDirectory : List NodeCall := [.make .mkdir ⟨0, 0, .directory⟩ "a"]

open Classical in
theorem allUnique_iff_run :
    AllUnique (reach (step noDevices) (VirtualFileSystem.new ()) makeDirectory) ↔
      Run (guarded (NewName noDevices) (step noDevices)) (VirtualFileSystem.new ()) makeDirectory
        (reach (step noDevices) (VirtualFileSystem.new ()) makeDirectory) :=
  allUnique_iff (run_reach (by decide +kernel))

lemma not_allUnique {dir : Node} (hl : s.world.entries dir = some nodeLinks)
    (hn : ¬ (nodeLinks.map NodeLink.name).Nodup) : ¬ AllUnique s := by
  intro hu
  simp only [Files.entries, Option.bind_eq_bind, Option.bind_eq_some_iff] at hl
  obtain ⟨i, hi, hl⟩ := hl
  exact hn ((hu _ i hi).names _ _ hl)

/-- After `mkdir` of `/a` the root lists `a` twice. -/
theorem mkdir_links_twice :
    let s := reach (step noDevices) (VirtualFileSystem.new ()) makeDirectory
    Run (step noDevices) (VirtualFileSystem.new ()) makeDirectory s ∧
      (s.world.entries ⟨0, 0, .directory⟩).map (List.map NodeLink.name) =
        some [".", "..", "a", "a"] ∧ ¬ AllUnique s := by
  refine ⟨run_reach (by decide +kernel), by decide +kernel, ?_⟩
  have hl : (reach (step noDevices) (VirtualFileSystem.new ()) makeDirectory).world.entries
      ⟨0, 0, .directory⟩ = some (newDirectory ⟨0, 0, .directory⟩ ⟨0, 0, .directory⟩ ++
        List.replicate 2 ⟨"a", 0, 1, .directory⟩) := by decide +kernel
  exact not_allUnique hl (by decide)

end Pimento.EntryNames
