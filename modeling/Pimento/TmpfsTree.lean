import Pimento.NodeCalls

/-!
The tree of a temporary file system.

Directories, files, the counter and the links agree, and every link is to the node made under
its number. The nodes made so far are recorded beside the state.
-/

namespace Pimento.TmpfsTree

open FileTree MountTable NodeCalls Runs VirtualFileSystem Walk

variable {D : Type} (devices : CharacterDevices D)

/-- The node that making one in the directory of a parent adds, under the next number. -/
def nextNode (s : Vfs (Files D)) (op : Creation) (parent : Node) : List Node :=
  match (resolveSubtree (Files.fileSystem devices) parent s).1 with
  | .ok (dir, _) => ((s.world.instances[dir.fileSystem]?).map fun i =>
      (⟨dir.fileSystem, i.nodeCounter, op.nodeType⟩ : Node)).toList
  | _ => []

/-- The node a call makes. -/
def made (s : Vfs (Files D)) : NodeCall → List Node
  | .make op parent name =>
    if (op.byNode devices parent name s).1 = .ok () then nextNode devices s op parent else []
  | _ => []

/-- A call, with the nodes made so far. -/
def recorded (p : Vfs (Files D) × List Node) (e : NodeCall) : Option (Vfs (Files D) × List Node) :=
  (step devices p.1 e).map fun s' => (s', p.2 ++ made devices p.1 e)

/-- The nodes of a file system in the order they were made, from its root on. -/
def creations (f : FsId) (log : List Node) : List Node :=
  ⟨f, 0, .directory⟩ :: log.filter fun n => n.fileSystem = f

/-- A link of some directory. -/
def Linked (t : Tmpfs) (c : NodeLink) : Prop :=
  ∃ (k : ℕ) (nodeLinks : List NodeLink), t.directories[k]? = some nodeLinks ∧ c ∈ nodeLinks

/-- The second directory is the `..` of the first. -/
def ParentOf (t : Tmpfs) (k parent : ℕ) : Prop :=
  ∃ (nodeLinks : List NodeLink) (c : NodeLink), t.directories[k]? = some nodeLinks ∧
    nodeLinks[1]? = some c ∧ c.name = parentName ∧ c.node.nodeId = parent

/-- A temporary file system whose maps and links agree, with the nodes made in it. -/
structure Consistent (f : FsId) (t : Tmpfs) (made : List Node) : Prop where
  disjoint : ∀ k : ℕ, k ∈ t.directories → k ∉ t.files
  below : ∀ k : ℕ, k ∈ t.directories ∨ k ∈ t.files → k < t.nodeCounter
  link : ∀ c, Linked t c → c.node.fileSystem = f ∧
    (c.node.nodeType = .directory ∧ c.node.nodeId ∈ t.directories ∨
      c.node.nodeType = .file ∧ c.node.nodeId ∈ t.files)
  /-- Two linked nodes of one number are one node, made once. -/
  creation : ∀ c c', Linked t c → Linked t c' → c.node.nodeId = c'.node.nodeId →
    ∃! j : ℕ, made[j]? = some c.node ∧ made[j]? = some c'.node
  number : (made.map Node.nodeId).Nodup
  listing : ∀ (k : ℕ) (nodeLinks : List NodeLink), t.directories[k]? = some nodeLinks →
    ∃ parent rest,
      nodeLinks = newDirectory ⟨f, k, .directory⟩ ⟨f, parent, .directory⟩ ++ rest ∧
      (k = 0 → parent = 0) ∧
      (k ≠ 0 → ∃ (links : List NodeLink) (c : NodeLink), t.directories[parent]? = some links ∧
        c ∈ links ∧ c.name ≠ currentName ∧ c.name ≠ parentName ∧ c.node = ⟨f, k, .directory⟩) ∧
      ∀ c ∈ rest, c.name ≠ currentName ∧ c.name ≠ parentName
  climbs : ∀ k : ℕ, k ∈ t.directories → Relation.ReflTransGen (ParentOf t) k 0

/-- What holds of a temporary file system besides its being a tree. -/
structure Filled (f : FsId) (t : Tmpfs) (log : List Node) : Prop where
  files : ∀ k : ℕ, k ∈ t.files ↔ k < t.nodeCounter ∧ k ∉ t.directories
  made : creations f log =
    (List.range t.nodeCounter).map fun j => ⟨f, j, (Instance.tmpfs t).typeOf j⟩
  names : ∀ (k : ℕ) (nodeLinks : List NodeLink), t.directories[k]? = some nodeLinks →
    ∀ c ∈ nodeLinks.drop 2, c.name ≠ currentName ∧ c.name ≠ parentName
  /-- The directory that a directory names as its parent lists it among its children. -/
  parent : ∀ k p : ℕ, k ≠ 0 → ParentOf t k p →
    ∃ nodeLinks, t.directories[p]? = some nodeLinks ∧ ∃ c ∈ nodeLinks.drop 2, c.node.nodeId = k

variable {devices} {s s' : Vfs (Files D)} {e : NodeCall} {f : FsId} {t t' : Tmpfs} {k : ℕ}
  {log : List Node} {op : Creation} {dir : Node} {name : String} {nodeLinks : List NodeLink}

lemma mem_directories : k ∈ t.directories ↔ (Instance.tmpfs t).isDirectory k := by
  simp [Instance.isDirectory, Instance.directories]

/-- A link is to the node made under its number. -/
lemma node_of_linked (ht : Tree f (.tmpfs t)) {c : NodeLink} (hc : Linked t c) :
    c.node.nodeId < t.nodeCounter ∧
      c.node = ⟨f, c.node.nodeId, (Instance.tmpfs t).typeOf c.node.nodeId⟩ := by
  obtain ⟨k, l, hl, hc⟩ := hc
  have hk : (Instance.tmpfs t).isDirectory k := by
    simp [Instance.isDirectory, Instance.directories, hl]
  obtain ⟨parent, rest, rfl, hp, -, -, hr⟩ := ht.listing k l hl
  rcases List.mem_append.mp hc with hc | hc
  · simp only [newDirectory, List.mem_cons, List.not_mem_nil, or_false] at hc
    rcases hc with rfl | rfl
    · exact ⟨ht.below k hk, by rw [typeOf_eq_directory.mpr hk]⟩
    · exact ⟨ht.below parent hp, by rw [typeOf_eq_directory.mpr hp]⟩
  · obtain ⟨hf, hb, hty, -⟩ := hr c hc
    exact ⟨hb, by rw [← hty, ← hf]⟩

/-- **Parents**: a node that some directory links, the root among them, may be given to a call. -/
theorem known_of_linked (h : Trees s) (hi : s.world.instances[f]? = some (.tmpfs t)) {c : NodeLink}
    (hc : Linked t c) : s.world.Known c.node := by
  obtain ⟨hlt, hn⟩ := node_of_linked (h.tree f _ hi) hc
  exact ⟨.tmpfs t, by rw [hn, hi], hlt, congrArg Node.nodeType hn⟩

lemma creations_getElem (h : Filled f t log) (j : ℕ) : (creations f log)[j]? =
    if j < t.nodeCounter then some ⟨f, j, (Instance.tmpfs t).typeOf j⟩ else none := by
  rw [h.made, List.getElem?_map]
  by_cases hj : j < t.nodeCounter
  · rw [List.getElem?_range hj, if_pos hj, Option.map_some]
  · rw [List.getElem?_eq_none (by simpa using hj), if_neg hj, Option.map_none]

/-- The `..` of a directory is the parent of its listing. -/
lemma parentOf_iff {p parent : ℕ} {rest : List NodeLink} (hl : t.directories[k]? =
    some (newDirectory ⟨f, k, .directory⟩ ⟨f, parent, .directory⟩ ++ rest)) :
    ParentOf t k p ↔ p = parent := by
  constructor
  · rintro ⟨l, c, hl', hc, -, rfl⟩
    obtain rfl := Option.some.inj (hl.symm.trans hl')
    obtain rfl : _ = c := by simpa [newDirectory] using hc
    rfl
  · rintro rfl
    exact ⟨_, ⟨parentName, f, p, .directory⟩, hl, rfl, rfl, rfl⟩

/-- Going up from a directory leads to the root, as numbers fall. -/
lemma climbs (ht : Tree f (.tmpfs t)) (hk : k ∈ t.directories) :
    Relation.ReflTransGen (ParentOf t) k 0 := by
  induction k using Nat.strong_induction_on with
  | _ k ih =>
    obtain ⟨l, hl⟩ := Option.isSome_iff_exists.mp (mem_directories.mp hk)
    obtain ⟨parent, rest, rfl, hp, -, hlt, -⟩ := ht.listing k l hl
    by_cases h0 : k = 0
    · rw [h0]
    · exact .head ((parentOf_iff hl).mpr rfl) (ih parent (hlt h0) (mem_directories.mpr hp))

/-- A tree that is filled is consistent. -/
lemma consistent (ht : Tree f (.tmpfs t)) (h : Filled f t log) :
    Consistent f t (creations f log) := by
  have hnode := fun c (hc : Linked t c) => node_of_linked ht hc
  have htype : ∀ k, (Instance.tmpfs t).typeOf k = .directory ↔ k ∈ t.directories := fun k =>
    typeOf_eq_directory.trans mem_directories.symm
  have hbelow : ∀ k, k ∈ t.directories → k < t.nodeCounter :=
    fun k hk => ht.below k (mem_directories.mp hk)
  refine ⟨fun k hd hf => ((h.files k).mp hf).2 hd, fun k hk => ?_, fun c hc => ?_, ?_, ?_, ?_,
    fun k => climbs ht⟩
  · exact hk.elim (hbelow k) fun hf => ((h.files k).mp hf).1
  · obtain ⟨hlt, hn⟩ := hnode c hc
    rw [hn]
    refine ⟨rfl, ?_⟩
    by_cases hd : c.node.nodeId ∈ t.directories
    · exact .inl ⟨(htype _).mpr hd, hd⟩
    · refine .inr ⟨?_, (h.files _).mpr ⟨hlt, hd⟩⟩
      simp [Instance.typeOf, ← mem_directories, hd, Instance.leafType]
  · intro c c' hc hc' hid
    obtain ⟨hlt, hn⟩ := hnode c hc
    obtain ⟨-, hn'⟩ := hnode c' hc'
    have he : c'.node = c.node := by rw [hn, hn', hid]
    refine ⟨c.node.nodeId, ?_, fun j hj => ?_⟩
    · simp only [he, creations_getElem h, hlt, if_true, ← hn, and_self]
    · obtain ⟨hj, -⟩ := hj
      rw [creations_getElem h] at hj
      split at hj
      · rw [← Option.some.inj hj]
      · simp at hj
  · rw [h.made, List.map_map]
    exact (List.map_id _).symm ▸ List.nodup_range
  · intro k l hl
    obtain ⟨parent, rest, rfl, hp, h0, hlt, hr⟩ := ht.listing k l hl
    refine ⟨parent, rest, rfl, h0, fun hk => ?_, fun c hc => h.names k _ hl c ?_⟩
    · obtain ⟨links, hlinks, c, hc, hid⟩ := h.parent k parent hk ((parentOf_iff hl).mpr rfl)
      have hmem := List.mem_of_mem_drop hc
      have hname := h.names parent links hlinks c hc
      obtain ⟨-, hn⟩ := hnode c ⟨parent, links, hlinks, hmem⟩
      refine ⟨links, c, hlinks, hmem, hname.1, hname.2, ?_⟩
      have hkd : k ∈ t.directories := by
        rw [mem_directories, Instance.isDirectory]
        exact Option.isSome_iff_exists.mpr ⟨_, hl⟩
      rw [hn, hid, (htype k).mpr hkd]
    · simpa [newDirectory] using hc

lemma creations_append (nodeType : NodeType) :
    creations f (log ++ [⟨f, k, nodeType⟩]) = creations f log ++ [⟨f, k, nodeType⟩] := by
  simp [creations]

/-- A new file system has made nothing but its root. -/
lemma filled_new (hlog : ∀ n ∈ log, n.fileSystem ≠ f) : Filled f (.new f) log := by
  have hd := directories_newInstance f .tmpfs
  have hmem : ∀ k, k ∈ (Tmpfs.new f).directories ↔ k = 0 := by
    intro k
    rw [mem_directories, Instance.isDirectory, show (Instance.tmpfs (.new f)).directories[k]? = _
      from hd k]
    split <;> simp [*]
  have hl : ∀ (k : ℕ) (l : List NodeLink), (Tmpfs.new f).directories[k]? = some l →
      k = 0 ∧ l = newDirectory ⟨f, 0, .directory⟩ ⟨f, 0, .directory⟩ := by
    intro k l hl
    rw [show (Tmpfs.new f).directories[k]? = _ from hd k] at hl
    split at hl
    · exact ⟨‹_›, (Option.some.inj hl).symm⟩
    · simp at hl
  refine ⟨fun k => ?_, ?_, fun k l hk c hc => ?_, fun k p hk hp => ?_⟩
  · rw [hmem, show (Tmpfs.new f).nodeCounter = 1 from rfl]
    simp only [Tmpfs.new, Std.TreeMap.not_mem_emptyc, false_iff, not_and, not_not]
    omega
  · have h0 : (Instance.tmpfs (.new f)).typeOf 0 = .directory :=
      typeOf_eq_directory.mpr (mem_directories.mp ((hmem 0).mpr rfl))
    rw [creations, List.filter_eq_nil_iff.mpr (by simpa using hlog),
      show (Tmpfs.new f).nodeCounter = 1 from rfl]
    simp [List.range_succ, h0]
  · obtain ⟨-, rfl⟩ := hl k l hk
    simp [newDirectory] at hc
  · obtain ⟨l, -, hl', -⟩ := hp
    exact absurd (hl k l hl').1 hk

section

variable (ht : Tree f (.tmpfs t)) (hm : op.Makes dir name nodeLinks t t')
  (hd : dir = ⟨f, dir.nodeId, .directory⟩)

include ht hm

lemma dir_lt : dir.nodeId < t.nodeCounter :=
  ht.below dir.nodeId (by simp [Instance.isDirectory, Instance.directories, hm.entries])

lemma mem_directories_makes : k ∈ t'.directories ↔
    k ∈ t.directories ∨ k = t.nodeCounter ∧ op = .mkdir := by
  have hlt := dir_lt ht hm
  have hdir : dir.nodeId ∈ t.directories := by
    rw [mem_directories, Instance.isDirectory]
    exact Option.isSome_iff_exists.mpr ⟨_, hm.entries⟩
  have hk := hm.directories k
  have hiff : ∀ {t : Tmpfs}, k ∈ t.directories ↔ (t.directories[k]?).isSome := mem_directories
  rw [hiff, hk]
  split
  · rename_i he
    simp [he, hdir]
  · split
    · rename_i hc
      simp [hc]
    · rename_i hc
      simp [hc]

/-- Making a node keeps a file system filled. -/
lemma filled_makes (h : Filled f t log) (hd : dir = ⟨f, dir.nodeId, .directory⟩)
    (hname : name ≠ currentName ∧ name ≠ parentName) :
    Filled f t' (log ++ [⟨f, t.nodeCounter, op.nodeType⟩]) := by
  have hf : dir.fileSystem = f := congrArg Node.fileSystem hd
  have ha : Adds f (.tmpfs t) dir.nodeId nodeLinks op.nodeType (.tmpfs t') := by
    have ha := hm.adds (by rw [hf]; exact hd)
    rwa [hf] at ha
  have hlen : ∀ (k : ℕ) (l : List NodeLink), t.directories[k]? = some l → 2 ≤ l.length := by
    intro k l hl
    obtain ⟨parent, rest, rfl, -⟩ := ht.listing k l hl
    simp [newDirectory]
  refine ⟨fun k => ?_, ?_, fun k l hl c hc => ?_, fun k p hk hp => ?_⟩
  · have hdir := mem_directories_makes (k := k) ht hm
    have hfile : k ∈ t'.files ↔ k ∈ t.files ∨ k = t.nodeCounter ∧ op = .mknod := by
      rw [Std.TreeMap.mem_iff_isSome_getElem?, Std.TreeMap.mem_iff_isSome_getElem?, hm.files]
      split
      · simp [*]
      · simp [*]
    have hold := h.files k
    have hlt : k ∈ t.directories → k < t.nodeCounter := fun hk => ht.below k (mem_directories.mp hk)
    rw [hfile, hdir, hm.counter, hold]
    by_cases hk : k = t.nodeCounter
    · have hnot : k ∉ t.directories := fun hk' => (hlt hk').ne hk
      cases op <;> simp [hk, hk ▸ hnot]
    · simp only [hk, false_and, or_false, and_congr_left_iff]
      omega
  · rw [creations_append, h.made, hm.counter, List.range_succ, List.map_append]
    congr 1
    · refine List.map_congr_left fun j hj => ?_
      rw [ha.typeOf_of_lt (List.mem_range.mp hj)]
    · have hnew := ha.typeOf_new ht
      simp only [Instance.nodeCounter] at hnew
      simp [hnew]
  · rcases hm.links hl with ⟨-, -, rfl⟩ | ⟨old, new, hold, rfl, hnew⟩
    · simp [newDirectory] at hc
    · rw [List.drop_append_of_le_length (hlen k old hold)] at hc
      rcases List.mem_append.mp hc with hc | hc
      · exact h.names k old hold c hc
      · rw [hnew c hc]
        exact hname
  · obtain ⟨l, c, hl, hc, hcn, rfl⟩ := hp
    rcases hm.links hl with ⟨rfl, hop, rfl⟩ | ⟨old, new, hold, rfl, hnew⟩
    · -- the new directory is linked in its parent
      obtain rfl : _ = c := by simpa [newDirectory] using hc
      refine ⟨_, (hm.directories _).trans (if_pos rfl),
        ⟨name, dir.fileSystem, t.nodeCounter, op.nodeType⟩, ?_, rfl⟩
      rw [List.drop_append_of_le_length (hlen _ _ hm.entries)]
      exact List.mem_append_right _ (by simp [hop, Creation.copies])
    · rw [List.getElem?_append_left (hlen k old hold)] at hc
      obtain ⟨links, hlinks, c', hc', hid⟩ := h.parent k _ hk ⟨old, c, hold, hc, hcn, rfl⟩
      obtain ⟨more, hmore⟩ := hm.old_links
        (ht.below _ (by simp [Instance.isDirectory, Instance.directories, hlinks])).ne hlinks
      refine ⟨_, hmore, c', ?_, hid⟩
      rw [List.drop_append_of_le_length (hlen _ _ hlinks)]
      exact List.mem_append_left _ hc'

end

/-- The record of a state: it names nodes of its file systems, and each temporary file system is
filled by it. -/
structure Recorded (s : Vfs (Files D)) (log : List Node) : Prop where
  trees : Trees s
  below : ∀ n ∈ log, n.fileSystem < s.world.instances.length
  filled : ∀ f t, s.world.instances[f]? = some (.tmpfs t) → Filled f t log

lemma made_of_places {parent : Node} (h : Trees s) (hp : Places devices s parent name dir t)
    (op : Creation) :
    made devices s (.make op parent name) = [⟨dir.fileSystem, t.nodeCounter, op.nodeType⟩] := by
  obtain ⟨b, hr⟩ := hp.resolved
  obtain ⟨nodeLinks, t', -, he⟩ := h.byNode_of_places hp op
  simp [made, nextNode, hr, he, hp.tmpfs, Instance.nodeCounter]

/-- What is made elsewhere does not count. -/
lemma Filled.append (h : Filled f t log) {n : Node} (hn : n.fileSystem ≠ f) :
    Filled f t (log ++ [n]) := by
  have hc : creations f (log ++ [n]) = creations f log := by simp [creations, hn]
  exact ⟨h.files, hc ▸ h.made, h.names, h.parent⟩

lemma Recorded.step (h : Recorded s log) (hs : step devices s e = some s') :
    Recorded s' (log ++ made devices s e) := by
  have htrees := h.trees.effect (h.trees.step_effect hs)
  cases h.trees.step_effect hs with
  | refused hr =>
    have hm : made devices s e = [] := by
      cases e with
      | make op parent name =>
        refine if_neg fun hok => ?_
        rcases h.trees.byNode_cases devices op name (step_eq_some.mp hs).1 with ⟨dir, t, hp⟩ | he |
          ⟨-, he⟩
        · exact hr dir t hp
        · simp [he] at hok
        · simp [he] at hok
      | create kind => rfl
      | mount mountPoint f => rfl
      | registerCharacterDevice f name device => rfl
    rw [hm, List.append_nil]
    exact h
  | create kind =>
    rw [show made devices s (.create kind) = [] from rfl, List.append_nil]
    refine ⟨htrees, fun n hn => (h.below n hn).trans_le (by simp [withNew]), fun f t ht => ?_⟩
    simp only [withNew] at ht
    rcases Nat.lt_or_ge f s.world.instances.length with hf | hf
    · rw [List.getElem?_append_left hf] at ht
      exact h.filled f t ht
    · rw [List.getElem?_append_right hf, List.getElem?_singleton] at ht
      split at ht
      · rename_i hz
        obtain rfl := le_antisymm (Nat.sub_eq_zero_iff_le.mp hz) hf
        cases kind with
        | tmpfs =>
          obtain rfl : Tmpfs.new s.world.instances.length = t := by
            simpa [Files.newInstance] using ht
          exact filled_new fun n hn => (h.below n hn).ne
        | devfs => simp [Files.newInstance] at ht
      · simp at ht
  | @make op parent dir name nodeLinks t t' hp hm =>
    rw [made_of_places h.trees hp]
    have hlt := (List.getElem?_eq_some_iff.mp hp.tmpfs).1
    refine ⟨htrees, fun n hn => ?_, fun g u hu => ?_⟩
    · simp only [put, List.length_set]
      rcases List.mem_append.mp hn with hn | hn
      · exact h.below n hn
      · rw [List.mem_singleton.mp hn]
        exact hlt
    · by_cases hg : g = dir.fileSystem
      · subst hg
        obtain rfl : t' = u := by simpa [put, hlt] using hu
        exact filled_makes (h.trees.tree _ _ hp.tmpfs) hm (h.filled _ _ hp.tmpfs)
          (by rw [← hp.directory]) hp.name
      · refine (h.filled g u ?_).append (Ne.symm hg)
        simpa [put, Ne.symm hg] using hu
  | @mount mountPoint point b f hr hk ht hd hs hf =>
    rw [show made devices s (.mount mountPoint f) = [] from rfl, List.append_nil]
    exact ⟨htrees, h.below, h.filled⟩
  | @registerCharacterDevice f d name device hi =>
    rw [show made devices s (.registerCharacterDevice f name device) = [] from rfl, List.append_nil]
    have hlt := (List.getElem?_eq_some_iff.mp hi).1
    refine ⟨htrees, fun n hn => by simpa [put] using h.below n hn, fun g u hu => ?_⟩
    by_cases hg : g = f
    · subst hg
      simp [put, hlt] at hu
    · exact h.filled g u (by simpa [put, Ne.symm hg] using hu)

/-- **Tree of a temporary file system**: in every state that any calls lead to, the maps, the
counter and the links of every temporary file system agree with each other and with the record of
the nodes made in it, and every directory leads up to the root. -/
theorem tmpfs_consistent {d : D} {es : List NodeCall}
    (h : Run (recorded devices) (VirtualFileSystem.new d, []) es (s, log))
    (ht : s.world.instances[f]? = some (.tmpfs t)) : Consistent f t (creations f log) := by
  have hrec : Recorded s log := by
    refine h.invariant (I := fun p => Recorded p.1 p.2) (fun p e q hp hq => ?_) ?_
    · obtain ⟨s', hs', rfl⟩ := Option.map_eq_some_iff.mp hq
      exact hp.step hs'
    · refine ⟨trees_new d, by simp, fun f t ht => ?_⟩
      cases f with
      | zero =>
        obtain rfl : Tmpfs.new 0 = t := by simpa [VirtualFileSystem.new] using ht
        exact filled_new (by simp)
      | succ f => simp [VirtualFileSystem.new] at ht
  exact consistent (hrec.trees.tree f _ ht) (hrec.filled f t ht)

/-- Every run can be recorded. -/
lemma exists_recorded {es : List NodeCall} (h : Run (step devices) s es s') :
    ∃ log, Run (recorded devices) (s, []) es (s', log) := by
  induction h with
  | nil => exact ⟨[], .nil _⟩
  | @snoc t u es e _ hs ih =>
    obtain ⟨log, hr⟩ := ih
    refine ⟨log ++ made devices t e, hr.snoc ?_⟩
    simp only [recorded, hs, Option.map_some]

/-- The directory `/a` with a file `/a/b` in it. -/
def makeTree : List NodeCall :=
  [.make .mkdir ⟨0, 0, .directory⟩ "a", .make .mknod ⟨0, 1, .directory⟩ "b"]

theorem tmpfs_consistent_run : ∃ (log : List Node) (t : Tmpfs),
    (reach (step noDevices) (VirtualFileSystem.new ()) makeTree).world.instances[0]? =
      some (.tmpfs t) ∧
      Consistent 0 t (creations 0 log) := by
  have hr : Run (step noDevices) (VirtualFileSystem.new ()) makeTree
      (reach (step noDevices) (VirtualFileSystem.new ()) makeTree) := run_reach (by decide +kernel)
  obtain ⟨log, h⟩ := exists_recorded hr
  exact ⟨log, _, rfl, tmpfs_consistent h rfl⟩

end Pimento.TmpfsTree
