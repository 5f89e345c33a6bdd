import Pimento.FileTree

/-!
What walking a path finds.

In a state that is well formed every call of the walk goes the way of the mount table and the
stored links: each token opens the highest subtree of the current node and takes the first link
of that name.
-/

namespace Pimento.Walk

open FileTree MountTable VirtualFileSystem

variable {D : Type} (devices : CharacterDevices D)

/-- The file systems are trees, and the mount table is about them. -/
structure Inv (s : Vfs (Files D)) : Prop where
  tree : ∀ f i, s.world.instances[f]? = some i → Tree f i
  root : s.rootFileSystem < s.world.instances.length
  stacked : Stacked s.mounts
  point : ∀ m ∈ s.mounts, s.world.Known m.mountPoint ∧ m.mountPoint.nodeType = .directory
  subtree : ∀ m ∈ s.mounts, m.subtree < s.world.instances.length

/-- The first link with this name in a directory. -/
def find (w : Files D) (node : Node) (name : String) : Option Node :=
  (w.entries node).bind fun nodeLinks =>
    (nodeLinks.find? fun nodeLink => nodeLink.name = name).map NodeLink.node

variable (s : Vfs (Files D))

/-- Where a token leads. -/
def next (node : Node) (token : PathToken) : Option Node :=
  let node := top (Files.fileSystem devices) s node
  if node.nodeType = .directory then find s.world node token.toStr else none

def follow : List PathToken → Node → Option Node
  | [], node => some node
  | token :: tokens, node => (next devices s node token).bind (follow tokens)

variable {devices s} {n m dir : Node} {f : FsId} {i : Instance}

lemma known_lt (hn : s.world.Known n) : n.fileSystem < s.world.instances.length := by
  obtain ⟨i, hi, -⟩ := hn
  exact (List.getElem?_eq_some_iff.mp hi).1

/-- The links of a directory that is known. -/
lemma exists_entries (hn : s.world.Known dir) (hd : dir.nodeType = .directory) :
    ∃ i nodeLinks, s.world.instances[dir.fileSystem]? = some i ∧
      i.directories[dir.nodeId]? = some nodeLinks ∧ s.world.entries dir = some nodeLinks := by
  obtain ⟨i, hi, -, ht⟩ := hn
  have hdir := typeOf_eq_directory.mp (ht.symm.trans hd)
  obtain ⟨nodeLinks, hl⟩ := Option.isSome_iff_exists.mp hdir
  exact ⟨i, nodeLinks, hi, hl, by simp [Files.entries, hi, hl]⟩

lemma known_of_child {k : ℕ} (hi : s.world.instances[f]? = some i) (hc : Child f i k n) :
    s.world.Known n := ⟨i, by rw [hc.fileSystem, hi], hc.below, hc.nodeType⟩

lemma known_directory {k : ℕ} (ht : Tree f i) (hi : s.world.instances[f]? = some i)
    (hk : i.isDirectory k) : s.world.Known ⟨f, k, .directory⟩ :=
  ⟨i, hi, ht.below k hk, (typeOf_eq_directory.mpr hk).symm⟩

namespace Inv

variable (h : Inv s)

include h

/-- The mount table of a well-formed state. -/
lemma table (devices : CharacterDevices D) : Table (Files.fileSystem devices) s s.world.Known where
  stacked := h.stacked
  same := by
    rintro ⟨f, k, _⟩ ⟨f', k', _⟩ ⟨i, hi, -, hn⟩ ⟨i', hi', -, hm⟩ hs
    simp only [Node.same, Bool.and_eq_true, decide_eq_true_eq] at hs hi hi' hn hm
    obtain ⟨rfl, rfl⟩ := hs
    obtain rfl := Option.some.inj (hi.symm.trans hi')
    rw [hn, hm]
  alive n hn := by simpa [Files.fileSystem] using known_lt hn
  root f hf := by
    have hlt : f < s.world.instances.length := by simpa [Files.fileSystem] using hf
    have hi := List.getElem?_eq_getElem hlt
    have ht := h.tree f _ hi
    simp only [Files.fileSystem, hi, Option.map_some, Option.getD_some, ht.root]
    exact ⟨known_directory ht hi ht.rootDirectory, trivial⟩
  point m hm := (h.point m hm).1
  subtree m hm := by simpa [Files.fileSystem] using h.subtree m hm

/-- The root of a file system. -/
lemma root_eq (devices : CharacterDevices D) (hf : f < s.world.instances.length) :
    (Files.fileSystem devices).root f s.world = ⟨f, 0, .directory⟩ := by
  have hi := List.getElem?_eq_getElem hf
  simp [Files.fileSystem, hi, (h.tree f _ hi).root]

/-- Every link leads to a node of the same file system. -/
lemma known_of_mem {nodeLinks : List NodeLink} {c : NodeLink} (hn : s.world.Known dir)
    (hd : dir.nodeType = .directory) (hl : s.world.entries dir = some nodeLinks)
    (hc : c ∈ nodeLinks) : s.world.Known c.node ∧ c.node.fileSystem = dir.fileSystem := by
  obtain ⟨i, l, hi, hil, he⟩ := exists_entries hn hd
  obtain rfl := Option.some.inj (hl.symm.trans he)
  have ht := h.tree _ i hi
  obtain ⟨parent, rest, rfl, hp, -, -, hr⟩ := ht.listing _ _ hil
  rcases List.mem_append.mp hc with hc | hc
  · have hdir : i.isDirectory dir.nodeId := by simp [Instance.isDirectory, hil]
    simp only [newDirectory, List.mem_cons, List.not_mem_nil, or_false] at hc
    rcases hc with rfl | rfl
    · exact ⟨known_directory ht hi hdir, rfl⟩
    · exact ⟨known_directory ht hi hp, rfl⟩
  · exact ⟨known_of_child hi (hr c hc), (hr c hc).fileSystem⟩

lemma find_known {name : String} (hn : s.world.Known dir) (hd : dir.nodeType = .directory)
    (hf : find s.world dir name = some n) :
    s.world.Known n ∧ n.fileSystem = dir.fileSystem := by
  obtain ⟨i, l, hi, hil, he⟩ := exists_entries hn hd
  simp only [find, he, Option.bind_some, Option.map_eq_some_iff] at hf
  obtain ⟨c, hc, rfl⟩ := hf
  exact h.known_of_mem hn hd he (List.mem_of_find?_eq_some hc)

lemma top_known (devices : CharacterDevices D) (hn : s.world.Known n) :
    s.world.Known (top (Files.fileSystem devices) s n) := (h.table devices).top_known hn

lemma next_known {token : PathToken} (hn : s.world.Known n)
    (hx : next devices s n token = some m) :
    s.world.Known m ∧ m.fileSystem = (top (Files.fileSystem devices) s n).fileSystem := by
  unfold next at hx
  simp only at hx
  split at hx
  · rename_i hd
    exact h.find_known (h.top_known devices hn) hd hx
  · simp at hx

lemma follow_known {tokens : List PathToken} (hn : s.world.Known n)
    (hx : follow devices s tokens n = some m) : s.world.Known m := by
  induction tokens generalizing n with
  | nil =>
    obtain rfl := Option.some.inj hx
    exact hn
  | cons token tokens ih =>
    obtain ⟨n', hn', hx'⟩ := Option.bind_eq_some_iff.mp hx
    exact ih (h.next_known hn hn').1 hx'

/-- The parent that a directory names. -/
lemma find_parent (hn : s.world.Known dir) (hd : dir.nodeType = .directory) :
    ∃ parent, find s.world dir parentName = some ⟨dir.fileSystem, parent, .directory⟩ ∧
      s.world.Known ⟨dir.fileSystem, parent, .directory⟩ ∧
      (dir.nodeId = 0 → parent = 0) ∧ (dir.nodeId ≠ 0 → parent < dir.nodeId) := by
  obtain ⟨i, nodeLinks, hi, hl, he⟩ := exists_entries hn hd
  have ht := h.tree _ i hi
  obtain ⟨parent, rest, rfl, hp, h0, hlt, -⟩ := ht.listing _ _ hl
  refine ⟨parent, ?_, known_directory ht hi hp, h0, hlt⟩
  simp [find, he, newDirectory, currentName, parentName]

/-- The root of a mounted file system names itself. -/
lemma find_parent_root (devices : CharacterDevices D) {m : Mount} (hm : m ∈ s.mounts) :
    find s.world ((Files.fileSystem devices).root m.subtree s.world) parentName =
      some ((Files.fileSystem devices).root m.subtree s.world) := by
  have hk := (h.table devices).root _ ((h.table devices).subtree m hm)
  have hr := h.root_eq devices (h.subtree m hm)
  obtain ⟨parent, hf, -, h0, -⟩ := h.find_parent hk.1 (by rw [hr])
  rw [hf, hr, h0 (by rw [hr])]

/-- A directory names the one it is linked in as its parent. -/
lemma find_parent_child {child : Node} {name : String} (hn : s.world.Known dir)
    (hd : dir.nodeType = .directory)
    (hname : name ≠ currentName ∧ name ≠ parentName)
    (hf : find s.world dir name = some child) (hc : child.nodeType = .directory) :
    find s.world child parentName = some dir := by
  obtain ⟨i, nodeLinks, hi, hl, he⟩ := exists_entries hn hd
  obtain ⟨parent, rest, rfl, -, -, -, hr⟩ := (h.tree _ i hi).listing _ _ hl
  simp only [find, he, Option.bind_some, Option.map_eq_some_iff, newDirectory, List.cons_append,
    List.nil_append, List.find?_cons, hname.1.symm, hname.2.symm, decide_false] at hf
  obtain ⟨link, hlink, rfl⟩ := hf
  have hch := hr link (List.mem_of_find?_eq_some hlink)
  obtain ⟨rest', hl'⟩ := hch.parent hc
  have he' : s.world.entries link.node =
      some (newDirectory link.node ⟨dir.fileSystem, dir.nodeId, .directory⟩ ++ rest') := by
    simp [Files.entries, hch.fileSystem, hi, hl']
  simp only [find, he', Option.bind_some, newDirectory, List.cons_append, List.find?_cons,
    currentName, parentName]
  simp [← hd]

/-- `opendir` opens the highest subtree, which has to be a directory. -/
lemma opendir_eq (devices : CharacterDevices D) (hn : s.world.Known n) :
    VirtualFileSystem.opendir (Files.fileSystem devices) n s =
      let node := top (Files.fileSystem devices) s n
      (if node.nodeType = .directory then .ok (Directory.new node) else .err, s) := by
  have ht := h.table devices
  have hk := ht.top_known hn
  unfold VirtualFileSystem.opendir
  rw [Exec.bind_ok (ht.resolveSubtree_eq hn)]
  generalize top (Files.fileSystem devices) s n = node at hk ⊢
  obtain ⟨i, hi, -⟩ := id hk
  have ho : VirtualFileSystem.onWorld ((Files.fileSystem devices).opendir node.fileSystem node) s =
      (.ok (), s) :=
    onWorld_same (Files.call_same hi (fun t _ => rfl) (fun d _ => rfl))
  by_cases hd : node.nodeType = .directory
  · simp only [hd, decide_true, Exec.guard_true, Exec.pure_bind, if_true]
    rw [Exec.bind_ok (ht.points.upgrade_eq hk), Exec.bind_ok ho]
    rfl
  · simp [hd]

/-- `Directory::readdir` reads the link at the position. -/
lemma readDirectory_eq (devices : CharacterDevices D) {nodeLinks : List NodeLink} {position : ℕ}
    (hn : s.world.Known dir)
    (hl : s.world.entries dir = some nodeLinks) :
    readDirectory (Files.fileSystem devices) ⟨s, ⟨dir, position⟩⟩ =
      (.ok nodeLinks[position]?, ⟨s, ⟨dir, position + 1⟩⟩) := by
  obtain ⟨i, hi, -⟩ := id hn
  have hil : i.directories[dir.nodeId]? = some nodeLinks := by simpa [Files.entries, hi] using hl
  have hr := Files.readdir_eq devices position hi hil
  have ha : (Files.fileSystem devices).alive dir.fileSystem s.world = true :=
    (h.table devices).alive dir hn
  have hd : Directory.readdir (Files.fileSystem devices) ⟨s.world, ⟨dir, position⟩⟩ =
      (.ok nodeLinks[position]?, ⟨s.world, ⟨dir, position + 1⟩⟩) :=
    Directory.readdir_ok ha hr
  simp [readDirectory, hd]

lemma findLink_eq (devices : CharacterDevices D) (name : String) {nodeLinks : List NodeLink}
    {k : ℕ} (position : ℕ) (hn : s.world.Known dir) (hl : s.world.entries dir = some nodeLinks)
    (hk : nodeLinks.length - position < k) :
    ∃ position', findLink (Files.fileSystem devices) name k ⟨s, ⟨dir, position⟩⟩ =
      (match (nodeLinks.drop position).find? fun nodeLink => nodeLink.name = name with
        | some nodeLink => .ok nodeLink
        | none => .err, ⟨s, ⟨dir, position'⟩⟩) := by
  induction k generalizing position with
  | zero => omega
  | succ k ih =>
    unfold findLink
    rw [h.readDirectory_eq devices hn hl]
    rcases hp : nodeLinks[position]? with _ | c
    · rw [List.drop_eq_nil_of_le (List.getElem?_eq_none_iff.mp hp)]
      exact ⟨position + 1, rfl⟩
    · obtain ⟨hlt, rfl⟩ := List.getElem?_eq_some_iff.mp hp
      rw [List.drop_eq_getElem_cons hlt, List.find?_cons]
      by_cases hc : nodeLinks[position].name = name
      · exact ⟨position + 1, by simp only [hc, if_true, decide_true]⟩
      · obtain ⟨position', hp'⟩ := ih (position + 1) (by omega)
        exact ⟨position', by simp only [hc, if_false, decide_false, hp']⟩

/-- Reading a directory from its start finds the first link of a name. -/
lemma findLink_new (devices : CharacterDevices D) (name : String) {nodeLinks : List NodeLink}
    (hn : s.world.Known dir)
    (hl : s.world.entries dir = some nodeLinks) :
    Handle.withHandle (Directory.new dir) (findLink (Files.fileSystem devices) name
      ((Files.fileSystem devices).readBound (Directory.new dir).node s.world)) s =
      (match nodeLinks.find? fun nodeLink => nodeLink.name = name with
        | some nodeLink => .ok nodeLink
        | none => .err, s) := by
  obtain ⟨position, hf⟩ := h.findLink_eq devices name
    (k := (Files.fileSystem devices).readBound dir s.world) 0 hn hl
    (by simp [Files.fileSystem, hl])
  simp only [Handle.withHandle, Directory.new, hf, List.drop_zero]

/-- A token leads where the stored links say, and walking changes nothing. -/
lemma walkToken_eq (devices : CharacterDevices D) (token : PathToken) (hn : s.world.Known n) :
    FileManager.walkToken (Files.fileSystem devices) n token s =
      (match next devices s n token with
        | some m => .ok m
        | none => .err, s) := by
  have hk := h.top_known devices hn
  have ho := h.opendir_eq devices hn
  unfold FileManager.walkToken next
  generalize top (Files.fileSystem devices) s n = node at hk ho ⊢
  by_cases hd : node.nodeType = .directory
  · obtain ⟨i, nodeLinks, -, -, hl⟩ := exists_entries hk hd
    have hf := h.findLink_new devices token.toStr hk hl
    simp only [hd, if_true] at ho ⊢
    rw [Exec.bind_ok ho, Exec.get_bind]
    simp only [find, hl, Option.bind_some]
    rcases hfind : nodeLinks.find? fun nodeLink => nodeLink.name = token.toStr with _ | c
    · rw [hfind] at hf
      rw [Exec.bind_err hf]
      simp [hfind]
    · rw [hfind] at hf
      rw [Exec.bind_ok hf]
      simp [hfind]
  · simp only [hd, if_false] at ho ⊢
    rw [Exec.bind_err ho]

/-- **Walking**: a walk over the tokens follows the stored links through the mount table, and
changes nothing. -/
theorem walkTokens_eq {tokens : List PathToken} (hn : s.world.Known n) :
    FileManager.walkTokens (Files.fileSystem devices) tokens n s =
      (match follow devices s tokens n with
        | some m => .ok m
        | none => .err, s) := by
  induction tokens generalizing n with
  | nil => rfl
  | cons token tokens ih =>
    have hw := h.walkToken_eq devices token hn
    unfold FileManager.walkTokens follow
    rcases hx : next devices s n token with _ | m
    · rw [hx] at hw
      rw [Exec.bind_err hw]
      rfl
    · rw [hx] at hw
      rw [Exec.bind_ok hw, ih (h.next_known hn hx).1]
      rfl

end Inv

/-- Two nodes are the same directory when `resolve_subtree` maps them to the same node. -/
def sameDirectory (devices : CharacterDevices D) (s : Vfs (Files D)) (n m : Node) : Bool :=
  match (resolveSubtree (Files.fileSystem devices) n s).1,
    (resolveSubtree (Files.fileSystem devices) m s).1 with
  | .ok (n, _), .ok (m, _) => n.same m
  | _, _ => false

lemma Inv.sameDirectory_iff (devices : CharacterDevices D) (h : Inv s) (hn : s.world.Known n)
    (hm : s.world.Known m) :
    sameDirectory devices s n m ↔
      top (Files.fileSystem devices) s n = top (Files.fileSystem devices) s m := by
  have ht := h.table devices
  unfold sameDirectory
  simp only [ht.resolveSubtree_eq hn, ht.resolveSubtree_eq hm]
  rw [ht.points.same_iff (ht.top_known hn) (ht.top_known hm)]
  simp

/-- The node a path starts at. -/
def start (devices : CharacterDevices D) (s : Vfs (Files D)) : PathStart → Node
  | .root => (Files.fileSystem devices).root s.rootFileSystem s.world
  | .node n => n

namespace Inv

variable (h : Inv s)

include h

lemma start_known (devices : CharacterDevices D) {p : PathStart} (hp : Startable s p) :
    s.world.Known (start devices s p) := by
  cases p with
  | root =>
    exact ((h.table devices).root _ (by simpa [Files.fileSystem] using h.root)).1
  | node n => exact hp

lemma walk_eq (devices : CharacterDevices D) (path : PathInfo) (hp : Startable s path.start) :
    FileManager.walk (Files.fileSystem devices) path s =
      (match follow devices s path.tokens (start devices s path.start) with
        | some m => .ok m
        | none => .err, s) := by
  have hs : FileManager.startNode (Files.fileSystem devices) path.start s =
      (.ok (start devices s path.start), s) := by
    cases path.start <;> rfl
  unfold FileManager.walk
  rw [Exec.bind_ok hs, h.walkTokens_eq (h.start_known devices hp)]

end Inv

end Pimento.Walk
