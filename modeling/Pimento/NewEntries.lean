import Pimento.PathCalls

/-!
What a creation by path leaves behind.

A path that led nowhere leads to the new node, and a path that led somewhere still leads there:
the lookup takes the oldest entry of a name, and creation appends the newest.
-/

namespace Pimento.NewEntries

open FileTree MountTable NodeCalls ParentLookup PathCalls VirtualFileSystem Walk

variable {D : Type} (devices : CharacterDevices D)

section

variable (s s' : Vfs (Files D))

/-- The path ends in a name, and its parent path leads to a directory of a temporary file system. -/
def InDirectory (path : PathInfo) : Prop :=
  ∃ name n dir b t, path.lastToken = some (.literal name) ∧
    PathToken.fromStr name = .literal name ∧
    (FileManager.walk (Files.fileSystem devices) path.parent s).1 = .ok n ∧
    (resolveSubtree (Files.fileSystem devices) n s).1 = .ok (dir, b) ∧
    dir.nodeType = .directory ∧ s.world.instances[dir.fileSystem]? = some (.tmpfs t)

/-- The node a call has made. -/
def New (node : Node) : Prop := s'.world.Known node ∧ ¬ s.world.Known node

/-- The path leads to the node, which opens as an empty directory or an empty file. -/
def OpensEmpty (path : PathInfo) (node : Node) : Creation → Prop
  | .mkdir => (FileManager.opendir (Files.fileSystem devices) path s).1 = .ok (Directory.new node) ∧
    ∃ parent, ∀ position,
      (readDirectory (Files.fileSystem devices) ⟨s, ⟨node, position⟩⟩).1 =
        .ok (newDirectory node parent)[position]?
  | .mknod => (FileManager.openFile (Files.fileSystem devices) path s).1 = .ok (File.new node) ∧
    s.world.contents node = some []

end

variable {devices} {s s' : Vfs (Files D)} {n dir node : Node} {name : String} {op : Creation}
  {t t' : Tmpfs} {nodeLinks : List NodeLink} {path : PathInfo}

lemma mem_put (f : FsId) (i : Instance) (hlt : f < s.world.instances.length) :
    (put s f i).world.instances[f]? = some i := by
  simp [put, hlt]

/-- The new node of a creation. -/
lemma new_make (h : Inv s) (hp : Places devices s n name dir t)
    (hm : op.Makes dir name nodeLinks t t') :
    New s (put s dir.fileSystem (.tmpfs t')) ⟨dir.fileSystem, t.nodeCounter, op.nodeType⟩ := by
  have hlt := (List.getElem?_eq_some_iff.mp hp.tmpfs).1
  have ht := (hp.adds hm).typeOf_new (h.tree _ _ hp.tmpfs)
  refine ⟨⟨.tmpfs t', mem_put _ _ hlt, ?_, ht.symm⟩, ?_⟩
  · simp [Instance.nodeCounter, hm.counter]
  · rintro ⟨i, hi, hb, -⟩
    obtain rfl := Option.some.inj (hp.tmpfs.symm.trans hi)
    simp [Instance.nodeCounter] at hb

/-- The name leads to the new node where it led nowhere before. -/
lemma find_make (hp : Places devices s n name dir t) (hm : op.Makes dir name nodeLinks t t')
    (hf : find s.world dir name = none) :
    find (put s dir.fileSystem (.tmpfs t')).world dir name =
      some ⟨dir.fileSystem, t.nodeCounter, op.nodeType⟩ := by
  have hlt := (List.getElem?_eq_some_iff.mp hp.tmpfs).1
  have hl : s.world.entries dir = some nodeLinks := by
    simp [Files.entries, hp.tmpfs, Instance.directories, hm.entries]
  have hl' : (put s dir.fileSystem (.tmpfs t')).world.entries dir = some (nodeLinks ++
      List.replicate op.copies ⟨name, dir.fileSystem, t.nodeCounter, op.nodeType⟩) := by
    simp [Files.entries, mem_put _ _ hlt, Instance.directories, hm.directories]
  have hnone : nodeLinks.find? (fun c => c.name = name) = none := by
    simpa [find, hl] using hf
  simp only [find, hl', Option.bind_some, List.find?_append, hnone]
  cases op <;> simp [Creation.copies, List.replicate]

lemma top_of_places (h : Inv s) (hn : s.world.Known n) (hp : Places devices s n name dir t) :
    top (Files.fileSystem devices) s n = dir := by
  obtain ⟨b, hr⟩ := hp.resolved
  have he := ((h.table devices).resolveSubtree_eq hn).symm.trans hr
  simp only [Prod.mk.injEq, Outcome.ok.injEq] at he
  exact he.1.1

/-- The path of a creation leads through the directory to its name. -/
lemma follow_path (h : Inv s) (hn : s.world.Known n) (hp : Places devices s n name dir t)
    (hl : path.lastToken = some (.literal name))
    (hx : follow devices s path.parent.tokens (start devices s path.start) = some n) :
    follow devices s path.tokens (start devices s path.start) = find s.world dir name := by
  rw [tokens_eq hl, follow_append, hx, Option.bind_some, follow_singleton, next,
    top_of_places h hn hp]
  simp only [hp.directory, if_true, PathToken.toStr]

lemma inv_make (h : Inv s) (hp : Places devices s n name dir t)
    (hm : op.Makes dir name nodeLinks t t') : Inv (put s dir.fileSystem (.tmpfs t')) :=
  h.set hp.tmpfs (hp.adds hm).grows ((hp.adds hm).tree (h.tree _ _ hp.tmpfs))

/-- Nothing is mounted on the new node. -/
lemma top_make (h : Inv s) (hp : Places devices s n name dir t)
    (hm : op.Makes dir name nodeLinks t t') :
    top (Files.fileSystem devices) (put s dir.fileSystem (.tmpfs t'))
        ⟨dir.fileSystem, t.nodeCounter, op.nodeType⟩ =
      ⟨dir.fileSystem, t.nodeCounter, op.nodeType⟩ := by
  rw [top_extends (extends_make h hp hm) h (inv_make h hp hm)]
  refine (h.table devices).top_of_none (up_eq_none.mpr fun m hmem heq => ?_)
  have hnew := new_make h hp hm
  rw [← heq] at hnew
  exact hnew.2 (h.point m hmem).1

section

variable (h : Inv s) (hstart : Startable s path.start) (hp : Places devices s n name dir t)
  (hm : op.Makes dir name nodeLinks t t') (hl : path.lastToken = some (.literal name))
  (hx : follow devices s path.parent.tokens (start devices s path.start) = some n)

include h hstart hp hm hl hx

/-- A path that led nowhere leads to the new node. -/
lemma follow_make (hnone : follow devices s path.tokens (start devices s path.start) = none) :
    follow devices (put s dir.fileSystem (.tmpfs t')) path.tokens
        (start devices (put s dir.fileSystem (.tmpfs t')) path.start) =
      some ⟨dir.fileSystem, t.nodeCounter, op.nodeType⟩ := by
  have hn := h.follow_known (h.start_known devices hstart) hx
  have he := extends_make h hp hm
  have h' := inv_make h hp hm
  rw [follow_path h hn hp hl hx] at hnone
  rw [start_extends he h h', tokens_eq hl, follow_append, follow_extends he h h' hx,
    Option.bind_some, follow_singleton, next, top_extends he h h', top_of_places h hn hp]
  simp only [hp.directory, if_true, PathToken.toStr]
  exact find_make hp hm hnone

/-- The path opens what is new there. -/
lemma opensEmpty_make (hnone : follow devices s path.tokens (start devices s path.start) = none) :
    OpensEmpty devices (put s dir.fileSystem (.tmpfs t')) path
      ⟨dir.fileSystem, t.nodeCounter, op.nodeType⟩ op := by
  have hlt := (List.getElem?_eq_some_iff.mp hp.tmpfs).1
  have he := extends_make h hp hm
  have h' := inv_make h hp hm
  have hw := h'.walk_eq devices path (startable_extends he hstart)
  have htop := top_make h hp hm
  have hk := (new_make h hp hm).1
  have hne : dir.nodeId ≠ t.nodeCounter :=
    ((h.tree _ _ hp.tmpfs).below dir.nodeId
      (by simp [Instance.isDirectory, Instance.directories, hm.entries])).ne
  rw [follow_make h hstart hp hm hl hx hnone] at hw
  cases op with
  | mkdir =>
    have hentries : (put s dir.fileSystem (.tmpfs t')).world.entries
        ⟨dir.fileSystem, t.nodeCounter, .directory⟩ =
          some (newDirectory ⟨dir.fileSystem, t.nodeCounter, .directory⟩ dir) := by
      simp [Files.entries, mem_put _ _ hlt, Instance.directories, hm.directories, hne.symm]
    refine ⟨?_, dir, fun position => congrArg Prod.fst (h'.readDirectory_eq devices hk hentries)⟩
    unfold FileManager.opendir
    rw [Exec.bind_ok hw, h'.opendir_eq devices hk, htop]
    rfl
  | mknod =>
    refine ⟨?_, ?_⟩
    · unfold FileManager.openFile
      rw [Exec.bind_ok hw, openFile_eq devices h' hk, htop]
      rfl
    · simp only [Files.contents, mem_put _ _ hlt, hm.files, and_self, if_true]

end

/-- A walk ends with a known node, or with an error. -/
lemma walk_cases (devices : CharacterDevices D) (h : Inv s) (hp : Startable s path.start) :
    (∃ m, (FileManager.walk (Files.fileSystem devices) path s).1 = .ok m ∧ s.world.Known m) ∨
      (FileManager.walk (Files.fileSystem devices) path s).1 = .err ∧
        follow devices s path.tokens (start devices s path.start) = none := by
  rw [walk_result h devices path hp]
  rcases hx : follow devices s path.tokens (start devices s path.start) with _ | m
  · exact .inr ⟨rfl, rfl⟩
  · exact .inl ⟨m, rfl, h.follow_known (h.start_known devices hp) hx⟩

lemma places_of_inDirectory (h : Inv s) (hp : Startable s path.start)
    (hi : InDirectory devices s path) :
    ∃ n name dir t, path.lastToken = some (.literal name) ∧
      follow devices s path.parent.tokens (start devices s path.start) = some n ∧
      Places devices s n name dir t := by
  obtain ⟨name, n, dir, b, t, hl, hname, hw, hres, hd, hi⟩ := hi
  have hw' := walk_result h devices path.parent (by rwa [parent_start])
  rw [parent_start] at hw'
  rw [hw] at hw'
  rcases hx : follow devices s path.parent.tokens (start devices s path.start) with _ | n'
  · simp [hx] at hw'
  · obtain rfl : n = n' := by simpa [hx] using hw'
    have hn := h.follow_known (h.start_known devices hp) hx
    have hr := (h.table devices).resolveSubtree_eq hn
    rw [hr] at hres
    obtain ⟨rfl, -⟩ : _ = dir ∧ _ = b := by simpa using hres
    refine ⟨n, name, _, t, hl, rfl, ⟨_, hr⟩, h.top_known devices hn, hd, ?_, hi⟩
    constructor <;> rintro rfl <;> simp [PathToken.fromStr, currentName, parentName] at hname

/-- **Creation by path**: a path that leads nowhere in a directory of a temporary file system leads
to a new, empty node after its creation, which returns `Ok`; and whatever a creation returns, every
path that led to a node still leads there, and every file keeps its bytes. -/
theorem creation {d : D} (op : Creation) (hr : Used devices d s) (hp : Startable s path.start) :
    let s' := (op.byPath devices path s).2
    (InDirectory devices s path →
      (FileManager.walk (Files.fileSystem devices) path s).1 = .err →
      (op.byPath devices path s).1 = .ok () ∧
        ∃ node, (FileManager.walk (Files.fileSystem devices) path s').1 = .ok node ∧
          (∀ q, Startable s q.start →
            (FileManager.walk (Files.fileSystem devices) q s).1 ≠ .ok node) ∧
          OpensEmpty devices s' path node op) ∧
    (∀ q m, Startable s q.start →
      (FileManager.walk (Files.fileSystem devices) q s).1 = .ok m →
      (FileManager.walk (Files.fileSystem devices) q s').1 = .ok m) ∧
    ∀ m, s.world.Known m → s'.world.contents m = s.world.contents m := by
  have h := Inv.of_used hr
  have he := extends_byPath devices h op hp
  have h' := inv_byPath devices h op hp
  refine ⟨fun hin herr => ?_, fun q m hq hw => walk_extends he h h' hq hw, he.contents⟩
  rcases byPath_cases devices h op hp with ⟨n, name, dir, t, nodeLinks, t', hl, hx, hpl, hm, hres⟩ |
    ⟨hno, -⟩
  · have hnone : follow devices s path.tokens (start devices s path.start) = none := by
      rcases walk_cases devices h hp with ⟨m, hw, -⟩ | ⟨-, hnone⟩
      · simp [hw] at herr
      · exact hnone
    simp only [hres]
    refine ⟨trivial, ⟨dir.fileSystem, t.nodeCounter, op.nodeType⟩, ?_, fun q hq hw => ?_,
      opensEmpty_make h hp hpl hm hl hx hnone⟩
    · rw [walk_result (inv_make h hpl hm) devices path
        (startable_extends (extends_make h hpl hm) hp), follow_make h hp hpl hm hl hx hnone]
    · rcases walk_cases devices h hq with ⟨m, hm', hk⟩ | ⟨hm', -⟩
      · obtain rfl : m = _ := by simpa [hm'] using hw
        exact (new_make h hpl hm).2 hk
      · simp [hm'] at hw
  · obtain ⟨n, name, dir, t, hl, hx, hpl⟩ := places_of_inDirectory h hp hin
    exact absurd hpl (hno n name hl hx dir t)

/-- The path `/a/b`, where a file system is mounted on `/a`. -/
def entryAB : PathInfo := ⟨[.literal "a", .literal "b"], .root⟩

lemma inDirectory_entryAB : InDirectory noDevices withMount entryAB := by
  refine ⟨"b", ⟨0, 1, .directory⟩, ⟨1, 0, .directory⟩, true, _, rfl, ?_, ?_, ?_, rfl, rfl⟩
  · decide +kernel
  · decide +kernel
  · decide +kernel

theorem creation_entryAB :
    let s' := (Creation.mknod.byPath noDevices entryAB withMount).2
    (Creation.mknod.byPath noDevices entryAB withMount).1 = .ok () ∧
      ∃ node, (FileManager.walk (Files.fileSystem noDevices) entryAB s').1 = .ok node ∧
        (∀ q, Startable withMount q.start →
          (FileManager.walk (Files.fileSystem noDevices) q withMount).1 ≠ .ok node) ∧
        OpensEmpty noDevices s' entryAB node .mknod :=
  (creation .mknod reachable_withMount.used (show Startable withMount entryAB.start from trivial)).1
    inDirectory_entryAB (by decide +kernel)

/-- **Created node**: after a creation that returns `Ok` its path leads to the node made by it
exactly when it led nowhere before. -/
theorem created_iff {d : D} (op : Creation) (hr : Used devices d s) (hp : Startable s path.start)
    (hok : (op.byPath devices path s).1 = .ok ()) :
    (∃ node, (FileManager.walk (Files.fileSystem devices) path
        (op.byPath devices path s).2).1 = .ok node ∧ New s (op.byPath devices path s).2 node) ↔
      (FileManager.walk (Files.fileSystem devices) path s).1 = .err := by
  have h := Inv.of_used hr
  have he := extends_byPath devices h op hp
  have h' := inv_byPath devices h op hp
  rcases walk_cases devices h hp with ⟨m, hw, hk⟩ | ⟨hw, hnone⟩
  · -- the path led somewhere, and still leads there
    have hw' := walk_extends he h h' hp hw
    simp only [hw, hw', reduceCtorEq, iff_false, not_exists, not_and]
    intro node hnode hnew
    obtain rfl : m = node := by simpa using hnode
    exact hnew.2 hk
  · simp only [hw, iff_true]
    rcases byPath_cases devices h op hp with
      ⟨n, name, dir, t, nodeLinks, t', hl, hx, hpl, hm, hres⟩ | ⟨-, hres⟩
    · simp only [hres]
      refine ⟨_, ?_, new_make h hpl hm⟩
      rw [walk_result (inv_make h hpl hm) devices path
        (startable_extends (extends_make h hpl hm) hp), follow_make h hp hpl hm hl hx hnone]
    · simp [hres] at hok

theorem created_iff_again :
    (∃ node, (FileManager.walk (Files.fileSystem noDevices) (rootEntry "a")
        (Creation.mkdir.byPath noDevices (rootEntry "a") withDirectory).2).1 = .ok node ∧
          New withDirectory (Creation.mkdir.byPath noDevices (rootEntry "a") withDirectory).2 node) ↔
      (FileManager.walk (Files.fileSystem noDevices) (rootEntry "a") withDirectory).1 = .err :=
  created_iff .mkdir reachable_withDirectory.used trivial (by decide +kernel)

/-- `mkdir` of `/a` where `/a` is there already returns `Ok`, and the path leads to the old node. -/
theorem mkdir_again_hides :
    let s' := (Creation.mkdir.byPath noDevices (rootEntry "a") withDirectory).2
    Used noDevices () withDirectory ∧
      (Creation.mkdir.byPath noDevices (rootEntry "a") withDirectory).1 = .ok () ∧
      (FileManager.walk (Files.fileSystem noDevices) (rootEntry "a") s').1 =
        .ok ⟨0, 1, .directory⟩ ∧
      ¬ New withDirectory s' ⟨0, 1, .directory⟩ ∧ New withDirectory s' ⟨0, 2, .directory⟩ := by
  have hold : withDirectory.world.Known ⟨0, 1, .directory⟩ := by decide +kernel
  refine ⟨reachable_withDirectory.used, by decide +kernel, by decide +kernel, fun hn => hn.2 hold,
    ?_, ?_⟩
  · decide +kernel
  · decide +kernel

end Pimento.NewEntries
