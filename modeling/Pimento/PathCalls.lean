import Pimento.FileUse
import Pimento.MountCycles
import Pimento.ParentLookup

/-!
Making directories and files by path.

What a call adds it appends: the nodes that were known stay known, and every walk that found one
finds it again.
-/

namespace Pimento

open Climb FileTree MountTable NodeCalls ParentLookup VirtualFileSystem Walk

/-- The operation of the file manager. -/
def Creation.byPath {D : Type} (devices : CharacterDevices D) :
    Creation → PathInfo → Exec (Vfs (Files D)) Unit
  | .mkdir => FileManager.mkdir (Files.fileSystem devices)
  | .mknod => FileManager.mknod (Files.fileSystem devices)

namespace PathCalls

variable {D : Type}

/-- The second state has all that the first has, and maybe more entries. -/
structure Extends (s s' : Vfs (Files D)) : Prop where
  rootFileSystem : s'.rootFileSystem = s.rootFileSystem
  mounts : s'.mounts = s.mounts
  known : ∀ n, s.world.Known n → s'.world.Known n
  entries : ∀ n nodeLinks, s.world.entries n = some nodeLinks →
    ∃ more, s'.world.entries n = some (nodeLinks ++ more)
  contents : ∀ n, s.world.Known n → s'.world.contents n = s.world.contents n

variable {devices : CharacterDevices D} {s s' : Vfs (Files D)} {n m dir : Node} {name : String}
  {op : Creation} {t t' : Tmpfs} {nodeLinks : List NodeLink} {path : PathInfo}

lemma Extends.refl (s : Vfs (Files D)) : Extends s s :=
  ⟨rfl, rfl, fun _ => id, fun _ nodeLinks h => ⟨[], by simpa using h⟩, fun _ _ => rfl⟩

section

variable (he : Extends s s') (h : Inv s) (h' : Inv s')

include he h h'

/-- The mount table stays as it is. -/
lemma top_extends (devices : CharacterDevices D) (n : Node) :
    top (Files.fileSystem devices) s' n = top (Files.fileSystem devices) s n := by
  simp only [top, he.mounts, MountCycles.up_congr devices (Inv.trees h) (Inv.trees h') he.mounts]

omit h h' in
lemma find_extends (hf : find s.world dir name = some m) : find s'.world dir name = some m := by
  obtain ⟨nodeLinks, hl, hf⟩ := Option.bind_eq_some_iff.mp hf
  obtain ⟨more, hm⟩ := he.entries dir nodeLinks hl
  obtain ⟨c, hc, rfl⟩ := Option.map_eq_some_iff.mp hf
  simp [find, hm, List.find?_append, hc]

lemma next_extends {token : PathToken} (hx : next devices s n token = some m) :
    next devices s' n token = some m := by
  simp only [next, top_extends he h h'] at hx ⊢
  split at hx
  · rename_i hd
    rw [if_pos hd]
    exact find_extends he hx
  · simp at hx

/-- **Paths stay**: a walk that succeeds leads to the same node after an extension. -/
theorem follow_extends {tokens : List PathToken} (hx : follow devices s tokens n = some m) :
    follow devices s' tokens n = some m := by
  induction tokens generalizing n with
  | nil => exact hx
  | cons token tokens ih =>
    obtain ⟨n', hn', hx'⟩ := Option.bind_eq_some_iff.mp hx
    exact Option.bind_eq_some_iff.mpr ⟨n', next_extends he h h' hn', ih hx'⟩

lemma start_extends (devices : CharacterDevices D) (p : PathStart) :
    start devices s' p = start devices s p := by
  cases p with
  | root =>
    simp only [start, he.rootFileSystem, MountCycles.root_eq devices (Inv.trees h),
      MountCycles.root_eq devices (Inv.trees h')]
  | node n => rfl

omit h h' in
lemma startable_extends {p : PathStart} (hp : Startable s p) : Startable s' p := by
  cases p with
  | root => trivial
  | node n => exact he.known n hp

lemma walk_extends (hp : Startable s path.start)
    (hw : (FileManager.walk (Files.fileSystem devices) path s).1 = .ok m) :
    (FileManager.walk (Files.fileSystem devices) path s').1 = .ok m := by
  rw [walk_result h devices path hp] at hw
  rw [walk_result h' devices path (startable_extends he hp), start_extends he h h']
  rcases hx : follow devices s path.tokens (start devices s path.start) with _ | m'
  · simp [hx] at hw
  · obtain rfl : m' = m := by simpa [hx] using hw
    rw [follow_extends he h h' hx]

end

/-- Making a node extends the state. -/
lemma extends_make (h : Inv s) (hp : Places devices s n name dir t)
    (hm : op.Makes dir name nodeLinks t t') : Extends s (put s dir.fileSystem (.tmpfs t')) := by
  have hlt := (List.getElem?_eq_some_iff.mp hp.tmpfs).1
  refine ⟨rfl, rfl, fun m => known_set hp.tmpfs (hp.adds hm).grows, fun m l hl => ?_,
    fun m hk => ?_⟩
  · simp only [Files.entries, Option.bind_eq_bind, Option.bind_eq_some_iff] at hl ⊢
    obtain ⟨i, hi, hl⟩ := hl
    by_cases hf : m.fileSystem = dir.fileSystem
    · rw [hf] at hi ⊢
      obtain rfl := Option.some.inj (hp.tmpfs.symm.trans hi)
      have hbelow := (h.tree _ _ hp.tmpfs).below m.nodeId (by simp [Instance.isDirectory, hl])
      obtain ⟨new, hnew⟩ := hm.old_links hbelow.ne hl
      exact ⟨new, .tmpfs t', by simp [put, hlt], hnew⟩
    · exact ⟨[], i, by simp [put, Ne.symm hf, hi], by simpa using hl⟩
  · obtain ⟨i, hi, hb, -⟩ := hk
    by_cases hf : m.fileSystem = dir.fileSystem
    · rw [hf] at hi
      obtain rfl := Option.some.inj (hp.tmpfs.symm.trans hi)
      have hk : ¬ (m.nodeId = t.nodeCounter ∧ op = .mknod) := fun hc => hb.ne hc.1
      have hput : (put s dir.fileSystem (.tmpfs t')).world.instances[dir.fileSystem]? =
          some (.tmpfs t') := by
        simp [put, hlt]
      simp only [Files.contents, hf, hput, hp.tmpfs, hm.files, hk, if_false]
    · simp [Files.contents, put, Ne.symm hf]

lemma parent_start (path : PathInfo) : path.parent.start = path.start := by
  unfold PathInfo.parent
  split <;> rfl

/-- In a well-formed state making a node succeeds where a name can be given, and is refused
elsewhere. -/
lemma byNode_cases (devices : CharacterDevices D) (h : Inv s) (op : Creation) (name : String)
    (hn : s.world.Known n) :
    (∃ dir t nodeLinks t', Places devices s n name dir t ∧ op.Makes dir name nodeLinks t t' ∧
      op.byNode devices n name s = (.ok (), put s dir.fileSystem (.tmpfs t'))) ∨
    ((∀ dir t, ¬ Places devices s n name dir t) ∧ op.byNode devices n name s = (.err, s)) := by
  by_cases hp : ∃ dir t, Places devices s n name dir t
  · obtain ⟨dir, t, hp⟩ := hp
    obtain ⟨nodeLinks, t', hm, he⟩ := (Inv.trees h).byNode_of_places hp op
    exact .inl ⟨dir, t, nodeLinks, t', hp, hm, he⟩
  · simp only [not_exists] at hp
    rcases (Inv.trees h).byNode_cases devices op name hn with ⟨dir, t, hp'⟩ | he | ⟨hh, -⟩
    · exact absurd hp' (hp dir t)
    · exact .inr ⟨hp, he⟩
    · have hr := (h.table devices).resolveSubtree_eq hn
      simp [hh] at hr

/-- A creation by path makes a node where its parent path and its last token lead, or changes
nothing. -/
theorem byPath_cases (devices : CharacterDevices D) (h : Inv s) (op : Creation)
    (hp : Startable s path.start) :
    (∃ n name dir t nodeLinks t', path.lastToken = some (.literal name) ∧
        follow devices s path.parent.tokens (start devices s path.start) = some n ∧
        Places devices s n name dir t ∧ op.Makes dir name nodeLinks t t' ∧
        op.byPath devices path s = (.ok (), put s dir.fileSystem (.tmpfs t'))) ∨
      (∀ n name, path.lastToken = some (.literal name) →
        follow devices s path.parent.tokens (start devices s path.start) = some n →
          ∀ dir t, ¬ Places devices s n name dir t) ∧ op.byPath devices path s = (.err, s) := by
  have hop : op.byPath devices path =
      FileManager.atLastToken (Files.fileSystem devices) (op.byNode devices) path := by
    cases op <;> rfl
  have hw := h.walk_eq devices path.parent (by rwa [parent_start])
  rw [parent_start] at hw
  rw [hop, FileManager.atLastToken]
  rcases hx : follow devices s path.parent.tokens (start devices s path.start) with _ | n
  · rw [hx] at hw
    exact .inr ⟨by simp, Exec.bind_err hw⟩
  · rw [hx] at hw
    have hn := h.follow_known (h.start_known devices hp) hx
    rw [Exec.bind_ok hw]
    rcases hl : path.lastToken with _ | token
    · exact .inr ⟨by simp, rfl⟩
    · cases token with
      | current => exact .inr ⟨by simp, rfl⟩
      | parent => exact .inr ⟨by simp, rfl⟩
      | literal name =>
        rcases byNode_cases devices h op name hn with ⟨dir, t, nodeLinks, t', hpl, hm, he⟩ |
          ⟨hno, he⟩
        · exact .inl ⟨n, name, dir, t, nodeLinks, t', rfl, rfl, hpl, hm, he⟩
        · refine .inr ⟨fun n' name' hname hn' => ?_, he⟩
          obtain rfl : name = name' := by simpa using hname
          obtain rfl := Option.some.inj hn'
          exact hno

/-- A creation by path extends the state. -/
lemma extends_byPath (devices : CharacterDevices D) (h : Inv s) (op : Creation)
    (hp : Startable s path.start) : Extends s (op.byPath devices path s).2 := by
  rcases byPath_cases devices h op hp with ⟨n, name, dir, t, nodeLinks, t', -, -, hpl, hm, he⟩ |
    ⟨-, he⟩
  · rw [he]
    exact extends_make h hpl hm
  · rw [he]
    exact .refl s

lemma inv_byPath (devices : CharacterDevices D) (h : Inv s) (op : Creation)
    (hp : Startable s path.start) : Inv (op.byPath devices path s).2 := by
  cases op with
  | mkdir => exact h.mkdir hp
  | mknod => exact h.mknod hp

/-- A path that ends in a literal is the path of its parent and one more token. -/
lemma tokens_eq (hl : path.lastToken = some (.literal name)) :
    path.tokens = path.parent.tokens ++ [.literal name] := by
  obtain ⟨l, hl⟩ := List.getLast?_eq_some_iff.mp hl
  simp [PathInfo.parent, hl]

/-- `open` opens the highest subtree, which must not be a directory. -/
lemma openFile_eq (devices : CharacterDevices D) (h : Inv s) (hn : s.world.Known n) :
    VirtualFileSystem.openFile (Files.fileSystem devices) n s =
      let node := top (Files.fileSystem devices) s n
      (if node.nodeType = .directory then .err else .ok (File.new node), s) := by
  have ht := h.table devices
  have hk := ht.top_known hn
  unfold VirtualFileSystem.openFile
  rw [Exec.bind_ok (ht.resolveSubtree_eq hn)]
  generalize top (Files.fileSystem devices) s n = node at hk ⊢
  obtain ⟨i, hi, -⟩ := id hk
  have ho : VirtualFileSystem.onWorld ((Files.fileSystem devices).openFile node.fileSystem node) s =
      (.ok (), s) :=
    onWorld_same (Files.call_same hi (fun t _ => rfl) (fun d _ => rfl))
  by_cases hd : node.nodeType = .directory
  · simp [hd]
  · simp only [ne_eq, hd, not_false_eq_true, decide_true, Exec.guard_true, Exec.pure_bind, if_false]
    rw [Exec.bind_ok (ht.points.upgrade_eq hk), Exec.bind_ok ho]
    rfl

end PathCalls

end Pimento
