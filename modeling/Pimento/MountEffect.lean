import Pimento.FileUse
import Pimento.MountCycles
import Pimento.ParentLookup

/-!
What a mount changes.

Paths through the mount point lead into the new file system. A walk that does not open the node
the mount is recorded on goes as before, and open directories and files are not touched.
-/

namespace Pimento.MountEffect

open Climb FileTree MountTable NodeCalls ParentLookup VirtualFileSystem Walk

variable {D : Type} (devices : CharacterDevices D)

section

variable (s s' : Vfs (Files D))

/-- The directories a walk over the tokens opens. -/
def opens : List PathToken → Node → List Node
  | [], _ => []
  | token :: tokens, node =>
    match (VirtualFileSystem.opendir (Files.fileSystem devices) node s).1 with
    | .ok directory => directory.node ::
      match (FileManager.walkToken (Files.fileSystem devices) node token s).1 with
      | .ok next => opens tokens next
      | _ => []
    | _ => []

/-- The directories a walk of the path opens. -/
def opened (path : PathInfo) : List Node :=
  match (FileManager.startNode (Files.fileSystem devices) path.start s).1 with
  | .ok node => opens devices s path.tokens node
  | _ => []

/-- The path with more tokens. -/
def extend (path : PathInfo) (tokens : List PathToken) : PathInfo :=
  { path with tokens := path.tokens ++ tokens }

/-- Where tokens lead inside a file system, by its stored links alone. -/
def inside (w : Files D) : List PathToken → Node → Option Node
  | [], node => some node
  | token :: tokens, node =>
    if node.nodeType = .directory then (find w node token.toStr).bind (inside w tokens) else none

/-- The path leads as far as the tokens lead inside the file system, and to the same node up to
`resolve_subtree`. -/
def LeadsInside (path : PathInfo) (subtree : FsId) (tokens : List PathToken) : Prop :=
  match (FileManager.walk (Files.fileSystem devices) (extend path tokens) s).1,
    inside s.world tokens ((Files.fileSystem devices).root subtree s.world) with
  | .ok node, some target => sameDirectory devices s node target
  | .err, none => True
  | _, _ => False

/-- What a mount of a file system on a path does, where the mount point resolves to a node. -/
structure Mounted (path : PathInfo) (subtree : FsId) (node : Node) : Prop where
  below : ∀ tokens, LeadsInside devices s' path subtree tokens
  elsewhere : ∀ q, Startable s q.start → node ∉ opened devices s q →
    (FileManager.walk (Files.fileSystem devices) q s').1 =
      (FileManager.walk (Files.fileSystem devices) q s).1
  readdir : ∀ directory,
    (readDirectory (Files.fileSystem devices) ⟨s', directory⟩).1 =
        (readDirectory (Files.fileSystem devices) ⟨s, directory⟩).1 ∧
      (readDirectory (Files.fileSystem devices) ⟨s', directory⟩).2.handle =
        (readDirectory (Files.fileSystem devices) ⟨s, directory⟩).2.handle
  read : ∀ file count, File.read (Files.fileSystem devices) count ⟨s'.world, file⟩ =
    File.read (Files.fileSystem devices) count ⟨s.world, file⟩

/-- The state with one more record. -/
def withRecord (node : Node) (f : FsId) : Vfs (Files D) :=
  { s with mounts := s.mounts ++ [⟨node, f⟩] }

end

variable {devices} {s : Vfs (Files D)} {n m node : Node} {f : FsId} {path : PathInfo}
  {tokens : List PathToken}

/-- A token opens the highest subtree of the current node, if that is a directory. -/
lemma opens_cons (h : Inv s) (hn : s.world.Known n) (token : PathToken) :
    opens devices s (token :: tokens) n =
      if (top (Files.fileSystem devices) s n).nodeType = .directory then
        top (Files.fileSystem devices) s n ::
          ((next devices s n token).map (opens devices s tokens)).getD []
      else [] := by
  unfold opens
  rw [h.opendir_eq devices hn, h.walkToken_eq devices token hn]
  by_cases hd : (top (Files.fileSystem devices) s n).nodeType = .directory
  · rcases hx : next devices s n token with _ | m <;> simp [hd, Directory.new]
  · simp [hd]

/-- Nothing is mounted in the new file system. -/
lemma top_inside (h' : Inv (withRecord s node f)) (he : ∀ m ∈ s.mounts, m.mountPoint.fileSystem ≠ f)
    (hn : node.fileSystem ≠ f) (hm : m.fileSystem = f) :
    top (Files.fileSystem devices) (withRecord s node f) m = m := by
  refine (h'.table devices).top_of_none (up_eq_none.mpr fun r hr => ?_)
  rintro rfl
  rcases List.mem_append.mp hr with hr | hr
  · exact he r hr hm
  · rw [List.mem_singleton.mp hr] at hm
    exact hn hm

lemma inside_known {target : Node} (h : Inv s) (hk : s.world.Known m)
    (hx : inside s.world tokens m = some target) : s.world.Known target := by
  induction tokens generalizing m with
  | nil =>
    obtain rfl := Option.some.inj hx
    exact hk
  | cons token tokens ih =>
    unfold inside at hx
    split at hx
    · rename_i hd
      obtain ⟨x, hf, hx⟩ := Option.bind_eq_some_iff.mp hx
      exact ih (h.find_known hk hd hf).1 hx
    · simp at hx

section

variable (h : Inv s) (h' : Inv (withRecord s node f)) (hp : ∀ m ∈ s.mounts, m.mountPoint ≠ node)
  (he : ∀ m ∈ s.mounts, m.mountPoint.fileSystem ≠ f) (hn : node.fileSystem ≠ f)

include h h' hp

/-- Nodes that do not resolve to the mount point resolve as before. -/
lemma top_ne (hne : top (Files.fileSystem devices) s n ≠ node) :
    top (Files.fileSystem devices) (withRecord s node f) n =
      top (Files.fileSystem devices) s n := by
  have hmore := MountCycles.oneMore_up devices f (Inv.trees h) hp
  exact ((h'.table devices).ends_top n).unique (hmore.ends_ne ((h.table devices).ends_top n) hne)

variable (devices) in
include he hn in
/-- Nodes that resolved to the mount point resolve to the root of the new file system. -/
lemma top_eq (ht : top (Files.fileSystem devices) s n = node) :
    top (Files.fileSystem devices) (withRecord s node f) n = ⟨f, 0, .directory⟩ := by
  have hmore := MountCycles.oneMore_up devices f (Inv.trees h) hp
  have hroot : Ends (up (Files.fileSystem devices) (withRecord s node f)) ⟨f, 0, .directory⟩
      ⟨f, 0, .directory⟩ := by
    have hends := (h'.table devices).ends_top ⟨f, 0, .directory⟩
    rwa [top_inside h' he hn rfl] at hends
  exact ((h'.table devices).ends_top n).unique
    (hmore.ends_on (ht ▸ (h.table devices).ends_top n) hroot)

/-- **Frame**: a walk that does not open the mount point goes as before. -/
theorem follow_frame (hd : node.nodeType = .directory) (hk : s.world.Known n)
    (ho : node ∉ opens devices s tokens n) :
    follow devices (withRecord s node f) tokens n = follow devices s tokens n := by
  induction tokens generalizing n with
  | nil => rfl
  | cons token tokens ih =>
    rw [opens_cons h hk] at ho
    have hne : top (Files.fileSystem devices) s n ≠ node := by
      rintro rfl
      simp [hd] at ho
    have hnext : next devices (withRecord s node f) n token = next devices s n token := by
      simp only [next, top_ne h h' hp hne]
      rfl
    unfold follow
    rw [hnext]
    rcases hx : next devices s n token with _ | m
    · rfl
    · refine ih (h.next_known hk hx).1 fun hmem => ho ?_
      have hdir : (top (Files.fileSystem devices) s n).nodeType = .directory := by
        by_contra hdir
        simp [next, hdir] at hx
      rw [if_pos hdir, hx]
      exact List.mem_cons_of_mem _ hmem

variable (tokens) in
include hn he in
omit hp in
/-- Below the mount point a walk goes by the links of the new file system. -/
lemma follow_inside (hm : m.fileSystem = f) (hk : s.world.Known m)
    (ht : top (Files.fileSystem devices) (withRecord s node f) n = m) :
    (follow devices (withRecord s node f) tokens n).map
        (top (Files.fileSystem devices) (withRecord s node f)) =
      (inside s.world tokens m).map (top (Files.fileSystem devices) (withRecord s node f)) := by
  induction tokens generalizing n m with
  | nil => simp only [follow, inside, Option.map_some, ht, top_inside h' he hn hm]
  | cons token tokens ih =>
    unfold follow inside next
    simp only [ht]
    by_cases hd : m.nodeType = .directory
    · simp only [hd, if_true]
      rcases hx : find s.world m token.toStr with _ | x
      · rw [show find (withRecord s node f).world m token.toStr = none from hx]
        rfl
      · rw [show find (withRecord s node f).world m token.toStr = some x from hx]
        obtain ⟨hxk, hxf⟩ := h.find_known hk hd hx
        exact ih (hxf.trans hm) hxk (top_inside h' he hn (hxf.trans hm))
    · simp only [hd, if_false, Option.bind_none]

end

lemma startable_withRecord {start : PathStart} (h : Startable s start) :
    Startable (withRecord s node f) start := by
  cases start <;> exact h

lemma start_withRecord (o : PathStart) :
    start devices (withRecord s node f) o = start devices s o := by
  cases o <;> rfl

lemma opened_eq (devices : CharacterDevices D) (s : Vfs (Files D)) (path : PathInfo) :
    opened devices s path = opens devices s path.tokens (start devices s path.start) := by
  unfold opened
  cases path.start <;> rfl

/-- `follow_frame` for walks of paths. -/
lemma walk_frame {q : PathInfo} (h : Inv s) (h' : Inv (withRecord s node f))
    (hp : ∀ m ∈ s.mounts, m.mountPoint ≠ node) (hd : node.nodeType = .directory)
    (hq : Startable s q.start) (ho : node ∉ opens devices s q.tokens (start devices s q.start)) :
    (FileManager.walk (Files.fileSystem devices) q (withRecord s node f)).1 =
      (FileManager.walk (Files.fileSystem devices) q s).1 := by
  rw [walk_result h devices q hq, walk_result h' devices q (startable_withRecord hq),
    start_withRecord, follow_frame h h' hp hd (h.start_known devices hq) ho]

/-- The walks below the mount point. -/
lemma leadsInside (h : Inv s) (h' : Inv (withRecord s node f)) (hp : Startable s path.start)
    (hx : follow devices s path.tokens (start devices s path.start) = some n)
    (ht : top (Files.fileSystem devices) s n = node) (hd : node.nodeType = .directory)
    (hf : f < s.world.instances.length) (he : ∀ m ∈ s.mounts, m.mountPoint.fileSystem ≠ f)
    (hn : node.fileSystem ≠ f) (ho : node ∉ opened devices s path) (tokens : List PathToken) :
    LeadsInside devices (withRecord s node f) path f tokens := by
  have hpoint : ∀ m ∈ s.mounts, m.mountPoint ≠ node := by
    rw [← ht]
    exact up_eq_none.mp ((h.table devices).ends_top n).stops
  have hs := h.start_known devices hp
  have hk := h.follow_known hs hx
  have hroot := h.root_eq devices hf
  have hrk : s.world.Known ⟨f, 0, .directory⟩ := by
    rw [← hroot]
    exact ((h.table devices).root f (by simpa [Files.fileSystem] using hf)).1
  have hw := walk_result h' devices (extend path tokens) (startable_withRecord hp)
  have htop := top_eq devices h h' hpoint he hn ht
  rw [opened_eq] at ho
  simp only [extend] at hw
  rw [follow_append, start_withRecord, follow_frame h h' hpoint hd hs ho, hx, Option.bind_some]
    at hw
  have hfollow := follow_inside tokens h h' he hn rfl hrk htop
  unfold LeadsInside
  simp only [extend, hw]
  rw [show (Files.fileSystem devices).root f (withRecord s node f).world = _ from hroot,
    show (withRecord s node f).world = s.world from rfl]
  rcases hy : follow devices (withRecord s node f) tokens n with _ | x <;>
    rcases hz : inside s.world tokens ⟨f, 0, .directory⟩ with _ | y <;>
    rw [hy, hz] at hfollow
  · trivial
  · simp at hfollow
  · simp at hfollow
  · have hxk : s.world.Known x := h'.follow_known hk hy
    have hyk : s.world.Known y := inside_known h hrk hz
    exact (h'.sameDirectory_iff devices hxk hyk).mpr (by simpa using hfollow)

/-- **Effect of a mount**: where a mount of a fresh file system returns `Ok`, and the walk to its
mount point does not open the node that resolves to, the path leads into the new file system, all
walks that do not open the node go as before, and so do open directories and files. -/
theorem mount_effect {d : D} {b : Bool} (hr : Used devices d s) (hp : Startable s path.start)
    (hf : Fresh s path f)
    (hw : (FileManager.walk (Files.fileSystem devices) path s).1 = .ok n)
    (ht : (resolveSubtree (Files.fileSystem devices) n s).1 = .ok (node, b))
    (ho : node ∉ opened devices s path)
    (hok : (FileManager.mount (Files.fileSystem devices) path f s).1 = .ok ()) :
    Mounted devices s (FileManager.mount (Files.fileSystem devices) path f s).2 path f node := by
  have h := Inv.of_used hr
  have h' : Inv (FileManager.mount (Files.fileSystem devices) path f s).2 := h.mount hp hf
  have hwalk := h.walk_eq devices path hp
  rcases hx : follow devices s path.tokens (start devices s path.start) with _ | n'
  · simp [hwalk, hx] at hw
  · obtain rfl : n' = n := by simpa [hwalk, hx] using hw
    rw [hx] at hwalk
    have hn := h.follow_known (h.start_known devices hp) hx
    have hres := (h.table devices).resolveSubtree_eq hn
    obtain ⟨rfl, rfl⟩ : top (Files.fileSystem devices) s n' = node ∧ _ = b := by
      simpa [hres] using ht
    have hmount : FileManager.mount (Files.fileSystem devices) path f s =
        VirtualFileSystem.mount (Files.fileSystem devices) n' f s := Exec.bind_ok hwalk
    rw [mount_eq f hres] at hmount
    split at hmount
    · rename_i hc
      rw [hmount] at h' ⊢
      have hrec : Inv (withRecord s (top (Files.fileSystem devices) s n') f) := h'
      have hpoint : ∀ m ∈ s.mounts, m.mountPoint ≠ top (Files.fileSystem devices) s n' :=
        up_eq_none.mp ((h.table devices).ends_top n').stops
      refine ⟨fun tokens => ?_, fun q hq hno => ?_, fun _ => ⟨rfl, rfl⟩, fun _ _ => rfl⟩
      · exact leadsInside h hrec hp hx rfl hc.1 hf.lt hf.empty
          (h.point_outside devices hp hf hc.2 hx) ho tokens
      · rw [opened_eq] at hno
        exact walk_frame h hrec hpoint hc.1 hq hno
    · simp [hmount] at hok

/-- `mount_effect` at a temporary file system on `/a`. -/
theorem mount_effect_withMount :
    Mounted noDevices withFileSystem withMount (rootEntry "a") 1 ⟨0, 1, .directory⟩ :=
  mount_effect (.step reachable_withDirectory.used (.create .tmpfs))
    (show Startable withFileSystem (rootEntry "a").start from trivial)
    ⟨by decide +kernel, by decide +kernel, by simp [rootEntry], by decide +kernel⟩
    (n := ⟨0, 1, .directory⟩) (b := false) (by decide +kernel)
    (by decide +kernel) (by decide +kernel) (by decide +kernel)

end Pimento.MountEffect
