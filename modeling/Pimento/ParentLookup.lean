import Pimento.FileSteps

/-!
Walking to a directory and on to its parent.

A walk reads the links of the directories it opens, and these know nothing of the mount table:
the way back from a directory leads to the one it is linked in as long as nothing is mounted on
it.
-/

namespace Pimento.ParentLookup

open Climb FileTree MountTable VirtualFileSystem Walk

variable {D : Type} (devices : CharacterDevices D)

/-- The path to an entry of a directory. -/
def entryOf (path : PathInfo) (name : String) : PathInfo :=
  { path with tokens := path.tokens ++ [.literal name] }

/-- Walking the path, the name and `..` gives the same directory as walking the path. -/
def leadsBack (s : Vfs (Files D)) (path : PathInfo) (name : String) : Bool :=
  let fs := Files.fileSystem devices
  let back := { path with tokens := path.tokens ++ [.literal name, .parent] }
  match (FileManager.walk fs back s).1, (FileManager.walk fs path s).1 with
  | .ok back, .ok here => sameDirectory devices s back here
  | _, _ => false

variable {devices} {s : Vfs (Files D)} {dir child n : Node} {name : String}

lemma follow_append {ts us : List PathToken} :
    follow devices s (ts ++ us) n = (follow devices s ts n).bind (follow devices s us) := by
  induction ts generalizing n with
  | nil => rfl
  | cons t ts ih =>
    simp only [List.cons_append, follow, Option.bind_assoc]
    exact congrArg _ (funext fun m => ih)

lemma follow_singleton {t : PathToken} : follow devices s [t] n = next devices s n t := by
  simp [follow]

section

variable (h : Inv s)

include h

/-- One name forth and one step back, on the stored links and the mount table. -/
lemma next_back (hn : s.world.Known n) (hname : name ≠ currentName ∧ name ≠ parentName)
    (hx : next devices s n (.literal name) = some child) (hc : child.nodeType = .directory) :
    ∃ back, next devices s child .parent = some back ∧ s.world.Known back ∧
      (top (Files.fileSystem devices) s back = top (Files.fileSystem devices) s n ↔
        up (Files.fileSystem devices) s child = none) := by
  have ht := h.table devices
  have hk := h.next_known hn hx
  unfold next at hx
  simp only at hx
  split at hx
  · rename_i hd
    have hback := h.find_parent_child (ht.top_known hn) hd hname hx hc
    rcases hu : up (Files.fileSystem devices) s child with _ | r
    · -- nothing is mounted here: the child itself is opened
      refine ⟨top (Files.fileSystem devices) s n, ?_, ht.top_known hn, by simp [ht.top_top]⟩
      unfold next
      rw [ht.top_of_none hu]
      simpa [hc, PathToken.toStr] using hback
    · -- the root on top is opened, and it names itself
      have hends := ht.ends_top child
      have hne : top (Files.fileSystem devices) s child ≠ child := by
        intro he
        have := hends.stops
        rw [he, hu] at this
        simp at this
      obtain ⟨m, hm, he⟩ := (leads_mounted hends.leads).resolve_left hne
      refine ⟨top (Files.fileSystem devices) s child, ?_, ht.top_known hk.1, ?_⟩
      · unfold next
        rw [he]
        simpa [h.root_eq devices (h.subtree m hm), PathToken.toStr] using
          h.find_parent_root devices hm
      · simp only [ht.top_top, reduceCtorEq, iff_false]
        intro he'
        refine hne (ht.leads_fileSystem hends.leads ?_)
        rw [he', hk.2]
  · simp at hx

lemma walk_result (devices : CharacterDevices D) (path : PathInfo) (hp : Startable s path.start) :
    (FileManager.walk (Files.fileSystem devices) path s).1 =
      match follow devices s path.tokens (start devices s path.start) with
      | some m => .ok m
      | none => .err := congrArg Prod.fst (h.walk_eq devices path hp)

end

/-- **Parent lookup**: the walk to a directory, by a path and a name, and on to `..` ends where
the walk of the path does exactly when nothing is mounted on the directory. -/
theorem leadsBack_iff {d : D} {path : PathInfo} (hr : Reachable devices d s)
    (hp : Startable s path.start) (hname : PathToken.fromStr name = .literal name)
    (hw : (FileManager.walk (Files.fileSystem devices) (entryOf path name) s).1 = .ok child)
    (hc : child.nodeType = .directory) :
    leadsBack devices s path name ↔ ∀ m ∈ s.mounts, ¬ m.mountPoint.same child := by
  have h := Inv.of_reachable hr
  have ht := h.table devices
  have hs := h.start_known devices hp
  have hnames : name ≠ currentName ∧ name ≠ parentName := by
    constructor <;> rintro rfl <;> simp [PathToken.fromStr, currentName, parentName] at hname
  rw [walk_result h devices (entryOf path name) hp] at hw
  simp only [entryOf, follow_append, follow_singleton] at hw
  rcases hx : follow devices s path.tokens (start devices s path.start) with _ | here
  · simp [hx] at hw
  · have hhere := h.follow_known hs hx
    simp only [hx, Option.bind_some] at hw
    rcases hy : next devices s here (.literal name) with _ | child'
    · simp [hy] at hw
    · obtain rfl : child' = child := by simpa [hy] using hw
      obtain ⟨back, hb, hbk, hiff⟩ := next_back h hhere hnames hy hc
      have hwb := walk_result h devices
        { path with tokens := path.tokens ++ [.literal name, .parent] } hp
      simp only [follow_append, hx, Option.bind_some, follow, hy, hb] at hwb
      have hpoint : (∀ m ∈ s.mounts, ¬ m.mountPoint.same child') ↔
          up (Files.fileSystem devices) s child' = none := by
        rw [up_eq_none]
        refine forall₂_congr fun m hm => ?_
        rw [ht.points.same_iff (ht.point m hm) (h.next_known hhere hy).1]
        simp
      rw [hpoint, ← hiff, leadsBack]
      simp only [hwb, walk_result h devices path hp, hx]
      exact h.sameDirectory_iff devices hbk hhere

/-- A directory `/b`, beside `/a` on which a file system is mounted. -/
def besideMount : Vfs (Files Unit) :=
  (FileManager.mkdir (Files.fileSystem noDevices) (rootEntry "b") withMount).2

lemma reachable_besideMount : Reachable noDevices () besideMount :=
  .step reachable_withMount (.mkdir (by simp [rootEntry, Startable]))

/-- The mount on `/a` does not matter to `/b`. -/
theorem leadsBack_iff_run :
    besideMount.mounts ≠ [] ∧
      (leadsBack noDevices besideMount ⟨[], .root⟩ "b" ↔
        ∀ m ∈ besideMount.mounts, ¬ m.mountPoint.same ⟨0, 2, .directory⟩) :=
  ⟨by decide +kernel, leadsBack_iff reachable_besideMount (by simp [Startable])
    (by decide +kernel) (by decide +kernel) rfl⟩

/-- With a file system mounted on `/a`, the walk of `/a/..` ends in its root, not in `/`. -/
theorem mounted_not_leadsBack :
    Reachable noDevices () withMount ∧
      (FileManager.walk (Files.fileSystem noDevices) (entryOf ⟨[], .root⟩ "a") withMount).1 =
        .ok ⟨0, 1, .directory⟩ ∧
      leadsBack noDevices withMount ⟨[], .root⟩ "a" = false ∧
      (FileManager.walk (Files.fileSystem noDevices)
        ⟨[.literal "a", .parent], .root⟩ withMount).1 = .ok ⟨1, 0, .directory⟩ :=
  ⟨reachable_withMount, by decide +kernel, by decide +kernel, by decide +kernel⟩

end Pimento.ParentLookup
