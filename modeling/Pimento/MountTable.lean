import Mathlib.Data.List.Find
import Mathlib.Data.List.Nodup
import Pimento.Climb
import Pimento.VirtualFileSystem

/-!
The mount table as two partial functions on nodes: up from a mount point to the root mounted on
it, and down from the root of a mounted file system to its mount point.
-/

namespace Pimento.MountTable

open Climb VirtualFileSystem

/-- Mounts are stacked without sharing and without cycles. -/
structure Stacked (mounts : List Mount) : Prop where
  points : (mounts.map Mount.mountPoint).Nodup
  subtrees : (mounts.map Mount.subtree).Nodup
  /-- Every file system has a level, below the levels of what is mounted in it. -/
  levels : ∃ level : FsId → ℕ, (∀ m ∈ mounts, level m.mountPoint.fileSystem < level m.subtree) ∧
    ∀ f, level f ≤ mounts.length

lemma Stacked.nil : Stacked [] := ⟨.nil, .nil, fun _ => 0, by simp, by simp⟩

lemma nodup_map_snoc {α : Type} {mounts : List Mount} {mount : Mount} {key : Mount → α}
    (h : (mounts.map key).Nodup) (hm : ∀ m ∈ mounts, key m ≠ key mount) :
    ((mounts ++ [mount]).map key).Nodup := by
  rw [List.map_append, List.nodup_append]
  refine ⟨h, by simp, ?_⟩
  simp only [List.mem_map, List.map_cons, List.map_nil, List.mem_singleton]
  rintro _ ⟨m, hm', rfl⟩ _ rfl
  exact hm m hm'

/-- A file system in which nothing is mounted may be mounted outside of itself. -/
lemma Stacked.snoc {mounts : List Mount} {mount : Mount} (h : Stacked mounts)
    (hp : ∀ m ∈ mounts, m.mountPoint ≠ mount.mountPoint)
    (hs : ∀ m ∈ mounts, m.subtree ≠ mount.subtree)
    (he : ∀ m ∈ mounts, m.mountPoint.fileSystem ≠ mount.subtree)
    (hn : mount.mountPoint.fileSystem ≠ mount.subtree) : Stacked (mounts ++ [mount]) := by
  refine ⟨nodup_map_snoc h.points hp, nodup_map_snoc h.subtrees hs, ?_⟩
  obtain ⟨level, hlt, hle⟩ := h.levels
  refine ⟨fun f => if f = mount.subtree then level mount.mountPoint.fileSystem + 1 else level f,
    ?_, ?_⟩
  · intro m hm
    rcases List.mem_append.mp hm with hm | hm
    · simpa [he m hm, hs m hm] using hlt m hm
    · obtain rfl : m = mount := by simpa using hm
      simp [hn]
  · intro f
    have := hle f
    have := hle mount.mountPoint.fileSystem
    simp only [List.length_append, List.length_cons, List.length_nil]
    split <;> omega

section

variable {W : Type} (fs : FileSystem W) (s : Vfs W)

/-- The root mounted on a node. -/
def up (node : Node) : Option Node :=
  (s.mounts.find? fun m => m.mountPoint = node).map fun m => fs.root m.subtree s.world

/-- The mount point of the file system a node is the root of. -/
def down (node : Node) : Option Node :=
  if node = fs.root node.fileSystem s.world then
    (s.mounts.find? fun m => m.subtree = node.fileSystem).map Mount.mountPoint
  else none

/-- The highest subtree of a node. -/
def top (node : Node) : Node := (climb (up fs s) (s.mounts.length + 1) node).getD node

/-- The lowest mount point of a node. -/
def bottom (node : Node) : Node := (climb (down fs s) (s.mounts.length + 1) node).getD node

/-- A mount table over nodes that are told apart by `Node::eq` and whose file systems are
alive. -/
structure Table (known : Node → Prop) : Prop where
  stacked : Stacked s.mounts
  same : ∀ n m, known n → known m → n.same m → n = m
  alive : ∀ n, known n → fs.alive n.fileSystem s.world
  root : ∀ f, fs.alive f s.world → known (fs.root f s.world) ∧ (fs.root f s.world).fileSystem = f
  point : ∀ m ∈ s.mounts, known m.mountPoint
  subtree : ∀ m ∈ s.mounts, fs.alive m.subtree s.world

/-- The same, whatever is mounted where. -/
structure Points (known : Node → Prop) : Prop where
  same : ∀ n m, known n → known m → n.same m → n = m
  alive : ∀ n, known n → fs.alive n.fileSystem s.world
  root : ∀ f, fs.alive f s.world → known (fs.root f s.world) ∧ (fs.root f s.world).fileSystem = f
  point : ∀ m ∈ s.mounts, known m.mountPoint
  subtree : ∀ m ∈ s.mounts, fs.alive m.subtree s.world

end

section

variable {W : Type} {fs : FileSystem W} {s : Vfs W} {known : Node → Prop} {n m x y t : Node}

lemma Table.points (h : Table fs s known) : Points fs s known :=
  ⟨h.same, h.alive, h.root, h.point, h.subtree⟩

lemma up_eq_some : up fs s n = some t →
    ∃ m ∈ s.mounts, m.mountPoint = n ∧ fs.root m.subtree s.world = t := by
  unfold up
  rw [Option.map_eq_some_iff]
  rintro ⟨m, hm, rfl⟩
  exact ⟨m, List.mem_of_find?_eq_some hm, by simpa using List.find?_some hm, rfl⟩

lemma up_eq_none : up fs s n = none ↔ ∀ m ∈ s.mounts, m.mountPoint ≠ n := by
  simp [up]

lemma down_eq_some : down fs s n = some t →
    n = fs.root n.fileSystem s.world ∧
      ∃ m ∈ s.mounts, m.subtree = n.fileSystem ∧ m.mountPoint = t := by
  unfold down
  split
  · rename_i hn
    rw [Option.map_eq_some_iff]
    rintro ⟨m, hm, rfl⟩
    exact ⟨hn, m, List.mem_of_find?_eq_some hm, by simpa using List.find?_some hm, rfl⟩
  · simp

/-- The way up from a mount point that is used once. -/
lemma up_of_mem (fs : FileSystem W) (hp : (s.mounts.map Mount.mountPoint).Nodup) {m : Mount}
    (hm : m ∈ s.mounts) :
    up fs s m.mountPoint = some (fs.root m.subtree s.world) := by
  rcases hfind : s.mounts.find? fun m' => m'.mountPoint = m.mountPoint with _ | m'
  · simpa using List.find?_eq_none.mp hfind m hm
  · have he : m'.mountPoint = m.mountPoint := by simpa using List.find?_some hfind
    rw [List.inj_on_of_nodup_map hp (List.mem_of_find?_eq_some hfind) hm he] at hfind
    simp [up, hfind]

/-- The way up undoes the way down where no mount point is used twice. -/
lemma up_of_down (hp : (s.mounts.map Mount.mountPoint).Nodup) (hd : down fs s y = some x) :
    up fs s x = some y := by
  obtain ⟨hy, m, hm, hsub, rfl⟩ := down_eq_some hd
  rw [up_of_mem fs hp hm, hsub, ← hy]

/-- Climbing leads to the roots of mounted file systems only. -/
lemma leads_mounted (hl : Leads (up fs s) n t) :
    t = n ∨ ∃ m ∈ s.mounts, t = fs.root m.subtree s.world := by
  induction hl with
  | refl => exact .inl rfl
  | tail _ hs _ =>
    obtain ⟨m, hm, -, rfl⟩ := up_eq_some hs
    exact .inr ⟨m, hm, rfl⟩

namespace Points

variable (h : Points fs s known)

include h

lemma root_fileSystem {mount : Mount} (hm : mount ∈ s.mounts) :
    (fs.root mount.subtree s.world).fileSystem = mount.subtree :=
  (h.root _ (h.subtree _ hm)).2

lemma up_known (hu : up fs s n = some t) : known t := by
  obtain ⟨m, hm, -, rfl⟩ := up_eq_some hu
  exact (h.root _ (h.subtree m hm)).1

lemma down_known (hd : down fs s n = some t) : known t := by
  obtain ⟨-, m, hm, -, rfl⟩ := down_eq_some hd
  exact h.point m hm

lemma same_iff (hn : known n) (hm : known m) : n.same m = decide (n = m) := by
  by_cases he : n = m
  · simp [he, Node.same]
  · have hne : ¬ n.same m := fun hs => he (h.same n m hn hm hs)
    simpa [he] using hne

lemma leads_known (hn : known n) (hl : Leads (up fs s) n t) : known t := by
  induction hl with
  | refl => exact hn
  | tail _ hs _ => exact h.up_known hs

/-- The way down undoes the way up where no file system is mounted twice. -/
lemma down_of_up (hs : (s.mounts.map Mount.subtree).Nodup) (hu : up fs s x = some y) :
    down fs s y = some x := by
  obtain ⟨m, hm, rfl, rfl⟩ := up_eq_some hu
  have hf := h.root_fileSystem hm
  rcases hfind : s.mounts.find? fun m' => m'.subtree = m.subtree with _ | m'
  · simpa using List.find?_eq_none.mp hfind m hm
  · have he : m'.subtree = m.subtree := by simpa using List.find?_some hfind
    rw [List.inj_on_of_nodup_map hs (List.mem_of_find?_eq_some hfind) hm he] at hfind
    simp [down, hf, hfind]

lemma find_point (hn : known n) :
    (s.mounts.find? fun m => m.mountPoint.same n) = s.mounts.find? fun m => m.mountPoint = n :=
  List.find?_congr fun m hm => h.same_iff (h.point m hm) hn

/-- The loop follows the chain of records, for as long as it may. -/
lemma resolveSubtreeLoop_eq : ∀ (k : ℕ) {n : Node} (changed : Bool), known n →
    resolveSubtreeLoop fs k n changed s =
      (match climb (up fs s) k n with
        | some t => .ok (t, changed || (up fs s n).isSome)
        | none => .hang, s)
  | 0, _, _, _ => rfl
  | k + 1, n, changed, hn => by
    unfold climb resolveSubtreeLoop
    rw [Exec.get_bind, h.find_point hn]
    rcases hm : s.mounts.find? fun m => m.mountPoint = n with _ | m
    · have hu : up fs s n = none := by simp [up, hm]
      simp [hm, hu]
    · have hu : up fs s n = some (fs.root m.subtree s.world) := by simp [up, hm]
      have ih := resolveSubtreeLoop_eq k true (h.up_known hu)
      simpa [hm, hu] using ih

lemma resolveSubtree_eq (hn : known n) :
    resolveSubtree fs n s =
      (match climb (up fs s) (s.mounts.length + 1) n with
        | some t => .ok (t, (up fs s n).isSome)
        | none => .hang, s) := by
  have hl := h.resolveSubtreeLoop_eq (s.mounts.length + 1) false hn
  simp only [Bool.false_or] at hl
  exact hl

lemma upgrade_eq (hn : known n) :
    VirtualFileSystem.onWorld (fs.upgrade n) s = (.ok n.fileSystem, s) := by
  simp [VirtualFileSystem.onWorld, Exec.zoom, FileSystem.upgrade, h.alive n hn]

lemma resolveMountPointLoop_eq : ∀ (k : ℕ) {n : Node} (changed : Bool), known n →
    resolveMountPointLoop fs k n changed s =
      (match climb (down fs s) k n with
        | some t => .ok (t, changed || (down fs s n).isSome)
        | none => .hang, s)
  | 0, _, _, _ => rfl
  | k + 1, n, changed, hn => by
    unfold climb resolveMountPointLoop
    rw [Exec.bind_ok (h.upgrade_eq hn), Exec.get_bind, h.same_iff hn (h.root _ (h.alive n hn)).1]
    by_cases hr : n = fs.root n.fileSystem s.world
    · rcases hm : s.mounts.find? fun m => m.subtree = n.fileSystem with _ | m
      · have hd : down fs s n = none := by simp [down, hm]
        simp [← hr, hm, hd]
      · have hd : down fs s n = some m.mountPoint := by
          unfold down
          rw [if_pos hr, hm]
          rfl
        have ih := resolveMountPointLoop_eq k true (h.down_known hd)
        simpa [← hr, hm, hd] using ih
    · have hd : down fs s n = none := by simp [down, hr]
      simp [hr, hd]

lemma resolveMountPoint_eq (hn : known n) :
    resolveMountPoint fs n s =
      (match climb (down fs s) (s.mounts.length + 1) n with
        | some t => .ok (t, (down fs s n).isSome)
        | none => .hang, s) := by
  have hl := h.resolveMountPointLoop_eq (s.mounts.length + 1) false hn
  simp only [Bool.false_or] at hl
  exact hl

end Points

namespace Table

variable (h : Table fs s known)

include h

/-- The levels rise along `up` and fall along `down`. -/
lemma exists_level : ∃ level : FsId → ℕ, (∀ f, level f ≤ s.mounts.length) ∧
    (∀ x y, up fs s x = some y → level x.fileSystem < level y.fileSystem) ∧
    (∀ x y, down fs s x = some y → level y.fileSystem < level x.fileSystem) := by
  obtain ⟨level, hlt, hle⟩ := h.stacked.levels
  refine ⟨level, hle, ?_, ?_⟩
  · intro x y hu
    obtain ⟨m, hm, rfl, rfl⟩ := up_eq_some hu
    rw [h.points.root_fileSystem hm]
    exact hlt m hm
  · intro x y hd
    obtain ⟨-, m, hm, hf, rfl⟩ := down_eq_some hd
    rw [← hf]
    exact hlt m hm

lemma climb_up (n : Node) : ∃ t, climb (up fs s) (s.mounts.length + 1) n = some t := by
  obtain ⟨level, hle, hup, -⟩ := h.exists_level
  exact climb_total (fun x => level x.fileSystem) (fun x => hle x.fileSystem) hup _ n (by omega)

lemma climb_down (n : Node) : ∃ t, climb (down fs s) (s.mounts.length + 1) n = some t := by
  obtain ⟨level, hle, -, hdown⟩ := h.exists_level
  have hbound : ∀ x : Node, s.mounts.length - level x.fileSystem ≤ s.mounts.length :=
    fun x => Nat.sub_le _ _
  refine climb_total (fun x => s.mounts.length - level x.fileSystem) hbound (fun x y hd => ?_) _ n
    (by omega)
  have := hdown x y hd
  have := hle x.fileSystem
  omega

lemma ends_top (n : Node) : Ends (up fs s) n (top fs s n) := by
  obtain ⟨t, ht⟩ := h.climb_up n
  rw [top, ht]
  exact climb_ends ht

lemma ends_bottom (n : Node) : Ends (down fs s) n (bottom fs s n) := by
  obtain ⟨t, ht⟩ := h.climb_down n
  rw [bottom, ht]
  exact climb_ends ht

/-- A node on which nothing is mounted is its own highest subtree. -/
lemma top_of_none (hn : up fs s n = none) : top fs s n = n := (h.ends_top n).eq_of_stop hn

lemma top_top (n : Node) : top fs s (top fs s n) = top fs s n :=
  h.top_of_none (h.ends_top n).stops

lemma top_known (hn : known n) : known (top fs s n) := h.points.leads_known hn (h.ends_top n).leads

lemma bottom_known (hn : known n) : known (bottom fs s n) := by
  have hl := (h.ends_bottom n).leads
  generalize bottom fs s n = t at hl
  induction hl with
  | refl => exact hn
  | tail _ hs _ => exact h.points.down_known hs

/-- Climbing never comes back to a file system it has left. -/
lemma leads_fileSystem (hl : Leads (up fs s) n t) (hf : t.fileSystem = n.fileSystem) : t = n := by
  obtain ⟨level, -, hup, -⟩ := h.exists_level
  rcases hl.level (fun x => level x.fileSystem) hup with he | hlt
  · exact he
  · simp [hf] at hlt

lemma up_injective (hx : up fs s x = some t) (hy : up fs s y = some t) : x = y :=
  Option.some.inj ((h.points.down_of_up h.stacked.subtrees hx).symm.trans
    (h.points.down_of_up h.stacked.subtrees hy))

/-- Two nodes of one file system with one highest subtree are the same node. -/
lemma top_injective (hf : x.fileSystem = y.fileSystem) (ht : top fs s x = top fs s y) : x = y := by
  have hx := h.ends_top x
  rw [ht] at hx
  rcases hx.comparable (fun _ _ _ => h.up_injective) (h.ends_top y) with hl | hl
  · exact (h.leads_fileSystem hl hf.symm).symm
  · exact h.leads_fileSystem hl hf

/-- **Highest subtree**: `resolve_subtree` returns it, and changes nothing. -/
theorem resolveSubtree_eq (hn : known n) :
    resolveSubtree fs n s = (.ok (top fs s n, (up fs s n).isSome), s) := by
  obtain ⟨t, ht⟩ := h.climb_up n
  simp only [h.points.resolveSubtree_eq hn, top, ht, Option.getD_some]

/-- **Lowest mount point**: `resolve_mount_point` returns it, and changes nothing. -/
theorem resolveMountPoint_eq (hn : known n) :
    resolveMountPoint fs n s = (.ok (bottom fs s n, (down fs s n).isSome), s) := by
  obtain ⟨t, ht⟩ := h.climb_down n
  simp only [h.points.resolveMountPoint_eq hn, bottom, ht, Option.getD_some]

end Table

end

end Pimento.MountTable
