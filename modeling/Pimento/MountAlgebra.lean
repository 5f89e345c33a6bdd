import Pimento.NodeCalls

/-!
The two resolutions of nodes through the mount table, where new file systems are mounted on
directories that are visible.
-/

namespace Pimento.MountAlgebra

open Climb MountTable NodeCalls Runs VirtualFileSystem Walk

variable {D : Type} (devices : CharacterDevices D)

section

variable (s : Vfs (Files D))

/-- The root file system, or a file system that is mounted. -/
def visible (f : FsId) : Bool := f = s.rootFileSystem || s.mounts.any fun m => m.subtree = f

/-- A mount puts a new file system on a directory of a visible one: nothing is mounted in the
new file system, and it is not visible itself. -/
def mountsNew : NodeCall → Bool
  | .mount mountPoint subtree =>
    mountPoint.nodeType = .directory && visible s mountPoint.fileSystem && !visible s subtree &&
      s.mounts.all fun m => m.mountPoint.fileSystem ≠ subtree
  | _ => true

/-- What the two resolutions give for a node, and for what they give. -/
structure Resolves (node : Node) (top bottom : Node) (up down : Bool) : Prop where
  subtree : resolveSubtree (Files.fileSystem devices) node s = (.ok (top, up), s)
  mountPoint : resolveMountPoint (Files.fileSystem devices) node s = (.ok (bottom, down), s)
  subtree_subtree : resolveSubtree (Files.fileSystem devices) top s = (.ok (top, false), s)
  mountPoint_mountPoint :
    resolveMountPoint (Files.fileSystem devices) bottom s = (.ok (bottom, false), s)
  mountPoint_subtree :
    ∃ b, resolveMountPoint (Files.fileSystem devices) top s = (.ok (bottom, b), s)
  subtree_mountPoint :
    ∃ b, resolveSubtree (Files.fileSystem devices) bottom s = (.ok (top, b), s)
  up_changed : up ↔ ¬ top.same node
  down_changed : down ↔ ¬ bottom.same node

end

variable {devices} {s s' : Vfs (Files D)} {e : NodeCall} {n t : Node} {f : FsId}

/-- A node stays itself exactly when its chain has no step. -/
lemma isSome_iff_ne {ν : Type} {next : ν → Option ν} {x t : ν} (h : Ends next x t) :
    (next x).isSome ↔ t ≠ x := by
  constructor
  · rintro hx rfl
    simp [h.stops] at hx
  · intro hne
    rw [Option.isSome_iff_ne_none]
    exact fun hx => hne (h.eq_of_stop hx)

section

variable {W : Type} {fs : FileSystem W} {s : Vfs W} {known : Node → Prop}
  (h : Table fs s known)

include h

lemma bottom_top (n : Node) : bottom fs s (top fs s n) = bottom fs s n := by
  have hback : Leads (down fs s) (top fs s n) n :=
    (h.ends_top n).leads.reverse fun _ _ => h.points.down_of_up h.stacked.subtrees
  exact (h.ends_bottom _).unique (.of_leads hback (h.ends_bottom n))

lemma top_bottom (n : Node) : top fs s (bottom fs s n) = top fs s n := by
  have hback : Leads (up fs s) (bottom fs s n) n :=
    (h.ends_bottom n).leads.reverse fun _ _ => up_of_down h.stacked.points
  exact (h.ends_top _).unique (.of_leads hback (h.ends_top n))

end

/-- The algebra of the two resolutions, in a well-formed state. -/
lemma resolves (devices : CharacterDevices D) (h : Inv s) (hn : s.world.Known n) :
    Resolves devices s n (top (Files.fileSystem devices) s n)
      (bottom (Files.fileSystem devices) s n) (up (Files.fileSystem devices) s n).isSome
      (down (Files.fileSystem devices) s n).isSome := by
  have ht := h.table devices
  have htop := ht.top_known hn
  have hbot := ht.bottom_known hn
  refine ⟨ht.resolveSubtree_eq hn, ht.resolveMountPoint_eq hn, ?_, ?_, ?_, ?_, ?_, ?_⟩
  · rw [ht.resolveSubtree_eq htop, ht.top_top, (ht.ends_top n).stops]
    rfl
  · have hstop := (ht.ends_bottom n).stops
    rw [ht.resolveMountPoint_eq hbot, (ht.ends_bottom _).eq_of_stop hstop, hstop]
    rfl
  · exact ⟨_, by rw [ht.resolveMountPoint_eq htop, bottom_top ht]⟩
  · exact ⟨_, by rw [ht.resolveSubtree_eq hbot, top_bottom ht]⟩
  · rw [isSome_iff_ne (ht.ends_top n), ht.points.same_iff htop hn, decide_eq_true_eq]
  · rw [isSome_iff_ne (ht.ends_bottom n), ht.points.same_iff hbot hn, decide_eq_true_eq]

/-- A mount of a new file system keeps the invariant, and so does every other call. -/
lemma inv_effect (h : Inv s) (hc : mountsNew s e) (hv : Valid s e) (he : Effect devices s e s') :
    Inv s' := by
  have htrees := (Inv.trees h).effect he
  have ht := h.table devices
  cases he with
  | refused => exact h
  | create kind => exact htrees.inv h.stacked
  | make hp hm => exact htrees.inv h.stacked
  | registerCharacterDevice name device hi => exact htrees.inv h.stacked
  | @mount mountPoint point b f hr hk htop hd hs hf =>
    simp only [mountsNew, visible, Bool.and_eq_true, decide_eq_true_eq, Bool.or_eq_true,
      List.any_eq_true, Bool.not_eq_true', Bool.or_eq_false_iff, decide_eq_false_iff_not,
      List.all_eq_true] at hc
    obtain ⟨⟨⟨-, hvis⟩, hroot, -⟩, hempty⟩ := hc
    refine htrees.inv (h.stacked.snoc htop hs (fun m hm => by simpa using hempty m hm) ?_)
    have hpoint : mountPoint.fileSystem ≠ f := by
      rcases hvis with he | ⟨m, hm, he⟩
      · rw [he]
        exact Ne.symm hroot
      · rw [← he]
        exact hs m hm
    obtain rfl : top (Files.fileSystem devices) s mountPoint = point := by
      have he := (ht.resolveSubtree_eq hv.1).symm.trans hr
      simp only [Prod.mk.injEq, Outcome.ok.injEq] at he
      exact he.1.1
    exact h.top_outside devices hs hpoint

/-- **Mount table algebra**: where every mount puts a new file system on a directory of a visible
one, no two records share a mount point or a subtree, and the two resolutions of every node end,
are idempotent, absorb each other, and report a change exactly when there is one. -/
theorem mount_algebra {d : D} {es : List NodeCall}
    (h : Run (guarded (fun s e => mountsNew s e) (step devices)) (VirtualFileSystem.new d) es s) :
    s.mounts.Pairwise (fun m m' => ¬ m.mountPoint.same m'.mountPoint) ∧
      s.mounts.Pairwise (fun m m' => m.subtree ≠ m'.subtree) ∧
      ∀ n, s.world.Known n → ∃ top bottom up down, Resolves devices s n top bottom up down := by
  have hinv : Inv s := by
    refine h.invariant (I := Inv) (fun s e t hi hs => ?_) (inv_new d)
    obtain ⟨hc, hs⟩ := guarded_eq_some.mp hs
    exact inv_effect hi hc (step_eq_some.mp hs).1 ((Inv.trees hi).step_effect hs)
  have ht := hinv.table devices
  refine ⟨?_, List.pairwise_map.mp hinv.stacked.subtrees, fun n hn =>
    ⟨_, _, _, _, resolves devices hinv hn⟩⟩
  refine (List.pairwise_map.mp hinv.stacked.points).imp_of_mem fun hm hm' hne => ?_
  rw [ht.points.same_iff (ht.point _ hm) (ht.point _ hm')]
  simpa using hne

/-- Two file systems are stacked on `/a`. -/
def stackedCalls : List NodeCall :=
  [.make .mkdir ⟨0, 0, .directory⟩ "a", .create .tmpfs, .create .devfs,
    .mount ⟨0, 1, .directory⟩ 1, .mount ⟨0, 1, .directory⟩ 2]

theorem mount_algebra_run :
    let s := reach (guarded (fun s e => mountsNew s e) (step noDevices)) (VirtualFileSystem.new ())
      stackedCalls
    s.mounts.Pairwise (fun m m' => ¬ m.mountPoint.same m'.mountPoint) ∧
      s.mounts.Pairwise (fun m m' => m.subtree ≠ m'.subtree) ∧
      ∀ n, s.world.Known n → ∃ top bottom up down, Resolves noDevices s n top bottom up down :=
  mount_algebra (run_reach (by decide +kernel))

end Pimento.MountAlgebra
