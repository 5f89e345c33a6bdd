import Pimento.NodeCalls

/-!
Mounts that close a cycle.

`mount` refuses a file system that is mounted already, but not one that is visible without a
mount, the root of everything: mounted on top of its own stack it sends both loops round for
ever. A mount closes a cycle exactly when its mount point and the root of its subtree are in one
stack.
-/

namespace Pimento.MountCycles

open Climb MountTable NodeCalls Runs VirtualFileSystem Walk

variable {D : Type} (devices : CharacterDevices D)

section

variable (s : Vfs (Files D))

/-- Both resolutions of a node come to an end. -/
def Terminates (node : Node) : Prop :=
  (∃ k, (resolveSubtreeLoop (Files.fileSystem devices) k node false s).1 ≠ .hang) ∧
    ∃ k, (resolveMountPointLoop (Files.fileSystem devices) k node false s).1 ≠ .hang

/-- Following the mount records up from either node leads to a common one. -/
def OneStack (n m : Node) : Prop :=
  ∃ t, Leads (up (Files.fileSystem devices) s) n t ∧ Leads (up (Files.fileSystem devices) s) m t

/-- A mount of a file system that is not mounted yet keeps its root apart from the mount point. -/
def KeepsApart : NodeCall → Prop
  | .mount mountPoint subtree => mountPoint.nodeType = .directory →
    (∀ m ∈ s.mounts, m.subtree ≠ subtree) →
      ¬ OneStack devices s mountPoint ((Files.fileSystem devices).root subtree s.world)
  | _ => True

/-- Every chain of records ends, up and down. -/
structure AllEnd : Prop where
  up : ∀ x, ∃ t, Ends (up (Files.fileSystem devices) s) x t
  down : ∀ x, ∃ t, Ends (down (Files.fileSystem devices) s) x t

/-- No two records share a mount point or a subtree. -/
structure Paired : Prop where
  trees : Trees s
  points : (s.mounts.map Mount.mountPoint).Nodup
  subtrees : (s.mounts.map Mount.subtree).Nodup

end

variable {devices} {s s' : Vfs (Files D)} {e : NodeCall} {n p : Node} {f : FsId}

/-- The root of any file system. -/
lemma root_eq (devices : CharacterDevices D) (h : Trees s) (f : FsId) :
    (Files.fileSystem devices).root f s.world = ⟨f, 0, .directory⟩ := by
  rcases Nat.lt_or_ge f s.world.instances.length with hf | hf
  · exact h.root_eq devices hf
  · simp [Files.fileSystem, List.getElem?_eq_none hf]

/-- The chains depend on the mount table alone. -/
lemma up_congr (devices : CharacterDevices D) (h : Trees s) (h' : Trees s')
    (hm : s'.mounts = s.mounts) :
    up (Files.fileSystem devices) s' = up (Files.fileSystem devices) s := by
  funext x
  simp only [up, hm, root_eq devices h, root_eq devices h']

lemma down_congr (devices : CharacterDevices D) (h : Trees s) (h' : Trees s')
    (hm : s'.mounts = s.mounts) :
    down (Files.fileSystem devices) s' = down (Files.fileSystem devices) s := by
  funext x
  simp only [down, hm, root_eq devices h, root_eq devices h']

lemma oneMore_up (devices : CharacterDevices D) (f : FsId) (h : Trees s)
    (hp : ∀ m ∈ s.mounts, m.mountPoint ≠ p) :
    OneMore (up (Files.fileSystem devices) s)
      (up (Files.fileSystem devices) { s with mounts := s.mounts ++ [⟨p, f⟩] }) p
      ⟨f, 0, .directory⟩ := by
  have hnone : s.mounts.find? (fun m => m.mountPoint = p) = none := by simpa using hp
  refine ⟨up_eq_none.mpr hp, ?_, fun x hx => ?_⟩
  · simp [up, List.find?_append, hnone, root_eq devices h]
  · simp [up, List.find?_append, Ne.symm hx]

lemma oneMore_down (devices : CharacterDevices D) (p : Node) (h : Trees s)
    (hf : ∀ m ∈ s.mounts, m.subtree ≠ f) :
    OneMore (down (Files.fileSystem devices) s)
      (down (Files.fileSystem devices) { s with mounts := s.mounts ++ [⟨p, f⟩] })
      ⟨f, 0, .directory⟩ p := by
  have hnone : s.mounts.find? (fun m => m.subtree = f) = none := by simpa using hf
  refine ⟨?_, ?_, fun x hx => ?_⟩
  · simp [down, hnone]
  · simp [down, List.find?_append, hnone, root_eq devices h]
  · simp only [down, root_eq devices h]
    split
    · rename_i hr
      have hxf : f ≠ x.fileSystem := by
        rintro rfl
        exact hx hr
      simp [List.find?_append, hxf]
    · rfl

/-- The loops end exactly where the chains do. -/
lemma terminates_iff (devices : CharacterDevices D) (h : Trees s) (hn : s.world.Known n) :
    Terminates devices s n ↔ (∃ t, Ends (up (Files.fileSystem devices) s) n t) ∧
      ∃ t, Ends (down (Files.fileSystem devices) s) n t := by
  have hp := h.points devices
  have hclimb : ∀ {next : Node → Option Node},
      (∃ k, climb next k n ≠ none) ↔ ∃ t, Ends next n t := by
    intro next
    constructor
    · rintro ⟨k, hk⟩
      obtain ⟨t, ht⟩ := Option.ne_none_iff_exists'.mp hk
      exact ⟨t, climb_ends ht⟩
    · rintro ⟨t, ht⟩
      obtain ⟨k, hk⟩ := ht.exists_climb
      exact ⟨k, by simp [hk]⟩
  unfold Terminates
  rw [← hclimb, ← hclimb]
  refine and_congr (exists_congr fun k => ?_) (exists_congr fun k => ?_)
  · rw [hp.resolveSubtreeLoop_eq k false hn]
    rcases climb (up (Files.fileSystem devices) s) k n <;> simp
  · rw [hp.resolveMountPointLoop_eq k false hn]
    rcases climb (down (Files.fileSystem devices) s) k n <;> simp

/-- **Bound of the loop**: `resolve_subtree` goes round for ever as soon as it takes one iteration
more than there are records. -/
theorem resolveSubtree_hang_iff (devices : CharacterDevices D) (h : Trees s)
    (hn : s.world.Known n) :
    (resolveSubtree (Files.fileSystem devices) n s).1 = .hang ↔
      ∀ k, (resolveSubtreeLoop (Files.fileSystem devices) k n false s).1 = .hang := by
  have hp := h.points devices
  have hdom : ∀ x, up (Files.fileSystem devices) s x ≠ none →
      x ∈ s.mounts.map Mount.mountPoint := by
    intro x hx
    obtain ⟨t, ht⟩ := Option.ne_none_iff_exists'.mp hx
    obtain ⟨m, hm, rfl, -⟩ := up_eq_some ht
    exact List.mem_map_of_mem hm
  refine ⟨fun hh k => ?_, fun hh => ?_⟩
  · rw [hp.resolveSubtreeLoop_eq k false hn]
    rcases hc : climb (up (Files.fileSystem devices) s) k n with _ | t
    · rfl
    · have hb := climb_of_ends _ hdom (climb_ends hc)
      rw [List.length_map] at hb
      rw [hp.resolveSubtree_eq hn, hb] at hh
      simp at hh
  · have hk := hh (s.mounts.length + 1)
    rw [hp.resolveSubtreeLoop_eq _ false hn] at hk
    rw [hp.resolveSubtree_eq hn]
    rcases hc : climb (up (Files.fileSystem devices) s) (s.mounts.length + 1) n with _ | t
    · rfl
    · simp [hc] at hk

/-- Every call keeps the table paired: it climbs to a free mount point and checks the subtree. -/
lemma Paired.effect (h : Paired s) (he : Effect devices s e s') : Paired s' := by
  have htrees := h.trees.effect he
  cases he with
  | refused => exact h
  | create kind => exact ⟨htrees, h.points, h.subtrees⟩
  | make hp hm => exact ⟨htrees, h.points, h.subtrees⟩
  | mount hr hk ht hd hs hf =>
    exact ⟨htrees, nodup_map_snoc h.points ht, nodup_map_snoc h.subtrees hs⟩
  | registerCharacterDevice name device hi => exact ⟨htrees, h.points, h.subtrees⟩

lemma paired_of_run {d : D} {es : List NodeCall}
    (h : Run (step devices) (VirtualFileSystem.new d) es s) : Paired s := by
  refine h.invariant (fun _ _ _ hi hs => hi.effect (hi.trees.step_effect hs)) ⟨trees_new d, ?_, ?_⟩
  · simp [VirtualFileSystem.new]
  · simp [VirtualFileSystem.new]

lemma allEnd_congr (h : Trees s) (h' : Trees s') (hm : s'.mounts = s.mounts) :
    AllEnd devices s' ↔ AllEnd devices s := by
  constructor
  · rintro ⟨hu, hd⟩
    exact ⟨up_congr devices h h' hm ▸ hu, down_congr devices h h' hm ▸ hd⟩
  · rintro ⟨hu, hd⟩
    exact ⟨(up_congr devices h h' hm).symm ▸ hu,
      (down_congr devices h h' hm).symm ▸ hd⟩

/-- A record more: all chains end exactly when they did, and the root of its subtree did not lead
to its mount point. -/
lemma allEnd_mount (h : Paired s) (hp : ∀ m ∈ s.mounts, m.mountPoint ≠ p)
    (hf : ∀ m ∈ s.mounts, m.subtree ≠ f) :
    AllEnd devices { s with mounts := s.mounts ++ [⟨p, f⟩] } ↔
      AllEnd devices s ∧ ¬ Leads (up (Files.fileSystem devices) s) ⟨f, 0, .directory⟩ p := by
  have hpoints := h.trees.points devices
  have hup := (oneMore_up devices f h.trees hp).ends_iff
  have hdown := (oneMore_down devices p h.trees hf).ends_iff
  have hrev : Leads (down (Files.fileSystem devices) s) p ⟨f, 0, .directory⟩ ↔
      Leads (up (Files.fileSystem devices) s) ⟨f, 0, .directory⟩ p :=
    ⟨fun hl => hl.reverse fun _ _ => up_of_down h.points,
      fun hl => hl.reverse fun _ _ => hpoints.down_of_up h.subtrees⟩
  rw [hrev] at hdown
  constructor
  · rintro ⟨hu, hd⟩
    exact ⟨⟨(hup.mp hu).1, (hdown.mp hd).1⟩, (hup.mp hu).2⟩
  · rintro ⟨⟨hu, hd⟩, hl⟩
    exact ⟨hup.mpr ⟨hu, hl⟩, hdown.mpr ⟨hd, hl⟩⟩

/-- Where its chain ends, the mount point is in one stack with a node that leads to the end. -/
lemma oneStack_iff {n m t : Node} (h : Ends (up (Files.fileSystem devices) s) n t) :
    OneStack devices s n m ↔ Leads (up (Files.fileSystem devices) s) m t := by
  constructor
  · rintro ⟨u, hn, hm⟩
    -- the common node lies on the way to the end
    have hu : Leads (up (Files.fileSystem devices) s) u t := by
      rcases Relation.ReflTransGen.total_of_right_unique
        (fun _ _ _ ha hb => Option.some.inj (ha.symm.trans hb)) hn h.leads with hl | hl
      · exact hl
      · rcases Leads.cases hl with rfl | ⟨y, hy, -⟩
        · exact .here
        · simp [h.stops] at hy
    exact Relation.ReflTransGen.trans hm hu
  · intro hl
    exact ⟨t, h.leads, hl⟩

lemma ends_of_resolve {b : Bool} (h : Trees s) (hn : s.world.Known n)
    (hr : resolveSubtree (Files.fileSystem devices) n s = (.ok (p, b), s)) :
    Ends (up (Files.fileSystem devices) s) n p := by
  rw [(h.points devices).resolveSubtree_eq hn] at hr
  rcases hc : climb (up (Files.fileSystem devices) s) (s.mounts.length + 1) n with _ | t
  · simp [hc] at hr
  · simp only [hc, Prod.mk.injEq, Outcome.ok.injEq] at hr
    rw [← hr.1.1]
    exact climb_ends hc

/-- What a climb leads to is a directory where it starts from one. -/
lemma directory_iff (h : Trees s) (he : Ends (up (Files.fileSystem devices) s) n p) :
    n.nodeType = .directory ↔ p.nodeType = .directory := by
  constructor
  · intro hn
    rcases leads_mounted he.leads with rfl | ⟨m, -, rfl⟩
    · exact hn
    · rw [root_eq devices h]
  · intro hp
    rcases he.leads.cases with rfl | ⟨y, hy, -⟩
    · exact hp
    · obtain ⟨m, hm, rfl, -⟩ := up_eq_some hy
      exact (h.point m hm).2

/-- **One call**: all chains end after it exactly when they did before, and it keeps its subtree
apart from its mount point. -/
theorem step_iff (h : Paired s) (hs : step devices s e = some s') :
    AllEnd devices s' ↔ AllEnd devices s ∧ KeepsApart devices s e := by
  have he := h.trees.step_effect hs
  have hv := (step_eq_some.mp hs).1
  have htrees := h.trees.effect he
  cases he with
  | create kind => simpa [KeepsApart] using allEnd_congr h.trees htrees rfl
  | make hp hm => simpa [KeepsApart] using allEnd_congr h.trees htrees rfl
  | registerCharacterDevice name device hi =>
    simpa [KeepsApart] using allEnd_congr h.trees htrees rfl
  | refused hr =>
    cases e with
    | mount n f =>
      refine ⟨fun ha => ⟨ha, fun hn hsub => ?_⟩, And.left⟩
      rcases h.trees.resolveSubtree_cases devices hv.1 with ⟨p, b, hres, -, -⟩ | hres
      · have hp := (directory_iff h.trees (ends_of_resolve h.trees hv.1 hres)).mp hn
        obtain ⟨m, hm, rfl⟩ := hr p b hres hp
        exact absurd rfl (hsub m hm)
      · obtain ⟨-, r, hne, hp⟩ := step_eq_some.mp hs
        have hh : perform devices s (.mount n f) = (.hang, s) := Exec.bind_hang hres
        exact absurd (congrArg Prod.fst (hh.symm.trans hp)).symm hne
    | create kind => simp [KeepsApart]
    | make op parent name => simp [KeepsApart]
    | registerCharacterDevice f name device => simp [KeepsApart]
  | @mount n p b f hr hk ht hd hsub hf =>
    have hends := ends_of_resolve h.trees hv.1 hr
    have hn := (directory_iff h.trees hends).mpr hd
    have hkeeps : KeepsApart devices s (.mount n f) ↔
        ¬ Leads (up (Files.fileSystem devices) s) ⟨f, 0, .directory⟩ p := by
      rw [KeepsApart, oneStack_iff hends, root_eq devices h.trees]
      exact ⟨fun hc => hc hn hsub, fun hl _ _ => hl⟩
    rw [allEnd_mount h ht hsub, hkeeps]

/-- A node that does not exist is on no chain. -/
lemma allEnd_iff (devices : CharacterDevices D) (h : Trees s) :
    (∀ n, s.world.Known n → Terminates devices s n) ↔ AllEnd devices s := by
  have hp := h.points devices
  constructor
  · intro ht
    refine ⟨fun x => ?_, fun x => ?_⟩
    · rcases hx : up (Files.fileSystem devices) s x with _ | y
      · exact ⟨x, .here hx⟩
      · obtain ⟨m, hm, rfl, -⟩ := up_eq_some hx
        exact ((terminates_iff devices h (hp.point m hm)).mp (ht _ (hp.point m hm))).1
    · rcases hx : down (Files.fileSystem devices) s x with _ | y
      · exact ⟨x, .here hx⟩
      · obtain ⟨hr, m, hm, hf, -⟩ := down_eq_some hx
        have hk : s.world.Known x := by
          rw [hr, ← hf]
          exact (hp.root _ (hp.subtree m hm)).1
        exact ((terminates_iff devices h hk).mp (ht _ hk)).2
  · rintro ⟨hu, hd⟩ n hn
    exact (terminates_iff devices h hn).mpr ⟨hu n, hd n⟩

open Classical in
/-- **Termination**: after any calls both resolutions end for every node exactly when every mount
kept the root of its subtree out of the stack of its mount point. -/
theorem terminates_iff_run {d : D} {es : List NodeCall}
    (h : Run (step devices) (VirtualFileSystem.new d) es s) :
    (∀ n, s.world.Known n → Terminates devices s n) ↔
      Run (guarded (KeepsApart devices) (step devices)) (VirtualFileSystem.new d) es s := by
  have hpaired : Paired (VirtualFileSystem.new d) :=
    ⟨trees_new d, by simp [VirtualFileSystem.new], by simp [VirtualFileSystem.new]⟩
  rw [allEnd_iff devices ((trees_new d).of_run h)]
  refine h.iff_guarded (J := Paired) (fun s e t hj hs => hj.effect (hj.trees.step_effect hs))
    (fun s e t hj hs => step_iff hj hs) hpaired ⟨fun x => ⟨x, .here ?_⟩, fun x => ⟨x, .here ?_⟩⟩
  · simp [up, VirtualFileSystem.new]
  · unfold down
    split <;> rfl

/-- The root file system is mounted on its own root. -/
def mountRoot : List NodeCall := [.mount ⟨0, 0, .directory⟩ 0]

open Classical in
theorem terminates_iff_run_mountRoot :
    let s := reach (step noDevices) (VirtualFileSystem.new ()) mountRoot
    (∀ n, s.world.Known n → Terminates noDevices s n) ↔
      Run (guarded (KeepsApart noDevices) (step noDevices)) (VirtualFileSystem.new ())
        mountRoot s :=
  terminates_iff_run (run_reach (by decide +kernel))

/-- After the root file system is mounted on its own root, which returns `Ok`, the resolution of the
root goes round for ever. -/
theorem mountRoot_hangs :
    let s := reach (step noDevices) (VirtualFileSystem.new ()) mountRoot
    Run (step noDevices) (VirtualFileSystem.new ()) mountRoot s ∧
      (perform noDevices (VirtualFileSystem.new ()) (.mount ⟨0, 0, .directory⟩ 0)).1 = .ok () ∧
      s.world.Known ⟨0, 0, .directory⟩ ∧
      ∀ k, (resolveSubtreeLoop (Files.fileSystem noDevices) k ⟨0, 0, .directory⟩ false s).1 =
        .hang := by
  have hr : Run (step noDevices) (VirtualFileSystem.new ()) mountRoot
      (reach (step noDevices) (VirtualFileSystem.new ()) mountRoot) := run_reach (by decide +kernel)
  have hk : (reach (step noDevices) (VirtualFileSystem.new ()) mountRoot).world.Known
      ⟨0, 0, .directory⟩ := by
    decide +kernel
  refine ⟨hr, by decide +kernel, hk, ?_⟩
  rw [← resolveSubtree_hang_iff noDevices ((trees_new ()).of_run hr) hk]
  decide +kernel

end Pimento.MountCycles
