import Pimento.MountCycles

/-!
Concurrent mounts.

`mount` takes the lock of the mount table twice: once to climb to the top of the stack of its
mount point, and once to record the mount there. Between the two any other call may run.
-/

namespace Pimento

open Climb FileTree MountTable VirtualFileSystem Walk Runs

namespace MountRace

variable {D : Type} (devices : CharacterDevices D)

/-- A call of `mount` between its two sections. -/
structure Pending where
  mountPoint : Node
  subtree : FsId
  /-- Where it has climbed to. -/
  point : Node
  deriving DecidableEq, Repr

/-- The virtual file system with the calls under way, by thread, and the calls that returned `Ok`
with the records they made. -/
structure Race (D : Type) where
  vfs : Vfs (Files D)
  pending : ℕ → Option Pending
  accepted : List (Node × Mount)

/-- A section of a call of `mount` by a thread. -/
inductive Section
  | climb (thread : ℕ) (mountPoint : Node) (subtree : FsId)
  | record (thread : ℕ)
  deriving DecidableEq, Repr

/-- One section at a time. A climb that goes round for ever does not end. -/
def step (r : Race D) : Section → Option (Race D)
  | .climb thread mountPoint subtree =>
    if r.pending thread = none ∧ r.vfs.world.Known mountPoint ∧
        subtree < r.vfs.world.instances.length then
      match (resolveSubtree (Files.fileSystem devices) mountPoint r.vfs).1 with
      | .ok (point, _) => some { r with
          pending := Function.update r.pending thread (some ⟨mountPoint, subtree, point⟩) }
      | _ => none
    else none
  | .record thread =>
    match r.pending thread with
    | some c =>
      let done := { r with pending := Function.update r.pending thread none }
      match record c.point c.subtree r.vfs with
      | (.ok (), vfs) =>
        some { done with vfs, accepted := r.accepted ++ [(c.mountPoint, ⟨c.point, c.subtree⟩)] }
      | _ => some done
    | none => none

section

variable (r : Race D)

/-- No two records share a mount point or a subtree, and from the mount point of every call that
returned `Ok`, the given one and the recorded one, the records lead through the root of its
subtree. -/
structure Reached : Prop where
  points : r.vfs.mounts.Pairwise fun m m' => ¬ m.mountPoint.same m'.mountPoint
  subtrees : r.vfs.mounts.Pairwise fun m m' => m.subtree ≠ m'.subtree
  reached : ∀ a ∈ r.accepted, ∀ n, n = a.1 ∨ n = a.2.mountPoint →
    Leads (up (Files.fileSystem devices) r.vfs) n
      ((Files.fileSystem devices).root a.2.subtree r.vfs.world)

/-- A section that makes a record finds the place it has climbed to still free. -/
def StillFree : Section → Prop
  | .climb _ _ _ => True
  | .record thread => ∀ c, r.pending thread = some c → c.point.nodeType = .directory →
    (∀ m ∈ r.vfs.mounts, m.subtree ≠ c.subtree) → ∀ m ∈ r.vfs.mounts, m.mountPoint ≠ c.point

/-- What holds whatever the calls do to each other. -/
structure Sound : Prop where
  trees : NodeCalls.Trees r.vfs
  subtrees : (r.vfs.mounts.map Mount.subtree).Nodup
  pending : ∀ thread c, r.pending thread = some c → r.vfs.world.Known c.point ∧
    c.subtree < r.vfs.world.instances.length ∧
    Leads (up (Files.fileSystem devices) r.vfs) c.mountPoint c.point
  accepted : ∀ a ∈ r.accepted, a.2 ∈ r.vfs.mounts ∧
    Leads (up (Files.fileSystem devices) r.vfs) a.1 a.2.mountPoint

end

variable {devices} {r r' : Race D} {s : Vfs (Files D)} {e : Section} {x y : Node}

/-- The chains of a table go on in a longer one. -/
lemma leads_append {W : Type} {fs : FileSystem W} {s : Vfs W} {mounts : List Mount}
    (h : Leads (up fs s) x y) : Leads (up fs { s with mounts := s.mounts ++ mounts }) x y := by
  refine Relation.ReflTransGen.mono (fun a b hab => ?_) _ _ h
  unfold up at hab ⊢
  rw [Option.map_eq_some_iff] at hab
  obtain ⟨m, hm, rfl⟩ := hab
  simp only [List.find?_append, hm, Option.some_or, Option.map_some]

/-- What a section does. -/
lemma step_cases (h : NodeCalls.Trees r.vfs) (hs : step devices r e = some r') :
    (∃ thread n f p b, e = .climb thread n f ∧ r.vfs.world.Known n ∧
      f < r.vfs.world.instances.length ∧
      resolveSubtree (Files.fileSystem devices) n r.vfs = (.ok (p, b), r.vfs) ∧
      r' = { r with pending := Function.update r.pending thread (some ⟨n, f, p⟩) }) ∨
    ∃ thread c, e = .record thread ∧ r.pending thread = some c ∧
      r' = if c.point.nodeType = .directory ∧ ∀ m ∈ r.vfs.mounts, m.subtree ≠ c.subtree then
          { vfs := { r.vfs with mounts := r.vfs.mounts ++ [⟨c.point, c.subtree⟩] }
            pending := Function.update r.pending thread none
            accepted := r.accepted ++ [(c.mountPoint, ⟨c.point, c.subtree⟩)] }
        else { r with pending := Function.update r.pending thread none } := by
  cases e with
  | climb thread n f =>
    simp only [step] at hs
    split at hs
    · rename_i hc
      rcases h.resolveSubtree_cases devices hc.2.1 with ⟨p, b, hres, -, -⟩ | hres
      · simp only [hres, Option.some.injEq] at hs
        exact .inl ⟨thread, n, f, p, b, rfl, hc.2.1, hc.2.2, hres, hs.symm⟩
      · simp [hres] at hs
    · simp at hs
  | record thread =>
    simp only [step] at hs
    rcases hc : r.pending thread with _ | c
    · simp [hc] at hs
    · simp only [hc, record_eq] at hs
      refine .inr ⟨thread, c, rfl, hc, ?_⟩
      by_cases hcond : c.point.nodeType = .directory ∧ ∀ m ∈ r.vfs.mounts, m.subtree ≠ c.subtree
      · rw [if_pos hcond] at hs ⊢
        exact (Option.some.inj hs).symm
      · rw [if_neg hcond] at hs ⊢
        exact (Option.some.inj hs).symm

/-- Every section keeps what holds. -/
lemma Sound.step (h : Sound devices r) (hs : step devices r e = some r') : Sound devices r' := by
  rcases step_cases h.trees hs with ⟨thread, n, f, p, b, rfl, hn, hf, hres, rfl⟩ |
    ⟨thread, c, rfl, hc, rfl⟩
  · refine ⟨h.trees, h.subtrees, fun thread' c hc => ?_, h.accepted⟩
    by_cases ht : thread' = thread
    · subst ht
      obtain rfl : (⟨n, f, p⟩ : Pending) = c := by simpa using hc
      have hends := MountCycles.ends_of_resolve h.trees hn hres
      exact ⟨(h.trees.points devices).leads_known hn hends.leads, hf, hends.leads⟩
    · exact h.pending thread' c (by simpa [Function.update_of_ne ht] using hc)
  · have hpending : ∀ thread' c', Function.update r.pending thread none thread' = some c' →
        r.pending thread' = some c' := by
      intro thread' c' hc'
      by_cases ht : thread' = thread
      · simp [ht] at hc'
      · rwa [Function.update_of_ne ht] at hc'
    obtain ⟨hk, hf, hl⟩ := h.pending thread c hc
    split
    · rename_i hcond
      obtain ⟨hd, hsub⟩ := hcond
      refine ⟨⟨h.trees.tree, h.trees.root, fun m hm => ?_, fun m hm => ?_⟩,
        nodup_map_snoc h.subtrees hsub, fun thread' c' hc' => ?_, fun a ha => ?_⟩
      · rcases List.mem_append.mp hm with hm | hm
        · exact h.trees.point m hm
        · obtain rfl := List.mem_singleton.mp hm
          exact ⟨hk, hd⟩
      · rcases List.mem_append.mp hm with hm | hm
        · exact h.trees.subtree m hm
        · obtain rfl := List.mem_singleton.mp hm
          exact hf
      · obtain ⟨hk', hf', hl'⟩ := h.pending thread' c' (hpending thread' c' hc')
        exact ⟨hk', hf', leads_append hl'⟩
      · rcases List.mem_append.mp ha with ha | ha
        · obtain ⟨hm, hl'⟩ := h.accepted a ha
          exact ⟨List.mem_append_left _ hm, leads_append hl'⟩
        · obtain rfl := List.mem_singleton.mp ha
          exact ⟨by simp, leads_append hl⟩
    · exact ⟨h.trees, h.subtrees, fun thread' c' hc' => h.pending thread' c'
        (hpending thread' c' hc'),
        h.accepted⟩

/-- Every file system is reached exactly when no two records share a mount point. -/
lemma Sound.reached_iff (h : Sound devices r) :
    Reached devices r ↔ (r.vfs.mounts.map Mount.mountPoint).Nodup := by
  have hp := h.trees.points devices
  constructor
  · intro hr
    refine List.pairwise_map.mpr (hr.points.imp_of_mem fun hm hm' hne => ?_)
    rw [hp.same_iff (hp.point _ hm) (hp.point _ hm')] at hne
    simpa using hne
  · intro hn
    refine ⟨(List.pairwise_map.mp hn).imp_of_mem fun hm hm' hne => ?_,
      List.pairwise_map.mp h.subtrees, fun a ha n hna => ?_⟩
    · rw [hp.same_iff (hp.point _ hm) (hp.point _ hm')]
      simpa using hne
    · obtain ⟨hm, hl⟩ := h.accepted a ha
      have hup := up_of_mem (Files.fileSystem devices) hn hm
      rcases hna with rfl | rfl
      · exact .tail hl hup
      · exact .head hup .here

/-- A section keeps the mount points distinct exactly when what it records is on a free one. -/
lemma nodup_step (h : Sound devices r) (hs : step devices r e = some r') :
    (r'.vfs.mounts.map Mount.mountPoint).Nodup ↔
      (r.vfs.mounts.map Mount.mountPoint).Nodup ∧ StillFree r e := by
  rcases step_cases h.trees hs with ⟨thread, n, f, p, b, rfl, -, -, -, rfl⟩ |
    ⟨thread, c, rfl, hc, rfl⟩
  · simp [StillFree]
  · have hfree : StillFree r (.record thread) ↔
        (c.point.nodeType = .directory ∧ (∀ m ∈ r.vfs.mounts, m.subtree ≠ c.subtree) →
          ∀ m ∈ r.vfs.mounts, m.mountPoint ≠ c.point) := by
      simp [StillFree, hc]
    rw [hfree]
    split
    · rename_i hcond
      constructor
      · intro hn
        rw [List.map_append] at hn
        refine ⟨(List.nodup_append.mp hn).1, fun _ m hm he => ?_⟩
        exact (List.nodup_append.mp hn).2.2 _ (List.mem_map_of_mem hm) _ (by simp) he
      · rintro ⟨hn, hf⟩
        exact nodup_map_snoc hn (hf hcond)
    · rename_i hcond
      simp [hcond]

open Classical in
/-- **Concurrent mounts**: in every state that any interleaving of the sections of any calls
reaches, no two records share a mount point or a subtree and every mounted file system is reached
exactly when every record was made on a mount point that was still free. -/
theorem all_reached_iff {d : D} {calls : List NodeCalls.NodeCall} {es : List Section}
    (hc : Run (NodeCalls.step devices) (VirtualFileSystem.new d) calls s)
    (h : Run (step devices) ⟨s, fun _ => none, []⟩ es r) :
    Reached devices r ↔ Run (guarded StillFree (step devices)) ⟨s, fun _ => none, []⟩ es r := by
  have hpaired : MountCycles.Paired s := MountCycles.paired_of_run hc
  have hsound : Sound devices ⟨s, fun _ => none, []⟩ :=
    ⟨hpaired.trees, hpaired.subtrees, by simp, by simp⟩
  rw [(h.invariant (fun _ _ _ h hs => h.step hs) hsound).reached_iff]
  exact h.iff_guarded (J := Sound devices) (fun _ _ _ h hs => h.step hs)
    (fun _ _ _ h hs => nodup_step h hs) hsound hpaired.points

/-- A directory `/a` and two more file systems. -/
def twoFileSystems : List NodeCalls.NodeCall :=
  [.make .mkdir ⟨0, 0, .directory⟩ "a", .create .tmpfs, .create .tmpfs]

/-- Two calls climb from `/a` before either of them records its mount. -/
def bothClimb : List Section :=
  [.climb 0 ⟨0, 1, .directory⟩ 1, .climb 1 ⟨0, 1, .directory⟩ 2, .record 0, .record 1]

/-- The state before the calls. -/
def beforeRace : Race Unit :=
  ⟨reach (NodeCalls.step noDevices) (VirtualFileSystem.new ()) twoFileSystems, fun _ => none, []⟩

lemma run_twoFileSystems : Run (NodeCalls.step noDevices) (VirtualFileSystem.new ()) twoFileSystems
    (reach (NodeCalls.step noDevices) (VirtualFileSystem.new ()) twoFileSystems) :=
  run_reach (by decide +kernel)

lemma run_bothClimb :
    Run (step noDevices) beforeRace bothClimb (reach (step noDevices) beforeRace bothClimb) :=
  run_reach (by decide +kernel)

open Classical in
theorem all_reached_iff_bothClimb :
    Reached noDevices (reach (step noDevices) beforeRace bothClimb) ↔
      Run (guarded StillFree (step noDevices)) beforeRace bothClimb
        (reach (step noDevices) beforeRace bothClimb) :=
  all_reached_iff run_twoFileSystems run_bothClimb

/-- Both calls return `Ok` and record `/a`, and the second file system is not reached from there. -/
theorem second_mount_lost :
    let r := reach (step noDevices) beforeRace bothClimb
    Run (step noDevices) beforeRace bothClimb r ∧
      r.vfs.mounts = [⟨⟨0, 1, .directory⟩, 1⟩, ⟨⟨0, 1, .directory⟩, 2⟩] ∧
      r.accepted.map Prod.snd = r.vfs.mounts ∧
      (resolveSubtree (Files.fileSystem noDevices) ⟨0, 1, .directory⟩ r.vfs).1 =
        .ok (⟨1, 0, .directory⟩, true) ∧ ¬ Reached noDevices r := by
  have hm : (reach (step noDevices) beforeRace bothClimb).vfs.mounts =
      [⟨⟨0, 1, .directory⟩, 1⟩, ⟨⟨0, 1, .directory⟩, 2⟩] := by decide +kernel
  refine ⟨run_bothClimb, hm, by decide +kernel, by decide +kernel, fun hr => ?_⟩
  have hp := hr.points
  rw [hm] at hp
  simp [Node.same] at hp

end MountRace

end Pimento
