import Pimento.Rotation
import Pimento.Scheduler

/-!
The scheduler refines a rotating queue.

The current slot, the queue and the map of tasks hold the same ids, each once, so no lookup
fails; a call of `schedule` is a rotation and `add_task` enqueues a fresh id.
-/

namespace Pimento.RoundRobin

open Scheduler Runs MemoryContext

variable {s s' : Kernel} {r : Rotation ℕ} {t : Task} {id : ℕ} {es : List Event}

/-- **The consistency of the three containers**, with the rotating queue they represent. -/
structure Consistent (s : Kernel) (r : Rotation ℕ) : Prop where
  slot : s.currentTasks = [some r.current]
  queue : s.queue = r.waiting
  unlocked : s.locked = false
  nodup : r.line.Nodup
  keys : ∀ id, id ∈ r.line ↔ id ∈ s.tasks
  ids : ∀ {id} {t : Task}, s.tasks[id]? = some t → t.id = id
  below : ∀ {id}, id ∈ s.tasks → id < s.nextTaskId
  created : ∀ {t : Task}, t ∈ s.created → t.id < s.nextTaskId ∧ t.id ∉ s.tasks
  distinct : (s.created.map Task.id).Nodup

/-- The state after a `schedule` call that switches from `prev` to `next`. -/
def switched (s : Kernel) (r : Rotation ℕ) (prev next : Task) : Kernel :=
  let saved := { prev with registers := s.cpu.registers }
  { s with
    tasks := s.tasks.insert prev.id saved
    queue := r.rotate.waiting
    currentTasks := [some r.rotate.current]
    cpu :=
      { registers := if next.id = prev.id then saved.registers else next.registers
        ttbr0 := next.memoryContext.ttbr } }

lemma lookup (h : Consistent s r) (hid : id ∈ r.line) : ∃ t, s.tasks[id]? = some t ∧ t.id = id := by
  have hsome := Std.TreeMap.mem_iff_isSome_getElem?.mp ((h.keys id).mp hid)
  obtain ⟨t, ht⟩ := Option.isSome_iff_exists.mp hsome
  exact ⟨t, ht, h.ids ht⟩

lemma current_mem : r.current ∈ r.line := by simp [Rotation.line]

lemma rotate_current_mem : r.rotate.current ∈ r.line := by
  rw [← Rotation.line_rotate]
  exact List.mem_cons_self

/-- **The schedule call**: no lookup fails, and the switch goes to the task recorded as
current. -/
theorem schedule_spec (h : Consistent s r) :
    ∃ prev next, s.tasks[r.current]? = some prev ∧ prev.id = r.current ∧
      s.tasks[r.rotate.current]? = some next ∧ next.id = r.rotate.current ∧
      schedule s = (.ok (), switched s r prev next) := by
  obtain ⟨prev, hprev, hpid⟩ := lookup h current_mem
  obtain ⟨next, hnext, hnid⟩ := lookup h rotate_current_mem
  refine ⟨prev, next, hprev, hpid, hnext, hnid, ?_⟩
  have hline : r.waiting ++ [r.current] = r.rotate.current :: r.rotate.waiting :=
    r.line_rotate.symm
  unfold schedule lock currentTaskSlot setCurrent memoryContextSwitch cpuContextSwitch
    afterSchedule unlock
  simp [Exec.bind_assoc, h.unlocked, h.slot, h.queue, hline, hprev, hnext, currentCore]
  -- the registers of `next` are read after those of `prev` have been saved
  rw [Std.TreeMap.getElem?_insert]
  by_cases hself : r.current = r.rotate.current
  · rw [if_pos (Std.compare_eq_iff_eq.mpr hself)]
    simp [switched, hpid, hnid, hself, h.unlocked]
  · rw [if_neg (fun hc => hself (Std.compare_eq_iff_eq.mp hc)), hnext]
    simp [switched, hpid, hnid, Ne.symm hself, h.unlocked]

lemma mem_insert {m : Std.TreeMap ℕ Task} {k : ℕ} : id ∈ m.insert k t ↔ id = k ∨ id ∈ m := by
  rw [Std.TreeMap.mem_insert, Std.compare_eq_iff_eq, eq_comm]

lemma getElem?_insert_eq_some {m : Std.TreeMap ℕ Task} {t' : Task} {k : ℕ}
    (h : (m.insert k t)[id]? = some t') : (id = k ∧ t' = t) ∨ (id ≠ k ∧ m[id]? = some t') := by
  rw [Std.TreeMap.getElem?_insert] at h
  split at h
  · rename_i hc
    exact Or.inl ⟨(Std.compare_eq_iff_eq.mp hc).symm, (Option.some.inj h).symm⟩
  · rename_i hc
    exact Or.inr ⟨fun e => hc (Std.compare_eq_iff_eq.mpr e.symm), h⟩

lemma perm_line_rotate : r.rotate.line.Perm r.line := by
  have h : (r.rotate.waiting ++ [r.rotate.current]).Perm (r.rotate.current :: r.rotate.waiting) :=
    List.perm_append_singleton _ _
  rwa [Rotation.line_rotate] at h

/-- A `schedule` call is a rotation. -/
lemma Consistent.schedule (h : Consistent s r) {prev : Task} (next : Task)
    (hpid : prev.id = r.current) :
    Consistent (switched s r prev next) r.rotate := by
  have hmem : ∀ id, id ∈ (switched s r prev next).tasks ↔ id ∈ s.tasks := fun id => by
    rw [switched, mem_insert, hpid, or_iff_right_iff_imp]
    rintro rfl
    exact (h.keys _).mp current_mem
  exact
    { slot := rfl
      queue := rfl
      unlocked := h.unlocked
      nodup := perm_line_rotate.nodup_iff.mpr h.nodup
      keys := fun id => by rw [perm_line_rotate.mem_iff, h.keys, hmem]
      ids := fun ht => by
        rcases getElem?_insert_eq_some ht with ⟨rfl, rfl⟩ | ⟨-, hold⟩
        · rfl
        · exact h.ids hold
      below := fun hid => h.below ((hmem _).mp hid)
      created := fun ht => ⟨(h.created ht).1, fun hid => (h.created ht).2 ((hmem _).mp hid)⟩
      distinct := h.distinct }

/-- The state after a task has been handed over. -/
def added (s : Kernel) (t : Task) (i : ℕ) : Kernel :=
  { s with
    tasks := s.tasks.insert t.id t
    queue := s.queue ++ [t.id]
    created := s.created.eraseIdx i }

lemma addTask_spec (h : Consistent s r) {i : ℕ} :
    addTask t { s with created := s.created.eraseIdx i } = (.ok t.id, added s t i) := by
  simp [addTask, lockCall, lock, unlock, Exec.bind_assoc, h.unlocked, added]

/-- An `add_task` call enqueues a fresh id. -/
lemma Consistent.addTask (h : Consistent s r) {i : ℕ} (hi : s.created[i]? = some t) :
    Consistent (added s t i) (r.enqueue t.id) := by
  have hmem : t ∈ s.created := List.mem_of_getElem? hi
  obtain ⟨hlt, hnew⟩ := h.created hmem
  have hline : ∀ id, id ∈ (r.enqueue t.id).line ↔ id = t.id ∨ id ∈ r.line := fun id => by
    simp only [Rotation.line, Rotation.enqueue, List.mem_append, List.mem_singleton]
    tauto
  refine ⟨h.slot, ?_, h.unlocked, ?_, ?_, ?_, ?_, ?_, ?_⟩
  · rw [added, h.queue]
    rfl
  · have hperm : (r.enqueue t.id).line.Perm (t.id :: r.line) := by
      simp [Rotation.line, Rotation.enqueue]
    exact hperm.nodup_iff.mpr (List.nodup_cons.mpr ⟨fun hin => hnew ((h.keys _).mp hin), h.nodup⟩)
  · intro id
    rw [hline, added, mem_insert, h.keys]
  · intro id t' ht
    rcases getElem?_insert_eq_some ht with ⟨rfl, rfl⟩ | ⟨-, hold⟩
    · rfl
    · exact h.ids hold
  · intro id hid
    rcases mem_insert.mp hid with rfl | hold
    · exact hlt
    · exact h.below hold
  · intro t' ht
    obtain ⟨j, hj, hjt⟩ := List.mem_eraseIdx_iff_getElem?.mp ht
    obtain ⟨hlt', hnew'⟩ := h.created (List.mem_of_getElem? hjt)
    refine ⟨hlt', fun hid => ?_⟩
    rcases mem_insert.mp hid with heq | hold
    · -- two created tasks with one id
      have hi' : (s.created.map Task.id)[i]? = some t.id := by simp [hi]
      have hj' : (s.created.map Task.id)[j]? = some t.id := by simp [hjt, heq]
      obtain ⟨hlen, -⟩ := List.getElem?_eq_some_iff.mp hi'
      exact hj ((List.getElem?_inj hlen h.distinct).mp (hi'.trans hj'.symm)).symm
    · exact hnew' hold
  · exact h.distinct.sublist ((List.eraseIdx_sublist _ _).map _)

/-- A new task has an id that no task has had. -/
lemma Consistent.create (h : Consistent s r) (ht : t.id = s.nextTaskId) :
    Consistent { s with nextTaskId := s.nextTaskId + 1, created := s.created ++ [t] } r :=
  { h with
    below := fun hid => Nat.lt_succ_of_lt (h.below hid)
    created := fun {t'} ht' => by
      rcases List.mem_append.mp ht' with hold | hnew
      · exact ⟨Nat.lt_succ_of_lt (h.created hold).1, (h.created hold).2⟩
      · rw [List.mem_singleton.mp hnew, ht]
        exact ⟨Nat.lt_succ_self _, fun hid => absurd (h.below hid) (Nat.lt_irrefl _)⟩
    distinct := by
      rw [List.map_append, List.nodup_append]
      refine ⟨h.distinct, List.nodup_singleton _, fun id hid id' hid' => ?_⟩
      obtain ⟨t', ht', rfl⟩ := List.mem_map.mp hid
      rw [List.map_singleton, List.mem_singleton] at hid'
      rw [hid', ht]
      exact (h.created ht').1.ne }

/-- **One step** of the scheduler is at most one step of the rotating queue. -/
theorem Consistent.step {e : Event} (h : Consistent s r) (hstep : Scheduler.step s e = some s') :
    ∃ ops, Consistent s' (r.run ops) ∧ Rotation.rotations ops = schedules [e] := by
  cases e with
  | create registers memoryContext =>
    obtain rfl := Option.some.inj hstep
    exact ⟨[], h.create rfl, rfl⟩
  | addTask i =>
    obtain ⟨t, hi, hadd⟩ := Option.bind_eq_some_iff.mp hstep
    rw [addTask_spec h] at hadd
    obtain rfl := Option.some.inj hadd
    exact ⟨[.enqueue t.id], h.addTask hi, rfl⟩
  | schedule =>
    obtain ⟨prev, next, -, hpid, -, -, hcall⟩ := schedule_spec h
    rw [Scheduler.step, hcall] at hstep
    obtain rfl := Option.some.inj hstep
    exact ⟨[.rotate], h.schedule _ hpid, rfl⟩
  | run registers =>
    obtain rfl := Option.some.inj hstep
    exact ⟨[], { h with }, rfl⟩

/-- **A run** of the scheduler is a run of the rotating queue with as many rotations. -/
theorem Consistent.run (h : Consistent s r) (hrun : Run Scheduler.step s es s') :
    ∃ ops, Consistent s' (r.run ops) ∧ Rotation.rotations ops = schedules es := by
  induction hrun with
  | nil => exact ⟨[], h, rfl⟩
  | snoc _ hstep ih =>
    obtain ⟨ops, hc, hops⟩ := ih
    obtain ⟨ops', hc', hops'⟩ := hc.step hstep
    refine ⟨ops ++ ops', ?_, ?_⟩
    · rwa [Rotation.run_append]
    · rw [Rotation.rotations_append, hops, hops', schedules, schedules, schedules,
        List.countP_append]

/-! ### The start -/

variable {cpu : Cpu} {n : ℕ} {registers : Registers} {memoryContext : MemoryContext}

/-- The scheduler with its first task recorded, before the switch to it. -/
def recorded (cpu : Cpu) (n : ℕ) (registers : Registers) (memoryContext : MemoryContext) : Kernel :=
  { Scheduler.new cpu (n + 1) with
    tasks := (∅ : Std.TreeMap ℕ Task).insert n ⟨n, registers, memoryContext⟩
    currentTasks := [some n] }

lemma consistent_recorded : Consistent (recorded cpu n registers memoryContext) ⟨n, []⟩ where
  slot := rfl
  queue := rfl
  unlocked := rfl
  nodup := List.nodup_singleton n
  keys id := by
    rw [recorded, mem_insert]
    simp [Rotation.line]
  ids ht := by
    rcases getElem?_insert_eq_some ht with ⟨rfl, rfl⟩ | ⟨-, hold⟩
    · rfl
    · simp at hold
  below hid := by
    rcases mem_insert.mp hid with rfl | hold
    · exact Nat.lt_succ_self _
    · simp at hold
  created ht := by cases ht
  distinct := List.nodup_nil

/-- The first task becomes current, and the scheduler is consistent from then on. -/
lemma becomeKinit_spec (cpu : Cpu) (n : ℕ) (registers : Registers)
    (memoryContext : MemoryContext) :
    ∃ s, createAndBecomeKinit registers memoryContext (Scheduler.new cpu n) = (.ok n, s) ∧
      Consistent s ⟨n, []⟩ := by
  have h : Consistent (recorded cpu n registers memoryContext) ⟨n, []⟩ := consistent_recorded
  obtain ⟨prev, next, -, hpid, -, -, hcall⟩ := schedule_spec h
  refine ⟨_, ?_, h.schedule next hpid⟩
  have hfirst : createAndBecomeKinit registers memoryContext (Scheduler.new cpu n) =
      (schedule >>= fun _ => pure n) (recorded cpu n registers memoryContext) := by
    simp [createAndBecomeKinit, taskNew, becomeKinit, lockCall, lock, unlock, setCurrent,
      currentTaskSlot, Scheduler.new, currentCore, Exec.bind_assoc, recorded]
  rw [hfirst, Exec.bind_ok hcall]
  rfl

/-! ### The laws of the scheduler -/

lemma Consistent.current_eq (h : Consistent s r) : current s = some r.current := by
  rw [current, h.slot]
  rfl

lemma Consistent.currentTask (h : Consistent s r) : ∃ t, (currentTask s).1 = .ok t := by
  obtain ⟨t, ht, -⟩ := lookup h current_mem
  refine ⟨t, ?_⟩
  simp [Scheduler.currentTask, currentTaskId, task, lockCall, lock, unlock, currentTaskSlot,
    currentCore, Exec.bind_assoc, h.unlocked, h.slot, ht]

/-- **Round robin.** After `become_kinit` and any calls of `add_task` and `schedule`:
the current slot and the queue hold the ids of the tasks, each once, and no lookup fails;
who waits at position `i` is current exactly from the `i + 1`-st later `schedule` call on, and
from one turn of a task to the next those that waited when it was switched out are current in
their order; and the switch installs the task that is recorded as current. -/
theorem round_robin (hrun : Run Scheduler.step
      (createAndBecomeKinit registers memoryContext (Scheduler.new cpu n)).2 es s) :
    ((∀ id, ((current s).toList ++ s.queue).count id = if id ∈ s.tasks then 1 else 0) ∧
      (schedule s).1 = .ok () ∧ ∃ t, (currentTask s).1 = .ok t) ∧
    ((∀ i id es' s', s.queue[i]? = some id → Run Scheduler.step s es' s' →
        (schedules es' ≤ i → current s' ≠ some id) ∧
          (schedules es' = i + 1 → current s' = some id)) ∧
      ∀ s₁ es' s', Scheduler.step s .schedule = some s₁ → Run Scheduler.step s₁ es' s' →
        schedules es' ≤ s.queue.length →
          current s' = (s.queue ++ (current s).toList)[schedules es']?) ∧
    ∀ s', Scheduler.step s .schedule = some s' →
      ∃ id t, current s' = some id ∧ s'.tasks[id]? = some t ∧
      t.id = id ∧ s'.cpu = ⟨t.registers, t.memoryContext.ttbr⟩ ∧
        (current s ≠ some id → s.tasks[id]? = some t) := by
  obtain ⟨s₀, hboot, hs₀⟩ := becomeKinit_spec cpu n registers memoryContext
  rw [hboot] at hrun
  obtain ⟨ops, h, -⟩ := hs₀.run hrun
  generalize (⟨n, []⟩ : Rotation ℕ).run ops = r at h
  refine ⟨⟨fun id => ?_, ?_, h.currentTask⟩, ⟨fun i id es' s' hi hrun' => ?_,
    fun s₁ es' s' hstep hrun' hle => ?_⟩, fun s' hstep => ?_⟩
  · have hperm : ((current s).toList ++ s.queue).Perm r.line := by
      rw [h.current_eq, h.queue]
      exact (List.perm_append_singleton _ _).symm
    rw [hperm.count_eq, h.nodup.count]
    exact if_congr (h.keys id) rfl rfl
  · obtain ⟨prev, next, -, -, -, -, hcall⟩ := schedule_spec h
    rw [hcall]
  · rw [h.queue] at hi
    obtain ⟨ops', h', hops'⟩ := h.run hrun'
    rw [h'.current_eq, ← hops']
    refine ⟨fun hle heq => ?_, fun heq => by rw [Rotation.turn hi heq]⟩
    -- an id that waits is not current as well
    have hwait := List.mem_of_getElem? (Rotation.waits hi hle)
    rw [← Option.some.inj heq] at hwait
    exact (List.nodup_append.mp h'.nodup).2.2 _ hwait _ (List.mem_singleton_self _) rfl
  · rw [h.queue] at hle ⊢
    obtain ⟨prev, next, -, hpid, -, -, hcall⟩ := schedule_spec h
    rw [Scheduler.step, hcall] at hstep
    obtain rfl := Option.some.inj hstep
    obtain ⟨ops', h', hops'⟩ := (h.schedule _ hpid).run hrun'
    rw [h'.current_eq, h.current_eq, ← hops']
    exact Rotation.round (hops' ▸ hle)
  · obtain ⟨prev, next, hprev, hpid, hnext, hnid, hcall⟩ := schedule_spec h
    rw [Scheduler.step, hcall] at hstep
    obtain rfl := Option.some.inj hstep
    have hcur : current (switched s r prev next) = some r.rotate.current := rfl
    by_cases hself : next.id = prev.id
    · refine ⟨_, { prev with registers := s.cpu.registers }, hcur, ?_, ?_, ?_, ?_⟩
      · rw [switched, ← hnid, hself]
        exact Std.TreeMap.getElem?_insert_self
      · exact hself.symm.trans hnid
      · have hsame : next = prev := by
          rw [← hnid, hself, hpid] at hnext
          exact Option.some.inj (hnext.symm.trans hprev)
        simp [switched, hsame]
      · intro hne
        rw [h.current_eq, ← hpid, ← hself, hnid] at hne
        exact absurd rfl hne
    · refine ⟨_, next, hcur, ?_, hnid, ?_, fun _ => hnext⟩
      · rw [switched, Std.TreeMap.getElem?_insert,
          if_neg (fun hc => hself (hnid.trans (Std.compare_eq_iff_eq.mp hc).symm))]
        exact hnext
      · simp [switched, hself]

/-- Registers and a memory context of zeroes. -/
def zeroed : Registers := ⟨0, 0, 0, 0, 0, 0, 0, 0, 0, 0, 0, 0, 0⟩

def emptyContext : MemoryContext := ⟨[], 0, 0⟩

def booted : Kernel :=
  (createAndBecomeKinit zeroed emptyContext (Scheduler.new ⟨zeroed, 0⟩ 1)).2

/-- A second task is added; after one more `schedule` call it is current. -/
theorem round_robin_run : ∃ s s',
    Run Scheduler.step booted [.create zeroed emptyContext, .addTask 0] s ∧
    Scheduler.step s .schedule = some s' ∧ current s' = some 2 := by
  let s₁ := (Scheduler.step booted (.create zeroed emptyContext)).get (by decide +kernel)
  let s₂ := (Scheduler.step s₁ (.addTask 0)).get (by decide +kernel)
  let s₃ := (Scheduler.step s₂ .schedule).get (by decide +kernel)
  have h₁ : Scheduler.step booted (.create zeroed emptyContext) = some s₁ :=
    (Option.some_get _).symm
  have h₂ : Scheduler.step s₁ (.addTask 0) = some s₂ := (Option.some_get _).symm
  have h₃ : Scheduler.step s₂ .schedule = some s₃ := (Option.some_get _).symm
  have hrun := ((Run.nil booted).snoc h₁).snoc h₂
  have hqueue : s₂.queue[0]? = some 2 := by decide +kernel
  exact ⟨s₂, s₃, hrun, h₃, ((round_robin hrun).2.1.1 0 2 _ _ hqueue (Run.single h₃)).2 rfl⟩

end Pimento.RoundRobin
