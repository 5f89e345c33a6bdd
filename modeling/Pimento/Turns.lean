import Pimento.Resumption
import Pimento.RoundRobin

/-!
When a task that waits is switched in, and what it finds.

The current task and the queue are a rotating queue in which every task has one place. While a task
waits, nothing of it changes.
-/

namespace Pimento.ContextSwitch

open ByteMemory Aarch64 Address Runs

variable {im : Image} {s s' s'' : System} {t : Thread} {e : Event} {es : List Event} {i j : ℕ}

def System.rotation (s : System) : Rotation ℕ := ⟨s.current, s.queue⟩

/-- Every task has one place. -/
def Lined (s : System) : Prop := s.rotation.line.Perm (List.range s.threads.length)

/-- What a task has of its own is as it was: its calls, its record and its stack. -/
structure Untouched (s s' : System) (j : ℕ) : Prop where
  calls : s'.calls j = s.calls j
  started : s'.started j = s.started j
  thread : ∀ t, s.threads[j]? = some t → s'.threads[j]? = some t
  record : ∀ t, s.threads[j]? = some t →
    SameOn s.core.memory s'.core.memory t.registers Registers.size
  stack : ∀ t, s.threads[j]? = some t →
    SameOn s.core.memory s'.core.memory t.stackStart t.stackSize

/-! ### The queue -/

/-- A switch rotates the queue, a new task is enqueued, and nothing else changes it. -/
lemma step_rotation (h : Inv im s) (hs : step im s e = some s') :
    (∃ lr, e = .schedule lr ∧ s'.rotation = s.rotation.rotate ∧ s'.threads = s.threads) ∨
      (schedules [e] = 0 ∧ ∃ t, s'.rotation = s.rotation.enqueue s.threads.length ∧
        s'.threads = s.threads ++ [t]) ∨
      (schedules [e] = 0 ∧ s'.rotation = s.rotation ∧ s'.threads = s.threads) := by
  cases e with
  | schedule lr =>
    obtain ⟨-, -, p, n, q, hswitch⟩ := of_schedule h hs
    refine .inl ⟨lr, rfl, ?_, hswitch.threads⟩
    have hhead : (s.queue ++ [s.current]).head (by simp) = n :=
      Option.some.inj ((List.head?_eq_some_head _).symm.trans hswitch.head)
    rw [System.rotation, hswitch.current, hswitch.queue, ← hhead]
    rfl
  | createKthread registers page func =>
    obtain ⟨-, hs⟩ := Option.ite_none_right_eq_some.mp hs
    obtain rfl := Option.some.inj hs
    exact .inr (.inl ⟨rfl, _, rfl, rfl⟩)
  | after op =>
    obtain ⟨a, rest, -, -, rfl⟩ := of_after hs
    exact .inr (.inr ⟨rfl, rfl, rfl⟩)
  | ret x =>
    obtain ⟨a, rest, -, -, rfl⟩ := of_ret hs
    exact .inr (.inr ⟨rfl, rfl, rfl⟩)
  | run =>
    obtain ⟨-, hs⟩ := Option.ite_none_right_eq_some.mp hs
    obtain rfl := Option.some.inj hs
    exact .inr (.inr ⟨rfl, rfl, rfl⟩)
  | entry =>
    obtain ⟨-, hs⟩ := Option.ite_none_right_eq_some.mp hs
    obtain rfl := Option.some.inj hs
    exact .inr (.inr ⟨rfl, rfl, rfl⟩)

lemma Lined.step (h : Inv im s) (hl : Lined s) (hs : step im s e = some s') : Lined s' := by
  unfold Lined at hl ⊢
  rcases step_rotation h hs with ⟨lr, -, hr, ht⟩ | ⟨-, t, hr, ht⟩ | ⟨-, hr, ht⟩ <;> rw [hr, ht]
  · exact RoundRobin.perm_line_rotate.trans hl
  · rw [List.length_append, List.length_singleton, List.range_succ]
    have hperm : (s.rotation.enqueue s.threads.length).line.Perm
        (s.rotation.line ++ [s.threads.length]) := by
      simp only [Rotation.line, Rotation.enqueue, List.append_assoc]
      exact (List.perm_append_comm).append_left _
    exact hperm.trans (hl.append_right _)
  · exact hl

/-- A run is a run of the queue with as many rotations. -/
lemma run_rotation (h : Inv im s) (hl : Lined s) (hrun : Run (step im) s es s') :
    Inv im s' ∧ Lined s' ∧
      ∃ ops, s'.rotation = s.rotation.run ops ∧ Rotation.rotations ops = schedules es := by
  refine hrun.invariant_log (I := fun es s' => Inv im s' ∧ Lined s' ∧
    ∃ ops, s'.rotation = s.rotation.run ops ∧ Rotation.rotations ops = schedules es) ?_
    ⟨h, hl, [], rfl, rfl⟩
  rintro es s₁ e s₂ ⟨h₁, hl₁, ops, hr, hops⟩ hs
  refine ⟨h₁.preserved hs, hl₁.step h₁ hs, ?_⟩
  have hadd : schedules (es ++ [e]) = schedules es + schedules [e] := List.countP_append
  rcases step_rotation h₁ hs with ⟨lr, rfl, hr', -⟩ | ⟨hzero, t, hr', -⟩ | ⟨hzero, hr', -⟩
  · refine ⟨ops ++ [.rotate], ?_, by rw [Rotation.rotations_rotate, hops, hadd]; rfl⟩
    rw [hr', hr, Rotation.run_snoc]
    rfl
  · refine ⟨ops ++ [.enqueue s₁.threads.length], ?_, ?_⟩
    · rw [hr', hr, Rotation.run_snoc]
      rfl
    · rw [Rotation.rotations_enqueue, hops, hadd, hzero, Nat.add_zero]
  · exact ⟨ops, hr'.trans hr, by rw [hops, hadd, hzero, Nat.add_zero]⟩

/-- A task that waits is not the current one. -/
lemma Lined.ne_current (hl : Lined s) (hj : j ∈ s.queue) : j ≠ s.current := by
  have hnodup : s.rotation.line.Nodup := hl.nodup_iff.mpr List.nodup_range
  exact (List.nodup_append.mp hnodup).2.2 j hj _ (List.mem_singleton_self _)

/-! ### What changes nothing of a task -/

lemma Untouched.refl (s : System) (j : ℕ) : Untouched s s j :=
  ⟨rfl, rfl, fun _ => id, fun _ _ => SameOn.refl _ _ _, fun _ _ => SameOn.refl _ _ _⟩

lemma Untouched.trans (h : Untouched s s' j) (h' : Untouched s' s'' j) : Untouched s s'' j where
  calls := h'.calls.trans h.calls
  started := h'.started.trans h.started
  thread t ht := h'.thread t (h.thread t ht)
  record t ht := (h.record t ht).trans (h'.record t (h.thread t ht))
  stack t ht := (h.stack t ht).trans (h'.stack t (h.thread t ht))

/-- A step that leaves the memory and the tasks, and changes the calls of another task only. -/
lemma untouched_of_memory (hcalls : s'.calls j = s.calls j) (hstarted : s'.started j = s.started j)
    (hthreads : s'.threads = s.threads) (hmemory : s'.core.memory = s.core.memory) :
    Untouched s s' j where
  calls := hcalls
  started := hstarted
  thread t ht := by rwa [hthreads]
  record t _ := by rw [hmemory]; exact SameOn.refl _ _ _
  stack t _ := by rw [hmemory]; exact SameOn.refl _ _ _

/-- **Waiting**: no step changes anything of a task that is not current. -/
lemma step_untouched (h : Inv im s) (hj : j ≠ s.current) (hlt : j < s.threads.length)
    (hs : step im s e = some s') :
    Untouched s s' j ∧ (s'.current ≠ j → s'.activations j = s.activations j) := by
  cases e with
  | schedule lr =>
    obtain ⟨-, -, p, n, q, hswitch⟩ := of_schedule h hs
    refine ⟨⟨?_, ?_, fun t ht => ?_, fun t ht => ?_, fun t ht => ?_⟩, fun hne => ?_⟩
    · rw [hswitch.calls, push, Function.update_of_ne hj]
    · rw [hswitch.started]
    · rwa [hswitch.threads]
    · rw [hswitch.memory]
      exact CpuContext.sameOn_write (h.placed.disjoint ht hswitch.prev hj).1
    · rw [hswitch.memory]
      exact CpuContext.sameOn_write (h.placed.record_stack hswitch.prev ht).symm
    · rw [hswitch.current] at hne
      rw [hswitch.activations, push, Function.update_of_ne hne.symm]
  | createKthread registers page func =>
    obtain ⟨⟨-, -, -, hplaced⟩, hs⟩ := Option.ite_none_right_eq_some.mp hs
    obtain rfl := Option.some.inj hs
    -- the record that is written is that of the new task
    let s₁ := s.createKthread (kthread registers page func) (kthreadRegisters im page func)
    have hnew : s₁.threads[s.threads.length]? = some (kthread registers page func) :=
      List.getElem?_concat_length
    have hold : ∀ t, s.threads[j]? = some t → s₁.threads[j]? = some t := fun t ht =>
      (List.getElem?_append_left hlt).trans ht
    refine ⟨⟨?_, rfl, hold, fun t ht => ?_, fun t ht => ?_⟩, fun _ => rfl⟩
    · exact Function.update_of_ne hlt.ne _ _
    · exact CpuContext.sameOn_write (hplaced.disjoint (s := s₁) (hold t ht) hnew hlt.ne).1
    · exact CpuContext.sameOn_write (hplaced.record_stack (s := s₁) hnew (hold t ht)).symm
  | after op =>
    obtain ⟨a, rest, -, -, rfl⟩ := of_after hs
    refine ⟨untouched_of_memory rfl rfl rfl rfl, fun _ => ?_⟩
    exact Function.update_of_ne hj _ _
  | ret x =>
    obtain ⟨a, rest, -, -, rfl⟩ := of_ret hs
    refine ⟨untouched_of_memory ?_ ?_ rfl rfl, fun _ => ?_⟩ <;> exact Function.update_of_ne hj _ _
  | run x sp pc writes =>
    obtain ⟨⟨-, -, -, hwrites⟩, hs⟩ := Option.ite_none_right_eq_some.mp hs
    obtain rfl := Option.some.inj hs
    refine ⟨⟨rfl, rfl, fun _ => id, fun t ht => ?_, fun t ht => ?_⟩, fun _ => rfl⟩
    · exact sameOn_store fun w hw => (MayWrite.outside (hwrites w hw) ht).1
    · refine sameOn_store fun w hw => ?_
      have hout := (MayWrite.outside (hwrites w hw) ht).2
      rw [inUse_of_ne hj] at hout
      have hle := (h.placed.fits ht).2.1
      unfold Thread.stackSize
      omega
  | entry =>
    obtain ⟨-, hs⟩ := Option.ite_none_right_eq_some.mp hs
    obtain rfl := Option.some.inj hs
    obtain ⟨-, -, -, hmemory⟩ := CpuContext.entry_spec (c := s.core)
    exact ⟨untouched_of_memory rfl rfl rfl hmemory, fun _ => rfl⟩

/-- Through up to `i` switches the task at position `i` waits, and nothing of it changes. -/
lemma run_untouched (h : Inv im s) (hl : Lined s) (hi : s.queue[i]? = some j)
    (hrun : Run (step im) s es s') (hle : schedules es ≤ i) :
    s'.queue[i - schedules es]? = some j ∧ s'.activations j = s.activations j ∧
      Untouched s s' j := by
  have hwaits : ∀ {es s'}, Run (step im) s es s' → schedules es ≤ i →
      s'.queue[i - schedules es]? = some j := by
    intro es s' hrun hle
    obtain ⟨-, -, ops, hr, hops⟩ := run_rotation h hl hrun
    have hwait := Rotation.waits (r := s.rotation) hi (hops.trans_le hle)
    rwa [← hr, hops] at hwait
  refine ⟨hwaits hrun hle, ?_⟩
  induction hrun with
  | nil => exact ⟨rfl, .refl s j⟩
  | @snoc s₁ s₂ es e hrun hs ih =>
    have hadd : schedules (es ++ [e]) = schedules es + schedules [e] := List.countP_append
    obtain ⟨h₁, hl₁, -⟩ := run_rotation h hl hrun
    obtain ⟨-, hl₂, -⟩ := run_rotation h hl (hrun.snoc hs)
    have hj₁ := List.mem_of_getElem? (hwaits hrun (by omega))
    have hj₂ := List.mem_of_getElem? (hwaits (hrun.snoc hs) hle)
    obtain ⟨hacts, hun⟩ := ih (by omega)
    obtain ⟨hun', hacts'⟩ := step_untouched h₁ (hl₁.ne_current hj₁) (h₁.queue j hj₁) hs
    exact ⟨(hacts' (hl₂.ne_current hj₂).symm).trans hacts, hun.trans hun'⟩

/-- What a task finds when its turn comes: the core has the registers of its last call, in which
`after_func` has been entered, and nothing of it has changed. -/
structure Resumes (im : Image) (s s' : System) (j : ℕ) : Prop where
  current : s'.current = j
  untouched : Untouched s s' j
  registers : ∃ c cs, s.calls j = c :: cs ∧ Registers.ofCore s'.core = c.registers
  entered : s'.activations j =
    ⟨im.afterSchedule, im.scheduler, Registers.ofCore s'.core, afterSchedule⟩ :: s.activations j

/-- **Turns**: in every run every task has one place, and one that waits at position `i` is switched
in by the `i + 1`-st switch from then on, not before; whatever other tasks do in the meantime, its
calls, its record and its stack are as it left them. -/
theorem tasks_take_turns {core : Core} (hboot : Boots im t core)
    (hrun : Run (step im) (boot t core) es s) :
    (s.queue ++ [s.current]).Perm (List.range s.threads.length) ∧
      ∀ i j es' s', s.queue[i]? = some j → Run (step im) s es' s' →
        (schedules es' ≤ i → s'.current ≠ j ∧ s'.activations j = s.activations j ∧
          Untouched s s' j) ∧
        ∀ lr s'', schedules es' = i → step im s' (.schedule lr) = some s'' →
          Resumes im s s'' j := by
  obtain ⟨h, hl, -⟩ := run_rotation hboot.inv (by exact List.Perm.refl [0]) hrun
  refine ⟨hl, fun i j es' s' hi hrun' => ⟨fun hle => ?_, fun lr s'' heq hs => ?_⟩⟩
  · obtain ⟨-, hl', -⟩ := run_rotation h hl hrun'
    obtain ⟨hwait, hacts, hun⟩ := run_untouched h hl hi hrun' hle
    exact ⟨(hl'.ne_current (List.mem_of_getElem? hwait)).symm, hacts, hun⟩
  · obtain ⟨h', hl', ops, hr, hops⟩ := run_rotation h hl hrun'
    obtain ⟨hwait, hacts, hun⟩ := run_untouched h hl hi hrun' heq.le
    rw [heq, Nat.sub_self] at hwait
    have hmem := List.mem_of_getElem? hwait
    have hne := hl'.ne_current hmem
    obtain ⟨-, -, p, n, q, hswitch⟩ := of_schedule h' hs
    have hn : n = j := by
      have hhead := hswitch.head
      rw [List.head?_append_of_ne_nil _ (List.ne_nil_of_mem hmem), List.head?_eq_getElem?] at hhead
      exact Option.some.inj (hhead.symm.trans hwait)
    subst hn
    obtain ⟨hun', -⟩ := step_untouched h' hne (h'.queue n hmem) hs
    obtain ⟨c, cs, hcs, hc, -⟩ := hswitch.continues h'
    rw [(hun.trans hun').calls] at hcs
    refine ⟨hswitch.current, hun.trans hun', ⟨c, cs, hcs, hc.symm⟩, ?_⟩
    rw [hswitch.activations, push, Function.update_self, hacts]

/-- A new task is switched in by the first switch. -/
theorem tasks_take_turns_kthread : ∃ s s', Run (step bootImage) (boot kinit kinitCore)
      [.createKthread 0x4000 0x5000 kthreadFunc] s ∧
    step bootImage s (.schedule 0x80500) = some s' ∧ Resumes bootImage s s' 1 := by
  have hboot : Boots bootImage kinit kinitCore :=
    ⟨rfl, by decide, by decide, by decide, by decide⟩
  have hs₁ : step bootImage (boot kinit kinitCore) (.createKthread 0x4000 0x5000 kthreadFunc) =
      some ((boot kinit kinitCore).createKthread (kthread 0x4000 0x5000 kthreadFunc)
        (kthreadRegisters bootImage 0x5000 kthreadFunc)) := by
    rw [step]
    exact if_pos ⟨by decide, rfl, by decide, by decide⟩
  have hrun := (Run.nil (boot kinit kinitCore)).snoc hs₁
  obtain ⟨s₂, hs₂⟩ := (hboot.inv.preserved hs₁).can_schedule 0x80500 hboot.pc rfl (by decide)
  have hturns := (tasks_take_turns hboot hrun).2 0 1 [] _ rfl (.nil _)
  exact ⟨_, s₂, hrun, hs₂, hturns.2 0x80500 s₂ rfl hs₂⟩

end Pimento.ContextSwitch
