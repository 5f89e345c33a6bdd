import Pimento.SwitchInvariant

/-!
A task that is switched in again continues where it was switched out.
-/

namespace Pimento.ContextSwitch

open ByteMemory Aarch64 Address Runs

variable {im : Image} {s s' : System} {t : Thread}

/-- The initial task runs on its own stack. -/
structure Boots (im : Image) (t : Thread) (c : Core) : Prop where
  func : t.func = none
  fits : t.Fits
  start_le : t.stackStart ≤ c.sp.toNat
  le_end : c.sp.toNat ≤ t.stackEnd
  pc : c.pc ≠ im.cpuContextEntry

lemma Boots.inv {core : Core} (h : Boots im t core) : Inv im (boot t core) := by
  have hthread : ∀ {i u}, (boot t core).threads[i]? = some u → i = 0 ∧ u = t := fun hu => by
    obtain ⟨hi, rfl⟩ := List.getElem?_eq_some_iff.mp hu
    obtain rfl : _ = 0 := Nat.lt_one_iff.mp hi
    exact ⟨rfl, rfl⟩
  refine
    { placed := ⟨fun u hu => ?placed, List.pairwise_singleton ..⟩
      current := Nat.one_pos
      queue := fun _ hi => by cases hi
      onStack := fun u hu => ?onStack
      calls := fun hu => ?calls
      frames := fun _ _ hc => by cases hc
      sorted := fun _ => .nil
      entered := fun _ _ ha => by cases ha
      released := fun i a ha => ?released
      lock := rfl
      origin := fun hu => ?origin
      functions := fun u hu f hf => ?functions
      starting := fun he => absurd he h.pc
      fresh := fun i hi => ?fresh }
  case placed =>
    obtain rfl := List.mem_singleton.mp hu
    exact h.fits
  case onStack =>
    obtain ⟨-, rfl⟩ := hthread hu
    rw [inUse_nil rfl]
    exact ⟨h.start_le, h.le_end⟩
  case calls =>
    obtain ⟨rfl, rfl⟩ := hthread hu
    rfl
  case released =>
    unfold System.older at ha
    split_ifs at ha <;> cases ha
  case origin =>
    obtain ⟨rfl, rfl⟩ := hthread hu
    exact ⟨[], rfl, fun _ hr => by cases hr⟩
  case functions =>
    obtain rfl := List.mem_singleton.mp hu
    rw [h.func] at hf
    cases hf
  case fresh =>
    exact ⟨rfl, decide_eq_false (Nat.one_le_iff_ne_zero.mp hi)⟩

/-! ### What every step of a run does -/

/-- A new task waits with one call, that of its entry. -/
structure Creates (im : Image) (s s' : System) (t : Thread) (func : Func) : Prop where
  threads : s'.threads = s.threads ++ [t]
  queue : s'.queue = s.queue ++ [s.threads.length]
  calls : (s'.calls s.threads.length).map Call.registers =
    [kthreadRegisters im t.stackStart func]
  activations : s'.activations s.threads.length = []
  started : s'.started s.threads.length = false

/-- `schedule` takes the lock and ends in `after_func`, once, on the stack of the next task. -/
structure Enters (im : Image) (s s' : System) (lr : Word) : Prop where
  free : s.locked = false
  taken : s'.locked = true
  call : s'.calls = push s.calls s.current ⟨atCall s.core lr, s.core.memory⟩
  next : (s.queue ++ [s.current]).head? = some s'.current
  entered : s'.activations = push s.activations s'.current
    ⟨im.afterSchedule, im.scheduler, Registers.ofCore s'.core, afterSchedule⟩
  pc : s'.core.pc = im.afterSchedule
  data : s'.core.x 0 = im.scheduler
  stack : ∃ t, s'.threads[s'.current]? = some t ∧ t.stackStart ≤ s'.core.sp.toNat ∧
    s'.core.sp.toNat ≤ t.stackEnd

/-- The call of `after_func` that is running releases the lock, for the first time. -/
structure Releases (s s' : System) : Prop where
  taken : s.locked = true
  free : s'.locked = false
  once : ∃ a rest, s.activations s.current = a :: rest ∧ a.released = false ∧
    a.next.released = true ∧
    s'.activations = Function.update s.activations s.current (a.next :: rest)

/-- The call of `after_func` that is running, which has released the lock, sets the timer or enables
interrupts. -/
structure GoesOn (s s' : System) : Prop where
  free : s.locked = false
  still : s'.locked = false
  released : ∃ a rest, s.activations s.current = a :: rest ∧ a.released = true ∧
    s'.activations = Function.update s.activations s.current (a.next :: rest)

/-- `after_func`, which has released the lock and has nothing left to do, returns to the task's own
last call of `cpu_context_switch`, with the registers and the frames of the call. A new task begins
at its entry. -/
structure Continues (im : Image) (s s' : System) : Prop where
  current : s'.current = s.current
  released : ∃ a rest, s.activations s.current = a :: rest ∧ a.left = [] ∧ a.released = true ∧
    s'.activations = Function.update s.activations s.current rest
  call : ∃ c cs, s.calls s.current = c :: cs ∧ s'.calls = Function.update s.calls s.current cs ∧
    Registers.ofCore s'.core = c.registers ∧ s'.core.pc = c.registers.lr ∧
    ∀ t, s.threads[s.current]? = some t → FrameKept t s'.core.memory c ∧
      ∀ f, t.func = some f → s.started s.current = false → cs = [] →
        c.registers = kthreadRegisters im t.stackStart f ∧ s'.core.pc = im.cpuContextEntry

/-- The code at the entry calls the wrapper with the boxed function, on the top of the task's own
stack page. -/
structure Begins (s s' : System) : Prop where
  func : ∃ t f, s.threads[s.current]? = some t ∧ t.func = some f ∧
    t.stackEnd = t.stackStart + pageSize ∧ s'.core.pc = f.wrapper ∧ s'.core.x 0 = f.address ∧
    s'.core.sp.toNat = t.stackEnd

def Correct (im : Image) (s s' : System) : Event → Prop
  | .run .. => True
  | .createKthread registers page func => Creates im s s' (kthread registers page func) func
  | .schedule lr => Enters im s s' lr
  | .after .unlock => Releases s s'
  | .after _ => GoesOn s s'
  | .ret _ => Continues im s s'
  | .entry => Begins s s'

lemma Inv.creates {registers page : ℕ} {func : Func} (h : Inv im s)
    (hs : step im s (.createKthread registers page func) = some s') :
    Creates im s s' (kthread registers page func) func := by
  obtain ⟨-, hs⟩ := Option.ite_none_right_eq_some.mp hs
  obtain rfl := Option.some.inj hs
  obtain ⟨hacts, hstarted⟩ := h.fresh s.threads.length le_rfl
  refine ⟨rfl, rfl, ?_, hacts, hstarted⟩
  change (Function.update s.calls _ _ _).map _ = _
  rw [Function.update_self]
  rfl

lemma Inv.enters {lr : Word} (h : Inv im s) (hs : step im s (.schedule lr) = some s') :
    Enters im s s' lr := by
  obtain ⟨hfree, -, p, n, q, hswitch⟩ := of_schedule h hs
  obtain ⟨c, -, -, hc, hkept⟩ := hswitch.continues h
  have hsp : c.registers.sp = s'.core.sp := congrArg Registers.sp hc
  exact
    { free := hfree
      taken := hswitch.locked
      call := hswitch.calls
      next := hswitch.current ▸ hswitch.head
      entered := by rw [hswitch.activations, hswitch.current]
      pc := hswitch.pc
      data := hswitch.data
      stack := ⟨q, by rw [hswitch.threads, hswitch.current]; exact hswitch.next,
        hsp ▸ hkept.start_le, hsp ▸ hkept.le_end⟩ }

lemma Inv.frees (h : Inv im s) (hs : step im s (.after .unlock) = some s') : Releases s s' := by
  obtain ⟨a, rest, ha, hop, rfl⟩ := of_after hs
  have hleft : a.left = .unlock :: a.left.tail := (List.cons_head?_tail hop).symm
  have hreleased : a.released = false := by
    rw [Activation.released, hleft]
    rfl
  have htaken : s.locked = true := by
    rw [h.locked_eq ha, hreleased]
    rfl
  have hfree : false = !a.next.released :=
    (h.after ha hop).locked_eq (after_activations s a rest .unlock)
  exact ⟨htaken, rfl, a, rest, ha, hreleased, by simpa using hfree.symm, rfl⟩

/-- The lock is released first: an operation other than that one finds it free. -/
lemma Inv.goesOn {op : AfterOp} (h : Inv im s) (hne : op ≠ .unlock)
    (hs : step im s (.after op) = some s') : GoesOn s s' := by
  obtain ⟨a, rest, ha, hop, rfl⟩ := of_after hs
  obtain ⟨-, -, hsuffix⟩ := h.entered s.current a (ha ▸ List.mem_cons_self ..)
  rw [← List.cons_head?_tail hop] at hsuffix
  have hreleased : a.released = true := by
    rw [Activation.released, ← List.cons_head?_tail hop]
    rcases List.suffix_cons_iff.mp hsuffix with heq | hrest
    · exact absurd (List.cons.inj heq).1 hne
    · have hnot : AfterOp.unlock ∉ op :: a.left.tail := fun hmem =>
        absurd (hrest.subset hmem) (by decide)
      simpa using hnot
  have hfree : s.locked = false := by
    rw [h.locked_eq ha, hreleased]
    rfl
  refine ⟨hfree, ?_, a, rest, ha, hreleased, rfl⟩
  cases op with
  | unlock => exact absurd rfl hne
  | setDuration => exact hfree
  | enableInterrupts => exact hfree

lemma Inv.continues {x : Reg → Word} (h : Inv im s) (hs : step im s (.ret x) = some s') :
    Continues im s s' := by
  obtain ⟨a, rest, ha, hleft, rfl⟩ := of_ret hs
  obtain ⟨c, cs, hcs, hc, -⟩ := h.innermost ha
  refine ⟨rfl, ⟨a, rest, ha, hleft, released_of_left hleft, rfl⟩, c, cs, hcs, ?_, hc.symm, ?_,
    fun t ht => ?_⟩
  · rw [afterReturn, hcs]
    rfl
  · exact congrArg Registers.lr hc.symm
  · refine ⟨h.frames ht c (hcs ▸ List.mem_cons_self ..), fun f hf hstarted hnil => ?_⟩
    rcases h.last_call ht hcs with ⟨-, rs, hmap, -⟩ | ⟨-, -, f', hf', hregs⟩
    · rw [hnil, hstarted, firstCall, if_neg (by decide), hf] at hmap
      cases List.append_eq_nil_iff.mp hmap.symm |>.2
    · obtain rfl := Option.some.inj (hf'.symm.trans hf)
      have hlr : a.registers.lr = im.cpuContextEntry := by
        rw [← hc, hregs]
        rfl
      exact ⟨hregs, hlr⟩

lemma Inv.correct {e : Event} (h : Inv im s) (hs : step im s e = some s') :
    Correct im s s' e := by
  cases e with
  | run => trivial
  | createKthread => exact h.creates hs
  | schedule => exact h.enters hs
  | after op =>
    cases op with
    | unlock => exact h.frees hs
    | setDuration => exact h.goesOn (by decide) hs
    | enableInterrupts => exact h.goesOn (by decide) hs
  | ret => exact h.continues hs
  | entry =>
    obtain ⟨hpc, hs⟩ := Option.ite_none_right_eq_some.mp hs
    obtain rfl := Option.some.inj hs
    exact ⟨h.entry_spec hpc⟩

/-- A switch takes the lock and an `unlock` frees it; nothing else does either. -/
lemma Inv.balance {e : Event} (h : Inv im s) (hs : step im s e = some s') :
    schedules [e] + s.locked.toNat = releases [e] + s'.locked.toNat := by
  cases e with
  | schedule lr =>
    have henters := h.enters hs
    rw [henters.free, henters.taken]
    rfl
  | after op =>
    cases op with
    | unlock =>
      have hfrees := h.frees hs
      rw [hfrees.taken, hfrees.free]
      rfl
    | setDuration =>
      obtain ⟨a, rest, -, -, rfl⟩ := of_after hs
      rfl
    | enableInterrupts =>
      obtain ⟨a, rest, -, -, rfl⟩ := of_after hs
      rfl
  | ret x =>
    obtain ⟨a, rest, -, -, rfl⟩ := of_ret hs
    rfl
  | run =>
    obtain ⟨-, hs⟩ := Option.ite_none_right_eq_some.mp hs
    obtain rfl := Option.some.inj hs
    rfl
  | createKthread =>
    obtain ⟨-, hs⟩ := Option.ite_none_right_eq_some.mp hs
    obtain rfl := Option.some.inj hs
    rfl
  | entry =>
    obtain ⟨-, hs⟩ := Option.ite_none_right_eq_some.mp hs
    obtain rfl := Option.some.inj hs
    rfl

/-- Along a run every switch but the one in progress has released the lock, once. -/
lemma run_balance {core : Core} {es : List Event} (hboot : Boots im t core)
    (hrun : Run (step im) (boot t core) es s) :
    Inv im s ∧ schedules es = releases es + s.locked.toNat := by
  refine hrun.invariant_log
    (I := fun es s => Inv im s ∧ schedules es = releases es + s.locked.toNat) ?_ ⟨hboot.inv, rfl⟩
  rintro es s e s' ⟨hinv, hcount⟩ hs
  have hbalance := hinv.balance hs
  refine ⟨hinv.preserved hs, ?_⟩
  unfold schedules releases at *
  rw [List.countP_append, List.countP_append]
  omega

/-! ### No step is missing -/

/-- Running code can switch whenever the lock is free: no lookup of the scheduler fails. -/
lemma Inv.can_schedule (lr : Word) (h : Inv im s) (hc : s.Compiled im) (hfree : s.locked = false)
    (hlr : lr ≠ im.cpuContextEntry) : ∃ s', step im s (.schedule lr) = some s' := by
  obtain ⟨p, hp⟩ := h.exists_current
  obtain ⟨n, hn⟩ : ∃ n, (s.queue ++ [s.current]).head? = some n :=
    ⟨_, List.head?_eq_some_head (List.append_ne_nil_of_right_ne_nil _ (List.cons_ne_nil _ _))⟩
  have hlt : n < s.threads.length := by
    rcases List.mem_append.mp (List.mem_of_head? hn) with hmem | hmem
    · exact h.queue n hmem
    · rw [List.mem_singleton.mp hmem]
      exact h.current
  have hstep : step im s (.schedule lr) = s.schedule im lr := if_pos ⟨hc, hfree, hlr⟩
  rw [hstep, System.schedule, hp, hn, Option.bind_eq_bind, Option.bind_some, Option.bind_eq_bind,
    Option.bind_some, List.getElem?_eq_getElem hlt]
  exact ⟨_, rfl⟩

lemma Inv.can_go_on {op : AfterOp} {a : Activation} {rest : List Activation} (h : Inv im s)
    (hc : s.Compiled im) (ha : s.activations s.current = a :: rest)
    (hop : a.left.head? = some op) : step im s (.after op) = some (s.after op a rest) := by
  obtain ⟨hfunc, hdata, -⟩ := h.entered s.current a (ha ▸ List.mem_cons_self ..)
  simp only [step, ha]
  exact if_pos ⟨hc, hfunc, hdata, hop⟩

lemma can_return {a : Activation} {rest : List Activation} (x : Reg → Word) (hc : s.Compiled im)
    (ha : s.activations s.current = a :: rest) (hleft : a.left = []) :
    step im s (.ret x) = some (afterReturn s a rest x) := by
  simp only [step, ha]
  exact if_pos ⟨hc, hleft⟩

/-- A call of `after_func` that has nothing left returns, and the others perform an operation. -/
theorem Inv.can_finish {a : Activation} {rest : List Activation} (x : Reg → Word) (h : Inv im s)
    (hc : s.Compiled im) (ha : s.activations s.current = a :: rest) :
    ∃ e s', step im s e = some s' ∧ (e = .ret x ∨ ∃ op, e = .after op) := by
  rcases hleft : a.left with _ | ⟨op, ops⟩
  · exact ⟨_, _, can_return x hc ha hleft, .inl rfl⟩
  · exact ⟨_, _, h.can_go_on hc ha (by rw [hleft]; rfl), .inr ⟨op, rfl⟩⟩

/-- **A context switch resumes what it suspended.** In every run of any number of tasks, whatever
their compiled code does, a switch enters `after_func` once, on the stack of the next task; this
task continues only when `after_func` has released the lock and returned, and it continues after
its own last call with the registers and the frames of that call, or at the entry if it is new. -/
theorem switches_resume {core : Core} {es : List Event} (hboot : Boots im t core)
    (hrun : Run (step im) (boot t core) es s) :
    schedules es = releases es + s.locked.toNat ∧
      ∀ e s', step im s e = some s' → Correct im s s' e := by
  obtain ⟨hinv, hcount⟩ := run_balance hboot hrun
  exact ⟨hcount, fun _ _ hs => hinv.correct hs⟩

def bootImage : Image := ⟨0x80100, 0x80200, 0x80300, 0x5000, by decide⟩

def kinit : Thread := ⟨0x1000, 0x2000, 0x3000, none⟩

def kinitCore : Core := ⟨fun _ => 0, 0x2800, 0x80000, fun _ => 0⟩

def kthreadFunc : Func := ⟨0x90000, 0x3100⟩

/-- The initial task creates a thread and switches to it, for the first time. -/
def dispatched : List Event :=
  .createKthread 0x4000 0x5000 kthreadFunc :: .schedule 0x80500 :: afterSchedule.map .after

/-- The thread begins at its entry and switches back. -/
def switchedBack : List Event :=
  dispatched ++ .ret (fun _ => 0) :: .entry :: .schedule 0x90100 :: afterSchedule.map .after

/-- The new thread begins at its entry, and the initial task goes on after its call. -/
theorem switches_resume_kthread :
    (∃ s s', Run (step bootImage) (boot kinit kinitCore) dispatched s ∧
      step bootImage s (.ret fun _ => 0) = some s' ∧ s'.current = 1 ∧
      s'.core.pc = bootImage.cpuContextEntry ∧ Correct bootImage s s' (.ret fun _ => 0)) ∧
    ∃ s s', Run (step bootImage) (boot kinit kinitCore) switchedBack s ∧
      step bootImage s (.ret fun _ => 0) = some s' ∧ s'.current = 0 ∧ s'.core.pc = 0x80500 ∧
      Correct bootImage s s' (.ret fun _ => 0) := by
  have hboot : Boots bootImage kinit kinitCore :=
    ⟨rfl, by decide, by decide, by decide, by decide⟩
  have hresumes : ∀ es pc i, (final (step bootImage) (boot kinit kinitCore) es).isSome →
      (step bootImage (reach (step bootImage) (boot kinit kinitCore) es) (.ret fun _ => 0)).any
        (fun s' => s'.current = i ∧ s'.core.pc = pc) →
      ∃ s s', Run (step bootImage) (boot kinit kinitCore) es s ∧
        step bootImage s (.ret fun _ => 0) = some s' ∧ s'.current = i ∧ s'.core.pc = pc ∧
        Correct bootImage s s' (.ret fun _ => 0) := by
    intro es pc i hes hret
    have hrun := run_reach hes
    obtain ⟨s', hs', hpc⟩ := (Option.any_eq_true _ _).mp hret
    obtain ⟨hi, hpc⟩ := of_decide_eq_true hpc
    exact ⟨_, s', hrun, hs', hi, hpc, (switches_resume hboot hrun).2 _ _ hs'⟩
  exact ⟨hresumes dispatched _ 1 (by decide +kernel) (by decide +kernel),
    hresumes switchedBack _ 0 (by decide +kernel) (by decide +kernel)⟩

end Pimento.ContextSwitch
