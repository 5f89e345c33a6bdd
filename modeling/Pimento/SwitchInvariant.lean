import Pimento.ContextSwitch
import Pimento.Runs

/-!
The invariant of tasks that take turns.

While a task waits its record holds the registers of its last call, and each call of `after_func`
that has not returned was entered with the registers of one call of `cpu_context_switch`. The
frames of the callers stay as they were.
-/

namespace Pimento.ContextSwitch

open ByteMemory Aarch64 Address Runs

variable {im : Image} {s s' : System} {i : ℕ} {t u : Thread} {c : Call} {m m' : ByteMemory}

/-- The stack of the task from the stack pointer of the call upwards is as it was then. -/
structure FrameKept (t : Thread) (m : ByteMemory) (c : Call) : Prop where
  start_le : t.stackStart ≤ c.registers.sp.toNat
  le_end : c.registers.sp.toNat ≤ t.stackEnd
  same : SameOn c.memory m c.registers.sp.toNat (t.stackEnd - c.registers.sp.toNat)

/-- The record of a task that waits. -/
def System.waiting (s : System) (i : ℕ) (t : Thread) : List Registers :=
  if i = s.current then [] else [Registers.read s.core.memory t.registers]

/-- What a task that has not left its entry point starts with. -/
def firstCall (im : Image) (t : Thread) (started : Bool) : List Registers :=
  if started then [] else (t.func.map (kthreadRegisters im t.stackStart)).toList

/-- The calls of `after_func` that have released the lock for sure. -/
def System.older (s : System) (i : ℕ) : List Activation :=
  if i = s.current then (s.activations i).tail else s.activations i

structure Inv (im : Image) (s : System) : Prop where
  placed : Placed s.threads
  current : s.current < s.threads.length
  queue : ∀ i ∈ s.queue, i < s.threads.length
  onStack : s.OnStack s.core.sp
  calls : ∀ {i t}, s.threads[i]? = some t → (s.calls i).map Call.registers =
    s.waiting i t ++ (s.activations i).map Activation.registers
  frames : ∀ {i t}, s.threads[i]? = some t → ∀ c ∈ s.calls i, FrameKept t s.core.memory c
  sorted : ∀ i, (s.calls i).Pairwise fun c d => c.registers.sp.toNat ≤ d.registers.sp.toNat
  entered : ∀ i, ∀ a ∈ s.activations i,
    a.func = im.afterSchedule ∧ a.data = im.scheduler ∧ a.left <:+ afterSchedule
  released : ∀ i, ∀ a ∈ s.older i, a.released = true
  lock : s.locked = (s.activations s.current).head?.any (!·.released)
  origin : ∀ {i t}, s.threads[i]? = some t → ∃ rs, (s.calls i).map Call.registers =
    rs ++ firstCall im t (s.started i) ∧ ∀ r ∈ rs, r.lr ≠ im.cpuContextEntry
  functions : ∀ t ∈ s.threads, ∀ f ∈ t.func,
    f.wrapper ≠ im.cpuContextEntry ∧ t.stackEnd = t.stackStart + pageSize
  starting : s.core.pc = im.cpuContextEntry → ∃ t f, s.threads[s.current]? = some t ∧
    t.func = some f ∧ Registers.ofCore s.core = kthreadRegisters im t.stackStart f
  fresh : ∀ i, s.threads.length ≤ i → s.activations i = [] ∧ s.started i = false

/-! ### Tasks and their memory -/

lemma Placed.fits (h : Placed s.threads) (ht : s.threads[i]? = some t) : t.Fits :=
  h.1 t (List.mem_of_getElem? ht)

lemma Apart.symm {a n b k : ℕ} (h : Apart a n b k) : Apart b k a n := Or.symm h

lemma Thread.Disjoint.symm (h : t.Disjoint u) : u.Disjoint t :=
  ⟨h.1.symm, h.2.2.1, h.2.1, h.2.2.2.symm⟩

lemma Placed.disjoint (h : Placed s.threads) {j : ℕ} (ht : s.threads[i]? = some t)
    (hu : s.threads[j]? = some u) (hij : i ≠ j) : t.Disjoint u := by
  obtain ⟨hi, rfl⟩ := List.getElem?_eq_some_iff.mp ht
  obtain ⟨hj, rfl⟩ := List.getElem?_eq_some_iff.mp hu
  have hpair := List.pairwise_iff_getElem.mp h.2
  rcases Nat.lt_or_gt_of_ne hij with hlt | hlt
  · exact hpair i j hi hj hlt
  · exact (hpair j i hj hi hlt).symm

/-- The record of a task lies outside of every stack. -/
lemma Placed.record_stack (h : Placed s.threads) {j : ℕ} (ht : s.threads[i]? = some t)
    (hu : s.threads[j]? = some u) :
    Apart t.registers Registers.size u.stackStart u.stackSize := by
  by_cases hij : i = j
  · subst hij
    obtain rfl := Option.some.inj (ht.symm.trans hu)
    exact (h.fits ht).2.2.2
  · exact (h.disjoint ht hu hij).2.1

lemma FrameKept.trans (h : FrameKept t m c)
    (hm : SameOn m m' c.registers.sp.toNat (t.stackEnd - c.registers.sp.toNat)) :
    FrameKept t m' c :=
  { h with same := h.same.trans hm }

/-- A record outside of the stack is outside of the frame. -/
lemma FrameKept.write (h : FrameKept t m c) {a : ℕ} {r : Registers}
    (ha : Apart a Registers.size t.stackStart t.stackSize) :
    FrameKept t (Registers.write m a r) c := by
  refine h.trans (CpuContext.sameOn_write ?_)
  have hstart := h.start_le
  have hend := h.le_end
  unfold Apart Thread.stackSize at ha
  omega

/-! ### Consequences of the invariant -/

lemma waiting_current : s.waiting s.current t = [] := if_pos rfl

lemma waiting_of_ne (h : i ≠ s.current) :
    s.waiting i t = [Registers.read s.core.memory t.registers] := if_neg h

lemma older_current : s.older s.current = (s.activations s.current).tail := if_pos rfl

lemma older_of_ne (h : i ≠ s.current) : s.older i = s.activations i := if_neg h

lemma inUse_of_ne (h : i ≠ s.current) : s.inUse i t = t.stackStart := if_neg h

lemma inUse_nil (h : s.activations s.current = []) : s.inUse s.current t = t.stackEnd := by
  unfold System.inUse
  rw [if_pos rfl, h]
  rfl

lemma inUse_cons {a : Activation} {rest : List Activation}
    (h : s.activations s.current = a :: rest) :
    s.inUse s.current t = a.registers.sp.toNat := by
  unfold System.inUse
  rw [if_pos rfl, h]
  rfl

namespace Inv

variable (h : Inv im s)

include h

lemma exists_current : ∃ t, s.threads[s.current]? = some t :=
  ⟨_, List.getElem?_eq_getElem h.current⟩

/-- The frames of all calls of the current task are in use. -/
lemma inUse_le (ht : s.threads[s.current]? = some t) (hc : c ∈ s.calls s.current) :
    s.inUse s.current t ≤ c.registers.sp.toNat := by
  have hcalls := h.calls ht
  rw [waiting_current, List.nil_append] at hcalls
  have hsorted := h.sorted s.current
  cases hcs : s.calls s.current with
  | nil => rw [hcs] at hc; cases hc
  | cons d cs =>
    rw [hcs] at hcalls hsorted hc
    cases has : s.activations s.current with
    | nil => rw [has] at hcalls; cases hcalls
    | cons a as =>
      rw [has] at hcalls
      have hhead : d.registers = a.registers := (List.cons.inj hcalls).1
      rw [inUse_cons has, ← hhead]
      rcases List.mem_cons.mp hc with rfl | hmem
      · exact le_rfl
      · exact (List.pairwise_cons.mp hsorted).1 c hmem

lemma inUse_le_stackEnd (ht : s.threads[s.current]? = some t) :
    s.inUse s.current t ≤ t.stackEnd := by
  cases hcs : s.calls s.current with
  | nil =>
    have hcalls := h.calls ht
    rw [waiting_current, hcs] at hcalls
    exact (inUse_nil (List.map_eq_nil_iff.mp hcalls.symm)).le
  | cons c cs =>
    have hc : c ∈ s.calls s.current := hcs ▸ List.mem_cons_self ..
    exact (h.inUse_le ht hc).trans (h.frames ht c hc).le_end

/-- The stack pointer is below the frames of all calls. -/
lemma sp_le (hc : c ∈ s.calls s.current) : s.core.sp.toNat ≤ c.registers.sp.toNat := by
  obtain ⟨t, ht⟩ := h.exists_current
  exact (h.onStack t ht).2.trans (h.inUse_le ht hc)

/-- The lock is held until the innermost call of `after_func` has released it. -/
lemma locked_eq {a : Activation} {rest : List Activation}
    (ha : s.activations s.current = a :: rest) : s.locked = !a.released := by
  rw [h.lock, ha, List.head?_cons, Option.any_some]

/-- While the lock is free, every call of `after_func` has released it. -/
lemma all_released (hfree : s.locked = false) : ∀ a ∈ s.activations i, a.released = true := by
  intro a ha
  by_cases hi : i = s.current
  · subst hi
    have hold := h.released s.current
    rw [older_current] at hold
    cases has : s.activations s.current with
    | nil => rw [has] at ha; cases ha
    | cons b as =>
      have hlock := h.locked_eq has
      rw [hfree] at hlock
      rw [has] at ha hold
      rcases List.mem_cons.mp ha with rfl | hmem
      · simpa using hlock.symm
      · exact hold a hmem
  · have hold := h.released i
    rw [older_of_ne hi] at hold
    exact hold a ha

end Inv

/-! ### Compiled code -/

section Run

variable {x : Reg → Word} {sp pc : Word} {writes : List (ℕ × Byte)}

/-- Stores of running code miss the records and the frames. -/
lemma MayWrite.outside {a : ℕ} (ha : s.MayWrite a) (ht : s.threads[i]? = some t) :
    (a < t.registers ∨ t.registers + Registers.size ≤ a) ∧
      (a < s.inUse i t ∨ t.stackEnd ≤ a) :=
  ha i (List.getElem?_eq_some_iff.mp ht).1 t ht

lemma Inv.run (h : Inv im s) (hsp : s.OnStack sp) (hpc : pc ≠ im.cpuContextEntry)
    (hwrites : ∀ w ∈ writes, s.MayWrite w.1) : Inv im (s.run x sp pc writes) := by
  have hread : ∀ {i : ℕ} {t : Thread}, s.threads[i]? = some t →
      Registers.read (s.core.memory.store writes) t.registers =
        Registers.read s.core.memory t.registers := by
    intro i t ht
    have hsame : SameOn s.core.memory (s.core.memory.store writes) t.registers Registers.size :=
      sameOn_store fun w hw => (MayWrite.outside (hwrites w hw) ht).1
    exact (CpuContext.read_congr hsame).symm
  refine { h with onStack := hsp, calls := fun ht => ?_, frames := fun {i t} ht c hc => ?_,
                  starting := fun he => absurd he hpc }
  · rw [System.waiting]
    change _ = (if _ then [] else [Registers.read (s.core.memory.store writes) _]) ++ _
    rw [hread ht]
    exact h.calls ht
  · have hkept := h.frames ht c hc
    refine hkept.trans (sameOn_store fun w hw => ?_)
    have hout := (MayWrite.outside (hwrites w hw) ht).2
    have hle : s.inUse i t ≤ c.registers.sp.toNat := by
      by_cases hi : i = s.current
      · subst hi
        exact h.inUse_le ht hc
      · rw [inUse_of_ne hi]
        exact hkept.start_le
    have hend := hkept.le_end
    omega

end Run

/-! ### New tasks -/

section CreateKthread

variable {registers page : ℕ} {func : Func}

lemma kthreadRegisters_sp (hfits : (kthread registers page func).Fits) :
    (kthreadRegisters im page func).sp.toNat = page + pageSize := by
  have hlt : page + pageSize < 2 ^ 64 := hfits.2.2.1
  exact (BitVec.toNat_ofNat ..).trans (Nat.mod_eq_of_lt hlt)

/-- A new task looks as if it had called from its entry. -/
lemma Inv.createKthread (h : Inv im s) (hc : s.Compiled im)
    (hwrapper : func.wrapper ≠ im.cpuContextEntry)
    (hplaced : Placed (s.threads ++ [kthread registers page func])) :
    Inv im (s.createKthread (kthread registers page func) (kthreadRegisters im page func)) := by
  let t₀ := kthread registers page func
  let r₀ := kthreadRegisters im page func
  let m' := Registers.write s.core.memory registers r₀
  let s₁ := s.createKthread t₀ r₀
  have hlen : s₁.threads.length = s.threads.length + 1 := List.length_append
  have hnew : s₁.threads[s.threads.length]? = some t₀ := List.getElem?_concat_length
  have hcases : ∀ {i t}, s₁.threads[i]? = some t →
      (s.threads[i]? = some t ∧ i ≠ s.threads.length) ∨ (i = s.threads.length ∧ t = t₀) := by
    intro i t ht
    rcases getElem?_snoc_eq_some ht with hold | hnew
    · exact .inl ⟨hold, (List.getElem?_eq_some_iff.mp hold).1.ne⟩
    · exact .inr hnew
  have hcalls : ∀ {i}, i ≠ s.threads.length → s₁.calls i = s.calls i := fun hi =>
    Function.update_of_ne hi ..
  have hcallsNew : s₁.calls s.threads.length = [⟨r₀, m'⟩] := Function.update_self ..
  have hcurrent : s.threads.length ≠ s.current := h.current.ne'
  obtain ⟨hactsNew, hstartedNew⟩ := h.fresh s.threads.length le_rfl
  have hsp : r₀.sp.toNat = page + pageSize := kthreadRegisters_sp (hplaced.fits (s := s₁) hnew)
  refine
    { placed := hplaced
      current := by rw [hlen]; exact Nat.lt_succ_of_lt h.current
      queue := fun i hi => ?queue
      onStack := fun t ht => ?onStack
      calls := fun {i t} ht => ?calls
      frames := fun {i t} ht c hc => ?frames
      sorted := fun i => ?sorted
      entered := h.entered
      released := h.released
      lock := h.lock
      origin := fun {i t} ht => ?origin
      functions := fun t ht f hf => ?functions
      starting := fun he => absurd he hc
      fresh := fun i hi => h.fresh i (by rw [hlen] at hi; omega) }
  case queue =>
    rw [hlen]
    rcases List.mem_append.mp hi with hi | hi
    · exact Nat.lt_succ_of_lt (h.queue i hi)
    · rw [List.mem_singleton.mp hi]
      exact Nat.lt_succ_self _
  case onStack =>
    rcases hcases ht with ⟨hold, -⟩ | ⟨hi, -⟩
    · exact h.onStack t hold
    · exact absurd hi.symm hcurrent
  case calls =>
    rcases hcases ht with ⟨hold, hi⟩ | ⟨rfl, rfl⟩
    · have hread : Registers.read m' t.registers =
          Registers.read s.core.memory t.registers :=
        (CpuContext.read_congr (CpuContext.sameOn_write
          (hplaced.disjoint (s := s₁) ht hnew hi).1)).symm
      rw [hcalls hi, h.calls hold]
      change _ = (if _ then [] else [Registers.read m' _]) ++ _
      rw [hread]
      rfl
    · have hread : Registers.read m' registers = r₀ := CpuContext.read_write
      have hwaiting : s₁.waiting s.threads.length t₀ = [r₀] :=
        (if_neg hcurrent).trans (congrArg (fun r => [r]) hread)
      change (s₁.calls _).map _ = s₁.waiting _ t₀ ++ (s.activations _).map _
      rw [hcallsNew, hwaiting, hactsNew]
      rfl
  case frames =>
    rcases hcases ht with ⟨hold, hi⟩ | ⟨rfl, rfl⟩
    · rw [hcalls hi] at hc
      exact (h.frames hold c hc).write (hplaced.record_stack (s := s₁) hnew ht)
    · rw [hcallsNew] at hc
      obtain rfl := List.mem_singleton.mp hc
      exact ⟨by rw [hsp]; exact Nat.le_add_right .., hsp.le, SameOn.refl _ _ _⟩
  case sorted =>
    by_cases hi : i = s.threads.length
    · rw [hi, hcallsNew]
      exact List.pairwise_singleton ..
    · rw [hcalls hi]
      exact h.sorted i
  case origin =>
    rcases hcases ht with ⟨hold, hi⟩ | ⟨rfl, rfl⟩
    · rw [hcalls hi]
      exact h.origin hold
    · refine ⟨[], ?_, fun _ hr => absurd hr List.not_mem_nil⟩
      change _ = _ ++ firstCall im t₀ (s.started s.threads.length)
      rw [hcallsNew, hstartedNew]
      rfl
  case functions =>
    rcases List.mem_append.mp ht with ht | ht
    · exact h.functions t ht f hf
    · obtain rfl := List.mem_singleton.mp ht
      obtain rfl := Option.some.inj hf
      exact ⟨hwrapper, rfl⟩

end CreateKthread

/-! ### The switch -/

section Schedule

variable {lr : Word} {p q : Thread} {n : ℕ}

/-- The registers at the call of `cpu_context_switch`. -/
def atCall (c : Core) (lr : Word) : Registers := { Registers.ofCore c with lr }

lemma ofCore_callSwitch (c : Core) (prev next : ℕ) :
    Registers.ofCore (callSwitch im c prev next lr) = atCall c lr := by
  simp [callSwitch, Registers.ofCore, atCall]

/-- What a switch from the current task to the task `n` does. -/
structure Switched (im : Image) (s s' : System) (lr : Word) (p : Thread) (n : ℕ) (q : Thread) :
    Prop where
  prev : s.threads[s.current]? = some p
  next : s.threads[n]? = some q
  head : (s.queue ++ [s.current]).head? = some n
  threads : s'.threads = s.threads
  current : s'.current = n
  queue : s'.queue = (s.queue ++ [s.current]).tail
  locked : s'.locked = true
  calls : s'.calls = push s.calls s.current ⟨atCall s.core lr, s.core.memory⟩
  activations : s'.activations =
    push s.activations n ⟨im.afterSchedule, im.scheduler, Registers.ofCore s'.core, afterSchedule⟩
  started : s'.started = s.started
  memory : s'.core.memory = Registers.write s.core.memory p.registers (atCall s.core lr)
  loaded : Registers.ofCore s'.core = Registers.read s'.core.memory q.registers
  data : s'.core.x 0 = im.scheduler
  pc : s'.core.pc = im.afterSchedule

lemma schedule_spec (h : Inv im s) (hs : s.schedule im lr = some s') :
    ∃ p n q, Switched im s s' lr p n q := by
  obtain ⟨p, hp, hs⟩ := Option.bind_eq_some_iff.mp hs
  obtain ⟨n, hn, hs⟩ := Option.bind_eq_some_iff.mp hs
  obtain ⟨q, hq, hs⟩ := Option.bind_eq_some_iff.mp hs
  obtain rfl := Option.some.inj hs
  let call := callSwitch im s.core p.registers q.registers lr
  have hple := (h.placed.fits hp).1
  have hqle := (h.placed.fits hq).1
  have h0 : (call.x 0).toNat = p.registers := by
    have hx : call.x 0 = BitVec.ofNat 64 p.registers := by simp [call, callSwitch]
    rw [hx, BitVec.toNat_ofNat]
    exact Nat.mod_eq_of_lt (by unfold Registers.size at hple; omega)
  have h1 : (call.x 1).toNat = q.registers := by
    have hx : call.x 1 = BitVec.ofNat 64 q.registers := by simp [call, callSwitch]
    rw [hx, BitVec.toNat_ofNat]
    exact Nat.mod_eq_of_lt (by unfold Registers.size at hqle; omega)
  have h2 : call.x 2 = im.afterSchedule := by simp [call, callSwitch]
  have h3 : call.x 3 = im.scheduler := by simp [call, callSwitch]
  have hcall : Registers.ofCore call = atCall s.core lr := ofCore_callSwitch ..
  obtain ⟨hmemory, hregs, hdata, hpc⟩ :=
    CpuContext.switch_spec (c := call) (by rw [h0]; exact hple) (by rw [h1]; exact hqle)
  rw [h0, hcall] at hmemory
  rw [h1] at hregs
  rw [h2] at hpc
  rw [h3] at hdata
  exact ⟨p, n, q,
    { prev := hp
      next := hq
      head := hn
      threads := rfl
      current := rfl
      queue := rfl
      locked := rfl
      calls := by rw [← hcall]; rfl
      activations := by rw [← hpc, ← hdata]
      started := rfl
      memory := hmemory
      loaded := hregs
      data := hdata
      pc := hpc }⟩

/-- Between the save and the load every task waits: its record holds its last call. -/
lemma Switched.saved (hs : Switched im s s' lr p n q) (h : Inv im s)
    (ht : s.threads[i]? = some t) :
    (s'.calls i).map Call.registers = Registers.read s'.core.memory t.registers ::
      (s.activations i).map Activation.registers := by
  have hcalls := h.calls ht
  rw [hs.calls, hs.memory, push]
  by_cases hi : i = s.current
  · subst hi
    obtain rfl := Option.some.inj (hs.prev.symm.trans ht)
    rw [waiting_current, List.nil_append] at hcalls
    rw [Function.update_self, List.map_cons, hcalls, CpuContext.read_write]
  · have hsame : SameOn s.core.memory
        (Registers.write s.core.memory p.registers (atCall s.core lr)) t.registers
        Registers.size :=
      CpuContext.sameOn_write (h.placed.disjoint ht hs.prev hi).1
    rw [waiting_of_ne hi] at hcalls
    rw [Function.update_of_ne hi, hcalls, CpuContext.read_congr hsame]
    rfl

/-- The next task has a call to return to, with its frames intact. -/
lemma Switched.frames (hs : Switched im s s' lr p n q) (h : Inv im s)
    (ht : s.threads[i]? = some t) : ∀ c ∈ s'.calls i, FrameKept t s'.core.memory c := by
  have hwrite : ∀ c, FrameKept t s.core.memory c → FrameKept t s'.core.memory c := by
    intro c hc
    rw [hs.memory]
    exact hc.write (h.placed.record_stack hs.prev ht)
  intro c hc
  rw [hs.calls, push] at hc
  by_cases hi : i = s.current
  · subst hi
    rw [Function.update_self] at hc
    rcases List.mem_cons.mp hc with rfl | hc
    · obtain ⟨hstart, hle⟩ := h.onStack t ht
      exact hwrite _ ⟨hstart, hle.trans (h.inUse_le_stackEnd ht), SameOn.refl _ _ _⟩
    · exact hwrite c (h.frames ht c hc)
  · rw [Function.update_of_ne hi] at hc
    exact hwrite c (h.frames ht c hc)

/-- The next task continues with its last call. -/
lemma Switched.continues (hs : Switched im s s' lr p n q) (h : Inv im s) :
    ∃ c cs, s'.calls n = c :: cs ∧ c.registers = Registers.ofCore s'.core ∧
      FrameKept q s'.core.memory c := by
  have hmap := hs.saved h hs.next
  rw [← hs.loaded] at hmap
  obtain ⟨c, cs, hcs, hc, -⟩ := List.map_eq_cons_iff.mp hmap
  exact ⟨c, cs, hcs, hc, hs.frames h hs.next c (hcs ▸ List.mem_cons_self ..)⟩

/-- **A switch keeps the invariant**, to another task or to the same one. -/
lemma Inv.schedule (h : Inv im s) (hfree : s.locked = false) (hlr : lr ≠ im.cpuContextEntry)
    (hs : Switched im s s' lr p n q) : Inv im s' := by
  have hn : n < s.threads.length := (List.getElem?_eq_some_iff.mp hs.next).1
  have hacts : s'.activations n =
      ⟨im.afterSchedule, im.scheduler, Registers.ofCore s'.core, afterSchedule⟩ ::
        s.activations n := by
    rw [hs.activations, push, Function.update_self]
  have hactsOther : ∀ {i}, i ≠ n → s'.activations i = s.activations i := fun hi => by
    rw [hs.activations, push, Function.update_of_ne hi]
  have hq : ∀ {t}, s'.threads[n]? = some t → t = q := fun ht => by
    rw [hs.threads] at ht
    exact Option.some.inj (ht.symm.trans hs.next)
  refine
    { placed := by rw [hs.threads]; exact h.placed
      current := by rw [hs.current, hs.threads]; exact hn
      queue := fun i hi => ?queue
      onStack := fun t ht => ?onStack
      calls := fun {i t} ht => ?calls
      frames := fun {i t} ht => hs.frames h (hs.threads ▸ ht)
      sorted := fun i => ?sorted
      entered := fun i a ha => ?entered
      released := fun i a ha => ?released
      lock := by rw [hs.locked, hs.current, hacts]; rfl
      origin := fun {i t} ht => ?origin
      functions := by rw [hs.threads]; exact h.functions
      starting := fun he => absurd (hs.pc.symm.trans he) im.distinct
      fresh := fun i hi => ?fresh }
  case queue =>
    rw [hs.queue] at hi
    rw [hs.threads]
    rcases List.mem_append.mp (List.mem_of_mem_tail hi) with hi | hi
    · exact h.queue i hi
    · rw [List.mem_singleton.mp hi]
      exact h.current
  case onStack =>
    rw [hs.current] at ht
    obtain rfl := hq ht
    obtain ⟨c, -, -, hc, hkept⟩ := hs.continues h
    have hsp : c.registers.sp = s'.core.sp := congrArg Registers.sp hc
    refine ⟨hsp ▸ hkept.start_le, ?_⟩
    exact (inUse_cons (hs.current ▸ hacts)).ge
  case calls =>
    rw [hs.threads] at ht
    rw [hs.saved h ht]
    by_cases hi : i = n
    · subst hi
      obtain rfl := Option.some.inj (hs.next.symm.trans ht)
      rw [hacts, System.waiting, if_pos hs.current.symm, List.map_cons, ← hs.loaded]
      rfl
    · rw [hactsOther hi, waiting_of_ne (by rw [hs.current]; exact hi)]
      rfl
  case sorted =>
    rw [hs.calls, push]
    by_cases hi : i = s.current
    · subst hi
      rw [Function.update_self]
      exact List.pairwise_cons.mpr ⟨fun c hc => h.sp_le hc, h.sorted _⟩
    · rw [Function.update_of_ne hi]
      exact h.sorted i
  case entered =>
    by_cases hi : i = n
    · subst hi
      rw [hacts] at ha
      rcases List.mem_cons.mp ha with rfl | ha
      · exact ⟨rfl, rfl, List.suffix_refl _⟩
      · exact h.entered i a ha
    · rw [hactsOther hi] at ha
      exact h.entered i a ha
  case released =>
    unfold System.older at ha
    rw [hs.current] at ha
    split_ifs at ha with hi
    · subst hi
      rw [hacts] at ha
      exact h.all_released hfree a ha
    · rw [hactsOther hi] at ha
      exact h.all_released hfree a ha
  case origin =>
    rw [hs.threads] at ht
    obtain ⟨rs, hcalls, hrs⟩ := h.origin ht
    rw [hs.started, hs.calls, push]
    by_cases hi : i = s.current
    · subst hi
      refine ⟨atCall s.core lr :: rs, ?_, ?_⟩
      · rw [Function.update_self, List.map_cons, hcalls]
        rfl
      · intro r hr
        rcases List.mem_cons.mp hr with rfl | hr
        · exact hlr
        · exact hrs r hr
    · rw [Function.update_of_ne hi]
      exact ⟨rs, hcalls, hrs⟩
  case fresh =>
    rw [hs.threads] at hi
    rw [hs.started, hactsOther (by omega)]
    exact h.fresh i hi

end Schedule

/-! ### `after_func` and the entry of a new task -/

section AfterFunc

variable {a : Activation} {rest : List Activation} {x : Reg → Word}

/-- The lock is released once: what is left after an operation does not release it again. -/
lemma lock_of_suffix {op : AfterOp} {ops : List AfterOp} (h : op :: ops <:+ afterSchedule)
    {locked : Bool} (hl : locked = (op :: ops).contains .unlock) :
    op.lock locked = ops.contains .unlock := by
  subst hl
  cases op with
  | unlock =>
    have hnodup : afterSchedule.Nodup := by decide
    have hnot := (List.nodup_cons.mp (h.sublist.nodup hnodup)).1
    simp [AfterOp.lock, hnot]
  | setDuration => simp [AfterOp.lock]
  | enableInterrupts => simp [AfterOp.lock]

variable (s a rest) in
lemma after_activations (op : AfterOp) :
    (s.after op a rest).activations s.current = a.next :: rest :=
  Function.update_self ..

/-- An operation of `after_func` keeps the invariant. -/
lemma Inv.after {op : AfterOp} (h : Inv im s) (ha : s.activations s.current = a :: rest)
    (hop : a.left.head? = some op) : Inv im (s.after op a rest) := by
  have hacts := after_activations s a rest op
  have hactsOther : ∀ {i}, i ≠ s.current → (s.after op a rest).activations i = s.activations i :=
    fun hi => Function.update_of_ne hi ..
  have hmap : ∀ i, ((s.after op a rest).activations i).map Activation.registers =
      (s.activations i).map Activation.registers := by
    intro i
    by_cases hi : i = s.current
    · rw [hi, hacts, ha]
      rfl
    · rw [hactsOther hi]
  obtain ⟨hfunc, hdata, hsuffix⟩ := h.entered s.current a (ha ▸ List.mem_cons_self ..)
  have hleft : a.left = op :: a.left.tail := (List.cons_head?_tail hop).symm
  refine
    { h with
      onStack := fun t ht => ?onStack
      calls := fun {i t} ht => ?calls
      entered := fun i b hb => ?entered
      released := fun i b hb => ?released
      lock := ?lock
      fresh := fun i hi => ?fresh }
  case onStack =>
    rw [inUse_cons (s := s.after op a rest) hacts]
    have hold := h.onStack t ht
    rwa [inUse_cons ha] at hold
  case calls =>
    rw [hmap]
    exact h.calls ht
  case entered =>
    by_cases hi : i = s.current
    · rw [hi, hacts] at hb
      rcases List.mem_cons.mp hb with rfl | hb
      · exact ⟨hfunc, hdata, (List.tail_suffix _).trans hsuffix⟩
      · exact h.entered s.current b (ha ▸ List.mem_cons_of_mem a hb)
    · rw [hactsOther hi] at hb
      exact h.entered i b hb
  case released =>
    have hold := h.released i
    by_cases hi : i = (s.after op a rest).current
    · rw [hi, older_current] at hb
      change b ∈ ((s.after op a rest).activations s.current).tail at hb
      rw [hacts] at hb
      rw [show i = s.current from hi, older_current, ha] at hold
      exact hold b hb
    · rw [older_of_ne hi, hactsOther hi] at hb
      rw [older_of_ne (show i ≠ s.current from hi)] at hold
      exact hold b hb
  case lock =>
    have hlock := h.locked_eq ha
    rw [Activation.released, Bool.not_not, hleft] at hlock
    change op.lock s.locked = ((s.after op a rest).activations s.current).head?.any _
    rw [hacts, List.head?_cons, Option.any_some, Activation.released, Bool.not_not]
    exact lock_of_suffix (hleft ▸ hsuffix) hlock
  case fresh =>
    have hi' : i ≠ s.current := (h.current.trans_le hi).ne'
    rw [hactsOther hi']
    exact h.fresh i hi

/-- The state after the innermost call of `after_func` has returned. -/
def afterReturn (s : System) (a : Activation) (rest : List Activation) (x : Reg → Word) : System :=
  { s with
    core := returned a.registers x s.core.memory
    calls := Function.update s.calls s.current (s.calls s.current).tail
    activations := Function.update s.activations s.current rest
    started := Function.update s.started s.current
      (s.started s.current || (s.calls s.current).tail.isEmpty) }

/-- `after_func` was entered with the registers of the last call, which is what it returns to. -/
lemma Inv.innermost (h : Inv im s) (ha : s.activations s.current = a :: rest) :
    ∃ c cs, s.calls s.current = c :: cs ∧ c.registers = a.registers ∧
      cs.map Call.registers = rest.map Activation.registers := by
  obtain ⟨t, ht⟩ := h.exists_current
  have hcalls := h.calls ht
  rw [waiting_current, ha, List.nil_append, List.map_cons] at hcalls
  exact List.map_eq_cons_iff.mp hcalls

/-- The last call is one of the task itself, or the task is new and begins at its entry. -/
lemma Inv.last_call {cs : List Call} (h : Inv im s) (ht : s.threads[s.current]? = some t)
    (hcs : s.calls s.current = c :: cs) :
    (c.registers.lr ≠ im.cpuContextEntry ∧ ∃ rs, cs.map Call.registers =
        rs ++ firstCall im t (s.started s.current) ∧ ∀ r ∈ rs, r.lr ≠ im.cpuContextEntry) ∨
      cs = [] ∧ s.started s.current = false ∧
        ∃ f, t.func = some f ∧ c.registers = kthreadRegisters im t.stackStart f := by
  obtain ⟨rs, hmap, hrs⟩ := h.origin ht
  rw [hcs, List.map_cons] at hmap
  cases rs with
  | cons r rs =>
    obtain ⟨hc, hcs⟩ := List.cons.inj hmap
    exact .inl ⟨hc ▸ hrs r (List.mem_cons_self ..), rs, hcs,
      fun r' hr' => hrs r' (List.mem_cons_of_mem r hr')⟩
  | nil =>
    rw [List.nil_append] at hmap
    unfold firstCall at hmap
    cases hstarted : s.started s.current with
    | true =>
      rw [hstarted, if_pos rfl] at hmap
      cases hmap
    | false =>
      rw [hstarted, if_neg (by decide)] at hmap
      cases hf : t.func with
      | none => rw [hf] at hmap; cases hmap
      | some f =>
        rw [hf] at hmap
        obtain ⟨hc, hnil⟩ := List.cons.inj hmap
        exact .inr ⟨List.map_eq_nil_iff.mp hnil, rfl, f, rfl, hc⟩

/-- A call of `after_func` that has nothing left to do has released the lock. -/
lemma released_of_left (hleft : a.left = []) : a.released = true := by
  rw [Activation.released, hleft]
  rfl

lemma Inv.ret (h : Inv im s) (ha : s.activations s.current = a :: rest)
    (hreleased : a.released = true) : Inv im (afterReturn s a rest x) := by
  obtain ⟨c, cs, hcs, hc, hrest⟩ := h.innermost ha
  obtain ⟨t₀, ht₀⟩ := h.exists_current
  let s₁ := afterReturn s a rest x
  have hkept := h.frames ht₀ c (hcs ▸ List.mem_cons_self ..)
  have hcalls : s₁.calls s.current = cs := by
    change Function.update s.calls _ _ _ = _
    rw [Function.update_self, hcs]
    rfl
  have hcallsOther : ∀ {i}, i ≠ s.current → s₁.calls i = s.calls i := fun hi =>
    Function.update_of_ne hi ..
  have hacts : s₁.activations s.current = rest := Function.update_self ..
  have hactsOther : ∀ {i}, i ≠ s.current → s₁.activations i = s.activations i := fun hi =>
    Function.update_of_ne hi ..
  have hstarted : s₁.started s.current = (s.started s.current || cs.isEmpty) := by
    change Function.update s.started _ _ _ = _
    rw [Function.update_self, hcs]
    rfl
  have hstartedOther : ∀ {i}, i ≠ s.current → s₁.started i = s.started i := fun hi =>
    Function.update_of_ne hi ..
  have hrestReleased : ∀ b ∈ rest, b.released = true := by
    have hold := h.released s.current
    rw [older_current, ha] at hold
    exact hold
  refine
    { h with
      onStack := fun t ht => ?onStack
      calls := fun {i t} ht => ?calls
      frames := fun {i t} ht d hd => ?frames
      sorted := fun i => ?sorted
      entered := fun i b hb => ?entered
      released := fun i b hb => ?released
      lock := ?lock
      origin := fun {i t} ht => ?origin
      starting := fun he => ?starting
      fresh := fun i hi => ?fresh }
  case onStack =>
    obtain rfl := Option.some.inj (ht₀.symm.trans ht)
    change _ ≤ a.registers.sp.toNat ∧ a.registers.sp.toNat ≤ s₁.inUse s₁.current t₀
    rw [← hc]
    refine ⟨hkept.start_le, ?_⟩
    cases rest with
    | nil =>
      rw [inUse_nil (s := s₁) hacts]
      exact hkept.le_end
    | cons b rest =>
      obtain ⟨d, ds, rfl, hd, -⟩ := List.map_eq_cons_iff.mp hrest
      rw [inUse_cons (s := s₁) hacts]
      have hsorted := h.sorted s.current
      rw [hcs] at hsorted
      rw [← hd]
      exact (List.pairwise_cons.mp hsorted).1 d (List.mem_cons_self ..)
  case calls =>
    by_cases hi : i = s.current
    · subst hi
      change (s₁.calls _).map _ = s₁.waiting s₁.current t ++ (s₁.activations _).map _
      rw [waiting_current, hcalls, hacts, hrest]
      rfl
    · rw [hcallsOther hi, hactsOther hi]
      exact h.calls ht
  case frames =>
    by_cases hi : i = s.current
    · subst hi
      rw [hcalls] at hd
      exact h.frames ht d (hcs ▸ List.mem_cons_of_mem c hd)
    · rw [hcallsOther hi] at hd
      exact h.frames ht d hd
  case sorted =>
    by_cases hi : i = s.current
    · have hsorted := h.sorted s.current
      rw [hcs] at hsorted
      rw [hi, hcalls]
      exact (List.pairwise_cons.mp hsorted).2
    · rw [hcallsOther hi]
      exact h.sorted i
  case entered =>
    by_cases hi : i = s.current
    · rw [hi, hacts] at hb
      exact h.entered s.current b (ha ▸ List.mem_cons_of_mem a hb)
    · rw [hactsOther hi] at hb
      exact h.entered i b hb
  case released =>
    by_cases hi : i = s₁.current
    · rw [hi, older_current] at hb
      change b ∈ (s₁.activations s.current).tail at hb
      rw [hacts] at hb
      exact hrestReleased b (List.mem_of_mem_tail hb)
    · rw [older_of_ne hi, hactsOther hi] at hb
      have hold := h.released i
      rw [older_of_ne (show i ≠ s.current from hi)] at hold
      exact hold b hb
  case lock =>
    have hlock := h.locked_eq ha
    rw [hreleased] at hlock
    change s.locked = (s₁.activations s.current).head?.any _
    rw [hlock, hacts]
    cases rest with
    | nil => rfl
    | cons b rest => simp [hrestReleased b (List.mem_cons_self ..)]
  case origin =>
    by_cases hi : i = s.current
    · subst hi
      change ∃ rs, (s₁.calls s.current).map Call.registers =
        rs ++ firstCall im t (s₁.started s.current) ∧ _
      rw [hcalls, hstarted]
      rcases h.last_call ht hcs with ⟨-, rs, hmap, hrs⟩ | ⟨rfl, -, -⟩
      · cases cs with
        | cons d cs =>
          rw [List.isEmpty_cons, Bool.or_false]
          exact ⟨rs, hmap, hrs⟩
        | nil => exact ⟨[], by rw [List.isEmpty_nil, Bool.or_true]; rfl, fun _ hr => by cases hr⟩
      · exact ⟨[], by rw [List.isEmpty_nil, Bool.or_true]; rfl, fun _ hr => by cases hr⟩
    · change ∃ rs, (s₁.calls i).map Call.registers = rs ++ firstCall im t (s₁.started i) ∧ _
      rw [hcallsOther hi, hstartedOther hi]
      exact h.origin ht
  case starting =>
    have hlr : c.registers.lr = im.cpuContextEntry := by rw [hc]; exact he
    rcases h.last_call ht₀ hcs with ⟨hne, -⟩ | ⟨-, -, f, hf, hregs⟩
    · exact absurd hlr hne
    · exact ⟨t₀, f, ht₀, hf, hc.symm.trans hregs⟩
  case fresh =>
    have hi' : i ≠ s.current := (h.current.trans_le hi).ne'
    change s₁.activations i = [] ∧ s₁.started i = false
    rw [hactsOther hi', hstartedOther hi']
    exact h.fresh i hi

end AfterFunc

/-- The entry calls the wrapper of the task with its function, on the top of its stack. -/
lemma Inv.entry_spec (h : Inv im s) (hpc : s.core.pc = im.cpuContextEntry) :
    ∃ t f, s.threads[s.current]? = some t ∧ t.func = some f ∧
      t.stackEnd = t.stackStart + pageSize ∧
      (execAll CpuContext.cpuContextEntry s.core).pc = f.wrapper ∧
      (execAll CpuContext.cpuContextEntry s.core).x 0 = f.address ∧
      (execAll CpuContext.cpuContextEntry s.core).sp.toNat = t.stackEnd := by
  obtain ⟨t, f, ht, hf, hregs⟩ := h.starting hpc
  obtain ⟨hx0, hentry, hsp, -⟩ := CpuContext.entry_spec (c := s.core)
  obtain ⟨-, hend⟩ := h.functions t (List.mem_of_getElem? ht) f hf
  have hlt := (h.placed.fits ht).2.2.1
  refine ⟨t, f, ht, hf, hend, hentry.trans (congrArg Registers.x19 hregs),
    hx0.trans (congrArg Registers.x20 hregs), ?_⟩
  rw [hsp, show s.core.sp = _ from congrArg Registers.sp hregs]
  change (BitVec.ofNat 64 (t.stackStart + pageSize)).toNat = t.stackEnd
  rw [← hend, BitVec.toNat_ofNat]
  exact Nat.mod_eq_of_lt hlt

lemma Inv.entry (h : Inv im s) (hpc : s.core.pc = im.cpuContextEntry) :
    Inv im { s with core := execAll CpuContext.cpuContextEntry s.core } := by
  obtain ⟨t, f, ht, hf, -, hentry, -, -⟩ := h.entry_spec hpc
  obtain ⟨-, -, hsp, hmemory⟩ := CpuContext.entry_spec (c := s.core)
  refine
    { h with
      onStack := ?onStack
      calls := fun ht => ?calls
      frames := ?frames
      starting := fun he => ?starting }
  case onStack =>
    change s.OnStack (execAll CpuContext.cpuContextEntry s.core).sp
    rw [hsp]
    exact h.onStack
  case calls =>
    exact h.calls ht
  case frames => exact h.frames
  case starting =>
    exact absurd (hentry.symm.trans he) (h.functions t (List.mem_of_getElem? ht) f hf).1

/-! ### Runs -/

lemma of_after {op : AfterOp} (hs : step im s (.after op) = some s') :
    ∃ a rest, s.activations s.current = a :: rest ∧ a.left.head? = some op ∧
      s' = s.after op a rest := by
  cases ha : s.activations s.current with
  | nil =>
    simp only [step, ha] at hs
    cases hs
  | cons a rest =>
    simp only [step, ha] at hs
    obtain ⟨hguard, hs⟩ := Option.ite_none_right_eq_some.mp hs
    exact ⟨a, rest, rfl, hguard.2.2.2, (Option.some.inj hs).symm⟩

lemma of_ret {x : Reg → Word} (hs : step im s (.ret x) = some s') :
    ∃ a rest, s.activations s.current = a :: rest ∧ a.left = [] ∧
      s' = afterReturn s a rest x := by
  cases ha : s.activations s.current with
  | nil =>
    simp only [step, ha] at hs
    cases hs
  | cons a rest =>
    simp only [step, ha] at hs
    obtain ⟨hguard, hs⟩ := Option.ite_none_right_eq_some.mp hs
    exact ⟨a, rest, rfl, hguard.2, (Option.some.inj hs).symm⟩

lemma of_schedule {lr : Word} (h : Inv im s) (hs : step im s (.schedule lr) = some s') :
    s.locked = false ∧ lr ≠ im.cpuContextEntry ∧ ∃ p n q, Switched im s s' lr p n q := by
  obtain ⟨⟨-, hfree, hlr⟩, hs⟩ := Option.ite_none_right_eq_some.mp hs
  exact ⟨hfree, hlr, schedule_spec h hs⟩

/-- **Every step keeps the invariant.** -/
lemma Inv.preserved {e : Event} (h : Inv im s) (hs : step im s e = some s') : Inv im s' := by
  cases e with
  | run x sp pc writes =>
    obtain ⟨⟨-, hsp, hpc, hwrites⟩, hs⟩ := Option.ite_none_right_eq_some.mp hs
    obtain rfl := Option.some.inj hs
    exact h.run hsp hpc hwrites
  | createKthread registers page func =>
    obtain ⟨⟨hc, -, hwrapper, hplaced⟩, hs⟩ := Option.ite_none_right_eq_some.mp hs
    obtain rfl := Option.some.inj hs
    exact h.createKthread hc hwrapper hplaced
  | schedule lr =>
    obtain ⟨hfree, hlr, p, n, q, hswitch⟩ := of_schedule h hs
    exact h.schedule hfree hlr hswitch
  | after op =>
    obtain ⟨a, rest, ha, hop, rfl⟩ := of_after hs
    exact h.after ha hop
  | ret x =>
    obtain ⟨a, rest, ha, hleft, rfl⟩ := of_ret hs
    exact h.ret ha (released_of_left hleft)
  | entry =>
    obtain ⟨hpc, hs⟩ := Option.ite_none_right_eq_some.mp hs
    obtain rfl := Option.some.inj hs
    exact h.entry hpc

end Pimento.ContextSwitch
