import Pimento.CpuContext

/-!
Tasks that take turns on one core through `Scheduler::schedule`.

Between the switches runs compiled code, of which only the calling convention is known: it keeps
to its own stack, below the frames of its callers, and a function returns to its link register
with the registers x19 to x29 and the stack pointer that it was called with. The switch and the
entry of a new task are executed instruction by instruction.

A task may be interrupted in `after_schedule` once interrupts are enabled, and be switched out
again before the first call of `cpu_context_switch` has returned: its calls are a stack.
-/

namespace Pimento.ContextSwitch

open ByteMemory Aarch64 Address

/-- The addresses of the routines and of the scheduler. -/
structure Image where
  cpuContextSwitch : Word
  cpuContextEntry : Word
  /-- `after_schedule_trampoline`. -/
  afterSchedule : Word
  scheduler : Word
  distinct : afterSchedule ≠ cpuContextEntry

/-- The boxed function of a kernel thread, and its instance of `fn_trait_wrapper`. -/
structure Func where
  wrapper : Word
  address : Word
  deriving DecidableEq, Repr

/-- Where a task has its `Registers` and its stack. The initial task has no function. -/
structure Thread where
  registers : ℕ
  stackStart : ℕ
  stackEnd : ℕ
  func : Option Func
  deriving DecidableEq, Repr

/-- A call of `cpu_context_switch` that has not returned: the registers at the call and the
memory, in which the stack holds the frames of the callers. -/
structure Call where
  registers : Registers
  memory : ByteMemory

/-- An operation of `Scheduler::after_schedule`. -/
inductive AfterOp
  /-- `self.lock.unlock()` -/
  | unlock
  /-- `self.timer.set_duration(self.quantum)` -/
  | setDuration
  /-- `enable_interrupts()` -/
  | enableInterrupts
  deriving DecidableEq, Repr

/-- `Scheduler::after_schedule`, which is all that `after_schedule_trampoline` calls. -/
def afterSchedule : List AfterOp := [.unlock, .setDuration, .enableInterrupts]

/-- The lock after an operation. The timer and the mask of interrupts are not part of the state. -/
def AfterOp.lock : AfterOp → Bool → Bool
  | .unlock, _ => false
  | .setDuration, locked => locked
  | .enableInterrupts, locked => locked

/-- A call of `after_func` that has not returned: the function, its argument, the registers it
was entered with, and what it has left to do. -/
structure Activation where
  func : Word
  data : Word
  registers : Registers
  left : List AfterOp
  deriving DecidableEq, Repr

/-- The call has released the lock. -/
def Activation.released (a : Activation) : Bool := !a.left.contains .unlock

/-- The call has performed its next operation. -/
def Activation.next (a : Activation) : Activation := { a with left := a.left.tail }

/-- The core, the tasks by number, the state of the scheduler and the calls of each task that
have not returned, the last one first. A new task counts as having called from its entry. -/
structure System where
  core : Core
  threads : List Thread
  current : ℕ
  queue : List ℕ
  locked : Bool
  calls : ℕ → List Call
  activations : ℕ → List Activation
  /-- The task has left its entry point. -/
  started : ℕ → Bool

/-! ### Memory -/

/-- Two ranges of bytes do not overlap. -/
def Apart (a n b k : ℕ) : Prop := a + n ≤ b ∨ b + k ≤ a

instance (a n b k : ℕ) : Decidable (Apart a n b k) := inferInstanceAs (Decidable (_ ∨ _))

namespace Thread

def stackSize (t : Thread) : ℕ := t.stackEnd - t.stackStart

/-- The record and the stack lie in the address space and apart. -/
def Fits (t : Thread) : Prop :=
  t.registers + Registers.size ≤ 2 ^ 64 ∧ t.stackStart ≤ t.stackEnd ∧ t.stackEnd < 2 ^ 64 ∧
    Apart t.registers Registers.size t.stackStart t.stackSize

instance (t : Thread) : Decidable t.Fits := inferInstanceAs (Decidable (_ ∧ _))

def Disjoint (t u : Thread) : Prop :=
  Apart t.registers Registers.size u.registers Registers.size ∧
    Apart t.registers Registers.size u.stackStart u.stackSize ∧
    Apart u.registers Registers.size t.stackStart t.stackSize ∧
    Apart t.stackStart t.stackSize u.stackStart u.stackSize

instance (t u : Thread) : Decidable (t.Disjoint u) := inferInstanceAs (Decidable (_ ∧ _))

end Thread

/-- Disjoint records and stacks. -/
def Placed (threads : List Thread) : Prop :=
  (∀ t ∈ threads, t.Fits) ∧ threads.Pairwise Thread.Disjoint

instance (threads : List Thread) : Decidable (Placed threads) :=
  inferInstanceAs (Decidable (_ ∧ _))

namespace System

variable (s : System)

/-- Where the part of the stack begins that running code leaves alone: the stacks of other tasks
and the callers of `after_func`. -/
def inUse (i : ℕ) (t : Thread) : ℕ :=
  if i = s.current then
    match (s.activations i).head? with
    | some a => a.registers.sp.toNat
    | none => t.stackEnd
  else t.stackStart

/-- Running code may write this byte. -/
def MayWrite (a : ℕ) : Prop :=
  ∀ i < s.threads.length, ∀ t ∈ s.threads[i]?,
    (a < t.registers ∨ t.registers + Registers.size ≤ a) ∧ (a < s.inUse i t ∨ t.stackEnd ≤ a)

instance (a : ℕ) : Decidable (s.MayWrite a) :=
  inferInstanceAs (Decidable (∀ i < s.threads.length, ∀ t ∈ s.threads[i]?, _))

/-- The stack pointer is in the stack of the current task, below the frames in use. -/
def OnStack (sp : Word) : Prop :=
  ∀ t ∈ s.threads[s.current]?, t.stackStart ≤ sp.toNat ∧ sp.toNat ≤ s.inUse s.current t

instance (sp : Word) : Decidable (s.OnStack sp) :=
  inferInstanceAs (Decidable (∀ t ∈ s.threads[s.current]?, _))

end System

/-! ### Steps -/

inductive Event
  /-- Compiled code leaves these values in the registers and stores these bytes. -/
  | run (x : Reg → Word) (sp pc : Word) (writes : List (ℕ × Byte))
  /-- `create_kthread`, with the record, the stack page and the function of the task. -/
  | createKthread (registers page : ℕ) (func : Func)
  /-- `schedule`, whose call of `cpu_context_switch` has this return address. -/
  | schedule (lr : Word)
  /-- `after_schedule` performs its next operation. -/
  | after (op : AfterOp)
  /-- `after_func` returns, with these values in the other registers. -/
  | ret (x : Reg → Word)
  /-- The code at `cpu_context_entry`. -/
  | entry

/-- The registers of a new task. The stack pointer is the end of its page. -/
def kthreadRegisters (im : Image) (page : ℕ) (func : Func) : Registers :=
  (Registers.new.setStackPointer (BitVec.ofNat 64 (page + pageSize))).setLinkRegister
    im.cpuContextEntry func.wrapper func.address

/-- The core at the first instruction of `cpu_context_switch`. -/
def callSwitch (im : Image) (c : Core) (prev next : ℕ) (lr : Word) : Core :=
  { ((((c.setX 0 (BitVec.ofNat 64 prev)).setX 1 (BitVec.ofNat 64 next)).setX 2
      im.afterSchedule).setX 3 im.scheduler).setX 30 lr with pc := im.cpuContextSwitch }

/-- A function that was entered with the registers `r` returns. -/
def returned (r : Registers) (x : Reg → Word) (memory : ByteMemory) : Core where
  x := fun k => if 19 ≤ k.val then r.words.getD (k.val - 19) 0 else x k
  sp := r.sp
  pc := r.lr
  memory := memory

/-- Add an element to the list of a task. -/
def push {α : Type} (lists : ℕ → List α) (i : ℕ) (a : α) : ℕ → List α :=
  Function.update lists i (a :: lists i)

namespace System

variable (im : Image) (s : System)

/-- Compiled code is running. -/
def Compiled : Prop := s.core.pc ≠ im.cpuContextEntry

instance : Decidable (s.Compiled im) := inferInstanceAs (Decidable (_ ≠ _))

def run (x : Reg → Word) (sp pc : Word) (writes : List (ℕ × Byte)) : System :=
  { s with core := ⟨x, sp, pc, s.core.memory.store writes⟩ }

def createKthread (t : Thread) (r : Registers) : System :=
  { s with
    core := { s.core with memory := Registers.write s.core.memory t.registers r }
    threads := s.threads ++ [t]
    queue := s.queue ++ [s.threads.length]
    calls := Function.update s.calls s.threads.length
      [⟨r, Registers.write s.core.memory t.registers r⟩] }

/-- The switch to the task at the head of the queue, after the current one has been put back. -/
def schedule (lr : Word) : Option System := do
  let prev ← s.threads[s.current]?
  let next ← (s.queue ++ [s.current]).head?
  let nextThread ← s.threads[next]?
  let call := callSwitch im s.core prev.registers nextThread.registers lr
  let core := execAll CpuContext.cpuContextSwitch call
  some
    { s with
      core
      current := next
      queue := (s.queue ++ [s.current]).tail
      locked := true
      calls := push s.calls s.current ⟨Registers.ofCore call, call.memory⟩
      activations :=
        push s.activations next ⟨core.pc, core.x 0, Registers.ofCore core, afterSchedule⟩ }

/-- The innermost call of `after_func` performs an operation. -/
def after (op : AfterOp) (a : Activation) (rest : List Activation) : System :=
  { s with
    locked := op.lock s.locked
    activations := Function.update s.activations s.current (a.next :: rest) }

end System

/-- The new thread of `create_kthread`. -/
def kthread (registers page : ℕ) (func : Func) : Thread :=
  { registers, stackStart := page, stackEnd := page + pageSize, func := some func }

def step (im : Image) (s : System) : Event → Option System
  | .run x sp pc writes =>
    if s.Compiled im ∧ s.OnStack sp ∧ pc ≠ im.cpuContextEntry ∧ ∀ w ∈ writes, s.MayWrite w.1 then
      some (s.run x sp pc writes)
    else none
  | .createKthread registers page func =>
    if s.Compiled im ∧ s.locked = false ∧ func.wrapper ≠ im.cpuContextEntry ∧
        Placed (s.threads ++ [kthread registers page func]) then
      some (s.createKthread (kthread registers page func) (kthreadRegisters im page func))
    else none
  | .schedule lr =>
    -- the lock is free, or the call never returns
    if s.Compiled im ∧ s.locked = false ∧ lr ≠ im.cpuContextEntry then s.schedule im lr else none
  | .after op =>
    match s.activations s.current with
    | [] => none
    | a :: rest =>
      -- what runs is the function that was entered, on the argument that it was given
      if s.Compiled im ∧ a.func = im.afterSchedule ∧ a.data = im.scheduler ∧
          a.left.head? = some op then
        some (s.after op a rest)
      else none
  | .ret x =>
    match s.activations s.current with
    | [] => none
    | a :: rest =>
      if s.Compiled im ∧ a.left = [] then
        some
          { s with
            core := returned a.registers x s.core.memory
            calls := Function.update s.calls s.current (s.calls s.current).tail
            activations := Function.update s.activations s.current rest
            started := Function.update s.started s.current
              (s.started s.current || (s.calls s.current).tail.isEmpty) }
      else none
  | .entry =>
    if s.core.pc = im.cpuContextEntry then
      some { s with core := execAll CpuContext.cpuContextEntry s.core }
    else none

/-- The state in which the initial task is about to call `schedule` for the first time. -/
def boot (t : Thread) (c : Core) : System where
  core := c
  threads := [t]
  current := 0
  queue := []
  locked := false
  calls := fun _ => []
  activations := fun _ => []
  started := fun i => i = 0

/-- The number of switches. -/
def schedules (es : List Event) : ℕ := es.countP fun
  | .schedule _ => true
  | _ => false

/-- The number of times the lock has been released after a switch. -/
def releases (es : List Event) : ℕ := es.countP fun
  | .after .unlock => true
  | _ => false

end Pimento.ContextSwitch
