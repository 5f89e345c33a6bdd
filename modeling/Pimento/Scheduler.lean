import Pimento.MemoryContext
import Pimento.Runs

/-!
The round-robin scheduler on one core.

The scheduler keeps the tasks by id, a queue of the ids that wait and the id that is current.
Both its entry points take its lock; `schedule` hands it to the next task, which releases it
in `after_schedule`.
-/

namespace Pimento

open MemoryContext

/-- The registers that survive a call, as `cpu_context_switch` saves them. -/
structure Registers where
  x19 : Word
  x20 : Word
  x21 : Word
  x22 : Word
  x23 : Word
  x24 : Word
  x25 : Word
  x26 : Word
  x27 : Word
  x28 : Word
  fp : Word
  lr : Word
  sp : Word
  deriving DecidableEq, Repr

structure Task where
  id : ℕ
  registers : Registers
  memoryContext : MemoryContext
  deriving DecidableEq, Repr

/-- What a context switch sets on the core. -/
structure Cpu where
  registers : Registers
  ttbr0 : Word
  deriving DecidableEq, Repr

/-- The scheduler, the core it runs on, the counter of task ids and the tasks that have been
created but not handed over yet. Every task stays in memory, so the counter never wraps. -/
structure Kernel where
  tasks : Std.TreeMap ℕ Task
  queue : List ℕ
  currentTasks : List (Option ℕ)
  locked : Bool
  cpu : Cpu
  nextTaskId : ℕ
  created : List Task

namespace Scheduler

/-- The index of the only core. -/
def currentCore : ℕ := 0

/-- `Option::unwrap`. -/
def unwrap {α : Type} : Option α → Exec Kernel α
  | some a => pure a
  | none => .panic

@[simp] lemma unwrap_some {α : Type} (a : α) : unwrap (some a) = pure a := rfl

/-- `assert!`. -/
def assert (b : Bool) : Exec Kernel Unit := if b then pure () else .panic

@[simp] lemma assert_true : assert true = pure () := rfl

/-- Interrupts are masked wherever the lock is taken, so a lock that is held stays held. -/
def lock : Exec Kernel Unit := do
  if (← .get).locked then .hang
  .modify fun s => { s with locked := true }

def unlock : Exec Kernel Unit := .modify fun s => { s with locked := false }

/-- `Lock::call`. -/
def lockCall {α : Type} (f : Exec Kernel α) : Exec Kernel α := do
  lock
  let result ← f
  unlock
  return result

/-- `current_tasks[current_core]`. -/
def currentTaskSlot : Exec Kernel (Option ℕ) := do unwrap (← .get).currentTasks[currentCore]?

def setCurrent (id : ℕ) : Exec Kernel Unit :=
  .modify fun s => { s with currentTasks := s.currentTasks.set currentCore (some id) }

def memoryContextSwitch (next : MemoryContext) : Exec Kernel Unit :=
  .modify fun s => { s with cpu := { s.cpu with ttbr0 := next.ttbr } }

/-- The registers are saved to `prev` before they are loaded from `next`; the two may be the
same record. -/
def cpuContextSwitch (prev next : ℕ) : Exec Kernel Unit := do
  let prevTask ← unwrap (← .get).tasks[prev]?
  .modify fun s =>
    { s with tasks := s.tasks.insert prev { prevTask with registers := s.cpu.registers } }
  let nextTask ← unwrap (← .get).tasks[next]?
  .modify fun s => { s with cpu := { s.cpu with registers := nextTask.registers } }

/-- The part of `after_schedule` that the scheduler depends on. -/
def afterSchedule : Exec Kernel Unit := unlock

def schedule : Exec Kernel Unit := do
  lock
  -- put the current task back into the queue and get the next task
  let prevTaskId ← unwrap (← currentTaskSlot)
  .modify fun s => { s with queue := s.queue ++ [prevTaskId] }
  let nextTaskId ← unwrap (← .get).queue.head?
  .modify fun s => { s with queue := s.queue.tail }
  setCurrent nextTaskId
  let _prevTask ← unwrap (← .get).tasks[prevTaskId]?
  let nextTask ← unwrap (← .get).tasks[nextTaskId]?
  -- the context switch, which returns into the next task
  memoryContextSwitch nextTask.memoryContext
  cpuContextSwitch prevTaskId nextTaskId
  afterSchedule

/-- `Task::new`. -/
def taskNew (registers : Registers) (memoryContext : MemoryContext) : Exec Kernel Task := do
  let id := (← .get).nextTaskId
  .modify fun s => { s with nextTaskId := s.nextTaskId + 1 }
  return { id, registers, memoryContext }

def becomeKinit (task : Task) : Exec Kernel ℕ := do
  lockCall do
    assert (← .get).tasks.isEmpty
    .modify fun s => { s with tasks := s.tasks.insert task.id task }
    assert (currentCore = 0)
    assert ((← currentTaskSlot) = none)
    setCurrent task.id
  schedule
  return task.id

def addTask (task : Task) : Exec Kernel ℕ := do
  lockCall do
    .modify fun s => { s with tasks := s.tasks.insert task.id task }
    .modify fun s => { s with queue := s.queue ++ [task.id] }
  return task.id

def task (id : ℕ) : Exec Kernel (Option Task) := lockCall (.gets (·.tasks[id]?))

def currentTaskId : Exec Kernel ℕ := lockCall do unwrap (← currentTaskSlot)

def currentTask : Exec Kernel Task := do unwrap (← task (← currentTaskId))

/-! ### Runs -/

/-- A scheduler for one core, before any task. -/
def new (cpu : Cpu) (nextTaskId : ℕ) : Kernel where
  tasks := ∅
  queue := []
  currentTasks := [none]
  locked := false
  cpu := cpu
  nextTaskId := nextTaskId
  created := []

/-- `create_and_become_kinit`. -/
def createAndBecomeKinit (registers : Registers) (memoryContext : MemoryContext) :
    Exec Kernel ℕ := do becomeKinit (← taskNew registers memoryContext)

inductive Event
  /-- `Task::new`. -/
  | create (registers : Registers) (memoryContext : MemoryContext)
  /-- `add_task` with the task that was created as the `i`-th of those at hand. -/
  | addTask (i : ℕ)
  | schedule
  /-- The running task leaves other values in its registers. -/
  | run (registers : Registers)

def step (s : Kernel) : Event → Option Kernel
  | .create registers memoryContext =>
    match taskNew registers memoryContext s with
    | (.ok t, s') => some { s' with created := s'.created ++ [t] }
    | _ => none
  | .addTask i => s.created[i]?.bind fun t =>
    match addTask t { s with created := s.created.eraseIdx i } with
    | (.ok _, s') => some s'
    | _ => none
  | .schedule =>
    match schedule s with
    | (.ok _, s') => some s'
    | _ => none
  | .run registers => some { s with cpu := { s.cpu with registers } }

/-- The number of `schedule` calls. -/
def schedules (es : List Event) : ℕ := es.countP fun
  | .schedule => true
  | _ => false

/-- The task recorded as current. -/
def current (s : Kernel) : Option ℕ := s.currentTasks[currentCore]?.join

end Scheduler

end Pimento
