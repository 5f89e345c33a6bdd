import Mathlib.Logic.Function.Basic
import Mathlib.Tactic.Common
import Pimento.Runs

/-!
One core, its tasks, and the locks that they take.

A timer interrupt may come wherever IRQs are not masked, and its handler goes on with another task,
also when the interrupted one holds a lock. What a task does is known here by the locks that it
takes, the sections that it masks and where it panics, which halts the core.
-/

namespace Pimento.Preemption

open Runs

variable {ℓ : Type}

/-- The locks: those that the interrupt handler takes, also when it panics, and others. -/
inductive Site (ℓ : Type)
  | scheduler
  | timer
  | interrupts
  | controller
  | heap
  | serial
  /-- Those of the `OnceLock`s. -/
  | installedTable
  | schedulerCell
  | monotonic
  | device
  | other (l : ℓ)
  deriving DecidableEq

/-- Code of the kernel. -/
inductive Code (ℓ : Type)
  | work
  | seq (a b : Code ℓ)
  /-- A lock is held: `Lock::call`, or the scope of a guard. -/
  | call (l : Site ℓ) (body : Code ℓ)
  /-- `critical`, or a system call of user code: IRQs are masked, and then as they were. -/
  | critical (body : Code ℓ)
  /-- A new task goes to the end of the queue. -/
  | pushBack (body : Code ℓ)
  /-- The panic handler prints a message, and hangs. -/
  | panic (message : Code ℓ)
  deriving DecidableEq

inductive Op (ℓ : Type)
  | work
  | lock (l : Site ℓ)
  | unlock (l : Site ℓ)
  | disableInterrupts
  | restoreInterrupts
  | enableInterrupts
  | pushBack (body : Code ℓ)
  | contextSwitch
  | hang
  deriving DecidableEq

namespace Code

def ops : Code ℓ → List (Op ℓ)
  | work => [.work]
  | seq a b => a.ops ++ b.ops
  | call l body => .lock l :: (body.ops ++ [.unlock l])
  | critical body => .disableInterrupts :: (body.ops ++ [.restoreInterrupts])
  | pushBack body => [.pushBack body]
  | panic message => message.ops ++ [.hang]

def times : ℕ → Code ℓ → Code ℓ
  | 0, _ => work
  | n + 1, c => seq c (times n c)

def all : List (Code ℓ) → Code ℓ
  | [] => work
  | c :: cs => seq c (all cs)

end Code

/-! ### The functions of the kernel -/

/-- `OnceLock::get`. -/
def get (cell : Site ℓ) : Code ℓ := .call cell .work

/-- `write_str` of so many bytes to the serial device. -/
def writeStr (n : ℕ) : Code ℓ := .seq (get .device) (.times n (.call .serial .work))

/-- `_print` of pieces of these lengths. -/
def print (pieces : List ℕ) : Code ℓ := .all (pieces.map writeStr)

/-- `_println`; the pieces are those of the uptime, too. -/
def println (pieces : List ℕ) : Code ℓ := .seq (get .monotonic) (print pieces)

def panicHandler (lines : List (List ℕ)) : Code ℓ := .panic (.all (lines.map println))

/-- `alloc` of the heap. -/
def allocate : Code ℓ := .call .heap .work

/-- How some code panics: whether it has asked the heap in vain, and the lines that are printed. -/
structure Failure where
  asked : Bool
  lines : List (List ℕ)
  deriving DecidableEq, Repr

/-- The allocations that some code makes: so many that succeed, and perhaps a panic then. -/
structure Allocs where
  count : ℕ
  fails : Option Failure
  deriving DecidableEq, Repr

def Allocs.code (a : Allocs) : Code ℓ :=
  .seq (.times a.count allocate)
    (match a.fails with
      | none => .work
      | some failure =>
        .seq (if failure.asked then allocate else .work) (panicHandler failure.lines))

/-- `add_task`: the map, the `Arc` of the task and the queue allocate. -/
def addTask (allocs : Allocs) (body : Code ℓ) : Code ℓ :=
  .critical (.call .scheduler (.seq allocs.code (.pushBack body)))

/-- `current_task`. -/
def currentTask : Code ℓ :=
  .seq (get .schedulerCell)
    -- `current_task_id` and `task`
    (.seq (.critical (.call .scheduler .work)) (.critical (.call .scheduler .work)))

/-- The system call `write` of user code, from its exception on. -/
def sysWrite (allocs : Allocs) (pieces : List ℕ) : Code ℓ :=
  .critical (.seq (get .installedTable) (.seq currentTask (.seq allocs.code (print pieces))))

/-- `after_schedule`, and the `set_duration` of the timer in it. -/
def afterSchedule : List (Op ℓ) :=
  [.unlock .scheduler, .lock .timer, .unlock .timer, .enableInterrupts]

/-- `schedule`: the queue may grow. -/
def schedule (allocs : Allocs) : List (Op ℓ) :=
  [.lock .scheduler] ++ allocs.code.ops ++ [.contextSwitch] ++ afterSchedule

/-- The `handle` of the router that looks at so many interrupts. The last one is pending, or none
of them is. -/
def handle (looked : ℕ) (pending : Bool) (allocs : Allocs) : List (Op ℓ) :=
  [.lock .interrupts] ++
    (List.replicate looked [Op.lock .controller, Op.unlock .controller]).flatten ++
    (if pending then [.lock .controller, .unlock .controller] else []) ++ [.unlock .interrupts] ++
    if pending then schedule allocs else []

def vectorIrq (looked : ℕ) (pending : Bool) (allocs : Allocs) : List (Op ℓ) :=
  (get .installedTable).ops ++ handle looked pending allocs

/-- `become_kinit`: the map and the `Arc` of the task allocate, and then the queue may grow. -/
def becomeKinit (inserts allocs : Allocs) : List (Op ℓ) :=
  (Code.critical (.call .scheduler inserts.code)).ops ++ schedule allocs

/-- A task: what is left of its code, and the states of the interrupt mask it has saved. -/
structure Task (ℓ : Type) where
  ops : List (Op ℓ)
  saved : List Bool

structure State (ℓ : Type) where
  tasks : ℕ → Task ℓ
  /-- The tasks that there are. -/
  count : ℕ
  current : ℕ
  queue : List ℕ
  /-- IRQs are masked. -/
  masked : Bool
  locked : Site ℓ → Bool

namespace State

def ops (s : State ℓ) : List (Op ℓ) := (s.tasks s.current).ops

def saved (s : State ℓ) : List Bool := (s.tasks s.current).saved

/-- The current task goes on with other code. -/
def goOn (s : State ℓ) (ops : List (Op ℓ)) (saved : List Bool) : State ℓ :=
  { s with tasks := Function.update s.tasks s.current ⟨ops, saved⟩ }

/-- A new task begins as if it had been switched out in `schedule`. -/
def pushBack (s : State ℓ) (body : Code ℓ) : State ℓ :=
  { s with
    tasks := Function.update s.tasks s.count ⟨afterSchedule ++ body.ops, []⟩
    count := s.count + 1
    queue := s.queue ++ [s.count] }

end State

inductive Event
  | advance
  | irq (looked : ℕ) (pending : Bool) (allocs : Allocs)
  deriving DecidableEq, Repr

section Step

variable [DecidableEq ℓ]

def step (s : State ℓ) : Event → Option (State ℓ)
  | .advance =>
    match s.ops with
    | [] => some s
    | .work :: rest => some (s.goOn rest s.saved)
    | .lock l :: rest =>
      -- a turn of the loop
      if s.locked l then some s
      else some { s.goOn rest s.saved with locked := Function.update s.locked l true }
    | .unlock l :: rest =>
      some { s.goOn rest s.saved with locked := Function.update s.locked l false }
    | .disableInterrupts :: rest => some { s.goOn rest (s.masked :: s.saved) with masked := true }
    | .restoreInterrupts :: rest =>
      match s.saved with
      | [] => none
      | m :: saved => some { s.goOn rest saved with masked := m }
    | .enableInterrupts :: rest => some { s.goOn rest s.saved with masked := false }
    | .pushBack body :: rest => some ((s.goOn rest s.saved).pushBack body)
    | .contextSwitch :: rest =>
      match s.queue ++ [s.current] with
      | [] => none
      | next :: queue => some { s.goOn rest s.saved with current := next, queue := queue }
    | .hang :: _ => some { s with masked := true }
  | .irq looked pending allocs =>
    if s.masked then none
    else
      -- the exception saves PSTATE and masks, and `eret` restores
      some { s.goOn (vectorIrq looked pending allocs ++ .restoreInterrupts :: s.ops)
               (s.masked :: s.saved) with masked := true }

end Step

/-- The kernel that initialises itself with IRQs masked, becomes its first task and goes on. -/
def boot (init code : Code ℓ) (inserts allocs : Allocs) : State ℓ where
  tasks _ := ⟨init.ops ++ becomeKinit inserts allocs ++ code.ops, []⟩
  count := 1
  current := 0
  queue := []
  masked := true
  locked _ := false

/-! ### A lock that is taken with IRQs masked only -/

/-- In code that runs with IRQs masked or not and the lock held or not, the lock is taken with IRQs
masked only, and not taken again by its holder. -/
def Guards (l : Option (Site ℓ)) (masked held : Bool) : Code ℓ → Prop
  | .work => True
  | .seq a b => Guards l masked held a ∧ Guards l masked held b
  | .call l' body =>
    (some l' = l → masked = true ∧ held = false ∧ Guards l masked true body) ∧
      (some l' ≠ l → Guards l masked held body)
  | .critical body => Guards l true held body
  | .pushBack body => Guards l false false body
  | .panic message => Guards l masked held message

/-- The same for what is left of a task, which gives the lock back and does not leave IRQs
masked. -/
def Kept (l : Option (Site ℓ)) (masked held : Bool) (saved : List Bool) : List (Op ℓ) → Prop
  | [] => masked = false ∧ held = false
  | .work :: rest => Kept l masked held saved rest
  | .lock l' :: rest =>
    (some l' = l → masked = true ∧ held = false ∧ Kept l masked true saved rest) ∧
      (some l' ≠ l → Kept l masked held saved rest)
  | .unlock l' :: rest =>
    (some l' = l → held = true ∧ Kept l masked false saved rest) ∧
      (some l' ≠ l → Kept l masked held saved rest)
  | .disableInterrupts :: rest => Kept l true held (masked :: saved) rest
  | .restoreInterrupts :: rest =>
    ∃ m saved', saved = m :: saved' ∧ (held = true → m = true) ∧ Kept l m held saved' rest
  | .enableInterrupts :: rest => held = false ∧ Kept l false held saved rest
  | .pushBack body :: rest => Guards l false false body ∧ Kept l masked held saved rest
  | .contextSwitch :: rest =>
    masked = true ∧ (held = true ↔ some .scheduler = l) ∧ Kept l masked held saved rest
  | .hang :: _ => True

variable {l : Option (Site ℓ)} {l' : Site ℓ} {m h pending : Bool} {saved : List Bool} {n looked : ℕ}
  {rest : List (Op ℓ)} {c init code : Code ℓ} {inserts allocs : Allocs}

lemma kept_section (hne : some l' = l → h = false) (hrest : Kept l true h saved rest) :
    Kept l true h saved (.lock l' :: .unlock l' :: rest) := by
  refine ⟨fun heq => ⟨rfl, hne heq, fun _ => ⟨rfl, ?_⟩, fun hne' => absurd heq hne'⟩,
    fun hne' => ⟨fun heq => absurd heq hne', fun _ => hrest⟩⟩
  rwa [hne heq] at hrest

lemma kept_ops (hc : Guards l m h c) (hm : h = true → m = true) (hrest : Kept l m h saved rest) :
    Kept l m h saved (c.ops ++ rest) := by
  induction c generalizing m h saved rest with
  | work => exact hrest
  | seq a b iha ihb =>
    rw [Code.ops, List.append_assoc]
    exact iha hc.1 hm (ihb hc.2 hm hrest)
  | call l' body ih =>
    rw [Code.ops, List.cons_append, List.append_assoc]
    refine ⟨fun heq => ?_, fun hne => ih (hc.2 hne) hm ⟨fun heq => absurd heq hne, fun _ => hrest⟩⟩
    obtain ⟨rfl, rfl, hbody⟩ := hc.1 heq
    exact ⟨rfl, rfl, ih hbody (fun _ => rfl)
      ⟨fun _ => ⟨rfl, hrest⟩, fun hne => absurd heq hne⟩⟩
  | critical body ih =>
    rw [Code.ops, List.cons_append, List.append_assoc]
    exact ih hc (fun _ => rfl) ⟨m, saved, rfl, hm, hrest⟩
  | pushBack body => exact ⟨hc, hrest⟩
  | panic message ih =>
    rw [Code.ops, List.append_assoc]
    exact ih hc hm trivial

/-! ### The interrupt handler -/

lemma guards_get (hfree : some l' = l → m = true ∧ h = false) : Guards l m h (get l') :=
  ⟨fun heq => ⟨(hfree heq).1, (hfree heq).2, trivial⟩, fun _ => trivial⟩

lemma guards_times (hc : Guards l m h c) : Guards l m h (.times n c) := by
  induction n with
  | zero => trivial
  | succ n ih => exact ⟨hc, ih⟩

lemma guards_all {cs : List (Code ℓ)} (hcs : ∀ c ∈ cs, Guards l m h c) :
    Guards l m h (.all cs) := by
  induction cs with
  | nil => trivial
  | cons c cs ih => exact ⟨hcs c (List.mem_cons_self ..), ih fun c hc => hcs c (.tail _ hc)⟩

lemma guards_panicHandler {lines : List (List ℕ)}
    (hfree : ∀ l' ∈ [.monotonic, .device, .serial], some l' = l → m = true ∧ h = false) :
    Guards l m h (panicHandler lines) := by
  refine guards_all fun c hc => ?_
  obtain ⟨pieces, -, rfl⟩ := List.mem_map.mp hc
  refine ⟨guards_get (hfree _ (by simp)), guards_all fun c hc => ?_⟩
  obtain ⟨k, -, rfl⟩ := List.mem_map.mp hc
  exact ⟨guards_get (hfree _ (by simp)), guards_times (guards_get (hfree _ (by simp)))⟩

lemma guards_allocs
    (hfree : ∀ l' ∈ [.heap, .monotonic, .device, .serial], some l' = l → m = true ∧ h = false) :
    Guards l m h allocs.code := by
  have halloc : Guards l m h allocate := guards_get (hfree _ (by simp))
  refine ⟨guards_times halloc, ?_⟩
  rcases allocs.fails with _ | ⟨asked, lines⟩
  · trivial
  · refine ⟨?_, guards_panicHandler fun l' hl' => hfree l' (.tail _ hl')⟩
    cases asked
    · trivial
    · exact halloc

/-- Where the lock of the scheduler is held, or not at all, the allocations are fine. -/
lemma guards_allocs_scheduler (hh : h = true ↔ some .scheduler = l) :
    Guards l true h allocs.code := by
  refine guards_allocs fun l' hl' heq => ⟨rfl, Bool.eq_false_iff.mpr fun htrue => ?_⟩
  have hsched := Option.some.inj ((hh.mp htrue).trans heq.symm)
  rw [← hsched] at hl'
  simp at hl'

lemma kept_afterSchedule (hh : h = true ↔ some .scheduler = l)
    (hrest : Kept l false false saved rest) : Kept l true h saved (afterSchedule ++ rest) := by
  have htimer : Kept l true false saved
      (.lock .timer :: .unlock .timer :: .enableInterrupts :: rest) :=
    kept_section (fun _ => rfl) ⟨rfl, hrest⟩
  refine ⟨fun heq => ⟨hh.mpr heq, htimer⟩, fun hne => ?_⟩
  have hfalse : h = false := Bool.eq_false_iff.mpr fun htrue => hne (hh.mp htrue)
  rwa [hfalse]

lemma kept_schedule (hrest : Kept l false false saved rest) :
    Kept l true false saved (schedule allocs ++ rest) := by
  have hinside : ∀ h, (h = true ↔ some .scheduler = l) → Kept l true h saved
      (allocs.code.ops ++ .contextSwitch :: (afterSchedule ++ rest)) := fun h hh =>
    kept_ops (guards_allocs_scheduler hh) (fun _ => rfl) ⟨rfl, hh, kept_afterSchedule hh hrest⟩
  rw [schedule]
  simp only [List.append_assoc, List.cons_append, List.nil_append]
  exact ⟨fun heq => ⟨rfl, rfl, hinside true (by simp [heq])⟩, fun hne =>
    hinside false (by simp [hne])⟩

/-- The looks at the controller. -/
lemma kept_looks (hne : some .controller = l → h = false) (hrest : Kept l true h saved rest) :
    Kept l true h saved
      ((List.replicate n [Op.lock .controller, Op.unlock .controller]).flatten ++ rest) := by
  induction n with
  | zero => exact hrest
  | succ n ih =>
    rw [List.replicate_succ, List.flatten_cons, List.append_assoc]
    exact kept_section hne ih

lemma kept_handle (hback : ∀ m, Kept l m false saved rest) :
    Kept l true false saved (handle looked pending allocs ++ rest) := by
  have hafter : Kept l true false saved ((if pending then schedule allocs else []) ++ rest) := by
    cases pending with
    | true => exact kept_schedule (hback false)
    | false => exact hback true
  have hlooks : ∀ h rest, (some .controller = l → h = false) → Kept l true h saved rest →
      Kept l true h saved
        ((List.replicate looked [Op.lock .controller, Op.unlock .controller]).flatten ++
          ((if pending then [.lock .controller, .unlock .controller] else []) ++ rest)) := by
    intro h rest hne hrest
    refine kept_looks hne ?_
    cases pending with
    | true => exact kept_section hne hrest
    | false => exact hrest
  rw [handle]
  simp only [List.append_assoc, List.cons_append, List.nil_append]
  refine ⟨fun heq => ⟨rfl, rfl, hlooks true _ (by simp [← heq]) ⟨fun _ => ⟨rfl, hafter⟩,
    fun hne => absurd heq hne⟩⟩, fun hne => hlooks false _ (fun _ => rfl)
      ⟨fun heq => absurd heq hne, fun _ => hafter⟩⟩

/-- The handler, up to where it returns to. -/
lemma kept_vectorIrq (hrest : Kept l false false saved rest) :
    Kept l true false (false :: saved)
      (vectorIrq looked pending allocs ++ .restoreInterrupts :: rest) := by
  rw [vectorIrq, List.append_assoc]
  exact kept_ops (guards_get fun _ => ⟨rfl, rfl⟩) nofun
    (kept_handle fun m => ⟨false, saved, rfl, nofun, hrest⟩)

lemma kept_becomeKinit (hrest : Kept l false false saved rest) :
    Kept l true false saved (becomeKinit inserts allocs ++ rest) := by
  rw [becomeKinit, List.append_assoc]
  refine kept_ops ⟨fun heq => ⟨rfl, rfl, ?_⟩, fun hne => ?_⟩ nofun (kept_schedule hrest)
  · exact guards_allocs_scheduler (by simp [heq])
  · exact guards_allocs_scheduler (by simp [hne])

/-! ### Every step keeps it -/

/-- The lock is held, if there is one to look at. -/
def State.held (s : State ℓ) : Option (Site ℓ) → Bool
  | none => false
  | some l => s.locked l

/-- The current task keeps the rules from where the core is, and the others from where they have
been switched out. -/
structure Inv (l : Option (Site ℓ)) (s : State ℓ) : Prop where
  current : Kept l s.masked (s.held l) s.saved s.ops
  masked : s.held l = true → s.masked = true
  others : ∀ j < s.count, j ≠ s.current → ∀ h, (h = true ↔ some .scheduler = l) →
    Kept l true h (s.tasks j).saved (s.tasks j).ops
  exists_current : s.current < s.count
  exists_queue : ∀ j ∈ s.queue, j < s.count

variable {s s' : State ℓ} {e : Event} {es : List Event} {ops : List (Op ℓ)}

lemma goOn_self : (s.goOn ops saved).tasks s.current = ⟨ops, saved⟩ := by
  rw [State.goOn]
  exact Function.update_self ..

lemma goOn_of_ne {j : ℕ} (hj : j ≠ s.current) : (s.goOn ops saved).tasks j = s.tasks j := by
  rw [State.goOn]
  exact Function.update_of_ne hj ..

/-- The current task has gone on, and no other has. -/
lemma Inv.goOn (hi : Inv l s) {t : State ℓ} (htasks : t.tasks = (s.goOn ops saved).tasks)
    (hcount : t.count = s.count) (hcurrent : t.current = s.current) (hqueue : t.queue = s.queue)
    (hkept : Kept l t.masked (t.held l) saved ops) (hmasked : t.held l = true → t.masked = true) :
    Inv l t where
  current := by
    have htask : t.tasks t.current = ⟨ops, saved⟩ := by rw [htasks, hcurrent, goOn_self]
    rwa [State.ops, State.saved, htask]
  masked := hmasked
  others j hj hne := by
    rw [htasks, goOn_of_ne (hcurrent ▸ hne)]
    exact hi.others j (hcount ▸ hj) (hcurrent ▸ hne)
  exists_current := by rw [hcurrent, hcount]; exact hi.exists_current
  exists_queue := by rw [hqueue, hcount]; exact hi.exists_queue

lemma held_update [DecidableEq ℓ] {b : Bool} {t : State ℓ}
    (ht : t.locked = Function.update s.locked l' b) :
    (some l' = l → t.held l = b) ∧ (some l' ≠ l → t.held l = s.held l) := by
  cases l with
  | none => exact ⟨nofun, fun _ => rfl⟩
  | some k =>
    rw [State.held, ht]
    refine ⟨fun heq => ?_, fun hne => ?_⟩
    · rw [Option.some.inj heq, Function.update_self]
    · exact Function.update_of_ne (fun heq => hne (congrArg some heq.symm)) ..

/-- The new task begins after a switch. -/
lemma Inv.pushBack (hi : Inv l s) (hc : Guards l false false c) : Inv l (s.pushBack c) := by
  have hold : ∀ j, j ≠ s.count → (s.pushBack c).tasks j = s.tasks j := fun j hj => by
    rw [State.pushBack]
    exact Function.update_of_ne hj ..
  have hnew : (s.pushBack c).tasks s.count = ⟨afterSchedule ++ c.ops, []⟩ := by
    rw [State.pushBack]
    exact Function.update_self ..
  refine ⟨?_, hi.masked, fun j hj hne h hh => ?_, Nat.lt_succ_of_lt hi.exists_current,
    fun j hj => ?_⟩
  · have hcurrent : (s.pushBack c).tasks (s.pushBack c).current = s.tasks s.current :=
      hold _ (Nat.ne_of_lt hi.exists_current)
    rw [State.saved, State.ops, hcurrent]
    exact hi.current
  · by_cases hj' : j = s.count
    · rw [hj', hnew]
      have hend : Kept l false false [] (c.ops ++ []) := kept_ops hc nofun ⟨rfl, rfl⟩
      rw [List.append_nil] at hend
      exact kept_afterSchedule hh hend
    · rw [hold j hj']
      exact hi.others j (Nat.lt_of_le_of_ne (Nat.le_of_lt_succ hj) hj') hne h hh
  · rcases List.mem_append.mp hj with hj | hj
    · exact Nat.lt_succ_of_lt (hi.exists_queue j hj)
    · rw [List.mem_singleton.mp hj]
      exact Nat.lt_succ_self _

/-- The next task goes on after its own switch. -/
lemma Inv.contextSwitch (hi : Inv l s) (hops : s.ops = .contextSwitch :: rest) {next : ℕ}
    {queue : List ℕ} (hnext : s.queue ++ [s.current] = next :: queue) :
    Inv l { s.goOn rest s.saved with current := next, queue := queue } := by
  have hk := hi.current
  rw [hops] at hk
  obtain ⟨hm, hh, hk⟩ := hk
  have hcount : ∀ j ∈ s.queue ++ [s.current], j < s.count := fun j hj => by
    rcases List.mem_append.mp hj with hj | hj
    · exact hi.exists_queue j hj
    · rw [List.mem_singleton.mp hj]
      exact hi.exists_current
  rw [hnext] at hcount
  rw [hm] at hk
  -- every task is at a place behind a switch
  have hall : ∀ j < s.count, ∀ h, (h = true ↔ some .scheduler = l) →
      Kept l true h ((s.goOn rest s.saved).tasks j).saved ((s.goOn rest s.saved).tasks j).ops := by
    intro j hj h' hh'
    by_cases hne : j = s.current
    · rw [hne, goOn_self]
      rwa [Bool.eq_iff_iff.mpr (hh'.trans hh.symm)]
    · rw [goOn_of_ne hne]
      exact hi.others j hj hne h' hh'
  refine ⟨?_, fun _ => hm, fun j hj _ => hall j hj, hcount _ (List.mem_cons_self ..),
    fun j hj => hcount j (List.mem_cons_of_mem _ hj)⟩
  have hcurrent := hall next (hcount _ (List.mem_cons_self ..)) (s.held l) hh
  rw [← hm] at hcurrent
  exact hcurrent

/-- The handler begins: IRQs were not masked, so the lock is free. -/
lemma Inv.irq (hi : Inv l s) (hmask : s.masked = false) :
    Inv l { s.goOn (vectorIrq looked pending allocs ++ .restoreInterrupts :: s.ops)
              (s.masked :: s.saved) with masked := true } := by
  have hfree : s.held l = false := Bool.eq_false_iff.mpr fun h => by
    rw [hi.masked h] at hmask
    cases hmask
  refine hi.goOn rfl rfl rfl rfl ?_ fun _ => rfl
  have hk := hi.current
  rw [hmask, hfree] at hk
  change Kept l true (s.held l) _ _
  rw [hfree, hmask]
  exact kept_vectorIrq hk

/-- The core hangs with IRQs masked. -/
lemma Inv.hang (hi : Inv l s) (hops : s.ops = .hang :: rest) : Inv l { s with masked := true } where
  current := by
    change Kept l true _ _ s.ops
    rw [hops]
    trivial
  masked := fun _ => rfl
  others := hi.others
  exists_current := hi.exists_current
  exists_queue := hi.exists_queue

lemma inv_boot (hinit : Guards l true false init) (hcode : Guards l false false code) :
    Inv l (boot init code inserts allocs) where
  current := by
    have hend : Kept l false false [] (code.ops ++ []) := kept_ops hcode nofun ⟨rfl, rfl⟩
    rw [List.append_nil] at hend
    have hfree : (boot init code inserts allocs).held l = false := by cases l <;> rfl
    rw [hfree]
    change Kept l true false [] (init.ops ++ becomeKinit inserts allocs ++ code.ops)
    rw [List.append_assoc]
    exact kept_ops hinit nofun (kept_becomeKinit hend)
  masked := by cases l <;> nofun
  others j hj hne := by
    have : j = 0 := Nat.lt_one_iff.mp hj
    exact absurd this hne
  exists_current := Nat.one_pos
  exists_queue := nofun

variable [DecidableEq ℓ]

/-- A lock is taken or given back. -/
lemma Inv.setLock (hi : Inv l s) {b : Bool}
    (hsame : some l' = l → Kept l s.masked b s.saved rest ∧ (b = true → s.masked = true))
    (hother : some l' ≠ l → Kept l s.masked (s.held l) s.saved rest) :
    Inv l { s.goOn rest s.saved with locked := Function.update s.locked l' b } := by
  obtain ⟨hb, hheld⟩ := held_update (l := l)
    (t := { s.goOn rest s.saved with locked := Function.update s.locked l' b }) rfl
  by_cases heq : some l' = l
  · obtain ⟨hk, hm⟩ := hsame heq
    refine hi.goOn rfl rfl rfl rfl ?_ ?_
    · rwa [hb heq]
    · rwa [hb heq]
  · refine hi.goOn rfl rfl rfl rfl ?_ ?_
    · rw [hheld heq]
      exact hother heq
    · rw [hheld heq]
      exact hi.masked

lemma Inv.step (hi : Inv l s) (hs : step s e = some s') : Inv l s' := by
  cases e with
  | irq looked pending allocs =>
    rw [Preemption.step] at hs
    split at hs
    · cases hs
    · rename_i hmask
      obtain rfl := Option.some.inj hs
      exact hi.irq (Bool.eq_false_iff.mpr hmask)
  | advance =>
    have hk := hi.current
    rcases hops : s.ops with _ | ⟨op, rest⟩
    · rw [Preemption.step, hops] at hs
      obtain rfl := Option.some.inj hs
      exact hi
    rw [Preemption.step, hops] at hs
    rw [hops] at hk
    cases op with
    | work =>
      obtain rfl := Option.some.inj hs
      exact hi.goOn rfl rfl rfl rfl hk hi.masked
    | lock l' =>
      dsimp only at hs
      split at hs
      · obtain rfl := Option.some.inj hs
        exact hi
      · obtain rfl := Option.some.inj hs
        refine hi.setLock (fun heq => ?_) hk.2
        obtain ⟨hm, -, hk⟩ := hk.1 heq
        exact ⟨hk, fun _ => hm⟩
    | unlock l' =>
      obtain rfl := Option.some.inj hs
      exact hi.setLock (fun heq => ⟨(hk.1 heq).2, nofun⟩) hk.2
    | disableInterrupts =>
      obtain rfl := Option.some.inj hs
      exact hi.goOn rfl rfl rfl rfl hk fun _ => rfl
    | restoreInterrupts =>
      obtain ⟨m, saved, hsaved, hm, hk⟩ := hk
      dsimp only at hs
      rw [hsaved] at hs
      obtain rfl := Option.some.inj hs
      exact hi.goOn rfl rfl rfl rfl hk hm
    | enableInterrupts =>
      obtain rfl := Option.some.inj hs
      obtain ⟨hfree, hk⟩ := hk
      refine hi.goOn rfl rfl rfl rfl ?_ ?_
      · change Kept l false (s.held l) s.saved rest
        rwa [hfree] at hk ⊢
      · change s.held l = true → _
        rw [hfree]
        nofun
    | pushBack body =>
      obtain rfl := Option.some.inj hs
      exact (hi.goOn rfl rfl rfl rfl hk.2 hi.masked).pushBack hk.1
    | contextSwitch =>
      dsimp only at hs
      split at hs
      · cases hs
      · rename_i next queue hnext
        obtain rfl := Option.some.inj hs
        exact hi.contextSwitch hops hnext
    | hang =>
      obtain rfl := Option.some.inj hs
      exact hi.hang hops

/-- A lock that is taken with IRQs masked only is free whenever a task is about to take it. -/
structure Safe (l : Site ℓ) (s : State ℓ) : Prop where
  masked : s.locked l = true → s.masked = true
  free : ∀ rest, s.ops = .lock l :: rest → s.locked l = false

/-- **No spinning**: wherever IRQs come and whatever the tasks do with other locks, a lock that all
code takes with IRQs masked only, and that its holder does not take again, is free whenever a task
is about to take it, and IRQs are masked while it is held. -/
theorem guarded_lock_free {l : Site ℓ} (hinit : Guards (some l) true false init)
    (hcode : Guards (some l) false false code)
    (hrun : Run step (boot init code inserts allocs) es s) : Safe l s := by
  have hi : Inv (some l) s :=
    hrun.invariant (fun _ _ _ h hs => h.step hs) (inv_boot hinit hcode)
  refine ⟨hi.masked, fun rest hops => ?_⟩
  have hk := hi.current
  rw [hops] at hk
  exact (hk.1 rfl).2.1

/-! ### When the core is stuck -/

omit [DecidableEq ℓ] in
lemma guards_none (m h : Bool) (c : Code ℓ) : Guards none m h c := by
  induction c generalizing m h with
  | work => trivial
  | seq a b iha ihb => exact ⟨iha m h, ihb m h⟩
  | call l body ih => exact ⟨nofun, fun _ => ih m h⟩
  | critical body ih => exact ih true h
  | pushBack body ih => exact ih false false
  | panic message ih => exact ih m h

/-- The current task goes on, unless it finds a lock taken or has hung. -/
lemma can_goOn (hi : Inv none s) {op : Op ℓ} (hops : s.ops = op :: rest) (hhang : op ≠ .hang)
    (hfree : ∀ l, op = .lock l → s.locked l = false) :
    ∃ s', step s .advance = some s' ∧ (s'.tasks s.current).ops = rest := by
  have hk := hi.current
  rw [hops] at hk
  rw [step, hops]
  cases op with
  | work | disableInterrupts | enableInterrupts => exact ⟨_, rfl, congrArg Task.ops goOn_self⟩
  | unlock l => exact ⟨_, rfl, congrArg Task.ops goOn_self⟩
  | lock l =>
    refine ⟨_, if_neg (Bool.eq_false_iff.mp (hfree l rfl)), congrArg Task.ops goOn_self⟩
  | restoreInterrupts =>
    obtain ⟨m, saved, hsaved, -⟩ := hk
    dsimp only
    rw [hsaved]
    exact ⟨_, rfl, congrArg Task.ops goOn_self⟩
  | pushBack body =>
    refine ⟨_, rfl, ?_⟩
    exact congrArg Task.ops
      ((Function.update_of_ne (Nat.ne_of_lt hi.exists_current) ..).trans goOn_self)
  | contextSwitch =>
    dsimp only
    rcases hqueue : s.queue ++ [s.current] with _ | ⟨next, queue⟩
    · simp at hqueue
    · exact ⟨_, rfl, congrArg Task.ops goOn_self⟩
  | hang => exact absurd rfl hhang

/-- The current task is about to take a lock that is held, or it has come to the end of the panic
handler. -/
def Waits (s : State ℓ) : Prop :=
  (∃ l rest, s.ops = .lock l :: rest ∧ s.locked l = true) ∨ ∃ rest, s.ops = .hang :: rest

/-- With IRQs masked, a task that waits waits for ever. -/
lemma Waits.step (hw : Waits s) (hmask : s.masked = true) (hs : step s e = some s') : s' = s := by
  cases e with
  | irq looked pending allocs =>
    rw [Preemption.step, if_pos hmask] at hs
    cases hs
  | advance =>
    rcases hw with ⟨l, rest, hops, hl⟩ | ⟨rest, hops⟩ <;> rw [Preemption.step, hops] at hs
    · dsimp only at hs
      rw [if_pos hl] at hs
      exact (Option.some.inj hs).symm
    · obtain rfl := Option.some.inj hs
      rw [← hmask]

/-- **Stuck**: in a state that the kernel reaches, nothing ever happens again exactly if IRQs are
masked and the current task is about to take a lock that is held, or has panicked and hangs. -/
theorem stuck_iff (hrun : Run step (boot init code inserts allocs) es s) :
    (∀ es' s', Run step s es' s' → s' = s) ↔ s.masked = true ∧ Waits s := by
  have hi : Inv none s := hrun.invariant (fun _ _ _ h hs => h.step hs)
    (inv_boot (guards_none _ _ _) (guards_none _ _ _))
  constructor
  · intro hstuck
    have hmask : s.masked = true := by
      by_contra hne
      have hstep : step s (.irq 0 false ⟨0, none⟩) = some _ := if_neg hne
      have heq := hstuck _ _ (.single hstep)
      exact hne (congrArg State.masked heq).symm
    refine ⟨hmask, ?_⟩
    have hk := hi.current
    rcases hops : s.ops with _ | ⟨op, rest⟩
    · rw [hops, hmask] at hk
      cases hk.1
    by_contra hnone
    obtain ⟨s', hs', hrest⟩ := can_goOn hi hops
      (fun hop => hnone (.inr ⟨rest, by rw [hops, hop]⟩)) fun l hl => by
        by_contra hne
        exact hnone (.inl ⟨l, rest, by rw [hops, hl], (Bool.not_eq_false _).mp hne⟩)
    obtain rfl := hstuck _ _ (.single hs')
    have hcons : rest = op :: rest := hrest.symm.trans hops
    exact absurd (congrArg List.length hcons) (by simp)
  · rintro ⟨hmask, hw⟩ es' s' hrun'
    refine hrun'.invariant (I := fun t => t = s) ?_ rfl
    rintro _ e t rfl hs
    exact hw.step hmask hs

/-- A kernel thread is created, which allocates, and user code writes two bytes. -/
def demo : Code Empty := .seq (addTask ⟨3, none⟩ allocate) (sysWrite ⟨1, none⟩ [2])

/-- User code writes more bytes than the heap has room for. -/
def exhausted : Code Empty := sysWrite ⟨0, some ⟨true, [[31], [24]]⟩⟩ []

/-- Initialization allocates, and so do the map and the queue of the scheduler. -/
def booted (code : Code Empty) : State Empty := boot allocate code ⟨2, none⟩ ⟨1, none⟩

/-- The thread is interrupted while it holds the lock of the heap. -/
def preempted : List Event :=
  List.replicate 42 .advance ++ .irq 0 true ⟨0, none⟩ :: List.replicate 16 .advance ++
    .irq 0 true ⟨0, none⟩ :: List.replicate 40 .advance

/-- The state in which the system call waits for the lock. -/
def stuckState : State Empty := reach step (booted demo) preempted

lemma run_preempted : Run step (booted demo) preempted stuckState := run_reach (by decide +kernel)

theorem guarded_lock_free_preempted : Safe .scheduler stuckState := by
  refine guarded_lock_free ?_ ?_ run_preempted
  · simp [Guards, allocate]
  · simp [Guards, demo, addTask, sysWrite, Allocs.code, Code.times, currentTask, allocate, get,
      print, Code.all, writeStr]

/-- The state in which the core hangs. -/
def hungState : State Empty := reach step (booted exhausted) (List.replicate 240 .advance)

/-- The lock of the heap is not taken with IRQs masked only; and a system call panics with IRQs
masked. -/
theorem stuck_iff_preempted :
    (∀ es' s', Run step stuckState es' s' → s' = stuckState) ∧
      ∀ es' s', Run step hungState es' s' → s' = hungState := by
  have hwaits : stuckState.ops = .lock .heap :: stuckState.ops.tail := by decide +kernel
  have hhangs : hungState.ops = .hang :: hungState.ops.tail := by decide +kernel
  have hrun : Run step (booted exhausted) (List.replicate 240 .advance) hungState :=
    run_reach (by decide +kernel)
  refine ⟨(stuck_iff run_preempted).mpr ⟨by decide +kernel, .inl ⟨_, _, hwaits, ?_⟩⟩,
    (stuck_iff hrun).mpr ⟨by decide +kernel, .inr ⟨_, hhangs⟩⟩⟩
  decide +kernel

end Pimento.Preemption
