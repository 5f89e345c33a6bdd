import Pimento.Armv8
import Pimento.MemoryContext
import Pimento.Runs

/-!
Any number of memory contexts over one page allocator.

A call of `alloc_page` holds the lock of its context and takes one step for each level it
passes, so the calls of different contexts interleave between the levels. Contexts are
created and dropped, pages are allocated unmapped, with a handle for the caller, and user
code stores through the translation of its context.
-/

namespace Pimento.Contexts

open Address PageTable PageAllocator MemoryContext Armv8 Runs

/-- An unmapped allocation: where its context has recorded it, and whether the caller still
has its handle. -/
structure Stack where
  context : ℕ
  index : ℕ
  page : PageAllocation
  held : Bool
  deriving DecidableEq, Repr

/-- The machine, the live contexts, their calls in flight and the unmapped allocations. -/
structure World where
  machine : Machine
  contexts : ℕ → Option MemoryContext
  calls : ℕ → Option (TableManager × ℕ)
  stack : ℕ → Option Stack
  next : ℕ

inductive Event
  | create
  | start (c a : ℕ)
  | advance (c : ℕ)
  | unmapped (c : ℕ)
  | dropHandle (id : ℕ)
  | drop (c : ℕ)
  | store (c va : ℕ) (b : Byte)
  deriving DecidableEq, Repr

/-- The world before the first context is created. -/
def boot (m : Machine) : World := ⟨m, fun _ => none, fun _ => none, fun _ => none, 0⟩

variable (pa : PageAllocator) (w : World)

/-- The world after a context has worked on the machine. -/
def World.put (c : ℕ) (s : Scope) (call : Option (TableManager × ℕ)) : World :=
  { w with
    machine := s.machine
    contexts := Function.update w.contexts c (some s.context)
    calls := Function.update w.calls c call }

/-- A caller has a handle of the page the context has recorded at this index. -/
def World.isHeld (c index : ℕ) : Bool :=
  (List.range w.next).any fun id =>
    match w.stack id with
    | some e => e.context = c && e.index = index && e.held
    | none => false

/-- Dropping the recorded pages: a page without another handle is deallocated. -/
def dropPages (m : Machine) (keep : ℕ → Bool) (pages : List PageAllocation) : Machine :=
  pages.zipIdx.foldl (fun m a => if keep a.2 then m else (dealloc a.1 m).2) m

/-- The next step of a call: one round of the loop in `alloc_page`, or what follows it. -/
def advance (c : ℕ) (context : MemoryContext) (table : TableManager) (a : ℕ) : World :=
  if table.level < levelMax then
    match traverseTableToTable pa table a ⟨w.machine, context⟩ with
    | (.ok table', s) => w.put c s (some (table', a))
    | (_, s) => w.put c s none
  else w.put c (traverseTableToPage pa table a ⟨w.machine, context⟩).2 none

def create : World :=
  match new pa w.machine with
  | (.ok context, m) =>
    { w with
      machine := m
      contexts := Function.update w.contexts w.next (some context)
      next := w.next + 1 }
  | (_, m) => { w with machine := m }

def unmapped (c : ℕ) (context : MemoryContext) : World :=
  match allocPageUnmapped pa ⟨w.machine, context⟩ with
  | (.ok page, s) =>
    { w.put c s none with
      stack := Function.update w.stack w.next
        (some ⟨c, context.pageAllocations.length, page, true⟩)
      next := w.next + 1 }
  | (_, s) => w.put c s none

def dropHandle (id : ℕ) (e : Stack) : World :=
  if (w.contexts e.context).isSome then
    { w with stack := Function.update w.stack id (some { e with held := false }) }
  else
    { w with
      machine := (dealloc e.page w.machine).2
      stack := Function.update w.stack id none }

def drop (c : ℕ) (context : MemoryContext) : World :=
  { w with
    machine := dropPages w.machine (w.isHeld c) context.pageAllocations
    contexts := Function.update w.contexts c none
    stack := fun id => (w.stack id).filter fun e => e.context ≠ c || e.held }

/-- A store by user code. -/
def store (va : ℕ) (b : Byte) (context : MemoryContext) : Option World :=
  match translate w.machine.memory (physicalAddress context.tableL0) va with
  | some t =>
    if t.el0 && !t.readOnly then
      some { w with machine :=
        { w.machine with memory := w.machine.memory.writeBytes t.outputAddress [b] } }
    else none
  | none => none

/-- A context that no call is working on. -/
def World.idle (c : ℕ) : Option MemoryContext := if w.calls c = none then w.contexts c else none

def step : Event → Option World
  | .create => some (create pa w)
  | .start c a => (w.idle c).map fun context =>
      { w with calls := Function.update w.calls c (some (rootTable context, a)) }
  | .advance c => (w.contexts c).bind fun context =>
      (w.calls c).map fun call => advance pa w c context call.1 call.2
  | .unmapped c => (w.idle c).map (unmapped pa w c)
  | .dropHandle id => ((w.stack id).filter Stack.held).map (dropHandle w id)
  | .drop c => (w.idle c).map (drop w c)
  | .store c va b => (w.contexts c).bind (store w va b)

lemma step_create : step pa w .create = some (create pa w) := rfl

/-- The step asks the allocator for a frame. -/
def takesFrame : Event → Bool
  | .create => true
  | .unmapped _ => true
  | .advance c =>
    match w.calls c with
    | some (table, a) =>
      match table.rowByAddress a with
      | some row =>
        match (row.descriptorType w.machine.memory).1 with
        | .ok (some _) => false
        | _ => true
      | none => false
    | none => false
  | _ => false

/-- A step that asks for a frame finds the allocator's counter below the end of its range. -/
def CounterFits (e : Event) : Prop :=
  takesFrame w e = true → w.machine.allocated + pageSize < 2 ^ 64

instance (e : Event) : Decidable (CounterFits w e) := inferInstanceAs (Decidable (_ → _))

/-! ### A call as a sequence of steps -/

variable {pa} {w} {c : ℕ}

lemma put_same {s : Scope} {call : Option (TableManager × ℕ)} (hc : w.contexts c = some s.context) :
    w.put c s call = { w with machine := s.machine, calls := Function.update w.calls c call } := by
  have hup : Function.update w.contexts c (some s.context) = w.contexts := by
    rw [← hc, Function.update_eq_self]
  rw [World.put, hup]

lemma put_self {s : Scope} {call : Option (TableManager × ℕ)} :
    (w.put c s call).contexts c = some s.context := Function.update_self _ _ _

lemma put_calls {s : Scope} (call : Option (TableManager × ℕ))
    {call' : Option (TableManager × ℕ)} :
    { w.put c s call with calls := Function.update (w.put c s call).calls c call' } =
      w.put c s call' := by
  have hup : Function.update (Function.update w.calls c call) c call' =
      Function.update w.calls c call' := Function.update_idem _ _ _
  rw [World.put, hup]
  rfl

lemma put_put {s s' : Scope} {call call' : Option (TableManager × ℕ)} :
    (w.put c s call).put c s' call' = w.put c s' call' := by
  have h₁ : Function.update (Function.update w.contexts c (some s.context)) c (some s'.context) =
      Function.update w.contexts c (some s'.context) := Function.update_idem _ _ _
  have h₂ : Function.update (Function.update w.calls c call) c call' =
      Function.update w.calls c call' := Function.update_idem _ _ _
  simp only [World.put, h₁, h₂]

lemma traverseTableToTable_level {table table' : TableManager} {a : ℕ} {s s' : Scope}
    (h : traverseTableToTable pa table a s = (.ok table', s')) :
    table'.level = table.level + 1 := by
  unfold traverseTableToTable at h
  obtain ⟨row, t, -, h⟩ := Exec.bind_eq_ok.mp h
  obtain ⟨type, t', -, h⟩ := Exec.bind_eq_ok.mp h
  -- each branch ends in the same record
  rcases type with _ | _ | _ | _ <;> simp only [Exec.bind_eq_ok] at h
  · obtain ⟨_, _, -, _, _, -, _, _, -, _, _, -, h⟩ := h
    cases h
    rfl
  · obtain ⟨_, _, -, _, _, -, h⟩ := h
    cases h
    rfl
  · obtain ⟨_, _, -, _, _, -, _, _, -, _, _, -, h⟩ := h
    cases h
    rfl
  · obtain ⟨_, _, -, _, _, -, _, _, -, _, _, -, h⟩ := h
    cases h
    rfl

/-- From any table on, the steps of a call are the rest of `alloc_page`. -/
lemma run_advance (pa : PageAllocator) {a : ℕ} (n : ℕ) : ∀ (w : World) (context : MemoryContext)
    (table : TableManager), w.contexts c = some context → w.calls c = some (table, a) →
    table.level + n = levelMax →
    ∃ k, Run (step pa) w (List.replicate k (.advance c)) (w.put c
      ((traverseTables pa a (n + 1) table >>= fun t => traverseTableToPage pa t a)
        ⟨w.machine, context⟩).2 none) := by
  induction n with
  | zero =>
    intro w context table hc hcall hn
    have hlt : ¬ table.level < levelMax := by omega
    refine ⟨1, Run.single ?_⟩
    show (w.contexts c).bind _ = _
    rw [hc, hcall, traverseTables, if_neg hlt, Exec.pure_bind]
    exact congrArg some (if_neg hlt)
  | succ n ih =>
    intro w context table hc hcall hn
    have hlt : table.level < levelMax := by omega
    have hstep : step pa w (.advance c) = some (advance pa w c context table a) := by
      show (w.contexts c).bind _ = _
      rw [hc, hcall]
      rfl
    unfold advance at hstep
    rw [if_pos hlt] at hstep
    rw [traverseTables, if_pos hlt]
    rcases ht : traverseTableToTable pa table a ⟨w.machine, context⟩ with
      ⟨table' | _ | _ | _, s⟩ <;>
      rw [ht] at hstep
    · obtain ⟨k, hrun⟩ := ih (w.put c s (some (table', a))) s.context table' put_self
        (Function.update_self _ _ _) (by rw [traverseTableToTable_level ht]; omega)
      refine ⟨k + 1, Run.cons hstep ?_⟩
      rw [put_put] at hrun
      rw [Exec.bind_assoc, Exec.bind_ok ht]
      exact hrun
    · refine ⟨1, Run.single (hstep.trans ?_)⟩
      rw [Exec.bind_assoc, Exec.bind_err ht]
    · refine ⟨1, Run.single (hstep.trans ?_)⟩
      rw [Exec.bind_assoc, Exec.bind_panic ht]
    · refine ⟨1, Run.single (hstep.trans ?_)⟩
      rw [Exec.bind_assoc, Exec.bind_hang ht]

/-- **The steps of a call are `alloc_page`**: what an undisturbed call leaves behind is what
the method returns with. -/
lemma run_allocPage {a : ℕ} {context : MemoryContext} (hi : w.idle c = some context) :
    ∃ k, Run (step pa) w (.start c a :: List.replicate k (.advance c))
      (w.put c (allocPage pa a ⟨w.machine, context⟩).2 none) := by
  obtain ⟨-, hc⟩ := Option.ite_none_right_eq_some.mp hi
  obtain ⟨k, hrun⟩ := run_advance pa levelMax
    { w with calls := Function.update w.calls c (some (rootTable context, a)) } context
    (rootTable context) hc (Function.update_self _ _ _) rfl
  have hcalls : ∀ s, ({ w with calls := Function.update w.calls c (some (rootTable context, a)) } :
      World).put c s none = w.put c s none := fun s => by
    have hup : Function.update (Function.update w.calls c (some (rootTable context, a))) c none =
        Function.update w.calls c none := Function.update_idem _ _ _
    simp only [World.put, hup]
  rw [hcalls] at hrun
  dsimp only at hrun
  have hcall : allocPage pa a ⟨w.machine, context⟩ =
      (traverseTables pa a (levelMax + 1) (rootTable context) >>= fun t =>
        traverseTableToPage pa t a) ⟨w.machine, context⟩ := by
    rw [allocPage, Exec.get_bind]
  have hstart : step pa w (.start c a) =
      some { w with calls := Function.update w.calls c (some (rootTable context, a)) } := by
    show (w.idle c).map _ = _
    rw [hi]
    rfl
  rw [hcall]
  exact ⟨k, Run.cons hstart hrun⟩

/-! ### Roles -/

/-- The table at a path, found as the hardware finds it. -/
def tableAt (m : ByteMemory) (root : ℕ) : ℕ → ℕ → Option ℕ
  | 0, p => if p = 0 then some root else none
  | l + 1, p =>
    match tableAt m root l (p / rowCount) with
    | some f =>
      match decode l (m.readWord (f + 8 * (p % rowCount))) with
      | .table next _ => some next
      | _ => none
    | none => none

/-- What a frame is used for, and by which context. -/
inductive Role
  | root (c : ℕ)
  | table (c level path : ℕ)
  | page (c x : ℕ)
  | unmapped (c id : ℕ)
  deriving DecidableEq, Repr

def Role.context : Role → ℕ
  | .root c => c
  | .table c _ _ => c
  | .page c _ => c
  | .unmapped c _ => c

/-- The frame `f` has this role. -/
def HasRole (w : World) (f : ℕ) : Role → Prop
  | .root c => ∃ context, w.contexts c = some context ∧ physicalAddress context.tableL0 = f
  | .table c l p => ∃ context, w.contexts c = some context ∧ 0 < l ∧ l ≤ levelMax ∧
      tableAt w.machine.memory (physicalAddress context.tableL0) l p = some f
  | .page c x => ∃ context t, w.contexts c = some context ∧
      translate w.machine.memory (physicalAddress context.tableL0) (x * pageSize) = some t ∧
      t.outputAddress = f
  | .unmapped c id => ∃ e, w.stack id = some e ∧ e.context = c ∧ e.page.address = f

end Pimento.Contexts
