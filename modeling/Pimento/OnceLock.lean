import Mathlib.Logic.Function.Basic
import Pimento.Exec
import Pimento.Runs

/-!
A cell that can be written to only once, and the calls that share it.

What a call does while it holds the lock of the cell is one step, and so is a read of the data
outside of it; the steps of different calls interleave. Closures work on an environment that is
not the cell.
-/

namespace Pimento

/-- A one-time initialization. Its lock is free between the steps. -/
structure Once where
  completed : Bool
  deriving DecidableEq, Repr

structure OnceLock (T : Type) where
  once : Once
  /-- `none` is memory that has not been initialized. -/
  data : Option T
  deriving DecidableEq, Repr

/-- What a call works on: the cell, the environment of the closures, the variable that the
closure of `set` has captured, and the values of the closures that have run. -/
structure OnceScope (T E : Type) where
  cell : OnceLock T
  env : E
  value : Option T
  ran : List T

namespace Once

variable {T E : Type}

def new : Once := ⟨false⟩

/-- The section of `call_once` under the lock. -/
def callOnce (f : Exec (OnceScope T E) Unit) : Exec (OnceScope T E) Unit := do
  if (← .get).cell.once.completed = false then
    f
    .modify fun s => { s with cell := { s.cell with once := ⟨true⟩ } }

def isCompleted : Exec (OnceScope T E) Bool := .gets fun s => s.cell.once.completed

end Once

namespace OnceLock

variable {T E : Type}

/-- Creates an empty cell. -/
def new : OnceLock T := ⟨.new, none⟩

/-- Whatever is in the memory of the data. -/
def assumeInitRef : Exec (OnceScope T E) (Option T) := .gets fun s => s.cell.data

/-- The section of `get_or_init` under the lock. -/
def initSection (f : Exec (OnceScope T E) T) : Exec (OnceScope T E) Unit :=
  Once.callOnce do
    let v ← f
    .modify fun s => { s with cell := { s.cell with data := some v }, ran := s.ran ++ [v] }

/-- `value.take().unwrap()`. -/
def takeValue : Exec (OnceScope T E) T := do
  match (← .get).value with
  | some v =>
    .modify fun s => { s with value := none }
    return v
  | none => .panic

/-- The closure of a caller of `get_or_init`. -/
def callerClosure (f : E → T × E) : Exec (OnceScope T E) T := fun s =>
  (.ok (f s.env).1, { s with env := (f s.env).2 })

inductive Op (T E : Type)
  | get
  | getOrInit (f : E → T × E)
  | set (value : T)

/-- What a call returns; the memory of the data is returned as it was read. -/
inductive Reply (T : Type)
  | get (r : Option (Option T))
  | getOrInit (r : Option T)
  | set (value : T) (r : Except T Unit)
  deriving DecidableEq

/-- Where a call is: before its section under the lock, after it, or at its end. -/
inductive Phase
  | start
  | initialized
  | done
  deriving DecidableEq, Repr

structure Caller (T E : Type) where
  op : Op T E
  value : Option T
  phase : Phase

/-- What happens on the cell, in order. -/
inductive Entry (T : Type)
  | ran (id : ℕ) (value : T)
  | returned (id : ℕ) (reply : Reply T)
  | panicked (id : ℕ)
  deriving DecidableEq

/-- The cell with all calls made so far. -/
structure World (T E : Type) where
  cell : OnceLock T
  env : E
  callers : ℕ → Option (Caller T E)
  history : List (Entry T)

inductive Event (T E : Type)
  | call (id : ℕ) (op : Op T E)
  | advance (id : ℕ)
  | environment (env : E)

/-- The section of a call under the lock; it returns whether the cell is initialized. -/
def lockedSection : Op T E → Exec (OnceScope T E) Bool
  | .get => Once.isCompleted
  | .getOrInit f => do
    initSection (callerClosure f)
    return true
  | .set _ => do
    initSection takeValue
    return true

/-- What a call returns once the cell is initialized. -/
def reply (value : Option T) : Op T E → Exec (OnceScope T E) (Reply T)
  | .get => do return .get (some (← assumeInitRef))
  | .getOrInit _ => do return .getOrInit (← assumeInitRef)
  | .set v => do
    let _ ← assumeInitRef
    return .set v (match value with
      | none => .ok ()
      | some v => .error v)

def World.new (env : E) : World T E := ⟨.new, env, fun _ => none, []⟩

/-- The variable that a closure captures. -/
def Op.captured : Op T E → Option T
  | .set v => some v
  | _ => none

variable (w : World T E)

/-- A call comes to the end of a step. -/
def World.put (id : ℕ) (c : Caller T E) (s : OnceScope T E) (reply : List (Reply T)) :
    World T E where
  cell := s.cell
  env := s.env
  callers := Function.update w.callers id (some { c with value := s.value })
  history := w.history ++ s.ran.map (.ran id) ++ reply.map (.returned id)

/-- The next step of a call. A panic ends it. -/
def advance (id : ℕ) (c : Caller T E) : Option (World T E) :=
  let scope : OnceScope T E := ⟨w.cell, w.env, c.value, []⟩
  let panicked (s : OnceScope T E) : World T E :=
    { w.put id { c with phase := .done } s [] with
      history := w.history ++ s.ran.map (.ran id) ++ [.panicked id] }
  match c.phase with
  | .start =>
    match lockedSection c.op scope with
    | (.ok true, s) => some (w.put id { c with phase := .initialized } s [])
    | (.ok false, s) => some (w.put id { c with phase := .done } s [.get none])
    | (_, s) => some (panicked s)
  | .initialized =>
    match reply c.value c.op scope with
    | (.ok r, s) => some (w.put id { c with phase := .done } s [r])
    | (_, s) => some (panicked s)
  | .done => none

def step : Event T E → Option (World T E)
  | .call id op =>
    match w.callers id with
    | none => some { w with
        callers := Function.update w.callers id (some ⟨op, op.captured, .start⟩) }
    | some _ => none
  | .advance id => (w.callers id).bind (advance w id)
  | .environment env => some { w with env }

end OnceLock

end Pimento
