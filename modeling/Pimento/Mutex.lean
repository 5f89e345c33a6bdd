import Mathlib.Algebra.Order.BigOperators.Group.List
import Mathlib.Algebra.Order.Ring.Nat
import Mathlib.Data.List.Perm.Subperm
import Mathlib.Logic.Function.Basic
import Pimento.Accesses
import Pimento.Runs

/-!
The spin lock, and data that is used only with it held.

Every turn of the loop of `lock`, every access to the data and every release is a step of its
own, and the steps of different callers come in any order.
-/

namespace Pimento

/-- A simple spin lock. -/
structure Lock where
  locked : Bool
  deriving DecidableEq, Repr

namespace Lock

def new : Lock := ⟨false⟩

/-- The `compare_exchange` of one turn of the loop of `lock`. -/
def exchange (l : Lock) : Bool × Lock := if l.locked then (false, l) else (true, ⟨true⟩)

def unlock (_ : Lock) : Lock := ⟨false⟩

lemma exchange_free {l : Lock} (h : l.locked = false) : l.exchange = (true, ⟨true⟩) := by
  rw [exchange, h]
  rfl

lemma exchange_taken {l : Lock} (h : l.locked = true) : l.exchange = (false, l) := by
  rw [exchange, if_pos h]

end Lock

/-- A mutual exclusion primitive for protecting shared data. -/
structure Mutex (T : Type) where
  lock : Lock
  data : T
  deriving DecidableEq, Repr

namespace Mutex

open Accesses Runs

variable {ι ω T α : Type}

def new (data : T) : Mutex T := ⟨.new, data⟩

/-- Where a caller is with a mutex: what it is about to do, or is doing, and what is left of it. -/
inductive Caller (ω T α : Type)
  | away
  | locking (op : ω)
  | holding (op : ω) (rest : Accesses T α)

/-- A mutex and its callers. -/
structure World (ι ω T α : Type) where
  mutex : Mutex T
  callers : ι → Caller ω T α
  /-- What the callers have done, in the order in which they dropped their guards. -/
  returned : List (Completed ι ω α)

namespace World

def new (data : T) : World ι ω T α := ⟨.new data, fun _ => .away, []⟩

end World

inductive Event (ι ω : Type)
  | call (i : ι) (op : ω)
  | advance (i : ι)

/-- The guard of a caller exists. -/
def Caller.Holds : Caller ω T α → Prop
  | holding _ _ => True
  | _ => False

/-- Who has the guard, and what the data are: those that the operations so far have left, or on
their way from there to what the holder will leave. -/
inductive Guarded (code : ω → Accesses T α) (w : World ι ω T α) (d : T) : Prop
  | free (unlocked : w.mutex.lock.locked = false) (data : w.mutex.data = d)
      (none : ∀ j, ¬ (w.callers j).Holds)
  | taken (i : ι) (op : ω) (rest : Accesses T α) (locked : w.mutex.lock.locked = true)
      (holds : w.callers i = .holding op rest) (data : run rest w.mutex.data = run (code op) d)
      (only : ∀ j, (w.callers j).Holds → j = i)

/-- What is known of the caller that holds the guard. -/
lemma Guarded.holder {code : ω → Accesses T α} {w : World ι ω T α} {d : T} {i : ι}
    (h : Guarded code w d) (hi : (w.callers i).Holds) :
    w.mutex.lock.locked = true ∧ ∃ op rest, w.callers i = .holding op rest ∧
      run rest w.mutex.data = run (code op) d ∧ ∀ j, (w.callers j).Holds → j = i := by
  rcases h with ⟨-, -, hnone⟩ | ⟨k, op, rest, hl, hk, hd, honly⟩
  · exact absurd hi (hnone i)
  · obtain rfl := honly i hi
    exact ⟨hl, op, rest, hk, hd, honly⟩

variable [DecidableEq ι]

/-- A caller goes on: a turn of the loop of `lock`, an access, or the release. -/
def step (code : ω → Accesses T α) (w : World ι ω T α) : Event ι ω → Option (World ι ω T α)
  | .call i op =>
    match w.callers i with
    | .away => some { w with callers := Function.update w.callers i (.locking op) }
    | _ => none
  | .advance i =>
    match w.callers i with
    | .away => none
    | .locking op =>
      let (acquired, lock) := w.mutex.lock.exchange
      some
        { w with
          mutex := { w.mutex with lock }
          callers := Function.update w.callers i
            (if acquired then .holding op (code op) else .locking op) }
    | .holding op (.access update next) =>
      some
        { w with
          mutex := { w.mutex with data := update w.mutex.data }
          callers := Function.update w.callers i (.holding op (next w.mutex.data)) }
    | .holding op (.done result) =>
      -- the guard is dropped
      some
        { mutex := { w.mutex with lock := w.mutex.lock.unlock }
          callers := Function.update w.callers i .away
          returned := w.returned ++ [⟨i, op, result⟩] }

/-- What a caller has asked for, in order. -/
def asked (i : ι) (es : List (Event ι ω)) : List ω :=
  es.filterMap fun
    | .call j op => if j = i then some op else none
    | .advance _ => none

/-- What has been done for a caller, in order. -/
def served (i : ι) (log : List (Completed ι ω α)) : List ω :=
  log.filterMap fun c => if c.caller = i then some c.op else none

/-- What a caller is waiting for. -/
def Caller.pending : Caller ω T α → List ω
  | away => []
  | locking op | holding op _ => [op]

/-- The callers have used the data one after the other, and each of them in the order in which it
asked. -/
structure Atomic (code : ω → Accesses T α) (start : T) (es : List (Event ι ω))
    (w : World ι ω T α) : Prop where
  exclusive : ∀ i j, (w.callers i).Holds → (w.callers j).Holds → i = j
  serial : ∃ d, Serial code start w.returned d ∧ Guarded code w d
  served : ∀ i, asked i es = served i w.returned ++ (w.callers i).pending

variable {code : ω → Accesses T α} {w w' : World ι ω T α} {i j : ι} {start d : T}
  {es : List (Event ι ω)} {e : Event ι ω} {op : ω} {rest : Accesses T α} {c : Caller ω T α}

/-! ### What a step does -/

lemma step_call (h : step code w (.call i op) = some w') :
    w.callers i = .away ∧
      w' = { w with callers := Function.update w.callers i (.locking op) } := by
  rw [step] at h
  split at h
  · rename_i hi
    exact ⟨hi, (Option.some.inj h).symm⟩
  · cases h

/-- A turn of the loop, an access or the release. -/
lemma step_advance (h : step code w (.advance i) = some w') :
    (∃ op, w.callers i = .locking op ∧ w.mutex.lock.locked = true ∧ w' = w) ∨
      (∃ op, w.callers i = .locking op ∧ w.mutex.lock.locked = false ∧
        w' = { w with
          mutex := { w.mutex with lock := ⟨true⟩ }
          callers := Function.update w.callers i (.holding op (code op)) }) ∨
      (∃ op update next, w.callers i = .holding op (.access update next) ∧
        w' = { w with
          mutex := { w.mutex with data := update w.mutex.data }
          callers := Function.update w.callers i (.holding op (next w.mutex.data)) }) ∨
      ∃ op result, w.callers i = .holding op (.done result) ∧
        w' = { mutex := { w.mutex with lock := ⟨false⟩ }
               callers := Function.update w.callers i .away
               returned := w.returned ++ [⟨i, op, result⟩] } := by
  rw [step] at h
  split at h
  · cases h
  · rename_i op hi
    cases hl : w.mutex.lock.locked with
    | false =>
      rw [Lock.exchange_free hl] at h
      exact .inr (.inl ⟨op, hi, rfl, (Option.some.inj h).symm⟩)
    | true =>
      rw [Lock.exchange_taken hl] at h
      have hsame : Function.update w.callers i (.locking op) = w.callers := by
        rw [← hi, Function.update_eq_self]
      refine .inl ⟨op, hi, rfl, ?_⟩
      rw [← Option.some.inj h]
      exact congrArg (World.mk w.mutex · w.returned) hsame
  · rename_i op update next hi
    exact .inr (.inr (.inl ⟨op, update, next, hi, (Option.some.inj h).symm⟩))
  · rename_i op result hi
    exact .inr (.inr (.inr ⟨op, result, hi, (Option.some.inj h).symm⟩))

/-! ### One caller after the other -/

/-- A caller that comes to be without a guard. -/
lemma holds_update (hc : ¬ c.Holds) (h : (Function.update w.callers i c j).Holds) :
    j ≠ i ∧ (w.callers j).Holds := by
  by_cases hj : j = i
  · rw [hj, Function.update_self] at h
    exact absurd h hc
  · rw [Function.update_of_ne hj] at h
    exact ⟨hj, h⟩

lemma Guarded.call (h : Guarded code w d) (hi : w.callers i = .away) :
    Guarded code { w with callers := Function.update w.callers i (.locking op) } d := by
  have hold : ∀ j, (Function.update w.callers i (.locking op) j).Holds → (w.callers j).Holds :=
    fun j hj => (holds_update id hj).2
  rcases h with ⟨hl, hd, hnone⟩ | ⟨k, op', rest, hl, hk, hd, honly⟩
  · exact .free hl hd fun j hj => hnone j (hold j hj)
  · refine .taken k op' rest hl ?_ hd fun j hj => honly j (hold j hj)
    have hne : k ≠ i := by
      rintro rfl
      rw [hk] at hi
      cases hi
    rw [← hk]
    exact Function.update_of_ne hne _ _

/-- A step keeps the order: a release is where the next operation is over. -/
lemma Guarded.advance (hs : Serial code start w.returned d) (h : Guarded code w d)
    (hstep : step code w (.advance i) = some w') :
    ∃ d', Serial code start w'.returned d' ∧ Guarded code w' d' := by
  rcases step_advance hstep with ⟨op, hi, hl, rfl⟩ | ⟨op, hi, hl, rfl⟩ |
    ⟨op, update, next, hi, rfl⟩ | ⟨op, result, hi, rfl⟩
  · exact ⟨d, hs, h⟩
  · -- the lock was free: nobody else holds a guard
    rcases h with ⟨-, rfl, hnone⟩ | ⟨k, -, -, hl', -⟩
    · refine ⟨_, hs, .taken i op _ rfl (Function.update_self ..) rfl fun j hj => ?_⟩
      by_contra hne
      have hj' : (Function.update w.callers i (.holding op (code op)) j).Holds := hj
      rw [Function.update_of_ne hne] at hj'
      exact hnone j hj'
    · rw [hl] at hl'
      cases hl'
  · obtain ⟨hl, op', rest, hop, hd, honly⟩ := h.holder (by rw [hi]; trivial)
    rw [hi] at hop
    obtain ⟨rfl, rfl⟩ := Caller.holding.inj hop
    refine ⟨d, hs, .taken i op _ hl (Function.update_self ..) hd fun j hj => ?_⟩
    by_contra hne
    have hj' : (Function.update w.callers i (.holding op (next w.mutex.data)) j).Holds := hj
    rw [Function.update_of_ne hne] at hj'
    exact hne (honly j hj')
  · obtain ⟨hl, op', rest, hop, hd, honly⟩ := h.holder (by rw [hi]; trivial)
    rw [hi] at hop
    obtain ⟨rfl, rfl⟩ := Caller.holding.inj hop
    have hresult : (run (code op) d).1 = result := by rw [← hd]; rfl
    have hdata : w.mutex.data = (run (code op) d).2 := by rw [← hd]; rfl
    refine ⟨(run (code op) d).2, ?_, .free rfl hdata fun j hj => ?_⟩
    · rw [← hresult]
      exact hs.snoc i op
    · obtain ⟨hne, hj'⟩ := holds_update id hj
      exact hne (honly j hj')

/-! ### Whole runs -/

lemma served_step (h : ∀ j, asked j es = served j w.returned ++ (w.callers j).pending)
    (hstep : step code w e = some w') (j : ι) :
    asked j (es ++ [e]) = served j w'.returned ++ (w'.callers j).pending := by
  rw [asked, List.filterMap_append, ← asked, h j, served, served]
  cases e with
  | call i op =>
    obtain ⟨hi, rfl⟩ := step_call hstep
    by_cases hj : i = j
    · subst hj
      simp [hi, Caller.pending]
    · simp [hj, Function.update_of_ne (Ne.symm hj)]
  | advance i =>
    rcases step_advance hstep with ⟨op, hi, -, rfl⟩ | ⟨op, hi, -, rfl⟩ |
      ⟨op, update, next, hi, rfl⟩ | ⟨op, result, hi, rfl⟩
    · simp
    all_goals
      by_cases hj : i = j
      · subst hj
        simp [hi, Caller.pending]
      · simp [hj, Function.update_of_ne (Ne.symm hj)]

lemma run_serial (hrun : Run (step code) (World.new start : World ι ω T α) es w) :
    ∃ d, Serial code start w.returned d ∧ Guarded code w d := by
  refine hrun.invariant (I := fun w => ∃ d, Serial code start w.returned d ∧ Guarded code w d) ?_
    ⟨start, .nil, .free rfl rfl fun _ => id⟩
  rintro w (⟨i, op⟩ | i) w' ⟨d, hs, hg⟩ hstep
  · obtain ⟨hi, rfl⟩ := step_call hstep
    exact ⟨d, hs, hg.call hi⟩
  · exact hg.advance hs hstep

/-- What every run has, for those that share data in this way. -/
lemma atomic_of_run (hrun : Run (step code) (World.new start : World ι ω T α) es w) :
    Atomic code start es w := by
  have hserved : ∀ j, asked j es = served j w.returned ++ (w.callers j).pending :=
    hrun.invariant_log (I := fun es w =>
      ∀ j, asked j es = served j w.returned ++ (w.callers j).pending)
      (fun _ _ _ _ h hstep => served_step h hstep) fun _ => rfl
  obtain ⟨d, hs, hg⟩ := run_serial hrun
  refine ⟨fun i j hi hj => ?_, ⟨d, hs, hg⟩, hserved⟩
  obtain ⟨-, -, -, -, -, honly⟩ := hg.holder hj
  exact honly i hi

/-- **Atomicity**: whatever callers do with the data while they hold their guards, and however
their turns of the loop, accesses and releases are interleaved, at most one guard exists at a time,
and the results and the data are those of whole operations, one after the other. -/
theorem run_atomic (hrun : Run (step code) (World.new start : World ι ω T α) es w) :
    Atomic code start es w := atomic_of_run hrun

/-! ### What has been asked for and what has been done -/

/-- The calls so far, by all of the callers. -/
def calls (es : List (Event ι ω)) : List (ι × ω) :=
  es.filterMap fun
    | .call i op => some (i, op)
    | .advance _ => none

/-- The operations that are over, with their callers. -/
def finished (log : List (Completed ι ω α)) : List (ι × ω) := log.map fun c => (c.caller, c.op)

/-- How often a pair occurs is how often its second part occurs beside its first. -/
lemma count_pair [DecidableEq ω] (i : ι) (op : ω) (l : List (ι × ω)) :
    l.count (i, op) = (l.filterMap fun c => if c.1 = i then some c.2 else none).count op := by
  induction l with
  | nil => rfl
  | cons c l ih =>
    obtain ⟨j, op'⟩ := c
    rw [List.count_cons, ih, List.filterMap_cons]
    by_cases hj : j = i
    · simp [hj, List.count_cons]
    · simp [hj]

lemma asked_eq (i : ι) (es : List (Event ι ω)) :
    asked i es = (calls es).filterMap fun c => if c.1 = i then some c.2 else none := by
  rw [asked, calls, List.filterMap_filterMap]
  refine congrArg (List.filterMap · es) (funext fun e => ?_)
  cases e <;> rfl

lemma served_eq (i : ι) (log : List (Completed ι ω α)) :
    served i log = (finished log).filterMap fun c => if c.1 = i then some c.2 else none := by
  rw [served, finished, List.filterMap_map]
  rfl

/-- What has been done is among what has been asked for, as often. -/
lemma Atomic.finished_subperm (h : Atomic code start es w) :
    (finished w.returned).Subperm (calls es) := by
  classical
  refine List.subperm_ext_iff.mpr fun c _ => ?_
  obtain ⟨i, op⟩ := c
  rw [count_pair, count_pair, ← asked_eq, ← served_eq, h.served i, List.count_append]
  exact Nat.le_add_right _ _

/-- What has been done amounts to no more than what has been asked for. -/
lemma Atomic.finished_sum_le (h : Atomic code start es w) (f : ι × ω → ℕ) :
    ((finished w.returned).map f).sum ≤ ((calls es).map f).sum := by
  obtain ⟨l, hperm, hsub⟩ := h.finished_subperm
  rw [← (hperm.map f).sum_nat]
  exact (hsub.map f).sum_le_sum fun _ _ => Nat.zero_le _

/-- Add to the data, and tell what they were. -/
def fetchAdd (n : ℕ) : Accesses ℕ ℕ := do
  let count ← read
  write ((← read) + n)
  return count

/-- The second caller tries the lock while the first one is between its accesses. -/
def contention : List (Event ℕ ℕ) :=
  [.call 0 5, .call 1 7, .advance 0, .advance 1, .advance 0, .advance 1, .advance 0, .advance 0,
    .advance 0, .advance 1, .advance 1, .advance 1]

theorem run_atomic_contention :
    (reach (step fetchAdd) (World.new 0) contention).returned = [⟨0, 5, 0⟩] ∧
      (reach (step fetchAdd) (World.new 0) contention).mutex = ⟨⟨true⟩, 5⟩ ∧
      Atomic fetchAdd 0 contention (reach (step fetchAdd) (World.new 0) contention) := by
  refine ⟨by decide +kernel, by decide +kernel, ?_⟩
  exact run_atomic (run_reach (by decide +kernel))

/-! ### Progress -/

/-- Only callers that have asked take part. -/
def Advances (es : List (Event ι ω)) : Prop := ∀ e ∈ es, ∃ i, e = .advance i

/-- The holder of the guard comes to its end on its own. -/
lemma can_release (hi : w.callers i = .holding op rest) :
    ∃ es w', Advances es ∧ Run (step code) w es w' ∧ w'.mutex.lock.locked = false ∧
      w'.callers = Function.update w.callers i .away := by
  induction rest generalizing w with
  | done result =>
    refine ⟨[.advance i], _, by simp [Advances], .single (by rw [step, hi]), rfl, rfl⟩
  | access update next ih =>
    have hstep : step code w (.advance i) = some { w with
        mutex := { w.mutex with data := update w.mutex.data }
        callers := Function.update w.callers i (.holding op (next w.mutex.data)) } := by
      rw [step, hi]
    obtain ⟨es, w', hes, hrun, hl, hw⟩ := ih w.mutex.data (w := { w with
        mutex := { w.mutex with data := update w.mutex.data }
        callers := Function.update w.callers i (.holding op (next w.mutex.data)) })
        (Function.update_self ..)
    refine ⟨_, w', ?_, hrun.cons hstep, hl, by rw [hw, Function.update_idem]⟩
    exact List.forall_mem_cons.mpr ⟨⟨i, rfl⟩, hes⟩

/-- A caller that finds the lock free comes to its end on its own. -/
lemma can_acquire (hi : w.callers i = .locking op) (hl : w.mutex.lock.locked = false) :
    ∃ es w', Advances es ∧ Run (step code) w es w' ∧ w'.callers i = .away := by
  have hstep : step code w (.advance i) = some { w with
      mutex := { w.mutex with lock := ⟨true⟩ }
      callers := Function.update w.callers i (.holding op (code op)) } := by
    rw [step, hi]
    dsimp only
    rw [Lock.exchange_free hl]
    rfl
  obtain ⟨es, w', hes, hrun, -, hw⟩ := can_release (i := i)
    (w := { w with
      mutex := { w.mutex with lock := ⟨true⟩ }
      callers := Function.update w.callers i (.holding op (code op)) }) (Function.update_self ..)
  refine ⟨_, w', ?_, hrun.cons hstep, by rw [hw, Function.update_self]⟩
  exact List.forall_mem_cons.mpr ⟨⟨i, rfl⟩, hes⟩

/-- **No deadlock**: at any time every call can come to its end, with no call beginning. -/
theorem every_call_returns (hrun : Run (step code) (World.new start : World ι ω T α) es w) (i : ι) :
    ∃ es' w', Advances es' ∧ Run (step code) w es' w' ∧ w'.callers i = .away := by
  obtain ⟨d, -, hg⟩ := run_serial hrun
  rcases hi : w.callers i with _ | op | ⟨op, rest⟩
  · exact ⟨[], w, by simp [Advances], .nil w, hi⟩
  · rcases hg with ⟨hl, -, -⟩ | ⟨k, op', rest, -, hk, -, -⟩
    · exact can_acquire hi hl
    · -- the holder goes first
      obtain ⟨es₁, w₁, hes₁, hrun₁, hl₁, hw₁⟩ := can_release hk
      have hne : i ≠ k := by
        rintro rfl
        rw [hi] at hk
        cases hk
      have hi₁ : w₁.callers i = .locking op := by rw [hw₁, Function.update_of_ne hne, hi]
      obtain ⟨es₂, w₂, hes₂, hrun₂, hw₂⟩ := can_acquire hi₁ hl₁
      exact ⟨es₁ ++ es₂, w₂, List.forall_mem_append.mpr ⟨hes₁, hes₂⟩, hrun₁.append hrun₂, hw₂⟩
  · obtain ⟨es', w', hes, hrun', -, hw⟩ := can_release hi
    exact ⟨es', w', hes, hrun', by rw [hw, Function.update_self]⟩

theorem every_call_returns_contention :
    ∃ es' w', Advances es' ∧
      Run (step fetchAdd) (reach (step fetchAdd) (World.new 0) contention) es' w' ∧
      w'.callers 1 = .away := by
  exact every_call_returns (run_reach (by decide +kernel)) 1

end Mutex

end Pimento
