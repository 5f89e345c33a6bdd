import Mathlib.Tactic.Common

/-!
Code that looks at data and changes it, one access at a time.

Others may use the data between two accesses. What such code does on its own is one function of
the data, and a history of several of them is compared with whole ones, one after the other.
-/

namespace Pimento

/-- A computation on data of type `δ`, as the tree of its accesses. -/
inductive Accesses (δ α : Type)
  | done (a : α)
  | access (update : δ → δ) (next : δ → Accesses δ α)

namespace Accesses

variable {ι ω δ α β : Type}

/-- All of the accesses, with no other in between. -/
def run : Accesses δ α → δ → α × δ
  | done a, d => (a, d)
  | access update next, d => run (next d) (update d)

def bind : Accesses δ α → (α → Accesses δ β) → Accesses δ β
  | done a, f => f a
  | access update next, f => access update fun d => bind (next d) f

instance monad : Monad (Accesses δ) where
  pure := done
  bind := bind

def read : Accesses δ δ := access id done

def write (d : δ) : Accesses δ Unit := access (fun _ => d) fun _ => done ()

@[simp] lemma run_pure (a : α) (d : δ) : run (pure a : Accesses δ α) d = (a, d) := rfl

@[simp] lemma run_read_bind (f : δ → Accesses δ α) (d : δ) : run (read >>= f) d = run (f d) d := rfl

@[simp] lemma run_write_bind (d d' : δ) (f : Unit → Accesses δ α) :
    run (write d' >>= f) d = run (f ()) d' := rfl

lemma run_ite (c : Prop) [Decidable c] (x y : Accesses δ α) (d : δ) :
    run (if c then x else y) d = if c then run x d else run y d := by
  split <;> rfl

/-- One computation runs after the other. -/
@[simp] lemma run_bind (x : Accesses δ α) (f : α → Accesses δ β) (d : δ) :
    run (x >>= f) d = run (f (run x d).1) (run x d).2 := by
  induction x generalizing d with
  | done a => rfl
  | access update next ih => exact ih d (update d)

/-- An operation that has come to its end. -/
structure Completed (ι ω α : Type) where
  caller : ι
  op : ω
  result : α
  deriving DecidableEq, Repr

/-- The operations have run as a whole, one after the other, and had these results. -/
inductive Serial (code : ω → Accesses δ α) (start : δ) : List (Completed ι ω α) → δ → Prop
  | nil : Serial code start [] start
  | snoc {log : List (Completed ι ω α)} {d : δ} (h : Serial code start log d) (caller : ι)
      (op : ω) :
      Serial code start (log ++ [⟨caller, op, (run (code op) d).1⟩]) (run (code op) d).2

variable {code : ω → Accesses δ α} {start d : δ} {log : List (Completed ι ω α)}

/-- **Serial rule.** What holds at the start and is kept by every operation as a whole holds of
what the operations have returned and left. -/
theorem Serial.invariant {I : List (Completed ι ω α) → δ → Prop} (h : Serial code start log d)
    (hstart : I [] start)
    (hsnoc : ∀ log d caller op, I log d →
      I (log ++ [⟨caller, op, (run (code op) d).1⟩]) (run (code op) d).2) : I log d := by
  induction h with
  | nil => exact hstart
  | snoc _ caller op ih => exact hsnoc _ _ caller op ih

end Accesses

end Pimento
