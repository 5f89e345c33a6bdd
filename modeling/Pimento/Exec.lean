import Mathlib.Tactic.Common

/-!
Computations on a state that may fail, panic or never return.

A function returning `Result<T, ()>` ends with a value or with `Err(())`; it may also panic
or loop forever. The state is kept in every case, so what a failed call did stays visible.
-/

namespace Pimento

/-- How a call ends. -/
inductive Outcome (α : Type)
  | ok (a : α)
  | err
  | panic
  | hang
  deriving DecidableEq, Repr

/-- A computation on the state `σ`. -/
def Exec (σ α : Type) : Type := σ → Outcome α × σ

namespace Exec

variable {σ τ α β : Type}

instance : Monad (Exec σ) where
  pure a := fun s => (.ok a, s)
  bind x f := fun s =>
    match x s with
    | (.ok a, s') => f a s'
    | (.err, s') => (.err, s')
    | (.panic, s') => (.panic, s')
    | (.hang, s') => (.hang, s')

/-- `Err(())`. -/
def err : Exec σ α := fun s => (.err, s)

/-- A failed assertion, an `unwrap` of nothing or an index out of range. -/
def panic : Exec σ α := fun s => (.panic, s)

/-- A loop that has used up its bound on the number of iterations. -/
def hang : Exec σ α := fun s => (.hang, s)

def get : Exec σ σ := fun s => (.ok s, s)

def gets (f : σ → α) : Exec σ α := fun s => (.ok (f s), s)

def modify (f : σ → σ) : Exec σ Unit := fun s => (.ok (), f s)

/-- `Option::ok_or(())?`. -/
def okOr : Option α → Exec σ α
  | some a => pure a
  | none => err

/-- `if !b { return Err(()) }`. -/
def guard (b : Bool) : Exec σ Unit := if b then pure () else err

/-- `Result::ok`: an error becomes a value. -/
def ok (x : Exec σ α) : Exec σ (Option α) := fun s =>
  match x s with
  | (.ok a, s') => (.ok (some a), s')
  | (.err, s') => (.ok none, s')
  | (.panic, s') => (.panic, s')
  | (.hang, s') => (.hang, s')

/-- Run a computation on a part of the state. -/
def zoom (view : σ → τ) (put : τ → σ → σ) (x : Exec τ α) : Exec σ α := fun s =>
  ((x (view s)).1, put (x (view s)).2 s)

@[simp] lemma pure_apply (a : α) (s : σ) : (pure a : Exec σ α) s = (.ok a, s) := rfl
@[simp] lemma err_apply (s : σ) : (err : Exec σ α) s = (.err, s) := rfl
@[simp] lemma gets_apply (f : σ → α) (s : σ) : gets f s = (.ok (f s), s) := rfl
@[simp] lemma modify_apply (f : σ → σ) (s : σ) : modify f s = (.ok (), f s) := rfl
@[simp] lemma okOr_some (a : α) : (okOr (some a) : Exec σ α) = pure a := rfl
@[simp] lemma okOr_none : (okOr none : Exec σ α) = err := rfl
@[simp] lemma guard_true : (guard true : Exec σ Unit) = pure () := rfl
@[simp] lemma guard_false : (guard false : Exec σ Unit) = err := rfl

lemma bind_apply (x : Exec σ α) (f : α → Exec σ β) (s : σ) :
    (x >>= f) s = match x s with
      | (.ok a, s') => f a s'
      | (.err, s') => (.err, s')
      | (.panic, s') => (.panic, s')
      | (.hang, s') => (.hang, s') := rfl

/-- A step that succeeds hands its value and its state on. -/
lemma bind_ok {x : Exec σ α} {f : α → Exec σ β} {s t : σ} {a : α} (h : x s = (.ok a, t)) :
    (x >>= f) s = f a t := by
  rw [bind_apply, h]

lemma bind_err {x : Exec σ α} {f : α → Exec σ β} {s t : σ} (h : x s = (.err, t)) :
    (x >>= f) s = (.err, t) := by
  rw [bind_apply, h]

lemma bind_panic {x : Exec σ α} {f : α → Exec σ β} {s t : σ} (h : x s = (.panic, t)) :
    (x >>= f) s = (.panic, t) := by
  rw [bind_apply, h]

lemma bind_hang {x : Exec σ α} {f : α → Exec σ β} {s t : σ} (h : x s = (.hang, t)) :
    (x >>= f) s = (.hang, t) := by
  rw [bind_apply, h]

lemma ok_of_ok {x : Exec σ α} {s t : σ} {a : α} (h : x s = (.ok a, t)) :
    ok x s = (.ok (some a), t) := by
  rw [ok, h]

lemma ok_of_err {x : Exec σ α} {s t : σ} (h : x s = (.err, t)) : ok x s = (.ok none, t) := by
  rw [ok, h]

lemma bind_assoc {γ : Type} (x : Exec σ α) (f : α → Exec σ β) (g : β → Exec σ γ) :
    (x >>= f >>= g) = x >>= fun a => f a >>= g := by
  funext s
  simp only [bind_apply]
  rcases x s with ⟨_ | _ | _ | _, t⟩ <;> rfl

@[simp] lemma pure_bind (a : α) (f : α → Exec σ β) : (pure a >>= f : Exec σ β) = f a := rfl

@[simp] lemma get_bind (f : σ → Exec σ β) (s : σ) : (get >>= f) s = f s s := rfl

@[simp] lemma gets_bind (g : σ → α) (f : α → Exec σ β) (s : σ) : (gets g >>= f) s = f (g s) s :=
  rfl

@[simp] lemma modify_bind (g : σ → σ) (f : Unit → Exec σ β) (s : σ) :
    (modify g >>= f) s = f () (g s) := rfl

@[simp] lemma err_bind (f : α → Exec σ β) : (err >>= f : Exec σ β) = err := rfl

lemma guard_bind (b : Bool) (f : Unit → Exec σ β) (s : σ) :
    (guard b >>= f) s = if b then f () s else (.err, s) := by
  cases b <;> rfl

lemma eq_of_fst {p : Outcome α × σ} {a : Outcome α} (h : p.1 = a) : p = (a, p.2) := by
  rw [← h]

/-- A sequence succeeds exactly when both of its parts do. -/
lemma bind_eq_ok {x : Exec σ α} {f : α → Exec σ β} {s s' : σ} {b : β} :
    (x >>= f) s = (.ok b, s') ↔ ∃ a t, x s = (.ok a, t) ∧ f a t = (.ok b, s') := by
  rw [bind_apply]
  rcases x s with ⟨_ | _ | _ | _, t⟩ <;> simp

/-! ### Loops -/

/-- `for i in 0..n`. -/
def forRange : ℕ → (ℕ → Exec σ Unit) → Exec σ Unit
  | 0, _ => pure ()
  | n + 1, f => do
    forRange n f
    f n

/-- **Loop rule**: where every round succeeds and takes the invariant for its index to that for
the next, the loop succeeds with the invariant for its end. -/
theorem forRange_spec {f : ℕ → Exec σ Unit} {I : ℕ → σ → Prop} {n : ℕ} {s : σ} (h : I 0 s)
    (hstep : ∀ i < n, ∀ s, I i s → ∃ t, f i s = (.ok (), t) ∧ I (i + 1) t) :
    ∃ t, forRange n f s = (.ok (), t) ∧ I n t := by
  induction n with
  | zero => exact ⟨s, rfl, h⟩
  | succ n ih =>
    obtain ⟨t, ht, hit⟩ := ih fun i hi => hstep i (by omega)
    obtain ⟨u, hu, hiu⟩ := hstep n (by omega) t hit
    exact ⟨u, by rw [forRange, bind_ok ht, hu], hiu⟩

/-! ### Invariants -/

/-- The computation keeps a property of the state, however it ends. -/
def Keeps (J : σ → Prop) (x : Exec σ α) : Prop := ∀ s, J s → J (x s).2

section Keeps

variable {J : σ → Prop}

lemma keeps_pure (a : α) : Keeps J (pure a : Exec σ α) := fun _ h => h

lemma keeps_get : Keeps J (get : Exec σ σ) := fun _ h => h

lemma keeps_modify {f : σ → σ} (h : ∀ s, J s → J (f s)) : Keeps J (modify f) := h

lemma keeps_zoom {view : σ → τ} {put : τ → σ → σ} {x : Exec τ α} (h : ∀ t s, J s → J (put t s)) :
    Keeps J (zoom view put x) := fun s hs => h _ s hs

lemma keeps_err : Keeps J (err : Exec σ α) := fun _ h => h

lemma keeps_okOr (a : Option α) : Keeps J (okOr a : Exec σ α) := by
  cases a
  · exact keeps_err
  · exact keeps_pure _

lemma keeps_guard (b : Bool) : Keeps J (guard b : Exec σ Unit) := by
  cases b
  · exact keeps_err
  · exact keeps_pure _

lemma Keeps.bind {x : Exec σ α} {f : α → Exec σ β} (hx : Keeps J x) (hf : ∀ a, Keeps J (f a)) :
    Keeps J (x >>= f) := by
  intro s h
  have h' := hx s h
  rw [bind_apply]
  rcases hxs : x s with ⟨a | _ | _ | _, t⟩ <;> rw [hxs] at h'
  · exact hf a t h'
  · exact h'
  · exact h'
  · exact h'

lemma Keeps.ok {x : Exec σ α} (hx : Keeps J x) : Keeps J (ok x) := by
  intro s h
  have h' := hx s h
  unfold Exec.ok
  rcases hxs : x s with ⟨a | _ | _ | _, t⟩ <;> rw [hxs] at h' <;> exact h'

end Keeps

end Exec

end Pimento
