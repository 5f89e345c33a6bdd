import Mathlib.Data.List.Induction
import Mathlib.Tactic.Common

/-!
A rotating queue: the head becomes current and the current element goes to the end.

Elements may be enqueued at any time. Whoever waits at position `i` becomes current with the
`i + 1`-st rotation, whatever is enqueued in between.
-/

namespace Pimento

/-- The current element and those that wait. -/
structure Rotation (α : Type) where
  current : α
  waiting : List α
  deriving DecidableEq, Repr

namespace Rotation

inductive Op (α : Type)
  | enqueue (x : α)
  | rotate
  deriving DecidableEq, Repr

variable {α : Type} {r : Rotation α} {ops : List (Op α)} {x : α} {i : ℕ}

def enqueue (r : Rotation α) (x : α) : Rotation α := { r with waiting := r.waiting ++ [x] }

def rotate (r : Rotation α) : Rotation α where
  current := (r.waiting ++ [r.current]).head (by simp)
  waiting := (r.waiting ++ [r.current]).tail

def step (r : Rotation α) : Op α → Rotation α
  | .enqueue x => r.enqueue x
  | .rotate => r.rotate

def run (r : Rotation α) (ops : List (Op α)) : Rotation α := ops.foldl step r

/-- The number of rotations. -/
def rotations (ops : List (Op α)) : ℕ := ops.countP fun
  | .rotate => true
  | .enqueue _ => false

@[simp] lemma run_nil (r : Rotation α) : r.run [] = r := rfl

lemma run_snoc (r : Rotation α) (ops : List (Op α)) (op : Op α) :
    r.run (ops ++ [op]) = (r.run ops).step op := by simp [run]

lemma run_append (r : Rotation α) (ops ops' : List (Op α)) :
    r.run (ops ++ ops') = (r.run ops).run ops' := by simp [run]

lemma rotations_append (ops ops' : List (Op α)) :
    rotations (ops ++ ops') = rotations ops + rotations ops' := by simp [rotations]

@[simp] lemma rotations_nil : rotations ([] : List (Op α)) = 0 := rfl

@[simp] lemma rotations_enqueue (ops : List (Op α)) (x : α) :
    rotations (ops ++ [.enqueue x]) = rotations ops := by simp [rotations]

@[simp] lemma rotations_rotate (ops : List (Op α)) :
    rotations (ops ++ [.rotate]) = rotations ops + 1 := by simp [rotations]

/-- The elements in the order in which they are current, starting with the next one. -/
def line (r : Rotation α) : List α := r.waiting ++ [r.current]

lemma line_rotate (r : Rotation α) : r.rotate.current :: r.rotate.waiting = r.line :=
  List.cons_head_tail _

lemma rotate_waiting_getElem? : r.rotate.waiting[i]? = r.line[i + 1]? := by
  rw [← line_rotate, List.getElem?_cons_succ]

lemma rotate_current : some r.rotate.current = r.line[0]? := by
  rw [← line_rotate, List.getElem?_cons_zero]

lemma getElem?_line (h : r.waiting[i]? = some x) : r.line[i]? = some x := by
  rw [line, List.getElem?_append_left (List.getElem?_eq_some_iff.mp h).1, h]

/-- **Waiting.** Every rotation moves a waiting element one place forward. -/
theorem waits (h : r.waiting[i]? = some x) (hle : rotations ops ≤ i) :
    (r.run ops).waiting[i - rotations ops]? = some x := by
  induction ops using List.reverseRecOn with
  | nil => exact h
  | append_singleton ops op ih =>
    rw [run_snoc]
    cases op with
    | enqueue y =>
      rw [rotations_enqueue] at hle ⊢
      have := ih hle
      exact (List.getElem?_append_left (List.getElem?_eq_some_iff.mp this).1).trans this
    | rotate =>
      rw [rotations_rotate] at hle ⊢
      have := ih (by omega)
      refine rotate_waiting_getElem?.trans ?_
      rw [show i - (rotations ops + 1) + 1 = i - rotations ops by omega]
      exact getElem?_line this

/-- **Turn.** The element at position `i` is current after `i + 1` rotations. -/
theorem turn (h : r.waiting[i]? = some x) (heq : rotations ops = i + 1) :
    (r.run ops).current = x := by
  induction ops using List.reverseRecOn with
  | nil => simp at heq
  | append_singleton ops op ih =>
    rw [run_snoc]
    cases op with
    | enqueue y => exact ih (by simpa using heq)
    | rotate =>
      rw [rotations_rotate] at heq
      have := waits h (show rotations ops ≤ i by omega)
      rw [show i - rotations ops = 0 by omega] at this
      have hline := getElem?_line this
      rw [← rotate_current] at hline
      exact Option.some.inj hline

/-- **A full round**: from one turn of an element to the next, the elements that waited when
it gave way are current in their order, each with its own rotation. -/
theorem round (hle : rotations ops ≤ r.waiting.length) :
    some (r.rotate.run ops).current = r.line[rotations ops]? := by
  rcases hk : rotations ops with _ | k
  · -- only enqueueing so far
    have : ∀ ops : List (Op α), rotations ops = 0 →
        (r.rotate.run ops).current = r.rotate.current := by
      intro ops h0
      induction ops using List.reverseRecOn with
      | nil => rfl
      | append_singleton ops op ih =>
        cases op with
        | enqueue y =>
          rw [run_snoc]
          exact ih (by simpa using h0)
        | rotate => simp at h0
    rw [this ops hk, rotate_current]
  · have hlt : k + 1 < r.line.length := by
      rw [line, List.length_append, List.length_singleton]
      omega
    have hwait : r.rotate.waiting[k]? = some r.line[k + 1] := by
      rw [rotate_waiting_getElem?, List.getElem?_eq_getElem hlt]
    rw [turn hwait hk, List.getElem?_eq_getElem hlt]

end Rotation

end Pimento
