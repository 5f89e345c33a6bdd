import Mathlib.Tactic.Common
import Mathlib.Tactic.Ring
import Mathlib.Algebra.Order.Ring.Nat

/-!
Sparse radix trees whose nodes are placed in a store.

A position of the tree is a depth and a path, the path being read as a number in base `r`:
the child with index `i` of the position `(l, p)` is `(l + 1, r * p + i)`. A placement says
which cell of the store holds the node at each position, if there is one.
-/

namespace Pimento

/-- The cell at each depth and path. -/
abbrev Placement (φ : Type) := ℕ → ℕ → Option φ

namespace Placement

variable {φ : Type} {r n l p i x : ℕ} {P : Placement φ} {root f g : φ}

/-- The path at depth `l` towards the leaf `x` of a tree of depth `n`. -/
def pathTo (r n l x : ℕ) : ℕ := x / r ^ (n - l)

/-- The index of the child taken at depth `l` towards the leaf `x`. -/
def digit (r n l x : ℕ) : ℕ := x / r ^ (n - (l + 1)) % r

lemma pathTo_self : pathTo r n n x = x := by simp [pathTo]

lemma pathTo_zero (hx : x < r ^ n) : pathTo r n 0 x = 0 := by
  simp [pathTo, Nat.div_eq_of_lt hx]

lemma digit_lt (hr : 0 < r) : digit r n l x < r := Nat.mod_lt _ hr

lemma pathTo_succ_div (hl : l < n) : pathTo r n (l + 1) x / r = pathTo r n l x := by
  unfold pathTo
  rw [Nat.div_div_eq_div_mul, ← pow_succ, show n - (l + 1) + 1 = n - l by omega]

lemma pathTo_succ (hl : l < n) : pathTo r n (l + 1) x = r * pathTo r n l x + digit r n l x := by
  have h : digit r n l x = pathTo r n (l + 1) x % r := rfl
  rw [h, ← pathTo_succ_div hl]
  exact (Nat.div_add_mod _ _).symm

/-- The nodes form a tree of depth at most `n` below `root`, each in a cell of its own. -/
structure WellPlaced (r n : ℕ) (P : Placement φ) (root : φ) : Prop where
  root : P 0 0 = some root
  top : ∀ {p f}, P 0 p = some f → p = 0
  deep : ∀ {l p f}, P l p = some f → l ≤ n
  closed : ∀ {l p f}, P (l + 1) p = some f → ∃ g, P l (p / r) = some g
  inj : ∀ {l p l' p' f}, P l p = some f → P l' p' = some f → l = l' ∧ p = p'

/-- The placement with one more node. -/
def insert (P : Placement φ) (l p : ℕ) (f : φ) : Placement φ := fun l' p' =>
  if l' = l ∧ p' = p then some f else P l' p'

@[simp] lemma insert_self : insert P l p f l p = some f := by simp [insert]

lemma insert_of_ne {l' p' : ℕ} (h : ¬ (l' = l ∧ p' = p)) : insert P l p f l' p' = P l' p' := by
  simp [insert, h]

lemma insert_eq_some {l' p' : ℕ} (h : insert P l p f l' p' = some g) :
    (l' = l ∧ p' = p ∧ g = f) ∨ P l' p' = some g := by
  unfold insert at h
  split at h
  · rename_i hp
    exact Or.inl ⟨hp.1, hp.2, (Option.some.inj h).symm⟩
  · exact Or.inr h

/-- Only the root. -/
def single (root : φ) : Placement φ := fun l p => if l = 0 ∧ p = 0 then some root else none

lemma single_eq_some (h : single root l p = some f) : l = 0 ∧ p = 0 ∧ f = root := by
  unfold single at h
  split at h
  · rename_i hp
    exact ⟨hp.1, hp.2, (Option.some.inj h).symm⟩
  · cases h

lemma wellPlaced_single : WellPlaced r n (single root) root where
  root := by simp [single]
  top h := (single_eq_some h).2.1
  deep h := by have := (single_eq_some h).1; omega
  closed h := by have := (single_eq_some h).1; omega
  inj h h' := by
    obtain ⟨rfl, rfl, -⟩ := single_eq_some h
    obtain ⟨rfl, rfl, -⟩ := single_eq_some h'
    exact ⟨rfl, rfl⟩

namespace WellPlaced

variable (h : WellPlaced r n P root)
include h

/-- A node can be added below an existing one, in a cell that no node uses. -/
lemma insert (hl : l < n) (hparent : P l (p / r) = some g) (hfree : P (l + 1) p = none)
    (hfresh : ∀ l' p', P l' p' ≠ some f) : WellPlaced r n (insert P (l + 1) p f) root where
  root := by rw [insert_of_ne (by omega)]; exact h.root
  top hp := by
    rcases insert_eq_some hp with ⟨h0, -⟩ | hp
    · omega
    · exact h.top hp
  deep hp := by
    rcases insert_eq_some hp with ⟨rfl, -⟩ | hp
    · exact hl
    · exact h.deep hp
  closed {l' p' f'} hp := by
    -- the parent of an old node is old; the new node's parent is given
    have hold : ∃ g, P l' (p' / r) = some g := by
      rcases insert_eq_some hp with ⟨hl', rfl, -⟩ | hp
      · obtain rfl : l' = l := by omega
        exact ⟨g, hparent⟩
      · exact h.closed hp
    obtain ⟨g', hg'⟩ := hold
    by_cases heq : l' = l + 1 ∧ p' / r = p
    · rw [heq.1, heq.2, hfree] at hg'
      cases hg'
    · exact ⟨g', by rw [insert_of_ne heq, hg']⟩
  inj hp hp' := by
    rcases insert_eq_some hp with ⟨hl₁, hp₁, hf₁⟩ | hold <;>
      rcases insert_eq_some hp' with ⟨hl₂, hp₂, hf₂⟩ | hold'
    · exact ⟨hl₁.trans hl₂.symm, hp₁.trans hp₂.symm⟩
    · exact absurd (hf₁ ▸ hold') (hfresh _ _)
    · exact absurd (hf₂ ▸ hold) (hfresh _ _)
    · exact h.inj hold hold'

/-- Below a missing node there is nothing. -/
lemma none_child (hr : 0 < r) (hi : i < r) (hnone : P l p = none) :
    P (l + 1) (r * p + i) = none := by
  rcases hc : P (l + 1) (r * p + i) with _ | c
  · rfl
  · obtain ⟨g, hg⟩ := h.closed hc
    rw [Nat.mul_add_div hr, Nat.div_eq_of_lt hi, Nat.add_zero, hnone] at hg
    cases hg

/-- A walk that has missed a node misses every later one. -/
lemma none_below (hr : 0 < r) (k : ℕ) (hk : l + k ≤ n) (hnone : P l (pathTo r n l x) = none) :
    P (l + k) (pathTo r n (l + k) x) = none := by
  induction k with
  | zero => exact hnone
  | succ k ih =>
    rw [← Nat.add_assoc, pathTo_succ (by omega)]
    exact h.none_child hr (digit_lt hr) (ih (by omega))

end WellPlaced

end Placement

end Pimento
