import Mathlib.Data.Finset.Card
import Mathlib.Tactic.Common

/-!
Pieces written one after the other over a paged space.

A piece puts a list of values from an address on. The last write of an address wins. A write
brings the page of its address into being, and the addresses of such a page that nothing has
written read as a default value.
-/

namespace Pimento

/-- A list of values from an address on. -/
structure Piece (β : Type) where
  start : ℕ
  values : List β
  deriving DecidableEq, Repr

namespace Piece

variable {β κ : Type}

/-- What the piece puts at an address. -/
def get? (p : Piece β) (a : ℕ) : Option β :=
  if p.start ≤ a then p.values[a - p.start]? else none

/-- The pages of the addresses of a piece. -/
def pages (page : ℕ → κ) (p : Piece β) : List κ :=
  (List.range p.values.length).map fun i => page (p.start + i)

variable {p : Piece β} {page : ℕ → κ} {x : κ} {a v : ℕ} {xs ys : List β}

lemma get?_eq_none : p.get? a = none ↔ a < p.start ∨ p.start + p.values.length ≤ a := by
  unfold get?
  split
  · rw [List.getElem?_eq_none_iff]
    omega
  · simp only [true_iff]
    omega

lemma get?_nil : (⟨v, []⟩ : Piece β).get? a = none := by simp [get?]

lemma get?_append : (⟨v, xs ++ ys⟩ : Piece β).get? a =
    ((⟨v + xs.length, ys⟩ : Piece β).get? a).or ((⟨v, xs⟩ : Piece β).get? a) := by
  simp only [get?]
  rcases Nat.lt_or_ge a v with h | h
  · rw [if_neg (by omega), if_neg (by omega), if_neg (by omega)]
    rfl
  · rw [if_pos h, if_pos h]
    rcases Nat.lt_or_ge a (v + xs.length) with h' | h'
    · rw [if_neg (by omega), List.getElem?_append_left (by omega)]
      rfl
    · rw [if_pos h', List.getElem?_append_right (by omega),
        List.getElem?_eq_none (l := xs) (by omega), Option.or_none]
      congr 1
      omega

lemma mem_pages : x ∈ p.pages page ↔ ∃ i < p.values.length, page (p.start + i) = x := by
  simp [pages]

lemma mem_pages_append : x ∈ (⟨v, xs ++ ys⟩ : Piece β).pages page ↔
    x ∈ (⟨v, xs⟩ : Piece β).pages page ∨ x ∈ (⟨v + xs.length, ys⟩ : Piece β).pages page := by
  simp only [mem_pages, List.length_append]
  constructor
  · rintro ⟨i, hi, hx⟩
    rcases Nat.lt_or_ge i xs.length with h | h
    · exact Or.inl ⟨i, h, hx⟩
    · refine Or.inr ⟨i - xs.length, by omega, ?_⟩
      rw [← hx]
      congr 1
      omega
  · rintro (⟨i, hi, hx⟩ | ⟨i, hi, hx⟩)
    · exact ⟨i, by omega, hx⟩
    · exact ⟨xs.length + i, by omega, by rw [← hx, Nat.add_assoc]⟩

lemma pages_of_same (h : ∀ i < p.values.length, page (p.start + i) = page p.start)
    (hne : p.values ≠ []) : x ∈ p.pages page ↔ x = page p.start := by
  rw [mem_pages]
  constructor
  · rintro ⟨i, hi, rfl⟩
    exact h i hi
  · rintro rfl
    exact ⟨0, List.length_pos_iff.mpr hne, rfl⟩

end Piece

namespace Overlay

variable {β κ : Type}

/-- The value of the last piece that covers the address. -/
def last : List (Piece β) → ℕ → Option β
  | [], _ => none
  | p :: ps, a => (last ps a).or (p.get? a)

variable [DecidableEq κ] (page : ℕ → κ) (zero : β)

/-- The pages that the pieces touch. -/
def touched (ps : List (Piece β)) : Finset κ := (ps.flatMap (Piece.pages page)).toFinset

/-- What the pieces leave at an address. -/
def image (ps : List (Piece β)) (a : ℕ) : Option β :=
  (last ps a).or (if page a ∈ touched page ps then some zero else none)

/-- One more write into a page. -/
def place (m : ℕ → Option β) (p : Piece β) (a : ℕ) : Option β :=
  (p.get? a).or (if page a = page p.start then some ((m a).getD zero) else m a)

variable {page zero} {ps : List (Piece β)} {p : Piece β} {x : κ} {a v : ℕ} {xs ys : List β}

lemma last_append (qs : List (Piece β)) : last (ps ++ qs) a = (last qs a).or (last ps a) := by
  induction ps with
  | nil => simp [last]
  | cons p ps ih => simp [last, ih, Option.or_assoc]

lemma last_snoc : last (ps ++ [p]) a = (p.get? a).or (last ps a) := by
  rw [last_append]
  simp [last]

lemma mem_touched : x ∈ touched page ps ↔ ∃ p ∈ ps, x ∈ p.pages page := by
  simp [touched]

lemma mem_touched_snoc : x ∈ touched page (ps ++ [p]) ↔
    x ∈ touched page ps ∨ x ∈ p.pages page := by
  simp [touched]

lemma image_eq_none : image page zero [] a = none := by simp [image, last, touched]

/-- An empty piece leaves nothing. -/
lemma image_empty : image page zero (ps ++ [⟨v, []⟩]) a = image page zero ps a := by
  simp [image, last_snoc, Piece.get?_nil, mem_touched_snoc, Piece.mem_pages]

/-- Cutting a piece in two changes nothing. -/
lemma image_split : image page zero (ps ++ [⟨v, xs ++ ys⟩]) a =
    image page zero ((ps ++ [⟨v, xs⟩]) ++ [⟨v + xs.length, ys⟩]) a := by
  have hpages : page a ∈ touched page (ps ++ [⟨v, xs ++ ys⟩]) ↔
      page a ∈ touched page ((ps ++ [⟨v, xs⟩]) ++ [⟨v + xs.length, ys⟩]) := by
    rw [mem_touched_snoc, mem_touched_snoc, mem_touched_snoc, Piece.mem_pages_append, or_assoc]
  have hlast : last (ps ++ [⟨v, xs ++ ys⟩]) a =
      last ((ps ++ [⟨v, xs⟩]) ++ [⟨v + xs.length, ys⟩]) a := by
    rw [last_snoc, last_snoc, last_snoc, Piece.get?_append, Option.or_assoc]
  simp only [image, hpages, hlast]

/-- **A piece within one page** is one more write into that page. -/
theorem image_place (h : ∀ i < p.values.length, page (p.start + i) = page p.start)
    (hne : p.values ≠ []) :
    image page zero (ps ++ [p]) a = place page zero (image page zero ps) p a := by
  have hmem : page a ∈ touched page (ps ++ [p]) ↔
      page a ∈ touched page ps ∨ page a = page p.start := by
    rw [mem_touched_snoc, Piece.pages_of_same h hne]
  simp only [image, place, last_snoc, hmem, Option.or_assoc]
  congr 1
  by_cases hx : page a = page p.start
  · rw [if_pos hx, if_pos (Or.inr hx)]
    rcases last ps a with _ | b
    · by_cases ht : page a ∈ touched page ps <;> simp [ht]
    · rfl
  · simp [hx]

end Overlay

end Pimento
