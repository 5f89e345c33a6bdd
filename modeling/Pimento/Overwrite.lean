import Mathlib.Data.List.Basic
import Mathlib.Tactic.Common

/-!
Overwriting a part of a sequence.

What is written may start after the end of the sequence; the gap is filled.
-/

namespace Pimento

variable {α : Type} (fill : α) (l : List α) (q : ℕ) (b : List α)

/-- The sequence with the elements from `q` on overwritten. -/
def overwrite : List α :=
  (List.range (max l.length (q + b.length))).map fun i =>
    if q ≤ i ∧ i < q + b.length then b[i - q]?.getD fill else l[i]?.getD fill

@[simp] lemma length_overwrite :
    (overwrite fill l q b).length = max l.length (q + b.length) := by
  simp [overwrite]

variable {fill l q b}

lemma getElem?_overwrite {i : ℕ} (hi : i < max l.length (q + b.length)) :
    (overwrite fill l q b)[i]? =
      some (if q ≤ i ∧ i < q + b.length then b[i - q]?.getD fill else l[i]?.getD fill) := by
  simp [overwrite, List.getElem?_range hi]

/-- What was written is read back. -/
lemma take_drop_overwrite : ((overwrite fill l q b).drop q).take b.length = b := by
  refine List.ext_getElem? fun i => ?_
  by_cases hi : i < b.length
  · have hlt : q + i < max l.length (q + b.length) := by omega
    rw [List.getElem?_take_of_lt hi, List.getElem?_drop, getElem?_overwrite hlt,
      if_pos ⟨by omega, by omega⟩, Nat.add_sub_cancel_left, List.getElem?_eq_getElem hi,
      Option.getD_some]
  · rw [List.getElem?_eq_none (by simp; omega), List.getElem?_eq_none (by omega)]

variable (fill l q b) in
/-- Overwriting in place, after the sequence was filled up as far as it is written to. -/
lemma splice_eq_overwrite {padded : List α}
    (hp : padded = l ++ List.replicate (q + b.length - l.length) fill) :
    padded.take q ++ b ++ padded.drop (q + b.length) = overwrite fill l q b := by
  have hlen : padded.length = max l.length (q + b.length) := by
    rw [hp, List.length_append, List.length_replicate]
    omega
  have hget : ∀ i, i < padded.length → padded[i]? = some (l[i]?.getD fill) := by
    intro i hi
    rcases Nat.lt_or_ge i l.length with h | h
    · rw [hp, List.getElem?_append_left h, List.getElem?_eq_getElem h, Option.getD_some]
    · rw [hp, List.getElem?_append_right h, List.getElem?_replicate,
        if_pos (by omega), List.getElem?_eq_none h, Option.getD_none]
  refine List.ext_getElem? fun i => ?_
  by_cases hi : i < max l.length (q + b.length)
  · rw [getElem?_overwrite hi, List.append_assoc]
    have htake : (padded.take q).length = q := by
      rw [List.length_take]
      omega
    rcases Nat.lt_or_ge i q with hq | hq
    · rw [List.getElem?_append_left (by omega), List.getElem?_take_of_lt hq, if_neg (by omega),
        hget i (by omega)]
    · rw [List.getElem?_append_right (by omega), htake]
      rcases Nat.lt_or_ge i (q + b.length) with hb | hb
      · have hib : i - q < b.length := by omega
        rw [List.getElem?_append_left hib, if_pos ⟨hq, hb⟩, List.getElem?_eq_getElem hib,
          Option.getD_some]
      · rw [List.getElem?_append_right (by omega), List.getElem?_drop, if_neg (by omega),
          ← hget i (by omega)]
        congr 1
        omega
  · rw [List.getElem?_eq_none (by simp; omega), List.getElem?_eq_none (by simp; omega)]

end Pimento
