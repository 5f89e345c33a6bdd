import Pimento.Elf
import Pimento.Overlay
import Pimento.TableTree

/-!
The segments of a program, and how the iterator over its loadable pages cuts them.

The chunks of a segment meet at page boundaries: each lies within one page, and the first
`k` of them are the first `offset k` bytes of the segment.
-/

namespace Pimento.Segments

open Address LoadablePages Overlay TableTree

/-- What a program header says that memory holds: the bytes of the file, then zeros. -/
def segmentOf (bytes : List Byte) (h : Elf64ProgramHeader) : Piece Byte where
  start := h.virtualAddress
  values :=
    if h.segmentType = programHeaderTypeLoad then
      (bytes.drop h.fileOffset).take h.fileSize ++ List.replicate (h.memorySize - h.fileSize) 0
    else []

/-- Where the page with index `k` begins in a segment at `va`. -/
def offset (va k : ℕ) : ℕ := if k = 0 then 0 else k * pageSize - va % pageSize

variable {bytes : List Byte} {h : Elf64ProgramHeader} {va k : ℕ}

lemma offset_succ (va k : ℕ) : offset va (k + 1) = (k + 1) * pageSize - va % pageSize := by
  rw [offset, if_neg (by omega)]

lemma offset_lt_succ (va k : ℕ) : offset va k < offset va (k + 1) := by
  have hmod : va % pageSize < pageSize := Nat.mod_lt _ (by decide)
  rw [offset_succ, offset]
  unfold pageSize at *
  split <;> omega

/-- A chunk ends where its page does. -/
lemma offset_page (va k : ℕ) :
    (va + offset va k) % pageSize + (offset va (k + 1) - offset va k) = pageSize := by
  rw [offset_succ, offset]
  unfold pageSize
  split
  · subst k
    omega
  · omega

lemma pageOf_offset (va k : ℕ) : pageOf (va + offset va k) = pageOf va + k := by
  unfold offset pageOf pageSize
  split <;> omega

lemma offset_lt (va : ℕ) (hk : k ≤ 2 ^ 36 + 1) : offset va k < 2 ^ 49 := by
  unfold offset pageSize
  split <;> omega

/-- The offsets as the source computes them. -/
lemma offsets_eq (hk : k ≤ 2 ^ 36) : offsets va k = (offset va k, offset va (k + 1)) := by
  have hsub : ∀ j, j ≠ 0 → j ≤ 2 ^ 36 + 1 →
      wrapSub (j * pageSize) (va % pageSize) = j * pageSize - va % pageSize := fun j hj hle => by
    unfold wrapSub wrap pageSize
    omega
  have hstart : wrap (k * pageSize) = k * pageSize := wrap_of_lt (by unfold pageSize; omega)
  have hend : wrap (k * pageSize + pageSize) = (k + 1) * pageSize := by
    rw [Nat.succ_mul, wrap_of_lt (by unfold pageSize; omega)]
  unfold offsets
  simp only [hstart, hend]
  rw [hsub (k + 1) (by omega) (by omega), ← offset_succ]
  unfold offset
  by_cases hz : k = 0
  · simp [hz]
  · simp only [hz, ne_eq, not_false_iff, if_true, if_false]
    rw [hsub k hz (by omega)]

/-- The ranges of a page of a segment at a user address. -/
lemma range_eq (ht : h.segmentType = programHeaderTypeLoad) (hva : h.virtualAddress ≤ 2 ^ 48)
    (hk : k ≤ 2 ^ 36) :
    range h k =
      if offset h.virtualAddress k < h.memorySize then
        some (⟨wrap (h.fileOffset + min (offset h.virtualAddress k) h.fileSize),
            wrap (h.fileOffset + min (offset h.virtualAddress (k + 1)) h.fileSize)⟩,
          ⟨h.virtualAddress + offset h.virtualAddress k,
            h.virtualAddress + min (offset h.virtualAddress (k + 1)) h.memorySize⟩)
      else none := by
  have hlt := offset_lt_succ h.virtualAddress k
  have hle := offset_lt h.virtualAddress (show k + 1 ≤ 2 ^ 36 + 1 by omega)
  have hstart : wrap (h.virtualAddress + min (offset h.virtualAddress k) h.memorySize) =
      h.virtualAddress + min (offset h.virtualAddress k) h.memorySize := wrap_of_lt (by omega)
  have hend : wrap (h.virtualAddress + min (offset h.virtualAddress (k + 1)) h.memorySize) =
      h.virtualAddress + min (offset h.virtualAddress (k + 1)) h.memorySize :=
    wrap_of_lt (by omega)
  unfold range
  rw [if_neg (by simp [ht])]
  simp only [offsets_eq hk, hstart, hend]
  by_cases hm : offset h.virtualAddress k < h.memorySize
  · rw [if_neg (by omega), if_pos hm, Nat.min_eq_left hm.le]
  · rw [if_pos (by omega), if_neg hm]

/-- No page of the first segment from this one on, and none of the others. -/
def Skipped : List Elf64ProgramHeader → ℕ → Prop
  | [], _ => True
  | h :: hs, k => range h k = none ∧ Skipped hs 0

/-- The iterator skips the segments that have no page left, and stops at the next one or at
the end. -/
lemma nextRange_cases : ∀ (hs : List Elf64ProgramHeader) (i k : ℕ),
    (∃ c, nextRange ⟨i, k⟩ hs = (none, c) ∧ Skipped hs k) ∨
      ∃ pre h post k' r, hs = pre ++ h :: post ∧ Skipped pre k ∧ range h k' = some r ∧
        nextRange ⟨i, k⟩ hs = (some r, ⟨i + pre.length, k'⟩) ∧ k' = if pre = [] then k else 0
  | [], i, k => Or.inl ⟨_, rfl, trivial⟩
  | h :: hs, i, k => by
    rcases hr : range h k with _ | r
    · have hnext : nextRange ⟨i, k⟩ (h :: hs) = nextRange ⟨i + 1, 0⟩ hs := by
        rw [nextRange, hr]
      rw [hnext]
      rcases nextRange_cases hs (i + 1) 0 with
        ⟨c, hc, hsk⟩ | ⟨pre, h', post, k', r, rfl, hsk, hr', hc, hk⟩
      · exact Or.inl ⟨c, hc, hr, hsk⟩
      · refine Or.inr ⟨h :: pre, h', post, k', r, rfl, ⟨hr, hsk⟩, hr', ?_, ?_⟩
        · rw [hc, List.length_cons]
          congr 2
          omega
        · rw [hk]
          simp
    · refine Or.inr ⟨[], h, hs, k, r, rfl, trivial, hr, ?_, rfl⟩
      rw [nextRange, hr]
      rfl

lemma range_not_load (ht : h.segmentType ≠ programHeaderTypeLoad) : range h k = none := by
  rw [range, if_pos ht]

lemma range_load {r : Range × Range} (hr : range h k = some r) :
    h.segmentType = programHeaderTypeLoad := by
  by_contra ht
  rw [range_not_load ht] at hr
  cases hr

/-- A page with a range: the segment goes on there. -/
lemma range_some (hva : h.virtualAddress ≤ 2 ^ 48) (hfile : h.fileOffset + h.fileSize < 2 ^ 64)
    (hk : k ≤ 2 ^ 36) {r : Range × Range} (hr : range h k = some r) :
    offset h.virtualAddress k < h.memorySize ∧
      r = (⟨h.fileOffset + min (offset h.virtualAddress k) h.fileSize,
          h.fileOffset + min (offset h.virtualAddress (k + 1)) h.fileSize⟩,
        ⟨h.virtualAddress + offset h.virtualAddress k,
          h.virtualAddress + min (offset h.virtualAddress (k + 1)) h.memorySize⟩) := by
  have hwrap : ∀ o, wrap (h.fileOffset + min o h.fileSize) = h.fileOffset + min o h.fileSize :=
    fun o => wrap_of_lt (by omega)
  rw [range_eq (range_load hr) hva hk, hwrap, hwrap] at hr
  by_cases ho : offset h.virtualAddress k < h.memorySize
  · rw [if_pos ho] at hr
    exact ⟨ho, (Option.some.inj hr).symm⟩
  · rw [if_neg ho] at hr
    cases hr

/-- A segment without a range for a page ends before it. -/
lemma range_none (ht : h.segmentType = programHeaderTypeLoad) (hva : h.virtualAddress ≤ 2 ^ 48)
    (hk : k ≤ 2 ^ 36) (hr : range h k = none) : h.memorySize ≤ offset h.virtualAddress k := by
  by_contra hlt
  rw [range_eq ht hva hk, if_pos (by omega)] at hr
  cases hr

/-- A page in user memory is one of the first `2 ^ 36` of its segment. -/
lemma index_lt (hlt : va + offset va k < 2 ^ 48) : k < 2 ^ 36 := by
  have hpage := pageOf_offset va k
  have hdiv : (va + offset va k) / 4096 < 2 ^ 36 := Nat.div_lt_of_lt_mul hlt
  unfold pageOf pageSize at hpage
  omega

/-! ### The number of rounds

A round is a page of a segment, and a segment has at most `b` pages. What is left at the page `k`
of the first of the segments `hs` takes `hs.length * b - k` rounds, and one to find the end. -/

section Rounds

variable {b n k k' : ℕ} {hs pre post : List Elf64ProgramHeader}

lemma rounds_pos (hnil : hs = [] → k = 0) (hk : k ≤ b) (hn : hs.length * b + 1 ≤ n + k) :
    0 < n := by
  cases hs with
  | nil =>
    rw [hnil rfl, List.length_nil, Nat.zero_mul] at hn
    omega
  | cons h hs =>
    rw [List.length_cons, Nat.succ_mul] at hn
    omega

/-- The rounds that are left when the iterator has skipped segments and taken a page. -/
lemma rounds_left (hk : k ≤ b) (hk' : k' = if pre = [] then k else 0)
    (hn : (pre ++ post).length * b + 1 ≤ n + 1 + k) : post.length * b + 1 ≤ n + (k' + 1) := by
  rw [List.length_append, Nat.add_mul] at hn
  cases pre with
  | nil =>
    rw [if_pos rfl] at hk'
    rw [List.length_nil, Nat.zero_mul] at hn
    omega
  | cons h pre =>
    rw [List.length_cons, Nat.succ_mul] at hn
    omega

end Rounds

/-! ### The contents of a chunk -/

/-- What memory holds of a segment: as much of its part of the file as it has room for, then
zeros. -/
def loaded (bytes : List Byte) (h : Elf64ProgramHeader) : List Byte :=
  (bytes.drop h.fileOffset).take (min h.fileSize h.memorySize) ++
    List.replicate (h.memorySize - h.fileSize) 0

lemma segmentOf_values (ht : h.segmentType = programHeaderTypeLoad)
    (hsize : h.fileSize ≤ h.memorySize) : (segmentOf bytes h).values = loaded bytes h := by
  rw [loaded, Nat.min_eq_left hsize]
  exact if_pos ht

lemma loaded_length (hfile : h.fileOffset + h.fileSize ≤ bytes.length) :
    (loaded bytes h).length = h.memorySize := by
  rw [loaded, List.length_append, List.length_take, List.length_drop, List.length_replicate]
  omega

lemma segmentOf_length (ht : h.segmentType = programHeaderTypeLoad)
    (hfile : h.fileOffset + h.fileSize ≤ bytes.length) (hsize : h.fileSize ≤ h.memorySize) :
    (segmentOf bytes h).values.length = h.memorySize := by
  rw [segmentOf_values ht hsize, loaded_length hfile]

lemma resize_length {n : ℕ} : (resize bytes n).length = n := by
  rw [resize, List.length_append, List.length_take, List.length_replicate]
  omega

/-- What is read and padded for a chunk is that part of the segment. -/
lemma chunk_eq (hfile : h.fileOffset + h.fileSize ≤ bytes.length)
    {o e : ℕ} (ho : o < h.memorySize) (he : o < e) :
    resize ((bytes.drop (h.fileOffset + min o h.fileSize)).take
        (min e h.fileSize - min o h.fileSize)) (min e h.memorySize - o) =
      ((loaded bytes h).drop o).take (min e h.memorySize - o) := by
  refine List.ext_getElem? fun i => ?_
  have hfull : ((bytes.drop h.fileOffset).take (min h.fileSize h.memorySize)).length =
      min h.fileSize h.memorySize := by
    rw [List.length_take, List.length_drop]
    omega
  have hread : ((bytes.drop (h.fileOffset + min o h.fileSize)).take
      (min e h.fileSize - min o h.fileSize)).length = min e h.fileSize - min o h.fileSize := by
    rw [List.length_take, List.length_drop]
    omega
  simp only [loaded, resize, List.getElem?_append, List.getElem?_take, List.getElem?_drop, hfull,
    hread, List.length_take, List.getElem?_replicate]
  by_cases hi : i < min e h.memorySize - o
  · rcases Nat.lt_or_ge (o + i) h.fileSize with hlt | hge
    · rw [if_pos (by omega), if_pos (by omega), if_pos (by omega), if_pos hi, if_pos (by omega),
        if_pos (by omega)]
      congr 1
      omega
    · rw [if_neg (by omega), if_pos (by omega), if_pos hi, if_neg (by omega), if_pos (by omega)]
  · rw [if_neg (by omega), if_neg (by omega), if_neg hi]

end Pimento.Segments
