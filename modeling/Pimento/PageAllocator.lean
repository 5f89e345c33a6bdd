import Mathlib.Data.Finset.Card
import Mathlib.Data.Finset.Range
import Pimento.Address
import Pimento.ByteMemory
import Pimento.Exec

/-!
The page allocator: a counter that moves from frame to frame and never back.
-/

namespace Pimento

open Address

/-- The constant part of an allocator. -/
structure PageAllocator where
  capacity : ℕ
  /-- Half-open ranges of physical addresses. -/
  reservedRanges : List (ℕ × ℕ)
  deriving DecidableEq, Repr

/-- Memory, the counter behind the allocator's mutex and the counter of address space ids. -/
structure Machine where
  memory : ByteMemory
  allocated : ℕ
  asidCounter : BitVec 16

/-- An allocated page. -/
structure PageAllocation where
  address : ℕ
  ptr : ℕ
  deriving DecidableEq, Repr

namespace PageAllocation

/-- The virtual address of the allocated page. -/
def page (a : PageAllocation) : ℕ := a.ptr

end PageAllocation

namespace PageAllocator

variable (pa : PageAllocator)

/-- `Range::contains`. -/
def contains (range : ℕ × ℕ) (x : ℕ) : Bool := range.1 ≤ x && x < range.2

/-- The test of a frame against one reserved range. -/
def intersects (allocStart : ℕ) (reserved : ℕ × ℕ) : Bool :=
  let allocRange := (allocStart, wrap (allocStart + pageSize))
  contains allocRange reserved.1 || contains allocRange (wrap (reserved.2 + (2 ^ 64 - 1))) ||
    contains reserved allocRange.1 || contains reserved (wrap (allocRange.2 + (2 ^ 64 - 1)))

/-- The retry loop, on the counter; it returns the start of the frame it settles on. -/
def retry : ℕ → Exec ℕ ℕ
  | 0 => .hang
  | n + 1 => do
    let allocStart ← .get
    .modify fun allocated => wrap (allocated + pageSize)
    if (← .get) > pa.capacity then .err
    else if pa.reservedRanges.any (intersects allocStart) then retry n
    else return allocStart

/-- A bound on the iterations: the counter takes at most `2 ^ 52` values, so a longer run of
the loop would go round for ever. -/
def retryBound : ℕ := 2 ^ 52 + 1

def alloc : Exec Machine PageAllocation := do
  let allocStart ← .zoom Machine.allocated (fun a s => { s with allocated := a })
    (retry pa retryBound)
  let ptr := virtualAddress allocStart
  .modify fun s => { s with memory := s.memory.clear (physicalAddress ptr) pageSize }
  return ⟨allocStart, ptr⟩

/-- The page is cleared and stays allocated. -/
def dealloc (page : PageAllocation) : Exec Machine Unit :=
  .modify fun s => { s with memory := s.memory.clear (physicalAddress page.ptr) pageSize }

/-- The frame with this number is free from the counter value `a` on. -/
def isFree (a i : ℕ) : Prop :=
  a ≤ pageSize * i ∧ ¬ pa.reservedRanges.any (intersects (pageSize * i))

instance (a i : ℕ) : Decidable (isFree pa a i) := inferInstanceAs (Decidable (_ ∧ _))

/-- How many frames are free from the counter value `a` on. -/
def freeFrames (a : ℕ) : ℕ :=
  ((Finset.range (pa.capacity / pageSize)).filter fun i => isFree pa a i).card

variable {pa}

/-- The test of a frame against a non-empty range is exact. -/
lemma intersects_iff {f : ℕ} {range : ℕ × ℕ} (hf : f + pageSize < 2 ^ 64)
    (hne : range.1 < range.2) (hend : range.2 < 2 ^ 64) :
    intersects f range = true ↔ range.1 < f + pageSize ∧ f < range.2 := by
  have hps : pageSize = 4096 := rfl
  have h1 : wrap (f + pageSize) = f + pageSize := wrap_of_lt hf
  have h2 : wrap (range.2 + (2 ^ 64 - 1)) = range.2 - 1 := by unfold wrap; omega
  have h3 : wrap (f + pageSize + (2 ^ 64 - 1)) = f + pageSize - 1 := by unfold wrap; omega
  simp only [intersects, contains, h1, h2, h3, Bool.or_eq_true, Bool.and_eq_true,
    decide_eq_true_eq]
  omega

/-! ### The frames that are left -/

lemma freeFrames_mono {a b : ℕ} (h : a ≤ b) : freeFrames pa b ≤ freeFrames pa a := by
  refine Finset.card_le_card fun i hi => ?_
  rw [Finset.mem_filter] at hi ⊢
  exact ⟨hi.1, h.trans hi.2.1, hi.2.2⟩

lemma freeFrames_exhausted {a : ℕ} (h : pa.capacity < a + pageSize) : freeFrames pa a = 0 := by
  rw [freeFrames, Finset.card_eq_zero, Finset.filter_eq_empty_iff]
  intro i hi hfree
  have hlt := Nat.div_mul_le_self pa.capacity pageSize
  have hi' : pageSize * (i + 1) ≤ pa.capacity / pageSize * pageSize := by
    rw [Nat.mul_comm]
    exact Nat.mul_le_mul_right _ (Finset.mem_range.mp hi)
  have hle := hfree.1
  rw [Nat.mul_succ] at hi'
  omega

/-- Passing a reserved frame leaves the number. -/
lemma freeFrames_reserved {i : ℕ} (h : pa.reservedRanges.any (intersects (pageSize * i))) :
    freeFrames pa (pageSize * i + pageSize) = freeFrames pa (pageSize * i) := by
  refine congrArg Finset.card (Finset.filter_congr fun j _ => ?_)
  have hps : 0 < pageSize := by decide
  constructor
  · rintro ⟨hle, hres⟩
    exact ⟨by omega, hres⟩
  · rintro ⟨hle, hres⟩
    refine ⟨?_, hres⟩
    have hij : i ≤ j := Nat.le_of_mul_le_mul_left hle hps
    have hne : i ≠ j := by
      rintro rfl
      exact hres h
    rw [← Nat.mul_succ]
    exact Nat.mul_le_mul_left _ (by omega)

/-- Taking a free frame lowers the number by one. -/
lemma freeFrames_free {i : ℕ} (hi : pageSize * i + pageSize ≤ pa.capacity)
    (h : ¬ pa.reservedRanges.any (intersects (pageSize * i))) :
    freeFrames pa (pageSize * i) = freeFrames pa (pageSize * i + pageSize) + 1 := by
  have hps : 0 < pageSize := by decide
  have hmem : i < pa.capacity / pageSize := by
    rw [Nat.lt_iff_add_one_le, Nat.le_div_iff_mul_le hps, Nat.mul_comm, Nat.mul_succ]
    exact hi
  have hset : ((Finset.range (pa.capacity / pageSize)).filter fun j => isFree pa (pageSize * i) j) =
      insert i ((Finset.range (pa.capacity / pageSize)).filter fun j =>
        isFree pa (pageSize * i + pageSize) j) := by
    ext j
    simp only [Finset.mem_insert, Finset.mem_filter, Finset.mem_range]
    constructor
    · rintro ⟨hj, hle, hres⟩
      rcases (Nat.le_of_mul_le_mul_left hle hps).eq_or_lt with rfl | hlt
      · exact .inl rfl
      · exact .inr ⟨hj, by rw [← Nat.mul_succ]; exact Nat.mul_le_mul_left _ hlt, hres⟩
    · rintro (rfl | ⟨hj, hle, hres⟩)
      · exact ⟨hmem, le_refl _, h⟩
      · exact ⟨hj, by omega, hres⟩
  have hnot : i ∉ (Finset.range (pa.capacity / pageSize)).filter fun j =>
      isFree pa (pageSize * i + pageSize) j := by
    intro hi
    have hle := (Finset.mem_filter.mp hi).2.1
    omega
  rw [freeFrames, hset, Finset.card_insert_of_notMem hnot, freeFrames]

/-- Passing any number of reserved frames leaves the number. -/
lemma freeFrames_skip {i k : ℕ}
    (h : ∀ j < k, pa.reservedRanges.any (intersects (pageSize * i + pageSize * j))) :
    freeFrames pa (pageSize * i + pageSize * k) = freeFrames pa (pageSize * i) := by
  induction k with
  | zero => rfl
  | succ k ih =>
    have hk := h k (by omega)
    rw [← Nat.mul_add] at hk
    rw [← ih fun j hj => h j (by omega), Nat.mul_succ, ← Nat.add_assoc, ← Nat.mul_add,
      freeFrames_reserved hk]

/-! ### What one call can do -/

/-- The loop stops at the first frame that is clear of the reserved ranges, or past the
capacity. -/
lemma retry_cases (pa : PageAllocator) (n : ℕ) :
    ∀ a, pa.capacity < a + pageSize * n → a + pageSize < 2 ^ 64 →
    pa.capacity + pageSize < 2 ^ 64 →
    ∃ k, (∀ j < k, pa.reservedRanges.any (intersects (a + pageSize * j))) ∧
      (k = 0 ∨ a + pageSize * k ≤ pa.capacity) ∧
      ((retry pa (n + 1) a = (.ok (a + pageSize * k), a + pageSize * k + pageSize) ∧
          a + pageSize * k + pageSize ≤ pa.capacity ∧
          ¬ pa.reservedRanges.any (intersects (a + pageSize * k))) ∨
        (retry pa (n + 1) a = (.err, a + pageSize * k + pageSize) ∧
          pa.capacity < a + pageSize * k + pageSize)) := by
  induction n with
  | zero =>
    intro a hn ha hcap
    refine ⟨0, by simp, Or.inl rfl, Or.inr ?_⟩
    simp only [Nat.mul_zero, Nat.add_zero] at hn ⊢
    have hlt : pa.capacity < a + pageSize := by omega
    simp [retry, wrap_of_lt ha, hlt]
  | succ n ih =>
    intro a hn ha hcap
    rcases Nat.lt_or_ge pa.capacity (a + pageSize) with hlt | hge
    · refine ⟨0, by simp, Or.inl rfl, Or.inr ?_⟩
      simp [retry, wrap_of_lt ha, hlt]
    · have hstep : retry pa (n + 2) a =
          if pa.reservedRanges.any (intersects a) then retry pa (n + 1) (a + pageSize)
          else (.ok a, a + pageSize) := by
        rw [retry]
        simp only [Exec.get_bind, Exec.modify_bind, wrap_of_lt ha, if_neg (Nat.not_lt.mpr hge)]
        split <;> rfl
      by_cases hint : pa.reservedRanges.any (intersects a) = true
      · -- the frame is reserved: the loop goes on with the next one
        obtain ⟨k, hres, hk, hout⟩ := ih (a + pageSize)
          (by rw [Nat.mul_succ] at hn; omega) (by omega) hcap
        have hshift : a + pageSize + pageSize * k = a + pageSize * (k + 1) := by
          rw [Nat.mul_succ]; omega
        have hk' : a + pageSize * (k + 1) ≤ pa.capacity := by
          rcases hk with rfl | hk
          · simpa using hge
          · omega
        refine ⟨k + 1, fun j hj => ?_, Or.inr hk', ?_⟩
        · rcases j with _ | j
          · simpa using hint
          · have := hres j (by omega)
            rwa [show a + pageSize + pageSize * j = a + pageSize * (j + 1) by
              rw [Nat.mul_succ]; omega] at this
        · rw [hstep, if_pos hint]
          rwa [hshift] at hout
      · refine ⟨0, by simp, Or.inl rfl, Or.inl ⟨?_, ?_, ?_⟩⟩
        · rw [hstep, if_neg hint, Nat.mul_zero, Nat.add_zero]
        · simpa using hge
        · simpa using hint

/-- A call returns the frame that the loop ends with, cleared. -/
lemma alloc_ok {s : Machine} {f a : ℕ} (hr : retry pa retryBound s.allocated = (.ok f, a)) :
    alloc pa s = (.ok ⟨f, virtualAddress f⟩, { s with
      memory := s.memory.clear (physicalAddress (virtualAddress f)) pageSize
      allocated := a }) := by
  rw [alloc, Exec.bind_ok (a := f) (t := { s with allocated := a })]
  · simp
  · simp [Exec.zoom, hr]

lemma alloc_err {s : Machine} {a : ℕ} (hr : retry pa retryBound s.allocated = (.err, a)) :
    alloc pa s = (.err, { s with allocated := a }) := by
  rw [alloc, Exec.bind_err]
  simp [Exec.zoom, hr]

/-- The machine after a successful call. -/
def taken (s : Machine) (f : ℕ) : Machine :=
  { s with memory := s.memory.clear f pageSize, allocated := f + pageSize }

/-- A call that does not start at the end of the counter's range takes the first free frame,
or fails with no free frame left and the counter past the capacity. -/
lemma alloc_cases {s : Machine} (hcap : pa.capacity ≤ 2 ^ 48)
    (ha : s.allocated + pageSize < 2 ^ 64) (hal : pageSize ∣ s.allocated) :
    (∃ f, alloc pa s = (.ok ⟨f, virtualAddress f⟩, taken s f) ∧ s.allocated ≤ f ∧
      pageSize ∣ f ∧ f + pageSize ≤ pa.capacity ∧
      ¬ pa.reservedRanges.any (intersects f) ∧
      freeFrames pa s.allocated = freeFrames pa (f + pageSize) + 1) ∨
    (∃ a, alloc pa s = (.err, { s with allocated := a }) ∧ s.allocated ≤ a ∧ pageSize ∣ a ∧
      freeFrames pa s.allocated = 0) := by
  have hps : pageSize = 4096 := rfl
  obtain ⟨k, hskip, -, hout⟩ :=
    retry_cases pa (2 ^ 52) s.allocated (by omega) ha (by omega)
  have hal' : pageSize ∣ s.allocated + pageSize * k := Nat.dvd_add hal (Nat.dvd_mul_right _ _)
  obtain ⟨i, hi⟩ := hal
  have hfree' : freeFrames pa (s.allocated + pageSize * k) = freeFrames pa s.allocated := by
    rw [hi]
    exact freeFrames_skip fun j hj => by rw [← hi]; exact hskip j hj
  rw [show 2 ^ 52 + 1 = retryBound from rfl] at hout
  rcases hout with ⟨hr, hle, hfree⟩ | ⟨hr, hlt⟩
  · have htake : freeFrames pa s.allocated =
        freeFrames pa (s.allocated + pageSize * k + pageSize) + 1 := by
      rw [← hfree']
      rw [hi, ← Nat.mul_add] at hle hfree ⊢
      exact freeFrames_free hle hfree
    refine Or.inl ⟨s.allocated + pageSize * k, ?_, by omega, hal', hle, hfree, htake⟩
    have hphys : physicalAddress (virtualAddress (s.allocated + pageSize * k)) =
        s.allocated + pageSize * k :=
      physicalAddress_virtualAddress (k := 0) (by omega)
    rw [alloc_ok hr, hphys]
    rfl
  · refine Or.inr ⟨s.allocated + pageSize * k + pageSize, ?_, by omega,
      Nat.dvd_add hal' (dvd_refl _),
      by rw [← hfree', freeFrames_exhausted hlt]⟩
    exact alloc_err hr

/-- A call fails at once when the advanced counter lies past the capacity. -/
lemma alloc_exhausted (pa : PageAllocator) {s : Machine}
    (h : pa.capacity < wrap (s.allocated + pageSize)) :
    alloc pa s = (.err, { s with allocated := wrap (s.allocated + pageSize) }) := by
  have hretry : retry pa (2 ^ 52 + 1) s.allocated = (.err, wrap (s.allocated + pageSize)) := by
    rw [retry]
    simp only [Exec.get_bind, Exec.modify_bind]
    exact congrFun (if_pos h) _
  exact alloc_err hretry

/-- A call takes the next frame at once when it is free. -/
lemma alloc_first (pa : PageAllocator) {s : Machine} (ha : s.allocated + pageSize < 2 ^ 48)
    (hle : s.allocated + pageSize ≤ pa.capacity)
    (hres : ¬ pa.reservedRanges.any (intersects s.allocated)) :
    alloc pa s = (.ok ⟨s.allocated, virtualAddress s.allocated⟩, taken s s.allocated) := by
  have hphys : physicalAddress (virtualAddress s.allocated) = s.allocated :=
    physicalAddress_virtualAddress (k := 0) (by omega)
  have hwrap : wrap (s.allocated + pageSize) = s.allocated + pageSize := wrap_of_lt (by omega)
  have hretry : retry pa (2 ^ 52 + 1) s.allocated = (.ok s.allocated, s.allocated + pageSize) := by
    rw [retry]
    simp only [Exec.get_bind, Exec.modify_bind, hwrap]
    rw [if_neg (by omega), if_neg hres]
    rfl
  rw [alloc_ok hretry, hphys]
  rfl

end PageAllocator

end Pimento
