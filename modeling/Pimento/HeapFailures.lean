import Pimento.HeapAllocator

/-!
What a failed allocation does to the ones after it.

The counter moves before it is compared with the size of the heap, and stays where it is when the
request is refused.
-/

namespace Pimento.Allocator

open Runs

variable (a : Allocator)

/-- One allocation after the other. -/
def allocAll : List BlockLayout → Exec HeapState (List ℕ)
  | [] => pure []
  | layout :: layouts => do
    let ptr ← alloc a layout
    let ptrs ← allocAll layouts
    return ptr :: ptrs

/-- All later allocations return what they would have returned without this one. -/
def NoEffect (layout : BlockLayout) (s : HeapState) : Prop :=
  ∀ later, (allocAll a later (alloc a layout s).2).1 = (allocAll a later s).1

/-- The state after a call, which fails or not. -/
def after (layout : BlockLayout) (s : HeapState) : HeapState :=
  { s with allocated := wrap (s.allocated + a.offset s layout + layout.size) }

/-- What a call returns. -/
def pointer (layout : BlockLayout) (s : HeapState) : ℕ :=
  if (a.after layout s).allocated > a.n then null
  else wrap (a.start + (s.allocated + a.offset s layout))

variable {a} {layout : BlockLayout} {s t u : HeapState} {later : List BlockLayout} {ps : List ℕ}
  {p : ℕ}

lemma wrap_add_wrap (x y : ℕ) : wrap (x + wrap y) = wrap (x + y) := Nat.add_mod_mod x y _

lemma wrap_wrap_add (x y : ℕ) : wrap (wrap x + y) = wrap (x + y) := Nat.mod_add_mod x _ y

lemma alloc_eq (layout : BlockLayout) (s : HeapState) :
    alloc a layout s = (.ok (a.pointer layout s), a.after layout s) := by
  have hcall : alloc a layout s =
      (if wrap (wrap (s.allocated + a.offset s layout) + layout.size) > a.n then pure null
        else pure (wrap (a.start + wrap (s.allocated + a.offset s layout))) : Exec HeapState ℕ)
        { s with allocated := wrap (wrap (s.allocated + a.offset s layout) + layout.size) } := rfl
  rw [hcall, wrap_wrap_add, wrap_add_wrap]
  unfold pointer after
  split <;> rfl

lemma allocAll_cons (h : allocAll a later (a.after layout s) = (.ok ps, t)) :
    allocAll a (layout :: later) s = (.ok (a.pointer layout s :: ps), t) := by
  rw [allocAll, Exec.bind_ok (alloc_eq layout s), Exec.bind_ok h]
  rfl

lemma allocAll_ok (later : List BlockLayout) (s : HeapState) :
    ∃ ps t, allocAll a later s = (.ok ps, t) := by
  induction later generalizing s with
  | nil => exact ⟨[], s, rfl⟩
  | cons layout later ih =>
    obtain ⟨ps, t, h⟩ := ih (a.after layout s)
    exact ⟨_, t, allocAll_cons h⟩

lemma allocAll_snoc (layout : BlockLayout) (h : allocAll a later s = (.ok ps, t)) :
    allocAll a (later ++ [layout]) s = (.ok (ps ++ [a.pointer layout t]), a.after layout t) := by
  induction later generalizing s ps with
  | nil =>
    obtain ⟨rfl, rfl⟩ : [] = ps ∧ s = t := by simpa [allocAll] using h
    exact allocAll_cons rfl
  | cons first later ih =>
    obtain ⟨ps', t', h'⟩ := allocAll_ok later (a.after first s)
    obtain ⟨rfl, rfl⟩ : a.pointer first s :: ps' = ps ∧ t' = t := by
      simpa [allocAll_cons h'] using h
    exact allocAll_cons (ih h')

lemma offset_bytes {size : ℕ} (hsize : 0 < size ∧ size ≤ 2 ^ 63 - 1) :
    a.offset s (bytes size hsize) = 0 := by
  simp [offset, bytes, alignOffset, Nat.mod_one]

/-- Later calls can take the counter any way forward. -/
lemma exists_advance (a : Allocator) (k : ℕ) :
    ∃ later, ∀ s ps t, allocAll a later s = (.ok ps, t) →
      wrap t.allocated = wrap (s.allocated + k) := by
  induction k using Nat.strong_induction_on with
  | _ k ih =>
    rcases Nat.eq_zero_or_pos k with rfl | hk
    · refine ⟨[], fun s ps t h => ?_⟩
      obtain ⟨-, rfl⟩ : [] = ps ∧ s = t := by simpa [allocAll] using h
      rfl
    · obtain ⟨later, hlater⟩ := ih (k - min k (2 ^ 63 - 1)) (by omega)
      have hsize : 0 < min k (2 ^ 63 - 1) ∧ min k (2 ^ 63 - 1) ≤ 2 ^ 63 - 1 := by omega
      refine ⟨bytes (min k (2 ^ 63 - 1)) hsize :: later, fun s ps t h => ?_⟩
      obtain ⟨ps', t', h'⟩ := allocAll_ok later (a.after (bytes (min k (2 ^ 63 - 1)) hsize) s)
      rw [allocAll_cons h'] at h
      obtain ⟨-, rfl⟩ := Prod.mk.inj h
      have hsum : s.allocated + 0 + min k (2 ^ 63 - 1) + (k - min k (2 ^ 63 - 1)) =
          s.allocated + k := by
        omega
      rw [hlater _ _ _ h', after, offset_bytes, wrap_wrap_add]
      exact congrArg wrap hsum

/-- Every request moves the counter, by less than its whole range. -/
lemma moves (layout : BlockLayout) (s : HeapState) :
    0 < a.offset s layout + layout.size ∧ a.offset s layout + layout.size < 2 ^ 64 := by
  have hsize := layout.size_pos
  have halign : 0 < layout.align := by
    obtain ⟨k, hk⟩ := layout.align_pow
    rw [hk]
    exact Nat.two_pow_pos k
  have hoffset : a.offset s layout < layout.align := Nat.mod_lt _ halign
  have hrounded := layout.rounded
  -- the size rounded up is at least the size, and at least one time the alignment
  have hmod := Nat.mod_lt (layout.size + layout.align - 1) halign
  have hdiv := Nat.div_add_mod' (layout.size + layout.align - 1) layout.align
  have hone : 1 * layout.align ≤
      (layout.size + layout.align - 1) / layout.align * layout.align :=
    Nat.mul_le_mul_right _ ((Nat.one_le_div_iff halign).mpr (by omega))
  omega

/-- No request is without effect: one that takes the counter to its end tells the two counters
apart. -/
lemma not_noEffect (layout : BlockLayout) (s : HeapState) : ¬ NoEffect a layout s := by
  intro h
  obtain ⟨hpos, hlt⟩ := moves (a := a) layout s
  -- a size that takes a block from the end of the range to another address than null
  obtain ⟨size, hsize, hstart⟩ : ∃ size, (0 < size ∧ size ≤ 2 ^ 63 - 1) ∧
      wrap (a.start + (2 ^ 64 - size)) ≠ null := by
    by_cases h1 : wrap a.start = 1
    · refine ⟨2, by decide, ?_⟩
      unfold wrap at h1
      unfold wrap null
      omega
    · refine ⟨1, by decide, ?_⟩
      unfold wrap at h1
      unfold wrap null
      omega
  obtain ⟨later, hlater⟩ := exists_advance a (2 ^ 64 + (2 ^ 64 - size) - wrap s.allocated)
  obtain ⟨ps, u, hu⟩ := allocAll_ok (a := a) later s
  obtain ⟨ps', u', hu'⟩ := allocAll_ok (a := a) later (a.after layout s)
  have hcounter := hlater _ _ _ hu
  have hcounter' := hlater _ _ _ hu'
  have hall := h (later ++ [bytes size hsize])
  rw [alloc_eq, allocAll_snoc _ hu, allocAll_snoc _ hu'] at hall
  have hlast : a.pointer (bytes size hsize) u' = a.pointer (bytes size hsize) u := by
    simpa using (List.append_inj' (Outcome.ok.inj hall) rfl).2
  have hbytes : (bytes size hsize).size = size := rfl
  unfold pointer after at hlast
  rw [offset_bytes, offset_bytes, hbytes] at hlast
  unfold after at hcounter'
  unfold wrap at hcounter hcounter' hlast hstart
  unfold null at hstart hlast
  dsimp only at hcounter' hlast
  have hend : (u.allocated + 0 + size) % 2 ^ 64 = 0 := by omega
  rw [hend, if_neg (Nat.not_lt_zero _)] at hlast
  split at hlast <;> omega

/-- **A failure is never without effect**: whenever `alloc` returns null there are later requests
that return other pointers than they would have returned without it. -/
theorem failure_has_effect (layout : BlockLayout) (s : HeapState) :
    (alloc a layout s).1 = .ok null → ¬ NoEffect a layout s :=
  fun _ => not_noEffect layout s

/-- The heap of the kernel before any request. -/
def emptyHeap : HeapState := ⟨fun _ => 0, 0⟩

/-- The buffer of a system call that writes five megabytes. -/
def oversized : BlockLayout := bytes (5 * 1024 * 1024) (by decide)

theorem failure_has_effect_oversized : ¬ NoEffect kernelHeap oversized emptyHeap :=
  failure_has_effect oversized emptyHeap (by decide +kernel)

/-- A small request that would have been served fails after one that is too large. -/
theorem small_after_oversized :
    (alloc kernelHeap oversized emptyHeap).1 = .ok null ∧
      (allocAll kernelHeap [aligned] emptyHeap).1 = .ok [0x90000] ∧
      (allocAll kernelHeap [aligned] (alloc kernelHeap oversized emptyHeap).2).1 = .ok [null] ∧
      ¬ NoEffect kernelHeap oversized emptyHeap := by
  have hwithout : (allocAll kernelHeap [aligned] emptyHeap).1 = .ok [0x90000] := by
    decide +kernel
  have hwith : (allocAll kernelHeap [aligned] (alloc kernelHeap oversized emptyHeap).2).1 =
      .ok [null] := by decide +kernel
  refine ⟨by decide +kernel, hwithout, hwith, fun h => ?_⟩
  have hsame := h [aligned]
  rw [hwith, hwithout] at hsame
  exact absurd hsame (by decide)

/-- **Exhaustion**: once the counter has passed the end of the heap no request is served, until
it comes to the end of its range. -/
theorem blocks_of_exhausted {h h' : History} {es : List Event} (hn : a.n < h.heap.allocated)
    (hrun : Run (guarded (CounterFits a) (step a)) h es h') : h'.blocks = h.blocks := by
  refine (hrun.invariant (I := fun h' => a.n < h'.heap.allocated ∧ h'.blocks = h.blocks)
    (fun t e t' ht hstep => ?_) ⟨hn, rfl⟩).2
  obtain ⟨hfits, hstep⟩ := guarded_eq_some.mp hstep
  cases e with
  | alloc layout =>
    have hafter : (a.after layout t.heap).allocated =
        t.heap.allocated + a.offset t.heap layout + layout.size := wrap_of_lt hfits
    have hgt : (a.after layout t.heap).allocated > a.n := by
      rw [hafter]
      exact ht.1.trans_le (by omega)
    have hnull : a.pointer layout t.heap = null := if_pos hgt
    rw [step, alloc_eq, hnull] at hstep
    obtain rfl := Option.some.inj hstep
    exact ⟨hgt, ht.2⟩
  | dealloc ptr layout =>
    obtain rfl := Option.some.inj hstep
    exact ht

end Pimento.Allocator
