import Pimento.HeapAllocator
import Pimento.Mutex

/-!
The heap as its callers share it.

`alloc` uses the counter behind the mutex several times. Whoever calls it and however the accesses
interleave, the callers get different blocks.
-/

namespace Pimento.SharedHeap

open Accesses Allocator Mutex Runs

variable {ι : Type}

/-- Allocates a block of memory: every use of the counter is an access. -/
def alloc (a : Allocator) (layout : BlockLayout) : Accesses ℕ ℕ := do
  let alignOffset := alignOffset (wrap (a.start + (← read))) layout.align
  write (wrap ((← read) + alignOffset))
  let allocStart := wrap (a.start + (← read))
  write (wrap ((← read) + layout.size))
  if (← read) > a.n then return null
  return allocStart

/-- The block that a call returned. -/
def block (c : Completed ι BlockLayout ℕ) : Option Block :=
  if c.result = null then none else some ⟨c.result, c.op⟩

/-- The space that a call may take. -/
def demand (c : ι × BlockLayout) : ℕ := c.2.align + c.2.size

/-- The blocks lie in the heap, and do not overlap. -/
structure Disjoint (a : Allocator) (bs : List Block) : Prop where
  placed : ∀ b ∈ bs, b.Placed a
  disjoint : bs.Pairwise Block.Disjoint

variable {a : Allocator} {layout : BlockLayout}

/-- With no other access in between, it is the `alloc` of one caller. -/
lemma alloc_run (a : Allocator) (layout : BlockLayout) (s : HeapState) :
    Allocator.alloc a layout s =
      (.ok (run (alloc a layout) s.allocated).1,
        { s with allocated := (run (alloc a layout) s.allocated).2 }) := by
  unfold alloc Allocator.alloc
  simp only [Exec.get_bind, Exec.modify_bind, run_read_bind, run_write_bind, run_ite,
    offset]
  split_ifs <;> rfl

lemma align_pos (layout : BlockLayout) : 0 < layout.align := by
  obtain ⟨k, hk⟩ := layout.align_pow
  rw [hk]
  exact Nat.two_pow_pos k

lemma alignOffset_lt {address align : ℕ} (h : 0 < align) : alignOffset address align < align :=
  Nat.mod_lt _ h

/-- The counter moves by no more than what is asked for, if it stays in its range. -/
lemma alloc_moves (hbase : a.start + a.n < 2 ^ 64) (layout : BlockLayout) {d : ℕ}
    (hfits : d + (layout.align + layout.size) < 2 ^ 64) :
    CounterFits a ⟨⟨fun _ => 0, d⟩, []⟩ (.alloc layout) ∧
      (run (alloc a layout) d).2 ≤ d + (layout.align + layout.size) := by
  have hoff : a.offset ⟨fun _ => 0, d⟩ layout < layout.align := alignOffset_lt (align_pos layout)
  have hfit : d + a.offset ⟨fun _ => 0, d⟩ layout + layout.size < 2 ^ 64 := by omega
  refine ⟨hfit, ?_⟩
  have hmoved : (run (alloc a layout) d).2 = d + a.offset ⟨fun _ => 0, d⟩ layout + layout.size := by
    have hrun := alloc_run a layout ⟨fun _ => 0, d⟩
    rcases Allocator.alloc_cases (s := ⟨fun _ => 0, d⟩) hbase hfit with hcall | ⟨hcall, -⟩
    all_goals
      rw [hcall] at hrun
      exact (congrArg (fun p => p.2.allocated) hrun).symm
  omega

/-- The counter is at most what the calls have asked for, and while that is within its range the
blocks are sound. -/
lemma serial_inv (hbase : a.start + a.n < 2 ^ 64) {log : List (Completed ι BlockLayout ℕ)}
    {d : ℕ} (h : Serial (alloc a) 0 log d) (hfits : ((finished log).map demand).sum < 2 ^ 64) :
    d ≤ ((finished log).map demand).sum ∧ Inv a ⟨⟨fun _ => 0, d⟩, log.filterMap block⟩ := by
  refine h.invariant (I := fun log d => ((finished log).map demand).sum < 2 ^ 64 →
    d ≤ ((finished log).map demand).sum ∧ Inv a ⟨⟨fun _ => 0, d⟩, log.filterMap block⟩) ?_ ?_ hfits
  · exact fun _ => ⟨Nat.le_refl 0, ⟨⟨by simp, .nil⟩, by simp⟩⟩
  · intro log d caller layout ih hsum
    have hadd :
        ((finished (log ++ [⟨caller, layout, (run (alloc a layout) d).1⟩])).map demand).sum =
          ((finished log).map demand).sum + (layout.align + layout.size) := by
      simp [finished, demand]
    rw [hadd] at hsum ⊢
    obtain ⟨hle, hi⟩ := ih (by omega)
    obtain ⟨hfit, hmoves⟩ := alloc_moves hbase layout (d := d) (by omega)
    refine ⟨by omega, hi.step (e := .alloc layout) hbase hfit ?_⟩
    rw [Allocator.step, alloc_run, List.filterMap_append]
    simp only [List.filterMap_cons, List.filterMap_nil, block]
    split <;> simp

/-- **A shared heap**: whoever calls `alloc` and however the uses of its counter interleave, as long
as the calls ask for less than the range of the counter, the blocks they return are aligned, lie in
the heap and do not overlap. -/
theorem blocks_disjoint [DecidableEq ι] {es : List (Mutex.Event ι BlockLayout)}
    {w : World ι BlockLayout ℕ ℕ} (hbase : a.start + a.n < 2 ^ 64)
    (hdemand : ((calls es).map demand).sum < 2 ^ 64)
    (hrun : Run (Mutex.step (alloc a)) (World.new 0) es w) :
    Disjoint a (w.returned.filterMap block) := by
  have hatomic := atomic_of_run hrun
  obtain ⟨d, hserial, -⟩ := hatomic.serial
  have hle := hatomic.finished_sum_le demand
  obtain ⟨-, hinv⟩ := serial_inv hbase hserial (by omega)
  exact ⟨hinv.sound.placed, hinv.sound.disjoint⟩

/-- Two callers, of which the second one asks while the first one is between two accesses. -/
def interleaved : List (Mutex.Event ℕ BlockLayout) :=
  [.call 0 aligned, .advance 0, .advance 0, .call 1 aligned, .advance 1] ++
    List.replicate 7 (.advance 0) ++ List.replicate 9 (.advance 1)

theorem blocks_disjoint_interleaved :
    (reach (Mutex.step (alloc kernelHeap)) (World.new 0) interleaved).returned.map
        Completed.result = [0x90000, 0x90020] ∧
      Disjoint kernelHeap ((reach (Mutex.step (alloc kernelHeap)) (World.new 0)
        interleaved).returned.filterMap block) := by
  refine ⟨by decide +kernel, ?_⟩
  exact blocks_disjoint (by decide) (by decide +kernel) (run_reach (by decide +kernel))

end Pimento.SharedHeap
