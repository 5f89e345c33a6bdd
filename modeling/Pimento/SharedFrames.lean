import Pimento.FrameEnumeration
import Pimento.Mutex

/-!
The frames as their users share them.

`alloc` holds the mutex of the counter while it looks for a frame, and it may look at many. Whoever
calls it and however the accesses interleave, the users get the free frames in order.
-/

namespace Pimento.SharedFrames

open Accesses Address FrameEnumeration Mutex PageAllocator Runs

variable {ι : Type}

/-- The retry loop: every use of the counter is an access. -/
def retry (pa : PageAllocator) : ℕ → Accesses ℕ (Outcome ℕ)
  | 0 => return .hang
  | n + 1 => do
    let allocStart ← read
    write (wrap ((← read) + pageSize))
    if (← read) > pa.capacity then return .err
    else if pa.reservedRanges.any (intersects allocStart) then retry pa n
    else return .ok allocStart

/-- Allocates a page: the guard is there until the function returns. -/
def alloc (pa : PageAllocator) (_ : Unit) : Accesses ℕ (Outcome PageAllocation) := do
  match ← retry pa retryBound with
  | .ok allocStart => return .ok (page allocStart)
  | .err => return .err
  | .panic => return .panic
  | .hang => return .hang

/-- The frames that have been returned. -/
def frames (log : List (Completed ι Unit (Outcome PageAllocation))) : List ℕ :=
  log.filterMap fun c => frame c.result

variable {pa : PageAllocator} {log : List (Completed ι Unit (Outcome PageAllocation))} {a d : ℕ}

lemma retry_run (pa : PageAllocator) (n a : ℕ) :
    run (retry pa n) a = PageAllocator.retry pa n a := by
  induction n generalizing a with
  | zero => rfl
  | succ n ih =>
    rw [retry, PageAllocator.retry]
    simp only [run_read_bind, run_write_bind, run_ite, Exec.get_bind, Exec.modify_bind]
    split_ifs
    · rfl
    · exact ih _
    · rfl

/-- With no other access in between, it is the `alloc` of one caller. -/
lemma alloc_run (pa : PageAllocator) (u : Unit) (s : Machine) :
    (PageAllocator.alloc pa s).1 = (run (alloc pa u) s.allocated).1 ∧
      (PageAllocator.alloc pa s).2.allocated = (run (alloc pa u) s.allocated).2 := by
  unfold alloc
  rw [run_bind, retry_run, PageAllocator.alloc, Exec.bind_apply, Exec.zoom]
  rcases PageAllocator.retry pa retryBound s.allocated with ⟨f | _ | _ | _, a⟩ <;> exact ⟨rfl, rfl⟩

lemma frames_snoc (log : List (Completed ι Unit (Outcome PageAllocation)))
    (c : Completed ι Unit (Outcome PageAllocation)) :
    frames (log ++ [c]) = frames log ++ (frame c.result).toList := by
  rw [frames, List.filterMap_append, frames]
  rcases hf : frame c.result with _ | f <;> simp [hf]

/-- A call as a whole returns what is next, and the counter is where it should be. -/
lemma alloc_next {calls : ℕ} {fs : List ℕ} (hr : Ranges pa) (hcap : pa.capacity ≤ 2 ^ 63)
    (hcalls : calls < 2 ^ 50) (hi : Inv pa calls fs a) (u : Unit) :
    Next pa fs (run (alloc pa u) a).1 ∧
      Inv pa (calls + 1) (fs ++ (frame (run (alloc pa u) a).1).toList) (run (alloc pa u) a).2 := by
  rcases retry_next hr hcap (hi.fits hcap hcalls) hi.aligned with
    ⟨f, hretry, hnext⟩ | ⟨b, hretry, hal, hle, hbound, hnone⟩
  · have hrun : run (alloc pa u) a = (.ok (page f), f + pageSize) := by
      unfold alloc
      rw [run_bind, retry_run, hretry]
      rfl
    rw [hrun]
    exact hi.ok hnext
  · have hrun : run (alloc pa u) a = (.err, b) := by
      unfold alloc
      rw [run_bind, retry_run, hretry]
      rfl
    rw [hrun]
    obtain ⟨hnext, hinv⟩ := hi.err hal hle hbound hnone
    refine ⟨hnext, ?_⟩
    simpa [frame] using hinv

/-- The calls one after the other. -/
lemma serial_next (hr : Ranges pa) (hcap : pa.capacity ≤ 2 ^ 63) (h : Serial (alloc pa) 0 log d)
    (hlen : log.length ≤ 2 ^ 50) :
    Inv pa log.length (frames log) d ∧
      ∀ before c after, log = before ++ c :: after → Next pa (frames before) c.result := by
  refine h.invariant (I := fun log d => log.length ≤ 2 ^ 50 → Inv pa log.length (frames log) d ∧
    ∀ before c after, log = before ++ c :: after → Next pa (frames before) c.result) ?_ ?_ hlen
  · refine fun _ => ⟨inv_start pa, fun before c after hsplit => ?_⟩
    simp at hsplit
  · rintro log d caller u ih hlen
    rw [List.length_append, List.length_singleton] at hlen ⊢
    obtain ⟨hinv, hold⟩ := ih (by omega)
    obtain ⟨hnext, hinv'⟩ := alloc_next hr hcap (by omega) hinv u
    generalize run (alloc pa u) d = result at hnext hinv' ⊢
    refine ⟨?_, fun before c after hsplit => ?_⟩
    · rw [frames_snoc]
      exact hinv'
    rcases split_snoc hsplit with ⟨rfl, rfl⟩ | ⟨after', hlog⟩
    · exact hnext
    · exact hold before c after' hlog

/-- **Shared frames**: whoever calls `alloc` and however the uses of its counter interleave, up to
`2 ^ 50` calls return the free frames in order, each of them to one caller, and a call fails exactly
when all of them have been returned. -/
theorem frames_enumerate [DecidableEq ι] {es : List (Mutex.Event ι Unit)}
    {w : World ι Unit ℕ (Outcome PageAllocation)} (hr : Ranges pa) (hcap : pa.capacity ≤ 2 ^ 63)
    (hcalls : (calls es).length ≤ 2 ^ 50)
    (hrun : Run (Mutex.step (alloc pa)) (World.new 0) es w) :
    ∀ before c after, w.returned = before ++ c :: after → Next pa (frames before) c.result := by
  have hatomic := atomic_of_run hrun
  obtain ⟨d, hserial, -⟩ := hatomic.serial
  have hle : w.returned.length ≤ (calls es).length := by
    have hsub := hatomic.finished_subperm.length_le
    rwa [finished, List.length_map] at hsub
  exact (serial_next hr hcap hserial (hle.trans hcalls)).2

/-- Two callers of the allocator of five frames. The second one begins while the first one is
looking, and calls again. -/
def interleaved : List (Mutex.Event ℕ Unit) :=
  [.call 0 (), .advance 0, .advance 0, .call 1 (), .advance 1] ++ List.replicate 12 (.advance 0) ++
    List.replicate 10 (.advance 1) ++ [.call 1 ()] ++ List.replicate 6 (.advance 1)

theorem frames_enumerate_interleaved :
    (reach (Mutex.step (alloc touched)) (World.new 0) interleaved).returned =
        [⟨0, (), .ok (page 8192)⟩, ⟨1, (), .ok (page 16384)⟩, ⟨1, (), .err⟩] ∧
      Next touched [8192, 16384] .err := by
  have hreturned : (reach (Mutex.step (alloc touched)) (World.new 0) interleaved).returned =
      [⟨0, (), .ok (page 8192)⟩, ⟨1, (), .ok (page 16384)⟩, ⟨1, (), .err⟩] := by decide +kernel
  have hr : Ranges touched := by
    unfold Ranges
    decide
  have hnext := frames_enumerate hr (by decide)
    (by decide +kernel) (run_reach (by decide +kernel))
    [⟨0, (), .ok (page 8192)⟩, ⟨1, (), .ok (page 16384)⟩] ⟨1, (), .err⟩ [] hreturned
  exact ⟨hreturned, hnext⟩

end Pimento.SharedFrames
