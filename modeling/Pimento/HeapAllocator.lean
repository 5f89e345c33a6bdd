import Pimento.Address
import Pimento.ByteMemory
import Pimento.Exec
import Pimento.Runs

/-!
The heap allocator of the kernel: a counter that every call moves forward, also one that fails.
-/

namespace Pimento

open Runs

/-- The layout of a block: `Layout` accepts no other size and alignment. -/
structure BlockLayout where
  size : ℕ
  align : ℕ
  size_pos : 0 < size
  align_pow : ∃ k, align = 2 ^ k
  /-- The size rounded up to the alignment is at most `isize::MAX`. -/
  rounded : (size + align - 1) / align * align ≤ 2 ^ 63 - 1

/-- `Allocator<N>`, with the address of its heap. -/
structure Allocator where
  n : ℕ
  start : ℕ
  deriving DecidableEq, Repr

/-- The memory and the counter behind the mutex of the allocator. -/
structure HeapState where
  memory : ByteMemory
  allocated : ℕ

namespace Allocator

/-- `align_offset` of a pointer to bytes. -/
def alignOffset (address align : ℕ) : ℕ := (align - address % align) % align

/-- `ptr::null_mut()`. -/
def null : ℕ := 0

variable (a : Allocator)

/-- The space to accommodate the alignment. -/
def offset (s : HeapState) (layout : BlockLayout) : ℕ :=
  alignOffset (wrap (a.start + s.allocated)) layout.align

/-- Allocates a block of memory. -/
def alloc (layout : BlockLayout) : Exec HeapState ℕ := do
  let alignOffset := a.offset (← .get) layout
  .modify fun s => { s with allocated := wrap (s.allocated + alignOffset) }
  let allocStart := wrap (a.start + (← .get).allocated)
  .modify fun s => { s with allocated := wrap (s.allocated + layout.size) }
  if (← .get).allocated > a.n then return null
  return allocStart

/-- The block is cleared and stays allocated. -/
def dealloc (ptr : ℕ) (layout : BlockLayout) : Exec HeapState Unit :=
  .modify fun s => { s with memory := s.memory.clear ptr layout.size }

inductive Event
  | alloc (layout : BlockLayout)
  | dealloc (ptr : ℕ) (layout : BlockLayout)

/-- A block that has been returned. -/
structure Block where
  ptr : ℕ
  layout : BlockLayout

/-- The allocator with the blocks it has returned so far. -/
structure History where
  heap : HeapState
  blocks : List Block

def boot (memory : ByteMemory) : History := ⟨⟨memory, 0⟩, []⟩

def step (h : History) : Event → Option History
  | .alloc layout =>
    match alloc a layout h.heap with
    | (.ok ptr, s) => some ⟨s, if ptr = null then h.blocks else h.blocks ++ [⟨ptr, layout⟩]⟩
    | (_, _) => none
  | .dealloc ptr layout => some { h with heap := (dealloc ptr layout h.heap).2 }

/-- A block is where it may be. -/
structure Block.Placed (b : Block) : Prop where
  aligned : b.layout.align ∣ b.ptr
  start_le : a.start ≤ b.ptr
  le_stop : b.ptr + b.layout.size ≤ a.start + a.n

/-- Two blocks have no byte in common. -/
def Block.Disjoint (b b' : Block) : Prop :=
  b.ptr + b.layout.size ≤ b'.ptr ∨ b'.ptr + b'.layout.size ≤ b.ptr

/-- The blocks of a heap lie in it, and do not overlap. -/
structure Sound (h : History) : Prop where
  placed : ∀ b ∈ h.blocks, b.Placed a
  disjoint : h.blocks.Pairwise Block.Disjoint

/-- A call of `alloc` does not carry the counter past the end of its range. -/
def CounterFits (h : History) : Event → Prop
  | .alloc layout => h.heap.allocated + a.offset h.heap layout + layout.size < 2 ^ 64
  | .dealloc _ _ => True

instance (h : History) (e : Event) : Decidable (CounterFits a h e) := by
  cases e <;> unfold CounterFits <;> infer_instance

variable {a} {h h' : History} {layout : BlockLayout} {s : HeapState} {address align : ℕ}

/-- An address moved by its offset is a multiple of the alignment. -/
lemma dvd_add_alignOffset (h : 0 < align) : align ∣ address + alignOffset address align := by
  have hlt : address % align < align := Nat.mod_lt _ h
  have hdiv := Nat.div_add_mod address align
  unfold alignOffset
  by_cases hz : address % align = 0
  · rw [hz, Nat.sub_zero, Nat.mod_self, Nat.add_zero]
    exact Nat.dvd_of_mod_eq_zero hz
  · rw [Nat.mod_eq_of_lt (by omega)]
    refine ⟨address / align + 1, ?_⟩
    rw [Nat.mul_succ]
    omega

/-- The state after a call that fits. -/
def moved (a : Allocator) (s : HeapState) (layout : BlockLayout) : HeapState :=
  { s with allocated := s.allocated + a.offset s layout + layout.size }

/-- A call that fits moves the counter, and returns the block between its old and its new value
if that is in the heap. -/
lemma alloc_cases (hbase : a.start + a.n < 2 ^ 64)
    (hfits : s.allocated + a.offset s layout + layout.size < 2 ^ 64) :
    alloc a layout s = (.ok null, moved a s layout) ∨
      alloc a layout s = (.ok (a.start + (s.allocated + a.offset s layout)), moved a s layout) ∧
        s.allocated + a.offset s layout + layout.size ≤ a.n ∧
        layout.align ∣ a.start + (s.allocated + a.offset s layout) := by
  have hpos : 0 < layout.align := by
    obtain ⟨k, hk⟩ := layout.align_pow
    rw [hk]
    exact Nat.two_pow_pos k
  have hsum : wrap (s.allocated + a.offset s layout) = s.allocated + a.offset s layout :=
    wrap_of_lt (by omega)
  have hcall : alloc a layout s =
      (if s.allocated + a.offset s layout + layout.size > a.n then pure null
        else pure (wrap (a.start + (s.allocated + a.offset s layout))) : Exec HeapState ℕ)
        (moved a s layout) := by
    unfold alloc
    simp only [Exec.get_bind, Exec.modify_bind, hsum, wrap_of_lt hfits]
    rfl
  rw [hcall]
  by_cases hn : s.allocated + a.offset s layout + layout.size > a.n
  · rw [if_pos hn]
    exact .inl rfl
  · have hstart : wrap (a.start + s.allocated) = a.start + s.allocated := wrap_of_lt (by omega)
    have hptr : wrap (a.start + (s.allocated + a.offset s layout)) =
        a.start + (s.allocated + a.offset s layout) := wrap_of_lt (by omega)
    rw [if_neg hn, hptr]
    refine .inr ⟨rfl, Nat.le_of_not_lt hn, ?_⟩
    rw [offset, hstart, ← Nat.add_assoc]
    exact dvd_add_alignOffset hpos

/-- The blocks end below the counter. -/
structure Inv (a : Allocator) (h : History) : Prop where
  sound : Sound a h
  below : ∀ b ∈ h.blocks, b.ptr + b.layout.size ≤ a.start + h.heap.allocated

/-- The counter moves on. -/
lemma Inv.move {s t : HeapState} {bs : List Block} (hi : Inv a ⟨s, bs⟩)
    (hle : s.allocated ≤ t.allocated) : Inv a ⟨t, bs⟩ where
  sound := ⟨hi.sound.placed, hi.sound.disjoint⟩
  below b hb := (hi.below b hb).trans (Nat.add_le_add_left hle _)

/-- A block between the old and the new value of the counter has no byte of an older one. -/
lemma Inv.push {s t : HeapState} {bs : List Block} {b : Block} (hi : Inv a ⟨s, bs⟩)
    (hb : b.Placed a) (hstart : a.start + s.allocated ≤ b.ptr)
    (hstop : b.ptr + b.layout.size ≤ a.start + t.allocated) (hle : s.allocated ≤ t.allocated) :
    Inv a ⟨t, bs ++ [b]⟩ := by
  refine ⟨⟨fun b' hb' => ?_, ?_⟩, fun b' hb' => ?_⟩
  · rcases List.mem_append.mp hb' with hin | hnew
    · exact hi.sound.placed b' hin
    · rwa [List.mem_singleton.mp hnew]
  · refine List.pairwise_append.mpr ⟨hi.sound.disjoint, List.pairwise_singleton _ _, ?_⟩
    intro b' hb' b'' hb''
    rw [List.mem_singleton.mp hb'']
    exact .inl ((hi.below b' hb').trans hstart)
  · rcases List.mem_append.mp hb' with hin | hnew
    · exact (hi.move hle).below b' hin
    · rwa [List.mem_singleton.mp hnew]

lemma Inv.step (hbase : a.start + a.n < 2 ^ 64) (hi : Inv a h) {e : Event}
    (hfits : CounterFits a h e) (hstep : Allocator.step a h e = some h') : Inv a h' := by
  cases e with
  | alloc layout =>
    have hmoved : (moved a h.heap layout).allocated =
        h.heap.allocated + a.offset h.heap layout + layout.size := rfl
    have hle : h.heap.allocated ≤ (moved a h.heap layout).allocated := by omega
    rw [Allocator.step] at hstep
    rcases alloc_cases hbase hfits with hcall | ⟨hcall, hn, hdvd⟩ <;> rw [hcall] at hstep <;>
      obtain rfl := Option.some.inj hstep
    · exact hi.move hle
    · by_cases hnull : a.start + (h.heap.allocated + a.offset h.heap layout) = null
      · rw [if_pos hnull]
        exact hi.move hle
      · rw [if_neg hnull]
        refine hi.push ⟨hdvd, ?_, ?_⟩ ?_ ?_ hle <;> dsimp only <;> omega
  | dealloc ptr layout =>
    obtain rfl := Option.some.inj hstep
    exact hi.move (Nat.le_refl _)

/-- **Soundness of the heap**: after any calls of which none carries the counter past the end of
its range, the blocks that have been returned are aligned, lie in the heap and do not overlap. -/
theorem blocks_sound {m : ByteMemory} {es : List Event} (hbase : a.start + a.n < 2 ^ 64)
    (hrun : Run (guarded (CounterFits a) (step a)) (boot m) es h) : Sound a h := by
  have hboot : Inv a (boot m) := ⟨⟨by simp [boot], .nil⟩, by simp [boot]⟩
  refine (hrun.invariant (I := Inv a) (fun h e h' hi hstep => ?_) hboot).sound
  obtain ⟨hfits, hstep⟩ := guarded_eq_some.mp hstep
  exact hi.step hbase hfits hstep

/-- A block of bytes. -/
def bytes (size : ℕ) (h : 0 < size ∧ size ≤ 2 ^ 63 - 1) : BlockLayout :=
  ⟨size, 1, h.1, ⟨0, rfl⟩, by omega⟩

/-- The heap of the kernel, at an address. -/
def kernelHeap : Allocator := ⟨4 * 1024 * 1024, 0x90000⟩

def aligned : BlockLayout := ⟨24, 16, by decide, ⟨4, rfl⟩, by decide⟩

def largest : BlockLayout := bytes (2 ^ 63 - 1) (by decide)

/-- A request that fails leaves nothing for the ones after it. -/
def exhausted : List Event :=
  [.alloc (bytes 3 (by decide)), .alloc aligned, .dealloc 0x90000 (bytes 3 (by decide)),
    .alloc largest, .alloc aligned]

theorem blocks_sound_exhausted :
    (reach (step kernelHeap) (boot fun _ => 0) exhausted).blocks.map Block.ptr =
        [0x90000, 0x90010] ∧
      Sound kernelHeap (reach (guarded (CounterFits kernelHeap) (step kernelHeap))
        (boot fun _ => 0) exhausted) := by
  have hrun : Run (guarded (CounterFits kernelHeap) (step kernelHeap)) (boot fun _ => 0) exhausted
      (reach (guarded (CounterFits kernelHeap) (step kernelHeap)) (boot fun _ => 0) exhausted) :=
    run_reach (by decide +kernel)
  exact ⟨by decide +kernel, blocks_sound (by decide) hrun⟩

/-- Two requests that fail take the counter to its end. -/
def wrapping : List Event := [.alloc largest, .alloc largest, .alloc (bytes 2 (by decide))]

/-- After requests that fail, the block of a small one lies before the heap. -/
theorem block_before_heap :
    Run (step kernelHeap) (boot fun _ => 0) wrapping
        (reach (step kernelHeap) (boot fun _ => 0) wrapping) ∧
      (reach (step kernelHeap) (boot fun _ => 0) wrapping).blocks.map Block.ptr = [0x8fffe] ∧
      ¬ Sound kernelHeap (reach (step kernelHeap) (boot fun _ => 0) wrapping) := by
  have hptr : (reach (step kernelHeap) (boot fun _ => 0) wrapping).blocks.map Block.ptr =
      [0x8fffe] := by decide +kernel
  refine ⟨run_reach (by decide +kernel), hptr, fun hs => ?_⟩
  obtain ⟨b, hb, hbptr⟩ := List.mem_map.mp (hptr ▸ List.mem_singleton_self _)
  have hle : 0x90000 ≤ b.ptr := (hs.placed b hb).start_le
  omega

end Allocator

/-! ### The heap as the kernel uses it -/

namespace Heap

open Allocator

/-- The size of the heap. -/
def size : ℕ := 4 * 1024 * 1024

/-- `isize::MAX`, the limit on the size of an allocation. -/
def maxSize : ℕ := 2 ^ 63 - 1

/-- An allocation of bytes, on the counter. One of no bytes does not come to the allocator, and one
that fails is a panic. -/
def take (count : ℕ) : Exec ℕ Unit :=
  if count = 0 then pure ()
  else if maxSize < count then .panic
  else do
    .modify fun allocated => allocated + count
    if (← .get) > size then .panic

/-- There is room for so many bytes. -/
def HasRoom (allocated count : ℕ) : Prop := count = 0 ∨ allocated + count ≤ size

instance (allocated count : ℕ) : Decidable (HasRoom allocated count) :=
  inferInstanceAs (Decidable (_ ∨ _))

variable {allocated count : ℕ}

lemma take_ok (h : HasRoom allocated count) :
    take count allocated = (.ok (), allocated + count) := by
  unfold take
  split
  · rename_i hz
    rw [hz]
    rfl
  · have hle : allocated + count ≤ size := h.resolve_left (by assumption)
    have hmax : size < maxSize := by decide
    rw [if_neg (by omega), Exec.modify_bind, Exec.get_bind, if_neg (Nat.not_lt.mpr hle)]
    rfl

lemma take_panic (h : ¬ HasRoom allocated count) : (take count allocated).1 = .panic := by
  unfold take
  rw [if_neg fun hz => h (.inl hz)]
  split
  · rfl
  · rw [Exec.modify_bind, Exec.get_bind, if_pos (Nat.lt_of_not_le fun hle => h (.inr hle))]
    rfl

/-- The allocator has a block of bytes exactly where the kernel goes on. -/
theorem take_iff_alloc {a : Allocator} {s : HeapState} (hn : a.n = size) (hstart : 0 < a.start)
    (hbase : a.start + a.n < 2 ^ 64) (hs : s.allocated ≤ a.n) (hc : 0 < count ∧ count ≤ maxSize) :
    (∃ ptr, ptr ≠ null ∧ (alloc a (Allocator.bytes count hc) s).1 = .ok ptr) ↔
      (take count s.allocated).1 = .ok () := by
  have hmax : maxSize = 2 ^ 63 - 1 := rfl
  have hsize : size = 4194304 := rfl
  have hoffset : a.offset s (Allocator.bytes count hc) = 0 := Nat.mod_one _
  have hwrap : wrap s.allocated = s.allocated := wrap_of_lt (by omega)
  have hsum : wrap (s.allocated + count) = s.allocated + count := wrap_of_lt (by omega)
  have hptr : wrap (a.start + s.allocated) = a.start + s.allocated := wrap_of_lt (by omega)
  have hcall : (alloc a (Allocator.bytes count hc) s).1 =
      .ok (if s.allocated + count > a.n then null else a.start + s.allocated) := by
    have hlayout : (Allocator.bytes count hc).size = count := rfl
    unfold alloc
    simp only [Exec.get_bind, Exec.modify_bind, hoffset, Nat.add_zero, hwrap, hlayout, hsum, hptr]
    split <;> rfl
  rw [hcall]
  by_cases hroom : s.allocated + count ≤ size
  · rw [take_ok (.inr hroom), if_neg (by omega)]
    refine ⟨fun _ => rfl, fun _ => ⟨_, ?_, rfl⟩⟩
    unfold null
    omega
  · rw [take_panic fun h => hroom (h.resolve_left (by omega)), if_pos (by omega)]
    refine ⟨?_, nofun⟩
    rintro ⟨ptr, hne, hp⟩
    exact absurd (Outcome.ok.inj hp).symm hne

end Heap

end Pimento
