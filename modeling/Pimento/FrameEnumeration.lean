import Mathlib.Data.Nat.Nth
import Pimento.KernelMap
import Pimento.PageAllocator
import Pimento.Runs

/-!
The calls of a page allocator, one after the other.

The allocator goes through the frames in order and leaves out those that touch a reserved range:
what it returns is the enumeration of the free frames. It clears a page through the tables of the
kernel, which do not map all of the frames that there may be.
-/

namespace Pimento.FrameEnumeration

open Address KernelMap PageAllocator Runs

/-- `ptr::write_bytes` of a page, where the tables of the kernel map it. Elsewhere it faults, which
is a panic. -/
def writeZeroes (ptr : ℕ) : Exec Machine Unit :=
  if (kernelTranslation (physicalAddress ptr)).isSome then
    .modify fun s => { s with memory := s.memory.clear (physicalAddress ptr) pageSize }
  else .panic

/-- `PageAllocator::alloc`, with the stores to the page through the tables. -/
def alloc (pa : PageAllocator) : Exec Machine PageAllocation := do
  let allocStart ← .zoom Machine.allocated (fun a s => { s with allocated := a })
    (retry pa retryBound)
  let ptr := virtualAddress allocStart
  writeZeroes ptr
  return ⟨allocStart, ptr⟩

/-- What a call returned, and the memory it left behind. -/
structure Entry where
  result : Outcome PageAllocation
  memory : ByteMemory

/-- The machine, and the calls so far. -/
structure History where
  machine : Machine
  log : List Entry

/-- `PageAllocator::new` has set the counter to 0. -/
def start (m : ByteMemory) (asidCounter : BitVec 16) : History := ⟨⟨m, 0, asidCounter⟩, []⟩

/-- A call of `alloc`, in whatever state it finds the memory. There is none after a panic. -/
def step (pa : PageAllocator) (h : History) (memory : ByteMemory) : Option History :=
  if h.log.any fun e => e.result = .panic then none
  else
    let (result, machine) := alloc pa { h.machine with memory }
    some ⟨machine, h.log ++ [⟨result, machine.memory⟩]⟩

/-- A frame within the capacity that has no byte in common with a reserved range. -/
def Free (pa : PageAllocator) (f : ℕ) : Prop :=
  pageSize ∣ f ∧ f + pageSize ≤ pa.capacity ∧
    ∀ range ∈ pa.reservedRanges, f + pageSize ≤ range.1 ∨ range.2 ≤ f

instance (pa : PageAllocator) : DecidablePred (Free pa) := fun _ =>
  inferInstanceAs (Decidable (_ ∧ _ ∧ _))

/-- The first free frame from the counter on. -/
def NextFree (pa : PageAllocator) (a f : ℕ) : Prop :=
  Free pa f ∧ a ≤ f ∧ ∀ g < f, a ≤ g → ¬ Free pa g

instance (pa : PageAllocator) (a f : ℕ) : Decidable (NextFree pa a f) :=
  inferInstanceAs (Decidable (_ ∧ _ ∧ _))

/-- The page of a frame. -/
def page (f : ℕ) : PageAllocation := ⟨f, virtualAddress f⟩

/-- What a call returns after these frames. -/
inductive Next (pa : PageAllocator) (before : List ℕ) : Outcome PageAllocation → Prop
  | ok {f : ℕ} (free : Free pa f) (new : f ∉ before)
      (nth : f = Nat.nth (Free pa) before.length) : Next pa before (.ok (page f))
  | err (exhausted : ∀ f, Free pa f → f ∈ before) : Next pa before .err

/-- The frame of a call that returned one. -/
def frame : Outcome PageAllocation → Option ℕ
  | .ok p => some p.address
  | _ => none

/-- The frames that have been returned. -/
def returned (log : List Entry) : List ℕ := log.filterMap fun e => frame e.result

/-- A call after these others does what it should. -/
structure Good (pa : PageAllocator) (before : List Entry) (e : Entry) : Prop where
  next : Next pa (returned before) e.result
  zero : ∀ p, e.result = .ok p → ∀ x, p.address ≤ x → x < p.address + pageSize → e.memory x = 0

/-- Every call does what it should. -/
def Enumerates (pa : PageAllocator) (log : List Entry) : Prop :=
  ∀ before e after, log = before ++ e :: after → Good pa before e

/-- The ranges are ranges of addresses, and none is empty. -/
def Ranges (pa : PageAllocator) : Prop :=
  ∀ range ∈ pa.reservedRanges, range.1 < range.2 ∧ range.2 < 2 ^ 64

/-- The frame is one that the kernel maps. If not, the pointer has dropped the upper bits, the page
that is cleared instead is mapped, and the bytes of the frame happen to be 0. -/
def Clearable (memory : ByteMemory) (f : ℕ) : Prop :=
  f < mappedLen ∨ f % 2 ^ 48 < mappedLen ∧ ∀ x < pageSize, memory (f + x) = 0

instance (memory : ByteMemory) (f : ℕ) : Decidable (Clearable memory f) :=
  inferInstanceAs (Decidable (_ ∨ _))

/-- The frame that is next, if there is one, can be cleared. -/
def Clears (pa : PageAllocator) (h : History) (memory : ByteMemory) : Prop :=
  ∀ f < pa.capacity, NextFree pa h.machine.allocated f → Clearable memory f

instance clearsDecidable (pa : PageAllocator) (h : History) (memory : ByteMemory) :
    Decidable (Clears pa h memory) :=
  inferInstanceAs (Decidable (∀ f < pa.capacity, _ → _))

variable {pa : PageAllocator} {a b f g k : ℕ} {log : List Entry} {e : Entry}

/-! ### The loop -/

/-- The allocator passes over a frame exactly when it is not free. -/
lemma free_iff (hr : Ranges pa) (hf : f + pageSize < 2 ^ 64) :
    Free pa f ↔ pageSize ∣ f ∧ f + pageSize ≤ pa.capacity ∧
      ¬ pa.reservedRanges.any (intersects f) := by
  have htest : (∀ range ∈ pa.reservedRanges, f + pageSize ≤ range.1 ∨ range.2 ≤ f) ↔
      ¬ pa.reservedRanges.any (intersects f) := by
    rw [List.any_eq_true]
    constructor
    · rintro h ⟨range, hin, hint⟩
      obtain ⟨hne, hend⟩ := hr range hin
      have hover := (intersects_iff hf hne hend).mp hint
      have := h range hin
      omega
    · intro h range hin
      obtain ⟨hne, hend⟩ := hr range hin
      by_contra hn
      exact h ⟨range, hin, (intersects_iff hf hne hend).mpr (by omega)⟩
  rw [Free, htest]

/-- The loop ends with the first free frame from the counter on, or fails as there is none. -/
lemma retry_next (hr : Ranges pa) (hcap : pa.capacity ≤ 2 ^ 63) (ha : a + pageSize < 2 ^ 64)
    (hal : pageSize ∣ a) :
    (∃ f, retry pa retryBound a = (.ok f, f + pageSize) ∧ NextFree pa a f) ∨
      (∃ b, retry pa retryBound a = (.err, b) ∧ pageSize ∣ b ∧ a ≤ b ∧
        (b = a + pageSize ∨ b ≤ pa.capacity + pageSize) ∧ ∀ g, a ≤ g → ¬ Free pa g) := by
  have hps : pageSize = 4096 := rfl
  obtain ⟨k, hskip, hk, hout⟩ := retry_cases pa (2 ^ 52) a (by omega) ha (by omega)
  have hal' : pageSize ∣ a + pageSize * k := Nat.dvd_add hal (Nat.dvd_mul_right _ _)
  -- a free frame below the one the loop ends at would be one it has passed over
  have hpassed : ∀ g < a + pageSize * k, a ≤ g → ¬ Free pa g := by
    intro g hlt hle hfree
    obtain ⟨i, hi⟩ := (Nat.dvd_sub hfree.1 hal)
    have hg : g = a + pageSize * i := by omega
    have hik : i < k := by
      rw [hg] at hlt
      exact Nat.lt_of_mul_lt_mul_left (by omega : pageSize * i < pageSize * k)
    have hcapg := hfree.2.1
    exact ((free_iff hr (by omega)).mp hfree).2.2 (hg ▸ hskip i hik)
  rw [show 2 ^ 52 + 1 = retryBound from rfl] at hout
  rcases hout with ⟨hretry, hle, hfree⟩ | ⟨hretry, hlt⟩
  · exact .inl ⟨_, hretry, (free_iff hr (by omega)).mpr ⟨hal', hle, hfree⟩, by omega, hpassed⟩
  · refine .inr ⟨_, hretry, Nat.dvd_add hal' (dvd_refl _), by omega, ?_, fun g hle hfree => ?_⟩
    · rcases hk with rfl | hk
      · exact .inl rfl
      · exact .inr (by omega)
    · have hcapg := hfree.2.1
      exact hpassed g (by omega) hle hfree

/-! ### Counting -/

/-- Where nothing is counted, the count does not move. -/
lemma count_eq {p : ℕ → Prop} [DecidablePred p] (hab : a ≤ b) (h : ∀ g, a ≤ g → g < b → ¬ p g) :
    Nat.count p b = Nat.count p a := by
  induction b, hab using Nat.le_induction with
  | base => rfl
  | succ b hle ih =>
    rw [Nat.count_succ, if_neg (h b hle (by omega)), Nat.add_zero,
      ih fun g hg hlt => h g hg (by omega)]

/-- The next free frame from the counter on is the one whose number is the count so far. -/
lemma eq_nth (hfree : Free pa f) (hle : a ≤ f) (hnone : ∀ g, a ≤ g → g < f → ¬ Free pa g) :
    f = Nat.nth (Free pa) (Nat.count (Free pa) a) := by
  rw [← count_eq hle hnone, Nat.nth_count hfree]

/-- Free frames do not overlap. -/
lemma not_free_inside (hfree : Free pa f) (hle : f < g) (hlt : g < f + pageSize) : ¬ Free pa g := by
  intro hg
  obtain ⟨i, hi⟩ := Nat.dvd_sub hg.1 hfree.1
  have hpos : pageSize * i < pageSize * 1 := by omega
  have hi0 : i = 0 := by
    have := Nat.lt_of_mul_lt_mul_left hpos
    omega
  rw [hi0] at hi
  omega

/-- Taking a free frame counts one. -/
lemma count_taken (hfree : Free pa f) (hle : a ≤ f)
    (hnone : ∀ g, a ≤ g → g < f → ¬ Free pa g) :
    Nat.count (Free pa) (f + pageSize) = Nat.count (Free pa) a + 1 := by
  have hps : 0 < pageSize := by decide
  rw [← count_eq hle hnone, ← Nat.count_succ_eq_succ_count hfree]
  exact count_eq (by omega) fun g hg hlt => not_free_inside hfree hg hlt

/-! ### The frames so far -/

/-- The counter has passed exactly the frames that have been returned. -/
structure Inv (pa : PageAllocator) (calls : ℕ) (frames : List ℕ) (a : ℕ) : Prop where
  aligned : pageSize ∣ a
  bound : a ≤ pa.capacity + pageSize * calls
  mem : ∀ f, f ∈ frames ↔ Free pa f ∧ f < a
  length : frames.length = Nat.count (Free pa) a

variable {n : ℕ} {frames : List ℕ}

variable (pa) in
lemma inv_start : Inv pa 0 [] 0 := ⟨dvd_zero _, Nat.zero_le _, by simp, by simp⟩

lemma Inv.fits (hi : Inv pa n frames a) (hcap : pa.capacity ≤ 2 ^ 63)
    (hcalls : n < 2 ^ 50) : a + pageSize < 2 ^ 64 := by
  have hps : pageSize = 4096 := rfl
  have hbound := hi.bound
  rw [hps] at hbound ⊢
  omega

/-- The next free frame is returned. -/
lemma Inv.ok (hi : Inv pa n frames a) (hnext : NextFree pa a f) :
    Next pa frames (.ok (page f)) ∧ Inv pa (n + 1) (frames ++ [f]) (f + pageSize) := by
  obtain ⟨hfree, hle, hnone⟩ := hnext
  have hnone' : ∀ g, a ≤ g → g < f → ¬ Free pa g := fun g hg hlt => hnone g hlt hg
  have hnew : f ∉ frames := fun hin => by
    have hlt := ((hi.mem f).mp hin).2
    omega
  refine ⟨.ok hfree hnew ?_, Nat.dvd_add hfree.1 (dvd_refl _), ?_, fun g => ?_, ?_⟩
  · rw [hi.length]
    exact eq_nth hfree hle hnone'
  · exact hfree.2.1.trans (Nat.le_add_right _ _)
  · rw [List.mem_append, List.mem_singleton, hi.mem g]
    constructor
    · rintro (⟨hg, hlt⟩ | rfl)
      · exact ⟨hg, by omega⟩
      · exact ⟨hfree, Nat.lt_add_of_pos_right (by decide)⟩
    · rintro ⟨hg, hlt⟩
      by_cases hold : g < a
      · exact .inl ⟨hg, hold⟩
      · rcases Nat.lt_trichotomy g f with hlow | heq | hhigh
        · exact absurd hg (hnone g hlow (Nat.le_of_not_lt hold))
        · exact .inr heq
        · exact absurd hg (not_free_inside hfree hhigh hlt)
  · rw [List.length_append, List.length_singleton, hi.length]
    exact (count_taken hfree hle hnone').symm

/-- There is no free frame left. -/
lemma Inv.err (hi : Inv pa n frames a) (hal : pageSize ∣ b) (hle : a ≤ b)
    (hbound : b = a + pageSize ∨ b ≤ pa.capacity + pageSize)
    (hnone : ∀ g, a ≤ g → ¬ Free pa g) :
    Next pa frames .err ∧ Inv pa (n + 1) frames b := by
  have hold := hi.bound
  have hpassed : ∀ g, Free pa g → g < a := fun g hg => by
    by_contra hge
    exact hnone g (Nat.le_of_not_lt hge) hg
  refine ⟨.err fun g hg => (hi.mem g).mpr ⟨hg, hpassed g hg⟩, hal, ?_, fun g => ?_, ?_⟩
  · rw [Nat.mul_succ]
    omega
  · rw [hi.mem g]
    constructor
    · rintro ⟨hg, hlt⟩
      exact ⟨hg, by omega⟩
    · rintro ⟨hg, -⟩
      exact ⟨hg, hpassed g hg⟩
  · rw [hi.length]
    exact (count_eq hle fun g hg _ => hnone g hg).symm

/-! ### One call -/

lemma physicalAddress_page (f : ℕ) : physicalAddress (virtualAddress f) = f % 2 ^ 48 := by
  have hstart : vaStart % 2 ^ 48 = 0 := by
    rw [vaStart_eq]
    omega
  rw [physicalAddress_eq_mod, virtualAddress, Nat.or_mod_two_pow, hstart, Nat.or_zero]

/-- A call whose frame is mapped: that of the pointer, at least. -/
lemma alloc_mapped {s : Machine} (hr : retry pa retryBound s.allocated = (.ok f, a))
    (hf : f % 2 ^ 48 < mappedLen) :
    alloc pa s = (.ok (page f), { s with
      memory := s.memory.clear (f % 2 ^ 48) pageSize
      allocated := a }) := by
  have hsome : (kernelTranslation (f % 2 ^ 48)).isSome := by
    rw [kernelTranslation, if_pos hf]
    rfl
  rw [alloc, Exec.bind_ok (a := f) (t := { s with allocated := a })]
  · rw [writeZeroes, physicalAddress_page, if_pos hsome]
    rfl
  · rw [Exec.zoom, hr]

lemma alloc_faults {s : Machine} (hr : retry pa retryBound s.allocated = (.ok f, a))
    (hf : ¬ f % 2 ^ 48 < mappedLen) : alloc pa s = (.panic, { s with allocated := a }) := by
  have hnone : ¬ (kernelTranslation (f % 2 ^ 48)).isSome := by
    rw [kernelTranslation, if_neg hf]
    exact Bool.false_ne_true
  rw [alloc, Exec.bind_ok (a := f) (t := { s with allocated := a })]
  · rw [writeZeroes, physicalAddress_page, if_neg hnone]
    rfl
  · rw [Exec.zoom, hr]

lemma alloc_fails {s : Machine} (hr : retry pa retryBound s.allocated = (.err, a)) :
    alloc pa s = (.err, { s with allocated := a }) := by
  rw [alloc, Exec.bind_err]
  rw [Exec.zoom, hr]

/-- Below the end of the map this is the `alloc` that the rest of the development uses. -/
lemma alloc_eq {s : Machine} (hr : retry pa retryBound s.allocated = (.ok f, a))
    (hf : f < mappedLen) : alloc pa s = PageAllocator.alloc pa s := by
  have hlt : f < 2 ^ 48 := hf.trans (by decide)
  have hmod : f % 2 ^ 48 = f := Nat.mod_eq_of_lt hlt
  rw [alloc_mapped hr (by rwa [hmod]), alloc_ok hr, physicalAddress_page]
  rfl

/-! ### Runs -/

lemma Enumerates.snoc (h : Enumerates pa log) (he : Good pa log e) :
    Enumerates pa (log ++ [e]) := by
  intro before e' after hsplit
  rcases split_snoc hsplit with ⟨rfl, rfl⟩ | ⟨after', hlog⟩
  · exact he
  · exact h before e' after' hlog

lemma Enumerates.of_snoc (h : Enumerates pa (log ++ [e])) : Enumerates pa log ∧ Good pa log e := by
  refine ⟨fun before e' after hsplit => h before e' (after ++ [e]) ?_, h log e [] rfl⟩
  rw [hsplit, List.append_assoc, List.cons_append]

lemma step_eq {h : History} {memory : ByteMemory} {r : Outcome PageAllocation} {t : Machine}
    (hlog : (h.log.any fun e => e.result = .panic) = false)
    (hcall : alloc pa { h.machine with memory } = (r, t)) :
    step pa h memory = some ⟨t, h.log ++ [⟨r, t.memory⟩]⟩ := by
  unfold step
  rw [hlog, hcall]
  rfl

lemma step_of_alloc {h h' : History} {memory : ByteMemory} {r : Outcome PageAllocation}
    {t : Machine} (hcall : alloc pa { h.machine with memory } = (r, t))
    (hstep : step pa h memory = some h') : h' = ⟨t, h.log ++ [⟨r, t.memory⟩]⟩ := by
  have hlog : (h.log.any fun e => e.result = .panic) = false := by
    by_contra hpanic
    rw [step, if_pos ((Bool.not_eq_false _).mp hpanic)] at hstep
    cases hstep
  exact Option.some.inj (hstep.symm.trans (step_eq hlog hcall))

lemma returned_snoc (log : List Entry) (e : Entry) :
    returned (log ++ [e]) = returned log ++ (frame e.result).toList := by
  rw [returned, List.filterMap_append, returned]
  rcases hf : frame e.result with _ | f <;> simp [hf]

/-- The next frame cannot be cleared: the call faults, or the frame keeps its bytes. -/
lemma not_good {s t : Machine} {r : Outcome PageAllocation}
    (hretry : retry pa retryBound s.allocated = (.ok f, a)) (hc : ¬ Clearable s.memory f)
    (hcall : alloc pa s = (r, t)) : ¬ Good pa log ⟨r, t.memory⟩ := by
  intro hgood
  obtain ⟨hge, hkeeps⟩ := not_or.mp hc
  by_cases hf : f % 2 ^ 48 < mappedLen
  · rw [alloc_mapped hretry hf] at hcall
    obtain ⟨rfl, rfl⟩ := Prod.mk.inj hcall
    refine hkeeps ⟨hf, fun x hx => ?_⟩
    have hzero := hgood.zero (page f) rfl (f + x) (Nat.le_add_right _ _) (Nat.add_lt_add_left hx _)
    have hml : mappedLen = 2 ^ 39 := rfl
    have hps : pageSize = 4096 := rfl
    have hsame : (s.memory.clear (f % 2 ^ 48) pageSize) (f + x) = s.memory (f + x) :=
      ByteMemory.clear_of_outside (.inr (by omega))
    exact hsame.symm.trans hzero
  · rw [alloc_faults hretry hf] at hcall
    obtain ⟨rfl, rfl⟩ := Prod.mk.inj hcall
    cases hgood.next

/-- **Step lemma**: a call does what it should exactly if the next frame can be cleared, and then
the counter is where it should be. -/
lemma Inv.step {h h' : History} {memory : ByteMemory} (hr : Ranges pa)
    (hcap : pa.capacity ≤ 2 ^ 63) (hcalls : n < 2 ^ 50)
    (hi : Inv pa n (returned h.log) h.machine.allocated)
    (hstep : FrameEnumeration.step pa h memory = some h') :
    ∃ e, h'.log = h.log ++ [e] ∧ (Good pa h.log e ↔ Clears pa h memory) ∧
      (Clears pa h memory → Inv pa (n + 1) (returned h'.log) h'.machine.allocated) := by
  have hfits := hi.fits hcap hcalls
  rcases retry_next hr hcap hfits hi.aligned with
    ⟨f, hretry, hnext⟩ | ⟨b, hretry, hal, hle, hbound, hnone⟩
  · have hcapf := hnext.1.2.1
    have hps : pageSize = 4096 := rfl
    have hclears : Clears pa h memory ↔ Clearable memory f := by
      refine ⟨fun hc => hc f (by omega) hnext, fun hc g _ hg => ?_⟩
      obtain rfl : g = f := by
        by_contra hne
        rcases Nat.lt_or_gt_of_ne hne with hlt | hlt
        · exact hnext.2.2 g hlt hg.2.1 hg.1
        · exact hg.2.2 f hlt hnext.2.1 hnext.1
      exact hc
    obtain ⟨hres, hinv⟩ := hi.ok hnext
    by_cases hc : Clearable memory f
    · have hf : f % 2 ^ 48 < mappedLen := by
        rcases hc with hlt | ⟨hlt, -⟩
        · exact (Nat.mod_le _ _).trans_lt hlt
        · exact hlt
      have hcall := alloc_mapped (s := { h.machine with memory }) hretry hf
      obtain rfl := step_of_alloc hcall hstep
      refine ⟨_, rfl, iff_of_true ⟨hres, ?_⟩ (hclears.mpr hc), fun _ => ?_⟩
      · intro p hp x hle hlt
        obtain rfl := Outcome.ok.inj hp
        change f ≤ x at hle
        change x < f + pageSize at hlt
        by_cases hlow : f < mappedLen
        · have hmod : f % 2 ^ 48 = f := Nat.mod_eq_of_lt (hlow.trans (by decide))
          dsimp only
          rw [hmod]
          exact ByteMemory.clear_of_inside hle hlt
        · obtain ⟨-, hzero⟩ := hc.resolve_left hlow
          have hx := hzero (x - f) (by omega)
          rw [Nat.add_sub_cancel' hle] at hx
          dsimp only
          unfold ByteMemory.clear
          split
          · rfl
          · exact hx
      · rw [returned_snoc]
        exact hinv
    · rcases hcall : alloc pa { h.machine with memory } with ⟨r, t⟩
      obtain rfl := step_of_alloc hcall hstep
      refine ⟨_, rfl, iff_of_false ?_ (mt hclears.mp hc), fun h => absurd (hclears.mp h) hc⟩
      exact not_good (s := { h.machine with memory }) hretry hc hcall
  · have hclears : Clears pa h memory := fun g _ hg => absurd hg.1 (hnone g hg.2.1)
    have hcall := alloc_fails (s := { h.machine with memory }) hretry
    obtain rfl := step_of_alloc hcall hstep
    obtain ⟨hres, hinv⟩ := hi.err hal hle hbound hnone
    refine ⟨_, rfl, iff_of_true ⟨hres, nofun⟩ hclears, fun _ => ?_⟩
    rw [returned_snoc]
    simpa [frame] using hinv

lemma inv_of_guarded {m : ByteMemory} {asidCounter : BitVec 16} {es : List ByteMemory}
    {h : History} (hr : Ranges pa) (hcap : pa.capacity ≤ 2 ^ 63) (hlen : es.length ≤ 2 ^ 50)
    (hrun : Run (guarded (Clears pa) (step pa)) (start m asidCounter) es h) :
    Inv pa es.length (returned h.log) h.machine.allocated := by
  refine hrun.invariant_log (I := fun es h => es.length ≤ 2 ^ 50 →
    Inv pa es.length (returned h.log) h.machine.allocated) ?_ ?_ hlen
  swap
  · exact fun _ => inv_start pa
  intro es h memory h' hi hstep hle
  rw [List.length_append, List.length_singleton] at hle ⊢
  obtain ⟨hclears, hstep⟩ := guarded_eq_some.mp hstep
  obtain ⟨e, -, -, hinv⟩ := (hi (by omega)).step hr hcap (by omega) hstep
  exact hinv hclears

/-- **Enumeration of the free frames**: up to `2 ^ 50` calls return the free frames in order, each
once and filled with zeroes, and a call fails exactly when all of them have been returned, exactly
if every frame that is next when it is asked for can be cleared. -/
theorem enumerates_iff {m : ByteMemory} {asidCounter : BitVec 16} {calls : List ByteMemory}
    {h : History} (hr : Ranges pa) (hcap : pa.capacity ≤ 2 ^ 63) (hcalls : calls.length ≤ 2 ^ 50)
    (hrun : Run (step pa) (start m asidCounter) calls h) :
    Enumerates pa h.log ↔ Run (guarded (Clears pa) (step pa)) (start m asidCounter) calls h := by
  induction hrun with
  | nil =>
    refine iff_of_true (fun before e after hsplit => ?_) (.nil _)
    simp [start] at hsplit
  | @snoc h h' es memory hrun hstep ih =>
    rw [List.length_append, List.length_singleton] at hcalls
    have ih := ih (by omega)
    constructor
    · intro hall
      have hlog : ∃ e, h'.log = h.log ++ [e] := by
        rcases hcall : alloc pa { h.machine with memory } with ⟨r, t⟩
        exact ⟨_, congrArg History.log (step_of_alloc hcall hstep)⟩
      obtain ⟨e, hlog⟩ := hlog
      rw [hlog] at hall
      obtain ⟨hbefore, hgood⟩ := hall.of_snoc
      have hguarded := ih.mp hbefore
      obtain ⟨e', hlog', hiff, -⟩ :=
        (inv_of_guarded hr hcap (by omega) hguarded).step hr hcap (by omega) hstep
      obtain rfl : e = e' := by simpa using hlog.symm.trans hlog'
      exact hguarded.snoc (guarded_eq_some.mpr ⟨hiff.mp hgood, hstep⟩)
    · intro hguarded
      obtain ⟨t, ht, hst⟩ := hguarded.snoc_cases
      obtain rfl := hrun.unique (ht.mono fun _ _ _ hs => (guarded_eq_some.mp hs).2)
      obtain ⟨hclears, -⟩ := guarded_eq_some.mp hst
      obtain ⟨e, hlog, hiff, -⟩ :=
        (inv_of_guarded hr hcap (by omega) ht).step hr hcap (by omega) hstep
      rw [hlog]
      exact (ih.mpr ht).snoc (hiff.mpr hclears)

/-- An allocator of frames that the kernel maps. -/
lemma guarded_of_capacity (hcap : pa.capacity ≤ mappedLen) {h h' : History} {es : List ByteMemory}
    (hrun : Run (step pa) h es h') : Run (guarded (Clears pa) (step pa)) h es h' :=
  hrun.mono fun _ _ _ hs =>
    guarded_eq_some.mpr ⟨fun _ hf _ => .inl (hf.trans_le hcap), hs⟩

/-- Five frames, of which two reserved ranges touch three. -/
def touched : PageAllocator := ⟨5 * pageSize, [(12288, 12289), (3000, 5000)]⟩

def calls : List ByteMemory := List.replicate 3 fun _ => 0xFF

theorem enumerates_iff_touched :
    (reach (step touched) (start (fun _ => 0) 1) calls).log.map Entry.result =
        [.ok (page 8192), .ok (page 16384), .err] ∧
      Enumerates touched (reach (step touched) (start (fun _ => 0) 1) calls).log := by
  refine ⟨by decide +kernel, ?_⟩
  have hrun : Run (step touched) (start (fun _ => 0) 1) calls
      (reach (step touched) (start (fun _ => 0) 1) calls) := run_reach (by decide +kernel)
  exact (enumerates_iff (by unfold Ranges; decide) (by decide) (by decide) hrun).mpr
    (guarded_of_capacity (by decide) hrun)

/-- One frame behind the reserved ones, and behind what a kernel pointer can reach. -/
def wide : PageAllocator := ⟨2 ^ 48 + pageSize, [(0, 2 ^ 48)]⟩

/-- The pointer to that frame is the one to the frame 0, which is reserved: this one is cleared, and
the frame keeps its bytes. -/
theorem frame_not_cleared : ∃ h,
    Run (step wide) (start (fun _ => 0) 1) [fun _ => 0xFF] h ∧
      h.log.map Entry.result = [.ok (page (2 ^ 48))] ∧ h.machine.memory 0 = 0 ∧
      h.machine.memory (2 ^ 48) = 0xFF ∧ ¬ Enumerates wide h.log := by
  have hr : Ranges wide := by
    unfold Ranges
    decide
  have hfree : Free wide (2 ^ 48) := by decide
  have honly : ∀ f, Free wide f → f = 2 ^ 48 := by
    rintro f ⟨-, hle, hres⟩
    have hps : pageSize = 4096 := rfl
    have hcap : wide.capacity = 2 ^ 48 + pageSize := rfl
    rcases hres (0, 2 ^ 48) (List.mem_singleton_self _) with hlow | hhigh
    · dsimp only at hlow
      omega
    · dsimp only at hhigh
      omega
  rcases retry_next (a := 0) hr (by decide) (by decide) (dvd_zero _) with
    ⟨f, hretry, hnext⟩ | ⟨b, -, -, -, -, hnone⟩
  · obtain rfl := honly f hnext.1
    have hcall := alloc_mapped (s := ⟨fun _ => 0xFF, 0, 1⟩) hretry (by decide)
    refine ⟨_, .single (step_eq (h := start (fun _ => 0) 1) rfl hcall), rfl, rfl, rfl,
      fun hall => ?_⟩
    have hzero := (hall [] _ [] rfl).zero _ rfl (2 ^ 48) (Nat.le_refl _) (by decide)
    exact absurd hzero (by decide)
  · exact absurd hfree (hnone _ (Nat.zero_le _))

end Pimento.FrameEnumeration
