import Pimento.Contexts

/-!
The address space ids of live contexts.

An id comes from a 16-bit counter that knows nothing of the ids in use. The base register for
user space carries it next to the address of the root table, and the hardware tags what it keeps
of a translation with it.
-/

namespace Pimento.AddressSpaces

open Address PageAllocator MemoryContext Contexts Runs

/-- The ASID field of a translation table base register. -/
def asidOf (register : Word) : BitVec 16 := register.extractLsb' 48 16

/-- The address field of a translation table base register. -/
def tableOf (register : Word) : ℕ := (register.extractLsb' 0 48).toNat

/-- An entry of the translation lookaside buffer. -/
structure TlbEntry where
  asid : BitVec 16
  page : ℕ
  frame : ℕ
  deriving DecidableEq, Repr

/-- The hardware uses the entry under this value of the register. -/
def TlbEntry.usedUnder (e : TlbEntry) (register : Word) : Prop := e.asid = asidOf register

/-- No two live contexts share their translations. -/
structure Separated (w : World) : Prop where
  distinct : ∀ {c c' x x'}, w.contexts c = some x → w.contexts c' = some x' → x.asid = x'.asid →
    c = c'
  /-- The boot tables have the id 0. -/
  nonzero : ∀ {c x}, w.contexts c = some x → x.asid ≠ 0
  fields : ∀ {c x}, w.contexts c = some x →
    asidOf x.ttbr = x.asid ∧ tableOf x.ttbr = physicalAddress x.tableL0
  tlb : ∀ {c c' x x'} {e : TlbEntry}, w.contexts c = some x → w.contexts c' = some x' →
    e.usedUnder x.ttbr → e.usedUnder x'.ttbr → c = c'

/-- The step gives out an address space id. -/
def draws (pa : PageAllocator) (w : World) : Event → Bool
  | .create =>
    match (alloc pa w.machine).1 with
    | .ok _ => true
    | _ => false
  | _ => false

/-- A step that gives out an id finds that the counter has not come back to 0. -/
def CounterLeft (pa : PageAllocator) (w : World) (e : Event) : Prop :=
  draws pa w e = true → w.machine.asidCounter ≠ 0

instance (pa : PageAllocator) (w : World) (e : Event) : Decidable (CounterLeft pa w e) :=
  inferInstanceAs (Decidable (_ → _))

variable {pa : PageAllocator} {w w' : World} {x : MemoryContext} {n id : BitVec 16} {c : ℕ}

/-! ### The base register -/

lemma physicalAddress_lt (p : ℕ) : physicalAddress p < 2 ^ 48 := by
  rw [physicalAddress_eq_mod]
  exact Nat.mod_lt _ (by decide)

lemma shifted_getLsbD (i : ℕ) : (id.setWidth 64 <<< ttbrEl1AsidShift).getLsbD i =
    (decide (48 ≤ i) && id.getLsbD (i - 48)) := by
  rw [ttbrEl1AsidShift, BitVec.getLsbD_shiftLeft, BitVec.getLsbD_setWidth]
  by_cases hi : i < 64
  · by_cases h48 : i < 48
    · simp [hi, h48]
    · simp [hi, h48, show i - 48 < 64 by omega, Nat.not_lt.mp h48]
  · have hge : 16 ≤ i - 48 := by omega
    simp [hi, BitVec.getLsbD_of_ge _ _ hge]

lemma root_getLsbD {i : ℕ} (hi : 48 ≤ i) (p : ℕ) :
    (BitVec.ofNat 64 (physicalAddress p)).getLsbD i = false := by
  have hlt : physicalAddress p < 2 ^ i :=
    (physicalAddress_lt p).trans_le (Nat.pow_le_pow_right (by decide) hi)
  rw [BitVec.getLsbD_ofNat, Nat.testBit_lt_two_pow hlt, Bool.and_false]

/-- The id is read back from the register. -/
lemma asidOf_ttbr : asidOf x.ttbr = x.asid := by
  refine BitVec.eq_of_getLsbD_eq fun i hi => ?_
  have hlt : 48 + i - 48 = i := by omega
  rw [asidOf, BitVec.getLsbD_extractLsb', ttbr, BitVec.getLsbD_or, shifted_getLsbD,
    root_getLsbD (by omega), hlt]
  simp [hi]

/-- The address of the root table is read back from the register. -/
lemma tableOf_ttbr : tableOf x.ttbr = physicalAddress x.tableL0 := by
  have hlow : x.ttbr.extractLsb' 0 48 = BitVec.ofNat 48 (physicalAddress x.tableL0) := by
    refine BitVec.eq_of_getLsbD_eq fun i hi => ?_
    rw [BitVec.getLsbD_extractLsb', ttbr, BitVec.getLsbD_or, shifted_getLsbD,
      BitVec.getLsbD_ofNat, BitVec.getLsbD_ofNat]
    simp [hi, show ¬ 48 ≤ i by omega, show i < 64 by omega]
  rw [tableOf, hlow, BitVec.toNat_ofNat, Nat.mod_eq_of_lt (physicalAddress_lt _)]

/-! ### What a step does to the ids -/

/-- The counter and the id of the context a method works on. -/
def Unchanged (n id : BitVec 16) (s : Scope) : Prop :=
  s.machine.asidCounter = n ∧ s.context.asid = id

lemma keeps_onMemory {α : Type} (y : Exec ByteMemory α) :
    Exec.Keeps (Unchanged n id) (onMemory y) := Exec.keeps_zoom fun _ _ h => h

lemma keeps_onMachine {α : Type} {y : Exec Machine α}
    (hy : Exec.Keeps (fun m : Machine => m.asidCounter = n) y) :
    Exec.Keeps (Unchanged n id) (onMachine y) := fun s h => ⟨hy s.machine h.1, h.2⟩

lemma keeps_alloc (pa : PageAllocator) :
    Exec.Keeps (fun m : Machine => m.asidCounter = n) (alloc pa) := by
  unfold alloc
  refine Exec.Keeps.bind ?_ fun _ => Exec.Keeps.bind ?_ fun _ => Exec.keeps_pure _
  · exact Exec.keeps_zoom fun _ _ h => h
  · exact Exec.keeps_modify fun _ h => h

lemma keeps_allocPageRaw (pa : PageAllocator) :
    Exec.Keeps (Unchanged n id) (allocPageRaw pa) := by
  unfold allocPageRaw
  refine Exec.Keeps.bind ?_ fun _ => Exec.Keeps.bind ?_ fun _ => Exec.keeps_pure _
  · exact keeps_onMachine (keeps_alloc pa)
  · exact Exec.keeps_modify fun _ h => h

lemma keeps_traverseTableToTable (pa : PageAllocator) (table : PageTable.TableManager) (a : ℕ) :
    Exec.Keeps (Unchanged n id) (traverseTableToTable pa table a) := by
  unfold traverseTableToTable
  refine (Exec.keeps_okOr _).bind fun row => (keeps_onMemory _).bind fun type => ?_
  rcases type with _ | _ | _ | _
  · exact (keeps_allocPageRaw pa).bind fun _ => (Exec.keeps_okOr _).bind fun _ =>
      (keeps_onMemory _).bind fun _ => Exec.keeps_pure _
  · exact (keeps_onMemory _).bind fun _ => Exec.keeps_pure _
  · exact (keeps_allocPageRaw pa).bind fun _ => (Exec.keeps_okOr _).bind fun _ =>
      (keeps_onMemory _).bind fun _ => Exec.keeps_pure _
  · exact (keeps_allocPageRaw pa).bind fun _ => (Exec.keeps_okOr _).bind fun _ =>
      (keeps_onMemory _).bind fun _ => Exec.keeps_pure _

lemma keeps_traverseTableToPage (table : PageTable.TableManager) (a : ℕ) :
    Exec.Keeps (Unchanged n id) (traverseTableToPage pa table a) := by
  unfold traverseTableToPage
  refine (Exec.keeps_okOr _).bind fun row => (keeps_onMemory _).bind fun type => ?_
  rcases type with _ | _ | _ | _
  · exact (keeps_allocPageRaw pa).bind fun _ => (Exec.keeps_okOr _).bind fun _ =>
      (keeps_onMemory _).bind fun _ => Exec.keeps_pure _
  · exact (keeps_allocPageRaw pa).bind fun _ => (Exec.keeps_okOr _).bind fun _ =>
      (keeps_onMemory _).bind fun _ => Exec.keeps_pure _
  · exact (keeps_allocPageRaw pa).bind fun _ => (Exec.keeps_okOr _).bind fun _ =>
      (keeps_onMemory _).bind fun _ => Exec.keeps_pure _
  · exact (keeps_onMemory _).bind fun _ => Exec.keeps_pure _

/-- No id is given out, and no live context has another one. -/
structure SameIds (w w' : World) : Prop where
  counter : w'.machine.asidCounter = w.machine.asidCounter
  contexts : ∀ {c x}, w'.contexts c = some x → ∃ y, w.contexts c = some y ∧ y.asid = x.asid

lemma SameIds.refl (w : World) : SameIds w w := ⟨rfl, fun hc => ⟨_, hc, rfl⟩⟩

/-- A method has worked on a live context. -/
lemma SameIds.put {s : Scope} {call : Option (PageTable.TableManager × ℕ)}
    (hc : w.contexts c = some x) (hs : Unchanged w.machine.asidCounter x.asid s) :
    SameIds w (w.put c s call) where
  counter := hs.1
  contexts {c' x'} hc' := by
    by_cases hcc : c' = c
    · rw [hcc, put_self] at hc'
      obtain rfl := Option.some.inj hc'
      exact ⟨x, hcc ▸ hc, hs.2.symm⟩
    · exact ⟨x', (Function.update_of_ne hcc _ _).symm.trans hc', rfl⟩

lemma sameIds_advance {table : PageTable.TableManager} {a : ℕ} (hc : w.contexts c = some x) :
    SameIds w (advance pa w c x table a) := by
  unfold advance
  split
  · have hk := keeps_traverseTableToTable pa table a ⟨w.machine, x⟩ ⟨rfl, rfl⟩
    rcases ht : traverseTableToTable pa table a ⟨w.machine, x⟩ with ⟨_ | _ | _ | _, s⟩ <;>
      rw [ht] at hk <;> exact .put hc hk
  · exact .put hc (keeps_traverseTableToPage table a ⟨w.machine, x⟩ ⟨rfl, rfl⟩)

lemma sameIds_unmapped (hc : w.contexts c = some x) : SameIds w (unmapped pa w c x) := by
  have hk := keeps_allocPageRaw pa ⟨w.machine, x⟩ ⟨rfl, rfl⟩
  unfold unmapped allocPageUnmapped
  rcases ht : allocPageRaw pa ⟨w.machine, x⟩ with ⟨page | _ | _ | _, s⟩ <;> rw [ht] at hk
  · have hput : SameIds w (w.put c s none) := .put hc hk
    exact ⟨hput.counter, hput.contexts⟩
  · exact .put hc hk
  · exact .put hc hk
  · exact .put hc hk

lemma asidCounter_dropPages {keep : ℕ → Bool} (pages : List PageAllocation) (m : Machine) :
    (dropPages m keep pages).asidCounter = m.asidCounter := by
  unfold dropPages
  generalize pages.zipIdx = ps
  induction ps generalizing m with
  | nil => rfl
  | cons p ps ih =>
    rw [List.foldl_cons, ih]
    split <;> rfl

/-- A step gives out the id in the counter, to a new context, or none. -/
lemma step_ids {e : Event} (h : step pa w e = some w') :
    (draws pa w e = true ∧ w'.machine.asidCounter = w.machine.asidCounter + 1 ∧
        ∃ y : MemoryContext, y.asid = w.machine.asidCounter ∧
          w'.contexts = Function.update w.contexts w.next (some y)) ∨
      (draws pa w e = false ∧ SameIds w w') := by
  cases e with
  | create =>
    obtain rfl := Option.some.inj h
    have hcounter := keeps_alloc pa w.machine rfl
    unfold draws create new
    rcases ha : alloc pa w.machine with ⟨page | _ | _ | _, m⟩ <;> rw [ha] at hcounter
    · rw [Exec.bind_ok ha]
      refine .inl ⟨rfl, congrArg (· + 1) hcounter, _, hcounter, rfl⟩
    · rw [Exec.bind_err ha]
      exact .inr ⟨rfl, hcounter, fun hc => ⟨_, hc, rfl⟩⟩
    · rw [Exec.bind_panic ha]
      exact .inr ⟨rfl, hcounter, fun hc => ⟨_, hc, rfl⟩⟩
    · rw [Exec.bind_hang ha]
      exact .inr ⟨rfl, hcounter, fun hc => ⟨_, hc, rfl⟩⟩
  | start c a =>
    obtain ⟨x, -, rfl⟩ := Option.map_eq_some_iff.mp h
    exact .inr ⟨rfl, rfl, fun hc => ⟨_, hc, rfl⟩⟩
  | advance c =>
    obtain ⟨x, hc, h⟩ := Option.bind_eq_some_iff.mp h
    obtain ⟨call, -, rfl⟩ := Option.map_eq_some_iff.mp h
    exact .inr ⟨rfl, sameIds_advance hc⟩
  | unmapped c =>
    obtain ⟨x, hi, rfl⟩ := Option.map_eq_some_iff.mp h
    obtain ⟨-, hc⟩ := Option.ite_none_right_eq_some.mp hi
    exact .inr ⟨rfl, sameIds_unmapped hc⟩
  | dropHandle k =>
    obtain ⟨s, -, rfl⟩ := Option.map_eq_some_iff.mp h
    refine .inr ⟨rfl, ?_⟩
    unfold dropHandle
    split <;> exact ⟨rfl, fun hc => ⟨_, hc, rfl⟩⟩
  | drop c =>
    obtain ⟨x, -, rfl⟩ := Option.map_eq_some_iff.mp h
    refine .inr ⟨rfl, asidCounter_dropPages _ _, fun {c' x'} hc' => ?_⟩
    by_cases hcc : c' = c
    · have hnone : (drop w c x).contexts c = none := Function.update_self _ _ _
      rw [hcc, hnone] at hc'
      cases hc'
    · exact ⟨x', (Function.update_of_ne hcc _ _).symm.trans hc', rfl⟩
  | store c va b =>
    obtain ⟨x, -, h⟩ := Option.bind_eq_some_iff.mp h
    unfold store at h
    split at h
    · split at h
      · obtain rfl := Option.some.inj h
        exact .inr ⟨rfl, rfl, fun hc => ⟨_, hc, rfl⟩⟩
      · cases h
    · cases h

/-! ### Runs -/

/-- The ids in use lie below the counter, unless it has come back to 0. -/
structure Ordered (w : World) : Prop where
  distinct : ∀ {c c' x x'}, w.contexts c = some x → w.contexts c' = some x' → x.asid = x'.asid →
    c = c'
  nonzero : ∀ {c x}, w.contexts c = some x → x.asid ≠ 0
  below : ∀ {c x}, w.contexts c = some x → w.machine.asidCounter ≠ 0 →
    x.asid < w.machine.asidCounter

lemma Ordered.separated (h : Ordered w) : Separated w where
  distinct := h.distinct
  nonzero := h.nonzero
  fields _ := ⟨asidOf_ttbr, tableOf_ttbr⟩
  tlb hc hc' he he' := by
    refine h.distinct hc hc' ?_
    rw [← asidOf_ttbr (x := _), ← asidOf_ttbr (x := _)]
    exact he.symm.trans he'

lemma ordered_boot (m : Machine) : Ordered (boot m) := ⟨nofun, nofun, nofun⟩

lemma Ordered.step {e : Event} (h : Ordered w) (hleft : CounterLeft pa w e)
    (hstep : Contexts.step pa w e = some w') : Ordered w' := by
  rcases step_ids hstep with ⟨hdraws, hcounter, y, hy, hcontexts⟩ | ⟨-, hsame⟩
  · have hne : w.machine.asidCounter ≠ 0 := hleft hdraws
    -- a context of the new world is an old one, or the one that got the counter's value
    have hcases : ∀ {c x}, w'.contexts c = some x →
        (c = w.next ∧ x = y) ∨ (c ≠ w.next ∧ w.contexts c = some x) := fun {c x} hc => by
      rw [hcontexts] at hc
      by_cases hcn : c = w.next
      · rw [hcn, Function.update_self] at hc
        exact .inl ⟨hcn, (Option.some.inj hc).symm⟩
      · rw [Function.update_of_ne hcn] at hc
        exact .inr ⟨hcn, hc⟩
    refine ⟨fun {c c' x x'} hc hc' hid => ?_, fun {c x} hc => ?_, fun {c x} hc hne' => ?_⟩
    · rcases hcases hc with ⟨hcn, rfl⟩ | ⟨-, hold⟩ <;>
        rcases hcases hc' with ⟨hcn', rfl⟩ | ⟨-, hold'⟩
      · exact hcn.trans hcn'.symm
      · exact absurd (hid.symm.trans hy) (BitVec.ne_of_lt (h.below hold' hne))
      · exact absurd (hid.trans hy) (BitVec.ne_of_lt (h.below hold hne))
      · exact h.distinct hold hold' hid
    · rcases hcases hc with ⟨-, rfl⟩ | ⟨-, hold⟩
      · rwa [hy]
      · exact h.nonzero hold
    · rw [hcounter] at hne' ⊢
      rcases hcases hc with ⟨-, rfl⟩ | ⟨-, hold⟩
      · rw [hy]
        bv_omega
      · have hlt := h.below hold hne
        bv_omega
  · refine ⟨fun {c c' x x'} hc hc' hid => ?_, fun {c x} hc => ?_, fun {c x} hc hne => ?_⟩
    · obtain ⟨z, hz, hzx⟩ := hsame.contexts hc
      obtain ⟨z', hz', hzx'⟩ := hsame.contexts hc'
      exact h.distinct hz hz' (hzx.trans (hid.trans hzx'.symm))
    · obtain ⟨z, hz, hzx⟩ := hsame.contexts hc
      exact hzx ▸ h.nonzero hz
    · obtain ⟨z, hz, hzx⟩ := hsame.contexts hc
      rw [hsame.counter] at hne ⊢
      exact hzx ▸ h.below hz hne

/-- A context that is created with the counter at 0 has the id of the boot tables. -/
lemma not_separated {e : Event} (hleft : ¬ CounterLeft pa w e)
    (hstep : Contexts.step pa w e = some w') : ¬ Separated w' := by
  intro hs
  rcases step_ids hstep with ⟨-, -, y, hy, hcontexts⟩ | ⟨hdraws, -⟩
  · refine hleft fun _ hzero => ?_
    have hc : w'.contexts w.next = some y := by rw [hcontexts, Function.update_self]
    exact hs.nonzero hc (hy.trans hzero)
  · exact hleft fun hd => absurd (hd.symm.trans hdraws) (by decide)

/-- **Distinct address space ids**: from the boot of the kernel on, the live contexts keep
distinct ids, none of them the one of the boot tables, exactly as long as the counter has not come
back to 0 when a context is created. -/
theorem separated_iff {m : Machine} {es : List Event}
    (hrun : Run (step pa) (boot m) es w) :
    Always (step pa) Separated (boot m) es ↔
      Run (guarded (CounterLeft pa) (step pa)) (boot m) es w :=
  hrun.always_iff_guarded (J := Ordered) (fun _ _ _ h hc hst => h.step hc hst)
    (fun _ h => h.separated) (fun _ _ _ _ hc hst => not_separated hc hst) (ordered_boot m)

/-- A gigabyte, nothing of it reserved. -/
def gigabyte : PageAllocator := ⟨2 ^ 30, []⟩

def fresh : Machine := ⟨fun _ => 0, 0, 1⟩

/-- The world after `k` contexts have been created, and none dropped. -/
structure Created (w : World) (k : ℕ) : Prop where
  allocated : w.machine.allocated = pageSize * k
  counter : w.machine.asidCounter = BitVec.ofNat 16 (k + 1)
  next : w.next = k
  ids : ∀ i < k, ∃ x, w.contexts i = some x ∧ x.asid = BitVec.ofNat 16 (i + 1)

lemma Created.alloc_eq {k : ℕ} (h : Created w k) (hk : k < 2 ^ 18) :
    alloc gigabyte w.machine = (.ok ⟨w.machine.allocated, virtualAddress w.machine.allocated⟩,
      taken w.machine w.machine.allocated) := by
  have hps : pageSize = 4096 := rfl
  have hcap : gigabyte.capacity = 2 ^ 30 := rfl
  have ha := h.allocated
  rw [hps] at ha
  exact alloc_first gigabyte (by omega) (by omega) (by simp [gigabyte])

lemma Created.succ {k : ℕ} (h : Created w k) (hk : k < 2 ^ 18) :
    Created (create gigabyte w) (k + 1) := by
  have halloc := h.alloc_eq hk
  have hdraws : draws gigabyte w .create = true := by
    unfold draws
    rw [halloc]
  obtain ⟨hallocated, hnext⟩ : (create gigabyte w).machine.allocated =
      w.machine.allocated + pageSize ∧ (create gigabyte w).next = w.next + 1 := by
    unfold create new
    rw [Exec.bind_ok halloc]
    exact ⟨rfl, rfl⟩
  rcases step_ids (step_create gigabyte w) with ⟨-, hcounter, y, hy, hcontexts⟩ | ⟨hnot, -⟩
  · refine ⟨?_, ?_, by rw [hnext, h.next], fun i hi => ?_⟩
    · rw [hallocated, h.allocated, Nat.mul_succ]
    · rw [hcounter, h.counter]
      exact BitVec.ofNat_add_ofNat (k + 1) 1
    · rw [hcontexts, h.next]
      by_cases hik : i = k
      · exact ⟨y, by rw [hik, Function.update_self], by rw [hy, h.counter, hik]⟩
      · rw [Function.update_of_ne hik]
        exact h.ids i (by omega)
  · rw [hdraws] at hnot
    cases hnot

/-- Contexts are created one after the other; the first `2 ^ 16 - 1` of them meet the condition. -/
lemma run_create (k : ℕ) (hk : k ≤ 2 ^ 18) : ∃ w, Created w k ∧
    Run (step gigabyte) (boot fresh) (List.replicate k .create) w ∧
    (k < 2 ^ 16 → Run (guarded (CounterLeft gigabyte) (step gigabyte)) (boot fresh)
      (List.replicate k .create) w) := by
  induction k with
  | zero => exact ⟨boot fresh, ⟨rfl, rfl, rfl, nofun⟩, .nil _, fun _ => .nil _⟩
  | succ k ih =>
    obtain ⟨w, hw, hrun, hguard⟩ := ih (by omega)
    refine ⟨create gigabyte w, hw.succ (by omega), ?_, fun hlt => ?_⟩
    · rw [List.replicate_succ']
      exact hrun.snoc rfl
    · rw [List.replicate_succ']
      refine (hguard (by omega)).snoc (guarded_eq_some.mpr ⟨fun _ => ?_, rfl⟩)
      rw [hw.counter]
      intro hzero
      have hnat := congrArg BitVec.toNat hzero
      rw [BitVec.toNat_ofNat, Nat.mod_eq_of_lt hlt] at hnat
      cases hnat

theorem separated_iff_three : ∃ w,
    Run (step gigabyte) (boot fresh) [.create, .create, .create] w ∧
      Always (step gigabyte) Separated (boot fresh) [.create, .create, .create] := by
  obtain ⟨w, -, hrun, hguard⟩ := run_create 3 (by decide)
  exact ⟨w, hrun, (separated_iff hrun).mpr (hguard (by decide))⟩

/-- The context after the first `2 ^ 16 - 1` has the id of the boot tables, and the one after it
that of the first. -/
theorem asid_reused : ∃ w x₀ x₁ x₂,
    Run (step gigabyte) (boot fresh) (List.replicate 65537 .create) w ∧
      w.contexts 0 = some x₀ ∧ w.contexts 65535 = some x₁ ∧ w.contexts 65536 = some x₂ ∧
      x₁.asid = 0 ∧ x₂.asid = x₀.asid ∧ ¬ Separated w := by
  obtain ⟨w, hw, hrun, -⟩ := run_create 65537 (by decide)
  obtain ⟨x₀, h₀, hid₀⟩ := hw.ids 0 (by decide)
  obtain ⟨x₁, h₁, hid₁⟩ := hw.ids 65535 (by decide)
  obtain ⟨x₂, h₂, hid₂⟩ := hw.ids 65536 (by decide)
  refine ⟨w, x₀, x₁, x₂, hrun, h₀, h₁, h₂, hid₁, hid₂.trans hid₀.symm, fun hs => ?_⟩
  exact hs.nonzero h₁ hid₁

end Pimento.AddressSpaces
