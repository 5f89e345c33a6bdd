import Pimento.AddressSpaces
import Pimento.Isolation
import Pimento.UserPages

/-!
The translation lookaside buffer.

The hardware may keep any translation it finds, under the address space id of the base register,
and use it instead of a walk, as long as it likes: the kernel never invalidates one. Contexts are
created, work on their tables, are switched to and are dropped in any order.
-/

namespace Pimento.Tlb

open Address PageTable PageAllocator MemoryContext Descriptors Armv8 Placement TableTree Traverse
  AllocPage Contexts Ownership AddressSpaces Runs ByteMemory

/-- A translation that the hardware keeps. -/
structure Entry extends TlbEntry where
  attrIndex : BitVec 3
  el0 : Bool
  readOnly : Bool
  deriving DecidableEq, Repr

/-- What the hardware makes of an address of the page. -/
def Entry.translation (e : Entry) (va : ℕ) : Translation :=
  ⟨e.frame + va % pageSize, e.attrIndex, e.el0, e.readOnly, true⟩

/-- The hardware may use the entry. -/
def Entry.Hits (e : Entry) (register : Word) (va : ℕ) : Prop :=
  e.usedUnder register ∧ pageOf va = e.page

instance hitsDecidable (e : Entry) (register : Word) (va : ℕ) : Decidable (e.Hits register va) :=
  inferInstanceAs (Decidable (e.asid = asidOf register ∧ pageOf va = e.page))

/-- The kernel, the base register for user space, and what the hardware has kept. -/
structure System where
  world : World
  ttbr0El1 : Word
  tlb : List Entry

inductive Event
  /-- The kernel works on a context. -/
  | kernel (e : Contexts.Event)
  /-- `memory_context_switch` -/
  | switch (c : ℕ)
  /-- The hardware walks the tables for a page, and keeps what it finds. -/
  | fill (page : ℕ)
  | evict (k : ℕ)
  /-- User code of the context whose tables are in use stores a byte: the hardware uses an entry, or
  it walks. -/
  | store (c va : ℕ) (b : Byte) (entry : Option ℕ)
  deriving DecidableEq, Repr

/-- The entry for a page, as the base register stands: the builders of block and page descriptors
all begin with `NOT_GLOBAL`, so a translation is kept under the id in the register. -/
def keep (register : Word) (page : ℕ) (t : Translation) : Entry :=
  ⟨⟨asidOf register, page, t.outputAddress⟩, t.attrIndex, t.el0, t.readOnly⟩

def isKernel : Contexts.Event → Bool
  | .store .. => false
  | _ => true

/-- A byte is stored through a translation. -/
def storeThrough (w : World) (t : Translation) (b : Byte) : Option World :=
  if t.el0 && !t.readOnly then
    some { w with machine :=
      { w.machine with memory := w.machine.memory.writeBytes t.outputAddress [b] } }
  else none

/-- What the hardware finds for an address, by an entry or by a walk. -/
def find (s : System) (va : ℕ) : Option ℕ → Option Translation
  | some k => ((s.tlb[k]?).filter fun e => e.Hits s.ttbr0El1 va).map fun e => e.translation va
  | none => translate s.world.machine.memory (tableOf s.ttbr0El1) va

def step (pa : PageAllocator) (s : System) : Event → Option System
  | .kernel e => if isKernel e then (Contexts.step pa s.world e).map fun w => { s with world := w }
      else none
  | .switch c => (s.world.contexts c).map fun x => { s with ttbr0El1 := x.ttbr }
  | .fill page =>
    (translate s.world.machine.memory (tableOf s.ttbr0El1) (page * pageSize)).map fun t =>
      { s with tlb := keep s.ttbr0El1 page t :: s.tlb }
  | .evict k => some { s with tlb := s.tlb.eraseIdx k }
  | .store c va b entry => do
    let x ← s.world.contexts c
    if s.ttbr0El1 = x.ttbr then
      let t ← find s va entry
      (storeThrough s.world t b).map fun w => { s with world := w }
    else none

/-- The kernel before the first context is created. The register has the boot tables, and what the
hardware has kept came from them. -/
def boot (m : Machine) (tables : ℕ) (tlb : List Entry) : System :=
  ⟨Contexts.boot m, BitVec.ofNat 64 tables, tlb⟩

/-- What a kernel without the buffer does. -/
def erase : Event → List Contexts.Event
  | .kernel e => [e]
  | .store c va b _ => [.store c va b]
  | _ => []

/-- Neither of the allocator's counters has run out. -/
def CountersLeft (pa : PageAllocator) (s : System) : Event → Prop
  | .kernel e => CounterFits s.world e ∧ CounterLeft pa s.world e
  | _ => True

instance countersLeftDecidable (pa : PageAllocator) (s : System) (e : Event) :
    Decidable (CountersLeft pa s e) := by
  cases e <;> unfold CountersLeft <;> infer_instance

/-- What the hardware finds in the buffer is what a walk would find. -/
def Coherent (s : System) : Prop :=
  ∀ c x, s.world.contexts c = some x → s.ttbr0El1 = x.ttbr → ∀ e ∈ s.tlb, ∀ va,
    e.Hits s.ttbr0El1 va →
      translate s.world.machine.memory (tableOf s.ttbr0El1) va = some (e.translation va)

variable {pa : PageAllocator} {H : Layout} {w w' : World} {x x' : MemoryContext} {c va : ℕ}
  {t : Translation} {m m' : ByteMemory} {P P' : Space} {root a : ℕ}

/-! ### Walks go on to find what they have found -/

lemma translate_lt (ht : translate m root va = some t) : va < 2 ^ 48 := by
  by_contra hge
  rw [Armv8.translate, if_neg hge] at ht
  cases ht

/-- The tables have grown. -/
lemma translate_mono (hrep : Represents m P root) (hrep' : Represents m' P' root)
    (hle : ∀ p g, P 4 p = some g → P' 4 p = some g) (ht : translate m root va = some t) :
    translate m' root va = some t := by
  have hva := translate_lt ht
  rw [translate_eq hrep hva] at ht
  obtain ⟨g, hg, rfl⟩ := Option.map_eq_some_iff.mp ht
  rw [translate_eq hrep' hva, hle _ _ hg]
  rfl

/-- A context that is still there has its root table, and finds what it found. -/
structure WalksKept (w w' : World) : Prop where
  table : ∀ {c x x'}, w.contexts c = some x → w'.contexts c = some x' → x'.tableL0 = x.tableL0
  walk : ∀ {c x x' va t}, w.contexts c = some x → w'.contexts c = some x' →
    translate w.machine.memory (physicalAddress x.tableL0) va = some t →
      translate w'.machine.memory (physicalAddress x.tableL0) va = some t

/-- No table of a context that is still there has changed. -/
structure TablesSame (w w' : World) (H : Layout) : Prop where
  table : ∀ {c x x'}, w.contexts c = some x → w'.contexts c = some x' → x'.tableL0 = x.tableL0
  same : ∀ {c x x' l p f}, w.contexts c = some x → w'.contexts c = some x' → l ≤ levelMax →
    H (.node c l p) = some f → SameOn w.machine.memory w'.machine.memory f pageSize

lemma TablesSame.walksKept (h : TablesSame w w' H) (ho : Owned pa w H) : WalksKept w w' where
  table := h.table
  walk hc hc' ht := by
    have hrep := ho.represents hc
    exact translate_mono hrep (hrep.congr fun l p f hl hp => h.same hc hc' hl hp)
      (fun _ _ hg => hg) ht

/-- The memory and the calls may have changed, and the contexts have not. -/
lemma tablesSame_of_contexts (hw : w'.contexts = w.contexts)
    (hs : ∀ {c l p f}, l ≤ levelMax → H (.node c l p) = some f →
      SameOn w.machine.memory w'.machine.memory f pageSize) : TablesSame w w' H where
  table hc hc' := by
    rw [hw, hc] at hc'
    rw [Option.some.inj hc']
  same _ _ hl hp := hs hl hp

/-- A context has done something outside its tables. -/
lemma tablesSame_put {s : Scope} {call : Option (TableManager × ℕ)} (hc : w.contexts c = some x)
    (htable : s.context.tableL0 = x.tableL0)
    (hs : ∀ {c l p f}, l ≤ levelMax → H (.node c l p) = some f →
      SameOn w.machine.memory s.machine.memory f pageSize) : TablesSame w (w.put c s call) H where
  table {c' x₁ x₂} h₁ h₂ := by
    rcases update_eq_some h₂ with ⟨rfl, rfl⟩ | ⟨-, hold⟩
    · rw [htable, Option.some.inj (hc.symm.trans h₁)]
    · rw [Option.some.inj (h₁.symm.trans hold)]
  same _ _ hl hp := hs hl hp

section Steps

variable (h : Owned pa w H)
include h

lemma tablesSame_create (hcap : pa.capacity ≤ 2 ^ 48)
    (hfits : w.machine.allocated + pageSize < 2 ^ 64) : TablesSame w (create pa w) H := by
  have hnext : w.contexts w.next = none := (h.unused (le_refl _)).1
  unfold Contexts.create
  rcases hcall : MemoryContext.new pa w.machine with ⟨r, m'⟩
  rcases new_spec hcap hfits h.aligned with
    ⟨f, context, hspec, hle, -, -, -, -⟩ | ⟨a, hspec, -, -⟩
  · obtain ⟨rfl, hm⟩ := Prod.mk.inj (hcall.symm.trans hspec)
    refine ⟨fun {c x x'} hc hc' => ?_, fun {c x x' l p g} _ _ _ hp => ?_⟩
    · have hne : c ≠ w.next := by
        rintro rfl
        rw [hnext] at hc
        cases hc
      have hold : w.contexts c = some x' := (Function.update_of_ne hne _ _).symm.trans hc'
      rw [Option.some.inj (hc.symm.trans hold)]
    · show SameOn w.machine.memory m'.memory g pageSize
      rw [hm]
      exact h.sameOn_fresh hle hp
  · obtain ⟨rfl, hm⟩ := Prod.mk.inj (hcall.symm.trans hspec)
    refine tablesSame_of_contexts rfl fun {c l p g} _ _ => ?_
    show SameOn w.machine.memory m'.memory g pageSize
    rw [hm]
    exact .refl _ _ _

lemma tablesSame_unmapped (hcap : pa.capacity ≤ 2 ^ 48)
    (hfits : w.machine.allocated + pageSize < 2 ^ 64) (hc : w.contexts c = some x) :
    TablesSame w (unmapped pa w c x) H := by
  unfold Contexts.unmapped allocPageUnmapped
  rcases hcall : allocPageRaw pa ⟨w.machine, x⟩ with ⟨r, t⟩
  rcases allocPageRaw_cases (s := ⟨w.machine, x⟩) hcap hfits h.aligned with
    ⟨g, hspec, hle, -, -, -, -⟩ | ⟨a, hspec, -, -, -⟩
  · obtain ⟨rfl, ht⟩ := Prod.mk.inj (hcall.symm.trans hspec)
    have hput : TablesSame w (w.put c t none) H := tablesSame_put hc (by rw [ht])
      fun {c l p f} _ hp => by
        rw [ht]
        exact h.sameOn_fresh hle hp
    exact ⟨hput.table, hput.same⟩
  · obtain ⟨rfl, ht⟩ := Prod.mk.inj (hcall.symm.trans hspec)
    refine tablesSame_put hc (by rw [ht]; rfl) fun {c l p f} _ _ => ?_
    rw [ht]
    exact .refl _ _ _

lemma tablesSame_dropHandle {id : ℕ} {e : Stack} (he : w.stack id = some e) :
    TablesSame w (dropHandle w id e) H := by
  obtain ⟨hx, hptr⟩ := h.stack he
  unfold Contexts.dropHandle
  split
  · exact tablesSame_of_contexts rfl fun {c l p f} _ _ => .refl _ _ _
  · exact tablesSame_of_contexts rfl fun {c l p f} _ hp =>
      h.sameOn_dealloc hx hptr hp (by rintro ⟨⟩)

lemma tablesSame_drop (hc : w.contexts c = some x) : TablesSame w (drop w c x) H := by
  have hlive : ∀ {c' x'}, (Contexts.drop w c x).contexts c' = some x' →
      c' ≠ c ∧ w.contexts c' = some x' := fun {c' x'} hc' => by
    have hup : Function.update w.contexts c none c' = some x' := hc'
    by_cases hcc : c' = c
    · rw [hcc, Function.update_self] at hup
      cases hup
    · rw [Function.update_of_ne hcc] at hup
      exact ⟨hcc, hup⟩
  refine ⟨fun hc₁ hc₂ => ?_, fun {c₁ x₁ x₂ l p f} _ hc₂ _ hp => ?_⟩
  · rw [Option.some.inj (hc₁.symm.trans (hlive hc₂).2)]
  · refine h.sameOn_drop hc (x := .node c₁ l p) ?_
    exact (if_neg (hlive hc₂).1).trans hp

lemma tablesSame_store {b : Byte} (hc : w.contexts c = some x)
    (hstep : store w va b x = some w') : TablesSame w w' H := by
  unfold Contexts.store at hstep
  rcases ht : translate w.machine.memory (physicalAddress x.tableL0) va with _ | t
  · rw [ht] at hstep
    cases hstep
  rw [ht] at hstep
  obtain ⟨-, hw⟩ := Option.ite_none_right_eq_some.mp hstep
  obtain rfl := Option.some.inj hw
  obtain ⟨g, hg, rfl, -⟩ := h.accessible hc ht
  refine tablesSame_of_contexts rfl fun {c' l p f} hl hp y hy₁ hy₂ =>
    (writeBytes_of_outside ?_).symm
  have hdisj := h.disjoint hp hg fun e => by
    have := (Position.node.inj e).2.1
    have hmax : levelMax = 3 := rfl
    omega
  have hmod : va % pageSize < pageSize := Nat.mod_lt _ (by decide)
  simp only [userPage, List.length_singleton]
  omega

/-- A step of a call: a level of the tables, or nothing. -/
lemma advance_cases {table : TableManager} (hcap : pa.capacity ≤ 2 ^ 48)
    (hfits : CounterFits w (.advance c)) (hc : w.contexts c = some x)
    (hcall : w.calls c = some (table, a)) :
    (∃ call, advance pa w c x table a = w.put c ⟨w.machine, x⟩ call) ∨
      ∃ l f ch s call, l ≤ levelMax ∧ H (.node c l (path l a)) = some f ∧
        Child pa (H.space c) ⟨w.machine, x⟩ l f a ch s ∧
        advance pa w c x table a = w.put c s call := by
  obtain ⟨x', hc', hcase⟩ := h.calls hcall
  obtain rfl : x' = x := Option.some.inj (hc'.symm.trans hc)
  unfold Contexts.advance
  rcases hcase with ⟨ha, rfl⟩ | ⟨ha, l, f, hl, hx, rfl⟩
  · have hstep : traverseTableToTable pa (rootTable x') a ⟨w.machine, x'⟩ =
        (.err, ⟨w.machine, x'⟩) := by
      rw [traverseTableToTable, rowByAddress_root_none ha, Exec.okOr_none]
      rfl
    have hlt : (rootTable x').level < levelMax := Nat.zero_lt_succ 2
    rw [if_pos hlt, hstep]
    exact .inl ⟨none, rfl⟩
  · obtain ⟨root, hs⟩ := h.holds hc
    have hwrap := fun hnone => hfits (h.takesFrame hc ha hl hx hcall hnone)
    refine .inr ?_
    rcases Nat.lt_or_ge l levelMax with hlt | hge
    · obtain ⟨ch, s, hchild, hstep⟩ :=
        traverseTableToTable_child hcap hs.aligned hwrap hs.rep ha hx hlt
      rw [if_pos (show (managerAt l f a).level < levelMax from hlt), hstep]
      rcases ch with _ | g <;> exact ⟨l, f, _, s, _, hl, hx, hchild, rfl⟩
    · obtain ⟨ch, s, hchild, hstep⟩ := traverseTableToPage_child hcap hs.aligned hwrap hs.rep ha hx
        (le_antisymm hl hge)
      rw [if_neg (show ¬ (managerAt l f a).level < levelMax from Nat.not_lt.mpr hge), hstep]
      exact ⟨l, f, ch, s, none, hl, hx, hchild, rfl⟩

/-- A call has put a table or page below one of its context. -/
lemma walksKept_child {l f : ℕ} {ch : Option ℕ} {s : Scope} (call : Option (TableManager × ℕ))
    (hc : w.contexts c = some x) (hl : l ≤ levelMax) (hx : H (.node c l (path l a)) = some f)
    (hchild : Child pa (H.space c) ⟨w.machine, x⟩ l f a ch s) :
    WalksKept w (w.put c s call) := by
  obtain ⟨root, hs⟩ := h.holds hc
  obtain ⟨hs', hto, -⟩ := hs.child hchild hl hx
  have htable : s.context.tableL0 = x.tableL0 := hs'.table.trans hs.table.symm
  have hcases : ∀ {c' x₁ x₂}, w.contexts c' = some x₁ → (w.put c s call).contexts c' = some x₂ →
      (c' = c ∧ x₁ = x ∧ x₂ = s.context) ∨ (c' ≠ c ∧ x₁ = x₂) := fun {c' x₁ x₂} h₁ h₂ => by
    rcases update_eq_some h₂ with ⟨rfl, rfl⟩ | ⟨hne, hold⟩
    · exact .inl ⟨rfl, Option.some.inj (h₁.symm.trans hc), rfl⟩
    · exact .inr ⟨hne, Option.some.inj (h₁.symm.trans hold)⟩
  refine ⟨fun h₁ h₂ => ?_, fun {c' x₁ x₂ va t} h₁ h₂ ht => ?_⟩
  · rcases hcases h₁ h₂ with ⟨-, rfl, rfl⟩ | ⟨-, rfl⟩
    · exact htable
    · rfl
  · have hrep := h.represents h₁
    rcases hcases h₁ h₂ with ⟨rfl, rfl, rfl⟩ | ⟨hne, rfl⟩
    · have hroot : physicalAddress x₁.tableL0 = root := UserPages.physicalAddress_root hs
      rw [hroot] at ht ⊢
      exact translate_mono hs.rep hs'.rep (fun p g hg => hto.mono hg) ht
    · refine translate_mono hrep (hrep.congr fun l' p' g hl' hg => ?_) (fun _ _ hg => hg) ht
      refine hto.frame g (hrep.frame hg) (h.fits.below hg) fun l'' p'' _ hg' => hne ?_
      exact (Position.node.inj (h.fits.inj hg hg')).1

/-- **One step** of the kernel or of user code. -/
lemma walksKept_step {e : Contexts.Event} (hcap : pa.capacity ≤ 2 ^ 48) (hfits : CounterFits w e)
    (hstep : Contexts.step pa w e = some w') : WalksKept w w' := by
  have hidle : ∀ {c x}, w.idle c = some x → w.contexts c = some x := fun hi =>
    (Option.ite_none_right_eq_some.mp hi).2
  cases e with
  | create =>
    obtain rfl := Option.some.inj hstep
    exact (tablesSame_create h hcap (hfits rfl)).walksKept h
  | start c a =>
    obtain ⟨x, -, rfl⟩ := Option.map_eq_some_iff.mp hstep
    have hsame : TablesSame w { w with
        calls := Function.update w.calls c (some (rootTable x, a)) } H :=
      tablesSame_of_contexts rfl fun {c l p f} _ _ => .refl _ _ _
    exact hsame.walksKept h
  | advance c =>
    obtain ⟨x, hc, hmap⟩ := Option.bind_eq_some_iff.mp hstep
    obtain ⟨⟨table, a⟩, hcall, rfl⟩ := Option.map_eq_some_iff.mp hmap
    rcases advance_cases h hcap hfits hc hcall with
      ⟨call, hw⟩ | ⟨l, f, ch, s, call, hl, hx, hchild, hw⟩
    · have hput : TablesSame w (w.put c ⟨w.machine, x⟩ call) H :=
        tablesSame_put hc rfl fun {c l p f} _ _ => .refl _ _ _
      have hkept := hput.walksKept h
      rw [← hw] at hkept
      exact hkept
    · have hkept := walksKept_child h call hc hl hx hchild
      rw [← hw] at hkept
      exact hkept
  | unmapped c =>
    obtain ⟨x, hi, rfl⟩ := Option.map_eq_some_iff.mp hstep
    exact (tablesSame_unmapped h hcap (hfits rfl) (hidle hi)).walksKept h
  | dropHandle id =>
    obtain ⟨e, he, rfl⟩ := Option.map_eq_some_iff.mp hstep
    exact (tablesSame_dropHandle h (Option.filter_eq_some_iff.mp he).1).walksKept h
  | drop c =>
    obtain ⟨x, hi, rfl⟩ := Option.map_eq_some_iff.mp hstep
    exact (tablesSame_drop h (hidle hi)).walksKept h
  | store c va b =>
    obtain ⟨x, hc, hs⟩ := Option.bind_eq_some_iff.mp hstep
    exact (tablesSame_store h hc hs).walksKept h

end Steps

/-! ### The buffer -/

variable {s s' : System}

/-- What holds between the steps: the ids that the register and the entries carry are those of
contexts that have been created, or of the boot tables. -/
structure Inv (pa : PageAllocator) (s : System) : Prop where
  owned : ∃ H, Owned pa s.world H
  ids : Ordered s.world
  register : ∀ {c x}, s.world.contexts c = some x → asidOf s.ttbr0El1 = x.asid →
    s.ttbr0El1 = x.ttbr
  below : s.world.machine.asidCounter ≠ 0 → asidOf s.ttbr0El1 < s.world.machine.asidCounter
  entries : ∀ {c x e va}, e ∈ s.tlb → s.world.contexts c = some x → e.asid = x.asid →
    pageOf va = e.page →
      translate s.world.machine.memory (physicalAddress x.tableL0) va = some (e.translation va)
  entriesBelow : ∀ e ∈ s.tlb, s.world.machine.asidCounter ≠ 0 →
    e.asid < s.world.machine.asidCounter

lemma Inv.coherent (h : Inv pa s) : Coherent s := fun c x hc hr e he va ⟨hused, hpage⟩ => by
  have hasid : e.asid = x.asid := by
    rw [← asidOf_ttbr (x := x), ← hr]
    exact hused
  rw [hr, tableOf_ttbr]
  exact h.entries he hc hasid hpage

lemma inv_boot {m : Machine} {tables : ℕ} {tlb : List Entry} (hal : pageSize ∣ m.allocated)
    (hcounter : m.asidCounter = 1) (ht : tables < 2 ^ 48) (htlb : ∀ e ∈ tlb, e.asid = 0) :
    Inv pa (boot m tables tlb) where
  owned := ⟨_, Isolation.owned_boot hal⟩
  ids := ordered_boot m
  register h := by cases h
  below _ := by
    have hzero : asidOf (BitVec.ofNat 64 tables) = 0 := by
      refine BitVec.eq_of_toNat_eq ?_
      rw [asidOf, BitVec.extractLsb'_toNat, BitVec.toNat_ofNat, Nat.shiftRight_eq_div_pow,
        Nat.mod_eq_of_lt (b := 2 ^ 64) (by omega), Nat.div_eq_of_lt ht]
      rfl
    show asidOf (BitVec.ofNat 64 tables) < m.asidCounter
    rw [hzero, hcounter]
    decide
  entries _ h := by cases h
  entriesBelow e he _ := by
    show e.asid < m.asidCounter
    rw [htlb e he, hcounter]
    decide

/-- A context after a step was there before, or it is new and has the id in the counter. -/
lemma step_contexts {e : Contexts.Event} (hleft : CounterLeft pa w e)
    (hstep : Contexts.step pa w e = some w') :
    (w'.machine.asidCounter = w.machine.asidCounter ∨
      w.machine.asidCounter ≠ 0 ∧ w'.machine.asidCounter = w.machine.asidCounter + 1) ∧
    ∀ {c x'}, w'.contexts c = some x' →
      (∃ x, w.contexts c = some x ∧ x.asid = x'.asid) ∨
        w.machine.asidCounter ≠ 0 ∧ x'.asid = w.machine.asidCounter := by
  rcases step_ids hstep with ⟨hdraws, hcounter, y, hy, hcontexts⟩ | ⟨-, hsame⟩
  · refine ⟨.inr ⟨hleft hdraws, hcounter⟩, fun {c x'} hc => ?_⟩
    rw [hcontexts] at hc
    rcases update_eq_some hc with ⟨-, rfl⟩ | ⟨-, hold⟩
    · exact .inr ⟨hleft hdraws, hy⟩
    · exact .inl ⟨x', hold, rfl⟩
  · exact ⟨.inl hsame.counter, fun hc => .inl (hsame.contexts hc)⟩

/-- The kernel or user code has taken a step. -/
lemma Inv.world {e : Contexts.Event} (hcap : pa.capacity ≤ 2 ^ 48) (h : Inv pa s)
    (hfits : CounterFits s.world e) (hleft : CounterLeft pa s.world e)
    (hstep : Contexts.step pa s.world e = some w') : Inv pa { s with world := w' } := by
  obtain ⟨H, ho⟩ := h.owned
  have hkept := walksKept_step ho hcap hfits hstep
  obtain ⟨hcounter, hcontexts⟩ := step_contexts hleft hstep
  have hgrow : ∀ {id : BitVec 16}, w'.machine.asidCounter ≠ 0 →
      (s.world.machine.asidCounter ≠ 0 → id < s.world.machine.asidCounter) →
        id < w'.machine.asidCounter := fun {id} hne hid => by
    rcases hcounter with he | ⟨hold, he⟩
    · rw [he] at hne ⊢
      exact hid hne
    · have hlt := hid hold
      rw [he] at hne ⊢
      bv_omega
  refine ⟨ho.step hcap hfits hstep, h.ids.step hleft hstep, fun {c x'} hc' hid => ?_,
    fun hne => hgrow hne h.below, fun {c x' e va} he hc' hid hpage => ?_,
    fun e he hne => hgrow hne (h.entriesBelow e he)⟩
  · rcases hcontexts hc' with ⟨x, hc, hx⟩ | ⟨hne, hx⟩
    · rw [h.register hc (hid.trans hx.symm), ttbr, ttbr, hx, hkept.table hc hc']
    · exact absurd (hid.trans hx) (BitVec.ne_of_lt (h.below hne))
  · rcases hcontexts hc' with ⟨x, hc, hx⟩ | ⟨hne, hx⟩
    · dsimp only at hc' ⊢
      rw [hkept.table hc hc']
      exact hkept.walk hc hc' (h.entries he hc (hid.trans hx.symm) hpage)
    · exact absurd (hid.trans hx) (BitVec.ne_of_lt (h.entriesBelow e he hne))

lemma Inv.switch (h : Inv pa s) (hc : s.world.contexts c = some x) :
    Inv pa { s with ttbr0El1 := x.ttbr } where
  owned := h.owned
  ids := h.ids
  register {c' x'} hc' hid := by
    rw [asidOf_ttbr] at hid
    obtain rfl := h.ids.distinct hc hc' hid
    rw [Option.some.inj (hc.symm.trans hc')]
  below hne := by
    rw [asidOf_ttbr]
    exact h.ids.below hc hne
  entries := h.entries
  entriesBelow := h.entriesBelow

/-- The hardware keeps what it has found for the page. -/
lemma translate_page (hrep : Represents m P root) {page : ℕ}
    (ht : translate m root (page * pageSize) = some t) (hpage : pageOf va = page) :
    translate m root va = some ⟨t.outputAddress + va % pageSize, t.attrIndex, t.el0, t.readOnly,
      true⟩ := by
  have hlt := translate_lt ht
  have hva : va < 2 ^ 48 := by
    have hlt' : page * 4096 < 2 ^ 48 := hlt
    have hdiv : va / 4096 = page := hpage
    omega
  have hbase : pageOf (page * pageSize) = page := Nat.mul_div_cancel _ (by decide)
  rw [translate_eq hrep hlt, hbase] at ht
  obtain ⟨g, hg, rfl⟩ := Option.map_eq_some_iff.mp ht
  rw [translate_eq hrep hva, hpage, hg]
  simp [userPage]

lemma Inv.fill {page : ℕ} (h : Inv pa s)
    (ht : translate s.world.machine.memory (tableOf s.ttbr0El1) (page * pageSize) = some t) :
    Inv pa { s with tlb := keep s.ttbr0El1 page t :: s.tlb } where
  owned := h.owned
  ids := h.ids
  register := h.register
  below := h.below
  entries {c x e va} he hc hid hpage := by
    obtain ⟨H, ho⟩ := h.owned
    rcases List.mem_cons.mp he with rfl | he
    · have hr : s.ttbr0El1 = x.ttbr := h.register hc hid
      rw [hr, tableOf_ttbr] at ht
      exact translate_page (ho.represents hc) ht hpage
    · exact h.entries he hc hid hpage
  entriesBelow e he hne := by
    rcases List.mem_cons.mp he with rfl | he
    · exact h.below hne
    · exact h.entriesBelow e he hne

lemma Inv.evict (k : ℕ) (h : Inv pa s) : Inv pa { s with tlb := s.tlb.eraseIdx k } where
  owned := h.owned
  ids := h.ids
  register := h.register
  below := h.below
  entries he := h.entries (List.mem_of_mem_eraseIdx he)
  entriesBelow e he := h.entriesBelow e (List.mem_of_mem_eraseIdx he)

/-- A store goes where it would go without the buffer. -/
lemma store_eq (hr : s.ttbr0El1 = x.ttbr)
    (ht : translate s.world.machine.memory (tableOf s.ttbr0El1) va = some t) (b : Byte) :
    Contexts.store s.world va b x = storeThrough s.world t b := by
  rw [hr, tableOf_ttbr] at ht
  unfold Contexts.store
  rw [ht]
  rfl

/-- **One step** keeps the invariant, and does what a kernel without the buffer does. -/
lemma Inv.step {e : Event} (hcap : pa.capacity ≤ 2 ^ 48) (h : Inv pa s)
    (hleft : CountersLeft pa s e) (hstep : Tlb.step pa s e = some s') :
    Inv pa s' ∧ Run (guarded CounterFits (Contexts.step pa)) s.world (erase e) s'.world := by
  cases e with
  | kernel e =>
    obtain ⟨-, hstep⟩ := Option.ite_none_right_eq_some.mp hstep
    obtain ⟨w, hw, rfl⟩ := Option.map_eq_some_iff.mp hstep
    exact ⟨h.world hcap hleft.1 hleft.2 hw, .single (guarded_eq_some.mpr ⟨hleft.1, hw⟩)⟩
  | switch c =>
    obtain ⟨x, hc, rfl⟩ := Option.map_eq_some_iff.mp hstep
    exact ⟨h.switch hc, .nil _⟩
  | fill page =>
    obtain ⟨t, ht, rfl⟩ := Option.map_eq_some_iff.mp hstep
    exact ⟨h.fill ht, .nil _⟩
  | evict k =>
    obtain rfl := Option.some.inj hstep
    exact ⟨h.evict k, .nil _⟩
  | store c va b entry =>
    obtain ⟨x, hc, hstep⟩ := Option.bind_eq_some_iff.mp hstep
    obtain ⟨hr, hstep⟩ := Option.ite_none_right_eq_some.mp hstep
    obtain ⟨t, hentry, hstep⟩ := Option.bind_eq_some_iff.mp hstep
    obtain ⟨w, hw, rfl⟩ := Option.map_eq_some_iff.mp hstep
    have ht : translate s.world.machine.memory (tableOf s.ttbr0El1) va = some t := by
      rcases entry with _ | k
      · exact hentry
      · obtain ⟨e, he, rfl⟩ := Option.map_eq_some_iff.mp hentry
        obtain ⟨he, hhits⟩ := Option.filter_eq_some_iff.mp he
        exact h.coherent c x hc hr e (List.mem_of_getElem? he) va (of_decide_eq_true hhits)
    have hstore : Contexts.step pa s.world (.store c va b) = some w := by
      rw [Contexts.step, hc, Option.bind_some, store_eq hr ht, hw]
    have hfits : CounterFits s.world (.store c va b) := fun hf => by cases hf
    have hids : CounterLeft pa s.world (.store c va b) := fun hd => by cases hd
    exact ⟨h.world hcap hfits hids hstore, .single (guarded_eq_some.mpr ⟨hfits, hstore⟩)⟩

/-- **The buffer cannot be seen**: whatever the hardware keeps and for however long, and although
the kernel never invalidates an entry, an entry it may use says what a walk would find, and what
the kernel and user code do is what they would do without it, as long as the counters of the
allocator and of the address space ids do not run out. -/
theorem tlb_transparent {m : Machine} {tables : ℕ} {tlb : List Entry} {es : List Event}
    (hcap : pa.capacity ≤ 2 ^ 48) (hal : pageSize ∣ m.allocated) (hcounter : m.asidCounter = 1)
    (ht : tables < 2 ^ 48) (htlb : ∀ e ∈ tlb, e.asid = 0)
    (hrun : Run (guarded (CountersLeft pa) (step pa)) (boot m tables tlb) es s) :
    Coherent s ∧
      Run (guarded CounterFits (Contexts.step pa)) (Contexts.boot m) (es.flatMap erase) s.world := by
  obtain ⟨hinv, hworld⟩ := hrun.simulate System.world erase (I := Inv pa)
    (fun _ _ _ h hstep => by
      obtain ⟨hleft, hstep⟩ := guarded_eq_some.mp hstep
      exact h.step hcap hleft hstep) (inv_boot hal hcounter ht htlb)
  exact ⟨hinv.coherent, hworld⟩

open UserMapping (roomy)

/-- A context maps a page. -/
def mapPage (c va : ℕ) : List Event :=
  .kernel (.start c va) :: List.replicate 4 (.kernel (.advance c))

/-- Two contexts use the same page, through what the hardware has kept for each of them; then the
first one is dropped. -/
def samePage : List Event :=
  [.kernel .create, .switch 0] ++ mapPage 0 0x5000 ++ [.fill 5, .store 0 0x5010 7 (some 0)] ++
    .kernel .create :: mapPage 1 0x5000 ++ [.switch 1, .fill 5, .store 1 0x5010 9 (some 0),
      .evict 0, .kernel (.drop 0), .store 1 0x5011 8 none]

/-- The page, as the boot tables have it. -/
def bootEntry : Entry := ⟨⟨0, 5, 0x5000⟩, 1, false, false⟩

theorem tlb_transparent_samePage : ∃ s : System,
    Run (guarded (CountersLeft roomy) (step roomy)) (boot ⟨fun _ => 0, 0, 1⟩ 0x100000 [bootEntry])
      samePage s ∧ s.tlb.map (fun e => (e.asid, e.page)) = [(1, 5), (0, 5)] ∧ Coherent s ∧
      Run (guarded CounterFits (Contexts.step roomy)) (Contexts.boot ⟨fun _ => 0, 0, 1⟩)
        (samePage.flatMap erase) s.world := by
  have hrun : Run (guarded (CountersLeft roomy) (step roomy))
      (boot ⟨fun _ => 0, 0, 1⟩ 0x100000 [bootEntry]) samePage
      (reach (guarded (CountersLeft roomy) (step roomy))
        (boot ⟨fun _ => 0, 0, 1⟩ 0x100000 [bootEntry]) samePage) :=
    run_reach (by decide +kernel)
  exact ⟨_, hrun, by decide +kernel,
    tlb_transparent (by decide) (by decide) rfl (by decide) (by decide) hrun⟩

end Pimento.Tlb
