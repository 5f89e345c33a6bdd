import Pimento.Isolation

/-!
What a call of `alloc_page` costs, and where the pages of a context go.

Any number of contexts share one allocator, and their calls do not overlap. A call takes one frame
for each level of the walk that is missing, and every frame a context has recorded is its root, a
table or page below it, or an unmapped allocation.
-/

namespace Pimento.AllocationCost

open Address PageTable PageAllocator MemoryContext Armv8 Placement TableTree Traverse AllocPage
  Contexts Ownership Runs ByteMemory

/-! ### Counting nodes -/

/-- The node at a path, found as the hardware finds it: a table or, below the last one, a page. -/
def nodeAt (m : ByteMemory) (root l p : ℕ) : Option ℕ :=
  if l ≤ levelMax then tableAt m root l p
  else (translate m root (p * pageSize)).map Translation.outputAddress

/-- The root table of a context, as the hardware gets it. -/
def rootOf (c : MemoryContext) : ℕ := physicalAddress c.tableL0

/-- How many levels of the walk to an address, below the root table, are not there yet. -/
def missing (s : Scope) (a : ℕ) : ℕ :=
  ((Finset.range 4).filter fun l =>
    nodeAt s.machine.memory (rootOf s.context) (l + 1) (path (l + 1) a) = none).card

/-- How many frames the allocator has left. -/
def free (pa : PageAllocator) (s : Scope) : ℕ := freeFrames pa s.machine.allocated

/-- The call has taken `n` frames, and recorded each of them. -/
structure Takes (pa : PageAllocator) (s s' : Scope) (n : ℕ) : Prop where
  spent : free pa s = free pa s' + n
  recorded : s'.context.pageAllocations.length = s.context.pageAllocations.length + n

variable {pa : PageAllocator} {P P' : Space} {s s' : Scope} {m : ByteMemory} {root a l p v : ℕ}

/-- The nodes below the root of a placement. -/
def nodes (P : Space) : ℕ :=
  ∑ l ∈ Finset.range 4,
    ((Finset.range (rowCount ^ (l + 1))).filter fun p => P (l + 1) p ≠ none).card

/-- The levels on the way to an address that a placement has no node for. -/
def absent (v : ℕ) (P : Space) : ℕ :=
  ((Finset.range 4).filter fun l => P (l + 1) (path (l + 1) v) = none).card

lemma nodeAt_eq (hrep : Represents m P root) (hl : l ≤ 4) (hp : p < rowCount ^ l) :
    nodeAt m root l p = P l p := by
  have hmax : levelMax = 3 := rfl
  unfold nodeAt
  by_cases hl3 : l ≤ levelMax
  · rw [if_pos hl3, tableAt_eq hrep l p hl3]
  · obtain rfl : l = 4 := by omega
    have hrc : rowCount ^ 4 * pageSize = 2 ^ 48 := by norm_num [rowCount, pageSize]
    have hlt : p * pageSize < 2 ^ 48 := by
      rw [← hrc]
      exact Nat.mul_lt_mul_of_pos_right hp (by decide)
    have hpage : pageOf (p * pageSize) = p := Nat.mul_div_cancel _ (by decide)
    rw [if_neg hl3, translate_eq hrep hlt, hpage, Option.map_map]
    have hid : (Translation.outputAddress ∘ userPage (p * pageSize)) = id := funext fun g => by
      show g + p * pageSize % pageSize = g
      rw [Nat.mul_mod_left, Nat.add_zero]
    rw [hid, Option.map_id, id]

/-- A path has one digit a level. -/
lemma path_lt (hv : v < 2 ^ 48) (hl : l ≤ 4) : path l v < rowCount ^ l := by
  have hpow : rowCount ^ (4 - l) * rowCount ^ l = rowCount ^ 4 := by
    rw [← Nat.pow_add, Nat.sub_add_cancel hl]
  refine Nat.div_lt_of_lt_mul ?_
  rw [hpow]
  exact Nat.div_lt_of_lt_mul (by rw [show pageSize * rowCount ^ 4 = 2 ^ 48 from rfl]; exact hv)

lemma missing_eq (hs : Represents s.machine.memory P (rootOf s.context)) (hv : v < 2 ^ 48) :
    missing s v = absent v P := by
  refine congrArg Finset.card (Finset.filter_congr fun l hl => ?_)
  have hl4 : l < 4 := Finset.mem_range.mp hl
  rw [nodeAt_eq hs hl4 (path_lt hv hl4)]

/-- A call gains nodes below the root only. -/
lemma gained_eq (hroot : P 0 (path 0 v) ≠ none) : gained v P P' = ∑ l ∈ Finset.range 4,
    if P (l + 1) (path (l + 1) v) = none ∧ P' (l + 1) (path (l + 1) v) ≠ none then 1 else 0 := by
  have hzero : ¬ (P 0 (path 0 v) = none ∧ P' 0 (path 0 v) ≠ none) := fun h => hroot h.1
  rw [gained, Finset.card_filter, Finset.sum_range_succ', if_neg hzero, Nat.add_zero]

/-- A level gains at most the one node on the way. -/
lemma card_level (honly : ∀ p, P' l p = P l p ∨ (P l p = none ∧ p = path l v))
    (hp : path l v < rowCount ^ l) :
    ((Finset.range (rowCount ^ l)).filter fun p => P' l p ≠ none).card =
      ((Finset.range (rowCount ^ l)).filter fun p => P l p ≠ none).card +
        if P l (path l v) = none ∧ P' l (path l v) ≠ none then 1 else 0 := by
  by_cases hnew : P l (path l v) = none ∧ P' l (path l v) ≠ none
  · have hset : ((Finset.range (rowCount ^ l)).filter fun p => P' l p ≠ none) =
        Insert.insert (path l v) ((Finset.range (rowCount ^ l)).filter fun p => P l p ≠ none) := by
      ext p
      rw [Finset.mem_insert, Finset.mem_filter, Finset.mem_filter, Finset.mem_range]
      constructor
      · rintro ⟨hlt, hs⟩
        rcases honly p with he | ⟨-, he⟩
        · exact .inr ⟨hlt, he ▸ hs⟩
        · exact .inl he
      · rintro (rfl | ⟨hlt, hs⟩)
        · exact ⟨hp, hnew.2⟩
        · rcases honly p with he | ⟨hn, -⟩
          · exact ⟨hlt, he ▸ hs⟩
          · exact absurd hn hs
    have hnot : path l v ∉ (Finset.range (rowCount ^ l)).filter fun p => P l p ≠ none :=
      fun hin => (Finset.mem_filter.mp hin).2 hnew.1
    rw [if_pos hnew, hset, Finset.card_insert_of_notMem hnot]
  · rw [if_neg hnew, Nat.add_zero]
    refine congrArg Finset.card (Finset.filter_congr fun p _ => ?_)
    rcases honly p with he | ⟨hn, rfl⟩
    · rw [he]
    · rw [hn]
      by_cases hs : P' l (path l v) = none
      · rw [hs]
      · exact absurd ⟨hn, hs⟩ hnew

lemma nodes_eq (h : Towards pa v s P s' P') (hv : v < 2 ^ 48) (hroot : P 0 (path 0 v) ≠ none) :
    nodes P' = nodes P + gained v P P' := by
  rw [gained_eq hroot, nodes, nodes, ← Finset.sum_add_distrib]
  refine Finset.sum_congr rfl fun l hl => ?_
  have hl4 : l < 4 := Finset.mem_range.mp hl
  exact card_level (h.only (l + 1)) (path_lt hv hl4)

/-! ### The cost of a call -/

lemma absent_pos (h : P 4 (pageOf v) = none) : 0 < absent v P := by
  refine Finset.card_pos.mpr ⟨3, Finset.mem_filter.mpr ⟨by decide, ?_⟩⟩
  rwa [path_last]

/-- The registers point to the root of the placement. -/
lemma Holds.root_eq (hs : Holds s P root) : rootOf s.context = root := by
  have hframe := hs.rep.frame hs.rep.placed.root
  rw [rootOf, hs.table]
  exact physicalAddress_virtualAddress (k := 0) hframe.2

lemma Holds.represents (hs : Holds s P root) :
    Represents s.machine.memory P (rootOf s.context) := by
  rw [Holds.root_eq hs]
  exact hs.rep

/-- A call that takes a frame finds the allocator's counter below the end of its range. -/
def CallFits (s : Scope) (a : ℕ) : Prop :=
  a < 2 ^ 48 → 0 < missing s a → s.machine.allocated + pageSize < 2 ^ 64

instance (s : Scope) (a : ℕ) : Decidable (CallFits s a) := inferInstanceAs (Decidable (_ → _ → _))

/-- A context, and how many unmapped pages its callers have got. -/
structure Owner where
  context : MemoryContext
  unmapped : ℕ
  deriving DecidableEq, Repr

structure Owners where
  machine : Machine
  owners : List Owner

inductive Call
  | new
  | allocPage (i a : ℕ)
  | allocPageUnmapped (i : ℕ)
  deriving DecidableEq, Repr

/-- Before the first context is created. -/
def begin (m : Machine) : Owners := ⟨m, []⟩

variable (pa) in
def callStep (w : Owners) : Call → Option Owners
  | .new =>
    match MemoryContext.new pa w.machine with
    | (.ok context, machine) => some ⟨machine, w.owners ++ [⟨context, 0⟩]⟩
    | (_, machine) => some { w with machine }
  | .allocPage i a => w.owners[i]?.map fun o =>
      let s := (MemoryContext.allocPage pa a ⟨w.machine, o.context⟩).2
      ⟨s.machine, w.owners.set i { o with context := s.context }⟩
  | .allocPageUnmapped i => w.owners[i]?.map fun o =>
      match MemoryContext.allocPageUnmapped pa ⟨w.machine, o.context⟩ with
      | (.ok _, s) => ⟨s.machine, w.owners.set i ⟨s.context, o.unmapped + 1⟩⟩
      | (_, s) => ⟨s.machine, w.owners.set i { o with context := s.context }⟩

/-- A call that takes a frame finds the allocator's counter below the end of its range. -/
def Fits (w : Owners) : Call → Prop
  | .new => w.machine.allocated + pageSize < 2 ^ 64
  | .allocPage i a => ∀ o ∈ w.owners[i]?, CallFits ⟨w.machine, o.context⟩ a
  | .allocPageUnmapped _ => w.machine.allocated + pageSize < 2 ^ 64

instance (w : Owners) (e : Call) : Decidable (Fits w e) := by
  cases e <;> unfold Fits <;> infer_instance

/-- The placements of the contexts have no frame in common. -/
structure Kept (w : Owners) (Ps : ℕ → Space) : Prop where
  aligned : pageSize ∣ w.machine.allocated
  holds : ∀ {i o}, w.owners[i]? = some o → ∃ root, Holds ⟨w.machine, o.context⟩ (Ps i) root
  live : ∀ {i l p f}, Ps i l p = some f → i < w.owners.length
  apart : ∀ {i j l p l' p' f}, Ps i l p = some f → Ps j l' p' = some f → i = j
  count : ∀ {i o}, w.owners[i]? = some o →
    o.context.pageAllocations.length = 1 + nodes (Ps i) + o.unmapped

/-- What a method of one context leaves to the others: it takes fresh frames only, and changes no
byte outside its tables and these. -/
structure Extends (m m' : Machine) (P P' : Space) : Prop where
  allocated : m.allocated ≤ m'.allocated
  fresh : ∀ {l p f}, P' l p = some f → P l p = some f ∨ m.allocated ≤ f
  frame : ∀ h, Descriptors.IsFrame h → h + pageSize ≤ m.allocated →
    (∀ l p, l ≤ levelMax → P l p ≠ some h) → SameOn m.memory m'.memory h pageSize

/-- A frame of a context lies below the counter. -/
lemma Kept.below {w : Owners} {Ps : ℕ → Space} (h : Kept w Ps) {i f : ℕ}
    (hp : Ps i l p = some f) : f + pageSize ≤ w.machine.allocated := by
  have hi := h.live hp
  obtain ⟨root, hs⟩ := h.holds (List.getElem?_eq_getElem hi)
  exact hs.below hp

/-- A context whose frames are none of those that have changed. -/
lemma Extends.holds {m m' : Machine} {c : MemoryContext} {Q : Space} (h : Extends m m' P P')
    (hal : pageSize ∣ m'.allocated) (hs : Holds ⟨m, c⟩ Q root)
    (hapart : ∀ l p l' p' f, P l p = some f → Q l' p' ≠ some f) : Holds ⟨m', c⟩ Q root where
  rep := hs.rep.congr fun l p f _ hp => h.frame f (hs.rep.frame hp) (hs.below hp)
    fun l' p' _ hp' => hapart l' p' l p f hp' hp
  table := hs.table
  below hp := (hs.below hp).trans h.allocated
  aligned := hal

/-- One context, new or old, has worked on the machine. -/
lemma Kept.extend {w : Owners} {Ps : ℕ → Space} {m' : Machine} {os : List Owner} {i : ℕ}
    {o : Owner} (h : Kept w Ps) (hext : Extends w.machine m' (Ps i) P')
    (hs : Holds ⟨m', o.context⟩ P' root)
    (hcount : o.context.pageAllocations.length = 1 + nodes P' + o.unmapped)
    (hself : os[i]? = some o) (hother : ∀ j, j ≠ i → os[j]? = w.owners[j]?)
    (hlen : w.owners.length ≤ os.length) : Kept ⟨m', os⟩ (Function.update Ps i P') := by
  have hps : 0 < pageSize := by decide
  have hapart : ∀ {j l p l' p' f}, j ≠ i → P' l p = some f → Ps j l' p' ≠ some f :=
    fun hj hp hp' => by
      rcases hext.fresh hp with hold | hnew
      · exact hj (h.apart hp' hold)
      · have hbelow := h.below hp'
        omega
  refine ⟨hs.aligned, fun {j o'} ho' => ?_, fun {j l p f} hp => ?_,
    fun {j k l p l' p' f} hp hp' => ?_, fun {j o'} ho' => ?_⟩
  · by_cases hj : j = i
    · rw [hj] at ho' ⊢
      obtain rfl := Option.some.inj (hself.symm.trans ho')
      rw [Function.update_self]
      exact ⟨root, hs⟩
    · rw [Function.update_of_ne hj]
      obtain ⟨root', hs'⟩ := h.holds ((hother j hj).symm.trans ho')
      exact ⟨root', hext.holds hs.aligned hs' fun l p l' p' f hp hp' => hj (h.apart hp' hp)⟩
  · by_cases hj : j = i
    · rw [hj]
      exact (List.getElem?_eq_some_iff.mp hself).1
    · rw [Function.update_of_ne hj] at hp
      exact (h.live hp).trans_le hlen
  · by_cases hj : j = i <;> by_cases hk : k = i
    · exact hj.trans hk.symm
    · rw [hj, Function.update_self] at hp
      rw [Function.update_of_ne hk] at hp'
      exact absurd hp' (hapart hk hp)
    · rw [Function.update_of_ne hj] at hp
      rw [hk, Function.update_self] at hp'
      exact absurd hp (hapart hj hp')
    · rw [Function.update_of_ne hj] at hp
      rw [Function.update_of_ne hk] at hp'
      exact h.apart hp hp'
  · by_cases hj : j = i
    · rw [hj] at ho' ⊢
      obtain rfl := Option.some.inj (hself.symm.trans ho')
      rw [Function.update_self]
      exact hcount
    · rw [Function.update_of_ne hj]
      exact h.count ((hother j hj).symm.trans ho')

section Steps

variable {w w' : Owners} {Ps : ℕ → Space} {i : ℕ} {o o' : Owner} (h : Kept w Ps)
include h

/-- The context of an owner has worked on the machine. -/
lemma Kept.set {t : Scope} {u : ℕ} (ho : w.owners[i]? = some o)
    (hext : Extends w.machine t.machine (Ps i) P') (hs : Holds t P' root)
    (hcount : t.context.pageAllocations.length = 1 + nodes P' + u) :
    Kept ⟨t.machine, w.owners.set i ⟨t.context, u⟩⟩ (Function.update Ps i P') := by
  have hlt : i < w.owners.length := (List.getElem?_eq_some_iff.mp ho).1
  refine h.extend (o := ⟨t.context, u⟩) hext hs hcount (List.getElem?_set_self hlt)
    (fun j hj => List.getElem?_set_ne hj.symm) ?_
  rw [List.length_set]

lemma Kept.allocPage (hcap : pa.capacity ≤ 2 ^ 48) (ho : w.owners[i]? = some o)
    (hfits : CallFits ⟨w.machine, o.context⟩ a) :
    ∃ Ps', Kept ⟨(MemoryContext.allocPage pa a ⟨w.machine, o.context⟩).2.machine,
      w.owners.set i
        { o with context := (MemoryContext.allocPage pa a ⟨w.machine, o.context⟩).2.context }⟩
      Ps' := by
  obtain ⟨root, hs⟩ := h.holds ho
  have hcount := h.count ho
  rcases Nat.lt_or_ge a (2 ^ 48) with ha | ha
  · have hroot : Ps i 0 (path 0 a) ≠ none := by
      rw [path_root ha, hs.rep.placed.root]
      exact Option.some_ne_none root
    obtain ⟨c, t, P', ht, hto, -, -, -, -, -, hcall⟩ := allocPage_spec hcap ha hs fun hnone =>
      hfits ha (missing_eq (Holds.represents hs) ha ▸ absent_pos hnone)
    rw [hcall]
    refine ⟨_, h.set ho ⟨hto.allocated, fun {l p f} hp => ?_, hto.frame⟩ ht ?_⟩
    · rcases hold : Ps i l p with _ | f'
      · exact .inr (hto.fresh hold hp)
      · exact .inl ((hto.mono hold).symm.trans hp)
    · rw [hto.recorded, hcount, nodes_eq hto ha hroot]
      omega
  · rw [allocPage_out_of_range ha]
    refine ⟨_, h.set (t := ⟨w.machine, o.context⟩) ho ⟨le_refl _, .inl, fun _ _ _ _ => .refl _ _ _⟩
      hs hcount⟩

lemma Kept.allocPageUnmapped (hcap : pa.capacity ≤ 2 ^ 48) (ho : w.owners[i]? = some o)
    (hfits : w.machine.allocated + pageSize < 2 ^ 64)
    (hstep : callStep pa w (.allocPageUnmapped i) = some w') : ∃ Ps', Kept w' Ps' := by
  obtain ⟨root, hs⟩ := h.holds ho
  have hcount := h.count ho
  have hps : 0 < pageSize := by decide
  unfold callStep at hstep
  simp only [ho, Option.map_some] at hstep
  obtain rfl := Option.some.inj hstep
  unfold MemoryContext.allocPageUnmapped
  rcases allocPageRaw_cases (s := ⟨w.machine, o.context⟩) hcap hfits hs.aligned with
    ⟨g, hcall, hle, hg, -, -, -⟩ | ⟨b, hcall, hle, hal, -⟩ <;> rw [hcall]
  · have hsame : ∀ f, f + pageSize ≤ w.machine.allocated →
        SameOn w.machine.memory (w.machine.memory.clear g pageSize) f pageSize := fun f hf =>
      sameOn_clear (.inl (hf.trans hle))
    have hext : Extends w.machine (taken w.machine g) (Ps i) (Ps i) :=
      ⟨hle.trans (Nat.le_add_right _ _), .inl, fun f _ hf _ => hsame f hf⟩
    have hs' : Holds ⟨taken w.machine g, o.context⟩ (Ps i) root := by
      refine ⟨hs.rep.congr fun l p f _ hp => hsame f (hs.below hp), hs.table, fun hp => ?_, ?_⟩
      · exact (hs.below hp).trans hext.allocated
      · exact Nat.dvd_add hg.1 (dvd_refl _)
    refine ⟨_, h.set ho hext ⟨hs'.rep, hs'.table, hs'.below, hs'.aligned⟩ ?_⟩
    rw [List.length_append, List.length_singleton, hcount]
    omega
  · have hext : Extends w.machine { w.machine with allocated := b } (Ps i) (Ps i) :=
      ⟨hle, .inl, fun _ _ _ _ => .refl _ _ _⟩
    refine ⟨_, h.set (t := exhausted ⟨w.machine, o.context⟩ b) ho hext
      ⟨hs.rep, hs.table, fun hp => (hs.below hp).trans hle, hal⟩ hcount⟩

lemma Kept.new (hcap : pa.capacity ≤ 2 ^ 48) (hfits : w.machine.allocated + pageSize < 2 ^ 64)
    (hstep : callStep pa w .new = some w') : ∃ Ps', Kept w' Ps' := by
  unfold callStep at hstep
  rcases new_spec hcap hfits h.aligned with
    ⟨f, c, hcall, hle, -, -, hpages, hs⟩ | ⟨b, hcall, hle, hal⟩ <;> rw [hcall] at hstep <;>
    obtain rfl := Option.some.inj hstep
  · have hnone : ∀ l p, Ps w.owners.length l p = none := fun l p => by
      rcases hp : Ps w.owners.length l p with _ | f
      · rfl
      · exact absurd (h.live hp) (Nat.lt_irrefl _)
    refine ⟨_, h.extend (i := w.owners.length) (o := ⟨c, 0⟩)
      ⟨hle.trans (Nat.le_add_right _ _), fun hp => ?_, fun g _ hg _ => ?_⟩ hs ?_ ?_ ?_ ?_⟩
    · obtain ⟨-, -, rfl⟩ := single_eq_some hp
      exact .inr hle
    · exact sameOn_clear (.inl (hg.trans hle))
    · have hnodes : nodes (single f) = 0 := by
        refine Finset.sum_eq_zero fun l _ => ?_
        rw [Finset.card_eq_zero, Finset.filter_eq_empty_iff]
        intro p _ hp
        exact hp (if_neg fun he => Nat.succ_ne_zero l he.1)
      rw [hpages, hnodes]
      rfl
    · exact List.getElem?_concat_length
    · intro j hj
      rcases Nat.lt_or_ge j w.owners.length with hlt | hge
      · exact List.getElem?_append_left hlt
      · rw [List.getElem?_eq_none (by rw [List.length_append, List.length_singleton]; omega),
          List.getElem?_eq_none hge]
    · rw [List.length_append]
      exact Nat.le_add_right _ _
  · have hext : Extends w.machine { w.machine with allocated := b } (fun _ _ => none)
        (fun _ _ => none) := ⟨hle, .inl, fun _ _ _ _ => .refl _ _ _⟩
    refine ⟨Ps, hal, fun ho => ?_, h.live, h.apart, h.count⟩
    obtain ⟨root, hs⟩ := h.holds ho
    exact ⟨root, hext.holds hal hs nofun⟩

/-- **One call** of any context. -/
theorem Kept.step {e : Call} (hcap : pa.capacity ≤ 2 ^ 48) (hfits : Fits w e)
    (hstep : callStep pa w e = some w') : ∃ Ps', Kept w' Ps' := by
  cases e with
  | new => exact h.new hcap hfits hstep
  | allocPage i a =>
    obtain ⟨o, ho, rfl⟩ := Option.map_eq_some_iff.mp hstep
    exact h.allocPage hcap ho (hfits o ho)
  | allocPageUnmapped i =>
    obtain ⟨o, ho, -⟩ := Option.map_eq_some_iff.mp hstep
    exact h.allocPageUnmapped hcap ho hfits hstep

end Steps

open UserMapping (roomy tight worn new_tight allocPage_worn)

/-- The only context of the tight allocator, with the counter at `c`. -/
def wornOwners (c : ℕ) : Owners := ⟨(worn c).machine, [⟨(worn c).context, 0⟩]⟩

lemma callStep_new {w : Owners} {c : MemoryContext} {t : Machine}
    (h : MemoryContext.new pa w.machine = (.ok c, t)) :
    callStep pa w .new = some ⟨t, w.owners ++ [⟨c, 0⟩]⟩ := by
  unfold callStep
  rw [h]

lemma callStep_allocPage {w : Owners} {i : ℕ} {o : Owner} {r : Outcome ℕ} {t : Scope}
    (ho : w.owners[i]? = some o)
    (h : MemoryContext.allocPage pa a ⟨w.machine, o.context⟩ = (r, t)) :
    callStep pa w (.allocPage i a) =
      some ⟨t.machine, w.owners.set i { o with context := t.context }⟩ := by
  unfold callStep
  simp only [ho, Option.map_some, h]

lemma run_worn (k : ℕ) (hk : k ≤ 2 ^ 52 - 2) :
    Run (callStep tight) (begin ⟨fun _ => 0, 0, 1⟩)
      (.new :: List.replicate k (.allocPage 0 0)) (wornOwners (pageSize * (k + 1))) := by
  have hps : pageSize = 4096 := rfl
  induction k with
  | zero => exact Run.single (callStep_new new_tight)
  | succ k ih =>
    have hcall := allocPage_worn (a := pageSize * (k + 1)) (by rw [hps]; omega) (by rw [hps]; omega)
    rw [List.replicate_succ', ← List.cons_append]
    exact (ih (by omega)).snoc (callStep_allocPage (w := wornOwners (pageSize * (k + 1)))
      (o := ⟨(worn (pageSize * (k + 1))).context, 0⟩) rfl hcall)

end Pimento.AllocationCost
