import Pimento.AddressSpaces
import Pimento.AllocationCost
import Pimento.UserPages

/-!
User memory as a store.

Contexts that share an allocator map pages, and data is copied to and from user addresses. A copy is
a method of a context, but it goes through the tables that the base register names: those of the
context that the core has switched to last. For each context user memory is a partial map from
addresses to bytes.
-/

namespace Pimento.UserMemory

open Address PageTable PageAllocator MemoryContext Armv8 Descriptors Placement TableTree Traverse
  AllocPage UserCopy ByteMemory UserPages AddressSpaces Runs
open AllocationCost (Owner Owners Kept Extends CallFits)

/-! ### What user memory is -/

/-- The bytes of the mapped pages by their addresses. -/
abbrev View := ℕ → Option Byte

namespace View

/-- No page is mapped. -/
def none : View := fun _ => Option.none

/-- A page is mapped, clear if it is new. -/
def mapPage (v : ℕ) (m : View) : View := fun a : ℕ =>
  if pageOf a = pageOf v then some ((m a).getD 0) else m a

/-- Bytes are written from an address on. -/
def write (dst : ℕ) (src : List Byte) (m : View) : View := fun a =>
  ((⟨dst, src⟩ : Piece Byte).get? a).or (m a)

/-- All of the addresses are mapped. -/
def Mapped (m : View) (a n : ℕ) : Prop := ∀ k < n, m (a + k) ≠ Option.none

def bytes (m : View) (a n : ℕ) : List Byte := (List.range n).map fun k => (m (a + k)).getD 0

end View

inductive Call
  /-- `new`, `alloc_page` and `alloc_page_unmapped` -/
  | work (c : AllocationCost.Call)
  /-- `memory_context_switch` -/
  | switch (i : ℕ)
  /-- A copy, as a method of the context `i`. -/
  | copyToUser (i : ℕ) (src : List Byte) (dst : ℕ)
  | copyFromUser (i src count : ℕ)
  deriving DecidableEq, Repr

inductive Reply
  | ok
  | err
  | bytes (bs : List Byte)
  deriving DecidableEq, Repr

/-- The user memories of the contexts, and the context in use. -/
structure Memories where
  views : List View
  inUse : Option ℕ

namespace Memories

/-- The user memory in use. -/
def current (ms : Memories) : Option View := ms.inUse.bind fun i => ms.views[i]?

def modify (ms : Memories) (i : ℕ) (f : View → View) : Memories :=
  { ms with views := ms.views.modify i f }

/-- What a call makes of the memories. -/
def apply (ms : Memories) : Call × Reply → Memories
  | (.work .new, .ok) => { ms with views := ms.views ++ [View.none] }
  | (.work (.allocPage i a), .ok) => ms.modify i (View.mapPage a)
  | (.switch i, .ok) => { ms with inUse := some i }
  | (.copyToUser _ src dst, .ok) =>
    -- whatever context it is called on
    match ms.inUse with
    | some i => ms.modify i (View.write dst src)
    | none => ms
  | _ => ms

/-- The reply to a copy is what the memory in use says. -/
def Right (ms : Memories) : Call × Reply → Prop
  | (.copyToUser _ src dst, r) => r = .ok ∧ ∃ m, ms.current = some m ∧ m.Mapped dst src.length
  | (.copyFromUser _ src count, r) =>
    ∃ m, ms.current = some m ∧ m.Mapped src count ∧ r = .bytes (m.bytes src count)
  | _ => True

end Memories

/-! ### What the kernel does -/

/-- A context has done its part. -/
def put (w : Owners) (i : ℕ) (o : Owner) (s : Scope) : Owners :=
  ⟨s.machine, w.owners.set i { o with context := s.context }⟩

/-- A call that may take frames. -/
def work (pa : PageAllocator) (w : Owners) : AllocationCost.Call → Option (Reply × Owners)
  | .new =>
    match MemoryContext.new pa w.machine with
    | (.ok context, machine) => some (.ok, ⟨machine, w.owners ++ [⟨context, 0⟩]⟩)
    | (.err, machine) => some (.err, { w with machine })
    | _ => none
  | .allocPage i a => do
    let o ← w.owners[i]?
    match MemoryContext.allocPage pa a ⟨w.machine, o.context⟩ with
    | (.ok _, s) => some (.ok, put w i o s)
    | (.err, s) => some (.err, put w i o s)
    | _ => none
  | .allocPageUnmapped i => do
    let o ← w.owners[i]?
    match MemoryContext.allocPageUnmapped pa ⟨w.machine, o.context⟩ with
    | (.ok _, s) => some (.ok, put w i { o with unmapped := o.unmapped + 1 } s)
    | (.err, s) => some (.err, put w i o s)
    | _ => none

/-- The contexts, and the base register for user space. -/
structure World where
  owners : Owners
  ttbr0El1 : Word

/-- What the core finds at user addresses: the register names the tables. -/
def World.inUse (w : World) : Scope :=
  ⟨w.owners.machine, ⟨[], asidOf w.ttbr0El1, virtualAddress (tableOf w.ttbr0El1)⟩⟩

def World.setMachine (w : World) (machine : Machine) : World :=
  { w with owners := { w.owners with machine } }

/-- A call, unless it panics: a copy does when it faults. -/
def perform (pa : PageAllocator) (w : World) : Call → Option (Reply × World)
  | .work c => (work pa w.owners c).map fun (r, owners) => (r, { w with owners })
  | .switch i => (w.owners.owners[i]?).map fun o => (.ok, { w with ttbr0El1 := o.context.ttbr })
  | .copyToUser i src dst => do
    let _ ← w.owners.owners[i]?
    match UserCopy.copyToUser src dst w.inUse with
    | (.ok (), s) => some (.ok, w.setMachine s.machine)
    | _ => none
  | .copyFromUser i src count => do
    let _ ← w.owners.owners[i]?
    match UserCopy.copyFromUser src count w.inUse with
    | (.ok bs, s) => some (.bytes bs, w.setMachine s.machine)
    | _ => none

/-- The contexts, and the calls so far with their replies. -/
structure State where
  world : World
  log : List (Call × Reply)

/-- Before the first context is created, with any tables in use. -/
def begin (m : Machine) (ttbr0El1 : Word) : State := ⟨⟨⟨m, []⟩, ttbr0El1⟩, []⟩

def step (pa : PageAllocator) (w : State) (c : Call) : Option State :=
  (perform pa w.world c).map fun (r, world) => ⟨world, w.log ++ [(c, r)]⟩

/-- The user memories after the calls so far. -/
def memories (log : List (Call × Reply)) : Memories := log.foldl Memories.apply ⟨[], none⟩

/-- A call that takes a frame finds the allocator's counter below the end of its range, and a copy
is one to or from user addresses, after a switch. -/
def Fits (w : State) : Call → Prop
  | .work c => AllocationCost.Fits w.world.owners c
  | .switch _ => True
  | .copyToUser _ src dst => (memories w.log).inUse.isSome ∧ dst + src.length ≤ 2 ^ 48
  | .copyFromUser _ src count => (memories w.log).inUse.isSome ∧ src + count ≤ 2 ^ 48

instance fitsDecidable (w : State) (c : Call) : Decidable (Fits w c) := by
  cases c <;> unfold Fits <;> infer_instance

/-- User memory is what the calls have made of it, and the replies are right. -/
structure Refines (pa : PageAllocator) (w : State) : Prop where
  memory : ∀ (i : ℕ) (o : Owner), w.world.owners.owners[i]? = some o →
    ∃ m : View, (memories w.log).views[i]? = some m ∧
      ∀ a < 2 ^ 48, userByte ⟨w.world.owners.machine, o.context⟩ a = m a
  /-- What the core finds at user addresses is the memory of the context in use. -/
  inUse : ∀ m, (memories w.log).current = some m → ∀ a < 2 ^ 48, userByte w.world.inUse a = m a
  replies : ∀ before c after, w.log = before ++ c :: after → (memories before).Right c
  /-- A copy to or from user addresses faults exactly if one of them is not mapped. -/
  writes : ∀ i src dst, i < (memories w.log).views.length → Fits w (.copyToUser i src dst) →
    ((step pa w (.copyToUser i src dst)).isSome ↔
      ∃ m, (memories w.log).current = some m ∧ m.Mapped dst src.length)
  reads : ∀ i src count, i < (memories w.log).views.length → Fits w (.copyFromUser i src count) →
    ((step pa w (.copyFromUser i src count)).isSome ↔
      ∃ m, (memories w.log).current = some m ∧ m.Mapped src count)

variable {pa : PageAllocator} {P : Space} {root g v a n : ℕ} {s t : Scope} {bs : List Byte}

/-! ### Copies over any number of pages -/

lemma userByte_eq_none (hs : Holds s P root) (ha : a < 2 ^ 48) :
    userByte s a = none ↔ P 4 (pageOf a) = none := by
  rw [userByte_holds hs ha, Option.map_eq_none_iff]

lemma mapped_iff (hs : Holds s P root) (hlen : v + n ≤ 2 ^ 48) :
    View.Mapped (userByte s) v n ↔ ∀ k < n, P 4 (pageOf (v + k)) ≠ none :=
  forall₂_congr fun _ hk => not_congr (userByte_eq_none hs (by omega))

/-- The first address is mapped, and so the others decide. -/
lemma mapped_succ (hs : Holds s P root) (ht : Holds t P root) (hlen : v + (n + 1) ≤ 2 ^ 48)
    (hp : P 4 (pageOf v) = some g) :
    View.Mapped (userByte s) v (n + 1) ↔ View.Mapped (userByte t) (v + 1) n := by
  rw [mapped_iff hs hlen, mapped_iff ht (by omega)]
  constructor
  · intro h k hk
    rw [Nat.add_assoc, Nat.add_comm 1 k]
    exact h (k + 1) (by omega)
  · intro h k hk
    rcases k with _ | k
    · rw [Nat.add_zero, hp]
      exact Option.some_ne_none g
    · have hrest := h k (by omega)
      rwa [Nat.add_assoc, Nat.add_comm 1 k] at hrest

lemma access_page (b : Bool) (hs : Holds s P root) (hv : v < 2 ^ 48)
    (hp : P 4 (pageOf v) = some g) : access b v s = (.ok (g + v % pageSize), s) := by
  rw [access, Exec.get_bind, dataAddress, if_pos hv, translate_holds hs hv, hp]
  cases b <;> rfl

lemma access_unmapped (b : Bool) (hs : Holds s P root) (hv : v < 2 ^ 48)
    (hp : P 4 (pageOf v) = none) : access b v s = (.panic, s) := by
  rw [access, Exec.get_bind, dataAddress, if_pos hv, translate_holds hs hv, hp]
  rfl

/-- Bytes have been copied to the pages of a context. -/
structure Copied (P : Space) (root : ℕ) (s t : Scope) (dst : ℕ) (src : List Byte) : Prop where
  holds : Holds t P root
  context : t.context = s.context
  allocated : t.machine.allocated = s.machine.allocated
  view : ∀ a < 2 ^ 48, userByte t a = View.write dst src (userByte s) a
  frame : ∀ f, IsFrame f → (∀ x, P 4 x ≠ some f) →
    SameOn s.machine.memory t.machine.memory f pageSize

lemma Copied.nil (hs : Holds s P root) : Copied P root s s v [] :=
  ⟨hs, rfl, rfl, fun _ _ => by rw [View.write, Piece.get?_nil, Option.none_or],
    fun _ _ _ => .refl _ _ _⟩

lemma Copied.cons {b : Byte} (hs : Holds s P root) (hp : P 4 (pageOf v) = some g)
    (h : Copied P root (stored s (g + v % pageSize) [b]) t (v + 1) bs) :
    Copied P root s t v (b :: bs) := by
  have hmod : v % pageSize < pageSize := Nat.mod_lt _ (by decide)
  refine ⟨h.holds, h.context, h.allocated, fun a ha => ?_, fun f hf hne => ?_⟩
  · have happend : (⟨v, [b] ++ bs⟩ : Piece Byte).get? a =
        ((⟨v + 1, bs⟩ : Piece Byte).get? a).or ((⟨v, [b]⟩ : Piece Byte).get? a) :=
      Piece.get?_append
    have hcons : (⟨v, b :: bs⟩ : Piece Byte).get? a =
        ((⟨v + 1, bs⟩ : Piece Byte).get? a).or ((⟨v, [b]⟩ : Piece Byte).get? a) := happend
    rw [h.view a ha, View.write, View.write, hcons, Option.or_assoc,
      userByte_stored hs hp (by rw [List.length_singleton]; omega) ha]
  · have hdis := IsFrame.disjoint hf (hs.rep.frame hp) fun e => hne _ (e ▸ hp)
    have hstored : SameOn s.machine.memory (stored s (g + v % pageSize) [b]).machine.memory f
        pageSize := fun x hx hlt => by
      refine (writeBytes_of_outside ?_).symm
      rw [List.length_singleton]
      omega
    exact hstored.trans (h.frame f hf hne)

/-- A copy to user memory writes all of its bytes, or it faults. -/
lemma copyToUser_spec (hs : Holds s P root) (hlen : v + bs.length ≤ 2 ^ 48) :
    (View.Mapped (userByte s) v bs.length →
      ∃ t, copyToUser bs v s = (.ok (), t) ∧ Copied P root s t v bs) ∧
    (¬ View.Mapped (userByte s) v bs.length → (copyToUser bs v s).1 = .panic) := by
  induction bs generalizing s v with
  | nil =>
    refine ⟨fun _ => ⟨s, rfl, .nil hs⟩, fun h => absurd ?_ h⟩
    intro k hk
    exact absurd hk (Nat.not_lt_zero k)
  | cons b bs ih =>
    rw [List.length_cons] at hlen ⊢
    have hv : v < 2 ^ 48 := by omega
    rcases hp : P 4 (pageOf v) with _ | g
    · have hnone := (userByte_eq_none hs hv).mpr hp
      refine ⟨fun h => absurd hnone (h 0 (Nat.succ_pos _)), fun _ => ?_⟩
      rw [copyToUser, Exec.bind_panic (access_unmapped true hs hv hp)]
    · have hmod : v % pageSize < pageSize := Nat.mod_lt _ (by decide)
      have hone : Holds (stored s (g + v % pageSize) [b]) P root :=
        holds_stored hs hp (by rw [List.length_singleton]; omega)
      have hcopy : copyToUser (b :: bs) v s =
          copyToUser bs (v + 1) (stored s (g + v % pageSize) [b]) := by
        rw [copyToUser, Exec.bind_ok (access_page true hs hv hp)]
        change copyToUser bs (wrap (v + 1)) _ = _
        rw [wrap_of_lt (by omega)]
        rfl
      obtain ⟨hok, hfault⟩ := ih hone (v := v + 1) (by omega)
      rw [hcopy, mapped_succ hs hone hlen hp]
      refine ⟨fun h => ?_, hfault⟩
      obtain ⟨t, ht, hcopied⟩ := hok h
      exact ⟨t, ht, .cons hs hp hcopied⟩

lemma bytes_succ (m : View) (a n : ℕ) : m.bytes a (n + 1) = (m a).getD 0 :: m.bytes (a + 1) n := by
  rw [View.bytes, List.range_succ_eq_map, List.map_cons, List.map_map]
  refine congrArg _ (List.map_congr_left fun k _ => ?_)
  rw [Function.comp_apply, Nat.add_assoc, Nat.add_comm 1 k]

/-- A copy from user memory reads what is there, or it faults. -/
lemma copyFromUser_spec (hs : Holds s P root) (hlen : v + n ≤ 2 ^ 48) :
    (View.Mapped (userByte s) v n →
      copyFromUser v n s = (.ok (View.bytes (userByte s) v n), s)) ∧
    (¬ View.Mapped (userByte s) v n → (copyFromUser v n s).1 = .panic) := by
  induction n generalizing v with
  | zero => exact ⟨fun _ => rfl, fun h => absurd (fun k hk => absurd hk (Nat.not_lt_zero k)) h⟩
  | succ n ih =>
    have hv : v < 2 ^ 48 := by omega
    rcases hp : P 4 (pageOf v) with _ | g
    · have hnone := (userByte_eq_none hs hv).mpr hp
      refine ⟨fun h => absurd hnone (h 0 (Nat.succ_pos _)), fun _ => ?_⟩
      rw [copyFromUser, Exec.bind_panic (access_unmapped false hs hv hp)]
    · have hbyte : s.machine.memory (g + v % pageSize) = (userByte s v).getD 0 := by
        rw [userByte_holds hs hv, hp]
        rfl
      have hcopy : copyFromUser v (n + 1) s = (do
          let bytes ← copyFromUser (v + 1) n
          return s.machine.memory (g + v % pageSize) :: bytes : Exec Scope (List Byte)) s := by
        rw [copyFromUser, Exec.bind_ok (access_page false hs hv hp), Exec.get_bind,
          wrap_of_lt (by omega)]
      obtain ⟨hok, hfault⟩ := ih (v := v + 1) (by omega)
      rw [hcopy, mapped_succ hs hs hlen hp]
      refine ⟨fun h => ?_, fun h => ?_⟩
      · rw [Exec.bind_ok (hok h), hbyte, bytes_succ]
        rfl
      · rw [Exec.bind_apply]
        have hpanic := hfault h
        rcases hcall : copyFromUser (v + 1) n s with ⟨r, t⟩
        rw [hcall] at hpanic
        obtain rfl : r = .panic := hpanic
        rfl

/-! ### The views -/

/-- A context whose frames have not changed. -/
lemma userByte_same {m m' : Machine} {c : MemoryContext} (hs : Holds ⟨m, c⟩ P root)
    (hsame : ∀ l p f, P l p = some f → SameOn m.memory m'.memory f pageSize) (ha : a < 2 ^ 48) :
    userByte ⟨m', c⟩ a = userByte ⟨m, c⟩ a := by
  have hrep : Represents m'.memory P root := hs.rep.congr fun l p f _ hp => hsame l p f hp
  have hmod : a % pageSize < pageSize := Nat.mod_lt _ (by decide)
  have hroot : physicalAddress c.tableL0 = root := physicalAddress_root hs
  rw [userByte_holds hs ha, userByte]
  dsimp only
  rw [hroot, translate_eq hrep ha, Option.map_map]
  rcases hp : P 4 (pageOf a) with _ | f
  · rfl
  · exact congrArg some (hsame 4 _ f hp _ (Nat.le_add_right _ _) (by omega)).symm

/-- Every context sees its view. -/
structure Sees (w : Owners) (ms : List View) : Prop where
  length : ms.length = w.owners.length
  view : ∀ (i : ℕ) (o : Owner) (m : View), w.owners[i]? = some o → ms[i]? = some m →
    ∀ a < 2 ^ 48, userByte ⟨w.machine, o.context⟩ a = m a

variable {w w' : Owners} {Ps : ℕ → Space} {ms : List View} {i : ℕ} {o : Owner} {m : View}

lemma Sees.exists_view (hv : Sees w ms) (ho : w.owners[i]? = some o) : ∃ m, ms[i]? = some m := by
  have hlt : i < w.owners.length := (List.getElem?_eq_some_iff.mp ho).1
  exact ⟨_, List.getElem?_eq_getElem (hv.length ▸ hlt)⟩

lemma Sees.exists_owner (hv : Sees w ms) (hm : ms[i]? = some m) : ∃ o, w.owners[i]? = some o := by
  have hlt : i < ms.length := (List.getElem?_eq_some_iff.mp hm).1
  exact ⟨_, List.getElem?_eq_getElem (hv.length ▸ hlt)⟩

/-- One context has worked on the machine and has changed its own frames and fresh ones. -/
lemma Sees.put (hv : Sees w ms) (h : Kept w Ps) (ho : w.owners[i]? = some o) {u : ℕ}
    {f : View → View}
    (hsame : ∀ g, IsFrame g → g + pageSize ≤ w.machine.allocated → (∀ l p, Ps i l p ≠ some g) →
      SameOn w.machine.memory t.machine.memory g pageSize)
    (hview : ∀ m, ms[i]? = some m → ∀ a < 2 ^ 48, userByte t a = f m a) :
    Sees ⟨t.machine, w.owners.set i ⟨t.context, u⟩⟩ (ms.modify i f) := by
  have hlt : i < w.owners.length := (List.getElem?_eq_some_iff.mp ho).1
  refine ⟨by rw [List.length_modify, List.length_set, hv.length], fun j o' m' ho' hm' a ha => ?_⟩
  by_cases hj : i = j
  · subst hj
    obtain rfl := Option.some.inj ((List.getElem?_set_self hlt).symm.trans ho')
    rw [List.getElem?_modify_eq] at hm'
    obtain ⟨m, hm, rfl⟩ := Option.map_eq_some_iff.mp hm'
    exact hview m hm a ha
  · dsimp only at ho'
    rw [List.getElem?_set_ne hj] at ho'
    rw [List.getElem?_modify_ne _ _ hj] at hm'
    obtain ⟨root, hs⟩ := h.holds ho'
    rw [userByte_same hs ?_ ha]
    · exact hv.view j o' m' ho' hm' a ha
    · exact fun l p g hg => hsame g (hs.rep.frame hg) (h.below hg)
        fun l' p' hg' => hj (h.apart hg' hg)

/-- The other contexts, when fresh frames only have changed. -/
lemma Sees.fresh (hv : Sees w ms) (h : Kept w Ps) {m' : Machine}
    (hsame : ∀ g, g + pageSize ≤ w.machine.allocated →
      SameOn w.machine.memory m'.memory g pageSize) : Sees { w with machine := m' } ms := by
  refine ⟨hv.length, fun i o m ho hm a ha => ?_⟩
  obtain ⟨root, hs⟩ := h.holds ho
  rw [← hv.view i o m ho hm a ha]
  exact userByte_same hs (fun l p g hg => hsame g (h.below hg)) ha

/-- What a call of `new` leaves: a context without pages, or the contexts as they are. -/
lemma work_new (hcap : pa.capacity ≤ 2 ^ 48) (h : Kept w Ps)
    (hfits : w.machine.allocated + pageSize < 2 ^ 64) {r : Reply}
    (hp : work pa w .new = some (r, w')) :
    (∀ g, g + pageSize ≤ w.machine.allocated →
      SameOn w.machine.memory w'.machine.memory g pageSize) ∧
    ((∃ c f, r = .ok ∧ w'.owners = w.owners ++ [⟨c, 0⟩] ∧ Holds ⟨w'.machine, c⟩ (single f) f) ∨
      r = .err ∧ w'.owners = w.owners) := by
  rcases hcall : MemoryContext.new pa w.machine with ⟨r', m'⟩
  unfold work at hp
  rw [hcall] at hp
  rcases new_spec hcap hfits h.aligned with
    ⟨f, c, hspec, hle, -, -, -, hs⟩ | ⟨b, hspec, -, -⟩
  · obtain ⟨rfl, hm⟩ := Prod.mk.inj (hcall.symm.trans hspec)
    obtain ⟨rfl, rfl⟩ := Prod.mk.inj (Option.some.inj hp)
    refine ⟨fun g hg => ?_, .inl ⟨c, f, rfl, rfl, ?_⟩⟩
    · rw [hm]
      exact sameOn_clear (.inl (hg.trans hle))
    · rw [← hm] at hs
      exact hs
  · obtain ⟨rfl, hm⟩ := Prod.mk.inj (hcall.symm.trans hspec)
    obtain ⟨rfl, rfl⟩ := Prod.mk.inj (Option.some.inj hp)
    refine ⟨fun g _ => ?_, .inr ⟨rfl, rfl⟩⟩
    rw [hm]
    exact .refl _ _ _

lemma sees_new (u : Option ℕ) (hcap : pa.capacity ≤ 2 ^ 48) (h : Kept w Ps) (hv : Sees w ms)
    (hfits : w.machine.allocated + pageSize < 2 ^ 64) {r : Reply}
    (hp : work pa w .new = some (r, w')) :
    Sees w' (Memories.apply ⟨ms, u⟩ (.work .new, r)).views := by
  obtain ⟨hsame, hend⟩ := work_new hcap h hfits hp
  obtain ⟨m', os⟩ := w'
  have hold : Sees { w with machine := m' } ms := hv.fresh h hsame
  rcases hend with ⟨c, f, rfl, hos, hs⟩ | ⟨rfl, hos⟩
  · obtain rfl : os = w.owners ++ [⟨c, 0⟩] := hos
    have hlen := hv.length
    refine ⟨by simp [Memories.apply, hlen], fun i o m ho hm a ha => ?_⟩
    dsimp only [Memories.apply] at ho hm
    rcases Nat.lt_or_ge i w.owners.length with hlt | hge
    · rw [List.getElem?_append_left hlt] at ho
      rw [List.getElem?_append_left (by omega)] at hm
      exact hold.view i o m ho hm a ha
    · obtain rfl : i = w.owners.length := by
        have := (List.getElem?_eq_some_iff.mp ho).1
        rw [List.length_append, List.length_singleton] at this
        omega
      obtain rfl := Option.some.inj (List.getElem?_concat_length.symm.trans ho)
      rw [← hlen] at hm
      obtain rfl := Option.some.inj (List.getElem?_concat_length.symm.trans hm)
      have hnone : single f 4 (pageOf a) = none := if_neg fun he => by cases he.1
      rw [userByte_holds hs ha, hnone]
      rfl
  · obtain rfl : os = w.owners := hos
    exact hold

/-- A context has done its part, and the others see what they saw. -/
structure Did (w w' : Owners) (Ps : ℕ → Space) (i : ℕ) (f : View → View) : Prop where
  owner : ∃ o t u, w.owners[i]? = some o ∧ w' = ⟨t.machine, w.owners.set i ⟨t.context, u⟩⟩ ∧
    t.context.tableL0 = o.context.tableL0 ∧
    ∀ m : View, (∀ a < 2 ^ 48, userByte ⟨w.machine, o.context⟩ a = m a) →
      ∀ a < 2 ^ 48, userByte t a = f m a
  same : ∀ g, IsFrame g → g + pageSize ≤ w.machine.allocated → (∀ l p, Ps i l p ≠ some g) →
      SameOn w.machine.memory w'.machine.memory g pageSize

lemma Did.sees {f : View → View} (hd : Did w w' Ps i f) (h : Kept w Ps) (hv : Sees w ms) :
    Sees w' (ms.modify i f) := by
  obtain ⟨⟨o, t, u, ho, rfl, -, hview⟩, hsame⟩ := hd
  exact hv.put h ho hsame fun m hm => hview m (hv.view i o m ho hm)

/-- Fresh frames only have changed. -/
lemma Did.fresh {u : ℕ} (h : Kept w Ps) (ho : w.owners[i]? = some o)
    (htable : t.context.tableL0 = o.context.tableL0)
    (hsame : ∀ g, g + pageSize ≤ w.machine.allocated →
      SameOn w.machine.memory t.machine.memory g pageSize) :
    Did w ⟨t.machine, w.owners.set i ⟨t.context, u⟩⟩ Ps i id := by
  obtain ⟨root, hs⟩ := h.holds ho
  refine ⟨⟨o, t, u, ho, rfl, htable, fun m hm a ha => ?_⟩, fun g _ hle _ => hsame g hle⟩
  rw [id, ← hm a ha, ← userByte_same hs (fun l p f hf => hsame f (hs.below hf)) ha]
  unfold userByte
  rw [htable]

/-- A call that has not mapped its page. -/
lemma Towards.userByte_err {P' : Space} (hs : Holds s P root) (ht : Holds t P' root)
    (hto : Towards pa v s P t P') (hother : ∀ x, x ≠ pageOf v → P' 4 x = P 4 x)
    (hpage : P' 4 (pageOf v) = none) (ha : a < 2 ^ 48) : userByte t a = userByte s a := by
  have hmod : a % pageSize < pageSize := Nat.mod_lt _ (by decide)
  rw [userByte_holds ht ha, userByte_holds hs ha]
  rcases hx : P 4 (pageOf a) with _ | f
  · have hnone : P' 4 (pageOf a) = none := by
      by_cases he : pageOf a = pageOf v
      · rw [he, hpage]
      · rw [hother _ he, hx]
    rw [hnone]
    rfl
  · have hsame := Towards.page_same hs hto hx
    rw [hto.mono hx, Option.map_some, Option.map_some,
      ← hsame _ (Nat.le_add_right _ _) (by omega)]

lemma did_allocPage (hcap : pa.capacity ≤ 2 ^ 48) (h : Kept w Ps)
    (ho : w.owners[i]? = some o) (hfits : CallFits ⟨w.machine, o.context⟩ v) {r : Reply}
    (hp : work pa w (.allocPage i v) = some (r, w')) :
    r = .ok ∧ Did w w' Ps i (View.mapPage v) ∨ r = .err ∧ Did w w' Ps i id := by
  obtain ⟨root, hs⟩ := h.holds ho
  unfold work at hp
  simp only [ho, Option.bind_eq_bind, Option.bind_some] at hp
  rcases Nat.lt_or_ge v (2 ^ 48) with hv' | hv'
  · obtain ⟨c, t, P', ht, hto, hother, hpage, -, hclear, -, hcall⟩ := allocPage_spec hcap hv' hs
      fun hnone => hfits hv' (AllocationCost.missing_eq (AllocationCost.Holds.represents hs) hv' ▸
        AllocationCost.absent_pos hnone)
    rw [hcall] at hp
    clear hcall
    have hsame : ∀ g, IsFrame g → g + pageSize ≤ w.machine.allocated →
        (∀ l p, Ps i l p ≠ some g) → SameOn w.machine.memory t.machine.memory g pageSize :=
      fun g hg hle hne => hto.frame g hg hle fun l p _ => hne l p
    have htable : t.context.tableL0 = o.context.tableL0 := ht.table.trans hs.table.symm
    rcases c with _ | g
    · obtain ⟨rfl, rfl⟩ := Prod.mk.inj (Option.some.inj hp)
      refine .inr ⟨rfl, ⟨o, t, o.unmapped, ho, rfl, htable, fun m hm a ha => ?_⟩, hsame⟩
      rw [Towards.userByte_err hs ht hto hother hpage ha, hm a ha]
      rfl
    · obtain ⟨rfl, rfl⟩ := Prod.mk.inj (Option.some.inj hp)
      refine .inl ⟨rfl, ⟨o, t, o.unmapped, ho, rfl, htable, fun m hm a ha => ?_⟩, hsame⟩
      rw [Towards.userByte_eq hs ht hto hother hpage (fun hn => hclear hn g rfl) ha, hm a ha]
      rfl
  · rw [allocPage_out_of_range hv'] at hp
    obtain ⟨rfl, rfl⟩ := Prod.mk.inj (Option.some.inj hp)
    exact .inr ⟨rfl, .fresh h ho rfl fun _ _ => .refl _ _ _⟩

lemma did_allocPageUnmapped (hcap : pa.capacity ≤ 2 ^ 48) (h : Kept w Ps)
    (ho : w.owners[i]? = some o) (hfits : w.machine.allocated + pageSize < 2 ^ 64) {r : Reply}
    (hp : work pa w (.allocPageUnmapped i) = some (r, w')) : Did w w' Ps i id := by
  obtain ⟨root, hs⟩ := h.holds ho
  unfold work at hp
  simp only [ho, Option.bind_eq_bind, Option.bind_some] at hp
  unfold MemoryContext.allocPageUnmapped at hp
  rcases hcall : allocPageRaw pa ⟨w.machine, o.context⟩ with ⟨r', t⟩
  rw [hcall] at hp
  rcases allocPageRaw_cases (s := ⟨w.machine, o.context⟩) hcap hfits hs.aligned with
    ⟨g, hspec, hle, -, -, -, -⟩ | ⟨b, hspec, -, -, -⟩
  · obtain ⟨rfl, ht⟩ := Prod.mk.inj (hcall.symm.trans hspec)
    obtain ⟨m', c⟩ := t
    obtain ⟨hm', hc⟩ := Scope.mk.inj ht
    obtain ⟨rfl, rfl⟩ := Prod.mk.inj (Option.some.inj hp)
    have hsame : ∀ f, f + pageSize ≤ w.machine.allocated →
        SameOn w.machine.memory m'.memory f pageSize := fun f hf => by
      rw [hm']
      exact sameOn_clear (.inl (hf.trans hle))
    exact .fresh h ho (by rw [hc]) hsame
  · obtain ⟨rfl, ht⟩ := Prod.mk.inj (hcall.symm.trans hspec)
    obtain ⟨m', c⟩ := t
    obtain ⟨hm', hc⟩ := Scope.mk.inj ht
    obtain ⟨rfl, rfl⟩ := Prod.mk.inj (Option.some.inj hp)
    have hsame : ∀ f, f + pageSize ≤ w.machine.allocated →
        SameOn w.machine.memory m'.memory f pageSize := fun f _ => by
      rw [hm']
      exact .refl _ _ _
    exact .fresh h ho (by rw [hc]) hsame

/-! ### The context in use -/

/-- The register names the tables of a context. -/
def InUse (w : World) (o : Owner) : Prop := tableOf w.ttbr0El1 = physicalAddress o.context.tableL0

variable {x : World} {M : Memories}

lemma inUse_switch : InUse { x with ttbr0El1 := o.context.ttbr } o := tableOf_ttbr

lemma InUse.holds (hu : InUse x o) (hs : Holds ⟨x.owners.machine, o.context⟩ P root) :
    Holds x.inUse P root := by
  refine ⟨hs.rep, ?_, hs.below, hs.aligned⟩
  have hroot : physicalAddress o.context.tableL0 = root := physicalAddress_root hs
  change virtualAddress (tableOf x.ttbr0El1) = virtualAddress root
  rw [hu, hroot]

lemma InUse.userByte_eq (hu : InUse x o) (hs : Holds ⟨x.owners.machine, o.context⟩ P root)
    (ha : a < 2 ^ 48) : userByte x.inUse a = userByte ⟨x.owners.machine, o.context⟩ a := by
  rw [userByte_holds (hu.holds hs) ha, userByte_holds hs ha]
  rfl

/-- What a call keeps of the contexts: where the tables are. -/
def SameTables (w w' : Owners) : Prop :=
  ∀ (j : ℕ) (o : Owner), w.owners[j]? = some o →
    ∃ o' : Owner, w'.owners[j]? = some o' ∧ o'.context.tableL0 = o.context.tableL0

lemma Did.sameTables {f : View → View} (hd : Did w w' Ps i f) : SameTables w w' := by
  obtain ⟨⟨o, t, u, ho, rfl, htable, -⟩, -⟩ := hd
  intro j o' ho'
  dsimp only
  by_cases hj : i = j
  · subst hj
    obtain rfl := Option.some.inj (ho.symm.trans ho')
    exact ⟨_, List.getElem?_set_self (List.getElem?_eq_some_iff.mp ho).1, htable⟩
  · exact ⟨o', by rw [List.getElem?_set_ne hj, ho'], rfl⟩

/-! ### Calls that take frames -/

lemma callStep_work {c : AllocationCost.Call} {r : Reply} (hp : work pa w c = some (r, w')) :
    AllocationCost.callStep pa w c = some w' := by
  cases c with
  | new =>
    unfold work at hp
    unfold AllocationCost.callStep
    rcases hcall : MemoryContext.new pa w.machine with ⟨_ | _ | _ | _, m'⟩ <;> rw [hcall] at hp
    · exact congrArg some (Prod.mk.inj (Option.some.inj hp)).2
    · exact congrArg some (Prod.mk.inj (Option.some.inj hp)).2
    · cases hp
    · cases hp
  | allocPage i v =>
    obtain ⟨o, ho, -⟩ := Option.bind_eq_some_iff.mp hp
    unfold work at hp
    unfold AllocationCost.callStep
    simp only [ho, Option.bind_eq_bind, Option.bind_some, Option.map_some] at hp ⊢
    rcases hcall : MemoryContext.allocPage pa v ⟨w.machine, o.context⟩ with ⟨_ | _ | _ | _, t⟩ <;>
      rw [hcall] at hp
    · exact congrArg some (Prod.mk.inj (Option.some.inj hp)).2
    · exact congrArg some (Prod.mk.inj (Option.some.inj hp)).2
    · cases hp
    · cases hp
  | allocPageUnmapped i =>
    obtain ⟨o, ho, -⟩ := Option.bind_eq_some_iff.mp hp
    unfold work at hp
    unfold AllocationCost.callStep
    simp only [ho, Option.bind_eq_bind, Option.bind_some, Option.map_some] at hp ⊢
    rcases hcall : MemoryContext.allocPageUnmapped pa ⟨w.machine, o.context⟩ with
      ⟨_ | _ | _ | _, t⟩ <;> rw [hcall] at hp
    · exact congrArg some (Prod.mk.inj (Option.some.inj hp)).2
    · exact congrArg some (Prod.mk.inj (Option.some.inj hp)).2
    · cases hp
    · cases hp

/-- What a call that may take frames leaves. -/
lemma good_work (u : Option ℕ) {c : AllocationCost.Call} {r : Reply} (hcap : pa.capacity ≤ 2 ^ 48)
    (h : Kept w Ps) (hv : Sees w ms) (hfits : AllocationCost.Fits w c)
    (hp : work pa w c = some (r, w')) :
    Sees w' (Memories.apply ⟨ms, u⟩ (.work c, r)).views ∧ SameTables w w' := by
  cases c with
  | new =>
    refine ⟨sees_new u hcap h hv hfits hp, fun j o ho => ⟨o, ?_, rfl⟩⟩
    obtain ⟨-, ⟨c, f, -, hos, -⟩ | ⟨-, hos⟩⟩ := work_new hcap h hfits hp
    · rw [hos, List.getElem?_append_left (List.getElem?_eq_some_iff.mp ho).1, ho]
    · rw [hos, ho]
  | allocPage i v =>
    obtain ⟨o, ho, -⟩ := Option.bind_eq_some_iff.mp hp
    rcases did_allocPage hcap h ho (hfits o ho) hp with ⟨rfl, hd⟩ | ⟨rfl, hd⟩
    · exact ⟨hd.sees h hv, hd.sameTables⟩
    · have hs := hd.sees h hv
      rw [List.modify_id] at hs
      exact ⟨hs, hd.sameTables⟩
  | allocPageUnmapped i =>
    obtain ⟨o, ho, -⟩ := Option.bind_eq_some_iff.mp hp
    have hd := did_allocPageUnmapped hcap h ho hfits hp
    have hs := hd.sees h hv
    rw [List.modify_id] at hs
    refine ⟨?_, hd.sameTables⟩
    cases r <;> exact hs

/-! ### Copies -/

/-- What holds between the calls: each context sees its memory, and the register names the tables
of the one in use. -/
structure Agrees (x : World) (M : Memories) : Prop where
  kept : ∃ Ps, Kept x.owners Ps
  sees : Sees x.owners M.views
  inUse : ∀ i, M.inUse = some i → ∃ o, x.owners.owners[i]? = some o ∧ InUse x o

/-- The memory in use is what the core finds. -/
lemma Agrees.current (h : Agrees x M) (hm : M.current = some m) :
    ∃ i o Ps root, M.inUse = some i ∧ M.views[i]? = some m ∧ x.owners.owners[i]? = some o ∧
      InUse x o ∧ Kept x.owners Ps ∧ Holds ⟨x.owners.machine, o.context⟩ (Ps i) root ∧
      ∀ a < 2 ^ 48, userByte x.inUse a = m a := by
  obtain ⟨i, hi, hview⟩ := Option.bind_eq_some_iff.mp hm
  obtain ⟨o, ho, hu⟩ := h.inUse i hi
  obtain ⟨Ps, hkept⟩ := h.kept
  obtain ⟨root, hs⟩ := hkept.holds ho
  refine ⟨i, o, Ps, root, hi, hview, ho, hu, hkept, hs, fun a ha => ?_⟩
  rw [hu.userByte_eq hs ha, h.sees.view i o m ho hview a ha]

lemma Agrees.exists_current (h : Agrees x M) (hu : M.inUse.isSome) : ∃ m, M.current = some m := by
  obtain ⟨i, hi⟩ := Option.isSome_iff_exists.mp hu
  obtain ⟨o, ho, -⟩ := h.inUse i hi
  obtain ⟨m, hm⟩ := h.sees.exists_view ho
  exact ⟨m, Option.bind_eq_some_iff.mpr ⟨i, hi, hm⟩⟩

/-- A copy changes pages of the context in use only. -/
lemma kept_copied (h : Kept w Ps) (ho : w.owners[i]? = some o)
    (hs : Holds ⟨w.machine, o.context⟩ (Ps i) root) (hmachine : s.machine = w.machine)
    (hcopied : Copied (Ps i) root s t v bs) : Kept { w with machine := t.machine } Ps := by
  have hcounter : t.machine.allocated = w.machine.allocated :=
    hcopied.allocated.trans (congrArg Machine.allocated hmachine)
  have hframe := hcopied.frame
  rw [hmachine] at hframe
  refine ⟨hcounter ▸ h.aligned, fun {j o'} ho' => ?_, h.live, h.apart, h.count⟩
  by_cases hj : j = i
  · subst hj
    obtain rfl := Option.some.inj (ho.symm.trans ho')
    have ht := hcopied.holds
    exact ⟨root, ht.rep, hs.table, ht.below, ht.aligned⟩
  · obtain ⟨root', hs'⟩ := h.holds ho'
    refine ⟨root', hs'.rep.congr fun l p f _ hf => hframe f (hs'.rep.frame hf)
      fun x hx => hj (h.apart hf hx), hs'.table, fun hf => ?_, ?_⟩
    · exact hcounter ▸ hs'.below hf
    · exact hcounter ▸ hs'.aligned

lemma mapped_congr {m m' : View} (h : ∀ a < 2 ^ 48, m a = m' a) (hlen : v + n ≤ 2 ^ 48) :
    m.Mapped v n ↔ m'.Mapped v n := by
  refine forall₂_congr fun k hk => ?_
  rw [h (v + k) (by omega)]

lemma bytes_congr {m m' : View} (h : ∀ a < 2 ^ 48, m a = m' a) (hlen : v + n ≤ 2 ^ 48) :
    m.bytes v n = m'.bytes v n := by
  refine List.map_congr_left fun k hk => ?_
  have hkn := List.mem_range.mp hk
  rw [h (v + k) (by omega)]

/-- The context has been copied to, and the others see what they saw. -/
lemma Sees.copied (hv : Sees w ms) (h : Kept w Ps) (ho : w.owners[i]? = some o)
    (hs : Holds ⟨w.machine, o.context⟩ (Ps i) root) (hmachine : s.machine = w.machine)
    (hsees : ∀ a < 2 ^ 48, userByte s a = userByte ⟨w.machine, o.context⟩ a)
    (hcopied : Copied (Ps i) root s t v bs) :
    Sees { w with machine := t.machine } (ms.modify i (View.write v bs)) := by
  have ht : Holds ⟨t.machine, o.context⟩ (Ps i) root :=
    ⟨hcopied.holds.rep, hs.table, hcopied.holds.below, hcopied.holds.aligned⟩
  have hframe := hcopied.frame
  rw [hmachine] at hframe
  have hput := hv.put (t := ⟨t.machine, o.context⟩) (u := o.unmapped) (f := View.write v bs) h ho
    (fun g hg _ hne => hframe g hg fun x => hne 4 x) fun m hm a ha => by
      rw [userByte_holds ht ha, ← userByte_holds hcopied.holds ha, hcopied.view a ha, View.write,
        View.write, hsees a ha, hv.view i o m ho hm a ha]
  obtain ⟨hlt, hget⟩ := List.getElem?_eq_some_iff.mp ho
  have hset : w.owners.set i o = w.owners := by
    rw [← hget]
    exact List.set_getElem_self hlt
  rwa [hset] at hput

variable (pa) in
lemma good_copyToUser {j : ℕ} {src : List Byte} (h : Agrees x M) (hm : M.current = some m)
    (hj : j < M.views.length) (hlen : v + src.length ≤ 2 ^ 48) :
    (m.Mapped v src.length → ∃ x', perform pa x (.copyToUser j src v) = some (.ok, x') ∧
      Agrees x' (M.apply (.copyToUser j src v, .ok))) ∧
    (¬ m.Mapped v src.length → perform pa x (.copyToUser j src v) = none) := by
  obtain ⟨i, o, Ps, root, hi, hview, ho, hu, hkept, hs, hbytes⟩ := h.current hm
  obtain ⟨o', ho'⟩ := h.sees.exists_owner (List.getElem?_eq_getElem hj)
  obtain ⟨hok, hfault⟩ := copyToUser_spec (hu.holds hs) hlen
  rw [mapped_congr hbytes hlen] at hok hfault
  unfold perform
  simp only [ho', Option.bind_eq_bind, Option.bind_some]
  refine ⟨fun hmap => ?_, fun hmap => ?_⟩
  · obtain ⟨t, ht, hcopied⟩ := hok hmap
    rw [ht]
    refine ⟨_, rfl, ⟨Ps, kept_copied hkept ho hs rfl hcopied⟩, ?_, fun k hk => ?_⟩
    · have hsees := h.sees.copied hkept ho hs rfl (fun a => hu.userByte_eq hs) hcopied
      simp only [Memories.apply, hi]
      exact hsees
    · simp only [Memories.apply, hi] at hk
      obtain rfl := Option.some.inj (hi.symm.trans hk)
      exact ⟨o, ho, hu⟩
  · have hpanic := hfault hmap
    rcases hcall : copyToUser src v x.inUse with ⟨r, t⟩
    rw [hcall] at hpanic
    obtain rfl : r = .panic := hpanic
    rfl

variable (pa) in
lemma good_copyFromUser {j : ℕ} (h : Agrees x M) (hm : M.current = some m)
    (hj : j < M.views.length) (hlen : v + n ≤ 2 ^ 48) :
    (m.Mapped v n → perform pa x (.copyFromUser j v n) = some (.bytes (m.bytes v n), x)) ∧
    (¬ m.Mapped v n → perform pa x (.copyFromUser j v n) = none) := by
  obtain ⟨i, o, Ps, root, hi, hview, ho, hu, hkept, hs, hbytes⟩ := h.current hm
  obtain ⟨o', ho'⟩ := h.sees.exists_owner (List.getElem?_eq_getElem hj)
  obtain ⟨hok, hfault⟩ := copyFromUser_spec (hu.holds hs) hlen
  rw [mapped_congr hbytes hlen, bytes_congr hbytes hlen] at hok
  rw [mapped_congr hbytes hlen] at hfault
  unfold perform
  simp only [ho', Option.bind_eq_bind, Option.bind_some]
  refine ⟨fun hmap => ?_, fun hmap => ?_⟩
  · rw [hok hmap]
    rfl
  · have hpanic := hfault hmap
    rcases hcall : copyFromUser v n x.inUse with ⟨r, t⟩
    rw [hcall] at hpanic
    obtain rfl : r = .panic := hpanic
    rfl

/-- A copy is a method of a context that there is. -/
lemma perform_owner {j : ℕ} {c : Call} {e : Reply × World} (h : Agrees x M)
    (hc : (∃ src, c = .copyToUser j src v) ∨ c = .copyFromUser j v n)
    (hp : perform pa x c = some e) : j < M.views.length := by
  rw [h.sees.length]
  by_contra hge
  have hnone := List.getElem?_eq_none (Nat.le_of_not_lt hge)
  rcases hc with ⟨src, rfl⟩ | rfl <;> unfold perform at hp <;>
    simp only [hnone, Option.bind_eq_bind, Option.bind_none] at hp <;> cases hp

/-! ### All of the calls -/

/-- **One call** of any context. -/
lemma Agrees.step {log : List (Call × Reply)} {x' : World} {c : Call} {r : Reply}
    (hcap : pa.capacity ≤ 2 ^ 48) (h : Agrees x (memories log)) (hfits : Fits ⟨x, log⟩ c)
    (hp : perform pa x c = some (r, x')) :
    Agrees x' ((memories log).apply (c, r)) ∧ (memories log).Right (c, r) := by
  cases c with
  | work c =>
    obtain ⟨⟨r', w'⟩, hw, he⟩ := Option.map_eq_some_iff.mp hp
    obtain ⟨rfl, rfl⟩ := Prod.mk.inj he
    obtain ⟨Ps, hkept⟩ := h.kept
    obtain ⟨hsees, htables⟩ := good_work (memories log).inUse hcap hkept h.sees hfits hw
    refine ⟨⟨hkept.step hcap hfits (callStep_work hw), hsees, fun i hi => ?_⟩, trivial⟩
    have hold : (memories log).inUse = some i := by
      rw [← hi]
      rcases c with _ | _ | _ <;> cases r' <;> rfl
    obtain ⟨o, ho, hu⟩ := h.inUse i hold
    obtain ⟨o', ho', ht⟩ := htables i o ho
    refine ⟨o', ho', ?_⟩
    rw [InUse, ht]
    exact hu
  | switch i =>
    obtain ⟨o, ho, he⟩ := Option.map_eq_some_iff.mp hp
    obtain ⟨rfl, rfl⟩ := Prod.mk.inj he
    refine ⟨⟨h.kept, h.sees, fun j hj => ?_⟩, trivial⟩
    obtain rfl := Option.some.inj hj
    exact ⟨o, ho, inUse_switch⟩
  | copyToUser j src dst =>
    obtain ⟨m, hm⟩ := h.exists_current hfits.1
    have hj := perform_owner (n := 0) h (.inl ⟨src, rfl⟩) hp
    obtain ⟨hok, hfault⟩ := good_copyToUser pa h hm hj hfits.2
    by_cases hmap : m.Mapped dst src.length
    · obtain ⟨x₁, hx₁, hagrees⟩ := hok hmap
      obtain ⟨rfl, rfl⟩ := Prod.mk.inj (Option.some.inj (hx₁.symm.trans hp))
      exact ⟨hagrees, rfl, m, hm, hmap⟩
    · rw [hfault hmap] at hp
      cases hp
  | copyFromUser j src count =>
    obtain ⟨m, hm⟩ := h.exists_current hfits.1
    have hj := perform_owner h (.inr rfl) hp
    obtain ⟨hok, hfault⟩ := good_copyFromUser pa h hm hj hfits.2
    by_cases hmap : m.Mapped src count
    · obtain ⟨rfl, rfl⟩ := Prod.mk.inj (Option.some.inj ((hok hmap).symm.trans hp))
      exact ⟨h, m, hm, hmap, rfl⟩
    · rw [hfault hmap] at hp
      cases hp

/-- What holds between the calls, and of the replies. -/
structure Invariant (s : State) : Prop where
  agrees : Agrees s.world (memories s.log)
  replies : ∀ before c after, s.log = before ++ c :: after → (memories before).Right c

lemma invariant_begin {m : Machine} {ttbr0El1 : Word} (hal : pageSize ∣ m.allocated) :
    Invariant (begin m ttbr0El1) where
  agrees := ⟨⟨fun _ _ _ => none, hal, nofun, nofun, nofun, nofun⟩, ⟨rfl, nofun⟩, nofun⟩
  replies := fun before c after h => by
    have := congrArg List.length h
    simp [begin] at this

lemma Invariant.step {s s' : State} {c : Call} (hcap : pa.capacity ≤ 2 ^ 48) (h : Invariant s)
    (hfits : Fits s c) (hstep : UserMemory.step pa s c = some s') : Invariant s' := by
  obtain ⟨⟨r, x'⟩, hp, rfl⟩ := Option.map_eq_some_iff.mp hstep
  obtain ⟨hagrees, hright⟩ := h.agrees.step hcap hfits hp
  refine ⟨?_, fun before e after he => ?_⟩
  · rw [memories, List.foldl_append]
    exact hagrees
  · rcases split_snoc he with ⟨rfl, rfl⟩ | ⟨after', hlog⟩
    · exact hright
    · exact h.replies before e after' hlog

/-- A copy that can be made exactly if its addresses are mapped. -/
lemma step_isSome {s : State} {c : Call} (hm : (memories s.log).current = some m)
    (hok : m.Mapped v n → ∃ e, perform pa s.world c = some e)
    (hfault : ¬ m.Mapped v n → perform pa s.world c = none) :
    (UserMemory.step pa s c).isSome ↔
      ∃ m, (memories s.log).current = some m ∧ m.Mapped v n := by
  rw [UserMemory.step, Option.isSome_map, Option.isSome_iff_exists]
  constructor
  · rintro ⟨e, hp⟩
    refine ⟨m, hm, by_contra fun hmap => ?_⟩
    rw [hfault hmap] at hp
    cases hp
  · rintro ⟨m', hm', hmap⟩
    obtain rfl := Option.some.inj (hm.symm.trans hm')
    exact hok hmap

lemma Invariant.refines {s : State} (h : Invariant s) : Refines pa s := by
  refine ⟨fun i o ho => ?_, fun m hm => ?_, h.replies, fun i src dst hi hfits => ?_,
    fun i src count hi hfits => ?_⟩
  · obtain ⟨m, hm⟩ := h.agrees.sees.exists_view ho
    exact ⟨m, hm, h.agrees.sees.view i o m ho hm⟩
  · obtain ⟨i, o, Ps, root, -, -, -, -, -, -, hbytes⟩ := h.agrees.current hm
    exact hbytes
  · obtain ⟨m, hm⟩ := h.agrees.exists_current hfits.1
    obtain ⟨hok, hfault⟩ := good_copyToUser pa h.agrees hm hi hfits.2
    refine step_isSome hm (fun hmap => ?_) hfault
    obtain ⟨x', hp, -⟩ := hok hmap
    exact ⟨_, hp⟩
  · obtain ⟨m, hm⟩ := h.agrees.exists_current hfits.1
    obtain ⟨hok, hfault⟩ := good_copyFromUser pa h.agrees hm hi hfits.2
    exact step_isSome hm (fun hmap => ⟨_, hok hmap⟩) hfault

/-- **User memory is a store for each context**: whatever the calls of any number of contexts and
the switches between them have been, in any order, what a context finds at its user addresses is
what has been made of them. A new page is clear, a page that is there keeps its bytes, a copy
changes the bytes it names, of the context in use and no other, and it faults exactly if a page of
them is not mapped. -/
theorem user_memory_refines {m : Machine} {ttbr0El1 : Word} {w : State} {cs : List Call}
    (hcap : pa.capacity ≤ 2 ^ 48) (hal : pageSize ∣ m.allocated)
    (hrun : Run (guarded Fits (step pa)) (begin m ttbr0El1) cs w) : Refines pa w :=
  Invariant.refines (hrun.invariant (I := Invariant)
    (fun _ _ _ h hstep => by
      obtain ⟨hfits, hstep⟩ := guarded_eq_some.mp hstep
      exact h.step hcap hfits hstep) (invariant_begin hal))

/-- Two contexts that use the same address. The second copy is called on the first context while
the second one is in use. -/
def bothWrite : List Call :=
  [.work .new, .work .new, .work (.allocPage 0 0x5000), .work (.allocPage 1 0x5000), .switch 0,
    .copyToUser 0 [1, 2] 0x5ffe, .switch 1, .copyToUser 0 [3] 0x5fff, .work (.allocPage 0 0x5000),
    .work (.allocPageUnmapped 1), .copyFromUser 1 0x5ffe 2, .switch 0, .copyFromUser 0 0x5ffe 2]

open UserMapping (roomy)

theorem user_memory_refines_both :
    ∃ w, Run (guarded Fits (step roomy)) (begin ⟨fun _ => 0, 0, 1⟩ 0) bothWrite w ∧
      Refines roomy w ∧ w.log.map Prod.snd =
        [.ok, .ok, .ok, .ok, .ok, .ok, .ok, .ok, .ok, .ok, .bytes [0, 3], .ok, .bytes [1, 2]] := by
  have hrun : Run (guarded Fits (step roomy)) (begin ⟨fun _ => 0, 0, 1⟩ 0) bothWrite
      (reach (guarded Fits (step roomy)) (begin ⟨fun _ => 0, 0, 1⟩ 0) bothWrite) :=
    run_reach (by decide +kernel)
  exact ⟨_, hrun, user_memory_refines (by decide) (by decide) hrun, by decide +kernel⟩

end Pimento.UserMemory
