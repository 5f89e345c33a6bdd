import Pimento.AllocPage
import Pimento.Runs

/-!
The address space of one context, over every sequence of `alloc_page` calls.

Abstractly a context is the map from page numbers to frames that its successful calls have
built up. The tables in memory refine it: the hardware walk reads the map off after every
call, as long as a call that has to take a frame does not find the allocator's counter at
the end of its range.
-/

namespace Pimento.UserMapping

open Address PageTable PageAllocator MemoryContext Armv8 Placement TableTree Traverse AllocPage
  Runs ByteMemory

/-- A call: its address, and how it ended. -/
abbrev Call := ℕ × Outcome ℕ

variable (pa : PageAllocator)

/-- One call, as a step of the context. -/
def callStep (s : Scope) (e : Call) : Option Scope :=
  if (allocPage pa e.1 s).1 = e.2 then some (allocPage pa e.1 s).2 else none

/-- The translation of a user address in the context. -/
def translation (s : Scope) (a : ℕ) : Option Translation :=
  translate s.machine.memory (physicalAddress s.context.tableL0) a

/-- A call that has to take a frame finds the counter below the end of its range. -/
def CounterFits (s : Scope) (e : Call) : Prop :=
  e.1 < 2 ^ 48 → translation s e.1 = none → s.machine.allocated + pageSize < 2 ^ 64

instance (s : Scope) (e : Call) : Decidable (CounterFits s e) :=
  inferInstanceAs (Decidable (_ → _ → _))

/-- The page that the first successful call for page `x` has returned. -/
def granted (es : List Call) (x : ℕ) : Option ℕ :=
  es.findSome? fun e =>
    match e.2 with
    | .ok p => if e.1 >>> 12 = x then some p else none
    | _ => none

/-- What the calls so far promise for the address `a`. -/
def expected (es : List Call) (a : ℕ) : Option Translation :=
  (granted es (a >>> 12)).map fun p =>
    { outputAddress := p ||| (a &&& 0xFFF)
      attrIndex := 1
      el0 := true
      readOnly := false
      accessFlag := true }

variable {pa} {P : Space} {root a : ℕ} {s t : Scope} {e : Call} {es : List Call}

lemma pageOf_eq (a : ℕ) : pageOf a = a >>> 12 := (Nat.shiftRight_eq_div_pow a 12).symm

lemma granted_snoc_ok {b p : ℕ} {x : ℕ} :
    granted (es ++ [(b, .ok p)]) x =
      (granted es x).or (if pageOf b = x then some p else none) := by
  rw [granted, List.findSome?_append, pageOf_eq, List.findSome?_singleton]
  rfl

lemma granted_snoc_err {b x : ℕ} : granted (es ++ [(b, .err)]) x = granted es x := by
  rw [granted, List.findSome?_append]
  exact Option.or_none

/-- The flags and the offset of a user page, as the calls promise them. -/
lemma userPage_eq {g : ℕ} (hg : pageSize ∣ g) :
    userPage a g =
      { outputAddress := g ||| (a &&& 0xFFF), attrIndex := 1, el0 := true, readOnly := false
        accessFlag := true } := by
  obtain ⟨k, rfl⟩ := hg
  have hlow : a &&& 0xFFF = a % 2 ^ 12 := Nat.and_two_pow_sub_one_eq_mod a 12
  have hor : pageSize * k ||| a % 2 ^ 12 = pageSize * k + a % 2 ^ 12 :=
    (Nat.two_pow_add_eq_or_of_lt (Nat.mod_lt a (by decide : 0 < 2 ^ 12)) k).symm
  rw [hlow, hor]
  rfl

/-- **The refinement relation** between the calls so far and the context. -/
structure Refines (P : Space) (root : ℕ) (es : List Call) (s : Scope) : Prop where
  holds : Holds s P root
  granted : ∀ x, granted es x = P 4 x
  same : ∀ {b p}, (b, .ok p) ∈ es → P 4 (pageOf b) = some p
  ends : ∀ e ∈ es, e.2 = .err ∨ ∃ p, e.2 = .ok p

lemma translation_holds (hs : Holds s P root) (ha : a < 2 ^ 48) :
    translation s a = (P 4 (pageOf a)).map (userPage a) := by
  have hroot : root < 2 ^ 48 := (hs.rep.frame hs.rep.placed.root).2
  rw [translation, hs.table, ← Nat.add_zero (virtualAddress root),
    physicalAddress_virtualAddress (by omega), Nat.add_zero, translate_eq hs.rep ha]

lemma Refines.translation_eq (h : Refines P root es s) (ha : a < 2 ^ 48) :
    translation s a = expected es a := by
  rw [translation_holds h.holds ha, expected, ← pageOf_eq, h.granted]
  rcases hp : P 4 (pageOf a) with _ | g
  · rfl
  · exact congrArg some (userPage_eq (h.holds.rep.frame hp).1)

/-- A call that ended with an error, and has mapped nothing. -/
lemma Refines.failed {P' : Space} {b : ℕ} (h : Refines P root es s) (ht : Holds t P' root)
    (hP : ∀ x, P' 4 x = P 4 x) : Refines P' root (es ++ [(b, .err)]) t where
  holds := ht
  granted x := by rw [granted_snoc_err, h.granted, hP]
  same hmem := by
    rcases List.mem_append.mp hmem with hold | hnew
    · rw [hP, h.same hold]
    · simp at hnew
  ends e he := by
    rcases List.mem_append.mp he with hold | hnew
    · exact h.ends e hold
    · exact Or.inl (by rw [List.mem_singleton.mp hnew])

/-- A call that returned the frame its page is mapped to. -/
lemma Refines.succeeded {P' : Space} {b g : ℕ} (h : Refines P root es s) (ht : Holds t P' root)
    (hmono : ∀ {x f}, P 4 x = some f → P' 4 x = some f)
    (hother : ∀ x, x ≠ pageOf b → P' 4 x = P 4 x) (hpage : P' 4 (pageOf b) = some g) :
    Refines P' root (es ++ [(b, .ok g)]) t where
  holds := ht
  granted x := by
    rw [granted_snoc_ok, h.granted]
    rcases hx : P 4 x with _ | f
    · by_cases hb : pageOf b = x
      · rw [if_pos hb, ← hb, hpage]
        rfl
      · rw [if_neg hb, hother x (Ne.symm hb), hx]
        rfl
    · rw [hmono hx]
      rfl
  same {b' p} hmem := by
    rcases List.mem_append.mp hmem with hold | hnew
    · exact hmono (h.same hold)
    · obtain ⟨rfl, hp⟩ := Prod.mk.inj (List.mem_singleton.mp hnew)
      rw [hpage, Outcome.ok.inj hp]
  ends e he := by
    rcases List.mem_append.mp he with hold | hnew
    · exact h.ends e hold
    · exact Or.inr ⟨g, by rw [List.mem_singleton.mp hnew]⟩

/-- **One call.** -/
lemma Refines.step (hcap : pa.capacity ≤ 2 ^ 48) (h : Refines P root es s)
    (hfits : CounterFits s e) (hstep : callStep pa s e = some t) :
    (∃ P', Refines P' root (es ++ [e]) t) ∧
      ∀ a < 2 ^ 48, pageOf a ≠ pageOf e.1 → translation t a = translation s a := by
  obtain ⟨b, o⟩ := e
  obtain ⟨ho, ht⟩ := Option.ite_none_right_eq_some.mp hstep
  obtain rfl := Option.some.inj ht
  have hs := h.holds
  rcases Nat.lt_or_ge b (2 ^ 48) with hb | hb
  · obtain ⟨c, t, P', ht, hto, hother, hpage, -, -, -, hcall⟩ := allocPage_spec hcap hb hs
      (fun hn => hfits hb (by rw [translation_holds hs hb, hn]; rfl))
    simp only [hcall] at ho ⊢
    refine ⟨⟨P', ?_⟩, fun a ha hne => by
      rw [translation_holds ht ha, translation_holds hs ha, hother _ hne]⟩
    rcases c with _ | g
    · rw [← ho]
      refine h.failed ht fun x => ?_
      by_cases hx : x = pageOf b
      · rcases hold : P 4 x with _ | f
        · rw [hx, hpage]
        · rw [hto.mono hold]
      · exact hother x hx
    · rw [← ho]
      exact h.succeeded ht hto.mono hother hpage
  · simp only [allocPage_out_of_range hb] at ho ⊢
    rw [← ho]
    exact ⟨⟨P, h.failed hs fun _ => rfl⟩, fun _ _ _ => trivial⟩

/-- **Page-table refinement**: after every run of calls on a new context, the walk from its
root table translates every user address as the successful calls have promised. Every call
ends with a page or an error, the pages returned for one page of addresses agree, and no
call changes the translation of another page. -/
theorem allocPage_refines {m m' : Machine} {c : MemoryContext} (hcap : pa.capacity ≤ 2 ^ 48)
    (hal : pageSize ∣ m.allocated) (hwrap : m.allocated + pageSize < 2 ^ 64)
    (hnew : new pa m = (.ok c, m'))
    (hrun : Run (guarded CounterFits (callStep pa)) ⟨m', c⟩ es s) :
    (∀ a < 2 ^ 48, translation s a = expected es a) ∧
      (∀ e ∈ es, e.2 = .err ∨ ∃ p, e.2 = .ok p) ∧
      (∀ b b' p p', (b, .ok p) ∈ es → (b', .ok p') ∈ es → b >>> 12 = b' >>> 12 → p = p') ∧
      ∀ e t, guarded CounterFits (callStep pa) s e = some t →
        ∀ a < 2 ^ 48, a >>> 12 ≠ e.1 >>> 12 → translation t a = translation s a := by
  obtain ⟨f, hstart⟩ : ∃ f, Refines (single f) f [] ⟨m', c⟩ := by
    rcases new_spec hcap hwrap hal with ⟨f, c', hok, -, -, -, -, hs⟩ | ⟨a, herr, -⟩
    · obtain ⟨hc, rfl⟩ := Prod.mk.inj (hok.symm.trans hnew)
      obtain rfl := Outcome.ok.inj hc
      exact ⟨f, hs, fun x => by simp [granted, single], by simp, by simp⟩
    · rw [herr] at hnew
      cases hnew
  obtain ⟨P, h⟩ : ∃ P, Refines P f es s := by
    refine hrun.invariant_log (I := fun es s => ∃ P, Refines P f es s) ?_ ⟨_, hstart⟩
    rintro es s e t ⟨P, h⟩ hstep
    obtain ⟨hfits, hstep⟩ := guarded_eq_some.mp hstep
    exact (h.step hcap hfits hstep).1
  refine ⟨fun a ha => h.translation_eq ha, h.ends, fun b b' p p' hb hb' hpage => ?_,
    fun e t hstep a ha hne => ?_⟩
  · have hp := h.same hb
    rw [pageOf_eq, hpage, ← pageOf_eq, h.same hb'] at hp
    exact (Option.some.inj hp).symm
  · obtain ⟨hfits, hstep⟩ := guarded_eq_some.mp hstep
    exact (h.step hcap hfits hstep).2 a ha (by rwa [pageOf_eq, pageOf_eq])

/-- An allocator with room for 256 frames, and its first context. -/
def roomy : PageAllocator := ⟨2 ^ 20, []⟩

def fresh : Scope where
  machine := (new roomy ⟨fun _ => 0, 0, 1⟩).2
  context := ⟨[⟨0, vaStart⟩], 1, vaStart⟩

lemma guarded_callStep (pa : PageAllocator) {b : ℕ} {o : Outcome ℕ} (hfits : CounterFits s (b, o))
    (ho : (allocPage pa b s).1 = o) :
    guarded CounterFits (callStep pa) s (b, o) = some (allocPage pa b s).2 :=
  guarded_eq_some.mpr ⟨hfits, if_pos ho⟩

/-- Two calls for one page and one call out of range. -/
theorem allocPage_refines_run :
    ∃ s es, es = [(0x1234, .ok 0x4000), (0x1000, .ok 0x4000), (2 ^ 50, .err)] ∧
      ∀ a < 2 ^ 48, translation s a = expected es a := by
  have h₁ := guarded_callStep roomy (s := fresh) (b := 0x1234) (o := .ok 0x4000)
    (fun _ _ => by decide +kernel) (by decide +kernel)
  have h₂ := guarded_callStep roomy (s := (allocPage roomy 0x1234 fresh).2) (b := 0x1000)
    (o := .ok 0x4000) (fun _ _ => by decide +kernel) (by decide +kernel)
  have h₃ := guarded_callStep roomy (b := 2 ^ 50) (o := .err)
    (s := (allocPage roomy 0x1000 (allocPage roomy 0x1234 fresh).2).2)
    (fun h => absurd h (by decide)) (by rw [allocPage_out_of_range (by decide)])
  have hnew : new roomy ⟨fun _ => 0, 0, 1⟩ = (.ok fresh.context, fresh.machine) :=
    Prod.ext (by decide +kernel) rfl
  exact ⟨_, _, rfl, (allocPage_refines (by decide) (by decide) (by decide) hnew
    (((Run.nil fresh).snoc h₁).snoc h₂ |>.snoc h₃)).1⟩

/-! ### The counter at the end of its range -/

/-- An allocator with one usable frame. -/
def tight : PageAllocator := ⟨pageSize, [(pageSize, 2 ^ 64 - 1)]⟩

/-- The first context of the tight allocator, with the counter at `a`. -/
def worn (a : ℕ) : Scope where
  machine := ⟨fun _ => 0, a, 2⟩
  context := ⟨[⟨0, vaStart⟩], 1, vaStart⟩

lemma new_tight :
    new tight ⟨fun _ => 0, 0, 1⟩ = (.ok (worn pageSize).context, (worn pageSize).machine) := by
  have hclear : ByteMemory.clear (fun _ => 0) 0 pageSize = fun _ => 0 := by
    funext x
    unfold ByteMemory.clear
    split <;> rfl
  have hnew : new tight ⟨fun _ => 0, 0, 1⟩ =
      (.ok (worn pageSize).context, ⟨ByteMemory.clear (fun _ => 0) 0 pageSize, pageSize, 2⟩) := rfl
  rw [hnew, hclear]
  rfl

lemma row_zero : row (fun _ => 0) 0 0 = rowOf 0 none := by decide

/-- A failing call changes nothing but the counter. -/
lemma allocPage_worn (ha : pageSize ≤ a) (hlt : a + pageSize < 2 ^ 64) :
    allocPage tight 0 (worn a) = (.err, worn (a + pageSize)) := by
  have hwrap : wrap ((worn a).machine.allocated + pageSize) = a + pageSize := wrap_of_lt hlt
  have hps : 0 < pageSize := by decide
  have hcap : tight.capacity < a + pageSize := show pageSize < a + pageSize by omega
  have halloc := alloc_exhausted tight (s := (worn a).machine) (by rwa [hwrap])
  have hraw : allocPageRaw tight (worn a) = (.err, worn (a + pageSize)) := by
    rw [allocPageRaw, Exec.bind_err]
    rw [onMachine, Exec.zoom, halloc, hwrap]
    rfl
  have htype : onMemory (TableRowManager.descriptorType ⟨rootTable (worn a).context, 0⟩) (worn a) =
      (.ok none, worn a) :=
    onMemory_read (descriptorType_row (f := 0) (v := 0) (c := none) ⟨by decide, by decide⟩
      (by decide) (by decide) row_zero (by simp))
  have hstep : traverseTableToTable tight (rootTable (worn a).context) 0 (worn a) =
      (.err, worn (a + pageSize)) := by
    have hrow : (rootTable (worn a).context).rowByAddress 0 =
        some ⟨rootTable (worn a).context, 0⟩ := by
      show TableManager.rowByAddress ⟨vaStart, 0, 0⟩ 0 = some ⟨⟨vaStart, 0, 0⟩, 0⟩
      decide +kernel
    rw [traverseTableToTable, hrow, Exec.okOr_some, Exec.pure_bind]
    exact (Exec.bind_ok htype).trans (Exec.bind_err hraw)
  exact allocPage_err hstep

lemma run_worn (k : ℕ) (hk : k ≤ 2 ^ 52 - 2) :
    Run (callStep tight) (worn pageSize) (List.replicate k (0, .err))
      (worn (pageSize * (k + 1))) := by
  have hps : pageSize = 4096 := rfl
  induction k with
  | zero => exact .nil _
  | succ k ih =>
    have hcall := allocPage_worn (a := pageSize * (k + 1)) (by rw [hps]; omega) (by rw [hps]; omega)
    rw [List.replicate_succ']
    refine (ih (by omega)).snoc ?_
    rw [callStep, hcall]
    exact if_pos rfl

lemma granted_replicate (k x : ℕ) : granted (List.replicate k (0, .err)) x = none := by
  induction k with
  | zero => rfl
  | succ k ih => exact ih

/-- **The wrapped counter**: after `2 ^ 52 - 2` failed calls the next call goes round to frame
0, the root table itself; it returns a page to which the hardware translates nothing. -/
theorem allocPage_wraps :
    ∃ c m' es s, new tight ⟨fun _ => 0, 0, 1⟩ = (.ok c, m') ∧
      es = List.replicate (2 ^ 52 - 2) (0, .err) ++ [(0, .ok 0)] ∧
      Run (callStep tight) ⟨m', c⟩ es s ∧ translation s 0 = none ∧ expected es 0 ≠ none := by
  have hlast : callStep tight (worn (pageSize * (2 ^ 52 - 2 + 1))) (0, .ok 0) =
      some (allocPage tight 0 (worn (pageSize * (2 ^ 52 - 2 + 1)))).2 := rfl
  refine ⟨_, _, _, _, new_tight, rfl, (run_worn (2 ^ 52 - 2) (le_refl _)).snoc hlast, rfl, ?_⟩
  rw [expected, granted_snoc_ok, granted_replicate]
  simp [pageOf]

end Pimento.UserMapping
