import Pimento.OwnershipSteps
import Pimento.UserMapping

/-!
Frame isolation between address spaces, over every interleaving of their operations.

From the ownership invariant: a frame has one role, user code reaches only the pages of its
own context, and dropping a context leaves the frames of the others alone.
-/

namespace Pimento.Isolation

open Address PageTable PageAllocator MemoryContext Descriptors Armv8 Placement TableTree Traverse
  AllocPage Contexts Ownership Runs ByteMemory

variable {pa : PageAllocator} {H : Layout} {m : Machine} {w w' : World} {es : List Event}

/-- The frame of a physical address. -/
def frameOf (a : ℕ) : ℕ := a / pageSize * pageSize

/-- User code running in the context `c` reaches physical memory through `t` at `va`. -/
def Reaches (w : World) (c va : ℕ) (t : Translation) : Prop :=
  ∃ context, w.contexts c = some context ∧
    translate w.machine.memory (physicalAddress context.tableL0) va = some t ∧ t.el0 = true

/-- **Isolation** in one state of the system. -/
structure Isolated (pa : PageAllocator) (w : World) : Prop where
  /-- A frame has one owner and one role. -/
  unique : ∀ f r r', HasRole w f r → HasRole w f r' → r = r'
  /-- A frame that user code reaches is the page it reaches it through, and nothing else. -/
  access : ∀ c va t r, Reaches w c va t → HasRole w (frameOf t.outputAddress) r →
    r = .page c (va / pageSize)
  /-- What user code reaches is usable memory. -/
  usable : ∀ c va t, Reaches w c va t → frameOf t.outputAddress + pageSize ≤ pa.capacity ∧
    ∀ range ∈ pa.reservedRanges, frameOf t.outputAddress + pageSize ≤ range.1 ∨
      range.2 ≤ frameOf t.outputAddress
  /-- Dropping a context changes no byte of a frame owned by another. -/
  drop : ∀ c w' f r, step pa w (.drop c) = some w' → HasRole w f r → r.context ≠ c →
    SameOn w.machine.memory w'.machine.memory f pageSize

lemma owned_boot (hal : pageSize ∣ m.allocated) : Owned pa (boot m) fun _ => none where
  fits := ⟨by simp, by simp, by simp, by simp⟩
  aligned := hal
  tables h := by cases h
  live h := by cases h
  stack h := by cases h
  stackOnly h := by cases h
  recorded h := by cases h
  unused _ := ⟨rfl, rfl⟩
  calls h := by cases h

/-- A page that user code reaches has the role of that page. -/
lemma Reaches.hasRole {c va : ℕ} {t : Translation} (hr : Reaches w c va t) (h : Owned pa w H) :
    HasRole w (frameOf t.outputAddress) (.page c (va / pageSize)) := by
  obtain ⟨context, hc, ht, -⟩ := hr
  obtain ⟨g, hg, -, hframe⟩ := h.accessible hc ht
  have hlt : va / pageSize * pageSize < 2 ^ 48 := by
    refine lt_of_le_of_lt (Nat.div_mul_le_self _ _) ?_
    by_contra hge
    rw [Armv8.translate, if_neg hge] at ht
    cases ht
  have hpage : pageOf (va / pageSize * pageSize) = pageOf va := Nat.mul_div_cancel _ (by decide)
  refine ⟨context, userPage (va / pageSize * pageSize) g, hc, ?_, ?_⟩
  · rw [translate_eq (h.represents hc) hlt, hpage, show H.space c 4 (pageOf va) = some g from hg]
    rfl
  · rw [frameOf, hframe, userPage, Nat.mul_mod_left, Nat.add_zero]

/-- The frames of other contexts are left when a context is dropped. -/
lemma without_position {c f : ℕ} {r : Role} (h : Owned pa w H) (hrole : HasRole w f r)
    (hne : r.context ≠ c) : without w H c (position r) = some f := by
  have hx := h.hasRole hrole
  cases r with
  | root c' => exact (if_neg hne).trans hx
  | table c' l p => exact (if_neg hne).trans hx
  | page c' x => exact (if_neg hne).trans hx
  | unmapped c' id =>
    obtain ⟨e, he, hctx, -⟩ := hrole
    refine (if_pos ?_).trans hx
    exact Option.isSome_of_eq_some
      (Option.filter_eq_some_iff.mpr ⟨he, by simpa [hctx] using Or.inl (show c' ≠ c from hne)⟩)

lemma isolated_of_owned (h : Owned pa w H) (hcap : pa.capacity ≤ 2 ^ 48)
    (hres : ∀ range ∈ pa.reservedRanges, range.1 < range.2 ∧ range.2 < 2 ^ 64) :
    Isolated pa w where
  unique f r r' hf hf' := h.role_unique hf hf'
  access c va t r hr hrole := h.role_unique hrole (hr.hasRole h)
  usable c va t hr := by
    obtain ⟨context, hc, ht, -⟩ := hr
    obtain ⟨g, hg, -, hframe⟩ := h.accessible hc ht
    obtain ⟨hle, hclear⟩ := h.fits.usable hg
    rw [frameOf, hframe]
    refine ⟨hle, fun range hmem => ?_⟩
    obtain ⟨hne, hend⟩ := hres range hmem
    refine clear_of_reserved (by omega) hne hend ?_
    have := List.any_eq_false.mp (Bool.not_eq_true _ ▸ hclear) range hmem
    simpa using this
  drop c w' f r hstep hrole hne := by
    obtain ⟨context, hi, rfl⟩ := Option.map_eq_some_iff.mp hstep
    exact h.sameOn_drop (Option.ite_none_right_eq_some.mp hi).2 (without_position h hrole hne)

/-- The invariant holds in every state a run reaches. -/
lemma owned_run (hcap : pa.capacity ≤ 2 ^ 48) (hal : pageSize ∣ m.allocated)
    (hrun : Run (guarded CounterFits (step pa)) (boot m) es w) : ∃ H, Owned pa w H := by
  refine hrun.invariant (I := fun w => ∃ H, Owned pa w H) ?_ ⟨_, owned_boot hal⟩
  rintro w e w' ⟨H, h⟩ hstep
  obtain ⟨hfits, hstep⟩ := guarded_eq_some.mp hstep
  exact h.step hcap hfits hstep

/-- **Frame isolation**: in every state that contexts sharing an allocator reach, by any
interleaving of their operations and of stores by user code, a frame has one owner and one
role, user code reaches neither tables nor kernel stacks nor another context's pages, what it
reaches is usable memory, and dropping a context changes no byte of another's frames. -/
theorem isolated (hcap : pa.capacity ≤ 2 ^ 48)
    (hres : ∀ range ∈ pa.reservedRanges, range.1 < range.2 ∧ range.2 < 2 ^ 64)
    (hal : pageSize ∣ m.allocated)
    (hrun : Run (guarded CounterFits (step pa)) (boot m) es w) : Isolated pa w := by
  obtain ⟨H, h⟩ := owned_run hcap hal hrun
  exact isolated_of_owned h hcap hres

lemma guarded_step (pa : PageAllocator) {e : Event} (hfits : CounterFits w e)
    (h : (step pa w e).isSome) :
    guarded CounterFits (step pa) w e = some ((step pa w e).get h) :=
  guarded_eq_some.mpr ⟨hfits, (Option.some_get h).symm⟩

open UserMapping (roomy tight worn new_tight)

/-- Two contexts, a call by the first and the drop of the second. -/
theorem isolated_run : ∃ es w, es = [.create, .create, .start 0 0x1000, .advance 0, .drop 1] ∧
    Run (step roomy) (boot ⟨fun _ => 0, 0, 1⟩) es w ∧ Isolated roomy w := by
  have h₁ := guarded_step roomy (w := boot ⟨fun _ => 0, 0, 1⟩) (e := .create)
    (by decide +kernel) (by decide +kernel)
  have h₂ := guarded_step roomy (w := create roomy (boot ⟨fun _ => 0, 0, 1⟩)) (e := .create)
    (by decide +kernel) (by decide +kernel)
  have h₃ := guarded_step roomy (e := .start 0 0x1000)
    (w := create roomy (create roomy (boot ⟨fun _ => 0, 0, 1⟩)))
    (by decide +kernel) (by decide +kernel)
  have h₄ := guarded_step roomy (e := .advance 0) (w := (step roomy
      (create roomy (create roomy (boot ⟨fun _ => 0, 0, 1⟩))) (.start 0 0x1000)).get
        (by decide +kernel)) (by decide +kernel) (by decide +kernel)
  have h₅ := guarded_step roomy (e := .drop 1) (w := (step roomy ((step roomy
      (create roomy (create roomy (boot ⟨fun _ => 0, 0, 1⟩))) (.start 0 0x1000)).get
        (by decide +kernel)) (.advance 0)).get (by decide +kernel))
    (by decide +kernel) (by decide +kernel)
  have hrun := ((((Run.nil _).snoc h₁).snoc h₂).snoc h₃).snoc h₄ |>.snoc h₅
  exact ⟨_, _, rfl, hrun.mono fun s e t h => (guarded_eq_some.mp h).2,
    isolated (by decide) (by decide) (by decide) hrun⟩

/-! ### The counter at the end of its range -/

/-- The world with the first context of the tight allocator, and the counter at `a`. -/
def wornWorld (a : ℕ) : World :=
  { boot (worn a).machine with
    contexts := Function.update (fun _ => none) 0 (some (worn a).context)
    next := 1 }

lemma create_worn {a : ℕ} (ha : pageSize ≤ a) (hlt : a + pageSize < 2 ^ 64) :
    create tight (wornWorld a) = wornWorld (a + pageSize) := by
  have hwrap : wrap ((wornWorld a).machine.allocated + pageSize) = a + pageSize := wrap_of_lt hlt
  have hps : 0 < pageSize := by decide
  have hcap : tight.capacity < a + pageSize := show pageSize < a + pageSize by omega
  have halloc := alloc_exhausted tight (s := (wornWorld a).machine) (by rwa [hwrap])
  have hnew : new tight (wornWorld a).machine = (.err, (wornWorld (a + pageSize)).machine) := by
    rw [new, Exec.bind_err halloc, hwrap]
    rfl
  unfold create
  rw [hnew]
  rfl

lemma run_worn (k : ℕ) (hk : k ≤ 2 ^ 52 - 2) :
    Run (step tight) (wornWorld pageSize) (List.replicate k .create)
      (wornWorld (pageSize * (k + 1))) := by
  have hps : pageSize = 4096 := rfl
  induction k with
  | zero => exact .nil _
  | succ k ih =>
    have hcreate := create_worn (a := pageSize * (k + 1)) (by rw [hps]; omega) (by rw [hps]; omega)
    rw [List.replicate_succ']
    refine (ih (by omega)).snoc ?_
    exact congrArg some hcreate

/-- **The wrapped counter**: after `2 ^ 52 - 2` failed attempts the next context is given the
root table of the first. -/
theorem isolation_wraps :
    ∃ es w, es = .create :: (List.replicate (2 ^ 52 - 2) .create ++ [.create]) ∧
      Run (step tight) (boot ⟨fun _ => 0, 0, 1⟩) es w ∧
      HasRole w 0 (.root 0) ∧ HasRole w 0 (.root 1) ∧ ¬ Isolated tight w := by
  have hfirst : step tight (boot ⟨fun _ => 0, 0, 1⟩) .create = some (wornWorld pageSize) := by
    show some (create tight _) = _
    unfold create
    rw [show new tight (boot ⟨fun _ => 0, 0, 1⟩).machine = _ from new_tight]
    rfl
  have hlast : step tight (wornWorld (pageSize * (2 ^ 52 - 2 + 1))) .create =
      some (create tight (wornWorld (pageSize * (2 ^ 52 - 2 + 1)))) := rfl
  have h₀ : HasRole (create tight (wornWorld (pageSize * (2 ^ 52 - 2 + 1)))) 0 (.root 0) :=
    ⟨_, rfl, by decide +kernel⟩
  have h₁ : HasRole (create tight (wornWorld (pageSize * (2 ^ 52 - 2 + 1)))) 0 (.root 1) :=
    ⟨_, rfl, by decide +kernel⟩
  exact ⟨_, _, rfl, Run.cons hfirst ((run_worn (2 ^ 52 - 2) (le_refl _)).snoc hlast), h₀, h₁,
    fun h => absurd (h.unique 0 _ _ h₀ h₁) (by decide)⟩

end Pimento.Isolation
