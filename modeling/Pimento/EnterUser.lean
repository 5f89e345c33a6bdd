import Mathlib.Logic.Relation
import Pimento.Exceptions

/-!
`enter_el0`, and the IRQs that may come while it runs.

It runs in EL1 with IRQs enabled, and each of its instructions may be interrupted. An IRQ that has
returned has left its own return address in ELR_EL1 and the PSTATE of EL1 in SPSR_EL1.
-/

namespace Pimento.VectorTable

open ByteMemory Aarch64 Relation

/-- `SPSR_EL1_INIT_EL0`: EL0 with SP_EL0. -/
def spsrEl1InitEl0 : Word := 0

/-- `enter_el0`, with the address of `exit_el0`. -/
def enterEl0 (exitEl0 : Word) : List Instr :=
  [.movImm 9 spsrEl1InitEl0,
    .msr .spsrEl1 9,
    .msr .elrEl1 0,
    .adr 30 exitEl0,
    .eret]

/-- IRQs that are taken in one place, each of them after the one before has returned. -/
inductive Irqs (im : Image) (start stop : ℕ) : ℕ → Pe → Pe → Prop
  | none (c : Pe) : Irqs im start stop 0 c c
  | snoc {n : ℕ} {c d e : Pe} (h : Irqs im start stop n c d) (hmask : d.Unmasked)
      (hirq : Ran im start stop (.handled .irq) d e) : Irqs im start stop (n + 1) c e

/-- Instructions one after the other, with so many IRQs before each of them. -/
inductive Interrupted (im : Image) (start stop : ℕ) : List Instr → List ℕ → Pe → Pe → Prop
  | nil (c : Pe) : Interrupted im start stop [] [] c c
  | cons {n : ℕ} {i : Instr} {code : List Instr} {irqs : List ℕ} {c d e : Pe}
      (hirqs : Irqs im start stop n c d) (h : Interrupted im start stop code irqs (exec i d) e) :
      Interrupted im start stop (i :: code) (n :: irqs) c e

/-- The `adr` of `enter_el0` at `a`, or the `eret` behind it, after any number of IRQs. -/
inductive Spins (im : Image) (start stop : ℕ) (exitEl0 a : Word) (c : Pe) : Pe → Prop
  | adr {n : ℕ} {d : Pe} (hirqs : Irqs im start stop n c d) (hpc : d.core.pc = a) :
      Spins im start stop exitEl0 a c (exec (.adr 30 exitEl0) d)
  | eret {n : ℕ} {d : Pe} (hirqs : Irqs im start stop n c d) (hpc : d.core.pc = a + 4) :
      Spins im start stop exitEl0 a c (exec .eret d)

/-- At the `adr` or at the `eret`, in the PSTATE of `enter_el0`. -/
structure Spinning (a p : Word) (c : Pe) : Prop where
  pc : c.core.pc = a ∨ c.core.pc = a + 4
  elr : c.sys .elrEl1 = a ∨ c.sys .elrEl1 = a + 4
  pstate : c.pstate = p
  spsr : c.sys .spsrEl1 = p

/-- What becomes of `enter_el0` with the IRQs before each of its instructions. -/
structure Outcome (im : Image) (start stop : ℕ) (exitEl0 : Word) (irqs : List ℕ) (c d : Pe) :
    Prop where
  /-- The program begins in EL0 exactly when there is no IRQ after SPSR_EL1 has been written. -/
  user : d.core.pc = c.core.x 0 ∧ d.pstate = spsrEl1InitEl0 ↔ (irqs.drop 2).sum = 0
  /-- If there is none after ELR_EL1 has been written, it begins in EL1. -/
  kernel : 0 < (irqs.drop 2).sum → (irqs.drop 3).sum = 0 →
    d.core.pc = c.core.x 0 ∧ d.pstate = c.pstate
  /-- If there is, it never begins. -/
  never : 0 < (irqs.drop 3).sum → ∀ e,
    ReflTransGen (Spins im start stop exitEl0 (c.core.pc + 12)) d e →
      Spinning (c.core.pc + 12) c.pstate e
  /-- Its stack pointers are those of before. -/
  pointers : d.core.sp = c.core.sp ∧ d.sys .spEl0 = c.sys .spEl0

variable {im : Image} {start stop n : ℕ} {exitEl0 a p : Word} {c d e : Pe}

lemma next_pc (c : Pe) : c.next.core.pc = c.core.pc + 4 := rfl

lemma setX_pc (c : Pe) (r : Reg) (v : Word) : (c.setX r v).core.pc = c.core.pc := rfl

/-- IRQs leave the running code as it was, and their own return address in ELR_EL1. -/
lemma Irqs.spec (h : Irqs im start stop n c d) :
    Undisturbed c d ∧
      (d.sys .elrEl1 = if n = 0 then c.sys .elrEl1 else c.core.pc) ∧
      (d.sys .spsrEl1 = if n = 0 then c.sys .spsrEl1 else c.pstate) := by
  induction h with
  | none c => exact ⟨.refl c, rfl, rfl⟩
  | snoc h hmask hirq ih =>
    obtain ⟨hund, -, -⟩ := ih
    have hreturns : Returns stop .irq _ _ := hirq.sound
    exact ⟨hund.irq hreturns, hreturns.elr.trans hund.pc, hreturns.spsr.trans hund.pstate⟩

lemma Spinning.irqs (hs : Spinning a p c) (h : Irqs im start stop n c d) : Spinning a p d := by
  obtain ⟨hund, helr, hspsr⟩ := h.spec
  refine ⟨hund.pc ▸ hs.pc, ?_, hund.pstate.trans hs.pstate, ?_⟩
  · rw [helr]
    split
    · exact hs.elr
    · exact hs.pc
  · rw [hspsr]
    split
    · exact hs.spsr
    · exact hs.pstate

lemma Spinning.step (hs : Spinning a p c) (h : Spins im start stop exitEl0 a c d) :
    Spinning a p d := by
  cases h with
  | adr hirqs hpc =>
    obtain ⟨-, helr, hp, hspsr⟩ := hs.irqs hirqs
    exact ⟨.inr (congrArg (· + 4) hpc), helr, hp, hspsr⟩
  | eret hirqs hpc =>
    obtain ⟨-, helr, -, hspsr⟩ := hs.irqs hirqs
    exact ⟨helr, helr, hspsr, hspsr⟩

lemma Spinning.run (hs : Spinning a p c)
    (h : ReflTransGen (Spins im start stop exitEl0 a) c d) : Spinning a p d := by
  induction h with
  | refl => exact hs
  | tail _ hstep ih => exact ih.step hstep

/-- The IRQs before an instruction come first. -/
lemma interrupted_cons {i : Instr} {code : List Instr} {irqs : List ℕ}
    (h : Interrupted im start stop (i :: code) irqs c e) :
    ∃ n irqs' d, irqs = n :: irqs' ∧ Irqs im start stop n c d ∧
      Interrupted im start stop code irqs' (exec i d) e := by
  cases h with
  | cons hirqs h => exact ⟨_, _, _, rfl, hirqs, h⟩

/-- What the `eret` of `enter_el0` has found in ELR_EL1 and SPSR_EL1. -/
structure Entered (irqs : List ℕ) (c d : Pe) : Prop where
  pc : d.core.pc = if 0 < irqs[4]! then c.core.pc + 16 else
    if 0 < irqs[3]! then c.core.pc + 12 else c.core.x 0
  elr : d.sys .elrEl1 = d.core.pc
  pstate : d.pstate = if (irqs.drop 2).sum = 0 then spsrEl1InitEl0 else c.pstate
  spsr : d.sys .spsrEl1 = d.pstate
  sp : d.core.sp = c.core.sp
  spEl0 : d.sys .spEl0 = c.sys .spEl0
  sum : (irqs.drop 2).sum = irqs[2]! + (irqs.drop 3).sum
  last : (irqs.drop 3).sum = irqs[3]! + irqs[4]!

lemma entered_of_interrupted {irqs : List ℕ}
    (h : Interrupted im start stop (enterEl0 exitEl0) irqs c d) : Entered irqs c d := by
  obtain ⟨n₀, _, c₀, rfl, hirqs₀, h⟩ := interrupted_cons h
  obtain ⟨n₁, _, c₁, rfl, hirqs₁, h⟩ := interrupted_cons h
  obtain ⟨n₂, _, c₂, rfl, hirqs₂, h⟩ := interrupted_cons h
  obtain ⟨n₃, _, c₃, rfl, hirqs₃, h⟩ := interrupted_cons h
  obtain ⟨n₄, _, c₄, rfl, hirqs₄, h⟩ := interrupted_cons h
  cases h
  obtain ⟨⟨hx₀, hsp₀, hpc₀, hel₀, hp₀⟩, -, -⟩ := hirqs₀.spec
  obtain ⟨⟨hx₁, hsp₁, hpc₁, hel₁, hp₁⟩, -, -⟩ := hirqs₁.spec
  obtain ⟨⟨hx₂, hsp₂, hpc₂, hel₂, hp₂⟩, -, hspsr₂⟩ := hirqs₂.spec
  obtain ⟨⟨-, hsp₃, hpc₃, hel₃, hp₃⟩, helr₃, hspsr₃⟩ := hirqs₃.spec
  obtain ⟨⟨-, hsp₄, -, hel₄, -⟩, helr₄, hspsr₄⟩ := hirqs₄.spec
  have hx : c₂.core.x 0 = c.core.x 0 := by
    simp -implicitDefEqProofs [hx₂, hx₁, hx₀, exec, Core.setX]
  have h9 : c₁.core.x 9 = spsrEl1InitEl0 := by
    simp -implicitDefEqProofs [hx₁, exec, Core.setX]
  have hsp : c₄.core.sp = c.core.sp := by
    simp -implicitDefEqProofs [hsp₄, hsp₃, hsp₂, hsp₁, hsp₀, exec, Core.setX]
  have hel : c₄.sys .spEl0 = c.sys .spEl0 := by
    simp -implicitDefEqProofs [hel₄, hel₃, hel₂, hel₁, hel₀, exec]
  have hpc : c₂.core.pc = c.core.pc + 8 := by
    rw [hpc₂, exec, next_pc, setSys_core, hpc₁, exec, next_pc, setX_pc, hpc₀, BitVec.add_assoc]
    rfl
  have hp : c₂.pstate = c.pstate := by
    simp -implicitDefEqProofs [hp₂, hp₁, hp₀, exec]
  have hpc' : c₃.core.pc = c.core.pc + 12 := by
    rw [hpc₃, exec, next_pc, setSys_core, hpc, BitVec.add_assoc]
    rfl
  have hp' : c₃.pstate = c.pstate := by rw [hp₃, exec, next_pstate, setSys_pstate, hp]
  have helr : c₄.sys .elrEl1 = if 0 < n₄ then c.core.pc + 16 else
      if 0 < n₃ then c.core.pc + 12 else c.core.x 0 := by
    rw [helr₄, exec, next_sys, setX_sys, next_pc, setX_pc, hpc', helr₃, exec, next_sys, setSys_sys,
      Function.update_self, next_pc, setSys_core, hpc, hx, BitVec.add_assoc, BitVec.add_assoc]
    split_ifs <;> first | rfl | omega
  have hspsr : c₄.sys .spsrEl1 = if n₂ + (n₃ + n₄) = 0 then spsrEl1InitEl0 else c.pstate := by
    rw [hspsr₄, exec, next_sys, setX_sys, next_pstate, setX_pstate, hp', hspsr₃, exec, next_sys,
      setSys_sys, Function.update_of_ne (by decide), next_pstate, setSys_pstate, hp, hspsr₂, exec,
      next_sys, setSys_sys, Function.update_self, next_pstate, setSys_pstate, h9, hp₁, exec,
      next_pstate, setX_pstate, hp₀]
    split_ifs <;> first | rfl | omega
  have hsum : (([n₀, n₁, n₂, n₃, n₄] : List ℕ).drop 2).sum = n₂ + (n₃ + n₄) := by simp
  refine ⟨helr, rfl, ?_, rfl, hsp, hel, by simp, by simp⟩
  rw [hsum]
  exact hspsr

/-- **Entering user code**: the program begins at its entry point in EL0 if no IRQ is taken after
`enter_el0` has written SPSR_EL1. If one is taken after that and none after ELR_EL1 has been
written, the program begins in EL1. If one is taken after that too, `enter_el0` stays at its last
two instructions for ever. -/
theorem enter_el0_outcome {irqs : List ℕ} (hlevel : c.pstate ≠ spsrEl1InitEl0)
    (h : Interrupted im start stop (enterEl0 exitEl0) irqs c d) :
    Outcome im start stop exitEl0 irqs c d := by
  obtain ⟨hpc, helr, hpstate, hspsr, hsp, hel, hsum, hlast⟩ := entered_of_interrupted h
  have hentry : (irqs.drop 3).sum = 0 → d.core.pc = c.core.x 0 := fun hzero => by
    rw [hpc, if_neg (by omega), if_neg (by omega)]
  refine ⟨⟨fun huser => ?_, fun hzero => ⟨hentry (by omega), ?_⟩⟩, fun hpos hzero =>
    ⟨hentry hzero, ?_⟩, fun hpos e => ?_, hsp, hel⟩
  · by_contra hne
    rw [hpstate, if_neg hne] at huser
    exact hlevel huser.2
  · rw [hpstate, if_pos hzero]
  · rw [hpstate, if_neg (by omega)]
  · have hback : d.core.pc = c.core.pc + 12 ∨ d.core.pc = c.core.pc + 12 + 4 := by
      rw [hpc]
      by_cases h4 : 0 < irqs[4]!
      · rw [if_pos h4, BitVec.add_assoc]
        exact .inr rfl
      · rw [if_neg h4, if_pos (by omega)]
        exact .inl rfl
    have hp : d.pstate = c.pstate := by rw [hpstate, if_neg (by omega)]
    have hspins : Spinning (c.core.pc + 12) c.pstate d :=
      ⟨hback, helr ▸ hback, hp, hspsr.trans hp⟩
    exact hspins.run

/-- Kernel code that is about to enter a program at 0x1000. -/
def entering : Pe :=
  ⟨⟨fun r => if r = 0 then 0x1000 else 7, 0x3000, 0x80800, fun _ => 0⟩, fun _ => 0, 0x305⟩

/-- An IRQ between the two writes. -/
theorem enter_el0_outcome_kernel : ∃ d,
    Interrupted bootImage 0x2000 0x3000 (enterEl0 0x80814) [0, 0, 1, 0, 0] entering d ∧
    Outcome bootImage 0x2000 0x3000 0x80814 [0, 0, 1, 0, 0] entering d := by
  obtain ⟨e, he⟩ := exists_idle bootImage 0x2000 0x3000
    (c := execAll ((enterEl0 0x80814).take 2) entering) (by decide) (by decide)
  have hirq : Irqs bootImage 0x2000 0x3000 1 (execAll ((enterEl0 0x80814).take 2) entering) e :=
    .snoc (.none _) (by unfold Pe.Unmasked; decide) he
  have hrun : Interrupted bootImage 0x2000 0x3000 (enterEl0 0x80814) [0, 0, 1, 0, 0] entering _ :=
    .cons (.none _) (.cons (.none _) (.cons hirq (.cons (.none _) (.cons (.none _) (.nil _)))))
  exact ⟨_, hrun, enter_el0_outcome (by decide) hrun⟩

end Pimento.VectorTable
