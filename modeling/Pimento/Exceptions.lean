import Pimento.VectorTable

/-!
Exceptions that are taken, handled and returned from, to any depth.

A handler is compiled code, of which only the calling convention is known: it leaves the stack from
its record on alone, and returns to its link register with the stack pointer it was called with. It
may run other tasks in the meantime, so everything else may have changed when it returns. Once
interrupts are enabled it may be interrupted itself, and so may `load_regs` before it has begun to
write ELR_EL1.
-/

namespace Pimento.VectorTable

open ByteMemory Aarch64

/-- The addresses of the entries and of the handlers. `el1h_irq` and `el0_irq` are one. -/
structure Image where
  el0Sync : Word
  irq : Word
  vectorSyncEl0 : Word
  vectorIrq : Word

/-- An exception that is returned from. A system call comes with what the core sets ESR_EL1 and
FAR_EL1 to, and `vector_sync_el0` puts its result in the place of x0. -/
inductive Cause
  | irq
  | svc (esr far result : Word)

namespace Cause

/-- The preferred return address. -/
def returnAddress (pc : Word) : Cause → Word
  | irq => pc
  | svc .. => pc + 4

/-- The first address of the record that the handler leaves alone. -/
def kept (frame : ℕ) : Cause → ℕ
  | irq => frame
  | svc .. => frame + 8

/-- The general registers of the code that is returned to. -/
def result (x : Reg → Word) : Cause → Reg → Word
  | irq => x
  | svc _ _ w => Function.update x 0 w

/-- What the handler leaves in the place of x0. -/
def Leaves (w : Word) : Cause → Prop
  | irq => True
  | svc _ _ w' => w = w'

def entry (im : Image) : Cause → Word
  | irq => im.irq
  | svc .. => im.el0Sync

/-- What ESR_EL1 and FAR_EL1 become. -/
def syndrome (sys : SysReg → Word) : Cause → SysReg → Word
  | irq => sys
  | svc esr far _ => Function.update (Function.update sys .esrEl1 esr) .farEl1 far

/-- The arguments of the handler, and the call. -/
def call (im : Image) : Cause → List Instr
  | irq => [.bl im.vectorIrq]
  | svc .. =>
    [.movFromSp 0, .mrs 1 .esrEl1, .mrs 2 .farEl1, .mrs 3 .elrEl1, .bl im.vectorSyncEl0]

end Cause

/-- The PSTATE of an exception that is taken to EL1: all exceptions are masked. -/
def pstateEl1 : Word := 0x3C5

/-- IRQs are taken. -/
def Pe.Unmasked (c : Pe) : Prop := c.pstate.getLsbD 7 = false

/-- The core takes an exception. -/
def takeException (im : Image) (cause : Cause) (c : Pe) : Pe where
  core := { c.core with pc := cause.entry im }
  sys := Function.update (Function.update (cause.syndrome c.sys) .elrEl1
    (cause.returnAddress c.core.pc)) .spsrEl1 c.pstate
  pstate := pstateEl1

/-- The core at the first instruction of the handler. -/
def entered (im : Image) (cause : Cause) (c : Pe) : Pe :=
  execAll (saveRegs ++ cause.call im) (takeException im cause c)

/-- The address of the record of an exception that is taken. -/
def frame (c : Pe) : ℕ := c.core.sp.toNat - Registers.size

/-- The record of an exception that is taken. -/
def saved (cause : Cause) (c : Pe) : Registers :=
  ⟨c.core.x, c.sys .spEl0, cause.returnAddress c.core.pc, c.pstate⟩

/-- What a core runs. -/
inductive Code
  /-- Compiled code, or IRQs only, with the stack pointer at `limit` or below. The stack from `kept`
  on is in use. -/
  | running (compiled : Bool) (limit kept : ℕ)
  /-- An exception, from when it is taken until it has returned. -/
  | handled (cause : Cause)

/-- What happens on a stack that begins at `start` and ends at `stop`. -/
inductive Ran (im : Image) (start stop : ℕ) : Code → Pe → Pe → Prop
  | nothing (compiled : Bool) (limit kept : ℕ) (c : Pe) :
      Ran im start stop (.running compiled limit kept) c c
  /-- Compiled code may change everything but the stack that is in use. -/
  | step {limit kept : ℕ} {c d e : Pe} (h : Ran im start stop (.running true limit kept) c d)
      (hsame : SameOn d.core.memory e.core.memory kept (stop - kept)) :
      Ran im start stop (.running true limit kept) c e
  | interrupt {compiled : Bool} {limit kept : ℕ} {c d e : Pe}
      (h : Ran im start stop (.running compiled limit kept) c d) (hmask : d.Unmasked)
      (hsp : d.core.sp.toNat ≤ limit) (hirq : Ran im start stop (.handled .irq) d e) :
      Ran im start stop (.running compiled limit kept) c e
  /-- The handler runs and returns. IRQs may come before the first instruction of `load_regs` and
  before the second one. -/
  | exception {cause : Cause} {c d e f : Pe}
      (hstart : start + Registers.size ≤ c.core.sp.toNat) (hstop : c.core.sp.toNat ≤ stop)
      (hbody : Ran im start stop (.running true (frame c) (cause.kept (frame c)))
        (entered im cause c) d)
      (hpc : d.core.pc = (entered im cause c).core.x 30)
      (hsp : d.core.sp = (entered im cause c).core.sp)
      (hresult : cause.Leaves (d.core.memory.readWord (frame c)))
      (hfirst : Ran im start stop (.running false (frame c) (frame c)) d e)
      (hsecond : Ran im start stop (.running false (frame c) (frame c))
        (exec (.ldp 21 22 (16 * 16)) e) f) :
      Ran im start stop (.handled cause) c (execAll (restoreRegs ++ [.eret]) f)

/-- The registers and the PSTATE of the running code are as they were. -/
structure Undisturbed (c d : Pe) : Prop where
  x : d.core.x = c.core.x
  sp : d.core.sp = c.core.sp
  pc : d.core.pc = c.core.pc
  spEl0 : d.sys .spEl0 = c.sys .spEl0
  pstate : d.pstate = c.pstate

/-- An exception has returned to the code that it was taken from. -/
structure Returns (stop : ℕ) (cause : Cause) (c d : Pe) : Prop where
  x : d.core.x = cause.result c.core.x
  sp : d.core.sp = c.core.sp
  pc : d.core.pc = cause.returnAddress c.core.pc
  spEl0 : d.sys .spEl0 = c.sys .spEl0
  pstate : d.pstate = c.pstate
  stack : SameOn c.core.memory d.core.memory c.core.sp.toNat (stop - c.core.sp.toNat)
  elr : d.sys .elrEl1 = cause.returnAddress c.core.pc
  spsr : d.sys .spsrEl1 = c.pstate

/-- What is kept of the state that something starts in. -/
def Sound (stop : ℕ) : Code → Pe → Pe → Prop
  | .running compiled limit kept, c, d => limit ≤ kept →
    SameOn c.core.memory d.core.memory kept (stop - kept) ∧ (compiled = false → Undisturbed c d)
  | .handled cause, c, d => Returns stop cause c d

variable {im : Image} {start stop : ℕ} {cause : Cause} {c d e f : Pe}

/-- The registers and the stack pointer that a call does not change. -/
lemma call_spec (im : Image) (cause : Cause) (c : Pe) :
    (execAll (cause.call im) c).core.sp = c.core.sp ∧
      (execAll (cause.call im) c).core.memory = c.core.memory ∧
      (execAll (cause.call im) c).pstate = c.pstate := by
  cases cause <;> exact ⟨rfl, rfl, rfl⟩

/-- What is there to save when the exception has been taken. -/
lemma ofPe_takeException (im : Image) (cause : Cause) (c : Pe) :
    Registers.ofPe (takeException im cause c) = saved cause c := by
  cases cause <;> simp [Registers.ofPe, takeException, saved, Cause.syndrome]

/-- The handler finds the record of the interrupted code at its stack pointer. -/
lemma entered_spec (im : Image) (cause : Cause) (h : Registers.size ≤ c.core.sp.toNat) :
    (entered im cause c).core.sp.toNat = frame c ∧
      (entered im cause c).core.memory =
        Registers.write c.core.memory (frame c) (saved cause c) ∧
      (entered im cause c).pstate = pstateEl1 := by
  obtain ⟨hsp, hmemory, -, hpstate⟩ := saveRegs_spec (c := takeException im cause c) h
  obtain ⟨hsp', hmemory', hpstate'⟩ :=
    call_spec im cause (execAll saveRegs (takeException im cause c))
  rw [entered, execAll_append, hsp', hmemory', hpstate', hsp, hmemory, hpstate,
    ofPe_takeException]
  exact ⟨rfl, rfl, rfl⟩

/-! ### The record -/

lemma sameOn_above {m m' : ByteMemory} {a b : ℕ} (h : SameOn m m' a (stop - a)) (hab : a ≤ b) :
    SameOn m m' b (stop - b) := fun x hx hlt => h x (by omega) (by omega)

/-- What is loaded is what was stored, with the result of a system call in the place of x0. -/
lemma read_kept {m m' : ByteMemory} {a : ℕ} {r : Registers} (hstop : a + Registers.size ≤ stop)
    (hsame : SameOn (Registers.write m a r) m' (cause.kept a) (stop - cause.kept a))
    (hresult : cause.Leaves (m'.readWord a)) :
    Registers.read m' a = { r with x := cause.result r.x } := by
  have hsize : Registers.size = 272 := rfl
  have hkept : cause.kept a ≤ a + 8 := by cases cause <;> simp [Cause.kept]
  have hword : ∀ i, 1 ≤ i → i < 34 →
      m'.readWord (a + 8 * i) = (Registers.write m a r).readWord (a + 8 * i) := by
    intro i hi hlt
    exact (readWord_sameOn hsame (by omega) (by omega)).symm
  have hx : ∀ i : Reg, m'.readWord (a + 8 * i) = cause.result r.x i := by
    intro i
    have hold : (Registers.write m a r).readWord (a + 8 * i) = r.x i := readWord_write (words_x r i)
    by_cases hi : i = 0
    · subst hi
      cases cause with
      | irq =>
        have hsame₀ : (Registers.write m a r).readWord a = m'.readWord a :=
          readWord_sameOn hsame le_rfl (by simp only [Cause.kept]; omega)
        exact hsame₀.symm.trans hold
      | svc _ _ w =>
        have hw : Function.update r.x 0 w 0 = w := Function.update_self ..
        exact hresult.trans hw.symm
    · have hpos : 1 ≤ i.val := Nat.one_le_iff_ne_zero.mpr fun he => hi (Fin.ext he)
      rw [hword i hpos (by have := i.isLt; omega), hold]
      cases cause with
      | irq => rfl
      | svc _ _ w => exact (Function.update_of_ne hi ..).symm
  refine Registers.mk.injEq .. |>.mpr ⟨funext hx, ?_, ?_, ?_⟩
  · exact (hword 31 (by decide) (by decide)).trans (readWord_write rfl)
  · exact (hword 32 (by decide) (by decide)).trans (readWord_write rfl)
  · exact (hword 33 (by decide) (by decide)).trans (readWord_write rfl)

/-- The core after the first instruction of `load_regs`: what it loads is for ELR_EL1 and
SPSR_EL1. -/
lemma firstLoad_spec {a : ℕ} (hsp : c.core.sp.toNat = a) (h : a + Registers.size ≤ 2 ^ 64) :
    (exec (.ldp 21 22 (16 * 16)) c).core.x 21 = (Registers.read c.core.memory a).elrEl1 ∧
      (exec (.ldp 21 22 (16 * 16)) c).core.x 22 = (Registers.read c.core.memory a).spsrEl1 := by
  have haddress : ∀ n < Registers.size, c.address n = a + n := fun n hn => by
    rw [← hsp] at h ⊢
    exact address_of_le h hn
  have hsize : Registers.size = 272 := rfl
  constructor
  · simp [exec, Pe.readWord, haddress, hsize, Registers.read]
  · simp [exec, Pe.readWord, haddress, hsize, Registers.read]

lemma ofPe_eret (c : Pe) : Registers.ofPe (exec .eret c) = .ofPe c := rfl

lemma eret_sp (c : Pe) : (exec .eret c).core.sp = c.core.sp := rfl

lemma eret_memory (c : Pe) : (exec .eret c).core.memory = c.core.memory := rfl

/-- **Returning**: from a record that holds what was saved, the rest of `load_regs` and the `eret`
go back to it. -/
lemma eret_spec {a : ℕ} {r : Registers} (hsp : c.core.sp.toNat = a)
    (hfits : a + Registers.size < 2 ^ 64) (hread : Registers.read c.core.memory a = r)
    (h21 : c.core.x 21 = r.elrEl1) (h22 : c.core.x 22 = r.spsrEl1) :
    Registers.ofPe (execAll (restoreRegs ++ [.eret]) c) = r ∧
      (execAll (restoreRegs ++ [.eret]) c).core.pc = r.elrEl1 ∧
      (execAll (restoreRegs ++ [.eret]) c).pstate = r.spsrEl1 ∧
      (execAll (restoreRegs ++ [.eret]) c).core.sp.toNat = a + Registers.size ∧
      (execAll (restoreRegs ++ [.eret]) c).core.memory = c.core.memory := by
  obtain ⟨hregs, hsp', hmemory⟩ := restoreRegs_spec (c := c) (by rw [hsp]; exact hfits)
  rw [hsp, hread, h21, h22] at hregs
  rw [execAll_append]
  generalize execAll restoreRegs c = d at hregs hsp' hmemory
  rw [execAll_cons, execAll_nil, ofPe_eret, hregs, eret_sp, hsp', hsp, eret_memory, hmemory]
  exact ⟨rfl, congrArg Registers.elrEl1 hregs, congrArg Registers.spsrEl1 hregs, rfl, rfl⟩

/-! ### To any depth -/

lemma Undisturbed.refl (c : Pe) : Undisturbed c c := ⟨rfl, rfl, rfl, rfl, rfl⟩

/-- An IRQ leaves the code that it interrupts as it was. -/
lemma Undisturbed.irq (h : Undisturbed c d) (hr : Returns stop .irq d e) : Undisturbed c e where
  x := hr.x.trans h.x
  sp := hr.sp.trans h.sp
  pc := hr.pc.trans h.pc
  spEl0 := hr.spEl0.trans h.spEl0
  pstate := hr.pstate.trans h.pstate

/-- An exception whose handler has kept to its conventions returns. -/
lemma returns_of_sound (hstart : start + Registers.size ≤ c.core.sp.toNat)
    (hstop : c.core.sp.toNat ≤ stop)
    (hbody : Sound stop (.running true (frame c) (cause.kept (frame c)))
      (entered im cause c) d)
    (hsp : d.core.sp = (entered im cause c).core.sp)
    (hresult : cause.Leaves (d.core.memory.readWord (frame c)))
    (hfirst : Sound stop (.running false (frame c) (frame c)) d e)
    (hsecond : Sound stop (.running false (frame c) (frame c)) (exec (.ldp 21 22 (16 * 16)) e) f) :
    Returns stop cause c (execAll (restoreRegs ++ [.eret]) f) := by
  have hsize : Registers.size = 272 := rfl
  have hlt := c.core.sp.isLt
  have hframe : frame c + Registers.size = c.core.sp.toNat := Nat.sub_add_cancel (by omega)
  obtain ⟨hspE, hmemoryE, -⟩ := entered_spec im cause (c := c) (by omega)
  have hkept : frame c ≤ cause.kept (frame c) := by cases cause <;> simp [Cause.kept]
  obtain ⟨hsame, -⟩ := hbody hkept
  obtain ⟨hsame₁, hundisturbed₁⟩ := hfirst le_rfl
  obtain ⟨hsame₂, hundisturbed₂⟩ := hsecond le_rfl
  have hund₁ := hundisturbed₁ rfl
  have hund₂ := hundisturbed₂ rfl
  have hmemory₂ : (exec (.ldp 21 22 (16 * 16)) e).core.memory = e.core.memory := rfl
  rw [hmemory₂] at hsame₂
  rw [hmemoryE] at hsame
  have hread : ∀ m, SameOn d.core.memory m (frame c) (stop - frame c) →
      Registers.read m (frame c) = { saved cause c with x := cause.result (saved cause c).x } := by
    intro m hm
    refine read_kept (m := c.core.memory) (by omega) (hsame.trans (sameOn_above hm hkept)) ?_
    rwa [← readWord_sameOn hm le_rfl (by omega)]
  have hspe : e.core.sp.toNat = frame c := by rw [hund₁.sp, hsp, hspE]
  have hspf : f.core.sp.toNat = frame c := by
    rw [hund₂.sp]
    exact hspe
  obtain ⟨h21, h22⟩ := firstLoad_spec hspe (by omega)
  rw [← hund₂.x, hread _ hsame₁] at h21 h22
  obtain ⟨hregs, hpc, hpstate, hsp', hmemory⟩ :=
    eret_spec hspf (by omega) (hread _ (hsame₁.trans hsame₂)) h21 h22
  exact
    { x := congrArg Registers.x hregs
      sp := BitVec.eq_of_toNat_eq (hsp'.trans hframe)
      pc := hpc
      spEl0 := congrArg Registers.spEl0 hregs
      pstate := hpstate
      stack := fun x hx hxlt => by
        have hout : Registers.write c.core.memory (frame c) (saved cause c) x = c.core.memory x :=
          writeWords_of_outside (.inr (by rw [words_length]; omega))
        have hall := (hsame.trans (sameOn_above (hsame₁.trans hsame₂) hkept)) x
        rw [hmemory, ← hout]
        have hle : cause.kept (frame c) ≤ frame c + 8 := by cases cause <;> simp [Cause.kept]
        exact hall (by omega) (by omega)
      elr := congrArg Registers.elrEl1 hregs
      spsr := congrArg Registers.spsrEl1 hregs }

lemma Ran.sound {code : Code} (h : Ran im start stop code c d) : Sound stop code c d := by
  induction h with
  | nothing compiled limit kept c => exact fun _ => ⟨SameOn.refl _ _ _, fun _ => .refl c⟩
  | step _ hsame ih =>
    intro hle
    exact ⟨(ih hle).1.trans hsame, fun hfalse => by cases hfalse⟩
  | interrupt _ _ hsp _ ih ihirq =>
    intro hle
    obtain ⟨hsame, hund⟩ := ih hle
    exact ⟨hsame.trans (sameOn_above ihirq.stack (hsp.trans hle)), fun hf => (hund hf).irq ihirq⟩
  | exception hstart hstop _ _ hsp hresult _ _ ihbody ihfirst ihsecond =>
    exact returns_of_sound hstart hstop ihbody hsp hresult ihfirst ihsecond

/-- **Exceptions return**: whatever the handler does within its conventions, whichever tasks run in
the meantime and wherever further IRQs are taken while they are unmasked and `load_regs` has not
written ELR_EL1, and so to any depth, the code that was interrupted goes on where it was, with its
registers, its PSTATE and its stack. After a system call x0 is its result, and nothing else has
changed. -/
theorem exceptions_return (h : Ran im start stop (.handled cause) c d) : Returns stop cause c d :=
  h.sound

/-- An IRQ whose handler returns at once. -/
lemma exists_idle (im : Image) (start stop : ℕ) (hstart : start + Registers.size ≤ c.core.sp.toNat)
    (hstop : c.core.sp.toNat ≤ stop) : ∃ d, Ran im start stop (.handled .irq) c d := by
  let e := (entered im .irq c).setPc ((entered im .irq c).core.x 30)
  have hbody : Ran im start stop (.running true (frame c) (Cause.irq.kept (frame c)))
      (entered im .irq c) e := (Ran.nothing ..).step (SameOn.refl _ _ _)
  exact ⟨_, .exception hstart hstop hbody rfl rfl trivial (.nothing ..) (.nothing ..)⟩

def bootImage : Image := ⟨0x80880, 0x80a00, 0x81000, 0x82000⟩

/-- User code, with its kernel stack ending at 0x3000. -/
def user : Pe := ⟨⟨fun r => BitVec.ofNat 64 (7 * r), 0x3000, 0x400000, fun _ => 0⟩, fun _ => 0, 0⟩

/-- User code is interrupted, and its handler is interrupted once it has enabled interrupts. -/
theorem exceptions_return_user : ∃ d, Ran bootImage 0x2000 0x3000 (.handled .irq) user d ∧
    Returns 0x3000 .irq user d := by
  let c := entered bootImage .irq user
  obtain ⟨hsp, -, -⟩ := entered_spec bootImage .irq (c := user) (by decide)
  have hframe : frame user = 0x2ef0 := by decide
  let unmasked : Pe := { c with pstate := 5 }
  have hmask : unmasked.Unmasked := by
    change (5 : Word).getLsbD 7 = false
    decide
  obtain ⟨d, hd⟩ := exists_idle bootImage 0x2000 0x3000 (c := unmasked)
    (by change _ ≤ c.core.sp.toNat; rw [hsp, hframe]; decide)
    (by change c.core.sp.toNat ≤ _; rw [hsp, hframe]; decide)
  have henabled : Ran bootImage 0x2000 0x3000 (.running true (frame user) (frame user)) c
      unmasked := (Ran.nothing true _ _ c).step (SameOn.refl _ _ _)
  have hbody : Ran bootImage 0x2000 0x3000 (.running true (frame user) (frame user)) c
      (d.setPc (c.core.x 30)) := (henabled.interrupt hmask hsp.le hd).step (SameOn.refl _ _ _)
  have hreturns : Returns 0x3000 .irq unmasked d := hd.sound
  have hran : Ran bootImage 0x2000 0x3000 (.handled .irq) user _ :=
    .exception (by decide) (by decide) hbody rfl hreturns.sp trivial (.nothing ..) (.nothing ..)
  exact ⟨_, hran, exceptions_return hran⟩

/-! ### An IRQ that comes too late -/

/-- The instruction writes ELR_EL1. -/
def Instr.writesElr : Instr → Bool
  | .msr .elrEl1 _ => true
  | _ => false

lemma exec_elr {i : Instr} (h : i.writesElr = false) (c : Pe) :
    (exec i c).sys .elrEl1 = c.sys .elrEl1 := by
  cases i with
  | msr s r =>
    have hs : SysReg.elrEl1 ≠ s := by
      rintro rfl
      cases h
    exact Function.update_of_ne hs ..
  | _ => rfl

lemma execAll_elr {code : List Instr} (h : ∀ i ∈ code, i.writesElr = false) (c : Pe) :
    (execAll code c).sys .elrEl1 = c.sys .elrEl1 := by
  induction code generalizing c with
  | nil => rfl
  | cons i code ih =>
    rw [execAll_cons, ih fun j hj => h j (List.mem_cons_of_mem i hj)]
    exact exec_elr (h i (List.mem_cons_self ..)) c

/-- **The window**: after an IRQ between the write of ELR_EL1 and the `eret`, the `eret` goes to the
instruction of `load_regs` at which the IRQ was taken, whatever code it should return to. -/
theorem window_loses_return {pre post : List Instr} (hsplit : restoreRegs = pre ++ post)
    (hpre : pre ≠ []) (hirq : Ran im start stop (.handled .irq) (execAll pre c) d) :
    (execAll (post ++ [.eret]) d).core.pc = (execAll pre c).core.pc := by
  obtain ⟨i, pre, rfl⟩ := List.exists_cons_of_ne_nil hpre
  have htail : restoreRegs.tail = pre ++ post := by rw [hsplit, List.cons_append, List.tail_cons]
  have hrest : ∀ j ∈ restoreRegs.tail, j.writesElr = false := by decide
  have hpost : ∀ j ∈ post, j.writesElr = false := fun j hj =>
    hrest j (htail ▸ List.mem_append_right pre hj)
  rw [execAll_append, execAll_cons, execAll_nil]
  change (execAll post d).sys .elrEl1 = _
  rw [execAll_elr hpost]
  have hreturns : Returns stop .irq (execAll (i :: pre) c) d := hirq.sound
  exact hreturns.elr

/-- An IRQ after ELR_EL1 and SPSR_EL1 have been written. -/
theorem window_loses_return_user : ∃ d,
    Ran bootImage 0x2000 0x3000 (.handled .irq) (execAll (restoreRegs.take 2) user) d ∧
    (execAll (restoreRegs.drop 2 ++ [.eret]) d).core.pc =
      (execAll (restoreRegs.take 2) user).core.pc := by
  obtain ⟨d, hd⟩ := exists_idle bootImage 0x2000 0x3000
    (c := execAll (restoreRegs.take 2) user) (by decide) (by decide)
  exact ⟨d, hd, window_loses_return (List.take_append_drop 2 restoreRegs).symm (by decide) hd⟩

end Pimento.VectorTable
