import Mathlib.Logic.Relation
import Pimento.Aarch64
import Pimento.KernelMap

/-!
The start of a core, from `_start` to `kernel_init`.

The core starts in EL2 with the MMU off, at the physical address of `_start`. Symbols have virtual
addresses; the image has physical ones. Once the MMU is on, instructions are fetched through the
tables, at first from the low half of the address space.
-/

namespace Pimento.Boot

open Address ByteMemory Aarch64 Armv8 KernelTables KernelMap Relation

inductive SysReg
  | hcrEl2
  | spsrEl2
  | elrEl2
  | sctlrEl1
  | ttbr0El1
  | ttbr1El1
  deriving DecidableEq, Repr

/-- A core with its system registers. The stack pointer is that of EL1. -/
structure Pe where
  core : Core
  sys : SysReg → Word
  el2 : Bool
  pstate : Word
  carry : Bool

inductive Instr
  /-- `ldr r, =v` -/
  | ldr (r : Reg) (v : Word)
  /-- `and r, r, #v` -/
  | and (r : Reg) (v : Word)
  /-- `orr r, r, #v` -/
  | orr (r : Reg) (v : Word)
  /-- `orr r, r, r'` -/
  | orrReg (r r' : Reg)
  /-- `mov r, sp` -/
  | movFromSp (r : Reg)
  /-- `mov sp, r` -/
  | movToSp (r : Reg)
  /-- `stp xzr, xzr, [r], #16` -/
  | stpZero (r : Reg)
  /-- `cmp r, r'` -/
  | cmp (r r' : Reg)
  /-- `blo`, with the distance to its label -/
  | blo (n : Word)
  /-- `mrs r, s` -/
  | mrs (r : Reg) (s : SysReg)
  /-- `msr s, r` -/
  | msr (s : SysReg) (r : Reg)
  | isb
  /-- `adr r`, with the distance to its label -/
  | adr (r : Reg) (n : Word)
  | eret
  /-- `br r` -/
  | br (r : Reg)
  /-- `b`, with the distance to its label -/
  | b (n : Word)
  /-- `bl virtual_memory_early_init`, until it has returned -/
  | earlyInit
  deriving DecidableEq, Repr

/-- Where the linker has put things, by their physical addresses, and what else
`virtual_memory_early_init` does: what it leaves in the registers, and in its stack frame. -/
structure Image where
  start : ℕ
  kernelInit : ℕ
  stackStart : ℕ
  bssStart : ℕ
  bssEnd : ℕ
  tables : ℕ
  clobbered : Reg → Word
  stackWrites : List (ℕ × Byte)

/-- The value of a symbol. -/
def symbol (address : ℕ) : Word := BitVec.ofNat 64 (virtualAddress address)

/-- `VA_START`, for an immediate operand. -/
def vaMask : Word := BitVec.ofNat 64 vaStart

def hcrEl2Rw : Word := 1 <<< 31

def sctlrEl1Init : Word :=
  1 <<< 3 ||| 1 <<< 4 ||| 1 <<< 11 ||| 1 <<< 16 ||| 1 <<< 18 ||| 1 <<< 22 ||| 1 <<< 23

/-- `SPSR_EL2_INIT`: EL1h, with all exceptions masked. -/
def spsrEl2Init : Word := 1 <<< 9 ||| 1 <<< 8 ||| 1 <<< 7 ||| 1 <<< 6 ||| 0b0101

/-- `SCTLR_EL1_C | SCTLR_EL1_I | SCTLR_EL1_M`. -/
def sctlrEl1Mmu : Word := 1 <<< 2 ||| 1 <<< 12 ||| 1

def code (im : Image) : List Instr :=
  [.ldr 9 (symbol im.bssStart),
    .ldr 10 (symbol im.bssEnd),
    .and 9 (~~~vaMask),
    .and 10 (~~~vaMask),
    -- `loop_clear_bss`
    .stpZero 9,
    .cmp 9 10,
    .blo (-8),
    .ldr 9 hcrEl2Rw,
    .mrs 10 .hcrEl2,
    .orrReg 9 10,
    .msr .hcrEl2 9,
    .isb,
    .ldr 9 sctlrEl1Init,
    .msr .sctlrEl1 9,
    .isb,
    .ldr 9 spsrEl2Init,
    .msr .spsrEl2 9,
    .adr 9 12,
    .msr .elrEl2 9,
    .eret,
    -- `enter_el1`
    .ldr 9 (symbol im.stackStart),
    .and 9 (~~~vaMask),
    .movToSp 9,
    .earlyInit,
    .movFromSp 9,
    .orr 9 vaMask,
    .movToSp 9,
    .adr 9 12,
    .orr 9 vaMask,
    .br 9,
    -- `after_relocate`
    .b (BitVec.ofNat 64 im.kernelInit - BitVec.ofNat 64 (im.start + 4 * 30))]

namespace Pe

variable (s : Pe)

def setX (r : Reg) (v : Word) : Pe := { s with core := s.core.setX r v }

def setSys (r : SysReg) (v : Word) : Pe := { s with sys := Function.update s.sys r v }

def next : Pe := { s with core := s.core.next }

def jump (v : Word) : Pe := { s with core := { s.core with pc := v } }

/-- The MMU translates the addresses of this exception level. That of EL2 is off. -/
def mmu : Bool := !s.el2 && (s.sys .sctlrEl1).getLsbD 0

/-- The physical address of the next instruction. The ids in the base registers are 0. -/
def fetchAddress : Option ℕ :=
  if s.mmu then
    let pc := s.core.pc.toNat
    let translation :=
      if pc < vaStart then translate s.core.memory (s.sys .ttbr0El1).toNat pc
      else translateKernel s.core.memory (s.sys .ttbr1El1).toNat pc
    translation.map Translation.outputAddress
  else some s.core.pc.toNat

end Pe

/-- `virtual_memory_early_init`. Its `unwrap` panics if there is an error. -/
def earlyInit (im : Image) (s : Pe) : Option Pe :=
  match createTables im.tables s.core.memory with
  | (.ok tableL0, memory) =>
    some
      { s with
        core :=
          { s.core with
            x := im.clobbered
            pc := s.core.pc + 4
            memory := memory.store im.stackWrites }
        sys := Function.update (Function.update (Function.update s.sys .ttbr0El1
          (BitVec.ofNat 64 tableL0)) .ttbr1El1 (BitVec.ofNat 64 tableL0)) .sctlrEl1
          (s.sys .sctlrEl1 ||| sctlrEl1Mmu) }
  | _ => none

/-- Execute an instruction. -/
def exec (im : Image) (i : Instr) (s : Pe) : Option Pe :=
  match i with
  | .ldr r v => some (s.setX r v).next
  | .and r v => some (s.setX r (s.core.x r &&& v)).next
  | .orr r v => some (s.setX r (s.core.x r ||| v)).next
  | .orrReg r r' => some (s.setX r (s.core.x r ||| s.core.x r')).next
  | .movFromSp r => some (s.setX r s.core.sp).next
  | .movToSp r => some { s with core := { s.core with sp := s.core.x r } }.next
  | .stpZero r =>
    let a := s.core.x r
    some ({ s with
      core := { s.core with
        memory := (s.core.memory.writeWord a.toNat 0).writeWord (a + 8).toNat 0 } }.setX r
        (a + 16)).next
  | .cmp r r' => some { s with carry := decide (s.core.x r' ≤ s.core.x r) }.next
  | .blo n => some (if s.carry then s.next else s.jump (s.core.pc + n))
  | .mrs r sr => some (s.setX r (s.sys sr)).next
  | .msr sr r => some (s.setSys sr (s.core.x r)).next
  | .isb => some s.next
  | .adr r n => some (s.setX r (s.core.pc + n)).next
  | .eret =>
    -- bits 3:2 of SPSR_EL2 are the exception level, and EL1 is AArch64 only where HCR_EL2.RW is set
    let el2 := (s.sys .spsrEl2).extractLsb' 2 2 == 2
    if el2 || (s.sys .hcrEl2).getLsbD 31 then
      some { s.jump (s.sys .elrEl2) with el2, pstate := s.sys .spsrEl2 }
    else none
  | .br r => some (s.jump (s.core.x r))
  | .b n => some (s.jump (s.core.pc + n))
  | .earlyInit => earlyInit im s

/-- Instructions have four bytes. -/
def fetch (im : Image) (s : Pe) : Option Instr := do
  let a ← s.fetchAddress
  if im.start ≤ a ∧ 4 ∣ a - im.start then (code im)[(a - im.start) / 4]? else none

def step (im : Image) (s : Pe) : Option Pe := do exec im (← fetch im s) s

/-- One state leads to the other. -/
def Reaches (im : Image) : Pe → Pe → Prop := ReflTransGen fun s t => step im s = some t

/-- The sections follow each other as in the linker script, and fit into what the tables map as
normal memory. -/
structure Linked (im : Image) : Prop where
  stack : im.stackStart ≤ im.start
  stackWrites : ∀ w ∈ im.stackWrites, w.1 < im.stackStart
  text : im.start + 4 * (code im).length ≤ im.bssStart
  kernelInit : im.kernelInit < im.bssStart
  bss : im.bssStart < im.bssEnd
  bss_aligned : pageSize ∣ im.bssStart
  stop : im.bssEnd ≤ normalLen
  aligned : pageSize ∣ im.tables
  tables_start : im.bssStart ≤ im.tables
  tables_stop : im.tables + pageSize * tableCount ≤ im.bssEnd

/-- The bytes that the loop clears: `stp` stores sixteen at a time. -/
def cleared (im : Image) : ℕ := 16 * ((im.bssEnd - im.bssStart + 15) / 16)

/-- The state in which `kernel_init` begins, if the memory was `m` at the start. -/
structure Ready (im : Image) (m : ByteMemory) (s : Pe) : Prop where
  pc : s.core.pc = symbol im.kernelInit
  fetch : s.fetchAddress = some im.kernelInit
  sp : s.core.sp = symbol im.stackStart
  el1 : s.el2 = false
  /-- EL1h, with all exceptions masked. -/
  pstate : s.pstate = spsrEl2Init
  mmu : s.mmu = true
  tables : ∀ a < 2 ^ 48, translateKernel s.core.memory (s.sys .ttbr1El1).toNat (virtualAddress a) =
    kernelTranslation a
  bss : ∀ a, im.bssStart ≤ a → a < im.bssEnd →
    (a < im.tables ∨ im.tables + pageSize * tableCount ≤ a) → s.core.memory a = 0
  rest : ∀ a, im.stackStart ≤ a → (a < im.bssStart ∨ im.bssStart + cleared im ≤ a) →
    s.core.memory a = m a

variable {im : Image} {s t : Pe} {i : Instr} {a k : ℕ} {m : ByteMemory}

/-! ### The low half -/

/-- The walk takes the same parts of a low address and of the kernel address that is made of it. -/
lemma walkFrom_low (ha : a < 2 ^ 48) {n : ℕ} (hn : n ≤ 3) (table : ℕ) (ap : BitVec 2) :
    walkFrom m a n table ap = walkFrom m (virtualAddress a) n table ap := by
  have hindex : ∀ l ≤ 3, Armv8.index a l = Armv8.index (virtualAddress a) l := fun l hl => by
    rw [index_kernel hl ha, Armv8.index, Nat.shiftRight_eq_div_pow]
    rfl
  have hleaf : ∀ l ≤ 3, ∀ d ap, walkFrom.leaf a l d ap = walkFrom.leaf (virtualAddress a) l d ap :=
    fun l hl d ap => by
      have hoffset : a % 2 ^ offsetBits l = virtualAddress a % 2 ^ offsetBits l := by
        rw [virtualAddress_of_lt ha, vaStart_eq]
        interval_cases l <;> norm_num [offsetBits] <;> omega
      unfold walkFrom.leaf
      rw [hoffset]
  induction n generalizing table ap with
  | zero => rw [walkFrom, walkFrom, hindex 3 le_rfl, hleaf 3 le_rfl]
  | succ n ih =>
    rw [walkFrom, walkFrom, hindex _ (Nat.sub_le _ _)]
    split
    · exact ih (by omega) _ _
    · exact hleaf _ (Nat.sub_le _ _) _ _

/-- The tables map the low half as they map the kernel's. -/
lemma translate_low (hp : Placed im.tables) (hb : Built im.tables m) (ha : a < 2 ^ 48) :
    translate m im.tables a = kernelTranslation a := by
  rw [Armv8.translate, if_pos ha, walkFrom_low ha le_rfl, walk_L0 hp hb ha, kernelTranslation,
    physicalAddress_kernel ha]

lemma translateKernel_built (hp : Placed im.tables) (hb : Built im.tables m) (ha : a < 2 ^ 48) :
    translateKernel m im.tables (virtualAddress a) = kernelTranslation a := by
  rw [translateKernel, if_pos (virtualAddress_lt ha), walk_L0 hp hb ha, kernelTranslation,
    physicalAddress_kernel ha]

/-! ### One instruction after the other -/

lemma fetch_of (h : s.fetchAddress = some (im.start + 4 * k)) : fetch im s = (code im)[k]? := by
  have hk : im.start + 4 * k - im.start = 4 * k := Nat.add_sub_cancel_left _ _
  unfold fetch
  rw [h]
  simp [hk]

lemma step_of (h : s.fetchAddress = some (im.start + 4 * k)) (hi : (code im)[k]? = some i) :
    step im s = exec im i s := by
  rw [step, fetch_of h, hi]
  rfl

/-- The instruction goes on with the next one. -/
def Instr.straight : Instr → Bool
  | blo _ | eret | br _ | b _ | earlyInit => false
  | _ => true

/-- The instruction only changes general registers, the stack pointer or the flags. -/
def Instr.general : Instr → Bool
  | ldr .. | and .. | orr .. | orrReg .. | movFromSp _ | movToSp _ | cmp .. | mrs .. | isb
  | adr .. => true
  | _ => false

lemma straight_exec (hi : i.straight) (h : exec im i s = some t) :
    t.el2 = s.el2 ∧ t.core.pc = s.core.pc + 4 := by
  cases i with
  | blo | eret | br | b | earlyInit => cases hi
  | _ =>
    cases h
    exact ⟨rfl, rfl⟩

/-- What no general instruction changes. -/
def Pe.kept (s : Pe) : (SysReg → Word) × Bool × Word × ByteMemory :=
  (s.sys, s.el2, s.pstate, s.core.memory)

lemma of_kept (h : t.kept = s.kept) :
    t.sys = s.sys ∧ t.el2 = s.el2 ∧ t.pstate = s.pstate ∧ t.core.memory = s.core.memory := by
  simpa [Pe.kept] using h

lemma general_exec (hi : i.general) (h : exec im i s = some t) :
    t.kept = s.kept ∧ t.core.pc = s.core.pc + 4 := by
  cases i with
  | stpZero | msr | blo | eret | br | b | earlyInit => cases hi
  | _ =>
    cases h
    exact ⟨rfl, rfl⟩

/-- A straight piece of the code runs where its instructions are fetched from their addresses. -/
lemma run_block (P : Pe → Prop)
    (hfetch : ∀ s, P s → ∀ a < normalLen, s.core.pc = BitVec.ofNat 64 a →
      s.fetchAddress = some a) {is : List Instr}
    (hsteady : ∀ i ∈ is, ∀ s t, P s → exec im i s = some t → P t ∧ t.core.pc = s.core.pc + 4)
    (hcode : is <+: (code im).drop k) (hlen : im.start + 4 * (k + is.length) ≤ normalLen)
    (hs : P s) (hpc : s.core.pc = BitVec.ofNat 64 (im.start + 4 * k))
    (hrun : is.foldlM (fun s i => exec im i s) s = some t) :
    Reaches im s t ∧ P t ∧ t.core.pc = BitVec.ofNat 64 (im.start + 4 * (k + is.length)) := by
  induction is generalizing s k with
  | nil =>
    obtain rfl := Option.some.inj hrun
    exact ⟨.refl, hs, hpc⟩
  | cons i is ih =>
    rw [List.foldlM_cons] at hrun
    obtain ⟨u, hu, hrun⟩ := Option.bind_eq_some_iff.mp hrun
    obtain ⟨rest, hrest⟩ := hcode
    rw [List.length_cons] at hlen ⊢
    have hget : (code im)[k]? = some i := by
      have hzero : ((code im).drop k)[0]? = some i := by rw [← hrest]; rfl
      rwa [List.getElem?_drop, Nat.add_zero] at hzero
    have hstep : step im s = some u := by
      rw [step_of (hfetch s hs _ (by omega) hpc) hget, hu]
    obtain ⟨hP, hnext⟩ := hsteady i (List.mem_cons_self ..) s u hs hu
    have htail : is <+: (code im).drop (k + 1) := by
      refine ⟨rest, ?_⟩
      rw [← List.tail_drop, ← hrest]
      rfl
    have hpc' : u.core.pc = BitVec.ofNat 64 (im.start + 4 * (k + 1)) := by
      have hsum : im.start + 4 * (k + 1) = im.start + 4 * k + 4 := by omega
      rw [hnext, hpc, hsum]
      exact (BitVec.ofNat_add _ 4).symm
    obtain ⟨hreach, hPt, hpct⟩ := ih (fun j hj => hsteady j (List.mem_cons_of_mem i hj)) htail
      (by omega) hP hpc' hrun
    refine ⟨.head hstep hreach, hPt, ?_⟩
    rw [hpct]
    congr 2
    omega

/-! ### The loop -/

lemma toNat_ofNat {n : ℕ} (h : n ≤ normalLen) : (BitVec.ofNat 64 n).toNat = n :=
  Nat.mod_eq_of_lt (h.trans_lt (by decide))

lemma fetchAddress_off (h : s.mmu = false) (ha : a < normalLen)
    (hpc : s.core.pc = BitVec.ofNat 64 a) : s.fetchAddress = some a := by
  rw [Pe.fetchAddress, h, hpc, toNat_ofNat ha.le]
  rfl

lemma mmu_el2 (h : s.el2 = true) : s.mmu = false := by rw [Pe.mmu, h]; rfl

/-- A straight piece of the code, in EL2. -/
lemma run_el2 {is : List Instr} (his : is.all Instr.straight) (hcode : is <+: (code im).drop k)
    (hlen : im.start + 4 * (k + is.length) ≤ normalLen) (hel : s.el2 = true)
    (hpc : s.core.pc = BitVec.ofNat 64 (im.start + 4 * k))
    (hrun : is.foldlM (fun s i => exec im i s) s = some t) :
    Reaches im s t ∧ t.el2 = true ∧
      t.core.pc = BitVec.ofNat 64 (im.start + 4 * (k + is.length)) := by
  refine run_block (fun s => s.el2 = true)
    (fun s hs a ha hpc => fetchAddress_off (mmu_el2 hs) ha hpc) ?_ hcode hlen hel hpc hrun
  intro i hi s t hs h
  obtain ⟨hel, hpc⟩ := straight_exec (List.all_eq_true.mp his i hi) h
  exact ⟨hel.trans hs, hpc⟩

lemma writeWord_pair (m : ByteMemory) (a : ℕ) :
    (m.writeWord a 0).writeWord (a + 8) 0 = m.clear a 16 := by
  have hzero : ∀ n, (0 : Word).extractLsb' n 8 = 0 := fun n => by simp
  funext x
  unfold writeWord clear
  rw [hzero, hzero]
  split_ifs <;> first | rfl | omega

lemma clear_clear (m : ByteMemory) (a n k : ℕ) :
    (m.clear a n).clear (a + n) k = m.clear a (n + k) := by
  funext x
  unfold clear
  split_ifs <;> first | rfl | omega

section Jump

variable (s : Pe) (v : Word)

@[simp] lemma jump_el2 : (s.jump v).el2 = s.el2 := rfl
@[simp] lemma jump_x : (s.jump v).core.x = s.core.x := rfl
@[simp] lemma jump_memory : (s.jump v).core.memory = s.core.memory := rfl
@[simp] lemma jump_pc : (s.jump v).core.pc = v := rfl
@[simp] lemma jump_sp : (s.jump v).core.sp = s.core.sp := rfl
@[simp] lemma jump_kept : (s.jump v).kept = s.kept := rfl

end Jump

lemma next_eq (s : Pe) : s.next = s.jump (s.core.pc + 4) := rfl

/-- A round of the loop, which goes on while there are bytes of the section left. -/
lemma run_round {e : ℕ} (hel : s.el2 = true) (hpc : s.core.pc = BitVec.ofNat 64 (im.start + 4 * 4))
    (h9 : s.core.x 9 = BitVec.ofNat 64 a) (h10 : s.core.x 10 = BitVec.ofNat 64 e)
    (ha : a + 16 ≤ normalLen) (he : e ≤ normalLen) (hlen : im.start + 4 * 7 ≤ normalLen) :
    ∃ t, Reaches im s t ∧ t.el2 = true ∧ t.core.memory = s.core.memory.clear a 16 ∧
      t.core.x 9 = BitVec.ofNat 64 (a + 16) ∧ t.core.x 10 = BitVec.ofNat 64 e ∧
      t.core.pc = BitVec.ofNat 64 (im.start + 4 * if a + 16 < e then 4 else 7) := by
  obtain ⟨u, hrun, hmemory, hu9, hu10, hcarry⟩ :
      ∃ u, [Instr.stpZero 9, .cmp 9 10].foldlM (fun s i => exec im i s) s = some u ∧
        u.core.memory =
          (s.core.memory.writeWord (s.core.x 9).toNat 0).writeWord (s.core.x 9 + 8).toNat 0 ∧
        u.core.x 9 = s.core.x 9 + 16 ∧ u.core.x 10 = s.core.x 10 ∧
        u.carry = decide (s.core.x 10 ≤ s.core.x 9 + 16) := ⟨_, rfl, rfl, rfl, rfl, rfl⟩
  obtain ⟨hreach, hel', hpc'⟩ := run_el2 (k := 4) rfl ⟨_, rfl⟩
    (by change im.start + 4 * 6 ≤ _; omega) hel hpc hrun
  have hpc' : u.core.pc = BitVec.ofNat 64 (im.start + 4 * 6) := hpc'
  have hadd : ∀ n : ℕ, BitVec.ofNat 64 a + BitVec.ofNat 64 n = BitVec.ofNat 64 (a + n) := fun n =>
    (BitVec.ofNat_add a n).symm
  have hmemory' : u.core.memory = s.core.memory.clear a 16 := by
    have h8 : BitVec.ofNat 64 a + 8 = BitVec.ofNat 64 (a + 8) := hadd 8
    rw [hmemory, h9, h8, toNat_ofNat (by omega), toNat_ofNat (by omega), writeWord_pair]
  have h16 : s.core.x 9 + 16 = BitVec.ofNat 64 (a + 16) := by
    rw [h9]
    exact hadd 16
  have hcarry' : u.carry = decide (¬ a + 16 < e) := by
    rw [hcarry]
    refine decide_eq_decide.mpr ?_
    rw [h16, h10, BitVec.le_def, toNat_ofNat he, toNat_ofNat ha]
    exact Nat.not_lt.symm
  have hstep : step im u =
      some (if u.carry then u.next else u.jump (u.core.pc + -8)) :=
    step_of (k := 6) (fetchAddress_off (mmu_el2 hel') (by omega) hpc') rfl
  by_cases hlt : a + 16 < e
  · have hc : u.carry = false := hcarry'.trans (decide_eq_false (not_not_intro hlt))
    rw [hc, if_neg Bool.false_ne_true] at hstep
    refine ⟨u.jump (u.core.pc + -8), hreach.tail hstep, ?_⟩
    rw [jump_el2, jump_memory, jump_x, jump_pc, if_pos hlt]
    refine ⟨hel', hmemory', hu9.trans h16, hu10.trans h10, ?_⟩
    have hback : im.start + 4 * 6 = im.start + 4 * 4 + 8 := by omega
    rw [hpc', hback, BitVec.ofNat_add, BitVec.add_assoc]
    exact BitVec.add_zero _
  · have hc : u.carry = true := hcarry'.trans (decide_eq_true hlt)
    rw [hc, if_pos rfl, next_eq] at hstep
    refine ⟨u.jump (u.core.pc + 4), hreach.tail hstep, ?_⟩
    rw [jump_el2, jump_memory, jump_x, jump_pc, if_neg hlt, hpc']
    exact ⟨hel', hmemory', hu9.trans h16, hu10.trans h10, (BitVec.ofNat_add _ 4).symm⟩

/-- **The loop** clears sixteen bytes at a time until it has come to the end of the section. -/
lemma run_loop (n : ℕ) {e : ℕ} (hel : s.el2 = true)
    (hpc : s.core.pc = BitVec.ofNat 64 (im.start + 4 * 4)) (h9 : s.core.x 9 = BitVec.ofNat 64 a)
    (h10 : s.core.x 10 = BitVec.ofNat 64 e) (hlow : a + 16 * n < e) (hhigh : e ≤ a + 16 * (n + 1))
    (hfit : a + 16 * (n + 1) ≤ normalLen) (hlen : im.start + 4 * 7 ≤ normalLen) :
    ∃ t, Reaches im s t ∧ t.el2 = true ∧ t.core.pc = BitVec.ofNat 64 (im.start + 4 * 7) ∧
      t.core.memory = s.core.memory.clear a (16 * (n + 1)) := by
  induction n generalizing s a with
  | zero =>
    obtain ⟨t, hreach, helt, hmemory, -, -, hpct⟩ := run_round hel hpc h9 h10 (by omega)
      (by omega) hlen
    rw [if_neg (by omega)] at hpct
    exact ⟨t, hreach, helt, hpct, hmemory⟩
  | succ n ih =>
    obtain ⟨u, hreach, helu, hmemory, hu9, hu10, hpcu⟩ := run_round hel hpc h9 h10 (by omega)
      (by omega) hlen
    rw [if_pos (by omega)] at hpcu
    obtain ⟨t, hreach', helt, hpct, hmemory'⟩ := ih helu hpcu hu9 hu10 (by omega) (by omega)
      (by omega)
    refine ⟨t, hreach.trans hreach', helt, hpct, ?_⟩
    rw [hmemory', hmemory, clear_clear]
    congr 1
    omega

/-! ### Symbols and addresses -/

lemma symbol_toNat (ha : a < 2 ^ 48) : (symbol a).toNat = virtualAddress a :=
  Nat.mod_eq_of_lt (virtualAddress_lt ha).2

/-- `and` takes the physical address of a symbol. -/
lemma symbol_and (ha : a < 2 ^ 48) : symbol a &&& ~~~vaMask = BitVec.ofNat 64 a := by
  have hmask : (~~~vaMask).toNat = 2 ^ 48 - 1 := by decide
  refine BitVec.eq_of_toNat_eq ?_
  rw [BitVec.toNat_and, symbol_toNat ha, hmask, Nat.and_two_pow_sub_one_eq_mod,
    virtualAddress_of_lt ha, vaStart_eq, BitVec.toNat_ofNat]
  omega

/-- `orr` makes it the symbol again. -/
lemma symbol_or (ha : a < 2 ^ 48) : BitVec.ofNat 64 a ||| vaMask = symbol a := by
  have hmask : vaMask.toNat = vaStart := by decide
  refine BitVec.eq_of_toNat_eq ?_
  rw [BitVec.toNat_or, hmask, symbol_toNat ha, BitVec.toNat_ofNat,
    Nat.mod_eq_of_lt (ha.trans (by decide)), virtualAddress]

/-- A jump goes as far in the high half as in the low half. -/
lemma symbol_add {b : ℕ} (ha : a < 2 ^ 48) (hb : b < 2 ^ 48) :
    symbol a + (BitVec.ofNat 64 b - BitVec.ofNat 64 a) = symbol b := by
  have hsymbol : ∀ n < 2 ^ 48, symbol n = BitVec.ofNat 64 vaStart + BitVec.ofNat 64 n :=
    fun n hn => by rw [symbol, virtualAddress_of_lt hn, BitVec.ofNat_add]
  rw [hsymbol a ha, hsymbol b hb, BitVec.add_assoc, BitVec.add_comm (BitVec.ofNat 64 a),
    BitVec.sub_add_cancel]

/-! ### With the MMU on -/

/-- The tables translate the addresses that instructions are fetched from. -/
structure Mapped (im : Image) (s : Pe) : Prop where
  mmu : s.mmu = true
  ttbr0 : s.sys .ttbr0El1 = BitVec.ofNat 64 im.tables
  ttbr1 : s.sys .ttbr1El1 = BitVec.ofNat 64 im.tables
  built : Built im.tables s.core.memory

/-- The sections in numbers: the code has 31 instructions. -/
lemma Linked.bounds (h : Linked im) :
    normalLen = 6291456 ∧ im.stackStart ≤ im.start ∧ im.start + 4 * 31 ≤ im.bssStart ∧
      im.bssStart < im.bssEnd ∧ im.bssEnd ≤ normalLen :=
  ⟨rfl, h.stack, h.text, h.bss, h.stop⟩

lemma Linked.placed (h : Linked im) : Placed im.tables := by
  have hle := h.tables_stop.trans h.stop
  exact ⟨h.aligned, hle.trans (by decide)⟩

lemma Linked.tables_toNat (h : Linked im) : (BitVec.ofNat 64 im.tables).toNat = im.tables := by
  have hle := h.tables_stop.trans h.stop
  exact toNat_ofNat (by omega)

lemma translation_of_lt (ha : a < normalLen) :
    (kernelTranslation a).map Translation.outputAddress = some a := by
  have hnl : normalLen = 6291456 := rfl
  have hml : mappedLen = 549755813888 := rfl
  rw [kernelTranslation, if_pos (by omega), physicalAddress_kernel (by omega)]
  rfl

lemma fetchAddress_low (h : Linked im) (hs : Mapped im s) (ha : a < normalLen)
    (hpc : s.core.pc = BitVec.ofNat 64 a) : s.fetchAddress = some a := by
  have hlt : a < 2 ^ 48 := ha.trans (by decide)
  have hva : vaStart = 2 ^ 64 - 2 ^ 48 := by decide
  rw [Pe.fetchAddress, hs.mmu, hpc, toNat_ofNat ha.le]
  dsimp only
  rw [if_pos rfl, if_pos (by omega), hs.ttbr0, h.tables_toNat,
    translate_low h.placed hs.built hlt, translation_of_lt ha]

lemma fetchAddress_high (h : Linked im) (hs : Mapped im s) (ha : a < normalLen)
    (hpc : s.core.pc = symbol a) : s.fetchAddress = some a := by
  have hlt : a < 2 ^ 48 := ha.trans (by decide)
  rw [Pe.fetchAddress, hs.mmu, hpc, symbol_toNat hlt]
  dsimp only
  rw [if_pos rfl, if_neg (Nat.not_lt.mpr (virtualAddress_lt hlt).1), hs.ttbr1, h.tables_toNat,
    translateKernel_built h.placed hs.built hlt, translation_of_lt ha]

/-- A piece of the code that only works on registers, in EL1. -/
lemma run_el1 {is : List Instr} (his : is.all Instr.general)
    (hfetch : ∀ u : Pe, u.kept = s.kept → ∀ a < normalLen, u.core.pc = BitVec.ofNat 64 a →
      u.fetchAddress = some a)
    (hcode : is <+: (code im).drop k) (hlen : im.start + 4 * (k + is.length) ≤ normalLen)
    (hpc : s.core.pc = BitVec.ofNat 64 (im.start + 4 * k))
    (hrun : is.foldlM (fun s i => exec im i s) s = some t) :
    Reaches im s t ∧ t.kept = s.kept ∧
      t.core.pc = BitVec.ofNat 64 (im.start + 4 * (k + is.length)) := by
  refine run_block (fun u => u.kept = s.kept) hfetch ?_ hcode hlen rfl hpc hrun
  intro i hi u v hu h
  obtain ⟨hrest, hpc⟩ := general_exec (List.all_eq_true.mp his i hi) h
  exact ⟨hrest.trans hu, hpc⟩

/-! ### From one part of the code to the next -/

/-- What `cleared` comes to. -/
lemma Linked.cleared_eq (h : Linked im) :
    ∃ n, cleared im = 16 * (n + 1) ∧ im.bssStart + 16 * n < im.bssEnd ∧
      im.bssEnd ≤ im.bssStart + 16 * (n + 1) ∧ im.bssStart + 16 * (n + 1) ≤ normalLen := by
  obtain ⟨hnl, -, -, hbss, hstop⟩ := h.bounds
  have hcleared : cleared im = 16 * ((im.bssEnd - im.bssStart + 15) / 16) := rfl
  have haligned : 16 ∣ im.bssStart := (by decide : 16 ∣ pageSize).trans h.bss_aligned
  refine ⟨(im.bssEnd - im.bssStart + 15) / 16 - 1, ?_, ?_, ?_, ?_⟩ <;> omega

/-- `_start`, until the section is clear. -/
lemma run_start (h : Linked im) (hel : s.el2 = true) (hpc : s.core.pc = BitVec.ofNat 64 im.start) :
    ∃ t, Reaches im s t ∧ t.el2 = true ∧ t.core.pc = BitVec.ofNat 64 (im.start + 4 * 7) ∧
      t.core.memory = s.core.memory.clear im.bssStart (cleared im) := by
  obtain ⟨hnl, -, htext, hbss, hstop⟩ := h.bounds
  obtain ⟨u, hrun, hmemory, hu9, hu10⟩ :
      ∃ u, [Instr.ldr 9 (symbol im.bssStart), .ldr 10 (symbol im.bssEnd), .and 9 (~~~vaMask),
          .and 10 (~~~vaMask)].foldlM (fun s i => exec im i s) s = some u ∧
        u.core.memory = s.core.memory ∧ u.core.x 9 = symbol im.bssStart &&& ~~~vaMask ∧
        u.core.x 10 = symbol im.bssEnd &&& ~~~vaMask := ⟨_, rfl, rfl, rfl, rfl⟩
  rw [symbol_and (by omega)] at hu9 hu10
  obtain ⟨hreach, helu, hpcu⟩ := run_el2 (k := 0) rfl ⟨_, rfl⟩
    (by change im.start + 4 * 4 ≤ _; omega) hel hpc hrun
  obtain ⟨n, hn, hlow, hhigh, hfit⟩ := h.cleared_eq
  obtain ⟨t, hreach', helt, hpct, hmemoryt⟩ := run_loop n helu hpcu hu9 hu10 hlow hhigh hfit
    (by omega)
  exact ⟨t, hreach.trans hreach', helt, hpct, by rw [hmemoryt, hmemory, hn]⟩

/-- From there to `enter_el1`. -/
lemma run_eret (h : Linked im) (hel : s.el2 = true)
    (hpc : s.core.pc = BitVec.ofNat 64 (im.start + 4 * 7)) :
    ∃ t, Reaches im s t ∧ t.el2 = false ∧ t.core.pc = BitVec.ofNat 64 (im.start + 4 * 20) ∧
      t.core.memory = s.core.memory ∧ t.pstate = spsrEl2Init ∧
      t.sys .sctlrEl1 = sctlrEl1Init := by
  obtain ⟨hnl, -, htext, hbss, hstop⟩ := h.bounds
  obtain ⟨u, hrun, hmemory, hspsr, helr, hsctlr, hhcr⟩ :
      ∃ u, [Instr.ldr 9 hcrEl2Rw, .mrs 10 .hcrEl2, .orrReg 9 10, .msr .hcrEl2 9, .isb,
          .ldr 9 sctlrEl1Init, .msr .sctlrEl1 9, .isb, .ldr 9 spsrEl2Init, .msr .spsrEl2 9,
          .adr 9 12, .msr .elrEl2 9].foldlM (fun s i => exec im i s) s = some u ∧
        u.core.memory = s.core.memory ∧ u.sys .spsrEl2 = spsrEl2Init ∧
        u.sys .elrEl2 = s.core.pc + 4 + 4 + 4 + 4 + 4 + 4 + 4 + 4 + 4 + 4 + 12 ∧
        u.sys .sctlrEl1 = sctlrEl1Init ∧ u.sys .hcrEl2 = hcrEl2Rw ||| s.sys .hcrEl2 :=
    ⟨_, rfl, rfl, rfl, rfl, rfl, rfl⟩
  obtain ⟨hreach, helu, hpcu⟩ := run_el2 (k := 7) rfl ⟨_, rfl⟩
    (by change im.start + 4 * 19 ≤ _; omega) hel hpc hrun
  have hrw : (u.sys .hcrEl2).getLsbD 31 = true := by
    have hbit : hcrEl2Rw.getLsbD 31 = true := by decide
    rw [hhcr, BitVec.getLsbD_or, hbit, Bool.true_or]
  have hstep : step im u = some
      { u.jump (u.sys .elrEl2) with
        el2 := (u.sys .spsrEl2).extractLsb' 2 2 == 2
        pstate := u.sys .spsrEl2 } := by
    rw [step_of (k := 19) (fetchAddress_off (mmu_el2 helu) (by omega) hpcu) rfl, exec]
    exact if_pos (by rw [hrw, Bool.or_true])
  refine ⟨_, hreach.tail hstep, ?_⟩
  dsimp only [Pe.jump]
  refine ⟨by rw [hspsr]; decide, ?_, hmemory, hspsr, hsctlr⟩
  have hlabel : im.start + 4 * 20 = im.start + 4 * 7 + 52 := by omega
  rw [helr, hpc, hlabel]
  simp only [BitVec.add_assoc]
  exact (BitVec.ofNat_add (im.start + 4 * 7) 52).symm

lemma mmu_congr {u : Pe} (h : u.kept = s.kept) : u.mmu = s.mmu := by
  obtain ⟨hsys, hel, -, -⟩ := of_kept h
  rw [Pe.mmu, Pe.mmu, hsys, hel]

lemma Mapped.congr {u : Pe} (hm : Mapped im s) (h : u.kept = s.kept) : Mapped im u := by
  obtain ⟨hsys, -, -, hmemory⟩ := of_kept h
  refine ⟨(mmu_congr h).trans hm.mmu, ?_, ?_, ?_⟩
  · rw [hsys, hm.ttbr0]
  · rw [hsys, hm.ttbr1]
  · rw [hmemory]
    exact hm.built

/-- The initial stack pointer. -/
lemma run_stack (h : Linked im) (hoff : s.mmu = false)
    (hpc : s.core.pc = BitVec.ofNat 64 (im.start + 4 * 20)) :
    ∃ t, Reaches im s t ∧ t.kept = s.kept ∧ t.core.pc = BitVec.ofNat 64 (im.start + 4 * 23) ∧
      t.core.sp = BitVec.ofNat 64 im.stackStart := by
  obtain ⟨hnl, hstack, htext, hbss, hstop⟩ := h.bounds
  obtain ⟨u, hrun, hsp⟩ :
      ∃ u, [Instr.ldr 9 (symbol im.stackStart), .and 9 (~~~vaMask), .movToSp 9].foldlM
          (fun s i => exec im i s) s = some u ∧
        u.core.sp = symbol im.stackStart &&& ~~~vaMask := ⟨_, rfl, rfl⟩
  rw [symbol_and (by omega)] at hsp
  obtain ⟨hreach, hrest, hpcu⟩ := run_el1 (k := 20) rfl
    (fun v hv a ha hpc => fetchAddress_off ((mmu_congr hv).trans hoff) ha hpc) ⟨_, rfl⟩
    (by change im.start + 4 * 23 ≤ _; omega) hpc hrun
  exact ⟨u, hreach, hrest, hpcu, hsp⟩

/-- `virtual_memory_early_init` turns the MMU on, and leaves all but its stack frame and the tables
alone. -/
lemma earlyInit_spec (h : Linked im) (hel : s.el2 = false)
    (hsctlr : s.sys .sctlrEl1 = sctlrEl1Init)
    (hclear : ∀ x, im.tables ≤ x → x < im.tables + pageSize * tableCount → s.core.memory x = 0) :
    ∃ t, earlyInit im s = some t ∧ Mapped im t ∧ t.el2 = false ∧ t.pstate = s.pstate ∧
      t.core.sp = s.core.sp ∧ t.core.pc = s.core.pc + 4 ∧
      ∀ b, im.stackStart ≤ b → (b < im.tables ∨ im.tables + pageSize * tableCount ≤ b) →
        t.core.memory b = s.core.memory b := by
  obtain ⟨-, hstack, htext, -, -⟩ := h.bounds
  have htables := h.tables_start
  obtain ⟨m', hok, hb⟩ := createTables_spec h.placed hclear
  -- the stack frame lies below the sections
  have hstore : ∀ b, im.stackStart ≤ b → m'.store im.stackWrites b = m' b := fun b hle =>
    store_of_outside fun w hw he => by
      have hlt := h.stackWrites w hw
      omega
  unfold earlyInit
  rw [hok]
  refine ⟨_, rfl, ⟨?_, rfl, rfl, fun t i ht hi => ?_⟩, hel, rfl, rfl, rfl, fun b hle hout => ?_⟩
  · change (!s.el2 && (s.sys .sctlrEl1 ||| sctlrEl1Mmu).getLsbD 0) = true
    rw [hel, hsctlr]
    decide
  · rw [← hb t i ht hi]
    exact readWord_congr fun j _ => hstore _ (by unfold cell tableAddress; omega)
  · have hkept := keeps_createTables h.placed hout s.core.memory rfl
    rw [hok] at hkept
    exact (hstore b hle).trans hkept

/-- The call of `virtual_memory_early_init`. -/
lemma run_earlyInit (h : Linked im) (hel : s.el2 = false)
    (hsctlr : s.sys .sctlrEl1 = sctlrEl1Init) (hoff : s.mmu = false)
    (hpc : s.core.pc = BitVec.ofNat 64 (im.start + 4 * 23))
    (hclear : ∀ x, im.tables ≤ x → x < im.tables + pageSize * tableCount → s.core.memory x = 0) :
    ∃ t, Reaches im s t ∧ Mapped im t ∧ t.el2 = false ∧ t.pstate = s.pstate ∧
      t.core.sp = s.core.sp ∧ t.core.pc = BitVec.ofNat 64 (im.start + 4 * 24) ∧
      ∀ b, im.stackStart ≤ b → (b < im.tables ∨ im.tables + pageSize * tableCount ≤ b) →
        t.core.memory b = s.core.memory b := by
  obtain ⟨hnl, -, htext, hbss, hstop⟩ := h.bounds
  obtain ⟨t, ht, hm, helt, hpstate, hsp, hpct, hsame⟩ := earlyInit_spec h hel hsctlr hclear
  have hstep : step im s = some t :=
    (step_of (k := 23) (fetchAddress_off hoff (by omega) hpc) rfl).trans ht
  refine ⟨t, .single hstep, hm, helt, hpstate, hsp, ?_, hsame⟩
  rw [hpct, hpc]
  exact (BitVec.ofNat_add _ 4).symm

/-- The stack pointer and the program counter move to the high half. -/
lemma run_relocate (h : Linked im) (hm : Mapped im s)
    (hpc : s.core.pc = BitVec.ofNat 64 (im.start + 4 * 24))
    (hsp : s.core.sp = BitVec.ofNat 64 im.stackStart) :
    ∃ t, Reaches im s t ∧ t.kept = s.kept ∧ t.core.pc = symbol im.kernelInit ∧
      t.core.sp = symbol im.stackStart := by
  obtain ⟨hnl, hstack, htext, hbss, hstop⟩ := h.bounds
  have hinit := h.kernelInit
  obtain ⟨u, hrun, hspu, hu9⟩ :
      ∃ u, [Instr.movFromSp 9, .orr 9 vaMask, .movToSp 9, .adr 9 12, .orr 9 vaMask].foldlM
          (fun s i => exec im i s) s = some u ∧
        u.core.sp = s.core.sp ||| vaMask ∧
        u.core.x 9 = s.core.pc + 4 + 4 + 4 + 12 ||| vaMask := ⟨_, rfl, rfl, rfl⟩
  obtain ⟨hreach, hrest, hpcu⟩ := run_el1 (k := 24) rfl
    (fun v hv a ha hpc => fetchAddress_low h (hm.congr hv) ha hpc) ⟨_, rfl⟩
    (by change im.start + 4 * 29 ≤ _; omega) hpc hrun
  have hlabel : s.core.pc + 4 + 4 + 4 + 12 = BitVec.ofNat 64 (im.start + 4 * 30) := by
    have hsum : im.start + 4 * 30 = im.start + 4 * 24 + 24 := by omega
    rw [hpc, hsum]
    simp only [BitVec.add_assoc]
    exact (BitVec.ofNat_add (im.start + 4 * 24) 24).symm
  rw [hlabel, symbol_or (by omega)] at hu9
  rw [hsp, symbol_or (by omega)] at hspu
  have hbr : step im u = some (u.jump (u.core.x 9)) :=
    step_of (k := 29) (fetchAddress_low h (hm.congr hrest) (by omega) hpcu) rfl
  rw [hu9] at hbr
  let v := u.jump (symbol (im.start + 4 * 30))
  have hv : v.kept = s.kept := (jump_kept ..).trans hrest
  have hb : step im v = some (v.jump (v.core.pc +
      (BitVec.ofNat 64 im.kernelInit - BitVec.ofNat 64 (im.start + 4 * 30)))) :=
    step_of (k := 30) (fetchAddress_high h (hm.congr hv) (by omega) (jump_pc ..)) rfl
  rw [jump_pc, symbol_add (by omega) (by omega)] at hb
  refine ⟨v.jump (symbol im.kernelInit), (hreach.tail hbr).tail hb, ?_, jump_pc .., ?_⟩
  · rw [jump_kept, hv]
  · rw [jump_sp, jump_sp, hspu]

/-! ### The whole way -/

/-- **The start**: wherever the linker has put the sections, the core comes from `_start` to
`kernel_init` in the high half, in EL1 with exceptions masked, on the initial stack and with the
MMU on. The tables map the kernel, whose zero-initialized data are zero, and everything else is as
it has been loaded. -/
theorem start_kernel_init (h : Linked im) (hel : s.el2 = true)
    (hpc : s.core.pc = BitVec.ofNat 64 im.start) :
    ∃ t, Reaches im s t ∧ Ready im s.core.memory t := by
  obtain ⟨hnl, hstack, htext, hbss, hstop⟩ := h.bounds
  have hinit := h.kernelInit
  have htables := h.tables_start
  obtain ⟨n, hn, -, hcleared, -⟩ := h.cleared_eq
  have hend := h.tables_stop
  obtain ⟨s₁, hreach₁, hel₁, hpc₁, hmemory₁⟩ := run_start h hel hpc
  obtain ⟨s₂, hreach₂, hel₂, hpc₂, hmemory₂, hpstate₂, hsctlr₂⟩ := run_eret h hel₁ hpc₁
  have hoff₂ : s₂.mmu = false := by
    rw [Pe.mmu, hel₂, hsctlr₂]
    decide
  obtain ⟨s₃, hreach₃, hrest₃, hpc₃, hsp₃⟩ := run_stack h hoff₂ hpc₂
  obtain ⟨hsys₃, hel₃, hpstate₃, hmemory₃⟩ := of_kept hrest₃
  have hclear : s₃.core.memory = s.core.memory.clear im.bssStart (cleared im) := by
    rw [hmemory₃, hmemory₂, hmemory₁]
  obtain ⟨s₄, hreach₄, hmapped, hel₄, hpstate₄, hsp₄, hpc₄, hsame⟩ := run_earlyInit h
    (hel₃.trans hel₂) (by rw [hsys₃, hsctlr₂]) ((mmu_congr hrest₃).trans hoff₂) hpc₃
    fun x hle hlt => by
      rw [hclear]
      exact clear_of_inside (by omega) (by omega)
  obtain ⟨t, hreach, hrest, hpct, hspt⟩ := run_relocate h hmapped hpc₄ (hsp₄.trans hsp₃)
  have hmapped' := hmapped.congr hrest
  obtain ⟨-, helt, hpstatet, hmemoryt⟩ := of_kept hrest
  refine ⟨t, ((((hreach₁.trans hreach₂).trans hreach₃).trans hreach₄).trans hreach), ?_⟩
  exact
    { pc := hpct
      fetch := fetchAddress_high h hmapped' (by omega) hpct
      sp := hspt
      el1 := helt.trans hel₄
      pstate := by rw [hpstatet, hpstate₄, hpstate₃, hpstate₂]
      mmu := hmapped'.mmu
      tables := fun a ha => by
        rw [hmapped'.ttbr1, h.tables_toNat]
        exact translateKernel_built h.placed hmapped'.built ha
      bss := fun a hle hlt hout => by
        rw [hmemoryt, hsame a (by omega) hout, hclear]
        exact clear_of_inside hle (by omega)
      rest := fun a hle hout => by
        rw [hmemoryt, hsame a hle (by omega), hclear]
        exact clear_of_outside (by omega) }

/-- An image whose section ends in the middle of sixteen bytes. -/
def smallImage : Image where
  start := 0x80000
  kernelInit := 0x81000
  stackStart := 0x80000
  bssStart := 0x90000
  bssEnd := 0x97008
  tables := 0x91000
  clobbered := fun _ => 7
  stackWrites := [(0x7fff8, 1)]

theorem start_kernel_init_small :
    ∃ t, Reaches smallImage ⟨⟨fun _ => 5, 0, 0x80000, fun _ => 3⟩, fun _ => 0, true, 0, false⟩ t ∧
      Ready smallImage (fun _ => 3) t := by
  have hlinked : Linked smallImage :=
    { stack := by decide
      stackWrites := by decide
      text := by decide
      kernelInit := by decide
      bss := by decide
      bss_aligned := by decide
      stop := by decide
      aligned := by decide
      tables_start := by decide
      tables_stop := by decide }
  exact start_kernel_init hlinked rfl rfl

end Pimento.Boot
