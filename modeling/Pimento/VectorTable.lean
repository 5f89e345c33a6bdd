import Pimento.Aarch64

/-!
The entries of the vector table in assembly, and the record they keep the registers of the
interrupted code in.

`save_regs` stores 34 words below the stack pointer, in the order of the fields of `Registers`, and
`load_regs` loads them from there. The loads may come long after the stores.
-/

namespace Pimento.VectorTable

open ByteMemory Aarch64

/-- The system registers that the entries use. -/
inductive SysReg
  | spEl0
  | elrEl1
  | spsrEl1
  | esrEl1
  | farEl1
  deriving DecidableEq, Repr

/-- A core with its system registers and its PSTATE. The stack pointer is that of EL1. -/
structure Pe where
  core : Core
  sys : SysReg → Word
  pstate : Word

/-- The instructions of the entries and of `enter_el0`. Stores and loads have the stack pointer as
their base. -/
inductive Instr
  /-- `sub sp, sp, #n` -/
  | subSp (n : ℕ)
  /-- `add sp, sp, #n` -/
  | addSp (n : ℕ)
  /-- `stp r, r', [sp, #n]` -/
  | stp (r r' : Reg) (n : ℕ)
  /-- `ldp r, r', [sp, #n]` -/
  | ldp (r r' : Reg) (n : ℕ)
  /-- `mov r, sp` -/
  | movFromSp (r : Reg)
  /-- `mrs r, s` -/
  | mrs (r : Reg) (s : SysReg)
  /-- `msr s, r` -/
  | msr (s : SysReg) (r : Reg)
  /-- `mov r, #v` -/
  | movImm (r : Reg) (v : Word)
  /-- `adr r, a` -/
  | adr (r : Reg) (a : Word)
  /-- `bl a` -/
  | bl (a : Word)
  | eret
  deriving DecidableEq, Repr

namespace Pe

variable (c : Pe)

/-- The address `[sp, #n]`. -/
def address (n : ℕ) : ℕ := (c.core.sp + BitVec.ofNat 64 n).toNat

def setX (r : Reg) (v : Word) : Pe := { c with core := c.core.setX r v }

def setSp (v : Word) : Pe := { c with core := { c.core with sp := v } }

def setSys (s : SysReg) (v : Word) : Pe := { c with sys := Function.update c.sys s v }

def setMemory (m : ByteMemory) : Pe := { c with core := { c.core with memory := m } }

def setPc (v : Word) : Pe := { c with core := { c.core with pc := v } }

def next : Pe := c.setPc (c.core.pc + 4)

def readWord (n : ℕ) : Word := c.core.memory.readWord (c.address n)

end Pe

/-- Execute an instruction. -/
def exec (i : Instr) (c : Pe) : Pe :=
  match i with
  | .subSp n => (c.setSp (c.core.sp - BitVec.ofNat 64 n)).next
  | .addSp n => (c.setSp (c.core.sp + BitVec.ofNat 64 n)).next
  | .stp r r' n =>
    (c.setMemory ((c.core.memory.writeWord (c.address n) (c.core.x r)).writeWord
      (c.address (n + 8)) (c.core.x r'))).next
  | .ldp r r' n => ((c.setX r (c.readWord n)).setX r' (c.readWord (n + 8))).next
  | .movFromSp r => (c.setX r c.core.sp).next
  | .mrs r s => (c.setX r (c.sys s)).next
  | .msr s r => (c.setSys s (c.core.x r)).next
  | .movImm r v => (c.setX r v).next
  | .adr r a => (c.setX r a).next
  | .bl a => (c.setX 30 (c.core.pc + 4)).setPc a
  | .eret => { c.setPc (c.sys .elrEl1) with pstate := c.sys .spsrEl1 }

/-- Execute instructions one after the other. -/
def execAll (code : List Instr) (c : Pe) : Pe := code.foldl (fun c i => exec i c) c

/-- The registers to save when entering the vector table: x0 to x28, `fp` and `lr`, and the system
registers. -/
structure Registers where
  x : Reg → Word
  spEl0 : Word
  elrEl1 : Word
  spsrEl1 : Word

namespace Registers

/-- `TASK_REGS_SIZE`. -/
def size : ℕ := 34 * 8

/-- The words of the record in memory. -/
def words (r : Registers) : List Word :=
  (List.finRange 31).map r.x ++ [r.spEl0, r.elrEl1, r.spsrEl1]

def write (m : ByteMemory) (a : ℕ) (r : Registers) : ByteMemory := m.writeWords a r.words

def read (m : ByteMemory) (a : ℕ) : Registers where
  x := fun r => m.readWord (a + 8 * r)
  spEl0 := m.readWord (a + 8 * 31)
  elrEl1 := m.readWord (a + 8 * 32)
  spsrEl1 := m.readWord (a + 8 * 33)

def ofPe (c : Pe) : Registers := ⟨c.core.x, c.sys .spEl0, c.sys .elrEl1, c.sys .spsrEl1⟩

end Registers

def saveRegs : List Instr :=
  [.subSp Registers.size,
    .stp 0 1 (16 * 0),
    .stp 2 3 (16 * 1),
    .stp 4 5 (16 * 2),
    .stp 6 7 (16 * 3),
    .stp 8 9 (16 * 4),
    .stp 10 11 (16 * 5),
    .stp 12 13 (16 * 6),
    .stp 14 15 (16 * 7),
    .stp 16 17 (16 * 8),
    .stp 18 19 (16 * 9),
    .stp 20 21 (16 * 10),
    .stp 22 23 (16 * 11),
    .stp 24 25 (16 * 12),
    .stp 26 27 (16 * 13),
    .stp 28 29 (16 * 14),
    .mrs 21 .spEl0,
    .stp 30 21 (16 * 15),
    .mrs 21 .elrEl1,
    .mrs 22 .spsrEl1,
    .stp 21 22 (16 * 16)]

def loadRegs : List Instr :=
  [.ldp 21 22 (16 * 16),
    .msr .elrEl1 21,
    .msr .spsrEl1 22,
    .ldp 30 21 (16 * 15),
    .msr .spEl0 21,
    .ldp 0 1 (16 * 0),
    .ldp 2 3 (16 * 1),
    .ldp 4 5 (16 * 2),
    .ldp 6 7 (16 * 3),
    .ldp 8 9 (16 * 4),
    .ldp 10 11 (16 * 5),
    .ldp 12 13 (16 * 6),
    .ldp 14 15 (16 * 7),
    .ldp 16 17 (16 * 8),
    .ldp 18 19 (16 * 9),
    .ldp 20 21 (16 * 10),
    .ldp 22 23 (16 * 11),
    .ldp 24 25 (16 * 12),
    .ldp 26 27 (16 * 13),
    .ldp 28 29 (16 * 14),
    .addSp Registers.size]

variable {c d : Pe} {m m' : ByteMemory} {a n k : ℕ} {r : Registers}

@[simp] lemma execAll_nil (c : Pe) : execAll [] c = c := rfl

@[simp] lemma execAll_cons (i : Instr) (code : List Instr) (c : Pe) :
    execAll (i :: code) c = execAll code (exec i c) := rfl

lemma execAll_append (code code' : List Instr) (c : Pe) :
    execAll (code ++ code') c = execAll code' (execAll code c) := List.foldl_append

/-- An offset inside of an object does not wrap. -/
lemma address_of_le {size : ℕ} (h : c.core.sp.toNat + size ≤ 2 ^ 64) (hn : n < size) :
    c.address n = c.core.sp.toNat + n := by
  unfold Pe.address
  rw [BitVec.toNat_add, BitVec.toNat_ofNat, Nat.add_mod_mod]
  exact Nat.mod_eq_of_lt (by omega)

section Pe

variable (c : Pe) (r : Reg) (s : SysReg) (v : Word) (m : ByteMemory) (n : ℕ)

@[simp] lemma setX_core : (c.setX r v).core = c.core.setX r v := rfl
@[simp] lemma setX_sys : (c.setX r v).sys = c.sys := rfl
@[simp] lemma setX_pstate : (c.setX r v).pstate = c.pstate := rfl
@[simp] lemma address_setX : (c.setX r v).address n = c.address n := rfl

@[simp] lemma setSp_x : (c.setSp v).core.x = c.core.x := rfl
@[simp] lemma setSp_memory : (c.setSp v).core.memory = c.core.memory := rfl
@[simp] lemma setSp_sys : (c.setSp v).sys = c.sys := rfl
@[simp] lemma setSp_pstate : (c.setSp v).pstate = c.pstate := rfl

@[simp] lemma next_x : c.next.core.x = c.core.x := rfl
@[simp] lemma next_sp : c.next.core.sp = c.core.sp := rfl
@[simp] lemma next_memory : c.next.core.memory = c.core.memory := rfl
@[simp] lemma next_sys : c.next.sys = c.sys := rfl
@[simp] lemma next_pstate : c.next.pstate = c.pstate := rfl
@[simp] lemma address_next : c.next.address n = c.address n := rfl

@[simp] lemma setMemory_x : (c.setMemory m).core.x = c.core.x := rfl
@[simp] lemma setMemory_sp : (c.setMemory m).core.sp = c.core.sp := rfl
@[simp] lemma setMemory_memory : (c.setMemory m).core.memory = m := rfl
@[simp] lemma setMemory_sys : (c.setMemory m).sys = c.sys := rfl
@[simp] lemma setMemory_pstate : (c.setMemory m).pstate = c.pstate := rfl
@[simp] lemma address_setMemory : (c.setMemory m).address n = c.address n := rfl

@[simp] lemma setSys_core : (c.setSys s v).core = c.core := rfl
@[simp] lemma setSys_sys : (c.setSys s v).sys = Function.update c.sys s v := rfl
@[simp] lemma setSys_pstate : (c.setSys s v).pstate = c.pstate := rfl
@[simp] lemma address_setSys : (c.setSys s v).address n = c.address n := rfl

end Pe

/-! ### The record -/

lemma words_length (r : Registers) : r.words.length = 34 := by simp [Registers.words]

lemma words_x (r : Registers) (i : Reg) : r.words[i.val]? = some (r.x i) := by
  rw [Registers.words, List.getElem?_append_left (by simp)]
  simp

/-- A word that was written can be read back. -/
lemma readWord_write {i : ℕ} {w : Word} (hi : r.words[i]? = some w) :
    (Registers.write m a r).readWord (a + 8 * i) = w := by
  obtain ⟨hlt, rfl⟩ := List.getElem?_eq_some_iff.mp hi
  exact readWord_writeWords hlt

lemma read_write : Registers.read (Registers.write m a r) a = r := by
  obtain ⟨x, spEl0, elrEl1, spsrEl1⟩ := r
  refine Registers.mk.injEq .. |>.mpr ⟨funext fun i => ?_, ?_, ?_, ?_⟩
  · exact readWord_write (words_x _ i)
  · exact readWord_write rfl
  · exact readWord_write rfl
  · exact readWord_write rfl

/-! ### The stores -/

/-- The store of a pair of general registers. -/
def storePair (i : ℕ) : Instr := .stp (Fin.ofNat 31 (2 * i)) (Fin.ofNat 31 (2 * i + 1)) (16 * i)

lemma saveRegs_eq : saveRegs = .subSp Registers.size :: ((List.range 15).map storePair ++
    [.mrs 21 .spEl0, .stp 30 21 (16 * 15), .mrs 21 .elrEl1, .mrs 22 .spsrEl1,
      .stp 21 22 (16 * 16)]) := rfl

lemma words_eq (r : Registers) : r.words = (List.range 30).map (fun i => r.x (Fin.ofNat 31 i)) ++
    [r.x 30, r.spEl0, r.elrEl1, r.spsrEl1] := rfl

/-- Only the memory and the program counter have changed. -/
structure Stored (c d : Pe) : Prop where
  x : d.core.x = c.core.x
  sp : d.core.sp = c.core.sp
  sys : d.sys = c.sys
  pstate : d.pstate = c.pstate

lemma storePairs_spec (h : c.core.sp.toNat + Registers.size ≤ 2 ^ 64) (hk : k ≤ 15) :
    Stored c (execAll ((List.range k).map storePair) c) ∧
      (execAll ((List.range k).map storePair) c).core.memory =
        c.core.memory.writeWords c.core.sp.toNat
          ((List.range (2 * k)).map fun i => c.core.x (Fin.ofNat 31 i)) := by
  induction k with
  | zero => exact ⟨⟨rfl, rfl, rfl, rfl⟩, rfl⟩
  | succ k ih =>
    obtain ⟨⟨hx, hsp, hsys, hpstate⟩, hmemory⟩ := ih (by omega)
    rw [List.range_succ, List.map_append, execAll_append]
    generalize execAll ((List.range k).map storePair) c = d at hx hsp hsys hpstate hmemory ⊢
    refine ⟨⟨hx, hsp, hsys, hpstate⟩, ?_⟩
    have haddress : ∀ n < Registers.size, d.address n = c.core.sp.toNat + n := fun n hn => by
      rw [← hsp] at h ⊢
      exact address_of_le h hn
    have hsize : Registers.size = 272 := rfl
    rw [show 2 * (k + 1) = 2 * k + 1 + 1 by omega, List.range_succ, List.range_succ,
      List.append_assoc, List.map_append, writeWords_append, ← hmemory]
    have haddr : d.address (16 * k) = c.core.sp.toNat + 8 * (2 * k) := by
      rw [haddress _ (by omega)]
      omega
    have haddr' : d.address (16 * k + 8) = c.core.sp.toNat + 8 * (2 * k) + 8 := by
      rw [haddress _ (by omega)]
      omega
    simp only [List.map_singleton, execAll_cons, execAll_nil, storePair, exec, haddr, haddr', hx,
      List.length_map, List.length_range, List.singleton_append, Pe.next, Pe.setPc, Pe.setMemory]
    rfl

/-- `save_regs` puts the record of the registers below the stack pointer. -/
lemma saveRegs_spec (h : Registers.size ≤ c.core.sp.toNat) :
    (execAll saveRegs c).core.sp.toNat = c.core.sp.toNat - Registers.size ∧
      (execAll saveRegs c).core.memory =
        Registers.write c.core.memory (c.core.sp.toNat - Registers.size) (.ofPe c) ∧
      (execAll saveRegs c).sys = c.sys ∧ (execAll saveRegs c).pstate = c.pstate := by
  have hsize : Registers.size = 272 := rfl
  have hlt := c.core.sp.isLt
  obtain ⟨c₀, hc₀⟩ : ∃ c₀, c₀ = exec (.subSp Registers.size) c := ⟨_, rfl⟩
  have hsp₀ : c₀.core.sp.toNat = c.core.sp.toNat - Registers.size := by
    rw [hc₀]
    change (c.core.sp - BitVec.ofNat 64 Registers.size).toNat = _
    rw [BitVec.toNat_sub, BitVec.toNat_ofNat, hsize]
    omega
  have hx₀ : c₀.core.x = c.core.x := by rw [hc₀, exec, next_x, setSp_x]
  have hmemory₀ : c₀.core.memory = c.core.memory := by rw [hc₀, exec, next_memory, setSp_memory]
  have hsys₀ : c₀.sys = c.sys := by rw [hc₀, exec, next_sys, setSp_sys]
  have hpstate₀ : c₀.pstate = c.pstate := by rw [hc₀, exec, next_pstate, setSp_pstate]
  have hfits : c₀.core.sp.toNat + Registers.size ≤ 2 ^ 64 := by omega
  obtain ⟨⟨hx, hsp, hsys, hpstate⟩, hmemory⟩ := storePairs_spec hfits (k := 15) le_rfl
  have hall : execAll saveRegs c = execAll [.mrs 21 .spEl0, .stp 30 21 (16 * 15), .mrs 21 .elrEl1,
      .mrs 22 .spsrEl1, .stp 21 22 (16 * 16)] (execAll ((List.range 15).map storePair) c₀) := by
    rw [saveRegs_eq, execAll_cons, execAll_append, hc₀]
  rw [hall]
  generalize execAll ((List.range 15).map storePair) c₀ = d at hx hsp hsys hpstate hmemory
  have haddress : ∀ n < Registers.size, d.address n = c₀.core.sp.toNat + n := fun n hn => by
    rw [← hsp] at hfits ⊢
    exact address_of_le hfits hn
  have hstored : d.core.memory.writeWords (c₀.core.sp.toNat + 240)
      [d.core.x 30, d.sys .spEl0, d.sys .elrEl1, d.sys .spsrEl1] =
        Registers.write c.core.memory c₀.core.sp.toNat (.ofPe c) := by
    rw [Registers.write, words_eq, writeWords_append, hmemory, hx, hsys, hx₀, hmemory₀, hsys₀]
    rfl
  rw [← hsp₀, ← hstored]
  refine ⟨?_, ?_, ?_, ?_⟩
  · simp -implicitDefEqProofs [exec, hsp]
  · simp -implicitDefEqProofs [exec, haddress, hsize, writeWords, Nat.add_assoc]
  · simp -implicitDefEqProofs [exec, hsys, hsys₀]
  · simp -implicitDefEqProofs [exec, hpstate, hpstate₀]

/-! ### The loads -/

/-- The load of a pair of general registers. -/
def loadPair (i : ℕ) : Instr := .ldp (Fin.ofNat 31 (2 * i)) (Fin.ofNat 31 (2 * i + 1)) (16 * i)

/-- `load_regs` from the write of ELR_EL1 on. -/
def restoreRegs : List Instr := loadRegs.tail

lemma restoreRegs_eq : restoreRegs = [.msr .elrEl1 21, .msr .spsrEl1 22, .ldp 30 21 (16 * 15),
    .msr .spEl0 21] ++ ((List.range 15).map loadPair ++ [.addSp Registers.size]) := rfl

/-- Only general registers and the program counter have changed. -/
structure Loaded (c d : Pe) : Prop where
  memory : d.core.memory = c.core.memory
  sp : d.core.sp = c.core.sp
  sys : d.sys = c.sys
  pstate : d.pstate = c.pstate

lemma loadPairs_spec (h : c.core.sp.toNat + Registers.size ≤ 2 ^ 64) (hk : k ≤ 15) :
    Loaded c (execAll ((List.range k).map loadPair) c) ∧
      ∀ i : Reg, (execAll ((List.range k).map loadPair) c).core.x i =
        if i.val < 2 * k then c.core.memory.readWord (c.core.sp.toNat + 8 * i) else c.core.x i := by
  induction k with
  | zero => exact ⟨⟨rfl, rfl, rfl, rfl⟩, fun i => (if_neg (Nat.not_lt_zero _)).symm⟩
  | succ k ih =>
    obtain ⟨⟨hmemory, hsp, hsys, hpstate⟩, hx⟩ := ih (by omega)
    rw [List.range_succ, List.map_append, execAll_append]
    generalize execAll ((List.range k).map loadPair) c = d at hmemory hsp hsys hpstate hx ⊢
    refine ⟨⟨hmemory, hsp, hsys, hpstate⟩, fun i => ?_⟩
    have haddress : ∀ n < Registers.size, d.address n = c.core.sp.toNat + n := fun n hn => by
      rw [← hsp] at h ⊢
      exact address_of_le h hn
    have hsize : Registers.size = 272 := rfl
    have hval : ∀ n < 31, (Fin.ofNat 31 n).val = n := fun n hn => Nat.mod_eq_of_lt hn
    have hload : (execAll ((List.map loadPair) [k]) d).core.x = Function.update
        (Function.update d.core.x (Fin.ofNat 31 (2 * k))
          (c.core.memory.readWord (c.core.sp.toNat + 8 * (2 * k))))
        (Fin.ofNat 31 (2 * k + 1))
        (c.core.memory.readWord (c.core.sp.toNat + 8 * (2 * k + 1))) := by
      have h₁ : d.readWord (16 * k) =
          c.core.memory.readWord (c.core.sp.toNat + 8 * (2 * k)) := by
        rw [Pe.readWord, hmemory, haddress _ (by omega)]
        congr 1
        omega
      have h₂ : d.readWord (16 * k + 8) =
          c.core.memory.readWord (c.core.sp.toNat + 8 * (2 * k + 1)) := by
        rw [Pe.readWord, hmemory, haddress _ (by omega)]
        congr 1
        omega
      rw [← h₁, ← h₂]
      rfl
    rw [hload]
    by_cases hi₂ : i = Fin.ofNat 31 (2 * k + 1)
    · have hv : i.val = 2 * k + 1 := by rw [hi₂, hval _ (by omega)]
      rw [← hi₂, Function.update_self, if_pos (by omega), hv]
    · rw [Function.update_of_ne hi₂]
      have hv₂ : i.val ≠ 2 * k + 1 := fun he => hi₂ (Fin.ext (he.trans (hval _ (by omega)).symm))
      by_cases hi₁ : i = Fin.ofNat 31 (2 * k)
      · have hv : i.val = 2 * k := by rw [hi₁, hval _ (by omega)]
        rw [← hi₁, Function.update_self, if_pos (by omega), hv]
      · have hv₁ : i.val ≠ 2 * k := fun he => hi₁ (Fin.ext (he.trans (hval _ (by omega)).symm))
        rw [Function.update_of_ne hi₁, hx]
        exact if_congr (by omega) rfl rfl

/-- `load_regs` from the write of ELR_EL1 on loads the record at the stack pointer. ELR_EL1 and
SPSR_EL1 are what has been loaded for them before. -/
lemma restoreRegs_spec (h : c.core.sp.toNat + Registers.size < 2 ^ 64) :
    Registers.ofPe (execAll restoreRegs c) =
        { Registers.read c.core.memory c.core.sp.toNat with
          elrEl1 := c.core.x 21
          spsrEl1 := c.core.x 22 } ∧
      (execAll restoreRegs c).core.sp.toNat = c.core.sp.toNat + Registers.size ∧
      (execAll restoreRegs c).core.memory = c.core.memory := by
  let c₀ := execAll [.msr .elrEl1 21, .msr .spsrEl1 22, .ldp 30 21 (16 * 15), .msr .spEl0 21] c
  have haddress : ∀ n < Registers.size, c.address n = c.core.sp.toNat + n := fun n hn =>
    address_of_le h.le hn
  have hsize : Registers.size = 272 := rfl
  have hx30 : c₀.core.x 30 = c.core.memory.readWord (c.core.sp.toNat + 8 * 30) := by
    rw [← haddress (8 * 30) (by decide)]
    rfl
  have hspEl0 : c₀.sys .spEl0 = c.core.memory.readWord (c.core.sp.toNat + 8 * 31) := by
    rw [← haddress (8 * 31) (by decide)]
    rfl
  have helr : c₀.sys .elrEl1 = c.core.x 21 := rfl
  have hspsr : c₀.sys .spsrEl1 = c.core.x 22 := rfl
  have hsp₀ : c₀.core.sp = c.core.sp := rfl
  have hmemory₀ : c₀.core.memory = c.core.memory := rfl
  obtain ⟨⟨hmemory, hsp, hsys, -⟩, hx⟩ := loadPairs_spec (c := c₀) (k := 15) h.le le_rfl
  have hall : execAll restoreRegs c =
      exec (.addSp Registers.size) (execAll ((List.range 15).map loadPair) c₀) := by
    rw [restoreRegs_eq, execAll_append, execAll_append]
    rfl
  rw [hall]
  generalize execAll ((List.range 15).map loadPair) c₀ = d at hmemory hsp hsys hx
  refine ⟨Registers.mk.injEq .. |>.mpr ⟨funext fun i => ?_, ?_, ?_, ?_⟩, ?_, ?_⟩
  · change d.core.x i = c.core.memory.readWord (c.core.sp.toNat + 8 * i)
    rw [hx i]
    by_cases hi : i.val < 2 * 15
    · rw [if_pos hi, hmemory₀, hsp₀]
    · have hi' : i = 30 := Fin.ext (by have := i.isLt; change i.val = 30; omega)
      rw [if_neg hi, hi']
      exact hx30
  · change d.sys .spEl0 = _
    rw [hsys]
    exact hspEl0
  · change d.sys .elrEl1 = _
    rw [hsys, helr]
  · change d.sys .spsrEl1 = _
    rw [hsys, hspsr]
  · change (d.core.sp + BitVec.ofNat 64 Registers.size).toNat = _
    rw [hsp, hsp₀, BitVec.toNat_add, BitVec.toNat_ofNat, hsize]
    omega
  · rw [exec, next_memory, setSp_memory, hmemory, hmemory₀]

end Pimento.VectorTable
