import Pimento.Aarch64
import Pimento.Scheduler

/-!
The context switch in assembly, and the record it keeps the registers of a task in.

`Registers` is laid out in the order of its fields, which the offsets in the assembly have to
match. `cpu_context_switch` ends with a jump to its third argument, so that this function
returns to the address in the link register of the next task.
-/

namespace Pimento

open ByteMemory Aarch64

namespace Registers

/-- `size_of::<Registers>()`. -/
def size : ℕ := 104

def new : Registers := ⟨0, 0, 0, 0, 0, 0, 0, 0, 0, 0, 0, 0, 0⟩

/-- The words of the record in memory. -/
def words (r : Registers) : List Word :=
  [r.x19, r.x20, r.x21, r.x22, r.x23, r.x24, r.x25, r.x26, r.x27, r.x28, r.fp, r.lr, r.sp]

def write (m : ByteMemory) (a : ℕ) (r : Registers) : ByteMemory := m.writeWords a r.words

def read (m : ByteMemory) (a : ℕ) : Registers where
  x19 := m.readWord a
  x20 := m.readWord (a + 8)
  x21 := m.readWord (a + 16)
  x22 := m.readWord (a + 24)
  x23 := m.readWord (a + 32)
  x24 := m.readWord (a + 40)
  x25 := m.readWord (a + 48)
  x26 := m.readWord (a + 56)
  x27 := m.readWord (a + 64)
  x28 := m.readWord (a + 72)
  fp := m.readWord (a + 80)
  lr := m.readWord (a + 88)
  sp := m.readWord (a + 96)

/-- The registers of a core that survive a call, with its link register. -/
def ofCore (c : Core) : Registers where
  x19 := c.x 19
  x20 := c.x 20
  x21 := c.x 21
  x22 := c.x 22
  x23 := c.x 23
  x24 := c.x 24
  x25 := c.x 25
  x26 := c.x 26
  x27 := c.x 27
  x28 := c.x 28
  fp := c.x 29
  lr := c.x 30
  sp := c.sp

end Registers

/-- `CpuContext::set_stack_pointer`. -/
def Registers.setStackPointer (r : Registers) (sp : Word) : Registers := { r with sp }

/-- `CpuContext::set_link_register`. -/
def Registers.setLinkRegister (r : Registers) (lr x19 x20 : Word) : Registers :=
  { r with lr, x19, x20 }

namespace CpuContext

/-- `cpu_context_switch` up to the load: save the registers to `prev`. -/
def saveRegisters : List Instr :=
  [.movFromSp 9,
    .stp 19 20 0 (16 * 0),
    .stp 21 22 0 (16 * 1),
    .stp 23 24 0 (16 * 2),
    .stp 25 26 0 (16 * 3),
    .stp 27 28 0 (16 * 4),
    .stp 29 30 0 (16 * 5),
    .str 9 0 (16 * 6)]

/-- Load the registers from `next`. -/
def loadRegisters : List Instr :=
  [.ldp 19 20 1 (16 * 0),
    .ldp 21 22 1 (16 * 1),
    .ldp 23 24 1 (16 * 2),
    .ldp 25 26 1 (16 * 3),
    .ldp 27 28 1 (16 * 4),
    .ldp 29 30 1 (16 * 5),
    .ldr 9 1 (16 * 6),
    .movToSp 9]

/-- Call `after_func(after_data)`. -/
def callAfterFunc : List Instr := [.mov 0 3, .br 2]

def cpuContextSwitch : List Instr := saveRegisters ++ loadRegisters ++ callAfterFunc

def cpuContextEntry : List Instr :=
  [.mov 0 20,
    .mov 1 21,
    .mov 2 22,
    .mov 3 23,
    .mov 4 24,
    .mov 5 25,
    .mov 6 26,
    .mov 7 27,
    .mov 8 28,
    .br 19]

variable {m m' : ByteMemory} {a : ℕ} {r : Registers} {c : Core}

/-! ### The record -/

lemma words_length (r : Registers) : r.words.length = 13 := rfl

lemma words_injective : Function.Injective Registers.words := by
  rintro ⟨⟩ ⟨⟩ h
  simpa [Registers.words] using h

lemma words_read {i : ℕ} (hi : i < (Registers.read m a).words.length) :
    (Registers.read m a).words[i] = m.readWord (a + 8 * i) := by
  rw [words_length] at hi
  interval_cases i <;> rfl

/-- The layout is the same for the loads and the stores. -/
lemma read_write : Registers.read (Registers.write m a r) a = r := by
  refine words_injective (List.ext_getElem rfl fun i hi hi' => ?_)
  rw [words_read hi]
  exact readWord_writeWords hi'

lemma read_congr (h : SameOn m m' a Registers.size) :
    Registers.read m a = Registers.read m' a := by
  refine words_injective (List.ext_getElem (by rw [words_length, words_length]) fun i hi hi' => ?_)
  have hend : a + 8 * i + 8 ≤ a + Registers.size := by
    rw [words_length] at hi
    unfold Registers.size
    omega
  have hword : m.readWord (a + 8 * i) = m'.readWord (a + 8 * i) :=
    readWord_sameOn h (Nat.le_add_right ..) hend
  rw [words_read hi, words_read hi', hword]

lemma sameOn_write {b n : ℕ} (h : b + n ≤ a ∨ a + Registers.size ≤ b) :
    SameOn m (Registers.write m a r) b n :=
  sameOn_writeWords h

/-! ### The two halves of the switch -/

/-- What the assembly stores is the record of the registers at the call. -/
lemma save_memory (h : (c.x 0).toNat + Registers.size ≤ 2 ^ 64) :
    (execAll saveRegisters c).memory =
      Registers.write c.memory (c.x 0).toNat (Registers.ofCore c) := by
  unfold Registers.size at h
  have haddress : ∀ n < 104, c.address 0 n = (c.x 0).toNat + n := fun n hn => address_of_le h hn
  simp [saveRegisters, exec, haddress, Registers.write, Registers.words, writeWords,
    Registers.ofCore, Nat.add_assoc]

lemma save_x (r : Reg) (hr : r ≠ 9) : (execAll saveRegisters c).x r = c.x r := by
  simp [saveRegisters, exec, hr]

/-- The registers and the offsets that the assembly loads them from. -/
lemma loads_registers : Loads c (execAll loadRegisters.dropLast c) 1
    [(9, 96), (30, 88), (29, 80), (28, 72), (27, 64), (26, 56), (25, 48), (24, 40), (23, 32),
      (22, 24), (21, 16), (20, 8), (19, 0)] :=
  (((((((Loads.nil c 1).ldp 0 (by decide) (by decide) (by decide)).ldp 16 (by decide) (by decide)
    (by decide)).ldp 32 (by decide) (by decide) (by decide)).ldp 48 (by decide) (by decide)
    (by decide)).ldp 64 (by decide) (by decide) (by decide)).ldp 80 (by decide) (by decide)
    (by decide)).ldr 96 (by decide) (by decide)

lemma execAll_loadRegisters :
    execAll loadRegisters c = exec (.movToSp 9) (execAll loadRegisters.dropLast c) := rfl

/-- What the assembly loads is the record, field by field. -/
lemma load_ofCore (h : (c.x 1).toNat + Registers.size ≤ 2 ^ 64) :
    Registers.ofCore (execAll loadRegisters c) = Registers.read c.memory (c.x 1).toNat := by
  unfold Registers.size at h
  have hloads := loads_registers (c := c)
  have hloaded : ∀ r n, n < 104 → (r, n) ∈ [((9 : Reg), 96), (30, 88), (29, 80), (28, 72),
      (27, 64), (26, 56), (25, 48), (24, 40), (23, 32), (22, 24), (21, 16), (20, 8), (19, 0)] →
      (execAll loadRegisters.dropLast c).x r = c.memory.readWord ((c.x 1).toNat + n) := by
    intro r n hn hmem
    rw [← address_of_le h hn]
    exact hloads.loaded (r, n) hmem
  rw [execAll_loadRegisters]
  generalize execAll loadRegisters.dropLast c = d at hloaded
  refine Registers.mk.injEq .. |>.mpr ?_
  refine ⟨hloaded 19 0 (by decide) (by decide), hloaded 20 8 (by decide) (by decide),
    hloaded 21 16 (by decide) (by decide), hloaded 22 24 (by decide) (by decide),
    hloaded 23 32 (by decide) (by decide), hloaded 24 40 (by decide) (by decide),
    hloaded 25 48 (by decide) (by decide), hloaded 26 56 (by decide) (by decide),
    hloaded 27 64 (by decide) (by decide), hloaded 28 72 (by decide) (by decide),
    hloaded 29 80 (by decide) (by decide), hloaded 30 88 (by decide) (by decide),
    hloaded 9 96 (by decide) (by decide)⟩

lemma load_memory : (execAll loadRegisters c).memory = c.memory := rfl

lemma load_x (r : Reg) (hr : r < 9) : (execAll loadRegisters c).x r = c.x r := by
  rw [execAll_loadRegisters]
  refine (loads_registers (c := c)).other r ?_
  revert r
  decide

/-! ### The switch -/

lemma callAfterFunc_spec :
    (execAll callAfterFunc c).memory = c.memory ∧
      Registers.ofCore (execAll callAfterFunc c) = Registers.ofCore c ∧
      (execAll callAfterFunc c).x 0 = c.x 3 ∧ (execAll callAfterFunc c).pc = c.x 2 := by
  simp [callAfterFunc, exec, Registers.ofCore, Core.next]

/-- **The assembly**, for two records that are the same or not: `prev` holds the registers at the
call, `after_func` is entered with `after_data`, and on entry the core has what `next` holds. -/
theorem switch_spec (hprev : (c.x 0).toNat + Registers.size ≤ 2 ^ 64)
    (hnext : (c.x 1).toNat + Registers.size ≤ 2 ^ 64) :
    (execAll cpuContextSwitch c).memory =
        Registers.write c.memory (c.x 0).toNat (Registers.ofCore c) ∧
      Registers.ofCore (execAll cpuContextSwitch c) =
        Registers.read (execAll cpuContextSwitch c).memory (c.x 1).toNat ∧
      (execAll cpuContextSwitch c).x 0 = c.x 3 ∧ (execAll cpuContextSwitch c).pc = c.x 2 := by
  have hx : ∀ r : Reg, r < 9 →
      (execAll loadRegisters (execAll saveRegisters c)).x r = c.x r := fun r hr =>
    (load_x r hr).trans (save_x r hr.ne)
  have hsaved : (execAll saveRegisters c).x 1 = c.x 1 := save_x 1 (by decide)
  obtain ⟨hmemory, hregs, hdata, hpc⟩ :=
    callAfterFunc_spec (c := execAll loadRegisters (execAll saveRegisters c))
  rw [cpuContextSwitch, execAll_append, execAll_append, hmemory, hregs, hdata, hpc,
    load_ofCore (by rwa [hsaved]), load_memory, hsaved, save_memory hprev]
  exact ⟨rfl, rfl, hx 3 (by decide), hx 2 (by decide)⟩

/-- The entry of a new task jumps to its `x19` with its `x20` as the argument. -/
lemma entry_spec :
    (execAll cpuContextEntry c).x 0 = c.x 20 ∧ (execAll cpuContextEntry c).pc = c.x 19 ∧
      (execAll cpuContextEntry c).sp = c.sp ∧ (execAll cpuContextEntry c).memory = c.memory := by
  simp [cpuContextEntry, exec, Core.next]

/-! ### The switch of the scheduler -/

/-- The core and the records in memory hold the registers of the scheduler's tasks, where the
record of a task is at `record id`. -/
structure Represents (record : ℕ → ℕ) (s : Kernel) (c : Core) : Prop where
  cpu : s.cpu.registers = Registers.ofCore c
  tasks : ∀ id t, s.tasks[id]? = some t → Registers.read c.memory (record id) = t.registers

/-- The records do not overlap and do not wrap. -/
structure Apart (record : ℕ → ℕ) : Prop where
  le : ∀ id, record id + Registers.size ≤ 2 ^ 64
  disjoint : ∀ id id', id ≠ id' →
    record id + Registers.size ≤ record id' ∨ record id' + Registers.size ≤ record id

/-- **The assembly does what the scheduler expects of a context switch.** -/
theorem switch_refines {record : ℕ → ℕ} {s : Kernel} {prev next : ℕ} (hr : Represents record s c)
    (hapart : Apart record) (hprev : prev ∈ s.tasks) (hnext : next ∈ s.tasks)
    (h0 : (c.x 0).toNat = record prev) (h1 : (c.x 1).toNat = record next) :
    ∃ s', Scheduler.cpuContextSwitch prev next s = (.ok (), s') ∧
      Represents record s' (execAll cpuContextSwitch c) := by
  obtain ⟨hmemory, hregs, -, -⟩ := switch_spec (c := c) (by rw [h0]; exact hapart.le prev)
    (by rw [h1]; exact hapart.le next)
  rw [h0] at hmemory
  rw [h1] at hregs
  obtain ⟨t, ht⟩ := Option.isSome_iff_exists.mp (Std.TreeMap.mem_iff_isSome_getElem?.mp hprev)
  let saved := s.tasks.insert prev { t with registers := s.cpu.registers }
  have hmem : next ∈ saved := Std.TreeMap.mem_insert.mpr (.inr hnext)
  obtain ⟨u, hu⟩ := Option.isSome_iff_exists.mp (Std.TreeMap.mem_iff_isSome_getElem?.mp hmem)
  have hread : ∀ id v, saved[id]? = some v →
      Registers.read (execAll cpuContextSwitch c).memory (record id) = v.registers := by
    intro id v hv
    rw [hmemory]
    rw [Std.TreeMap.getElem?_insert] at hv
    by_cases hid : prev = id
    · rw [if_pos (Std.compare_eq_iff_eq.mpr hid)] at hv
      rw [← Option.some.inj hv, ← hid, read_write]
      exact hr.cpu.symm
    · rw [if_neg fun hc => hid (Std.compare_eq_iff_eq.mp hc)] at hv
      rw [← hr.tasks id v hv]
      exact (read_congr (sameOn_write (hapart.disjoint id prev (Ne.symm hid)))).symm
  refine ⟨{ s with tasks := saved, cpu := { s.cpu with registers := u.registers } }, ?_, ?_, hread⟩
  · simp [Scheduler.cpuContextSwitch, ht, saved] at hu ⊢
    simp [hu]
  · rw [hregs, hread next u hu]

end CpuContext

end Pimento
