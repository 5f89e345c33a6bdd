import Pimento.ByteMemory

/-!
A core of the AArch64 kind, and the instructions of the kernel's own assembly.

Routines are lists of instructions of four bytes each. A load or a store goes to the address in
a base register plus a constant offset.
-/

namespace Pimento.Aarch64

open ByteMemory

/-- The general registers x0 to x30: x29 is `fp` and x30 is `lr`. -/
abbrev Reg := Fin 31

instance reg_neZero : NeZero 31 := ⟨by decide⟩

@[ext]
structure Core where
  x : Reg → Word
  sp : Word
  pc : Word
  memory : ByteMemory

inductive Instr
  /-- `mov r, r'` -/
  | mov (r r' : Reg)
  /-- `mov r, sp` -/
  | movFromSp (r : Reg)
  /-- `mov sp, r` -/
  | movToSp (r : Reg)
  /-- `stp r, r', [base, #n]` -/
  | stp (r r' base : Reg) (n : ℕ)
  /-- `ldp r, r', [base, #n]` -/
  | ldp (r r' base : Reg) (n : ℕ)
  /-- `str r, [base, #n]` -/
  | str (r base : Reg) (n : ℕ)
  /-- `ldr r, [base, #n]` -/
  | ldr (r base : Reg) (n : ℕ)
  /-- `br r` -/
  | br (r : Reg)
  deriving DecidableEq, Repr

namespace Core

variable (c : Core)

/-- The address `[base, #n]`. -/
def address (base : Reg) (n : ℕ) : ℕ := (c.x base + BitVec.ofNat 64 n).toNat

def setX (r : Reg) (v : Word) : Core := { c with x := Function.update c.x r v }

def load (r base : Reg) (n : ℕ) : Core := c.setX r (c.memory.readWord (c.address base n))

def save (r base : Reg) (n : ℕ) : Core :=
  { c with memory := c.memory.writeWord (c.address base n) (c.x r) }

def next : Core := { c with pc := c.pc + 4 }

end Core

/-- Execute an instruction. Both addresses of a pair come from the base before the load. -/
def exec (i : Instr) (c : Core) : Core :=
  match i with
  | .mov r r' => (c.setX r (c.x r')).next
  | .movFromSp r => (c.setX r c.sp).next
  | .movToSp r => { c with sp := c.x r }.next
  | .stp r r' base n => ((c.save r base n).save r' base (n + 8)).next
  | .ldp r r' base n =>
    ((c.load r base n).setX r' (c.memory.readWord (c.address base (n + 8)))).next
  | .str r base n => (c.save r base n).next
  | .ldr r base n => (c.load r base n).next
  | .br r => { c with pc := c.x r }

/-- Execute instructions one after the other. -/
def execAll (code : List Instr) (c : Core) : Core := code.foldl (fun c i => exec i c) c

@[simp] lemma execAll_nil (c : Core) : execAll [] c = c := rfl

@[simp] lemma execAll_cons (i : Instr) (code : List Instr) (c : Core) :
    execAll (i :: code) c = execAll code (exec i c) := rfl

lemma execAll_append (code code' : List Instr) (c : Core) :
    execAll (code ++ code') c = execAll code' (execAll code c) := List.foldl_append

/-! ### What the parts of an instruction leave alone -/

section Core

variable (c : Core) (r base : Reg) (v : Word) (n : ℕ)

@[simp] lemma setX_x : (c.setX r v).x = Function.update c.x r v := rfl
@[simp] lemma setX_sp : (c.setX r v).sp = c.sp := rfl
@[simp] lemma setX_memory : (c.setX r v).memory = c.memory := rfl

@[simp] lemma load_sp : (c.load r base n).sp = c.sp := rfl
@[simp] lemma load_memory : (c.load r base n).memory = c.memory := rfl

@[simp] lemma save_x : (c.save r base n).x = c.x := rfl
@[simp] lemma save_sp : (c.save r base n).sp = c.sp := rfl
@[simp] lemma save_memory :
    (c.save r base n).memory = c.memory.writeWord (c.address base n) (c.x r) := rfl

@[simp] lemma next_x : c.next.x = c.x := rfl
@[simp] lemma next_sp : c.next.sp = c.sp := rfl
@[simp] lemma next_memory : c.next.memory = c.memory := rfl

@[simp] lemma address_next : c.next.address base n = c.address base n := rfl
@[simp] lemma address_save (b : Reg) (k : ℕ) :
    (c.save r base n).address b k = c.address b k := rfl

@[simp] lemma address_setX (h : base ≠ r) : (c.setX r v).address base n = c.address base n := by
  unfold Core.address
  rw [setX_x, Function.update_of_ne h]

end Core

variable {c : Core} {base : Reg} {n : ℕ}

/-- An offset inside of an object does not wrap. -/
lemma address_of_le {size : ℕ} (h : (c.x base).toNat + size ≤ 2 ^ 64) (hn : n < size) :
    c.address base n = (c.x base).toNat + n := by
  unfold Core.address
  rw [BitVec.toNat_add, BitVec.toNat_ofNat, Nat.add_mod_mod]
  exact Nat.mod_eq_of_lt (by omega)

/-! ### Loads from one base -/

/-- The core `d` comes from `c` by loads: the registers in the list hold the words at their
offsets from the base, and the others are as they were. -/
structure Loads (c d : Core) (base : Reg) (rs : List (Reg × ℕ)) : Prop where
  loaded : ∀ p ∈ rs, d.x p.1 = c.memory.readWord (c.address base p.2)
  other : ∀ r, r ∉ rs.map Prod.fst → d.x r = c.x r
  memory : d.memory = c.memory
  sp : d.sp = c.sp

namespace Loads

variable {d : Core} {rs : List (Reg × ℕ)} {r r' : Reg}

lemma nil (c : Core) (base : Reg) : Loads c c base [] :=
  ⟨fun _ hp => (List.not_mem_nil hp).elim, fun _ _ => rfl, rfl, rfl⟩

/-- One more register, which is not the base. -/
lemma setX (h : Loads c d base rs) (hr : r ∉ rs.map Prod.fst) :
    Loads c (d.setX r (c.memory.readWord (c.address base n))) base ((r, n) :: rs) := by
  refine ⟨fun p hp => ?_, fun k hk => ?_, h.memory, h.sp⟩
  · rcases List.mem_cons.mp hp with rfl | hp
    · exact Function.update_self ..
    · have hne : p.1 ≠ r := fun he => hr (he ▸ List.mem_map_of_mem hp)
      exact (Function.update_of_ne hne ..).trans (h.loaded p hp)
  · rw [List.map_cons, List.mem_cons, not_or] at hk
    exact (Function.update_of_ne hk.1 ..).trans (h.other k hk.2)

/-- The word that is loaded is still the one that the base points to. -/
lemma readWord_eq (h : Loads c d base rs) (hbase : base ∉ rs.map Prod.fst) :
    d.memory.readWord (d.address base n) = c.memory.readWord (c.address base n) := by
  unfold Core.address
  rw [h.memory, h.other base hbase]

lemma ldr (h : Loads c d base rs) (n : ℕ) (hbase : base ∉ rs.map Prod.fst)
    (hr : r ∉ rs.map Prod.fst) : Loads c (exec (.ldr r base n) d) base ((r, n) :: rs) := by
  have hload : d.load r base n = d.setX r (c.memory.readWord (c.address base n)) :=
    congrArg (d.setX r) (h.readWord_eq hbase)
  obtain ⟨hloaded, hother, hmemory, hsp⟩ := h.setX (n := n) hr
  rw [← hload] at hloaded hother hmemory hsp
  exact ⟨hloaded, hother, hmemory, hsp⟩

lemma ldp (h : Loads c d base rs) (n : ℕ) (hbase : base ∉ rs.map Prod.fst)
    (hr : r ∉ rs.map Prod.fst) (hr' : r' ∉ r :: rs.map Prod.fst) :
    Loads c (exec (.ldp r r' base n) d) base ((r', n + 8) :: (r, n) :: rs) := by
  have hpair : (d.load r base n).setX r' (d.memory.readWord (d.address base (n + 8))) =
      (d.setX r (c.memory.readWord (c.address base n))).setX r'
        (c.memory.readWord (c.address base (n + 8))) := by
    rw [Core.load, h.readWord_eq hbase, h.readWord_eq hbase]
  obtain ⟨hloaded, hother, hmemory, hsp⟩ := (h.setX (n := n) hr).setX (n := n + 8) hr'
  rw [← hpair] at hloaded hother hmemory hsp
  exact ⟨hloaded, hother, hmemory, hsp⟩

end Loads

end Pimento.Aarch64
