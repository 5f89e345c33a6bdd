import Pimento.Armv8
import Pimento.MemoryContext

/-!
Copies between the kernel and user space.

The copy is a plain one through the addresses as they are: below `2 ^ 48` the processor walks
the tables of the current context, from `vaStart` on those of the kernel, and anything else
faults. A fault in the kernel is a panic.
-/

namespace Pimento.UserCopy

open Address Armv8 MemoryContext

/-- The first `2 ^ 39` bytes of physical memory are mapped from `vaStart` on, for the kernel
only. -/
def kernelSize : ℕ := 2 ^ 39

/-- The physical address of an access by the kernel, or `none` for a fault. -/
def dataAddress (s : Scope) (write : Bool) (va : ℕ) : Option ℕ :=
  if va < 2 ^ 48 then
    match translate s.machine.memory (physicalAddress s.context.tableL0) va with
    | some t => if write && t.readOnly then none else some t.outputAddress
    | none => none
  else if vaStart ≤ va ∧ va < vaStart + kernelSize then some (va - vaStart)
  else none

def access (write : Bool) (va : ℕ) : Exec Scope ℕ := do
  match dataAddress (← .get) write va with
  | some a => return a
  | none => .panic

/-- Copies data from a kernel virtual address to a user virtual address. The source is memory
of the kernel that the copy does not overwrite. -/
def copyToUser : List Byte → ℕ → Exec Scope Unit
  | [], _ => pure ()
  | b :: src, dst => do
    let a ← access true dst
    onMemory (.modify fun m => m.writeBytes a [b])
    copyToUser src (wrap (dst + 1))

/-- Copies data from a user virtual address to a kernel virtual address. -/
def copyFromUser (src : ℕ) : ℕ → Exec Scope (List Byte)
  | 0 => pure []
  | count + 1 => do
    let a ← access false src
    let b := (← .get).machine.memory a
    let bytes ← copyFromUser (wrap (src + 1)) count
    return b :: bytes

end Pimento.UserCopy
