import Pimento.HeapAllocator
import Pimento.UserCopy
import Pimento.Utf8

/-!
System calls: the router, the `write` call, and the kernel heap and log that it uses.

The heap hands out memory linearly and takes none back. A failed allocation is a panic, and so
nothing comes after it.
-/

namespace Pimento

open Address MemoryContext

/-- What a system call of the current task works on: the machine with the memory context of the
task, the bytes allocated from the heap, the bytes written to the log device, and the uptime in
milliseconds, once there is a clock. -/
structure KernelState where
  scope : Scope
  allocated : ℕ
  log : List Byte
  uptime : Option ℕ

namespace Heap

/-- An allocation of bytes. -/
def alloc (count : ℕ) : Exec KernelState Unit :=
  .zoom KernelState.allocated (fun allocated s => { s with allocated }) (take count)

/-- Allocations one after the other. -/
def allocAll : List ℕ → Exec KernelState Unit
  | [] => pure ()
  | count :: counts => do
    alloc count
    allocAll counts

end Heap

namespace Log

/-- The bytes of ASCII text. -/
def ascii (s : String) : List Byte := s.toList.map fun c => BitVec.ofNat 8 c.toNat

/-- A number, padded on the left. -/
def padded (width : ℕ) (fill : Char) (n : ℕ) : List Byte :=
  ascii (String.ofList ((toString n).toList.leftpad width fill))

/-- `print!`. -/
def print (bytes : List Byte) : Exec KernelState Unit :=
  .modify fun s => { s with log := s.log ++ bytes }

/-- `println!`: the uptime goes before the text. -/
def println (bytes : List Byte) : Exec KernelState Unit := do
  match (← .get).uptime with
  | some uptime =>
    print (ascii "[" ++ padded 5 ' ' (uptime / 1000) ++ ascii "." ++
      padded 3 '0' (uptime % 1000) ++ ascii "] ")
  | none => pure ()
  print (bytes ++ ascii "\n")

end Log

inductive SystemCallError
  | badFileNumber
  | badAddress
  | functionNotImplemented
  deriving DecidableEq, Repr

def SystemCallError.value : SystemCallError → ℕ
  | .badFileNumber => 9
  | .badAddress => 14
  | .functionNotImplemented => 38

/-- A system call to be defined. -/
structure SystemCall where
  number : ℕ
  call : ℕ → ℕ → ℕ → ℕ → ℕ → ℕ → Exec KernelState (Except SystemCallError ℕ)

/-- `SystemCallNumber::Write`. -/
def systemCallWrite : ℕ := 64

namespace SysWrite

/-- Work on the memory context. -/
def onScope {α : Type} (x : Exec Scope α) : Exec KernelState α :=
  .zoom KernelState.scope (fun c s => { s with scope := c }) x

/-- `String::from_utf8_lossy`, with its allocations. -/
def fromUtf8Lossy (bytes : List Byte) : Exec KernelState (List Byte) := do
  Heap.allocAll (Utf8.fromUtf8Lossy bytes).2
  return (Utf8.fromUtf8Lossy bytes).1

/-- Writes a buffer to a file: all output is written to the kernel logger. `copy_from_user`
returns `Ok(())` whatever it is given. -/
def call (arg0 arg1 arg2 _arg3 _arg4 _arg5 : ℕ) :
    Exec KernelState (Except SystemCallError ℕ) := do
  let fd := arg0
  let buf := arg1
  let count := arg2
  if fd ≠ 1 then return .error .badFileNumber
  Heap.alloc count
  let kBuf ← onScope (UserCopy.copyFromUser buf count)
  Log.print (← fromUtf8Lossy kBuf)
  return .ok count

end SysWrite

/-- A generic system call router: the handlers by their numbers. -/
structure SystemCallRouter where
  handlers : List (Option SystemCall)

namespace SystemCallRouter

/-- Creates a system call router. -/
def new (handlers : List SystemCall) : SystemCallRouter :=
  let maxNumber := (handlers.map SystemCall.number).foldl max 0
  ⟨handlers.foldl (fun indexed handler => indexed.set handler.number (some handler))
    (List.replicate (maxNumber + 1) none)⟩

/-- The `isize` with the bits of a `usize`. -/
def toIsize (n : ℕ) : ℤ := (BitVec.ofNat 64 n).toInt

/-- Handles a system call that has been requested. -/
def handle (router : SystemCallRouter) (num arg0 arg1 arg2 arg3 arg4 arg5 : ℕ) :
    Exec KernelState ℤ := do
  match (router.handlers[num]?).getD none with
  | some handler =>
    match ← handler.call arg0 arg1 arg2 arg3 arg4 arg5 with
    | .ok val => return toIsize val
    | .error val => return -val.value
  | none =>
    Log.println (Log.ascii "not implemented: system call " ++ Log.ascii (toString num) ++
      Log.ascii " (0x" ++ Log.ascii (String.ofList (Nat.toDigits 16 num)) ++ Log.ascii ")")
    return -SystemCallError.functionNotImplemented.value

end SystemCallRouter

/-- The router of the kernel. -/
def systemCallRouter : SystemCallRouter := .new [⟨systemCallWrite, SysWrite.call⟩]

end Pimento
