import Pimento.PageAllocator
import Pimento.PageTable

/-!
The memory context of a task: its root table, and the pages it has taken from the allocator.

Every method holds the lock of the context for the whole call, so a call is a computation on
the context and the machine.
-/

namespace Pimento

open Address PageTable PageAllocator

structure MemoryContext where
  pageAllocations : List PageAllocation
  asid : BitVec 16
  /-- The kernel pointer to the root table. -/
  tableL0 : ℕ
  deriving DecidableEq, Repr

/-- What a method of a context works on. -/
structure Scope where
  machine : Machine
  context : MemoryContext

namespace MemoryContext

/-- Access to the memory of the machine. -/
def onMemory {α : Type} (x : Exec ByteMemory α) : Exec Scope α :=
  .zoom (·.machine.memory)
    (fun m s => { s with machine := { s.machine with memory := m } }) x

/-- Access to the machine. -/
def onMachine {α : Type} (x : Exec Machine α) : Exec Scope α :=
  .zoom (·.machine) (fun m s => { s with machine := m }) x

/-- `AddressSpaceId::next`: an atomic fetch-and-add on 16 bits. -/
def nextAsid : Exec Machine (BitVec 16) := do
  let id := (← .get).asidCounter
  .modify fun s => { s with asidCounter := s.asidCounter + 1 }
  return id

variable (pa : PageAllocator)

def new : Exec Machine MemoryContext := do
  let tableL0Page ← alloc pa
  let asid ← nextAsid
  return { pageAllocations := [tableL0Page], asid, tableL0 := tableL0Page.page }

def ttbrEl1AsidShift : ℕ := 48

/-- The value of the translation table base register. -/
def ttbr (c : MemoryContext) : Word :=
  (c.asid.setWidth 64 <<< ttbrEl1AsidShift) ||| BitVec.ofNat 64 (physicalAddress c.tableL0)

def allocPageRaw : Exec Scope PageAllocation := do
  let allocation ← onMachine (alloc pa)
  .modify fun s =>
    { s with context :=
      { s.context with pageAllocations := s.context.pageAllocations ++ [allocation] } }
  return allocation

def allocPageUnmapped : Exec Scope PageAllocation := allocPageRaw pa

/-- Create or load the table behind the row for `address`. -/
def traverseTableToTable (table : TableManager) (address : ℕ) : Exec Scope TableManager := do
  let row ← Exec.okOr (table.rowByAddress address)
  let nextTable ← do
    match ← onMemory row.descriptorType with
    | some .table => pure (← onMemory row.loadTable).address
    | _ =>
      let allocation ← allocPageRaw pa
      let page := allocation.address
      let tableDesc ← Exec.okOr (TableDescriptorBuilder.new page)
      onMemory (row.writeTable tableDesc)
      pure page
  return { table := virtualAddress nextTable, level := table.level + 1,
           inputAddressStart := row.start }

/-- Create or load the page behind the row for `address`. -/
def traverseTableToPage (table : TableManager) (address : ℕ) : Exec Scope ℕ := do
  let row ← Exec.okOr (table.rowByAddress address)
  match ← onMemory row.descriptorType with
  | some .page => return (← onMemory row.loadPage).address
  | _ =>
    let allocation ← allocPageRaw pa
    let page := allocation.address
    let pageDesc ← Exec.okOr (PageDescriptorBuilder.new page)
    onMemory (row.writePage ((pageDesc.setAttribute .normal).setUnprivileged true))
    return page

/-- `while table.level() < LEVEL_MAX`, for at most the given number of iterations. -/
def traverseTables (address : ℕ) : ℕ → TableManager → Exec Scope TableManager
  | 0, _ => .hang
  | n + 1, table =>
    if table.level < levelMax then do
      traverseTables address n (← traverseTableToTable pa table address)
    else return table

/-- The root table of a context. -/
def rootTable (c : MemoryContext) : TableManager :=
  { table := c.tableL0, level := levelRoot, inputAddressStart := 0 }

def allocPage (address : ℕ) : Exec Scope ℕ := do
  let table := rootTable (← .get).context
  let table ← traverseTables pa address (levelMax + 1) table
  traverseTableToPage pa table address

end MemoryContext

end Pimento
