import Pimento.Address
import Pimento.ByteMemory
import Pimento.Exec

/-!
Translation tables as the kernel reads and writes them: table managers, rows and the three
descriptor builders.

A table is reached through a kernel pointer, and a row is the 64-bit word at
`8 * index` from it.
-/

namespace Pimento.PageTable

open Address

/-- The number of rows in a translation table. -/
def rowCount : ℕ := 512

def levelRoot : ℕ := 0
def levelMax : ℕ := 3

def typeMask : Word := 0b11
def typeTable : Word := 0b11
def typeBlock : Word := 0b01
def typePage : Word := 0b11

def tableAddressMask : Word := 0xFFFFFFFFF000
def blockAddressMask : Word := 0xFFFFFFE00000
def pageAddressMask : Word := 0xFFFFFFFFF000

def unprivilegedBit : Word := 0b1 <<< 6
def accessFlag : Word := 0b1 <<< 10
def notGlobal : Word := 0b1 <<< 11

def attributeShift : ℕ := 2
def attributeMask : Word := 0b111 <<< attributeShift

inductive Attribute
  | device
  | normal
  | normalNC
  deriving DecidableEq, Repr

/-- The index that is also used in `MAIR_EL1`. -/
def Attribute.value : Attribute → Word
  | .device => 0
  | .normal => 1
  | .normalNC => 2

inductive DescriptorType
  | table
  | block
  | page
  deriving DecidableEq, Repr

/-! ### Descriptor builders -/

structure TableDescriptorBuilder where
  pendingValue : Word
  deriving DecidableEq, Repr

namespace TableDescriptorBuilder

def new (address : ℕ) : Option TableDescriptorBuilder :=
  if BitVec.ofNat 64 address &&& ~~~tableAddressMask ≠ 0 then none
  else some ⟨typeTable ||| BitVec.ofNat 64 address⟩

def address (b : TableDescriptorBuilder) : ℕ := (b.pendingValue &&& tableAddressMask).toNat

def build (b : TableDescriptorBuilder) : Word := b.pendingValue

end TableDescriptorBuilder

structure BlockDescriptorBuilder where
  pendingValue : Word
  deriving DecidableEq, Repr

namespace BlockDescriptorBuilder

def new (address : ℕ) : Option BlockDescriptorBuilder :=
  if BitVec.ofNat 64 address &&& ~~~blockAddressMask ≠ 0 then none
  else some ⟨typeBlock ||| accessFlag ||| notGlobal ||| BitVec.ofNat 64 address⟩

def setAttribute (b : BlockDescriptorBuilder) (a : Attribute) :
    BlockDescriptorBuilder :=
  ⟨(b.pendingValue &&& ~~~attributeMask) ||| (a.value <<< attributeShift)⟩

def address (b : BlockDescriptorBuilder) : ℕ := (b.pendingValue &&& blockAddressMask).toNat

def build (b : BlockDescriptorBuilder) : Word := b.pendingValue

end BlockDescriptorBuilder

structure PageDescriptorBuilder where
  pendingValue : Word
  deriving DecidableEq, Repr

namespace PageDescriptorBuilder

def new (address : ℕ) : Option PageDescriptorBuilder :=
  if BitVec.ofNat 64 address &&& ~~~pageAddressMask ≠ 0 then none
  else some ⟨typePage ||| accessFlag ||| notGlobal ||| BitVec.ofNat 64 address⟩

def setAttribute (b : PageDescriptorBuilder) (a : Attribute) : PageDescriptorBuilder :=
  ⟨(b.pendingValue &&& ~~~attributeMask) ||| (a.value <<< attributeShift)⟩

def setUnprivileged (b : PageDescriptorBuilder) (unprivileged : Bool) : PageDescriptorBuilder :=
  match unprivileged with
  | true => ⟨b.pendingValue ||| unprivilegedBit⟩
  | false => ⟨b.pendingValue &&& ~~~unprivilegedBit⟩

def address (b : PageDescriptorBuilder) : ℕ := (b.pendingValue &&& pageAddressMask).toNat

def build (b : PageDescriptorBuilder) : Word := b.pendingValue

end PageDescriptorBuilder

/-! ### Tables and rows -/

/-- A table: the kernel pointer to it, its level and the first address it translates. -/
structure TableManager where
  table : ℕ
  level : ℕ
  inputAddressStart : ℕ
  deriving DecidableEq, Repr

structure TableRowManager where
  tableManager : TableManager
  index : ℕ
  deriving DecidableEq, Repr

namespace TableManager

def start (t : TableManager) : ℕ := t.inputAddressStart

/-- The number of bytes that are addressed by this table. -/
def len (t : TableManager) : ℕ := pageSize * rowCount ^ (levelMax - t.level + 1)

def row (t : TableManager) (index : ℕ) : TableRowManager := ⟨t, index⟩

def rowByAddress (t : TableManager) (address : ℕ) : Option TableRowManager :=
  let start := t.start
  let stop := wrap (start + t.len)
  let rowSize := t.len / rowCount
  if address < start ∨ address ≥ stop then none
  else some ⟨t, (address - start) / rowSize⟩

end TableManager

namespace TableRowManager

variable (r : TableRowManager)

/-- The kernel pointer to the row. -/
def pointer : ℕ := r.tableManager.table + 8 * r.index

def value : Exec ByteMemory Word :=
  if r.index < rowCount then .gets (·.readWord (physicalAddress r.pointer)) else .panic

def setValue (value : Word) : Exec ByteMemory Unit :=
  if r.index < rowCount then .modify (·.writeWord (physicalAddress r.pointer) value) else .panic

def len : ℕ := r.tableManager.len / rowCount

/-- The first address that is addressed by this row. -/
def start : ℕ := wrap (r.tableManager.start + r.len * r.index)

def descriptorType : Exec ByteMemory (Option DescriptorType) := do
  let level := r.tableManager.level
  let type := (← r.value) &&& typeMask
  if type = typeTable ∧ level < levelMax then return some .table
  else if type = typeBlock ∧ level > 0 then return some .block
  else if type = typePage ∧ level = levelMax then return some .page
  else return none

def writeTable (builder : TableDescriptorBuilder) : Exec ByteMemory Unit :=
  if r.tableManager.level ≥ levelMax then .err else r.setValue builder.build

def writeBlock (builder : BlockDescriptorBuilder) : Exec ByteMemory Unit :=
  if r.tableManager.level ≤ levelRoot then .err else r.setValue builder.build

def writePage (builder : PageDescriptorBuilder) : Exec ByteMemory Unit :=
  if r.tableManager.level ≠ levelMax then .err else r.setValue builder.build

def loadTable : Exec ByteMemory TableDescriptorBuilder := do
  match ← r.descriptorType with
  | some .table => return ⟨← r.value⟩
  | _ => .err

def loadBlock : Exec ByteMemory BlockDescriptorBuilder := do
  match ← r.descriptorType with
  | some .block => return ⟨← r.value⟩
  | _ => .err

def loadPage : Exec ByteMemory PageDescriptorBuilder := do
  match ← r.descriptorType with
  | some .page => return ⟨← r.value⟩
  | _ => .err

end TableRowManager

end Pimento.PageTable
