import Pimento.Address
import Pimento.FileSystem

/-!
The reader for ELF files, and its iterator over page-sized chunks to be loaded into memory.
-/

namespace Pimento

open Address

/-- The little-endian number in the `n` bytes from `offset` on, a field of a `repr(C)` record. -/
def field (bytes : List Byte) (offset n : ℕ) : ℕ :=
  ((bytes.drop offset).take n).foldr (fun b k => b.toNat + 256 * k) 0

lemma field_lt {bytes : List Byte} (offset n : ℕ) : field bytes offset n < 256 ^ n := by
  have hfold : ∀ l : List Byte, l.foldr (fun b k => b.toNat + 256 * k) 0 < 256 ^ l.length := by
    intro l
    induction l with
    | nil => simp
    | cons b l ih =>
      have hb := b.isLt
      rw [List.foldr_cons, List.length_cons, pow_succ]
      omega
  refine lt_of_lt_of_le (hfold _) (Nat.pow_le_pow_right (by decide) ?_)
  rw [List.length_take]
  exact Nat.min_le_left _ _

/-- An ELF header. -/
structure Elf64Header where
  identMagic : List Byte
  identClass : ℕ
  identData : ℕ
  identVersion : ℕ
  identAbi : ℕ
  objectType : ℕ
  machine : ℕ
  version : ℕ
  entryPoint : ℕ
  programHeaderOffset : ℕ
  programHeaderEntrySize : ℕ
  programHeaderEntryCount : ℕ
  deriving DecidableEq, Repr

/-- An ELF program header. -/
structure Elf64ProgramHeader where
  segmentType : ℕ
  fileOffset : ℕ
  virtualAddress : ℕ
  fileSize : ℕ
  memorySize : ℕ
  deriving DecidableEq, Repr

namespace Elf64ProgramHeader

/-- `size_of::<Elf64ProgramHeader>()`. -/
def size : ℕ := 56

def tryFrom (value : List Byte) : Option Elf64ProgramHeader :=
  if size ≤ value.length then
    some
      { segmentType := field value 0 4
        fileOffset := field value 8 8
        virtualAddress := field value 16 8
        fileSize := field value 32 8
        memorySize := field value 40 8 }
  else none

end Elf64ProgramHeader

namespace Elf64Header

/-- `size_of::<Elf64Header>()`. -/
def size : ℕ := 64

/-- Returns `true` if the header is valid. -/
def isValid (h : Elf64Header) : Bool :=
  h.identMagic = [0x7F, 0x45, 0x4C, 0x46]
    && h.identClass = 0x02
    && h.identData = 0x01
    && h.identVersion = 0x01
    && h.identAbi = 0x00
    && h.objectType = 0x0002
    && h.version = 0x00000001
    && h.programHeaderEntrySize = Elf64ProgramHeader.size

/-- Returns `true` if the header has a machine type of AArch64. -/
def isAarch64 (h : Elf64Header) : Bool := h.machine = 0x00B7

def tryFrom (value : List Byte) : Option Elf64Header :=
  if size ≤ value.length then
    some
      { identMagic := value.take 4
        identClass := field value 4 1
        identData := field value 5 1
        identVersion := field value 6 1
        identAbi := field value 7 1
        objectType := field value 16 2
        machine := field value 18 2
        version := field value 20 4
        entryPoint := field value 24 8
        programHeaderOffset := field value 32 8
        programHeaderEntrySize := field value 54 2
        programHeaderEntryCount := field value 56 2 }
  else none

end Elf64Header

/-- A reader for ELF files, of the file it is used with. -/
structure Elf64Reader where
  header : Elf64Header
  programHeaders : List Elf64ProgramHeader
  deriving DecidableEq, Repr

namespace Elf64Reader

variable {W : Type} (fs : FileSystem W)

/-- The loop that reads the program headers. -/
def readProgramHeaders : ℕ → Exec (Handle W File) (List Elf64ProgramHeader)
  | 0 => pure []
  | n + 1 => do
    let programHeader ← .okOr (Elf64ProgramHeader.tryFrom
      (← File.read fs Elf64ProgramHeader.size))
    let programHeaders ← readProgramHeaders n
    return programHeader :: programHeaders

/-- Creates an ELF reader. The heap has room for what is read, and for the program headers, whose
vector is made with its capacity before the first of them is read. -/
def new : Exec (Handle W File) Elf64Reader := do
  let header ← .okOr (Elf64Header.tryFrom (← File.read fs Elf64Header.size))
  .guard header.isValid
  .guard header.isAarch64
  File.seek fs header.programHeaderOffset
  let programHeaders ← readProgramHeaders fs header.programHeaderEntryCount
  return ⟨header, programHeaders⟩

/-- Gets the memory address of the entry point. -/
def entryPoint (reader : Elf64Reader) : ℕ := reader.header.entryPoint

end Elf64Reader

/-- `Range<usize>`. -/
structure Range where
  start : ℕ
  stop : ℕ
  deriving DecidableEq, Repr

/-- A range that ends before it starts is empty. -/
def Range.len (r : Range) : ℕ := r.stop - r.start

/-- A page-sized chunk to be loaded into memory. -/
structure LoadablePage where
  address : ℕ
  bytes : List Byte
  deriving DecidableEq, Repr

/-- An iterator over page-sized chunks to be loaded into memory: the position in the program
headers, and the page of the segment. -/
structure LoadablePages where
  programHeaderIndex : ℕ
  pageIndex : ℕ
  deriving DecidableEq, Repr

namespace LoadablePages

def new : LoadablePages := ⟨0, 0⟩

/-- `PROGRAM_HEADER_TYPE_LOAD`. -/
def programHeaderTypeLoad : ℕ := 1

/-- `a - b`, as in the release build. -/
def wrapSub (a b : ℕ) : ℕ := wrap (a + 2 ^ 64 - b)

/-- Where the page with this index starts and ends in its segment. The first page of a segment
that does not begin on a page boundary is short. -/
def offsets (virtualAddress pageIndex : ℕ) : ℕ × ℕ :=
  let offsetStart := wrap (pageIndex * pageSize)
  let offsetEnd := wrap (offsetStart + pageSize)
  let alignmentOffset := virtualAddress % pageSize
  (if pageIndex ≠ 0 then wrapSub offsetStart alignmentOffset else offsetStart,
    wrapSub offsetEnd alignmentOffset)

/-- Returns a range of file offsets and a range of virtual memory addresses that correspond to
the page with index `pageIndex` as described by the program header. -/
def range (programHeader : Elf64ProgramHeader) (pageIndex : ℕ) : Option (Range × Range) :=
  if programHeader.segmentType ≠ programHeaderTypeLoad then none
  else
    let virtualAddress := programHeader.virtualAddress
    let fileOffset := programHeader.fileOffset
    let (offsetStart, offsetEnd) := offsets virtualAddress pageIndex
    let fileSize := programHeader.fileSize
    let fileOffsetStart := wrap (fileOffset + min offsetStart fileSize)
    let fileOffsetEnd := wrap (fileOffset + min offsetEnd fileSize)
    let memorySize := programHeader.memorySize
    let virtualAddressStart := wrap (virtualAddress + min offsetStart memorySize)
    let virtualAddressEnd := wrap (virtualAddress + min offsetEnd memorySize)
    if virtualAddressStart = virtualAddressEnd then none
    else some (⟨fileOffsetStart, fileOffsetEnd⟩, ⟨virtualAddressStart, virtualAddressEnd⟩)

/-- The loop of `next`, up to the next range, over the program headers from the current one
on. -/
def nextRange (pages : LoadablePages) :
    List Elf64ProgramHeader → Option (Range × Range) × LoadablePages
  | [] => (none, pages)
  | programHeader :: programHeaders =>
    match range programHeader pages.pageIndex with
    | some r => (some r, pages)
    | none => nextRange ⟨pages.programHeaderIndex + 1, 0⟩ programHeaders

/-- `bytes.resize_with(len, || 0)`. -/
def resize (bytes : List Byte) (len : ℕ) : List Byte :=
  bytes.take len ++ List.replicate (len - bytes.length) 0

variable {W : Type} (fs : FileSystem W)

/-- The next chunk, if the iterator has not come to its end; `.ok()?` takes an error of the
file for the end. -/
def next (reader : Elf64Reader) (pages : LoadablePages) :
    Exec (Handle W File) (Option LoadablePage × LoadablePages) := do
  match nextRange pages (reader.programHeaders.drop pages.programHeaderIndex) with
  | (none, pages) => return (none, pages)
  | (some (fileRange, memoryRange), pages) =>
    match ← Exec.ok (File.seek fs fileRange.start) with
    | none => return (none, pages)
    | some () =>
      match ← Exec.ok (File.read fs fileRange.len) with
      | none => return (none, pages)
      | some bytes =>
        return (some ⟨memoryRange.start, resize bytes memoryRange.len⟩,
          { pages with pageIndex := pages.pageIndex + 1 })

/-- The iterator at its end. -/
lemma next_none {fs : FileSystem W} {reader : Elf64Reader} {pages c : LoadablePages}
    {s : Handle W File}
    (h : nextRange pages (reader.programHeaders.drop pages.programHeaderIndex) = (none, c)) :
    next fs reader pages s = (.ok (none, c), s) := by
  rw [next, h]
  rfl

end LoadablePages

end Pimento
