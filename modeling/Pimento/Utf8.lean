import Pimento.ByteMemory

/-!
`String::from_utf8_lossy`.

The bytes are cut into chunks of valid characters, each followed by a sequence that is none; such
a sequence is replaced by U+FFFD. Text without one is borrowed. Other text is built in a string
that starts with the length of the bytes as its capacity and grows by doubling.
-/

namespace Pimento.Utf8

/-- `byte & 0xC0 == 0x80`. -/
def isContinuation (byte : ℕ) : Bool := 0x80 ≤ byte && byte < 0xC0

/-- The second bytes of a sequence of three or four that may follow this first byte. -/
def isSecond (first second : ℕ) : Bool :=
  if first = 0xE0 then 0xA0 ≤ second && second < 0xC0
  else if first = 0xED then 0x80 ≤ second && second < 0xA0
  else if first = 0xF0 then 0x90 ≤ second && second < 0xC0
  else if first = 0xF4 then 0x80 ≤ second && second < 0x90
  else isContinuation second

/-- How many bytes of the first sequence are looked at, and if they are a character. -/
def sequence (source : List Byte) : ℕ × Bool :=
  let byte (i : ℕ) := ((source[i]?).getD 0).toNat
  let first := byte 0
  if first < 0x80 then (1, true)
  else if 0xC2 ≤ first ∧ first < 0xE0 then
    if isContinuation (byte 1) then (2, true) else (1, false)
  else if 0xE0 ≤ first ∧ first < 0xF0 then
    if ¬ isSecond first (byte 1) then (1, false)
    else if isContinuation (byte 2) then (3, true) else (2, false)
  else if 0xF0 ≤ first ∧ first < 0xF5 then
    if ¬ isSecond first (byte 1) then (1, false)
    else if ¬ isContinuation (byte 2) then (2, false)
    else if isContinuation (byte 3) then (4, true) else (3, false)
  else (1, false)

structure Utf8Chunk where
  valid : List Byte
  invalid : List Byte
  deriving DecidableEq, Repr

/-- The chunks of at most `n` bytes. -/
def chunks : ℕ → List Byte → List Utf8Chunk
  | 0, _ => []
  | _ + 1, [] => []
  | n + 1, source =>
    let (k, valid) := sequence source
    let rest := chunks n (source.drop k)
    if valid then
      match rest with
      | [] => [⟨source.take k, []⟩]
      | chunk :: rest => ⟨source.take k ++ chunk.valid, chunk.invalid⟩ :: rest
    else ⟨[], source.take k⟩ :: rest

/-- `<[u8]>::utf8_chunks`. -/
def utf8Chunks (source : List Byte) : List Utf8Chunk := chunks source.length source

/-- The UTF-8 encoding of U+FFFD. -/
def replacement : List Byte := [0xEF, 0xBF, 0xBD]

/-- A string under construction, with the sizes of the allocations made for it so far. -/
structure Buffer where
  bytes : List Byte
  capacity : ℕ
  allocations : List ℕ
  deriving DecidableEq, Repr

/-- `String::with_capacity`. -/
def Buffer.withCapacity (capacity : ℕ) : Buffer := ⟨[], capacity, [capacity]⟩

/-- `String::push_str`. -/
def Buffer.pushStr (s : Buffer) (bytes : List Byte) : Buffer :=
  let required := s.bytes.length + bytes.length
  if required ≤ s.capacity then { s with bytes := s.bytes ++ bytes }
  else
    let capacity := max 8 (max (2 * s.capacity) required)
    ⟨s.bytes ++ bytes, capacity, s.allocations ++ [capacity]⟩

def Buffer.pushChunk (s : Buffer) (chunk : Utf8Chunk) : Buffer :=
  let s := s.pushStr chunk.valid
  if chunk.invalid = [] then s else s.pushStr replacement

/-- The text, and the sizes of the allocations made for it. -/
def fromUtf8Lossy (source : List Byte) : List Byte × List ℕ :=
  match utf8Chunks source with
  | [] => ([], [])
  | chunk :: rest =>
    if chunk.invalid = [] then (chunk.valid, [])
    else
      let s := (chunk :: rest).foldl Buffer.pushChunk (.withCapacity source.length)
      (s.bytes, s.allocations)

/-- An invalid byte, and a character that is cut off. -/
example : fromUtf8Lossy [0x41, 0xFF, 0xE2, 0x82] =
    ([0x41, 0xEF, 0xBF, 0xBD, 0xEF, 0xBF, 0xBD], [4, 8]) := by decide

end Pimento.Utf8
