import Pimento.HeapAllocator

/-!
The serial driver reading from its receiver.

What it reads goes to a vector on the heap. Bytes come in at any time. What matters is what has come
in by each access to a register of the receiver, so that the bytes to come are listed by the access
that they come in before.
-/

namespace Pimento

/-- The receiver of the mini UART. -/
structure Receiver where
  fifo : List Byte
  /-- What comes in before each of the next accesses. Nothing comes in after them. -/
  arriving : List (List Byte)
  /-- What has come in so far. -/
  received : List Byte
  /-- The bits of `AUX_MU_LSR` above the lowest one. -/
  status : ℕ
  deriving DecidableEq, Repr

namespace Receiver

/-- The bytes in the receiver are all that has come in. -/
def start (fifo : List Byte) (arriving : List (List Byte)) : Receiver := ⟨fifo, arriving, fifo, 0⟩

/-- Time passes until the next access. -/
def next (r : Receiver) : Receiver :=
  { r with
    fifo := r.fifo ++ r.arriving.headD []
    arriving := r.arriving.tail
    received := r.received ++ r.arriving.headD [] }

end Receiver

/-- What `read` works on: the receiver, and the bytes allocated from the heap. -/
structure SerialPort where
  receiver : Receiver
  allocated : ℕ
  deriving DecidableEq, Repr

namespace SerialPort

def onReceiver {α : Type} (x : Exec Receiver α) : Exec SerialPort α :=
  .zoom SerialPort.receiver (fun receiver s => { s with receiver }) x

def onHeap {α : Type} (x : Exec ℕ α) : Exec SerialPort α :=
  .zoom SerialPort.allocated (fun allocated s => { s with allocated }) x

end SerialPort

/-- A `Vec` of bytes. -/
structure Buffer where
  bytes : List Byte
  capacity : ℕ
  deriving DecidableEq, Repr

namespace Buffer

def withCapacity (count : ℕ) : Exec SerialPort Buffer := do
  SerialPort.onHeap (Heap.take count)
  return ⟨[], count⟩

/-- The capacity that a full vector of bytes grows to. -/
def grown (capacity : ℕ) : ℕ := max 8 (max (2 * capacity) (capacity + 1))

def push (buf : Buffer) (byte : Byte) : Exec SerialPort Buffer := do
  if buf.bytes.length < buf.capacity then return { buf with bytes := buf.bytes ++ [byte] }
  else
    -- to a new block: the heap takes none back
    SerialPort.onHeap (Heap.take (grown buf.capacity))
    return ⟨buf.bytes ++ [byte], grown buf.capacity⟩

end Buffer

namespace Bcm2837Serial

/-- `AUX_MU_LSR_RX_READY`. -/
def rxReady : ℕ := 0b1

/-- Read `AUX_MU_LSR`. -/
def readLsr : Exec Receiver ℕ := do
  .modify Receiver.next
  let r ← .get
  return 2 * r.status + if r.fifo.isEmpty then 0 else 1

/-- Read `AUX_MU_IO`. -/
def readIo : Exec Receiver Byte := do
  .modify Receiver.next
  let r ← .get
  .modify fun r => { r with fifo := r.fifo.tail }
  return r.fifo.headD 0

def readByte : Exec Receiver (Option Byte) := do
  -- check if receiver is ready
  if (← readLsr) &&& rxReady = 0 then return none
  else return some (← readIo)

/-- The loop of `read`, for at most the given number of iterations. -/
def readLoop : ℕ → Buffer → Exec SerialPort Buffer
  | 0, _ => .hang
  | n + 1, buf => do
    match ← SerialPort.onReceiver readByte with
    | some byte => readLoop n (← buf.push byte)
    | none => return buf

/-- How many bytes are in the receiver or will come in. -/
def left (r : Receiver) : ℕ := r.fifo.length + r.arriving.flatten.length

/-- The count is the capacity of the vector. Every iteration but the last one takes a byte. -/
def read (count : ℕ) : Exec SerialPort (List Byte) := do
  let buf ← Buffer.withCapacity count
  let s ← .get
  return (← readLoop (left s.receiver + 1) buf).bytes

variable {r : Receiver}

lemma ready_eq (status b : ℕ) (hb : b ≤ 1) : (2 * status + b) &&& rxReady = b := by
  rw [rxReady, Nat.and_one_is_mod]
  omega

/-- The receiver is empty. -/
lemma readByte_empty (h : r.next.fifo = []) : readByte r = (.ok none, r.next) := by
  have hlsr : readLsr r = (.ok (2 * r.next.status + 0), r.next) := by
    rw [readLsr, Exec.modify_bind, Exec.get_bind, h]
    rfl
  rw [readByte, Exec.bind_ok hlsr, if_pos (ready_eq _ 0 (by decide))]
  rfl

/-- The receiver, without its first byte after two accesses. -/
def taken (r : Receiver) : Receiver := { r.next.next with fifo := r.next.next.fifo.tail }

lemma readByte_ready (h : r.next.fifo ≠ []) :
    readByte r = (.ok (some (r.next.next.fifo.headD 0)), taken r) := by
  have hlsr : readLsr r = (.ok (2 * r.next.status + 1), r.next) := by
    rw [readLsr, Exec.modify_bind, Exec.get_bind, if_neg (by simpa using h)]
    rfl
  rw [readByte, Exec.bind_ok hlsr, if_neg (by rw [ready_eq _ 1 (by decide)]; decide)]
  rfl

/-- How many bytes have come in when `m` of them have been taken and the receiver is looked at
again. -/
def comeBy (r : Receiver) (m : ℕ) : ℕ :=
  r.fifo.length + (r.arriving.take (2 * m + 1)).flatten.length

lemma next_fifo_length : r.next.fifo.length = comeBy r 0 := by
  rw [Receiver.next, comeBy, List.length_append]
  rcases r.arriving with _ | ⟨a, as⟩ <;> simp

lemma comeBy_taken (h : r.next.fifo ≠ []) (m : ℕ) : comeBy (taken r) m + 1 = comeBy r (m + 1) := by
  have hpos := List.length_pos_of_ne_nil h
  have htake : 2 * (m + 1) + 1 = 2 * m + 1 + 1 + 1 := by omega
  unfold comeBy
  rw [htake]
  rcases harr : r.arriving with _ | ⟨a, _ | ⟨b, as⟩⟩ <;>
    simp [taken, Receiver.next, harr] at hpos ⊢ <;> omega

lemma left_taken (h : r.next.fifo ≠ []) : left (taken r) + 1 = left r := by
  have hpos := List.length_pos_of_ne_nil h
  unfold left
  rcases harr : r.arriving with _ | ⟨a, _ | ⟨b, as⟩⟩ <;>
    simp [taken, Receiver.next, harr] at hpos ⊢ <;> omega

lemma comeBy_le_left (r : Receiver) (m : ℕ) : comeBy r m ≤ left r := by
  have hsplit := congrArg List.flatten (List.take_append_drop (2 * m + 1) r.arriving)
  rw [List.flatten_append] at hsplit
  rw [comeBy, left, ← hsplit, List.length_append]
  omega

/-- The bytes have been taken off the receiver one by one until there were no more. -/
structure Takes (r : Receiver) (bytes : List Byte) (r' : Receiver) : Prop where
  stream : ∃ new, r'.received = r.received ++ new ∧ r.fifo ++ new = bytes ++ r'.fifo
  empty : comeBy r bytes.length ≤ bytes.length
  ready : ∀ m < bytes.length, m < comeBy r m

lemma Takes.none (h : r.next.fifo = []) : Takes r [] r.next := by
  refine ⟨⟨r.arriving.headD [], rfl, rfl⟩, ?_, by simp⟩
  rw [List.length_nil, ← next_fifo_length, h]
  exact Nat.le_refl _

lemma Takes.cons {bytes : List Byte} {r' : Receiver} (h : r.next.fifo ≠ [])
    (ht : Takes (taken r) bytes r') : Takes r (r.next.next.fifo.headD 0 :: bytes) r' := by
  obtain ⟨⟨new, hreceived, hfifo⟩, hempty, hready⟩ := ht
  refine ⟨⟨r.arriving.headD [] ++ r.arriving.tail.headD [] ++ new, ?_, ?_⟩, ?_, fun m hm => ?_⟩
  · rw [hreceived]
    simp [taken, Receiver.next]
  · obtain ⟨byte, rest, hcons⟩ := List.exists_cons_of_ne_nil h
    have hnext : r.next.next.fifo = r.next.fifo ++ r.arriving.tail.headD [] := rfl
    have hfirst : r.next.fifo = r.fifo ++ r.arriving.headD [] := rfl
    rw [taken, hnext, hcons] at hfifo
    rw [hnext, List.append_assoc, ← List.append_assoc, ← hfirst, hcons]
    simpa using hfifo
  · rw [List.length_cons, ← comeBy_taken h]
    omega
  · cases m with
    | zero =>
      rw [← next_fifo_length]
      exact List.length_pos_of_ne_nil h
    | succ m =>
      have hlt := hready m (by simpa using hm)
      rw [← comeBy_taken h]
      omega

variable {s : SerialPort} {buf : Buffer} {count : ℕ}

lemma onReceiver_empty (h : s.receiver.next.fifo = []) :
    SerialPort.onReceiver readByte s = (.ok none, { s with receiver := s.receiver.next }) := by
  rw [SerialPort.onReceiver, Exec.zoom, readByte_empty h]

lemma onReceiver_ready (h : s.receiver.next.fifo ≠ []) :
    SerialPort.onReceiver readByte s =
      (.ok (some (s.receiver.next.next.fifo.headD 0)),
        { s with receiver := taken s.receiver }) := by
  rw [SerialPort.onReceiver, Exec.zoom, readByte_ready h]

lemma onHeap_ok (h : Heap.HasRoom s.allocated count) :
    SerialPort.onHeap (Heap.take count) s =
      (.ok (), { s with allocated := s.allocated + count }) := by
  rw [SerialPort.onHeap, Exec.zoom, Heap.take_ok h]

lemma onHeap_panic (h : ¬ Heap.HasRoom s.allocated count) :
    (SerialPort.onHeap (Heap.take count) s).1 = .panic := Heap.take_panic h

/-- A vector with room takes a byte as it is, and a full one grows if the heap has room. -/
lemma push_cases (buf : Buffer) (byte : Byte) (s : SerialPort) :
    (∃ capacity allocated, buf.push byte s =
        (.ok ⟨buf.bytes ++ [byte], capacity⟩, { s with allocated }) ∧
        (buf.bytes.length < buf.capacity → capacity = buf.capacity ∧ allocated = s.allocated)) ∨
      (buf.push byte s).1 = .panic := by
  by_cases hlt : buf.bytes.length < buf.capacity
  · refine .inl ⟨buf.capacity, s.allocated, ?_, fun _ => ⟨rfl, rfl⟩⟩
    rw [Buffer.push, if_pos hlt]
    rfl
  · rw [Buffer.push, if_neg hlt]
    by_cases hroom : Heap.HasRoom s.allocated (Buffer.grown buf.capacity)
    · refine .inl ⟨Buffer.grown buf.capacity, s.allocated + Buffer.grown buf.capacity, ?_,
        fun h => absurd h hlt⟩
      rw [Exec.bind_ok (onHeap_ok hroom)]
      rfl
    · rw [Exec.bind_panic (Exec.eq_of_fst (onHeap_panic hroom))]
      exact .inr rfl

/-- **The loop** ends: it takes bytes until the receiver is empty, unless the heap is full. -/
lemma readLoop_cases {n : ℕ} (buf : Buffer) (hn : left s.receiver < n) :
    (∃ bytes buf' s', readLoop n buf s = (.ok buf', s') ∧ buf'.bytes = buf.bytes ++ bytes ∧
        Takes s.receiver bytes s'.receiver) ∨
      (readLoop n buf s).1 = .panic := by
  induction n generalizing s buf with
  | zero => omega
  | succ n ih =>
    by_cases h : s.receiver.next.fifo = []
    · refine .inl ⟨[], buf, { s with receiver := s.receiver.next }, ?_,
        (List.append_nil _).symm, .none h⟩
      rw [readLoop, Exec.bind_ok (onReceiver_empty h)]
      rfl
    · have hleft := left_taken h
      rw [readLoop, Exec.bind_ok (onReceiver_ready h)]
      dsimp only
      rcases push_cases buf (s.receiver.next.next.fifo.headD 0)
          { s with receiver := taken s.receiver } with ⟨capacity, allocated, hpush, -⟩ | hpush
      · rw [Exec.bind_ok hpush]
        obtain ⟨bytes, buf', s', hloop, hbytes, ht⟩ | hpanic :=
          ih (s := ⟨taken s.receiver, allocated⟩)
            ⟨buf.bytes ++ [s.receiver.next.next.fifo.headD 0], capacity⟩ (by dsimp only; omega)
        · refine .inl ⟨_, buf', s', hloop, ?_, ht.cons h⟩
          rw [hbytes, List.append_assoc]
          rfl
        · exact .inr hpanic
      · rw [Exec.bind_panic (Exec.eq_of_fst hpush)]
        exact .inr rfl

/-- Where the receiver comes to be empty within the capacity, the vector does not grow. -/
lemma readLoop_fits {n m : ℕ} (hn : m < n) (hcome : comeBy s.receiver m ≤ m)
    (hroom : buf.bytes.length + m ≤ buf.capacity) :
    ∃ buf' s', readLoop n buf s = (.ok buf', s') := by
  induction n generalizing s buf m with
  | zero => omega
  | succ n ih =>
    by_cases h : s.receiver.next.fifo = []
    · refine ⟨buf, { s with receiver := s.receiver.next }, ?_⟩
      rw [readLoop, Exec.bind_ok (onReceiver_empty h)]
      rfl
    · have hpos := List.length_pos_of_ne_nil h
      rw [next_fifo_length] at hpos
      rcases m with _ | m
      · omega
      have htaken := comeBy_taken h m
      rw [readLoop, Exec.bind_ok (onReceiver_ready h)]
      dsimp only
      rcases push_cases buf (s.receiver.next.next.fifo.headD 0)
          { s with receiver := taken s.receiver } with ⟨capacity, allocated, hpush, hsame⟩ | hpush
      · rw [Exec.bind_ok hpush]
        obtain ⟨rfl, -⟩ := hsame (by omega)
        refine ih (m := m) (by omega) (by dsimp only; omega) ?_
        dsimp only
        rw [List.length_append, List.length_singleton]
        omega
      · rw [Buffer.push, if_pos (by omega)] at hpush
        cases hpush

lemma withCapacity_ok (h : Heap.HasRoom s.allocated count) :
    Buffer.withCapacity count s =
      (.ok ⟨[], count⟩, { s with allocated := s.allocated + count }) := by
  rw [Buffer.withCapacity, Exec.bind_ok (onHeap_ok h)]
  rfl

lemma read_without_room (h : ¬ Heap.HasRoom s.allocated count) : (read count s).1 = .panic := by
  have hcapacity : (Buffer.withCapacity count s).1 = .panic := by
    rw [Buffer.withCapacity, Exec.bind_panic (Exec.eq_of_fst (onHeap_panic h))]
  rw [read, Exec.bind_panic (Exec.eq_of_fst hcapacity)]

/-- `read` takes the bytes that are there, however many are asked for, unless the heap is full. -/
lemma read_cases (count : ℕ) (s : SerialPort) :
    (∃ bytes s', read count s = (.ok bytes, s') ∧ Takes s.receiver bytes s'.receiver) ∨
      (read count s).1 = .panic := by
  by_cases h : Heap.HasRoom s.allocated count
  · rw [read, Exec.bind_ok (withCapacity_ok h), Exec.get_bind]
    rcases readLoop_cases (s := { s with allocated := s.allocated + count }) ⟨[], count⟩
      (Nat.lt_succ_self (left s.receiver)) with ⟨bytes, buf', s', hloop, hbytes, ht⟩ | hpanic
    · refine .inl ⟨bytes, s', ?_, ht⟩
      have heq : buf'.bytes = bytes := hbytes
      rw [Exec.bind_ok hloop, heq]
      rfl
    · rw [Exec.bind_panic (Exec.eq_of_fst hpanic)]
      exact .inr rfl
  · exact .inr (read_without_room h)

/-- At some point within the count the receiver has no more than has been taken. -/
def Drains (r : Receiver) (count : ℕ) : Prop := ∃ m ≤ count, comeBy r m ≤ m

/-- With room for the count, a read that drains the receiver within it returns. -/
lemma read_fits (hroom : Heap.HasRoom s.allocated count) (h : Drains s.receiver count) :
    ∃ bytes s', read count s = (.ok bytes, s') := by
  obtain ⟨m, hm, hcome⟩ := h
  have hall : comeBy s.receiver (left s.receiver) ≤ left s.receiver := comeBy_le_left _ _
  -- the loop has no more rounds than there are bytes
  obtain ⟨k, hk, hkm, hcomek⟩ : ∃ k ≤ left s.receiver, k ≤ m ∧ comeBy s.receiver k ≤ k := by
    rcases Nat.le_total m (left s.receiver) with hle | hle
    · exact ⟨m, hle, Nat.le_refl m, hcome⟩
    · exact ⟨left s.receiver, Nat.le_refl _, hle, hall⟩
  have hempty : (Buffer.mk [] count).bytes.length + k ≤ (Buffer.mk [] count).capacity := by
    dsimp only [List.length_nil]
    omega
  obtain ⟨buf, s', hloop⟩ := readLoop_fits (s := { s with allocated := s.allocated + count })
    (Nat.lt_succ_of_le hk) hcomek hempty
  refine ⟨buf.bytes, s', ?_⟩
  rw [read, Exec.bind_ok (withCapacity_ok hroom), Exec.get_bind]
  exact Exec.bind_ok hloop

/-- The number of bytes taken is the first at which the receiver is empty. -/
lemma Takes.length_le_iff {bytes : List Byte} {r' : Receiver} {count : ℕ} (h : Takes r bytes r') :
    bytes.length ≤ count ↔ Drains r count := by
  constructor
  · exact fun hle => ⟨bytes.length, hle, h.empty⟩
  · rintro ⟨m, hm, hcome⟩
    by_contra hlt
    have hready := h.ready m (by omega)
    omega

end Bcm2837Serial

end Pimento
