import Pimento.Bcm2837Serial
import Pimento.Files
import Pimento.Runs

/-!
Reading a serial device as a file.

A read goes through the open file and the device file system to the driver. Whatever its count and
its position, it takes what the receiver has, and nothing is lost on the way.
-/

namespace Pimento.DeviceReads

open Bcm2837Serial Runs

variable (write : ℕ → List Byte → Exec SerialPort ℕ) (node : Node)

/-- The devices of the kernel: the serial driver, whatever its `write` does. -/
def devices : CharacterDevices SerialPort := ⟨fun _ => Bcm2837Serial.read, write⟩

/-- The node is registered for a device. -/
def Registered (w : Files SerialPort) : Prop :=
  ∃ d k, w.instances[node.fileSystem]? = some (.devfs d) ∧ d.deviceOf node = some k

/-- A call of `read` on an open file of the node. -/
structure Call where
  position : ℕ
  count : ℕ
  /-- The bytes allocated from the heap so far: other code allocates between the calls. -/
  allocated : ℕ
  deriving DecidableEq, Repr

/-- The file systems with the results of the calls so far. -/
structure History where
  world : Files SerialPort
  results : List (List Byte)

/-- The file systems as a call finds them. -/
def found (w : Files SerialPort) (c : Call) : Files SerialPort :=
  { w with devices := { w.devices with allocated := c.allocated } }

/-- What a call does. -/
def perform (s : History) (c : Call) : Outcome (List Byte) × Files SerialPort :=
  Handle.withHandle ⟨node, c.position⟩ (File.read (Files.fileSystem (devices write)) c.count)
    (found s.world c)

/-- A call that returns. -/
def step (s : History) (c : Call) : Option History :=
  match perform write node s c with
  | (.ok buf, w) => some ⟨w, s.results ++ [buf]⟩
  | _ => none

/-- The results are the stream that has come in so far, up to what is still in the receiver. -/
def InOrder (s : History) : Prop :=
  s.results.flatten ++ s.world.devices.receiver.fifo = s.world.devices.receiver.received

/-- The call returns no more bytes than its count, and no byte is lost. -/
def Respects (s : History) (c : Call) : Prop :=
  ∃ buf w, perform write node s c = (.ok buf, w) ∧ buf.length ≤ c.count ∧
    InOrder ⟨w, s.results ++ [buf]⟩

/-- The heap has room for the count, and the receiver comes to be empty within it. -/
def Fits (s : History) (c : Call) : Prop :=
  Heap.HasRoom c.allocated c.count ∧ Drains s.world.devices.receiver c.count

variable {write node} {s t : History} {c : Call} {w : Files SerialPort} {d : SerialPort}
  {bytes : List Byte}

variable (write) in
lemma read_eq (h : Registered node w) (position count : ℕ) :
    (Files.fileSystem (devices write)).read node.fileSystem node position count w =
      ((Bcm2837Serial.read count w.devices).1,
        { w with devices := (Bcm2837Serial.read count w.devices).2 }) := by
  obtain ⟨d, k, hi, hk⟩ := h
  have hread : d.read (devices write) node position count = Bcm2837Serial.read count := by
    rw [Devfs.read, hk]
    rfl
  simp only [Files.fileSystem, Files.call, hi, hread]

lemma alive_of_registered (h : Registered node w) :
    (Files.fileSystem (devices write)).alive node.fileSystem w = true := by
  obtain ⟨d, k, hi, -⟩ := h
  exact decide_eq_true (List.getElem?_eq_some_iff.mp hi).1

/-- What the driver finds. -/
def serial (s : History) (c : Call) : SerialPort :=
  { s.world.devices with allocated := c.allocated }

variable (write) in
lemma perform_ok (h : Registered node s.world)
    (hread : Bcm2837Serial.read c.count (serial s c) = (.ok bytes, d)) :
    perform write node s c = (.ok bytes, { s.world with devices := d }) := by
  have hfound : Registered node (found s.world c) := h
  have hcall := read_eq write hfound c.position c.count
  have hdevices : (found s.world c).devices = serial s c := rfl
  rw [hdevices, hread] at hcall
  rw [perform, Handle.withHandle, File.read_ok (alive_of_registered hfound) hcall]
  rfl

variable (write) in
lemma perform_panics (h : Registered node s.world)
    (hread : (Bcm2837Serial.read c.count (serial s c)).1 = .panic) :
    (perform write node s c).1 = .panic := by
  have hfound : Registered node (found s.world c) := h
  have hcall := read_eq write hfound c.position c.count
  have hdevices : (found s.world c).devices = serial s c := rfl
  rw [hdevices, hread] at hcall
  rw [perform, Handle.withHandle, File.read, Exec.get_bind,
    Exec.bind_ok (Handle.upgrade_eq (alive_of_registered hfound)),
    Exec.bind_panic (Handle.onWorld_eq hcall)]

/-- A call that takes bytes off the receiver loses none. -/
lemma InOrder.takes (h : InOrder s) (ht : Takes s.world.devices.receiver bytes d.receiver) :
    InOrder ⟨{ s.world with devices := d }, s.results ++ [bytes]⟩ := by
  obtain ⟨new, hreceived, hfifo⟩ := ht.stream
  unfold InOrder at h ⊢
  dsimp only
  rw [hreceived, ← h, List.flatten_append, List.append_assoc, List.append_assoc, hfifo]
  simp

/-- The node stays registered and every byte is accounted for. -/
structure Inv (node : Node) (s : History) : Prop where
  registered : Registered node s.world
  inOrder : InOrder s

/-- **Step lemma** -/
lemma Inv.step (h : Inv node s) (hs : DeviceReads.step write node s c = some t) : Inv node t := by
  rcases read_cases c.count (serial s c) with ⟨bytes, d, hread, ht⟩ | hpanic
  · rw [DeviceReads.step, perform_ok write h.registered hread] at hs
    obtain rfl := Option.some.inj hs
    exact ⟨h.registered, h.inOrder.takes ht⟩
  · rw [DeviceReads.step, Exec.eq_of_fst (perform_panics write h.registered hpanic)] at hs
    cases hs

lemma Inv.respects_iff (h : Inv node s) : Respects write node s c ↔ Fits s c := by
  constructor
  · rintro ⟨buf, w, hcall, hle, -⟩
    have hpanic : (Bcm2837Serial.read c.count (serial s c)).1 ≠ .panic := fun hpanic => by
      have hperform := perform_panics write h.registered hpanic
      rw [hcall] at hperform
      cases hperform
    obtain ⟨bytes, d, hread, ht⟩ := (read_cases c.count (serial s c)).resolve_right hpanic
    rw [perform_ok write h.registered hread] at hcall
    obtain ⟨rfl, rfl⟩ : bytes = buf ∧ _ = w := by simpa using hcall
    exact ⟨by_contra fun hroom => hpanic (read_without_room hroom), ht.length_le_iff.mp hle⟩
  · rintro ⟨hroom, hdrains⟩
    obtain ⟨bytes, d, hread⟩ := read_fits (s := serial s c) hroom hdrains
    rcases read_cases c.count (serial s c) with ⟨bytes', d', hread', ht⟩ | hpanic
    · exact ⟨bytes', _, perform_ok write h.registered hread', ht.length_le_iff.mpr hdrains,
        h.inOrder.takes ht⟩
    · rw [hread] at hpanic
      cases hpanic

/-- **Device reads**: after any calls on the node of a serial device, with bytes coming in at any
time and other code allocating from the heap, the results are the stream so far up to what is still
in the receiver; and the next call respects its count exactly when the heap has room for the count
and the receiver comes to be empty within it. -/
theorem reads_respect_iff {w : Files SerialPort} {es : List Call} (hreg : Registered node w)
    (hstart : w.devices.receiver.fifo = w.devices.receiver.received)
    (hrun : Run (step write node) ⟨w, []⟩ es s) (c : Call) :
    InOrder s ∧ (Respects write node s c ↔ Fits s c) := by
  have hinv : Inv node s :=
    hrun.invariant (fun _ _ _ h hs => h.step hs) ⟨hreg, hstart⟩
  exact ⟨hinv.inOrder, hinv.respects_iff⟩

/-- The serial device is registered in a device file system. -/
def serialFiles (r : Receiver) : Files SerialPort :=
  Files.registerCharacterDevice 1 "ttyS0" 0 ⟨[.tmpfs (.new 0), .devfs (.new 1)], ⟨r, 0⟩⟩

def serialNode : Node := ⟨1, 1, .characterDevice⟩

lemma registered_serialNode (r : Receiver) : Registered serialNode (serialFiles r) :=
  ⟨_, 0, rfl, by decide +kernel⟩

/-- Writing is not used here. -/
def noWrite : ℕ → List Byte → Exec SerialPort ℕ := fun _ _ => .err

/-- A byte is there, one comes in while it is read, and one more before the receiver is found
empty. -/
def coming : History := ⟨serialFiles (.start [1] [[], [2], [], [], [3]]), []⟩

theorem reads_respect_coming :
    InOrder (reach (step noWrite serialNode) coming [⟨0, 3, 4096⟩]) ∧
      (reach (step noWrite serialNode) coming [⟨0, 3, 4096⟩]).results = [[1, 2, 3]] ∧
      Respects noWrite serialNode coming ⟨0, 3, 4096⟩ := by
  have hrun : Run (step noWrite serialNode) coming [⟨0, 3, 4096⟩]
      (reach (step noWrite serialNode) coming [⟨0, 3, 4096⟩]) := run_reach (by decide +kernel)
  have hafter := reads_respect_iff (registered_serialNode _) rfl hrun ⟨3, 1, 4099⟩
  have hbefore : InOrder coming ∧
      (Respects noWrite serialNode coming ⟨0, 3, 4096⟩ ↔ Fits coming ⟨0, 3, 4096⟩) :=
    reads_respect_iff (registered_serialNode _) rfl (.nil coming) ⟨0, 3, 4096⟩
  exact ⟨hafter.1, by decide +kernel,
    hbefore.2.mpr ⟨by decide, 3, Nat.le_refl 3, by decide +kernel⟩⟩

/-- Three bytes are in the receiver. -/
def waiting : History := ⟨serialFiles (.start [1, 2, 3] []), []⟩

/-- A read of one byte returns all three. -/
theorem read_exceeds_count :
    (perform noWrite serialNode waiting ⟨0, 1, 4096⟩).1 = .ok [1, 2, 3] ∧
      ¬ Respects noWrite serialNode waiting ⟨0, 1, 4096⟩ := by
  have hread : (perform noWrite serialNode waiting ⟨0, 1, 4096⟩).1 = .ok [1, 2, 3] := by
    decide +kernel
  refine ⟨hread, ?_⟩
  rintro ⟨buf, w, hcall, hle, -⟩
  rw [hcall] at hread
  obtain rfl : buf = [1, 2, 3] := by simpa using hread
  exact absurd hle (by decide)

end Pimento.DeviceReads
