import Pimento.FileHandles
import Pimento.Runs

/-!
Reads of a file of a temporary file system, at any position and of any length.

The clamp at the end of the file moves the end of the range only. A range that starts behind the
end of the file, or whose end has wrapped, is no range of the bytes.
-/

namespace Pimento

namespace Tmpfs

variable {t : Tmpfs} {file : Node} {bytes buf : List Byte} {position count : ℕ}

/-- A read that starts behind the end of the file, or whose end wraps. -/
lemma read_outside (h : t.files[file.nodeId]? = some bytes) (hp : position < 2 ^ 64)
    (hc : count < 2 ^ 64) (hout : ¬ (position ≤ bytes.length ∧ position + count < 2 ^ 64)) :
    Tmpfs.read file position count t = (.panic, t) := by
  have hstop : min (rangeEnd position count) bytes.length < position := by
    unfold rangeEnd
    omega
  rw [Tmpfs.read, Exec.get_bind, h]
  simp only [Exec.okOr_some, Exec.pure_bind]
  rw [if_pos hstop]
  rfl

lemma write_outside (h : t.files[file.nodeId]? = some bytes) (hp : position < 2 ^ 64)
    (hb : buf.length < 2 ^ 64) (hout : 2 ^ 64 ≤ position + buf.length) :
    (Tmpfs.write file position buf t).1 = .panic := by
  have hstop : rangeEnd position buf.length < position := by
    unfold rangeEnd
    omega
  rw [Tmpfs.write, Exec.get_bind, h]
  simp only [Exec.okOr_some, Exec.pure_bind, Exec.modify_bind]
  rw [if_pos hstop]
  rfl

end Tmpfs

namespace File

variable {D : Type} {devices : CharacterDevices D} {w : Files D} {file : File}
  {bytes : List Byte}

variable (devices) (hf : w.contents file.node = some bytes)
include hf

lemma alive_of_contents :
    (Files.fileSystem devices).alive file.node.fileSystem w = true := by
  obtain ⟨t, hi, -⟩ := Files.tmpfs_of_contents hf
  exact decide_eq_true (List.getElem?_eq_some_iff.mp hi).1

lemma seek_eq (position : ℕ) :
    File.seek (Files.fileSystem devices) position ⟨w, file⟩ =
      (.ok (), ⟨w, { file with position }⟩) := by
  obtain ⟨t, hi, -⟩ := Files.tmpfs_of_contents hf
  exact seek_ok (alive_of_contents devices hf) (Files.call_same hi (fun _ _ => rfl) (by simp))

lemma read_inside {count : ℕ} (hp : file.position ≤ bytes.length)
    (hlt : file.position + count < 2 ^ 64) :
    File.read (Files.fileSystem devices) count ⟨w, file⟩ =
      (.ok ((bytes.take (min (file.position + count) bytes.length)).drop file.position),
        ⟨w, { file with position := min (file.position + count) bytes.length }⟩) := by
  obtain ⟨t, hi, ht⟩ := Files.tmpfs_of_contents hf
  have hread : (Files.fileSystem devices).read file.node.fileSystem file.node file.position count
      w = (.ok ((bytes.take (min (file.position + count) bytes.length)).drop file.position), w) :=
    Files.call_same hi (by simpa using Tmpfs.read_of_some ht hp hlt) (by simp)
  have hlen : file.position +
      ((bytes.take (min (file.position + count) bytes.length)).drop file.position).length =
        min (file.position + count) bytes.length := by
    rw [List.length_drop, List.length_take]
    omega
  rw [read_ok (alive_of_contents devices hf) hread, hlen]

/-- Any other read ends the kernel. -/
lemma read_outside {count : ℕ} (hpos : file.position < 2 ^ 64) (hc : count < 2 ^ 64)
    (hout : ¬ (file.position ≤ bytes.length ∧ file.position + count < 2 ^ 64)) :
    (File.read (Files.fileSystem devices) count ⟨w, file⟩).1 = .panic := by
  obtain ⟨t, hi, ht⟩ := Files.tmpfs_of_contents hf
  have hread : (Files.fileSystem devices).read file.node.fileSystem file.node file.position count
      w = (.panic, w) :=
    Files.call_same hi (by simpa using Tmpfs.read_outside ht hpos hc hout) (by simp)
  rw [File.read, Exec.get_bind, Exec.bind_ok (Handle.upgrade_eq (alive_of_contents devices hf)),
    Exec.bind_panic (Handle.onWorld_eq hread)]

lemma write_inside {buf : List Byte} (hlt : file.position + buf.length < 2 ^ 64) :
    ∃ w', File.write (Files.fileSystem devices) buf ⟨w, file⟩ =
        (.ok buf.length, ⟨w', { file with position := file.position + buf.length }⟩) ∧
      w'.contents file.node = some (overwrite 0 bytes file.position buf) := by
  obtain ⟨t, hi, ht⟩ := Files.tmpfs_of_contents hf
  obtain ⟨files, hw, hfiles⟩ := Tmpfs.write_of_some ht hlt
  refine ⟨_, write_ok (alive_of_contents devices hf) (FileHandles.call_tmpfs hi hw), ?_⟩
  rw [FileHandles.contents_set hi, if_pos rfl]
  exact (hfiles _).trans (if_pos rfl)

lemma write_outside {buf : List Byte} (hpos : file.position < 2 ^ 64) (hb : buf.length < 2 ^ 64)
    (hout : 2 ^ 64 ≤ file.position + buf.length) :
    (File.write (Files.fileSystem devices) buf ⟨w, file⟩).1 = .panic := by
  obtain ⟨t, hi, ht⟩ := Files.tmpfs_of_contents hf
  have hwrite : (Files.fileSystem devices).write file.node.fileSystem file.node file.position buf
      w = (.panic, _) :=
    FileHandles.call_tmpfs hi (Exec.eq_of_fst (Tmpfs.write_outside ht hpos hb hout))
  rw [File.write, Exec.get_bind, Exec.bind_ok (Handle.upgrade_eq (alive_of_contents devices hf)),
    Exec.bind_panic (Handle.onWorld_eq hwrite)]

end File

namespace FileReads

open FileHandles Runs

variable {D : Type} {devices : CharacterDevices D} {s t : Handle (Files D) File}
  {c : FileCall} {count : ℕ}

/-- Positions and counts are numbers of 64 bits, and so are the lengths of buffers. -/
def Fits : FileCall → Prop
  | .seek position => position < 2 ^ 64
  | .read count => count < 2 ^ 64
  | .write buf => buf.length < 2 ^ 64

instance : DecidablePred Fits
  | .seek position => inferInstanceAs (Decidable (position < 2 ^ 64))
  | .read count => inferInstanceAs (Decidable (count < 2 ^ 64))
  | .write buf => inferInstanceAs (Decidable (buf.length < 2 ^ 64))

/-- A call on the open file. The kernel goes on when it returns, be it with an error. -/
def step (devices : CharacterDevices D) (s : Handle (Files D) File) (c : FileCall) :
    Option (Handle (Files D) File) :=
  match c.perform (Files.fileSystem devices) s with
  | (.ok (), t) => some t
  | (.err, t) => some t
  | _ => none

/-- A file of a temporary file system is open. -/
structure Opened (s : Handle (Files D) File) : Prop where
  position : s.handle.position < 2 ^ 64
  contents : ∃ bytes, s.world.contents s.handle.node = some bytes

/-- The read returns the bytes from the position up to the count, as far as there are any. -/
def Exact (devices : CharacterDevices D) (s : Handle (Files D) File) (count : ℕ) : Prop :=
  ∃ bytes, s.world.contents s.handle.node = some bytes ∧
    (File.read (Files.fileSystem devices) count s).1 =
      .ok ((bytes.take (min (s.handle.position + count) bytes.length)).drop s.handle.position)

/-- The position is not behind the end of the file, and the end of the range does not wrap. -/
def Within (s : Handle (Files D) File) (count : ℕ) : Prop :=
  ∃ bytes, s.world.contents s.handle.node = some bytes ∧
    s.handle.position ≤ bytes.length ∧ s.handle.position + count < 2 ^ 64

/-- **Step lemma**: the file stays open, whatever is done with it. -/
lemma Opened.step (h : Opened s) (hc : Fits c) (hs : FileReads.step devices s c = some t) :
    Opened t := by
  obtain ⟨w, file⟩ := s
  obtain ⟨hpos, bytes, hf⟩ := h
  cases c with
  | seek position =>
    have hseek := File.seek_eq devices hf position
    rw [FileReads.step, FileCall.perform, hseek] at hs
    obtain rfl := Option.some.inj hs
    exact ⟨hc, bytes, hf⟩
  | read count =>
    by_cases hin : file.position ≤ bytes.length ∧ file.position + count < 2 ^ 64
    · have hread := File.read_inside devices hf hin.1 hin.2
      rw [FileReads.step, FileCall.perform, Exec.bind_ok hread] at hs
      obtain rfl := Option.some.inj hs
      exact ⟨(Nat.min_le_left _ _).trans_lt hin.2, bytes, hf⟩
    · have hread := Exec.eq_of_fst (File.read_outside devices hf hpos hc hin)
      rw [FileReads.step, FileCall.perform, Exec.bind_panic hread] at hs
      cases hs
  | write buf =>
    by_cases hin : file.position + buf.length < 2 ^ 64
    · obtain ⟨w', hwrite, hf'⟩ := File.write_inside devices hf hin
      rw [FileReads.step, FileCall.perform, Exec.bind_ok hwrite] at hs
      obtain rfl := Option.some.inj hs
      exact ⟨hin, _, hf'⟩
    · have hwrite := Exec.eq_of_fst (File.write_outside devices hf hpos hc (Nat.not_lt.mp hin))
      rw [FileReads.step, FileCall.perform, Exec.bind_panic hwrite] at hs
      cases hs

/-- A read returns what it should exactly where it is within the file; else the kernel panics. -/
lemma Opened.exact_iff (h : Opened s) (hc : count < 2 ^ 64) :
    Exact devices s count ↔ Within s count := by
  obtain ⟨w, file⟩ := s
  obtain ⟨hpos, bytes, hf⟩ := h
  constructor
  · rintro ⟨bytes, hf, hread⟩
    by_contra hout
    have hpanic := File.read_outside devices hf hpos hc fun hin => hout ⟨bytes, hf, hin⟩
    rw [hread] at hpanic
    cases hpanic
  · rintro ⟨bytes, hf, hle, hlt⟩
    exact ⟨bytes, hf, congrArg Prod.fst (File.read_inside devices hf hle hlt)⟩

/-- **Exact reads**: after any calls on an open file of a temporary file system, a read of any
length returns the bytes from the position on, or nothing at the end of the file, exactly when the
position is not behind the end and the end of the range does not wrap. -/
theorem read_exact_iff {es : List FileCall} (hs : Opened s) (hes : ∀ c ∈ es, Fits c)
    (hrun : Run (step devices) s es t) (hc : count < 2 ^ 64) :
    Exact devices t count ↔ Within t count := by
  have hopened : Opened t := by
    refine hrun.invariant_log (I := fun es t => (∀ c ∈ es, Fits c) → Opened t) ?_ (fun _ => hs) hes
    intro es s c t hi hst hes
    exact (hi fun c hm => hes c (List.mem_append_left _ hm)).step
      (hes c (List.mem_append_right _ (List.mem_singleton_self c))) hst
  exact hopened.exact_iff hc

open Walk (noDevices)

/-- A new file on the root file system. -/
def newFile : Handle (Files Unit) File := ⟨openedTwice.world, .new ⟨0, 1, .file⟩⟩

def seekInside : List FileCall := [.write [1, 2], .seek 1]

theorem read_exact_iff_inside :
    Exact noDevices (reach (step noDevices) newFile seekInside) 5 ↔
      Within (reach (step noDevices) newFile seekInside) 5 := by
  have hrun : Run (step noDevices) newFile seekInside (reach (step noDevices) newFile seekInside) :=
    run_reach (by decide +kernel)
  exact read_exact_iff ⟨by decide, [], by decide +kernel⟩ (by decide) hrun (by decide)

/-- The position is behind the end of two bytes, or the count takes the end of the range around. -/
theorem read_panics :
    (File.read (Files.fileSystem noDevices) 1
      (reach (step noDevices) newFile [.write [1, 2], .seek 3])).1 = .panic ∧
    (File.read (Files.fileSystem noDevices) (2 ^ 64 - 1)
      (reach (step noDevices) newFile [.write [1, 2], .seek 1])).1 = .panic ∧
    ¬ Exact noDevices (reach (step noDevices) newFile [.write [1, 2], .seek 3]) 1 := by
  have hpanic : (File.read (Files.fileSystem noDevices) 1
      (reach (step noDevices) newFile [.write [1, 2], .seek 3])).1 = .panic := by decide +kernel
  refine ⟨hpanic, by decide +kernel, ?_⟩
  rintro ⟨bytes, -, hread⟩
  rw [hread] at hpanic
  cases hpanic

end FileReads

end Pimento
