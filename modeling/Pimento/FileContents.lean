import Pimento.Elf
import Pimento.Files

/-!
Files whose contents stay the same while they are read.

A file system serves a file when its reads return the bytes of the file. An open file of such
a file system can be read anywhere, and a temporary file system serves each of its files.
-/

namespace Pimento

/-- In every world of `I` the file system reads the file at `node` as `bytes`, and stays in
`I`. -/
structure Serves {W : Type} (fs : FileSystem W) (node : Node) (bytes : List Byte)
    (I : W → Prop) : Prop where
  alive : ∀ {w}, I w → fs.alive node.fileSystem w = true
  seek : ∀ {w}, I w → ∀ p, ∃ w', fs.seek node.fileSystem node p w = (.ok (), w') ∧ I w'
  read : ∀ {w}, I w → ∀ p n, p + n ≤ bytes.length → ∃ w',
    fs.read node.fileSystem node p n w = (.ok ((bytes.drop p).take n), w') ∧ I w'
  keeps : ∀ {w}, I w → ∀ p n, I (fs.read node.fileSystem node p n w).2

namespace Serves

variable {W : Type} {fs : FileSystem W} {node : Node} {bytes : List Byte} {I : W → Prop}
  (h : Serves fs node bytes I) {s : Handle W File}
include h

lemma file_seek (hI : I s.world) (hn : s.handle.node = node) (p : ℕ) :
    ∃ w', File.seek fs p s = (.ok (), ⟨w', ⟨node, p⟩⟩) ∧ I w' := by
  obtain ⟨w', hseek, hI'⟩ := h.seek hI p
  subst hn
  exact ⟨w', File.seek_ok (h.alive hI) hseek, hI'⟩

lemma file_read (hI : I s.world) (hn : s.handle.node = node) (n : ℕ)
    (hle : s.handle.position + n ≤ bytes.length) :
    ∃ w', File.read fs n s = (.ok ((bytes.drop s.handle.position).take n),
      ⟨w', ⟨node, s.handle.position + n⟩⟩) ∧ I w' := by
  obtain ⟨w', hread, hI'⟩ := h.read hI s.handle.position n hle
  have hlen : ((bytes.drop s.handle.position).take n).length = n := by
    rw [List.length_take, List.length_drop]
    omega
  subst hn
  have hok := File.read_ok (h.alive hI) hread
  rw [hlen] at hok
  exact ⟨w', hok, hI'⟩

/-- However a read ends, the file is still served. -/
lemma keeps_read (n : ℕ) :
    Exec.Keeps (fun s => I s.world ∧ s.handle.node = node) (File.read fs n) := by
  rintro s ⟨hI, hn⟩
  have hk := h.keeps hI s.handle.position n
  subst hn
  rw [File.read, Exec.get_bind, Exec.bind_ok (Handle.upgrade_eq (h.alive hI)), Exec.bind_apply,
    Handle.onWorld, Exec.zoom]
  rcases hr : fs.read s.handle.node.fileSystem s.handle.node s.handle.position n s.world with
    ⟨_ | _ | _ | _, w'⟩ <;> rw [hr] at hk <;> exact ⟨hk, rfl⟩

lemma keeps_seek (p : ℕ) :
    Exec.Keeps (fun s => I s.world ∧ s.handle.node = node) (File.seek fs p) := by
  rintro s ⟨hI, hn⟩
  obtain ⟨w', hseek, hI'⟩ := h.file_seek hI hn p
  rw [hseek]
  exact ⟨hI', rfl⟩

lemma keeps_readProgramHeaders : ∀ n,
    Exec.Keeps (fun s => I s.world ∧ s.handle.node = node) (Elf64Reader.readProgramHeaders fs n)
  | 0 => Exec.keeps_pure _
  | n + 1 => (h.keeps_read _).bind fun _ => (Exec.keeps_okOr _).bind fun _ =>
      (keeps_readProgramHeaders n).bind fun _ => Exec.keeps_pure _

/-- Whatever the reader is told, the file is still served. -/
lemma keeps_new :
    Exec.Keeps (fun s => I s.world ∧ s.handle.node = node) (Elf64Reader.new fs) :=
  (h.keeps_read _).bind fun _ => (Exec.keeps_okOr _).bind fun _ => (Exec.keeps_guard _).bind
    fun _ => (Exec.keeps_guard _).bind fun _ => (h.keeps_seek _).bind fun _ =>
      (h.keeps_readProgramHeaders _).bind fun _ => Exec.keeps_pure _

open LoadablePages in
/-- A chunk of the file, within its contents. -/
lemma next_chunk (hI : I s.world) (hn : s.handle.node = node) {reader : Elf64Reader}
    {pages pages' : LoadablePages} {fileRange memoryRange : Range}
    (hr : nextRange pages (reader.programHeaders.drop pages.programHeaderIndex) =
      (some (fileRange, memoryRange), pages'))
    (hle : fileRange.start + fileRange.len ≤ bytes.length) :
    ∃ s', next fs reader pages s =
      (.ok (some ⟨memoryRange.start,
          resize ((bytes.drop fileRange.start).take fileRange.len) memoryRange.len⟩,
        { pages' with pageIndex := pages'.pageIndex + 1 }), s') ∧
      I s'.world ∧ s'.handle.node = node := by
  obtain ⟨w₁, hseek, hI₁⟩ := h.file_seek hI hn fileRange.start
  obtain ⟨w₂, hread, hI₂⟩ := h.file_read (s := ⟨w₁, ⟨node, fileRange.start⟩⟩) hI₁ rfl fileRange.len
    hle
  refine ⟨⟨w₂, ⟨node, fileRange.start + fileRange.len⟩⟩, ?_, hI₂, rfl⟩
  rw [next, hr]
  exact (Exec.bind_ok (Exec.ok_of_ok hseek)).trans (Exec.bind_ok (Exec.ok_of_ok hread))

end Serves

/-- The contents of a file of a temporary file system. -/
def Files.contents {D : Type} (w : Files D) (node : Node) : Option (List Byte) :=
  match w.instances[node.fileSystem]? with
  | some (.tmpfs t) => t.files[node.nodeId]?
  | _ => none

/-- A file with contents belongs to a temporary file system. -/
lemma Files.tmpfs_of_contents {D : Type} {w : Files D} {node : Node} {bytes : List Byte}
    (hc : w.contents node = some bytes) :
    ∃ t, w.instances[node.fileSystem]? = some (.tmpfs t) ∧
      t.files[node.nodeId]? = some bytes := by
  unfold Files.contents at hc
  rcases hi : w.instances[node.fileSystem]? with _ | t | d
  · simp [hi] at hc
  · exact ⟨t, rfl, by simpa [hi] using hc⟩
  · simp [hi] at hc

/-- A temporary file system serves its files. -/
lemma Files.serves {D : Type} (devices : CharacterDevices D) {w : Files D} {node : Node}
    {bytes : List Byte} (hc : w.contents node = some bytes) (hlen : bytes.length < 2 ^ 64) :
    Serves (Files.fileSystem devices) node bytes (· = w) := by
  obtain ⟨t, hi, hf⟩ := Files.tmpfs_of_contents hc
  have hread : ∀ p n, (Files.fileSystem devices).read node.fileSystem node p n w =
      ((Tmpfs.read node p n t).1, w) := fun p n => by
    refine Files.call_same hi ?_ (by simp)
    rintro t' h
    cases h
    exact Prod.ext rfl (Tmpfs.read_same node p n t)
  refine ⟨?_, ?_, ?_, ?_⟩
  · rintro w' rfl
    exact decide_eq_true (List.getElem?_eq_some_iff.mp hi).1
  · rintro w' rfl p
    refine ⟨w', Files.call_same hi (fun _ _ => rfl) (by simp), rfl⟩
  · rintro w' rfl p n hle
    refine ⟨w', ?_, rfl⟩
    rw [hread, Tmpfs.read_of_some hf (by omega) (by omega), Nat.min_eq_left hle, List.drop_take,
      Nat.add_sub_cancel_left]
  · rintro w' rfl p n
    exact congrArg Prod.snd (hread p n)

end Pimento
