import Pimento.FileReads
import Pimento.ProgramImage

/-!
The files that the ELF reader takes.

What it takes is said by the header alone: it names a table of program headers, which has to be
in the file. The reader finds out by seeking and reading, so the reads have to end in an error
where the table leaves the file.
-/

namespace Pimento.ElfGrammar

open Elf64Reader (readProgramHeaders)

/-- The bytes are a file with this header. -/
structure Grammar (bytes : List Byte) (h : Elf64Header) : Prop where
  length : Elf64Header.size ≤ bytes.length
  header : Elf64Header.tryFrom (bytes.take Elf64Header.size) = some h
  valid : h.isValid = true
  aarch64 : h.isAarch64 = true
  table : h.programHeaderEntryCount = 0 ∨
    h.programHeaderOffset + Elf64ProgramHeader.size * h.programHeaderEntryCount ≤ bytes.length

/-- The program header at an offset of the file. -/
def programHeaderAt (bytes : List Byte) (offset : ℕ) : Option Elf64ProgramHeader :=
  Elf64ProgramHeader.tryFrom ((bytes.drop offset).take Elf64ProgramHeader.size)

/-- The reader has the program headers of the table. -/
structure Decodes (bytes : List Byte) (h : Elf64Header) (reader : Elf64Reader) : Prop where
  header : reader.header = h
  length : reader.programHeaders.length = h.programHeaderEntryCount
  entry : ∀ i < h.programHeaderEntryCount, reader.programHeaders[i]? =
    programHeaderAt bytes (h.programHeaderOffset + Elf64ProgramHeader.size * i)

/-- The result is a reader for a file of the grammar, and an error for any other one. -/
structure Parses (bytes : List Byte) (r : Outcome Elf64Reader) : Prop where
  accepts : ∀ h, Grammar bytes h → ∃ reader, r = .ok reader ∧ Decodes bytes h reader
  rejects : (¬ ∃ h, Grammar bytes h) → r = .err

/-- A table that is read at all does not start behind the end of the file. -/
def TableStarts (bytes : List Byte) : Prop :=
  ∀ h, Elf64Header.tryFrom (bytes.take Elf64Header.size) = some h → h.isValid = true →
    h.isAarch64 = true → h.programHeaderEntryCount ≠ 0 → h.programHeaderOffset ≤ bytes.length

lemma slice_eq (bytes : List Byte) (p n : ℕ) :
    (bytes.take (min (p + n) bytes.length)).drop p = (bytes.drop p).take n := by
  rw [List.drop_take, List.take_eq_take_iff, List.length_drop]
  omega

lemma header_length {bytes : List Byte} {h : Elf64Header}
    (hh : Elf64Header.tryFrom (bytes.take Elf64Header.size) = some h) :
    Elf64Header.size ≤ bytes.length := by
  unfold Elf64Header.tryFrom at hh
  split at hh
  · rename_i hle
    exact hle.trans (List.length_take_le' _ _)
  · cases hh

lemma offset_lt {value : List Byte} {h : Elf64Header} (hh : Elf64Header.tryFrom value = some h) :
    h.programHeaderOffset < 2 ^ 64 := by
  unfold Elf64Header.tryFrom at hh
  split at hh
  · cases hh
    exact field_lt 32 8
  · cases hh

section Entries

variable {bytes : List Byte} {p : ℕ}

lemma programHeaderAt_of_le (hle : p + Elf64ProgramHeader.size ≤ bytes.length) :
    ∃ h, programHeaderAt bytes p = some h := by
  have hlen : Elf64ProgramHeader.size ≤
      ((bytes.drop p).take Elf64ProgramHeader.size).length := by
    rw [List.length_take, List.length_drop]
    omega
  exact ⟨_, if_pos hlen⟩

lemma programHeaderAt_of_lt (hlt : bytes.length < p + Elf64ProgramHeader.size) :
    Elf64ProgramHeader.tryFrom ((bytes.drop p).take Elf64ProgramHeader.size) = none := by
  have hlen : ¬ Elf64ProgramHeader.size ≤
      ((bytes.drop p).take Elf64ProgramHeader.size).length := by
    rw [List.length_take, List.length_drop, Elf64ProgramHeader.size]
    rw [Elf64ProgramHeader.size] at hlt
    omega
  exact if_neg hlen

end Entries

section Table

variable {D : Type} (devices : CharacterDevices D) {w : Files D} {node : Node}
  {bytes : List Byte} (hf : w.contents node = some bytes)
include hf

lemma table_behind {n p : ℕ} (hn : n ≠ 0) (hp : bytes.length < p) (hlt : p < 2 ^ 64) :
    (readProgramHeaders (Files.fileSystem devices) n ⟨w, ⟨node, p⟩⟩).1 = .panic := by
  obtain ⟨n, rfl⟩ := Nat.exists_eq_succ_of_ne_zero hn
  have hread : (File.read (Files.fileSystem devices) Elf64ProgramHeader.size
      ⟨w, ⟨node, p⟩⟩).1 = .panic :=
    File.read_outside devices hf hlt (by decide) fun hin => absurd hin.1 (Nat.not_le.mpr hp)
  rw [readProgramHeaders, Exec.bind_panic (Exec.eq_of_fst hread)]

variable (hlen : bytes.length < 2 ^ 63)
include hlen

/-- A read within the file, of a program header or of what there is of it. -/
lemma read_entry {p : ℕ} (hp : p ≤ bytes.length) :
    File.read (Files.fileSystem devices) Elf64ProgramHeader.size ⟨w, ⟨node, p⟩⟩ =
      (.ok ((bytes.drop p).take Elf64ProgramHeader.size),
        ⟨w, ⟨node, min (p + Elf64ProgramHeader.size) bytes.length⟩⟩) := by
  have hread : File.read (Files.fileSystem devices) Elf64ProgramHeader.size ⟨w, ⟨node, p⟩⟩ =
      (.ok ((bytes.take (min (p + Elf64ProgramHeader.size) bytes.length)).drop p),
        ⟨w, ⟨node, min (p + Elf64ProgramHeader.size) bytes.length⟩⟩) :=
    File.read_inside devices hf hp (show p + 56 < 2 ^ 64 by omega)
  rwa [slice_eq] at hread

lemma table_inside (n p : ℕ) (hle : p + Elf64ProgramHeader.size * n ≤ bytes.length) :
    ∃ hs t, readProgramHeaders (Files.fileSystem devices) n ⟨w, ⟨node, p⟩⟩ = (.ok hs, t) ∧
      hs.length = n ∧
        ∀ i < n, hs[i]? = programHeaderAt bytes (p + Elf64ProgramHeader.size * i) := by
  induction n generalizing p with
  | zero => exact ⟨[], _, rfl, rfl, fun i hi => absurd hi (Nat.not_lt_zero i)⟩
  | succ n ih =>
    rw [Nat.mul_succ] at hle
    have hread := read_entry devices hf hlen (p := p) (by omega)
    rw [Nat.min_eq_left (by omega)] at hread
    obtain ⟨hs, t, hrest, hlength, hentry⟩ := ih (p + Elf64ProgramHeader.size) (by omega)
    obtain ⟨h, hh⟩ := programHeaderAt_of_le
      (show p + Elf64ProgramHeader.size ≤ bytes.length by omega)
    refine ⟨h :: hs, t, ?_, congrArg (· + 1) hlength, fun i hi => ?_⟩
    · rw [readProgramHeaders, Exec.bind_ok hread,
        show Elf64ProgramHeader.tryFrom _ = some h from hh,
        Exec.okOr_some, Exec.pure_bind, Exec.bind_ok hrest]
      rfl
    · cases i with
      | zero => exact hh.symm
      | succ i =>
        rw [List.getElem?_cons_succ, hentry i (by omega), Nat.mul_succ]
        congr 1
        omega

lemma table_short (n p : ℕ) (hp : p ≤ bytes.length)
    (hlt : bytes.length < p + Elf64ProgramHeader.size * n) :
    (readProgramHeaders (Files.fileSystem devices) n ⟨w, ⟨node, p⟩⟩).1 = .err := by
  induction n generalizing p with
  | zero => omega
  | succ n ih =>
    have hread := read_entry devices hf hlen hp
    rw [Nat.mul_succ] at hlt
    rw [readProgramHeaders, Exec.bind_ok hread]
    by_cases hle : p + Elf64ProgramHeader.size ≤ bytes.length
    · -- the entry is there, and one behind it is not
      have hrest := Exec.eq_of_fst (ih (p + Elf64ProgramHeader.size) hle (by omega))
      obtain ⟨h, hh⟩ := programHeaderAt_of_le hle
      rw [show Elf64ProgramHeader.tryFrom _ = some h from hh, Exec.okOr_some, Exec.pure_bind,
        Nat.min_eq_left hle, Exec.bind_err hrest]
    · rw [programHeaderAt_of_lt (Nat.not_le.mp hle), Exec.okOr_none, Exec.err_bind]
      rfl

end Table

/-! ### The reader -/

variable {D : Type} (devices : CharacterDevices D) {w : Files D} {node : Node}
  {bytes : List Byte} {h : Elf64Header}

/-- The header is read first. -/
lemma new_read (hf : w.contents node = some bytes) :
    File.read (Files.fileSystem devices) Elf64Header.size ⟨w, .new node⟩ =
      (.ok (bytes.take Elf64Header.size),
        ⟨w, ⟨node, min (0 + Elf64Header.size) bytes.length⟩⟩) := by
  have hread : File.read (Files.fileSystem devices) Elf64Header.size ⟨w, .new node⟩ =
      (.ok ((bytes.take (min (0 + Elf64Header.size) bytes.length)).drop 0),
        ⟨w, ⟨node, min (0 + Elf64Header.size) bytes.length⟩⟩) :=
    File.read_inside devices hf (Nat.zero_le _) (show 0 + 64 < 2 ^ 64 by decide)
  rwa [slice_eq, List.drop_zero] at hread

/-- A file that has no header, or not one of these. -/
lemma new_err (hf : w.contents node = some bytes)
    (hno : ∀ h, Elf64Header.tryFrom (bytes.take Elf64Header.size) = some h →
      ¬ (h.isValid = true ∧ h.isAarch64 = true)) :
    (Elf64Reader.new (Files.fileSystem devices) ⟨w, .new node⟩).1 = .err := by
  rw [Elf64Reader.new, Exec.bind_ok (new_read devices hf)]
  rcases hh : Elf64Header.tryFrom (bytes.take Elf64Header.size) with _ | h
  · rw [Exec.okOr_none, Exec.err_bind]
    rfl
  · have hnot := hno h hh
    rw [Exec.okOr_some, Exec.pure_bind, Exec.guard_bind]
    by_cases hv : h.isValid = true
    · rw [if_pos hv, Exec.guard_bind, if_neg fun ha => hnot ⟨hv, ha⟩]
    · rw [if_neg hv]

/-- With a header of these, what the call returns is decided by the table. -/
lemma new_table (hf : w.contents node = some bytes)
    (hh : Elf64Header.tryFrom (bytes.take Elf64Header.size) = some h)
    (hv : h.isValid = true) (ha : h.isAarch64 = true) :
    Elf64Reader.new (Files.fileSystem devices) ⟨w, .new node⟩ =
      (do
        let programHeaders ←
          readProgramHeaders (Files.fileSystem devices) h.programHeaderEntryCount
        return ⟨h, programHeaders⟩ : Exec (Handle (Files D) File) Elf64Reader)
      ⟨w, ⟨node, h.programHeaderOffset⟩⟩ := by
  have hseek : File.seek (Files.fileSystem devices) h.programHeaderOffset
      ⟨w, ⟨node, min (0 + Elf64Header.size) bytes.length⟩⟩ =
        (.ok (), ⟨w, ⟨node, h.programHeaderOffset⟩⟩) := File.seek_eq devices hf _
  rw [Elf64Reader.new, Exec.bind_ok (new_read devices hf), hh, Exec.okOr_some, Exec.pure_bind,
    Exec.guard_bind, if_pos hv, Exec.guard_bind, if_pos ha, Exec.bind_ok hseek]

/-- Without a table in the file there is no such header. -/
lemma not_grammar (hh : Elf64Header.tryFrom (bytes.take Elf64Header.size) = some h)
    (hn : h.programHeaderEntryCount ≠ 0)
    (hout : bytes.length < h.programHeaderOffset +
      Elf64ProgramHeader.size * h.programHeaderEntryCount) : ¬ ∃ h, Grammar bytes h := by
  rintro ⟨h', hg⟩
  obtain rfl : h' = h := Option.some.inj (hg.header.symm.trans hh)
  rcases hg.table with hz | hle
  · exact hn hz
  · omega

/-- What the reader returns for a table in the file. -/
lemma parses_ok {hs : List Elf64ProgramHeader}
    (hh : Elf64Header.tryFrom (bytes.take Elf64Header.size) = some h)
    (hdecodes : Decodes bytes h ⟨h, hs⟩) (hg : Grammar bytes h) : Parses bytes (.ok ⟨h, hs⟩) := by
  refine ⟨fun h' hg' => ?_, fun hno => absurd ⟨h, hg⟩ hno⟩
  obtain rfl : h' = h := Option.some.inj (hg'.header.symm.trans hh)
  exact ⟨_, rfl, hdecodes⟩

/-- **Exact acceptance**: over a file of a temporary file system, the reader takes the files of the
grammar, with the program headers of their tables, and returns an error for all others, exactly
when the table does not start behind the end of the file; there the kernel panics. -/
theorem new_parses_iff (hf : w.contents node = some bytes) (hlen : bytes.length < 2 ^ 63) :
    Parses bytes (Elf64Reader.new (Files.fileSystem devices) ⟨w, .new node⟩).1 ↔
      TableStarts bytes := by
  by_cases hhead : ∃ h, Elf64Header.tryFrom (bytes.take Elf64Header.size) = some h ∧
      h.isValid = true ∧ h.isAarch64 = true
  · obtain ⟨h, hh, hv, ha⟩ := hhead
    have hnew := new_table devices hf hh hv ha
    have hstarts : TableStarts bytes ↔
        (h.programHeaderEntryCount ≠ 0 → h.programHeaderOffset ≤ bytes.length) := by
      refine ⟨fun hs => hs h hh hv ha, fun hs h' hh' _ _ => ?_⟩
      obtain rfl : h' = h := Option.some.inj (hh'.symm.trans hh)
      exact hs
    rw [hnew, hstarts]
    by_cases hz : h.programHeaderEntryCount = 0
    · rw [hz]
      refine iff_of_true (parses_ok hh ⟨rfl, hz.symm, fun i hi => ?_⟩
        ⟨header_length hh, hh, hv, ha, .inl hz⟩)
        fun hn => absurd rfl hn
      omega
    · rcases Nat.lt_or_ge bytes.length h.programHeaderOffset with hlt | hle
      · -- the table starts behind the end of the file
        have hpanic := Exec.eq_of_fst (table_behind devices hf hz hlt (offset_lt hh))
        rw [Exec.bind_panic hpanic]
        refine iff_of_false (fun hp => ?_) fun hs => absurd (hs hz) (Nat.not_le.mpr hlt)
        have herr := hp.rejects (not_grammar hh hz (by omega))
        cases herr
      · rcases Nat.lt_or_ge bytes.length (h.programHeaderOffset +
          Elf64ProgramHeader.size * h.programHeaderEntryCount) with hlt | hin
        · have herr := Exec.eq_of_fst (table_short devices hf hlen _ _ hle hlt)
          rw [Exec.bind_err herr]
          refine iff_of_true ⟨fun h' hg => ?_, fun _ => rfl⟩ fun _ => hle
          exact absurd ⟨h', hg⟩ (not_grammar hh hz hlt)
        · obtain ⟨hs, t, hread, hlength, hentry⟩ := table_inside devices hf hlen _ _ hin
          rw [Exec.bind_ok hread]
          exact iff_of_true (parses_ok hh ⟨rfl, hlength, hentry⟩
            ⟨header_length hh, hh, hv, ha, .inr hin⟩)
            fun _ => hle
  · have hno : ∀ h, Elf64Header.tryFrom (bytes.take Elf64Header.size) = some h →
        ¬ (h.isValid = true ∧ h.isAarch64 = true) := fun h hh hva => hhead ⟨h, hh, hva⟩
    have herr := new_err devices hf hno
    refine ⟨fun _ h hh hv ha => absurd ⟨hv, ha⟩ (hno h hh), fun _ =>
      ⟨fun h hg => ?_, fun _ => herr⟩⟩
    exact absurd ⟨hg.valid, hg.aarch64⟩ (hno h hg.header)

open ProgramImage (demoFile demoNode demoReader withFile)
open Walk (noDevices)

/-- A program with one segment. -/
theorem new_parses_demo :
    Parses demoFile (Elf64Reader.new (Files.fileSystem noDevices)
      ⟨(withFile demoFile).world, .new demoNode⟩).1 := by
  have hfile : (withFile demoFile).world.contents demoNode = some demoFile := by decide +kernel
  have hheader : Elf64Header.tryFrom (demoFile.take Elf64Header.size) = some demoReader.header := by
    decide +kernel
  refine (new_parses_iff noDevices hfile (by decide +kernel)).mpr fun h hh _ _ _ => ?_
  obtain rfl := Option.some.inj (hheader.symm.trans hh)
  decide +kernel

/-- The same program, with a header that puts the table at 320; the file has 123 bytes. -/
def movedTable : List Byte := demoFile.set 33 1

theorem moved_panics :
    (Elf64Reader.new (Files.fileSystem noDevices)
      ⟨(withFile movedTable).world, .new demoNode⟩).1 = .panic ∧
    ¬ Parses movedTable (Elf64Reader.new (Files.fileSystem noDevices)
      ⟨(withFile movedTable).world, .new demoNode⟩).1 := by
  have hpanic : (Elf64Reader.new (Files.fileSystem noDevices)
      ⟨(withFile movedTable).world, .new demoNode⟩).1 = .panic := by decide +kernel
  have hheader : Elf64Header.tryFrom (movedTable.take Elf64Header.size) =
      some { demoReader.header with programHeaderOffset := 320 } := by decide +kernel
  refine ⟨hpanic, fun hp => ?_⟩
  have herr := hp.rejects (not_grammar hheader (by decide) (by decide +kernel))
  rw [herr] at hpanic
  cases hpanic

end Pimento.ElfGrammar
