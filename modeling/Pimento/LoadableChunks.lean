import Pimento.FileContents
import Pimento.ProgramImage

/-!
What the iterator over the loadable pages of a program yields, from its start to its end.

The chunks of one segment follow each other from the start of the segment to its end. The
iterator stands in the middle of a segment most of the time, so the chunks that are still to come
are those of the rest of that segment, and then those of the segments behind it.
-/

namespace Pimento.LoadableChunks

open Address Segments LoadablePages
open TaskExecution (segmentBound loadBound)

/-- The chunks lie one behind the other from `a` to `b`, each of them within one page, and none
of them is empty. -/
inductive Consecutive : ℕ → List LoadablePage → ℕ → Prop
  | nil (a : ℕ) : Consecutive a [] a
  | cons {page : LoadablePage} {pages : List LoadablePage} {a b : ℕ} (start : page.address = a)
      (nonempty : page.bytes ≠ []) (within : a % pageSize + page.bytes.length ≤ pageSize)
      (rest : Consecutive (a + page.bytes.length) pages b) : Consecutive a (page :: pages) b

lemma Consecutive.le {a b : ℕ} {pages : List LoadablePage} (h : Consecutive a pages b) :
    a ≤ b := by
  induction h with
  | nil a => exact le_refl a
  | cons _ _ _ _ ih => omega

lemma Consecutive.eq_nil {a : ℕ} {pages : List LoadablePage} (h : Consecutive a pages a) :
    pages = [] := by
  cases h with
  | nil => rfl
  | cons _ nonempty _ rest =>
    have hpos := List.length_pos_iff.mpr nonempty
    have hle := rest.le
    omega

/-- The chunks partition the segment: they are what memory holds of it, cut at page boundaries,
and there is none if it is not loaded. -/
structure Partition (bytes : List Byte) (h : Elf64ProgramHeader) (pages : List LoadablePage) :
    Prop where
  skipped : h.segmentType ≠ programHeaderTypeLoad → pages = []
  empty : h.memorySize = 0 → pages = []
  consecutive : h.segmentType = programHeaderTypeLoad →
    Consecutive h.virtualAddress pages (h.virtualAddress + h.memorySize)
  contents : h.segmentType = programHeaderTypeLoad →
    (pages.map LoadablePage.bytes).flatten = loaded bytes h

/-- The chunks are those of the segment, from the offset `o` on. -/
structure Chunks (bytes : List Byte) (h : Elf64ProgramHeader) (o : ℕ)
    (pages : List LoadablePage) : Prop where
  skipped : h.segmentType ≠ programHeaderTypeLoad → pages = []
  consecutive : h.segmentType = programHeaderTypeLoad →
    Consecutive (h.virtualAddress + o) pages (h.virtualAddress + h.memorySize)
  contents : h.segmentType = programHeaderTypeLoad →
    (pages.map LoadablePage.bytes).flatten = (loaded bytes h).drop o

/-- The chunks of the remaining segments, of which the first one is at its page `k`. -/
def Remaining (bytes : List Byte) :
    List Elf64ProgramHeader → ℕ → List (List LoadablePage) → Prop
  | [], _, css => css = []
  | h :: hs, k, css => ∃ cs rest, css = cs :: rest ∧
      Chunks bytes h (min (offset h.virtualAddress k) h.memorySize) cs ∧
      List.Forall₂ (Partition bytes) hs rest

/-- The segment lies within user memory and what it takes of the file within the file. -/
def InFile (bytes : List Byte) (h : Elf64ProgramHeader) : Prop :=
  h.segmentType = programHeaderTypeLoad →
    h.virtualAddress + h.memorySize ≤ 2 ^ 48 ∧ h.fileOffset + h.fileSize ≤ bytes.length

instance (bytes : List Byte) (h : Elf64ProgramHeader) : Decidable (InFile bytes h) :=
  inferInstanceAs (Decidable (_ → _))

/-- The chunk of the page `k` of a segment. -/
def chunkAt (bytes : List Byte) (h : Elf64ProgramHeader) (k : ℕ) : LoadablePage where
  address := h.virtualAddress + offset h.virtualAddress k
  bytes := ((loaded bytes h).drop (offset h.virtualAddress k)).take
    (min (offset h.virtualAddress (k + 1)) h.memorySize - offset h.virtualAddress k)

section Collect

variable {W : Type} (fs : FileSystem W)

/-- What the iterator yields until its end, for at most the given number of iterations. -/
def collect (reader : Elf64Reader) : ℕ → LoadablePages → Exec (Handle W File) (List LoadablePage)
  | 0, _ => .hang
  | n + 1, pages => do
    match ← next fs reader pages with
    | (none, _) => return []
    | (some page, pages) =>
      let rest ← collect reader n pages
      return page :: rest

variable {fs} {reader : Elf64Reader} {pages c : LoadablePages} {s t u : Handle W File} {n : ℕ}

lemma collect_none (h : next fs reader pages s = (.ok (none, c), t)) :
    collect fs reader (n + 1) pages s = (.ok [], t) := by
  rw [collect, Exec.bind_ok h]
  rfl

lemma collect_some {page : LoadablePage} {rest : List LoadablePage}
    (h : next fs reader pages s = (.ok (some page, c), t))
    (hrest : collect fs reader n c t = (.ok rest, u)) :
    collect fs reader (n + 1) pages s = (.ok (page :: rest), u) := by
  rw [collect, Exec.bind_ok h]
  exact Exec.bind_ok hrest

end Collect

variable {bytes : List Byte} {h : Elf64ProgramHeader} {hs post : List Elf64ProgramHeader}
  {i k : ℕ} {css : List (List LoadablePage)}

/-! ### One segment -/

/-- From its start on, that is the segment. -/
lemma Chunks.partition {cs : List LoadablePage} (hcs : Chunks bytes h 0 cs) :
    Partition bytes h cs := by
  refine ⟨hcs.skipped, fun hm => ?_, hcs.consecutive, hcs.contents⟩
  by_cases ht : h.segmentType = programHeaderTypeLoad
  · have hall := hcs.consecutive ht
    rw [hm] at hall
    exact hall.eq_nil
  · exact hcs.skipped ht

/-- Nothing is left of a segment without a next page. -/
lemma chunks_nil (hin : InFile bytes h) (hk : k ≤ 2 ^ 36) (hr : range h k = none) :
    Chunks bytes h (min (offset h.virtualAddress k) h.memorySize) [] := by
  refine ⟨fun _ => rfl, fun ht => ?_, fun ht => ?_⟩
  · have hend := range_none ht (by have := hin ht; omega) hk hr
    rw [Nat.min_eq_right hend]
    exact .nil _
  · obtain ⟨hva, hfile⟩ := hin ht
    have hend := range_none ht (by omega) hk hr
    have hlen := loaded_length hfile
    rw [Nat.min_eq_right hend, List.drop_of_length_le hlen.le]
    rfl

lemma chunkAt_length (hin : InFile bytes h) (ht : h.segmentType = programHeaderTypeLoad)
    (ho : offset h.virtualAddress k < h.memorySize) : (chunkAt bytes h k).bytes.length =
      min (offset h.virtualAddress (k + 1)) h.memorySize - offset h.virtualAddress k := by
  rw [chunkAt, List.length_take, List.length_drop, loaded_length (hin ht).2]
  omega

/-- The chunk of a page, in front of those from the next page on. -/
lemma chunks_cons {cs : List LoadablePage} (hin : InFile bytes h)
    (ht : h.segmentType = programHeaderTypeLoad) (ho : offset h.virtualAddress k < h.memorySize)
    (hcs : Chunks bytes h (min (offset h.virtualAddress (k + 1)) h.memorySize) cs) :
    Chunks bytes h (min (offset h.virtualAddress k) h.memorySize) (chunkAt bytes h k :: cs) := by
  have hlt := offset_lt_succ h.virtualAddress k
  have hpage := offset_page h.virtualAddress k
  have hlen := chunkAt_length hin ht ho
  refine ⟨fun hn => absurd ht hn, fun _ => ?_, fun _ => ?_⟩
  · have hrest := hcs.consecutive ht
    have hnext : h.virtualAddress + offset h.virtualAddress k +
        (min (offset h.virtualAddress (k + 1)) h.memorySize - offset h.virtualAddress k) =
        h.virtualAddress + min (offset h.virtualAddress (k + 1)) h.memorySize := by
      omega
    rw [Nat.min_eq_left ho.le]
    refine .cons rfl ?_ ?_ ?_
    · exact List.length_pos_iff.mp (by rw [hlen]; omega)
    · rw [hlen]
      omega
    · rwa [hlen, hnext]
  · have hdrop : (loaded bytes h).drop (min (offset h.virtualAddress (k + 1)) h.memorySize) =
        ((loaded bytes h).drop (offset h.virtualAddress k)).drop
          (min (offset h.virtualAddress (k + 1)) h.memorySize - offset h.virtualAddress k) := by
      rw [List.drop_drop]
      congr 1
      omega
    rw [List.map_cons, List.flatten_cons, hcs.contents ht, Nat.min_eq_left ho.le, hdrop]
    exact List.take_append_drop _ _

/-! ### The segments that are left -/

lemma remaining_zero (hrem : Remaining bytes hs 0 css) : List.Forall₂ (Partition bytes) hs css := by
  cases hs with
  | nil =>
    obtain rfl : css = [] := hrem
    exact .nil
  | cons h hs =>
    obtain ⟨cs, rest, rfl, hcs, hrest⟩ := hrem
    rw [show offset h.virtualAddress 0 = 0 from rfl, Nat.zero_min] at hcs
    exact .cons hcs.partition hrest

/-- The segments that the iterator skips have no chunk left. -/
lemma remaining_skipped : ∀ (pre : List Elf64ProgramHeader) (k k' : ℕ),
    (∀ h ∈ pre, InFile bytes h) → k ≤ 2 ^ 36 → Skipped pre k →
    k' = (if pre = [] then k else 0) → Remaining bytes post k' css →
    Remaining bytes (pre ++ post) k (List.replicate pre.length [] ++ css)
  | [], k, k', _, _, _, hk', hrem => by
    obtain rfl : k' = k := hk'.trans (if_pos rfl)
    exact hrem
  | h :: pre, k, k', hin, hk, ⟨hr, hsk⟩, hk', hrem => by
    obtain rfl : k' = 0 := hk'.trans (if_neg (List.cons_ne_nil _ _))
    have hrest := remaining_skipped pre 0 0 (fun h' hm => hin h' (List.mem_cons_of_mem _ hm))
      (Nat.zero_le _) hsk (ite_self 0).symm hrem
    exact ⟨[], _, rfl, chunks_nil (hin h List.mem_cons_self) hk hr, remaining_zero hrest⟩

lemma flatten_replicate_nil (n : ℕ) (css : List (List LoadablePage)) :
    (List.replicate n [] ++ css).flatten = css.flatten := by
  induction n with
  | zero => rfl
  | succ n ih => rw [List.replicate_succ, List.cons_append, List.flatten_cons, ih, List.nil_append]

/-! ### The loop -/

variable {W : Type} {fs : FileSystem W} {node : Node} {I : W → Prop} {reader : Elf64Reader}

/-- **The iteration**, from the page `k` of the first segment that is left to its end. -/
theorem collect_eq (hserves : Serves fs node bytes I) (hlen : bytes.length < 2 ^ 63)
    (hin : ∀ h ∈ reader.programHeaders, InFile bytes h) :
    ∀ (n : ℕ) (hs : List Elf64ProgramHeader) (i k : ℕ) (s : Handle W File),
      reader.programHeaders.drop i = hs → k ≤ segmentBound → (hs = [] → k = 0) →
      hs.length * segmentBound + 1 ≤ n + k → I s.world → s.handle.node = node →
      ∃ css t, collect fs reader n ⟨i, k⟩ s = (.ok css.flatten, t) ∧ Remaining bytes hs k css := by
  intro n
  induction n with
  | zero =>
    intro hs i k s hdrop hk hnil hn hI hnode
    exact absurd (rounds_pos hnil hk hn) (lt_irrefl 0)
  | succ n ih =>
    intro hs i k s hdrop hk hnil hn hI hnode
    have hin' : ∀ h ∈ hs, InFile bytes h := fun h hm =>
      hin h (List.mem_of_mem_drop (hdrop ▸ hm))
    rcases nextRange_cases hs i k with ⟨c, hc, hsk⟩ | ⟨pre, h, post, k', r, rfl, hsk, hr, hc, hk'⟩
    · have hend : Remaining bytes (hs ++ []) k (List.replicate hs.length [] ++ []) :=
        remaining_skipped hs k _ hin' hk hsk rfl rfl
      rw [List.append_nil] at hend
      refine ⟨_, s, ?_, hend⟩
      rw [flatten_replicate_nil]
      exact collect_none (next_none (by rw [hdrop, hc]))
    · have hh : InFile bytes h := hin' h (by simp)
      have hk₁ : k' ≤ segmentBound := by
        rw [hk']
        split
        · exact hk
        · exact Nat.zero_le _
      have hdrop' : reader.programHeaders.drop (i + pre.length) = h :: post := by
        rw [← List.drop_drop, hdrop, List.drop_left]
      have ht := range_load hr
      obtain ⟨hva, hfile⟩ := hh ht
      obtain ⟨ho, hranges⟩ := range_some (by omega) (by omega) hk₁ hr
      have hc' : nextRange ⟨i, k⟩ (reader.programHeaders.drop (LoadablePages.mk i k).1) =
          (some (r.1, r.2), ⟨i + pre.length, k'⟩) := by
        rw [hdrop, hc]
      have hread : r.1.start + r.1.len ≤ bytes.length := by
        rw [hranges]
        simp only [Range.len]
        omega
      obtain ⟨t, hnext, hI', hnode'⟩ := hserves.next_chunk hI hnode hc' hread
      have hpage : (⟨r.2.start, resize ((bytes.drop r.1.start).take r.1.len) r.2.len⟩ :
          LoadablePage) = chunkAt bytes h k' := by
        rw [hranges]
        simp only [Range.len, Nat.add_sub_add_left]
        rw [chunk_eq hfile ho (offset_lt_succ _ _), chunkAt]
      have hround : k' + 1 ≤ segmentBound :=
        index_lt (show h.virtualAddress + offset h.virtualAddress k' < 2 ^ 48 by omega)
      obtain ⟨css, u, hcollect, cs, rest, rfl, hcs, hrest⟩ := ih (h :: post) (i + pre.length)
        (k' + 1) t hdrop' hround (by simp) (rounds_left hk hk' hn) hI' hnode'
      have hhead : Remaining bytes (h :: post) k' ((chunkAt bytes h k' :: cs) :: rest) :=
        ⟨_, rest, rfl, chunks_cons hh ht ho hcs, hrest⟩
      refine ⟨_, u, ?_, remaining_skipped pre k k' (fun h' hm => hin' h' (by simp [hm])) hk hsk hk'
        hhead⟩
      rw [flatten_replicate_nil, List.flatten_cons, List.cons_append]
      exact collect_some (hpage ▸ hnext) hcollect

/-- **Partition**: over a file of a temporary file system, the iteration ends, and it yields for
one segment after the other the chunks that it is made of. -/
theorem pages_partition {D : Type} {devices : CharacterDevices D} {w : Files D}
    (position : ℕ) (hfile : w.contents node = some bytes) (hlen : bytes.length < 2 ^ 63)
    (hin : ∀ h ∈ reader.programHeaders, InFile bytes h) {n : ℕ} (hn : loadBound reader ≤ n) :
    ∃ css t, collect (Files.fileSystem devices) reader n .new ⟨w, ⟨node, position⟩⟩ =
        (.ok css.flatten, t) ∧
      List.Forall₂ (Partition bytes) reader.programHeaders css := by
  obtain ⟨css, t, hcollect, hrem⟩ := collect_eq (Files.serves devices hfile (by omega)) hlen hin n
    reader.programHeaders 0 0 ⟨w, ⟨node, position⟩⟩ rfl (Nat.zero_le _) (fun _ => rfl) hn rfl rfl
  exact ⟨css, t, hcollect, remaining_zero hrem⟩

open ProgramImage (demoFile demoNode withFile) in
open Walk (noDevices) in
/-- Five bytes over a page boundary, a segment that is not loaded, and one whose part of the file
is larger than its room in memory. -/
theorem pages_partition_demo : ∃ css t,
    collect (Files.fileSystem noDevices)
        ⟨ProgramImage.demoReader.header,
          [⟨1, 120, 0x400ffe, 3, 5⟩, ⟨2, 0, 0, 9, 9⟩, ⟨1, 120, 0x2000, 3, 2⟩]⟩
        (3 * 2 ^ 36 + 1) .new ⟨(withFile demoFile).world, ⟨demoNode, 7⟩⟩ =
      (.ok css.flatten, t) ∧
    List.Forall₂ (Partition demoFile)
      [⟨1, 120, 0x400ffe, 3, 5⟩, ⟨2, 0, 0, 9, 9⟩, ⟨1, 120, 0x2000, 3, 2⟩] css := by
  have hfile : (withFile demoFile).world.contents demoNode = some demoFile := by decide +kernel
  exact pages_partition 7 hfile (by decide +kernel) (by decide +kernel) (le_refl _)

end Pimento.LoadableChunks
