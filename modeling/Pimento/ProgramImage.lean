import Pimento.FileContents
import Pimento.FileSteps
import Pimento.Isolation
import Pimento.Segments
import Pimento.TaskExecution
import Pimento.UserPages

/-!
The memory image of a program.

The loop that loads a program leaves user memory as the overlay of its segments. It goes
through them chunk by chunk; what has been done so far is the overlay of the segments that
are complete and of the first bytes of the current one.
-/

namespace Pimento.ProgramImage

open Address PageTable PageAllocator MemoryContext Armv8 Placement TableTree AllocPage Contexts
  Ownership Runs UserCopy UserPages Segments LoadablePages Overlay TaskExecution

/-- The frames that mapping these pages takes: one for each page, and one for each table on
the way to them that is not there. -/
def framesNeeded (m : ByteMemory) (root : ℕ) (pages : Finset ℕ) : ℕ :=
  pages.card + ∑ l ∈ {1, 2, 3},
    ((pages.image fun x => x / rowCount ^ (4 - l)).filter fun p => tableAt m root l p = none).card

/-- What the segments of a program leave at an address: the byte of the last one that covers
it, zero on a page that one of them touches, nothing elsewhere. -/
def programImage (bytes : List Byte) (programHeaders : List Elf64ProgramHeader) (a : ℕ) :
    Option Byte :=
  image pageOf 0 (programHeaders.map (segmentOf bytes)) a

/-- The segment lies within the file and within user memory. -/
def SegmentFits (bytes : List Byte) (h : Elf64ProgramHeader) : Prop :=
  h.segmentType = programHeaderTypeLoad →
    h.fileOffset + h.fileSize ≤ bytes.length ∧ h.fileSize ≤ h.memorySize ∧
      h.virtualAddress + h.memorySize ≤ 2 ^ 48

instance (bytes : List Byte) (h : Elf64ProgramHeader) : Decidable (SegmentFits bytes h) :=
  inferInstanceAs (Decidable (_ → _))

variable {W : Type} {fs : FileSystem W} {pa : PageAllocator} {node : Node} {bytes : List Byte}
  {I : W → Prop} {pages : Finset ℕ} {root i k n : ℕ} {reader : Elf64Reader}
  {done : List (Piece Byte)} {h : Elf64ProgramHeader} {hs : List Elf64ProgramHeader}

/-! ### One chunk -/

/-- In the middle of loading: the file can be read, the frames suffice for the pages of the
program, and user memory is as given. -/
structure Loading (pa : PageAllocator) (node : Node) (I : W → Prop) (pages : Finset ℕ)
    (root : ℕ) (m : ℕ → Option Byte) (s : Handle (Process W) File) : Prop where
  world : I s.world.vfs.world
  node : s.handle.node = node
  tables : ∃ P, Holds s.world.scope P root ∧
    missing P pages ≤ freeFrames pa s.world.scope.machine.allocated
  memory : ∀ a < 2 ^ 48, userByte s.world.scope a = m a

/-- A chunk is mapped and copied. -/
lemma Loading.page {m : ℕ → Option Byte} {s : Handle (Process W) File}
    (hl : Loading pa node I pages root m s) (hcap : pa.capacity ≤ 2 ^ 48) (page : LoadablePage)
    (hv : page.address < 2 ^ 48) (hp : pageOf page.address ∈ pages)
    (hlen : page.address % pageSize + page.bytes.length ≤ pageSize) :
    ∃ t, Handle.onWorld (loadPage pa page) s = (.ok (), t) ∧
      Loading pa node I pages root (place pageOf 0 m ⟨page.address, page.bytes⟩) t := by
  obtain ⟨P, hs, hframes⟩ := hl.tables
  obtain ⟨t, P', ht, hto, hend⟩ := allocPage_userByte hcap hv hs
    fun hn => counter_of_missing hcap hp hn hframes
  have hspent := hto.spent
  have hcall := missing_call hto hp
  have hframes' : missing P' pages ≤ freeFrames pa t.machine.allocated := by omega
  rcases hend with ⟨g, halloc, hpage, hbytes⟩ | ⟨-, hnone, hempty⟩
  · have hcopy := copyToUser_page page.bytes t page.address ht hv hpage hlen
    refine ⟨⟨⟨s.world.vfs, stored t (g + page.address % pageSize) page.bytes,
      s.world.copied ++ [page]⟩, s.handle⟩, ?_, ?_⟩
    · have hload := loadPage_ok halloc hcopy
      rw [Handle.onWorld, Exec.zoom, hload]
    · refine ⟨hl.world, hl.node, ⟨P', holds_stored ht hpage hlen, hframes'⟩, fun a ha => ?_⟩
      show userByte (stored t (g + page.address % pageSize) page.bytes) a = _
      rw [userByte_stored ht hpage hlen ha, hbytes a ha, hl.memory a ha]
      rfl
  · have hpos := missing_pos hp hnone
    omega

/-! ### The loop -/

/-- What is in memory when `k` chunks of the first of the remaining segments are done. -/
def progress (bytes : List Byte) (done : List (Piece Byte)) :
    List Elf64ProgramHeader → ℕ → ℕ → Option Byte
  | [], _ => image pageOf 0 done
  | h :: _, k => image pageOf 0 (done ++
      [⟨h.virtualAddress, (segmentOf bytes h).values.take (offset h.virtualAddress k)⟩])

lemma progress_zero (bytes : List Byte) (done : List (Piece Byte))
    (hs : List Elf64ProgramHeader) : progress bytes done hs 0 = image pageOf 0 done := by
  cases hs with
  | nil => rfl
  | cons h hs =>
    funext a
    exact image_empty

/-- A segment without a next page is complete. -/
lemma progress_complete (hf : SegmentFits bytes h) (hk : k ≤ 2 ^ 36) (hr : range h k = none) :
    progress bytes done (h :: hs) k = image pageOf 0 (done ++ [segmentOf bytes h]) := by
  have htake : (segmentOf bytes h).values.take (offset h.virtualAddress k) =
      (segmentOf bytes h).values := by
    by_cases ht : h.segmentType = programHeaderTypeLoad
    · obtain ⟨hfile, hsize, hend⟩ := hf ht
      refine List.take_of_length_le ?_
      rw [segmentOf_length ht hfile hsize]
      exact range_none ht (by omega) hk hr
    · rw [segmentOf, if_neg ht, List.take_nil]
  rw [progress, htake]
  rfl

lemma progress_skipped : ∀ (pre hs : List Elf64ProgramHeader) (done : List (Piece Byte)) (k : ℕ),
    (∀ h ∈ pre, SegmentFits bytes h) → k ≤ 2 ^ 36 → Skipped pre k →
    progress bytes done (pre ++ hs) k =
      progress bytes (done ++ pre.map (segmentOf bytes)) hs (if pre = [] then k else 0)
  | [], hs, done, k, _, _, _ => by simp
  | h :: pre, hs, done, k, hfit, hk, ⟨hr, hsk⟩ => by
    have hrest := progress_skipped pre hs (done ++ [segmentOf bytes h]) 0
      (fun h' hm => hfit h' (List.mem_cons_of_mem _ hm)) (by omega) hsk
    rw [List.cons_append, progress_complete (hfit h List.mem_cons_self) hk hr,
      ← progress_zero bytes _ (pre ++ hs), hrest]
    simp

/-- The chunk of a page of a segment. -/
def chunk (bytes : List Byte) (h : Elf64ProgramHeader) (k : ℕ) : Piece Byte where
  start := h.virtualAddress + offset h.virtualAddress k
  values := ((segmentOf bytes h).values.drop (offset h.virtualAddress k)).take
    (min (offset h.virtualAddress (k + 1)) h.memorySize - offset h.virtualAddress k)

/-- A page that the iterator stops at is a chunk of its segment. -/
lemma range_chunk (hf : SegmentFits bytes h) (hlen : bytes.length < 2 ^ 64)
    (hk : k ≤ segmentBound) {r : Range × Range} (hr : range h k = some r) :
    h.segmentType = programHeaderTypeLoad ∧ offset h.virtualAddress k < h.memorySize ∧
      r.1.start + r.1.len ≤ bytes.length ∧
      (⟨r.2.start, resize ((bytes.drop r.1.start).take r.1.len) r.2.len⟩ : Piece Byte) =
        chunk bytes h k := by
  have ht := range_load hr
  obtain ⟨hfile, hsize, hend⟩ := hf ht
  obtain ⟨ho, rfl⟩ := range_some (by omega) (by omega) hk hr
  refine ⟨ht, ho, ?_, ?_⟩
  · simp only [Range.len]
    omega
  · simp only [Range.len, Nat.add_sub_add_left]
    rw [chunk_eq hfile ho (offset_lt_succ _ _), ← segmentOf_values ht hsize]
    rfl

/-- A chunk lies within one page, one that the program touches. -/
lemma chunk_page (ht : h.segmentType = programHeaderTypeLoad) (hf : SegmentFits bytes h)
    (ho : offset h.virtualAddress k < h.memorySize)
    {programHeaders : List Elf64ProgramHeader} (hm : h ∈ programHeaders) :
    (chunk bytes h k).start < 2 ^ 48 ∧
      pageOf (chunk bytes h k).start ∈ touched pageOf (programHeaders.map (segmentOf bytes)) ∧
      (chunk bytes h k).start % pageSize + (chunk bytes h k).values.length ≤ pageSize := by
  obtain ⟨hfile, hsize, hend⟩ := hf ht
  have hlen := segmentOf_length ht hfile hsize
  have hpage := offset_page h.virtualAddress k
  have hstart : (chunk bytes h k).start = h.virtualAddress + offset h.virtualAddress k := rfl
  refine ⟨by omega, ?_, ?_⟩
  · refine mem_touched.mpr ⟨segmentOf bytes h, List.mem_map_of_mem hm, ?_⟩
    exact Piece.mem_pages.mpr ⟨offset h.virtualAddress k, by omega, rfl⟩
  · rw [hstart, chunk, List.length_take]
    omega

/-- One chunk more. -/
lemma progress_chunk (ht : h.segmentType = programHeaderTypeLoad) (hf : SegmentFits bytes h)
    (ho : offset h.virtualAddress k < h.memorySize) :
    progress bytes done (h :: hs) (k + 1) =
      place pageOf 0 (progress bytes done (h :: hs) k) (chunk bytes h k) := by
  obtain ⟨hfile, hsize, hend⟩ := hf ht
  have hlen := segmentOf_length ht hfile hsize
  have hlt := offset_lt_succ h.virtualAddress k
  have hpage := offset_page h.virtualAddress k
  have hclen : (chunk bytes h k).values.length =
      min (offset h.virtualAddress (k + 1)) h.memorySize - offset h.virtualAddress k := by
    rw [chunk, List.length_take, List.length_drop, hlen]
    omega
  have htake : (segmentOf bytes h).values.take (offset h.virtualAddress (k + 1)) =
      (segmentOf bytes h).values.take (offset h.virtualAddress k) ++ (chunk bytes h k).values := by
    rw [chunk, ← List.take_add, List.take_eq_take_iff, hlen]
    omega
  have hstart : h.virtualAddress +
      ((segmentOf bytes h).values.take (offset h.virtualAddress k)).length =
        (chunk bytes h k).start := by
    rw [List.length_take, hlen, Nat.min_eq_left ho.le]
    rfl
  funext a
  rw [progress, progress, htake, image_split, hstart]
  refine image_place (fun j hj => ?_) ?_
  · rw [hclen] at hj
    have hj' : (chunk bytes h k).start % pageSize + j < pageSize := by
      show (h.virtualAddress + offset h.virtualAddress k) % pageSize + j < pageSize
      omega
    exact (offset_add hj').1
  · rw [← List.length_pos_iff, hclen]
    omega

/-- **The loop**, from the first chunk that is left to the end. -/
theorem load_eq (hserves : Serves fs node bytes I) (hcap : pa.capacity ≤ 2 ^ 48)
    (hlen : bytes.length < 2 ^ 64)
    (hfit : ∀ h ∈ reader.programHeaders, SegmentFits bytes h)
    (hpages : touched pageOf (reader.programHeaders.map (segmentOf bytes)) ⊆ pages) :
    ∀ (n : ℕ) (hs : List Elf64ProgramHeader) (done : List (Piece Byte)) (i k : ℕ)
      (s : Handle (Process W) File), reader.programHeaders.drop i = hs → k ≤ segmentBound →
      (hs = [] → k = 0) → hs.length * segmentBound + 1 ≤ n + k →
      Loading pa node I pages root (progress bytes done hs k) s →
      ∃ t, load fs pa reader n ⟨i, k⟩ s = (.ok (), t) ∧
        Loading pa node I pages root (image pageOf 0 (done ++ hs.map (segmentOf bytes))) t := by
  intro n
  induction n with
  | zero =>
    intro hs done i k s hdrop hk hnil hn hl
    exact absurd (rounds_pos hnil hk hn) (lt_irrefl 0)
  | succ n ih =>
    intro hs done i k s hdrop hk hnil hn hl
    have hfit' : ∀ h ∈ hs, SegmentFits bytes h := fun h hm =>
      hfit h (List.mem_of_mem_drop (hdrop ▸ hm))
    rcases nextRange_cases hs i k with ⟨c, hc, hsk⟩ | ⟨pre, h, post, k', r, rfl, hsk, hr, hc, hk'⟩
    · have hdone := progress_skipped hs [] done k hfit' hk hsk
      rw [List.append_nil] at hdone
      rw [hdone] at hl
      exact ⟨s, load_none (next_end (by rw [hdrop, hc])), hl⟩
    · have hk₁ : k' ≤ segmentBound := by
        rw [hk']
        split
        · exact hk
        · exact Nat.zero_le _
      have hh : SegmentFits bytes h := hfit' h (by simp)
      have hmem : h ∈ reader.programHeaders := List.mem_of_mem_drop (i := i) (by simp [hdrop])
      have hdrop' : reader.programHeaders.drop (i + pre.length) = h :: post := by
        rw [← List.drop_drop, hdrop, List.drop_left]
      obtain ⟨ht, ho, hread, hchunk⟩ := range_chunk hh hlen hk₁ hr
      obtain ⟨hv, hp, hin⟩ := chunk_page ht hh ho hmem
      have hc' : nextRange ⟨i, k⟩ (reader.programHeaders.drop (LoadablePages.mk i k).1) =
          (some (r.1, r.2), ⟨i + pre.length, k'⟩) := by
        rw [hdrop, hc]
      obtain ⟨f, hnext, hI, hnode⟩ := hserves.next_chunk (s := ⟨s.world.vfs.world, s.handle⟩)
        hl.world hl.node hc' hread
      have hskip := progress_skipped pre (h :: post) done k
        (fun h' hm => hfit' h' (by simp [hm])) hk hsk
      rw [hskip, ← hk'] at hl
      -- the page of the chunk, with the file further on
      obtain ⟨u, hload, hl'⟩ := Loading.page (s := ⟨{ s.world with vfs :=
          { s.world.vfs with world := f.world } }, f.handle⟩) ⟨hI, hnode, hl.tables, hl.memory⟩
        hcap ⟨(chunk bytes h k').start, (chunk bytes h k').values⟩ hv (hpages hp) hin
      have hround : k' + 1 ≤ segmentBound := index_lt hv
      obtain ⟨t, hrest, hlt⟩ := ih (h :: post) (done ++ pre.map (segmentOf bytes)) (i + pre.length)
        (k' + 1) u hdrop' hround (by simp) (rounds_left hk hk' hn)
        (by rw [progress_chunk ht hh ho]; exact hl')
      have hpage : (⟨r.2.start, resize ((bytes.drop r.1.start).take r.1.len) r.2.len⟩ :
          LoadablePage) = ⟨(chunk bytes h k').start, (chunk bytes h k').values⟩ := by
        rw [← hchunk]
      refine ⟨t, ?_, by simpa using hlt⟩
      rw [← hrest]
      exact load_some (onFile_ok (hpage ▸ hnext)) hload

/-! ### From a run of the kernel -/

lemma touched_lt (hfit : ∀ h ∈ reader.programHeaders, SegmentFits bytes h) {x : ℕ}
    (hx : x ∈ touched pageOf (reader.programHeaders.map (segmentOf bytes))) : x < rowCount ^ 4 := by
  obtain ⟨p, hp, hx⟩ := mem_touched.mp hx
  obtain ⟨h, hm, rfl⟩ := List.mem_map.mp hp
  obtain ⟨j, hj, rfl⟩ := Piece.mem_pages.mp hx
  by_cases ht : h.segmentType = programHeaderTypeLoad
  · obtain ⟨hfile, hsize, hend⟩ := hfit h hm ht
    rw [segmentOf_length ht hfile hsize] at hj
    have hlt : h.virtualAddress + j < pageSize * rowCount ^ 4 := by
      have hsize : pageSize * rowCount ^ 4 = 2 ^ 48 := by norm_num [pageSize, rowCount]
      omega
    exact Nat.div_lt_of_lt_mul hlt
  · rw [segmentOf, if_neg ht] at hj
    simp at hj

/-- In a context without pages, the frames needed cover the missing nodes. -/
lemma missing_le {m : ByteMemory} {P : Space} (hrep : TableTree.Represents m P root)
    (hlt : ∀ x ∈ pages, x < rowCount ^ 4) : missing P pages ≤ framesNeeded m root pages := by
  have hroot : (pages.image (pathTo rowCount 4 0)).filter (fun p => P 0 p = none) = ∅ := by
    refine Finset.filter_eq_empty_iff.mpr fun p hp => ?_
    obtain ⟨x, hx, rfl⟩ := Finset.mem_image.mp hp
    rw [pathTo_zero (hlt x hx), hrep.placed.root]
    simp
  have hpages : ((pages.image (pathTo rowCount 4 4)).filter fun p => P 4 p = none).card ≤
      pages.card := (Finset.card_filter_le _ _).trans Finset.card_image_le
  have htables : ∀ l ≤ levelMax,
      (pages.image (pathTo rowCount 4 l)).filter (fun p => P l p = none) =
      (pages.image fun x => x / rowCount ^ (4 - l)).filter fun p => tableAt m root l p = none := by
    intro l hl
    refine Finset.filter_congr fun p _ => ?_
    rw [tableAt_eq hrep l p hl]
  have hsum : missing P pages =
      ((pages.image (pathTo rowCount 4 0)).filter fun p => P 0 p = none).card +
        ((pages.image (pathTo rowCount 4 1)).filter fun p => P 1 p = none).card +
        ((pages.image (pathTo rowCount 4 2)).filter fun p => P 2 p = none).card +
        ((pages.image (pathTo rowCount 4 3)).filter fun p => P 3 p = none).card +
        ((pages.image (pathTo rowCount 4 4)).filter fun p => P 4 p = none).card := by
    simp [missing, Finset.sum_range_succ]
  rw [hsum, hroot, htables 1 (by decide), htables 2 (by decide), htables 3 (by decide),
    framesNeeded, Finset.card_empty]
  simp only [Finset.sum_insert (show (1 : ℕ) ∉ ({2, 3} : Finset ℕ) by decide),
    Finset.sum_insert (show (2 : ℕ) ∉ ({3} : Finset ℕ) by decide), Finset.sum_singleton]
  omega

/-- **The loaded image**: in a context without user pages and with frames for the pages and
tables of the program, the loop ends, and user memory is the overlay of the segments: the
byte of the last segment that covers an address, zero elsewhere on the pages they touch,
nothing mapped otherwise. -/
theorem loaded_image {D : Type} {devices : CharacterDevices D} {m : Machine}
    {es : List Event} {w : World} {c : ℕ} {context : MemoryContext} {vfs : Vfs (Files D)}
    {file : File} {copied : List LoadablePage} {s : Handle (Process (Files D)) File}
    (hcap : pa.capacity ≤ 2 ^ 48) (hal : pageSize ∣ m.allocated)
    (hrun : Run (guarded CounterFits (step pa)) (boot m) es w)
    (hc : w.contexts c = some context)
    (hempty : ∀ a < 2 ^ 48,
      translate w.machine.memory (physicalAddress context.tableL0) a = none)
    (hfile : vfs.world.contents file.node = some bytes) (hlen : bytes.length < 2 ^ 64)
    (hnew : onFile (Elf64Reader.new (Files.fileSystem devices))
      ⟨⟨vfs, ⟨w.machine, context⟩, copied⟩, file⟩ = (.ok reader, s))
    (hfit : ∀ h ∈ reader.programHeaders, SegmentFits bytes h)
    (hfree : framesNeeded w.machine.memory (physicalAddress context.tableL0)
      (touched pageOf (reader.programHeaders.map (segmentOf bytes))) ≤
        freeFrames pa w.machine.allocated) :
    ∃ t, load (Files.fileSystem devices) pa reader (loadBound reader) .new s = (.ok (), t) ∧
      ∀ a < 2 ^ 48, userByte t.world.scope a = programImage bytes reader.programHeaders a ∧
        ∀ tr, translate t.world.scope.machine.memory
          (physicalAddress t.world.scope.context.tableL0) a = some tr → tr.el0 = true := by
  obtain ⟨H, howned⟩ := Isolation.owned_run hcap hal hrun
  obtain ⟨root, hs⟩ := howned.holds hc
  have hserves := Files.serves devices hfile hlen
  have hroot := physicalAddress_root hs
  rw [hroot] at hempty hfree
  obtain ⟨hI, hnode⟩ := hserves.keeps_new ⟨vfs.world, file⟩ ⟨rfl, rfl⟩
  obtain rfl : _ = s := (Prod.ext_iff.mp hnew).2
  have hmissing := missing_le hs.rep fun x hx => touched_lt hfit hx
  have hstart : Loading pa file.node (· = vfs.world)
      (touched pageOf (reader.programHeaders.map (segmentOf bytes))) root
      (progress bytes [] reader.programHeaders 0)
      (onFile (Elf64Reader.new (Files.fileSystem devices))
        ⟨⟨vfs, ⟨w.machine, context⟩, copied⟩, file⟩).2 := by
    refine ⟨hI, hnode, ⟨H.space c, hs, hmissing.trans hfree⟩, fun a ha => ?_⟩
    rw [progress_zero, image_eq_none]
    show userByte ⟨w.machine, context⟩ a = none
    rw [userByte, hroot, hempty a ha]
    rfl
  obtain ⟨t, hload, hl⟩ := load_eq hserves hcap hlen hfit (subset_refl _) (loadBound reader)
    reader.programHeaders [] 0 0 _ rfl (Nat.zero_le _) (fun _ => rfl) (le_refl _) hstart
  refine ⟨t, hload, fun a ha => ⟨hl.memory a ha, fun tr htr => ?_⟩⟩
  obtain ⟨P, ht, -⟩ := hl.tables
  rw [translate_holds ht ha] at htr
  obtain ⟨g, -, rfl⟩ := Option.map_eq_some_iff.mp htr
  rfl

/-! ### A program of one segment -/

/-- `n` little-endian bytes. -/
def leBytes : ℕ → ℕ → List Byte
  | 0, _ => []
  | n + 1, k => BitVec.ofNat 8 k :: leBytes n (k / 256)

/-- A file with one loadable segment. -/
def elfFile (entry fileOffset virtualAddress fileSize memorySize : ℕ) (rest : List Byte) :
    List Byte :=
  [0x7F, 0x45, 0x4C, 0x46, 2, 1, 1, 0] ++ leBytes 8 0 ++ leBytes 2 2 ++ leBytes 2 0xB7 ++
    leBytes 4 1 ++ leBytes 8 entry ++ leBytes 8 64 ++ leBytes 8 0 ++ leBytes 4 0 ++
    leBytes 2 64 ++ leBytes 2 56 ++ leBytes 2 1 ++ leBytes 6 0 ++
    leBytes 4 1 ++ leBytes 4 5 ++ leBytes 8 fileOffset ++ leBytes 8 virtualAddress ++
    leBytes 8 0 ++ leBytes 8 fileSize ++ leBytes 8 memorySize ++ leBytes 8 4096 ++ rest

/-- A file system with one file, which has the number 1. -/
def withFile (bytes : List Byte) : Vfs (Files Unit) :=
  ⟨0, [], ⟨[.tmpfs { Tmpfs.new 0 with
    nodeCounter := 2
    files := (∅ : Std.TreeMap ℕ (List Byte)).insert 1 bytes }], ()⟩⟩

/-- Three bytes of the file and two more zeros, over a page boundary. -/
def demoFile : List Byte := elfFile 0x400ffe 120 0x400ffe 3 5 [0xAA, 0xBB, 0xCC]

def demoNode : Node := ⟨0, 1, .file⟩

open UserMapping (roomy)
open Walk (noDevices)

/-- The file, about to be read in the first context of the roomy allocator. -/
def demoStart : Handle (Process (Files Unit)) File :=
  ⟨⟨withFile demoFile, ⟨⟨fun _ => 0, pageSize, 2⟩, ⟨[⟨0, vaStart⟩], 1, vaStart⟩⟩, []⟩,
    .new demoNode⟩

def demoReader : Elf64Reader where
  header := ⟨[0x7F, 0x45, 0x4C, 0x46], 2, 1, 1, 0, 2, 0xB7, 1, 0x400ffe, 64, 56, 1⟩
  programHeaders := [⟨1, 120, 0x400ffe, 3, 5⟩]

lemma translate_zero {root a : ℕ} : translate (fun _ => 0) root a = none := by
  have hread : ∀ b, ByteMemory.readWord (fun _ => 0) b = 0 := fun b => by
    simp [ByteMemory.readWord]
  unfold Armv8.translate
  split
  · rw [walkFrom, hread, Descriptors.decode_zero]
    rfl
  · rfl

lemma create_roomy : create roomy (boot ⟨fun _ => 0, 0, 1⟩) =
    { boot demoStart.world.scope.machine with
      contexts := Function.update (fun _ => none) 0 (some demoStart.world.scope.context)
      next := 1 } := by
  have hclear : ByteMemory.clear (fun _ => 0) 0 pageSize = fun _ => 0 := by
    funext x
    unfold ByteMemory.clear
    split <;> rfl
  have halloc := alloc_first roomy (s := ⟨fun _ => 0, 0, 1⟩) (by decide) (by decide) (by decide)
  have hnew : MemoryContext.new roomy ⟨fun _ => 0, 0, 1⟩ =
      (.ok demoStart.world.scope.context, demoStart.world.scope.machine) := by
    rw [MemoryContext.new, Exec.bind_ok halloc, taken, hclear]
    rfl
  unfold create
  rw [show MemoryContext.new roomy (boot ⟨fun _ => 0, 0, 1⟩).machine = _ from hnew]
  rfl

lemma new_demo : (onFile (Elf64Reader.new (Files.fileSystem noDevices)) demoStart).1 =
    .ok demoReader := by decide +kernel

/-- Three bytes of a file and two zeros, on two pages. -/
theorem loaded_image_run : ∃ t,
    load (Files.fileSystem noDevices) roomy demoReader (loadBound demoReader) .new
      (onFile (Elf64Reader.new (Files.fileSystem noDevices)) demoStart).2 = (.ok (), t) ∧
    ∀ a < 2 ^ 48, userByte t.world.scope a =
      programImage demoFile demoReader.programHeaders a := by
  have hcreate : guarded CounterFits (step roomy) (boot ⟨fun _ => 0, 0, 1⟩) .create =
      some { boot demoStart.world.scope.machine with
        contexts := Function.update (fun _ => none) 0 (some demoStart.world.scope.context)
        next := 1 } := by
    rw [← create_roomy]
    exact guarded_eq_some.mpr ⟨by decide +kernel, step_create roomy _⟩
  have hempty : ∀ a < 2 ^ 48, translate demoStart.world.scope.machine.memory
      (physicalAddress demoStart.world.scope.context.tableL0) a = none := by
    intro a _
    rw [show demoStart.world.scope.machine.memory = fun _ => 0 from rfl]
    exact translate_zero
  have hnew : onFile (Elf64Reader.new (Files.fileSystem noDevices)) demoStart =
      (.ok demoReader, (onFile (Elf64Reader.new (Files.fileSystem noDevices)) demoStart).2) :=
    Prod.ext new_demo rfl
  have hfile : (withFile demoFile).world.contents (File.new demoNode).node = some demoFile := by
    decide +kernel
  obtain ⟨t, hload, himage⟩ := loaded_image (c := 0) (by decide) (by decide) (Run.single hcreate)
    rfl hempty hfile (by decide +kernel) hnew (by decide +kernel) (by decide +kernel)
  exact ⟨t, hload, fun a ha => (himage a ha).1⟩

end Pimento.ProgramImage
