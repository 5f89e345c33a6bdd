import Pimento.ProgramImage

/-!
Loading a program from a file system that may fail.

The iterator over the pages of a program takes an error of the file for its end, and pads with
zeros what a read leaves out. Where neither happens, a program is entered with every byte of its
file in place.
-/

namespace Pimento.CompleteLoad

open Address PageTable PageAllocator MemoryContext TableTree AllocPage Contexts Runs UserCopy
  UserPages Segments LoadablePages TaskExecution

variable {W : Type} (fs : FileSystem W) (pa : PageAllocator) (bytes : List Byte)
  (reader : Elf64Reader)

/-- The first `e` bytes of a segment that are in the file, as far as memory holds them, are among
the bytes copied to its addresses. -/
def LoadedTo (copied : List LoadablePage) (h : Elf64ProgramHeader) (e : ℕ) : Prop :=
  h.segmentType = programHeaderTypeLoad → ∀ j < min e (min h.fileSize h.memorySize),
    ∃ b, bytes[h.fileOffset + j]? = some b ∧
      ∃ page ∈ copied, ∃ i, page.address + i = h.virtualAddress + j ∧ page.bytes[i]? = some b

/-- Every byte of every loadable segment has been copied. -/
def Loaded (copied : List LoadablePage) : Prop :=
  ∀ h ∈ reader.programHeaders, LoadedTo bytes copied h (min h.fileSize h.memorySize)

/-- These are the bytes of the file that the page with index `k` of the segment is to hold. -/
def FillsPage (h : Elf64ProgramHeader) (k : ℕ) (buf : List Byte) : Prop :=
  ∀ j, offset h.virtualAddress k ≤ j →
    j < min (offset h.virtualAddress (k + 1)) (min h.fileSize h.memorySize) →
    ∃ b, bytes[h.fileOffset + j]? = some b ∧ buf[j - offset h.virtualAddress k]? = some b

/-- The file answers for the next page: the seek and the read succeed, and the read returns all
bytes of the file that the page is to hold. -/
def Answers (pages : LoadablePages) (s : Handle W File) : Prop :=
  match nextRange pages (reader.programHeaders.drop pages.programHeaderIndex) with
  | (none, _) => True
  | (some (fileRange, _), next) =>
    ∃ s₁ buf s₂, File.seek fs fileRange.start s = (.ok (), s₁) ∧
      File.read fs fileRange.len s₁ = (.ok buf, s₂) ∧
      ∀ h ∈ reader.programHeaders[next.programHeaderIndex]?, FillsPage bytes h next.pageIndex buf

/-- The file of a process, as the file system sees it. -/
def fileOf (s : Handle (Process W) File) : Handle W File := ⟨s.world.vfs.world, s.handle⟩

/-- One round of the loop: a page is read, mapped and copied. -/
inductive Round : LoadablePages × Handle (Process W) File →
    LoadablePages × Handle (Process W) File → Prop
  | page {pages next : LoadablePages} {s t u : Handle (Process W) File} {page : LoadablePage}
      (hn : onFile (LoadablePages.next fs reader pages) s = (.ok (some page, next), t))
      (hp : Handle.onWorld (loadPage pa page) t = (.ok (), u)) : Round (pages, s) (next, u)

/-- The file answers for every page that the loop comes to. -/
def AlwaysAnswers (s : Handle (Process W) File) : Prop :=
  ∀ pages t, Relation.ReflTransGen (Round fs pa reader) (.new, s) (pages, t) →
    Answers fs bytes reader pages (fileOf t)

/-- The address of the next `alloc_page`: that of the next page, and after the last one that of the
stack. -/
def nextAddress (pages : LoadablePages) : ℕ :=
  match nextRange pages (reader.programHeaders.drop pages.programHeaderIndex) with
  | (some (_, memoryRange), _) => memoryRange.start
  | (none, _) => stackInit - pageSize

/-- An `alloc_page` for this address that has to take a frame finds the counter below the end of its
range. -/
def CounterFitsAt (s : Scope) (v : ℕ) : Prop :=
  v < 2 ^ 48 → UserMapping.translation s v = none → s.machine.allocated + pageSize < 2 ^ 64

/-- The counter is below the end of its range at every `alloc_page` that takes a frame. -/
def AlwaysFits (s : Handle (Process W) File) : Prop :=
  ∀ pages t, Relation.ReflTransGen (Round fs pa reader) (.new, s) (pages, t) →
    CounterFitsAt t.world.scope (nextAddress reader pages)

variable {fs pa bytes reader} {h : Elf64ProgramHeader} {hs : List Elf64ProgramHeader}
  {copied : List LoadablePage} {e e' i k : ℕ} {buf : List Byte}

lemma LoadedTo.mono (hl : LoadedTo bytes copied h e) (page : LoadablePage) :
    LoadedTo bytes (copied ++ [page]) h e := by
  intro ht j hj
  obtain ⟨b, hb, p, hp, i, hi, hpb⟩ := hl ht j hj
  exact ⟨b, hb, p, List.mem_append_left _ hp, i, hi, hpb⟩

lemma LoadedTo.weaken (hl : LoadedTo bytes copied h e)
    (hle : h.segmentType = programHeaderTypeLoad → min e' (min h.fileSize h.memorySize) ≤ e) :
    LoadedTo bytes copied h e' := by
  intro ht j hj
  have hle' := hle ht
  exact hl ht j (by omega)

lemma loadedTo_zero : LoadedTo bytes copied h 0 := by
  intro _ j hj
  omega

/-! ### The ranges of any segment -/

/-- A segment that lies in user memory up to its page `k`: one that does not is left at its first
page. -/
def InUser (h : Elf64ProgramHeader) (k : ℕ) : Prop :=
  k ≤ segmentBound ∧ (k ≠ 0 → h.virtualAddress < 2 ^ 48)

/-- A page in user memory has a successor that is counted. -/
lemma inUser_succ (hu : h.virtualAddress + offset h.virtualAddress k < 2 ^ 48) :
    InUser h (k + 1) :=
  ⟨index_lt hu, fun _ => by omega⟩

lemma inUser_zero : InUser h 0 := ⟨Nat.zero_le _, by simp⟩

/-- The first page of a segment that begins beyond user memory. -/
lemma range_high (ht : h.segmentType = programHeaderTypeLoad) (hlt : h.virtualAddress < 2 ^ 64) :
    range h 0 = if h.memorySize = 0 then none else
      some (⟨wrap (h.fileOffset + min 0 h.fileSize),
          wrap (h.fileOffset + min (offset h.virtualAddress 1) h.fileSize)⟩,
        ⟨h.virtualAddress,
          wrap (h.virtualAddress + min (offset h.virtualAddress 1) h.memorySize)⟩) := by
  have hone : offset h.virtualAddress 1 = 1 * pageSize - h.virtualAddress % pageSize :=
    offset_succ h.virtualAddress 0
  have hpos : 0 < offset h.virtualAddress 1 := offset_lt_succ h.virtualAddress 0
  have hzero : offset h.virtualAddress 0 = 0 := rfl
  have hva : wrap h.virtualAddress = h.virtualAddress := wrap_of_lt hlt
  unfold range
  rw [if_neg (by simp [ht])]
  simp only [offsets_eq (Nat.zero_le _), hzero, Nat.zero_min, Nat.add_zero, Nat.zero_add, hva]
  by_cases hm : h.memorySize = 0
  · rw [if_pos (by rw [hm, Nat.min_zero, Nat.add_zero, hva]), if_pos hm]
  · rw [if_neg ?_, if_neg hm]
    unfold wrap pageSize at *
    omega

/-- A segment without a next page is complete. -/
lemma memorySize_le (hu : InUser h k) (hlt : h.virtualAddress < 2 ^ 64)
    (ht : h.segmentType = programHeaderTypeLoad) (hr : range h k = none) :
    h.memorySize ≤ offset h.virtualAddress k := by
  by_cases hva : h.virtualAddress < 2 ^ 48
  · exact range_none ht hva.le hu.1 hr
  · obtain rfl : k = 0 := by
      by_contra hk
      exact hva (hu.2 hk)
    rw [range_high ht hlt] at hr
    by_contra hge
    rw [if_neg (by omega)] at hr
    cases hr

/-- Where a page of a segment begins, and what is read for it. -/
lemma range_start (hu : InUser h k) (hlt : h.virtualAddress < 2 ^ 64) {r : Range × Range}
    (hr : range h k = some r) :
    h.segmentType = programHeaderTypeLoad ∧
      r.1 = ⟨wrap (h.fileOffset + min (offset h.virtualAddress k) h.fileSize),
        wrap (h.fileOffset + min (offset h.virtualAddress (k + 1)) h.fileSize)⟩ ∧
      r.2.start = h.virtualAddress + offset h.virtualAddress k ∧
      (h.virtualAddress < 2 ^ 48 → offset h.virtualAddress k < h.memorySize ∧
        r.2.len =
          min (offset h.virtualAddress (k + 1)) h.memorySize - offset h.virtualAddress k) := by
  have ht := range_load hr
  by_cases hva : h.virtualAddress < 2 ^ 48
  · rw [range_eq ht hva.le hu.1] at hr
    split at hr
    · rename_i ho
      cases hr
      refine ⟨ht, rfl, rfl, fun _ => ⟨ho, ?_⟩⟩
      rw [Range.len, Nat.add_sub_add_left]
    · cases hr
  · obtain rfl : k = 0 := by
      by_contra hk
      exact hva (hu.2 hk)
    rw [range_high ht hlt] at hr
    split at hr
    · cases hr
    · cases hr
      exact ⟨ht, rfl, rfl, fun h => absurd h hva⟩

/-! ### The loop -/

/-- A context whose tables are in order. -/
def Mapped (s : Scope) : Prop := ∃ P root, Holds s P root

/-- The counter, if below the end of its range before, is so after. -/
def StaysBelow (s t : Scope) : Prop :=
  s.machine.allocated + pageSize < 2 ^ 64 → t.machine.allocated + pageSize < 2 ^ 64

/-- `alloc_page` fails, or maps the page so that a copy within it succeeds. -/
lemma allocPage_mapped (hcap : pa.capacity ≤ 2 ^ 48) {s : Scope} (hs : Mapped s) {v : ℕ}
    (hfits : CounterFitsAt s v) :
    (∃ t, allocPage pa v s = (.err, t)) ∨
      v < 2 ^ 48 ∧ ∃ g t, allocPage pa v s = (.ok g, t) ∧
        ∀ buf, v % pageSize + buf.length ≤ pageSize →
          ∃ u, copyToUser buf v t = (.ok (), u) ∧ Mapped u ∧ StaysBelow s u := by
  obtain ⟨P, root, hh⟩ := hs
  by_cases hv : v < 2 ^ 48
  · obtain ⟨c, t, P', ht, -, -, hpage, -, -, hcounter, hcall⟩ := allocPage_spec hcap hv hh
      fun hn => hfits hv (by rw [UserMapping.translation_holds hh hv, hn]; rfl)
    rcases c with _ | g
    · exact .inl ⟨t, hcall⟩
    · refine .inr ⟨hv, g, t, hcall, fun buf hlen => ?_⟩
      exact ⟨_, copyToUser_page buf t v ht hv hpage hlen,
        ⟨P', root, holds_stored ht hpage hlen⟩, hcounter (by simp)⟩
  · exact .inl ⟨s, allocPage_out_of_range (by omega)⟩

/-- A page of the program is mapped and copied, or the call fails. -/
lemma loadPage_mapped (hcap : pa.capacity ≤ 2 ^ 48) {s : Handle (Process W) File}
    (hs : Mapped s.world.scope) (page : LoadablePage)
    (hfits : CounterFitsAt s.world.scope page.address)
    (hlen : page.address < 2 ^ 48 → page.address % pageSize + page.bytes.length ≤ pageSize) :
    (∃ t, Handle.onWorld (loadPage pa page) s = (.err, t)) ∨
      page.address < 2 ^ 48 ∧ ∃ x, Mapped x ∧ StaysBelow s.world.scope x ∧
        Handle.onWorld (loadPage pa page) s =
          (.ok (), ⟨⟨s.world.vfs, x, s.world.copied ++ [page]⟩, s.handle⟩) := by
  rcases allocPage_mapped hcap hs hfits with ⟨t, ht⟩ | ⟨hv, g, t, ht, hcopy⟩
  · refine .inl ⟨⟨⟨s.world.vfs, t, s.world.copied⟩, s.handle⟩, ?_⟩
    have hload : loadPage pa page s.world = (.err, ⟨s.world.vfs, t, s.world.copied⟩) := by
      unfold loadPage
      refine Exec.bind_err ?_
      rw [onScope, Exec.zoom, ht]
    rw [Handle.onWorld, Exec.zoom, hload]
  · obtain ⟨u, hu, hmapped, hbelow⟩ := hcopy page.bytes (hlen hv)
    refine .inr ⟨hv, u, hmapped, hbelow, ?_⟩
    rw [Handle.onWorld, Exec.zoom, loadPage_ok ht hu]

/-- A page that the file answers for. -/
lemma next_answers {pages next : LoadablePages} {s : Handle (Process W) File} {r : Range × Range}
    (ha : Answers fs bytes reader pages (fileOf s))
    (hr : nextRange pages (reader.programHeaders.drop pages.programHeaderIndex) = (some r, next))
    (hh : reader.programHeaders[next.programHeaderIndex]? = some h) :
    ∃ buf world file, FillsPage bytes h next.pageIndex buf ∧
      onFile (LoadablePages.next fs reader pages) s =
        (.ok (some ⟨r.2.start, resize buf r.2.len⟩, { next with pageIndex := next.pageIndex + 1 }),
          ⟨{ s.world with vfs := { s.world.vfs with world := world } }, file⟩) := by
  unfold Answers at ha
  rw [hr] at ha
  obtain ⟨s₁, buf, s₂, hseek, hread, hfills⟩ := ha
  refine ⟨buf, s₂.world, s₂.handle, hfills h hh, onFile_ok ?_⟩
  rw [LoadablePages.next, hr]
  exact (Exec.bind_ok (Exec.ok_of_ok hseek)).trans (Exec.bind_ok (Exec.ok_of_ok hread))

/-- The bytes of a page of the segment, once it has been copied. -/
lemma LoadedTo.page (hl : LoadedTo bytes copied h (offset h.virtualAddress k))
    (hf : FillsPage bytes h k buf) :
    LoadedTo bytes (copied ++ [⟨h.virtualAddress + offset h.virtualAddress k,
      resize buf (min (offset h.virtualAddress (k + 1)) h.memorySize -
        offset h.virtualAddress k)⟩]) h (offset h.virtualAddress (k + 1)) := by
  intro ht j hj
  rcases Nat.lt_or_ge j (offset h.virtualAddress k) with hlt | hge
  · exact hl.mono _ ht j (by omega)
  · obtain ⟨b, hb, hbuf⟩ := hf j hge hj
    refine ⟨b, hb, _, List.mem_append_right _ (List.mem_singleton_self _),
      j - offset h.virtualAddress k, ?_, ?_⟩
    · show h.virtualAddress + offset h.virtualAddress k + (j - offset h.virtualAddress k) = _
      omega
    · have hlen := (List.getElem?_eq_some_iff.mp hbuf).1
      rw [resize, List.getElem?_append_left (by rw [List.length_take]; omega),
        List.getElem?_take_of_lt (by omega), hbuf]

lemma range_of_skipped {pre : List Elf64ProgramHeader} (hs : Skipped pre 0) (hm : h ∈ pre) :
    range h 0 = none := by
  induction pre with
  | nil => simp at hm
  | cons g pre ih =>
    rcases List.mem_cons.mp hm with rfl | hm
    · exact hs.1
    · exact ih hs.2 hm

/-- Where the loop is: the segments before are complete, and the current one as far as its next
page. -/
structure Progress (bytes : List Byte) (hs rest : List Elf64ProgramHeader) (k : ℕ)
    (copied : List LoadablePage) : Prop where
  fields : ∀ h ∈ hs, h.virtualAddress < 2 ^ 64
  suffix : rest <:+ hs
  before : ∀ h ∈ hs, h ∈ rest ∨ LoadedTo bytes copied h (min h.fileSize h.memorySize)
  current : ∀ h ∈ rest.head?, InUser h k ∧ LoadedTo bytes copied h (offset h.virtualAddress k)

/-- Segments that have no page left are complete. -/
lemma Progress.skip {pre post : List Elf64ProgramHeader}
    (hp : Progress bytes hs (pre ++ post) k copied) (hsk : Skipped pre k) :
    Progress bytes hs post (if pre = [] then k else 0) copied := by
  have hfields := fun h hm => hp.fields h (hp.suffix.subset hm)
  have hdone : ∀ h ∈ pre, LoadedTo bytes copied h (min h.fileSize h.memorySize) := by
    intro h hm
    rcases pre with _ | ⟨g, pre⟩
    · simp at hm
    · rcases List.mem_cons.mp hm with rfl | hm
      · obtain ⟨hu, hl⟩ := hp.current h rfl
        refine hl.weaken fun ht => ?_
        have := memorySize_le hu (hfields h (by simp)) ht hsk.1
        omega
      · refine loadedTo_zero.weaken fun ht => ?_
        have := memorySize_le inUser_zero (hfields h (by simp [hm])) ht
          (range_of_skipped hsk.2 hm)
        have hzero : offset h.virtualAddress 0 = 0 := rfl
        omega
  refine ⟨hp.fields, (List.suffix_append _ _).trans hp.suffix, fun h hm => ?_, fun h hm => ?_⟩
  · rcases hp.before h hm with hr | hl
    · rcases List.mem_append.mp hr with hr | hr
      · exact .inr (hdone h hr)
      · exact .inl hr
    · exact .inr hl
  · rcases pre with _ | ⟨g, pre⟩
    · exact hp.current h hm
    · exact ⟨inUser_zero, loadedTo_zero⟩

/-- One more page of the current segment is copied. -/
lemma Progress.page {post : List Elf64ProgramHeader} (hp : Progress bytes hs (h :: post) k copied)
    (hva : h.virtualAddress + offset h.virtualAddress k < 2 ^ 48) (hf : FillsPage bytes h k buf) :
    Progress bytes hs (h :: post) (k + 1) (copied ++ [⟨h.virtualAddress + offset h.virtualAddress k,
      resize buf (min (offset h.virtualAddress (k + 1)) h.memorySize -
        offset h.virtualAddress k)⟩]) where
  fields := hp.fields
  suffix := hp.suffix
  before g hm := (hp.before g hm).imp_right fun hl => hl.mono _
  current g hg := by
    obtain rfl : h = g := by simpa using hg
    exact ⟨inUser_succ hva, (hp.current h rfl).2.page hf⟩

lemma Progress.index_le {headers rest : List Elf64ProgramHeader}
    (hp : Progress bytes headers rest k copied) (hnil : rest = [] → k = 0) : k ≤ segmentBound := by
  cases rest with
  | nil => exact (hnil rfl).le.trans (Nat.zero_le _)
  | cons h rest => exact (hp.current h rfl).1.1

/-- The bytes for a page fit into it. -/
lemma page_fits (hu : InUser h k) (hlt : h.virtualAddress < 2 ^ 64) {r : Range × Range}
    (hr : range h k = some r) (hv : r.2.start < 2 ^ 48) (buf : List Byte) :
    r.2.start % pageSize + (resize buf r.2.len).length ≤ pageSize := by
  obtain ⟨-, -, hstart, hlen⟩ := range_start hu hlt hr
  have hpage := offset_page h.virtualAddress k
  rw [resize_length, (hlen (by omega)).2, hstart]
  omega

/-- **The loop**: where the file always answers, it fails or copies every byte. -/
theorem load_complete (hcap : pa.capacity ≤ 2 ^ 48) (n : ℕ) :
    ∀ (rest : List Elf64ProgramHeader) (i k : ℕ) (s : Handle (Process W) File),
      reader.programHeaders.drop i = rest → (rest = [] → k = 0) →
      rest.length * segmentBound + 1 ≤ n + k → Mapped s.world.scope →
      Progress bytes reader.programHeaders rest k s.world.copied →
      (∀ pages t, Relation.ReflTransGen (Round fs pa reader) (⟨i, k⟩, s) (pages, t) →
        Answers fs bytes reader pages (fileOf t) ∧
          CounterFitsAt t.world.scope (nextAddress reader pages)) →
      ∃ t, load fs pa reader n ⟨i, k⟩ s = (.err, t) ∨
        load fs pa reader n ⟨i, k⟩ s = (.ok (), t) ∧ Loaded bytes reader t.world.copied ∧
          Mapped t.world.scope ∧ CounterFitsAt t.world.scope (stackInit - pageSize) := by
  induction n with
  | zero =>
    intro rest i k s hdrop hnil hn hs hp ha
    exact absurd (rounds_pos hnil (hp.index_le hnil) hn) (lt_irrefl 0)
  | succ n ih =>
    intro rest i k s hdrop hnil hn hs hp ha
    rcases nextRange_cases rest i k with ⟨c, hc, hsk⟩ | ⟨pre, h, post, k', r, rfl, hsk, hr, hc, hk'⟩
    · have hend : Progress bytes reader.programHeaders [] _ s.world.copied :=
        Progress.skip (by rwa [List.append_nil]) hsk
      have hfits := (ha _ s .refl).2
      rw [nextAddress, hdrop, hc] at hfits
      refine ⟨s, .inr ⟨load_none (next_end (by rw [hdrop, hc])), fun h hm => ?_, hs, hfits⟩⟩
      exact (hend.before h hm).resolve_left (by simp)
    · have hp' := hp.skip hsk
      rw [← hk'] at hp'
      have hdrop' : reader.programHeaders.drop (i + pre.length) = h :: post := by
        rw [← List.drop_drop, hdrop, List.drop_left]
      have hh : reader.programHeaders[i + pre.length]? = some h := by
        rw [← List.head?_drop, hdrop']
        rfl
      obtain ⟨hu, -⟩ := hp'.current h rfl
      have hlt := hp'.fields h (List.mem_of_getElem? hh)
      obtain ⟨-, -, hstart, hlen⟩ := range_start hu hlt hr
      obtain ⟨buf, world, file, hfills, hnext⟩ := next_answers (ha _ s .refl).1
        (show nextRange ⟨i, k⟩ (reader.programHeaders.drop (LoadablePages.mk i k).1) =
          (some r, ⟨i + pre.length, k'⟩) by rw [hdrop, hc]) hh
      have hcounter := (ha _ s .refl).2
      rw [nextAddress, hdrop, hc] at hcounter
      rcases loadPage_mapped hcap (s := ⟨{ s.world with
          vfs := { s.world.vfs with world := world } }, file⟩) hs
          ⟨r.2.start, resize buf r.2.len⟩ hcounter fun hv => page_fits hu hlt hr hv buf
        with ⟨t, ht⟩ | ⟨hv, x, hx, -, ht⟩
      · -- no frame for the page, or an address beyond user memory
        refine ⟨t, .inl ?_⟩
        rw [load, Exec.bind_ok hnext]
        exact Exec.bind_err ht
      · have hv' : h.virtualAddress + offset h.virtualAddress k' < 2 ^ 48 := hstart ▸ hv
        have hpage := hp'.page hv' hfills
        rw [← hstart, ← (hlen (by omega)).2] at hpage
        have hround : Round fs pa reader (⟨i, k⟩, s) _ := .page hnext ht
        rw [load_some hnext ht]
        refine ih (h :: post) (i + pre.length) (k' + 1) _ hdrop' (by simp) ?_ hx hpage
          fun pages t hreach => ha pages t (.head hround hreach)
        exact rounds_left (hp.index_le hnil) hk' hn

/-- **Errors are lost**: where the seek or the read for a page fails, the loop ends as it does
after the last page, and what was copied stays all there is. -/
theorem load_error {pages next : LoadablePages} {s : Handle (Process W) File} {r : Range × Range}
    {f : Handle W File} (n : ℕ)
    (hr : nextRange pages (reader.programHeaders.drop pages.programHeaderIndex) = (some r, next))
    (he : File.seek fs r.1.start (fileOf s) = (.err, f) ∨
      ∃ f₁, File.seek fs r.1.start (fileOf s) = (.ok (), f₁) ∧
        File.read fs r.1.len f₁ = (.err, f)) :
    ∃ t, load fs pa reader (n + 1) pages s = (.ok (), t) ∧ t.world.copied = s.world.copied ∧
      t.world.scope = s.world.scope := by
  have hnext : LoadablePages.next fs reader pages (fileOf s) = (.ok (none, next), f) := by
    rw [LoadablePages.next, hr]
    rcases he with hseek | ⟨f₁, hseek, hread⟩
    · exact (Exec.bind_ok (Exec.ok_of_err hseek)).trans rfl
    · exact (Exec.bind_ok (Exec.ok_of_ok hseek)).trans (Exec.bind_ok (Exec.ok_of_err hread))
  exact ⟨_, load_none (onFile_ok hnext), rfl, rfl⟩

/-! ### The rounds -/

/-- The segment that the iterator is at lies in user memory up to its page. -/
def Current (hs : List Elf64ProgramHeader) (pages : LoadablePages) : Prop :=
  ∀ h ∈ hs[pages.programHeaderIndex]?, InUser h pages.pageIndex

lemma current_new : Current hs .new := fun _ _ => inUser_zero

/-- The segment and page that the iterator goes on with. -/
lemma Current.next {pages next : LoadablePages} {r : Range × Range}
    (hs : Current reader.programHeaders pages)
    (hr : nextRange pages (reader.programHeaders.drop pages.programHeaderIndex) = (some r, next)) :
    ∃ h, reader.programHeaders[next.programHeaderIndex]? = some h ∧ InUser h next.pageIndex ∧
      range h next.pageIndex = some r := by
  rcases nextRange_cases (reader.programHeaders.drop pages.programHeaderIndex)
      pages.programHeaderIndex pages.pageIndex with
    ⟨c, hc, -⟩ | ⟨pre, h, post, k, r', hdrop, -, hr', hc, hk⟩
  · rw [show (⟨pages.programHeaderIndex, pages.pageIndex⟩ : LoadablePages) = pages from rfl, hr]
      at hc
    cases hc
  · rw [show (⟨pages.programHeaderIndex, pages.pageIndex⟩ : LoadablePages) = pages from rfl, hr]
      at hc
    cases hc
    have hdrop' : reader.programHeaders.drop (pages.programHeaderIndex + pre.length) =
        h :: post := by
      rw [← List.drop_drop, hdrop, List.drop_left]
    have hh : reader.programHeaders[pages.programHeaderIndex + pre.length]? = some h := by
      rw [← List.head?_drop, hdrop']
      rfl
    refine ⟨h, hh, ?_, hr'⟩
    show InUser h k
    rw [hk]
    split
    · rename_i hpre
      rw [hpre] at hh
      exact hs h hh
    · exact inUser_zero

/-- The page that a round loads, where the file answers for it. -/
lemma Round.loads {pages next : LoadablePages} {s u : Handle (Process W) File}
    (hround : Round fs pa reader (pages, s) (next, u))
    (hfields : ∀ h ∈ reader.programHeaders, h.virtualAddress < 2 ^ 64)
    (hc : Current reader.programHeaders pages) (ha : Answers fs bytes reader pages (fileOf s)) :
    ∃ page t, t.world.scope = s.world.scope ∧
      Handle.onWorld (loadPage pa page) t = (.ok (), u) ∧
      (page.address < 2 ^ 48 → page.address % pageSize + page.bytes.length ≤ pageSize ∧
        Current reader.programHeaders next) := by
  obtain ⟨hn, hp⟩ := hround
  rename_i t page
  rcases hr : nextRange pages (reader.programHeaders.drop pages.programHeaderIndex) with
    ⟨_ | r, next₀⟩
  · have hend : onFile (LoadablePages.next fs reader pages) s = _ := next_end hr
    rw [hend] at hn
    cases (Prod.ext_iff.mp hn).1
  · obtain ⟨h, hh, hu, hrange⟩ := hc.next hr
    obtain ⟨buf, world, file, -, hnext⟩ := next_answers ha hr hh
    rw [hnext] at hn
    obtain ⟨hread, rfl⟩ := Prod.ext_iff.mp hn
    obtain ⟨rfl, rfl⟩ : (⟨r.2.start, resize buf r.2.len⟩ : LoadablePage) = page ∧
        { next₀ with pageIndex := next₀.pageIndex + 1 } = next := by
      simpa using hread
    have hlt := hfields h (List.mem_of_getElem? hh)
    obtain ⟨-, -, hstart, -⟩ := range_start hu hlt hrange
    refine ⟨_, ⟨{ s.world with vfs := { s.world.vfs with world := world } }, file⟩, rfl, hp,
      fun hv => ?_⟩
    refine ⟨page_fits hu hlt hrange hv buf, fun g hg => ?_⟩
    obtain rfl : h = g := Option.some.inj (hh.symm.trans hg)
    exact inUser_succ (hstart ▸ hv)

/-- A counter that is below the end of its range before the loop is so at every page. -/
theorem alwaysFits_of_lt (hcap : pa.capacity ≤ 2 ^ 48)
    (hfields : ∀ h ∈ reader.programHeaders, h.virtualAddress < 2 ^ 64)
    {s : Handle (Process W) File} (hs : Mapped s.world.scope)
    (hlt : s.world.scope.machine.allocated + pageSize < 2 ^ 64)
    (ha : AlwaysAnswers fs pa bytes reader s) : AlwaysFits fs pa reader s := by
  have hinv : ∀ x, Relation.ReflTransGen (Round fs pa reader) (.new, s) x →
      Current reader.programHeaders x.1 ∧ Mapped x.2.world.scope ∧
        x.2.world.scope.machine.allocated + pageSize < 2 ^ 64 := by
    intro x hreach
    induction hreach with
    | refl => exact ⟨current_new, hs, hlt⟩
    | tail hreach hround ih =>
      obtain ⟨hc, hmapped, hbelow⟩ := ih
      obtain ⟨page, t, hscope, hload, hfit⟩ := hround.loads hfields hc (ha _ _ hreach)
      rw [← hscope] at hmapped hbelow
      rcases loadPage_mapped hcap hmapped page (fun _ _ => hbelow) fun hv => (hfit hv).1 with
        ⟨u, hu⟩ | ⟨hv, x, hx, hstays, hu⟩
      · rw [hu] at hload
        cases (Prod.ext_iff.mp hload).1
      · have hnext : _ = Handle.mk _ _ := (Prod.ext_iff.mp (hload.symm.trans hu)).2
        rw [hnext]
        exact ⟨(hfit hv).2, hx, hstays hbelow⟩
  exact fun pages t hreach _ _ => (hinv _ hreach).2.2

/-! ### A file that is served -/

/-- Every loadable segment lies in the file. -/
def InFile (bytes : List Byte) (hs : List Elf64ProgramHeader) : Prop :=
  ∀ h ∈ hs, h.segmentType = programHeaderTypeLoad → h.fileOffset + h.fileSize ≤ bytes.length

instance (bytes : List Byte) (hs : List Elf64ProgramHeader) : Decidable (InFile bytes hs) :=
  inferInstanceAs (Decidable (∀ h ∈ hs, _ → _))

variable {node : Node} {I : W → Prop}

lemma fillsPage_read (hfile : h.fileOffset + h.fileSize ≤ bytes.length) :
    FillsPage bytes h k
      ((bytes.drop (h.fileOffset + min (offset h.virtualAddress k) h.fileSize)).take
        (min (offset h.virtualAddress (k + 1)) h.fileSize -
          min (offset h.virtualAddress k) h.fileSize)) := by
  intro j hge hlt
  have hj : h.fileOffset + j < bytes.length := by omega
  refine ⟨bytes[h.fileOffset + j], List.getElem?_eq_getElem hj, ?_⟩
  rw [List.getElem?_take_of_lt (by omega), List.getElem?_drop, List.getElem?_eq_getElem (by omega)]
  congr 2
  omega

/-- What stays as it is while a served file is loaded. -/
structure Served (node : Node) (I : W → Prop) (hs : List Elf64ProgramHeader) (pages : LoadablePages)
    (s : Handle (Process W) File) : Prop where
  world : I s.world.vfs.world
  node : s.handle.node = node
  current : Current hs pages

lemma onWorld_inv {V α : Type} {x : Exec V α} {s t : Handle V File} {a : α}
    (h : Handle.onWorld x s = (.ok a, t)) : x s.world = (.ok a, t.world) ∧ t.handle = s.handle := by
  rw [Handle.onWorld, Exec.zoom] at h
  obtain ⟨h₁, rfl⟩ := Prod.ext_iff.mp h
  exact ⟨Prod.ext h₁ rfl, rfl⟩

lemma onScope_vfs {α : Type} (x : Exec Scope α) (s : Process W) : (onScope x s).2.vfs = s.vfs := rfl

/-- A page is loaded to user memory, and the file systems are not touched. -/
lemma loadPage_inv {page : LoadablePage} {s u : Process W} (h : loadPage pa page s = (.ok (), u)) :
    page.address < 2 ^ 48 ∧ u.vfs = s.vfs := by
  unfold loadPage copyPage at h
  obtain ⟨g, t, halloc, h⟩ := Exec.bind_eq_ok.mp h
  obtain ⟨_, v, hcopy, h⟩ := Exec.bind_eq_ok.mp h
  have ht := onScope_vfs (allocPage pa page.address) s
  have hv := onScope_vfs (UserCopy.copyToUser page.bytes page.address) t
  rw [halloc] at ht
  rw [hcopy] at hv
  obtain rfl := (Prod.ext_iff.mp h).2
  refine ⟨?_, hv.trans ht⟩
  by_contra hge
  have hout : allocPage pa page.address s.scope = (.err, s.scope) :=
    allocPage_out_of_range (Nat.le_of_not_lt hge)
  rw [onScope, Exec.zoom, hout] at halloc
  cases (Prod.ext_iff.mp halloc).1

/-- However the next page is read, the file is still served. -/
lemma keeps_next (hserves : Serves fs node bytes I) (pages : LoadablePages) :
    Exec.Keeps (fun s => I s.world ∧ s.handle.node = node)
      (LoadablePages.next fs reader pages) := by
  unfold LoadablePages.next
  rcases nextRange pages (reader.programHeaders.drop pages.programHeaderIndex) with ⟨_ | r, next⟩
  · exact Exec.keeps_pure _
  · refine (hserves.keeps_seek _).ok.bind fun o => ?_
    rcases o with _ | _
    · exact Exec.keeps_pure _
    · refine (hserves.keeps_read _).ok.bind fun o => ?_
      rcases o with _ | _ <;> exact Exec.keeps_pure _

section

variable (hserves : Serves fs node bytes I) (hlen : bytes.length < 2 ^ 64)
  (hfields : ∀ h ∈ reader.programHeaders, h.virtualAddress < 2 ^ 64)
  (hfile : InFile bytes reader.programHeaders)

include hserves hlen hfields hfile

lemma Served.answers {pages : LoadablePages} {s : Handle (Process W) File}
    (hs : Served node I reader.programHeaders pages s) :
    Answers fs bytes reader pages (fileOf s) := by
  unfold Answers
  rcases hr : nextRange pages (reader.programHeaders.drop pages.programHeaderIndex) with
    ⟨_ | ⟨fileRange, memoryRange⟩, next⟩
  · trivial
  · obtain ⟨h, hh, hu, hrange⟩ := hs.current.next hr
    have hm := List.mem_of_getElem? hh
    obtain ⟨ht, hread, -, -⟩ := range_start hu (hfields h hm) hrange
    have hin := hfile h hm ht
    have hstart : wrap (h.fileOffset + min (offset h.virtualAddress next.pageIndex) h.fileSize) =
        h.fileOffset + min (offset h.virtualAddress next.pageIndex) h.fileSize :=
      wrap_of_lt (by omega)
    have hstop :
        wrap (h.fileOffset + min (offset h.virtualAddress (next.pageIndex + 1)) h.fileSize) =
        h.fileOffset + min (offset h.virtualAddress (next.pageIndex + 1)) h.fileSize :=
      wrap_of_lt (by omega)
    rw [hstart, hstop] at hread
    replace hread : fileRange = _ := hread
    have hcount : fileRange.len = min (offset h.virtualAddress (next.pageIndex + 1)) h.fileSize -
        min (offset h.virtualAddress next.pageIndex) h.fileSize := by
      rw [hread, Range.len, Nat.add_sub_add_left]
    have hbegin : fileRange.start =
        h.fileOffset + min (offset h.virtualAddress next.pageIndex) h.fileSize := by
      rw [hread]
    have hle := offset_lt_succ h.virtualAddress next.pageIndex
    obtain ⟨w₁, hseek, hI₁⟩ := hserves.file_seek hs.world hs.node fileRange.start (s := fileOf s)
    obtain ⟨w₂, hbuf, -⟩ := hserves.file_read (s := ⟨w₁, ⟨node, fileRange.start⟩⟩) hI₁ rfl
      fileRange.len (show fileRange.start + fileRange.len ≤ bytes.length by omega)
    refine ⟨_, _, _, hseek, hbuf, fun g hg => ?_⟩
    obtain rfl : h = g := Option.some.inj (hh.symm.trans hg)
    have hfills := fillsPage_read (k := next.pageIndex) hin
    rwa [← hbegin, ← hcount] at hfills

/-- **Step lemma**: a round keeps the file served. -/
lemma Served.round {x y : LoadablePages × Handle (Process W) File}
    (hr : Round fs pa reader x y) (hs : Served node I reader.programHeaders x.1 x.2) :
    Served node I reader.programHeaders y.1 y.2 := by
  obtain ⟨hn, hp⟩ := hr
  rename_i pages next s t u page
  have hkeeps : Exec.Keeps _ (LoadablePages.next fs reader pages) := keeps_next hserves pages
  obtain ⟨hI, hnode⟩ := hkeeps (fileOf s) ⟨hs.world, hs.node⟩
  have hafter : (LoadablePages.next fs reader pages (fileOf s)).2 = fileOf t :=
    congrArg fileOf (congrArg Prod.snd hn)
  rw [hafter] at hI hnode
  obtain ⟨hload, hhandle⟩ := onWorld_inv hp
  obtain ⟨-, hvfs⟩ := loadPage_inv hload
  refine ⟨?_, hhandle.symm ▸ hnode, ?_⟩
  · show I u.world.vfs.world
    rw [hvfs]
    exact hI
  · obtain ⟨page', t', -, hp', hfit⟩ := Round.loads (.page hn hp) hfields hs.current
      (hs.answers hserves hlen hfields hfile)
    exact (hfit (loadPage_inv (onWorld_inv hp').1).1).2

/-- **Files that are served answer**, where every loadable segment lies in the file. -/
theorem alwaysAnswers_of_serves {s : Handle (Process W) File} (hI : I s.world.vfs.world)
    (hnode : s.handle.node = node) : AlwaysAnswers fs pa bytes reader s := by
  have hs : ∀ x, Relation.ReflTransGen (Round fs pa reader) (.new, s) x →
      Served node I reader.programHeaders x.1 x.2 := by
    intro x hreach
    induction hreach with
    | refl => exact ⟨hI, hnode, current_new⟩
    | tail _ hr ih => exact ih.round hserves hlen hfields hfile hr
  exact fun pages t hreach => (hs _ hreach).answers hserves hlen hfields hfile

end

/-! ### The whole call -/

lemma virtualAddress_lt {value : List Byte} (hv : Elf64ProgramHeader.tryFrom value = some h) :
    h.virtualAddress < 2 ^ 64 := by
  unfold Elf64ProgramHeader.tryFrom at hv
  split at hv
  · cases hv
    exact field_lt 16 8
  · cases hv

lemma readProgramHeaders_fields {n : ℕ} {s t : Handle W File}
    (hr : Elf64Reader.readProgramHeaders fs n s = (.ok hs, t)) :
    ∀ h ∈ hs, h.virtualAddress < 2 ^ 64 := by
  induction n generalizing s t hs with
  | zero =>
    cases (Prod.ext_iff.mp hr).1
    simp
  | succ n ih =>
    rw [Elf64Reader.readProgramHeaders] at hr
    obtain ⟨value, s₁, -, hr⟩ := Exec.bind_eq_ok.mp hr
    obtain ⟨g, s₂, hg, hr⟩ := Exec.bind_eq_ok.mp hr
    obtain ⟨gs, s₃, hgs, hr⟩ := Exec.bind_eq_ok.mp hr
    cases (Prod.ext_iff.mp hr).1
    intro h hm
    rcases List.mem_cons.mp hm with rfl | hm
    · rcases hv : Elf64ProgramHeader.tryFrom value with _ | g
      · rw [hv] at hg
        cases (Prod.ext_iff.mp hg).1
      · rw [hv] at hg
        cases (Prod.ext_iff.mp hg).1
        exact virtualAddress_lt hv
    · exact ih hgs h hm

lemma new_fields {s t : Handle W File} (hr : Elf64Reader.new fs s = (.ok reader, t)) :
    ∀ h ∈ reader.programHeaders, h.virtualAddress < 2 ^ 64 := by
  unfold Elf64Reader.new at hr
  obtain ⟨_, _, -, hr⟩ := Exec.bind_eq_ok.mp hr
  obtain ⟨_, _, -, hr⟩ := Exec.bind_eq_ok.mp hr
  obtain ⟨_, _, -, hr⟩ := Exec.bind_eq_ok.mp hr
  obtain ⟨_, _, -, hr⟩ := Exec.bind_eq_ok.mp hr
  obtain ⟨_, _, -, hr⟩ := Exec.bind_eq_ok.mp hr
  obtain ⟨_, _, hheaders, hr⟩ := Exec.bind_eq_ok.mp hr
  cases (Prod.ext_iff.mp hr).1
  exact readProgramHeaders_fields hheaders

/-- **Complete loading**: where the file answers for every page that the loop comes to, and the
frame counter does not come to its end, the call returns an error or enters user code after every
byte of every loadable segment was copied. -/
theorem execute_complete {m : Machine} {es : List Event} {w : World} {c : ℕ}
    {context : MemoryContext} {path : PathInfo} {vfs vfs' : Vfs W} {file : File} {f : Handle W File}
    (hcap : pa.capacity ≤ 2 ^ 48) (hal : pageSize ∣ m.allocated)
    (hrun : Run (guarded CounterFits (step pa)) (boot m) es w)
    (hc : w.contexts c = some context)
    (hopen : FileManager.openFile fs path vfs = (.ok file, vfs'))
    (hnew : Elf64Reader.new fs ⟨vfs'.world, file⟩ = (.ok reader, f))
    (ha : AlwaysAnswers fs pa bytes reader
      ⟨⟨{ vfs' with world := f.world }, ⟨w.machine, context⟩, []⟩, f.handle⟩)
    (hfits : AlwaysFits fs pa reader
      ⟨⟨{ vfs' with world := f.world }, ⟨w.machine, context⟩, []⟩, f.handle⟩) :
    ∃ t, execute fs pa path ⟨vfs, ⟨w.machine, context⟩, []⟩ = (.err, t) ∨
      execute fs pa path ⟨vfs, ⟨w.machine, context⟩, []⟩ =
        (.ok ⟨reader.entryPoint, stackInit⟩, t) ∧ Loaded bytes reader t.copied := by
  obtain ⟨H, howned⟩ := Isolation.owned_run hcap hal hrun
  obtain ⟨root, hholds⟩ := howned.holds hc
  have hopen' : onVfs (FileManager.openFile fs path) ⟨vfs, ⟨w.machine, context⟩, []⟩ =
      (.ok file, ⟨vfs', ⟨w.machine, context⟩, []⟩) := by
    rw [onVfs, Exec.zoom, hopen]
  have hnew' : onFile (Elf64Reader.new fs) ⟨⟨vfs', ⟨w.machine, context⟩, []⟩, file⟩ =
      (.ok reader, ⟨⟨{ vfs' with world := f.world }, ⟨w.machine, context⟩, []⟩, f.handle⟩) :=
    onFile_ok hnew
  have hmapped : Mapped ⟨w.machine, context⟩ := ⟨H.space c, root, hholds⟩
  have hprogress : Progress bytes reader.programHeaders reader.programHeaders 0 [] :=
    ⟨new_fields hnew, List.suffix_refl _, fun _ hm => .inl hm, fun _ _ =>
      ⟨inUser_zero, loadedTo_zero⟩⟩
  rw [execute, Exec.bind_ok hopen']
  obtain ⟨t, hload | ⟨hload, hloaded, ht, hstack⟩⟩ := load_complete hcap (loadBound reader)
    reader.programHeaders 0 0 _ rfl (fun _ => rfl) (le_refl _) hmapped hprogress
      fun pages t hreach => ⟨ha pages t hreach, hfits pages t hreach⟩
  · refine ⟨t.world, .inl ?_⟩
    have hfile : executeFile fs pa ⟨⟨vfs', ⟨w.machine, context⟩, []⟩, file⟩ = (.err, t) := by
      rw [executeFile, Exec.bind_ok hnew']
      exact Exec.bind_err hload
    rw [Handle.withHandle, hfile]
  · have hbind : executeFile fs pa ⟨⟨vfs', ⟨w.machine, context⟩, []⟩, file⟩ =
        (Handle.onWorld (onScope (allocPage pa (stackInit - pageSize))) >>= fun _ =>
          pure ⟨reader.entryPoint, stackInit⟩) t := by
      rw [executeFile, Exec.bind_ok hnew']
      exact Exec.bind_ok hload
    rcases allocPage_mapped hcap ht hstack with ⟨x, hx⟩ | ⟨-, g, x, hx, -⟩
    · have hstack : Handle.onWorld (onScope (allocPage pa (stackInit - pageSize))) t =
          (.err, ⟨⟨t.world.vfs, x, t.world.copied⟩, t.handle⟩) := by
        rw [Handle.onWorld, Exec.zoom, onScope, Exec.zoom, hx]
      rw [Exec.bind_err hstack] at hbind
      exact ⟨_, .inl (by rw [Handle.withHandle, hbind])⟩
    · have hstack : Handle.onWorld (onScope (allocPage pa (stackInit - pageSize))) t =
          (.ok g, ⟨⟨t.world.vfs, x, t.world.copied⟩, t.handle⟩) := by
        rw [Handle.onWorld, Exec.zoom, onScope, Exec.zoom, hx]
      rw [Exec.bind_ok hstack] at hbind
      refine ⟨⟨t.world.vfs, x, t.world.copied⟩, .inr ⟨?_, hloaded⟩⟩
      rw [Handle.withHandle, hbind]
      rfl

open ProgramImage (demoFile demoNode demoReader demoStart withFile elfFile create_roomy)
open UserMapping (roomy)
open Walk (noDevices)

/-- The path that starts at the file. -/
def demoPath : PathInfo := ⟨[], .node demoNode⟩

/-- The file systems once the file is open. -/
@[irreducible] def demoOpened : Vfs (Files Unit) :=
  (FileManager.openFile (Files.fileSystem noDevices) demoPath (withFile demoFile)).2

/-- The file once its headers are read. -/
@[irreducible] def demoRead : Handle (Files Unit) File :=
  (Elf64Reader.new (Files.fileSystem noDevices) ⟨demoOpened.world, .new demoNode⟩).2

theorem execute_complete_run : ∃ t,
    execute (Files.fileSystem noDevices) roomy demoPath
        ⟨withFile demoFile, ⟨demoStart.world.scope.machine, demoStart.world.scope.context⟩, []⟩ =
      (.err, t) ∨
    execute (Files.fileSystem noDevices) roomy demoPath
        ⟨withFile demoFile, ⟨demoStart.world.scope.machine, demoStart.world.scope.context⟩, []⟩ =
      (.ok ⟨demoReader.entryPoint, stackInit⟩, t) ∧ Loaded demoFile demoReader t.copied := by
  have hcreate : guarded CounterFits (step roomy) (boot ⟨fun _ => 0, 0, 1⟩) .create =
      some { boot demoStart.world.scope.machine with
        contexts := Function.update (fun _ => none) 0 (some demoStart.world.scope.context)
        next := 1 } := by
    rw [← create_roomy]
    exact guarded_eq_some.mpr ⟨by decide +kernel, step_create roomy _⟩
  have hopen : FileManager.openFile (Files.fileSystem noDevices) demoPath (withFile demoFile) =
      (.ok (.new demoNode), demoOpened) := by
    rw [demoOpened]
    exact Exec.eq_of_fst (by decide +kernel)
  have hfile : demoOpened.world.contents demoNode = some demoFile := by decide +kernel
  have hserves := Files.serves noDevices hfile (by decide +kernel)
  have hnew : Elf64Reader.new (Files.fileSystem noDevices) ⟨demoOpened.world, .new demoNode⟩ =
      (.ok demoReader, demoRead) := by
    rw [demoRead]
    exact Exec.eq_of_fst (by decide +kernel)
  have hread := hserves.keeps_new ⟨demoOpened.world, .new demoNode⟩ ⟨rfl, rfl⟩
  rw [hnew] at hread
  have ha : AlwaysAnswers (Files.fileSystem noDevices) roomy demoFile demoReader
      ⟨⟨{ demoOpened with world := demoRead.world }, demoStart.world.scope, []⟩, demoRead.handle⟩ :=
    alwaysAnswers_of_serves hserves (by decide +kernel) (by decide +kernel) (by decide +kernel)
      hread.1 hread.2
  obtain ⟨H, howned⟩ := Isolation.owned_run (by decide) (by decide) (Run.single hcreate)
  obtain ⟨root, hholds⟩ := howned.holds (c := 0) rfl
  have hfits := alwaysFits_of_lt (show roomy.capacity ≤ 2 ^ 48 by decide) (new_fields hnew)
    ⟨_, root, hholds⟩ (by decide +kernel) ha
  have hcall := execute_complete (c := 0) (by decide) (by decide) (Run.single hcreate) rfl hopen
    hnew ha hfits
  exact hcall

/-- A file whose only segment is longer than what is left of the file. -/
def shortFile : List Byte := elfFile 0x400000 120 0x400000 3 3 [0xAA]

/-- A file whose only segment begins after its end. -/
def emptyFile : List Byte := elfFile 0x400000 200 0x400000 3 3 []

/-- **A partial load**: a program that is cut off is entered, with zeros for what is missing; and
where a segment begins after the end of its file the kernel panics. -/
theorem partly_loaded :
    (∃ reader t, (Elf64Reader.new (Files.fileSystem noDevices)
        ⟨(withFile shortFile).world, .new demoNode⟩).1 = .ok reader ∧
      execute (Files.fileSystem noDevices) roomy demoPath
        ⟨withFile shortFile, demoStart.world.scope, []⟩ = (.ok ⟨0x400000, stackInit⟩, t) ∧
      t.copied = [⟨0x400000, [0xAA, 0, 0]⟩] ∧ ¬ Loaded shortFile reader t.copied) ∧
    (execute (Files.fileSystem noDevices) roomy demoPath
      ⟨withFile emptyFile, demoStart.world.scope, []⟩).1 = .panic := by
  refine ⟨⟨⟨⟨[0x7F, 0x45, 0x4C, 0x46], 2, 1, 1, 0, 2, 0xB7, 1, 0x400000, 64, 56, 1⟩,
    [⟨1, 120, 0x400000, 3, 3⟩]⟩, _, by decide +kernel, Exec.eq_of_fst (by decide +kernel),
    by decide +kernel, fun h => ?_⟩, by decide +kernel⟩
  -- the second byte of the segment is not in the file
  obtain ⟨b, hb, -⟩ := h _ (List.mem_singleton_self _) rfl 1 (by decide)
  have hnone : shortFile[121]? = none := by decide +kernel
  rw [hnone] at hb
  cases hb

end Pimento.CompleteLoad
