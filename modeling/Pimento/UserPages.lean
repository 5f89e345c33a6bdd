import Mathlib.Algebra.Order.BigOperators.Group.Finset
import Pimento.AllocPage
import Pimento.Overlay
import Pimento.UserCopy

/-!
The user pages of a context as a map from addresses to bytes: what `alloc_page` and a copy to
user memory make of it.
-/

namespace Pimento.UserPages

open Address PageTable PageAllocator MemoryContext Armv8 Descriptors Placement TableTree Traverse
  AllocPage UserCopy ByteMemory

/-- What user code reads at an address, if its page is mapped. -/
def userByte (s : Scope) (a : ℕ) : Option Byte :=
  (translate s.machine.memory (physicalAddress s.context.tableL0) a).map fun t =>
    s.machine.memory t.outputAddress

variable {pa : PageAllocator} {P P' : Space} {root g v a : ℕ} {s t : Scope} {bytes : List Byte}

lemma physicalAddress_root (hs : Holds s P root) : physicalAddress s.context.tableL0 = root := by
  have hroot : root < 2 ^ 48 := (hs.rep.frame hs.rep.placed.root).2
  rw [hs.table, ← Nat.add_zero (virtualAddress root),
    physicalAddress_virtualAddress (by omega), Nat.add_zero]

lemma translate_holds (hs : Holds s P root) (ha : a < 2 ^ 48) :
    translate s.machine.memory (physicalAddress s.context.tableL0) a =
      (P 4 (pageOf a)).map (userPage a) := by
  rw [physicalAddress_root hs, translate_eq hs.rep ha]

lemma userByte_holds (hs : Holds s P root) (ha : a < 2 ^ 48) :
    userByte s a = (P 4 (pageOf a)).map fun g => s.machine.memory (g + a % pageSize) := by
  rw [userByte, translate_holds hs ha, Option.map_map]
  rfl

/-! ### Mapping a page -/

/-- A call keeps the bytes of the pages that were mapped. -/
lemma Towards.page_same (hs : Holds s P root) (hto : Towards pa v s P t P') {x : ℕ}
    (hx : P 4 x = some g) : SameOn s.machine.memory t.machine.memory g pageSize := by
  refine hto.frame g (hs.rep.frame hx) (hs.below hx) fun l p hl hp => ?_
  have hmax : levelMax = 3 := rfl
  have := (hs.rep.placed.inj hp hx).1
  omega

/-- What is left of a call that has mapped its page. -/
lemma Towards.userByte_eq (hs : Holds s P root) (ht : Holds t P' root)
    (hto : Towards pa v s P t P') (hother : ∀ x, x ≠ pageOf v → P' 4 x = P 4 x)
    (hpage : P' 4 (pageOf v) = some g)
    (hclear : P 4 (pageOf v) = none → ∀ x, g ≤ x → x < g + pageSize → t.machine.memory x = 0)
    (ha : a < 2 ^ 48) :
    userByte t a =
      if pageOf a = pageOf v then some ((userByte s a).getD 0) else userByte s a := by
  have hmod : a % pageSize < pageSize := Nat.mod_lt _ (by decide)
  rw [userByte_holds ht ha, userByte_holds hs ha]
  rcases hx : P 4 (pageOf a) with _ | f
  · by_cases hp : pageOf a = pageOf v
    · rw [if_pos hp, hp, hpage, Option.map_some,
        hclear (hp ▸ hx) _ (Nat.le_add_right _ _) (by omega)]
      rfl
    · rw [if_neg hp, hother _ hp, hx]
      rfl
  · have hsame := Towards.page_same hs hto hx
    rw [hto.mono hx, Option.map_some, Option.map_some,
      ← hsame _ (Nat.le_add_right _ _) (by omega)]
    simp

/-- A call in the terms of user memory: its page is there, clear if it is new, or no frame is
left. -/
theorem allocPage_userByte (hcap : pa.capacity ≤ 2 ^ 48) (hv : v < 2 ^ 48) (hs : Holds s P root)
    (hwrap : P 4 (pageOf v) = none → s.machine.allocated + pageSize < 2 ^ 64) :
    ∃ t P', Holds t P' root ∧ Towards pa v s P t P' ∧
      ((∃ g, allocPage pa v s = (.ok g, t) ∧ P' 4 (pageOf v) = some g ∧
          ∀ a < 2 ^ 48, userByte t a =
            if pageOf a = pageOf v then some ((userByte s a).getD 0) else userByte s a) ∨
        (allocPage pa v s = (.err, t) ∧ P' 4 (pageOf v) = none ∧
          freeFrames pa t.machine.allocated = 0)) := by
  obtain ⟨c, t, P', ht, hto, hother, hpage, hempty, hclear, -, hcall⟩ :=
    allocPage_spec hcap hv hs hwrap
  refine ⟨t, P', ht, hto, ?_⟩
  rcases c with _ | g
  · exact Or.inr ⟨hcall, hpage, hempty rfl⟩
  · exact Or.inl ⟨g, hcall, hpage, fun a ha =>
      Towards.userByte_eq hs ht hto hother hpage (fun hn => hclear hn g rfl) ha⟩

/-! ### The frames a set of pages lacks -/

/-- The nodes on the way to the pages that the placement does not have. -/
def missing (P : Space) (pages : Finset ℕ) : ℕ :=
  ∑ l ∈ Finset.range 5, ((pages.image (pathTo rowCount 4 l)).filter fun p => P l p = none).card

variable {pages : Finset ℕ}

/-- A call for one of the pages takes a frame for each node they no longer lack. -/
lemma missing_call (hto : Towards pa v s P t P') (hv : pageOf v ∈ pages) :
    missing P pages = missing P' pages + gained v P P' := by
  simp only [missing, gained, Finset.card_filter (fun l => P l (path l v) = none ∧ _),
    ← Finset.sum_add_distrib]
  refine Finset.sum_congr rfl fun l _ => ?_
  have hmem : path l v ∈ pages.image (pathTo rowCount 4 l) := Finset.mem_image_of_mem _ hv
  by_cases hg : P l (path l v) = none ∧ P' l (path l v) ≠ none
  · have hset : (pages.image (pathTo rowCount 4 l)).filter (fun p => P l p = none) =
        insert (path l v) ((pages.image (pathTo rowCount 4 l)).filter fun p => P' l p = none) := by
      ext p
      simp only [Finset.mem_filter, Finset.mem_insert]
      by_cases hp : p = path l v
      · simp [hp, hmem, hg.1]
      · simp [hp, hto.other hp]
    have hnot : path l v ∉ (pages.image (pathTo rowCount 4 l)).filter fun p => P' l p = none :=
      fun h => hg.2 (Finset.mem_filter.mp h).2
    rw [if_pos hg, hset, Finset.card_insert_of_notMem hnot]
  · rw [if_neg hg, Nat.add_zero]
    congr 1
    refine Finset.filter_congr fun p _ => ?_
    rcases hto.only l p with he | ⟨hn, rfl⟩
    · rw [he]
    · simpa [hn] using hg

lemma missing_pos (hv : pageOf v ∈ pages) (hn : P 4 (pageOf v) = none) : 0 < missing P pages := by
  refine Finset.sum_pos' (fun _ _ => Nat.zero_le _) ⟨4, by simp, Finset.card_pos.mpr
    ⟨pageOf v, Finset.mem_filter.mpr ⟨?_, hn⟩⟩⟩
  exact Finset.mem_image.mpr ⟨_, hv, pathTo_self⟩

/-- While there are frames for the pages they lack, the counter is below the capacity. -/
lemma counter_of_missing (hcap : pa.capacity ≤ 2 ^ 48) (hv : pageOf v ∈ pages)
    (hn : P 4 (pageOf v) = none) (hle : missing P pages ≤ freeFrames pa s.machine.allocated) :
    s.machine.allocated + pageSize < 2 ^ 64 := by
  have hpos := missing_pos hv hn
  by_contra hge
  have hzero : freeFrames pa s.machine.allocated = 0 := freeFrames_exhausted (by omega)
  omega

/-! ### Writing to a page -/

/-- A chunk within a page covers no address of another page. -/
lemma outside_of_ne {n : ℕ} (h : pageOf a ≠ pageOf v) (hn : v % pageSize + n ≤ pageSize) :
    a < v ∨ v + n ≤ a := by
  unfold pageOf pageSize at *
  omega

lemma offset_of_eq (h : pageOf a = pageOf v) (hle : v ≤ a) :
    a % pageSize = v % pageSize + (a - v) := by
  unfold pageOf pageSize at *
  omega

lemma offset_add {n : ℕ} (h : v % pageSize + n < pageSize) :
    pageOf (v + n) = pageOf v ∧ (v + n) % pageSize = v % pageSize + n := by
  unfold pageOf pageSize at *
  omega

/-- The scope after bytes have been written at a physical address. -/
def stored (s : Scope) (a : ℕ) (bytes : List Byte) : Scope :=
  { s with machine := { s.machine with memory := s.machine.memory.writeBytes a bytes } }

lemma stored_cons {b : Byte} : stored (stored s a [b]) (a + 1) bytes = stored s a (b :: bytes) := by
  rw [stored, stored, stored, writeBytes_cons]

/-- Writing to a page leaves the tables alone. -/
lemma holds_stored (hs : Holds s P root) {x : ℕ} (hx : P 4 x = some g) {i : ℕ}
    (hi : i + bytes.length ≤ pageSize) : Holds (stored s (g + i) bytes) P root where
  rep := hs.rep.congr fun l p f hl hp y hy hlt => by
    have hne : f ≠ g := fun e => by
      have hmax : levelMax = 3 := rfl
      have := (hs.rep.placed.inj (e ▸ hp) hx).1
      omega
    have hdis := IsFrame.disjoint (hs.rep.frame hp) (hs.rep.frame hx) hne
    exact (writeBytes_of_outside (by omega)).symm
  table := hs.table
  below := hs.below
  aligned := hs.aligned

lemma userByte_stored (hs : Holds s P root) (hv : P 4 (pageOf v) = some g)
    (hlen : v % pageSize + bytes.length ≤ pageSize) (ha : a < 2 ^ 48) :
    userByte (stored s (g + v % pageSize) bytes) a =
      ((⟨v, bytes⟩ : Piece Byte).get? a).or (userByte s a) := by
  rw [userByte_holds (holds_stored hs hv hlen) ha, userByte_holds hs ha]
  by_cases hp : pageOf a = pageOf v
  · rw [hp, hv, Option.map_some, Option.map_some]
    rcases Nat.lt_or_ge a v with hlt | hge
    · have hoff := offset_of_eq hp.symm hlt.le
      rw [Piece.get?_eq_none.mpr (Or.inl hlt), Option.none_or]
      exact congrArg some (writeBytes_of_outside (by omega))
    · have hoff := offset_of_eq hp hge
      rcases Nat.lt_or_ge (a - v) bytes.length with hin | hout
      · rw [Piece.get?, if_pos hge, List.getElem?_eq_getElem hin, Option.some_or, hoff,
          ← Nat.add_assoc]
        exact congrArg some (writeBytes_of_inside (a - v) hin)
      · have hend : v + bytes.length ≤ a := by omega
        rw [Piece.get?_eq_none.mpr (Or.inr hend), Option.none_or]
        exact congrArg some (writeBytes_of_outside (by omega))
  · rw [Piece.get?_eq_none.mpr (outside_of_ne hp hlen), Option.none_or]
    rcases hx : P 4 (pageOf a) with _ | f
    · rfl
    · have hdis := IsFrame.disjoint (hs.rep.frame hx) (hs.rep.frame hv) fun e =>
        hp (hs.rep.placed.inj (e ▸ hx) hv).2
      have hmod : a % pageSize < pageSize := Nat.mod_lt _ (by decide)
      exact congrArg some (writeBytes_of_outside (by omega))

lemma access_write (hs : Holds s P root) (hv : v < 2 ^ 48) (hp : P 4 (pageOf v) = some g) :
    access true v s = (.ok (g + v % pageSize), s) := by
  rw [access, Exec.get_bind, dataAddress, if_pos hv, translate_holds hs hv, hp]
  rfl

/-- A copy within a mapped page. -/
lemma copyToUser_page : ∀ (bytes : List Byte) (s : Scope) (v : ℕ), Holds s P root →
    v < 2 ^ 48 → P 4 (pageOf v) = some g → v % pageSize + bytes.length ≤ pageSize →
    copyToUser bytes v s = (.ok (), stored s (g + v % pageSize) bytes)
  | [], s, v, _, _, _, _ => by
    have h : s.machine.memory.writeBytes (g + v % pageSize) [] = s.machine.memory := by
      funext x
      refine writeBytes_of_outside ?_
      rw [List.length_nil]
      omega
    rw [stored, h]
    rfl
  | [b], s, v, hs, hv, hp, hlen => by
    rw [copyToUser, Exec.bind_ok (access_write hs hv hp)]
    rfl
  | b :: b' :: bytes, s, v, hs, hv, hp, hlen => by
    rw [List.length_cons, List.length_cons] at hlen
    obtain ⟨hpage, hmod⟩ := offset_add (v := v) (n := 1) (by omega)
    have hone : Holds (stored s (g + v % pageSize) [b]) P root :=
      holds_stored hs hp (by rw [List.length_singleton]; omega)
    have hlt : v + 1 < 2 ^ 48 := by
      unfold pageSize at hlen
      omega
    have hrest := copyToUser_page (b' :: bytes) _ (v + 1) hone hlt (hpage ▸ hp)
      (by rw [List.length_cons]; omega)
    rw [copyToUser, Exec.bind_ok (access_write hs hv hp)]
    show copyToUser (b' :: bytes) (wrap (v + 1)) (stored s (g + v % pageSize) [b]) = _
    rw [wrap_of_lt (by omega), hrest, hmod, ← Nat.add_assoc, stored_cons]

end Pimento.UserPages
