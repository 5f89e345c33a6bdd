import Mathlib.Algebra.BigOperators.Group.Finset.Piecewise
import Pimento.Traverse

/-!
One call of `alloc_page`: four levels, each of which extends the placement by at most one
child on the way to the address.
-/

namespace Pimento.AllocPage

open Address PageTable PageAllocator MemoryContext Descriptors Placement TableTree Traverse
  ByteMemory

variable {pa : PageAllocator} {P P' : Space} {root l f g v : ℕ} {s s' : Scope} {c : Option ℕ}

/-- The placement after a level has ended with the child `c`. -/
def grow (P : Space) (l v : ℕ) : Option ℕ → Space
  | some g => insert P (l + 1) (path (l + 1) v) g
  | none => P

/-- The context holds the tables of the placement, in frames the allocator has passed. -/
structure Holds (s : Scope) (P : Space) (root : ℕ) : Prop where
  rep : Represents s.machine.memory P root
  table : s.context.tableL0 = virtualAddress root
  below : ∀ {l p f}, P l p = some f → f + pageSize ≤ s.machine.allocated
  aligned : pageSize ∣ s.machine.allocated

/-- How many nodes on the way to `v` the second placement has and the first has not. -/
def gained (v : ℕ) (P P' : Space) : ℕ :=
  ((Finset.range 5).filter fun l => P l (path l v) = none ∧ P' l (path l v) ≠ none).card

/-- What a call for `v` does besides ending with a child: the placement grows towards `v`
only and with fresh frames, one for each new node, and no byte changes outside the tables and
the frames taken. -/
structure Towards (pa : PageAllocator) (v : ℕ) (s : Scope) (P : Space) (s' : Scope)
    (P' : Space) : Prop where
  only : ∀ l p, P' l p = P l p ∨ (P l p = none ∧ p = path l v)
  fresh : ∀ {l p f}, P l p = none → P' l p = some f → s.machine.allocated ≤ f
  allocated : s.machine.allocated ≤ s'.machine.allocated
  spent : freeFrames pa s.machine.allocated = freeFrames pa s'.machine.allocated + gained v P P'
  recorded : s'.context.pageAllocations.length =
    s.context.pageAllocations.length + gained v P P'
  frame : ∀ h, IsFrame h → h + pageSize ≤ s.machine.allocated →
    (∀ l p, l ≤ levelMax → P l p ≠ some h) → SameOn s.machine.memory s'.machine.memory h pageSize

lemma gained_refl : gained v P P = 0 := by
  rw [gained, Finset.card_eq_zero, Finset.filter_eq_empty_iff]
  rintro l - ⟨h, h'⟩
  exact h' h

lemma Towards.refl : Towards pa v s P s P where
  only _ _ := Or.inl rfl
  fresh h h' := by simp [h] at h'
  allocated := le_refl _
  spent := by rw [gained_refl, Nat.add_zero]
  recorded := by rw [gained_refl, Nat.add_zero]
  frame _ _ _ _ := SameOn.refl _ _ _

/-- What was placed stays placed. -/
lemma Towards.mono (h : Towards pa v s P s' P') {p : ℕ} (hp : P l p = some f) :
    P' l p = some f := by
  rcases h.only l p with he | ⟨hn, -⟩
  · rw [he, hp]
  · rw [hn] at hp
    cases hp

lemma Towards.other (h : Towards pa v s P s' P') {p : ℕ} (hp : p ≠ path l v) : P' l p = P l p := by
  rcases h.only l p with he | ⟨-, he⟩
  · exact he
  · exact absurd he hp

lemma grow_present (h : P (l + 1) (path (l + 1) v) = some g) : grow P l v (some g) = P := by
  funext l' p'
  by_cases hp : l' = l + 1 ∧ p' = path (l + 1) v
  · rw [hp.1, hp.2, h, grow, insert_self]
  · exact insert_of_ne hp

lemma gained_grow (hl : l ≤ levelMax) (h : P (l + 1) (path (l + 1) v) = none) :
    gained v P (grow P l v (some g)) = 1 := by
  have hmax : levelMax = 3 := rfl
  rw [gained, Finset.card_eq_one]
  refine ⟨l + 1, Finset.ext fun k => ?_⟩
  simp only [Finset.mem_filter, Finset.mem_range, Finset.mem_singleton]
  constructor
  · rintro ⟨-, hn, hs⟩
    by_contra hk
    rw [grow, insert_of_ne fun e => hk e.1] at hs
    exact hs hn
  · rintro rfl
    exact ⟨by omega, h, by rw [grow, insert_self]; exact Option.some_ne_none g⟩

/-- The nodes gained by two calls in a row. -/
lemma gained_add {P'' : Space} (h : ∀ l p f, P l p = some f → P' l p = some f)
    (h' : ∀ l p f, P' l p = some f → P'' l p = some f) :
    gained v P P'' = gained v P P' + gained v P' P'' := by
  simp only [gained, Finset.card_filter, ← Finset.sum_add_distrib]
  refine Finset.sum_congr rfl fun l _ => ?_
  rcases hp : P l (path l v) with _ | f
  · rcases hp' : P' l (path l v) with _ | f'
    · simp
    · simp [h' _ _ _ hp']
  · simp [h _ _ _ hp]

/-- **One level.** -/
theorem Holds.child (hs : Holds s P root) (hc : Child pa P s l f v c s') (hl : l ≤ levelMax)
    (hp : P l (path l v) = some f) :
    Holds s' (grow P l v c) root ∧ Towards pa v s P s' (grow P l v c) ∧
      grow P l v c (l + 1) (path (l + 1) v) = c := by
  rcases hc with ⟨hg⟩ | ⟨hnone, hle, hg, hcap, hres, hfree⟩ | ⟨hnone, hle, hal, hfree⟩
  · rw [grow_present hg]
    exact ⟨hs, .refl, hg⟩
  · rename_i g
    have hf := hs.rep.frame hp
    have hfresh : ∀ l' p', P l' p' ≠ some g := fun l' p' h => by
      have h1 := hs.below h
      have h2 : pageSize = 4096 := rfl
      omega
    have hsucc := path_succ (v := v) hl
    refine ⟨⟨?_, hs.table, ?_, ?_⟩, ⟨?_, ?_, ?_, ?_, ?_, ?_⟩, insert_self⟩
    · rw [grow, hsucc]
      exact hs.rep.install hl hp rowIndex_lt (hsucc ▸ hnone) hg hfresh
    · intro l' p' f' h
      show f' + pageSize ≤ g + pageSize
      rcases insert_eq_some h with ⟨-, -, rfl⟩ | hold
      · exact le_refl _
      · have := hs.below hold
        omega
    · exact Nat.dvd_add hg.1 (dvd_refl _)
    · intro l' p'
      by_cases h : l' = l + 1 ∧ p' = path (l + 1) v
      · rw [h.1, h.2]
        exact Or.inr ⟨hnone, rfl⟩
      · exact Or.inl (insert_of_ne h)
    · intro l' p' f' h h'
      rcases insert_eq_some h' with ⟨-, -, rfl⟩ | hold
      · exact hle
      · rw [h] at hold
        cases hold
    · show s.machine.allocated ≤ g + pageSize
      omega
    · rw [gained_grow hl hnone]
      exact hfree
    · rw [gained_grow hl hnone, installed, List.length_append, List.length_singleton]
    · intro h hh hbelow htables
      have h2 : pageSize = 4096 := rfl
      exact sameOn_install hf hg hh rowIndex_lt (fun e => htables l _ hl (e ▸ hp)) (by omega)
  · rename_i a
    have hsame : Towards pa v s P (exhausted s a) P :=
      { (Towards.refl : Towards pa v s P s P) with
        allocated := hle
        spent := by
          have hzero : freeFrames pa a ≤ freeFrames pa s.machine.allocated := freeFrames_mono hle
          rw [hfree] at hzero
          rw [gained_refl, Nat.add_zero, hfree]
          exact (Nat.eq_zero_of_le_zero hzero).symm }
    exact ⟨⟨hs.rep, hs.table, fun h => (hs.below h).trans hle, hal⟩, hsame, hnone⟩

/-- An allocation fails when no frame is left. -/
lemma child_empty (hc : Child pa P s l f v none s') : freeFrames pa s'.machine.allocated = 0 := by
  rcases hc with _ | _ | ⟨-, hle, -, hfree⟩
  exact Nat.eq_zero_of_le_zero (hfree ▸ freeFrames_mono hle)

/-- A new child is clear. -/
lemma Holds.cleared (hs : Holds s P root) (hc : Child pa P s l f v (some g) s')
    (hp : P l (path l v) = some f) (hnone : P (l + 1) (path (l + 1) v) = none) {x : ℕ}
    (hx : g ≤ x) (hlt : x < g + pageSize) : s'.machine.memory x = 0 := by
  rcases hc with ⟨hg⟩ | ⟨-, hle, hg, -, -, -⟩
  · rw [hnone] at hg
    cases hg
  · have hrow := row_end_le (rowIndex_lt (l := l) (v := v))
    have hbelow := hs.below hp
    show ByteMemory.writeWord _ _ _ x = 0
    rw [writeWord_of_outside (by omega), clear_of_inside hx hlt]

lemma Towards.trans {s'' : Scope} {P'' : Space} (h : Towards pa v s P s' P')
    (h' : Towards pa v s' P' s'' P'') : Towards pa v s P s'' P'' where
  only l p := by
    rcases h.only l p with he | ⟨hn, hp⟩
    · rw [← he]
      exact h'.only l p
    · exact Or.inr ⟨hn, hp⟩
  fresh {l p f} hn hs := by
    rcases hp : P' l p with _ | f'
    · exact h.allocated.trans (h'.fresh hp hs)
    · rw [h'.mono hp] at hs
      cases hs
      exact h.fresh hn hp
  allocated := h.allocated.trans h'.allocated
  spent := by
    have hsum : gained v P P'' = gained v P P' + gained v P' P'' :=
      gained_add (fun _ _ _ => h.mono) fun _ _ _ => h'.mono
    rw [h.spent, h'.spent, hsum]
    omega
  recorded := by
    rw [h'.recorded, h.recorded, Nat.add_assoc,
      ← gained_add (fun _ _ _ => h.mono) fun _ _ _ => h'.mono]
  frame k hk hbelow htables := by
    refine (h.frame k hk hbelow htables).trans (h'.frame k hk (hbelow.trans h.allocated) ?_)
    intro l p hl hp
    rcases hold : P l p with _ | f'
    · have h1 := h.fresh hold hp
      have h2 : pageSize = 4096 := rfl
      omega
    · rw [h.mono hold] at hp
      exact htables l p hl (hp ▸ hold)

/-- Below a missing node the walk finds nothing. -/
lemma Holds.none_below (hs : Holds s P root) (h : P l (path l v) = none) (k : ℕ)
    (hk : l + k ≤ 4) : P (l + k) (path (l + k) v) = none :=
  hs.rep.placed.none_below (by decide) k hk h

/-- A level that ends with a child leaves the counter within the capacity. -/
lemma child_counter (hc : Child pa P s l f v (some g) s') (hcap : pa.capacity ≤ 2 ^ 48)
    {q : Prop} (h : q → s.machine.allocated + pageSize < 2 ^ 64) :
    q → s'.machine.allocated + pageSize < 2 ^ 64 := by
  rcases hc with ⟨-⟩ | ⟨-, -, -, hle, -, -⟩
  · exact h
  · intro _
    show g + pageSize + pageSize < 2 ^ 64
    have h2 : pageSize = 4096 := rfl
    omega

/-- The loop over the table levels, from the table at level `l` down. -/
lemma traverseTables_spec (hcap : pa.capacity ≤ 2 ^ 48) (hva : v < 2 ^ 48) (n : ℕ) :
    ∀ l f s P, l + n = levelMax → Holds s P root → P l (path l v) = some f →
      (P 4 (pageOf v) = none → s.machine.allocated + pageSize < 2 ^ 64) →
      ∃ c s' P', Holds s' P' root ∧ Towards pa v s P s' P' ∧ (∀ p, P' 4 p = P 4 p) ∧
        P' levelMax (path levelMax v) = c ∧
        (c ≠ none → s.machine.allocated + pageSize < 2 ^ 64 →
          s'.machine.allocated + pageSize < 2 ^ 64) ∧
        (c = none → freeFrames pa s'.machine.allocated = 0) ∧
        traverseTables pa v (n + 1) (managerAt l f v) s =
          (match c with | some g => .ok (managerAt levelMax g v) | none => .err, s') := by
  induction n with
  | zero =>
    intro l f s P hl hs hp hwrap
    obtain rfl : l = levelMax := hl
    refine ⟨some f, s, P, hs, .refl, fun _ => rfl, hp, fun _ => id, by simp, ?_⟩
    rw [traverseTables, if_neg (by simp [managerAt])]
    rfl
  | succ n ih =>
    intro l f s P hl hs hp hwrap
    have hlt : l < levelMax := by omega
    have hmax : levelMax = 3 := rfl
    have hmiss : P (l + 1) (path (l + 1) v) = none → P 4 (pageOf v) = none := fun h => by
      have h4 := hs.none_below h (3 - l) (by omega)
      rwa [show l + 1 + (3 - l) = 4 by omega, path_last] at h4
    obtain ⟨c, s₁, hc, hstep⟩ := traverseTableToTable_child hcap hs.aligned
      (fun h => hwrap (hmiss h)) hs.rep hva hp hlt
    obtain ⟨hs₁, hto₁, hend⟩ := hs.child hc hlt.le hp
    have hpages : ∀ p, grow P l v c 4 p = P 4 p := fun p => by
      rcases c with _ | g
      · rfl
      · exact insert_of_ne (by omega)
    have hloop : traverseTables pa v (n + 2) (managerAt l f v) s =
        (traverseTableToTable pa (managerAt l f v) v >>= traverseTables pa v (n + 1)) s := by
      rw [traverseTables, if_pos (by simpa [managerAt] using hlt)]
    rw [hloop]
    rcases c with _ | g
    · refine ⟨none, s₁, _, hs₁, hto₁, hpages, ?_, fun h => absurd rfl h, fun _ => child_empty hc,
        Exec.bind_err hstep⟩
      have := hs₁.none_below hend n (by omega)
      rwa [show l + 1 + n = levelMax by omega] at this
    · obtain ⟨c, s₂, P₂, hs₂, hto₂, hpages₂, hend₂, hwrap₂, hempty₂, hrest⟩ :=
        ih (l + 1) g s₁ _ (by omega) hs₁ hend (by rw [hpages]; exact child_counter hc hcap hwrap)
      refine ⟨c, s₂, P₂, hs₂, hto₁.trans hto₂, fun p => (hpages₂ p).trans (hpages p), hend₂,
        fun h h' => hwrap₂ h (child_counter hc hcap id h'), hempty₂, ?_⟩
      rw [Exec.bind_ok hstep, hrest]

/-- How a call on a page ends: with the frame that the page is mapped to from now on, a clear
one if it is new, or with an error, no mapping and no frame left. -/
theorem allocPage_spec (hcap : pa.capacity ≤ 2 ^ 48) (hva : v < 2 ^ 48) (hs : Holds s P root)
    (hwrap : P 4 (pageOf v) = none → s.machine.allocated + pageSize < 2 ^ 64) :
    ∃ c s' P', Holds s' P' root ∧ Towards pa v s P s' P' ∧
      (∀ x, x ≠ pageOf v → P' 4 x = P 4 x) ∧ P' 4 (pageOf v) = c ∧
      (c = none → freeFrames pa s'.machine.allocated = 0) ∧
      (P 4 (pageOf v) = none → ∀ g, c = some g → ∀ x, g ≤ x → x < g + pageSize →
        s'.machine.memory x = 0) ∧
      (c ≠ none → s.machine.allocated + pageSize < 2 ^ 64 →
        s'.machine.allocated + pageSize < 2 ^ 64) ∧
      allocPage pa v s = (match c with | some g => .ok g | none => .err, s') := by
  have hroot : P 0 (path 0 v) = some root := by rw [path_root hva]; exact hs.rep.placed.root
  obtain ⟨c, s₁, P₁, hs₁, hto₁, hpages, hend, hwrap₁, hempty₁, hloop⟩ :=
    traverseTables_spec hcap hva 3 0 root s P rfl hs hroot hwrap
  have hcall : allocPage pa v s = (traverseTables pa v (levelMax + 1) (managerAt 0 root v) >>=
      fun table => traverseTableToPage pa table v) s := by
    rw [allocPage, Exec.get_bind, rootTable_eq hs.table hva]
  rw [hcall]
  rcases c with _ | f
  · refine ⟨none, s₁, P₁, hs₁, hto₁, fun x _ => hpages x, ?_, hempty₁, by simp, by simp,
      Exec.bind_err hloop⟩
    have := hs₁.none_below hend 1 (by decide)
    rwa [show levelMax + 1 = 4 from rfl, path_last] at this
  · obtain ⟨c, s₂, hc, hstep⟩ := traverseTableToPage_child hcap hs₁.aligned
      (fun h => hwrap₁ (by simp) (hwrap (by rw [← hpages, ← path_last]; exact h)))
      hs₁.rep hva hend rfl
    obtain ⟨hs₂, hto₂, hend₂⟩ := hs₁.child hc (le_refl _) hend
    refine ⟨c, s₂, _, hs₂, hto₁.trans hto₂, fun x hx => ?_, ?_, ?_, ?_, fun hne hlt => ?_, ?_⟩
    · rw [← hpages, hto₂.other (by rwa [path_last])]
    · rwa [show levelMax + 1 = 4 from rfl, path_last] at hend₂
    · rintro rfl
      exact child_empty hc
    · rintro hnone g rfl x hx hlt
      refine hs₁.cleared hc hend ?_ hx hlt
      rw [show levelMax + 1 = 4 from rfl, path_last, hpages, hnone]
    · obtain ⟨g, rfl⟩ := Option.ne_none_iff_exists'.mp hne
      exact child_counter hc hcap (hwrap₁ (by simp)) hlt
    · exact (Exec.bind_ok hloop).trans hstep

/-- A call that fails at the root table fails. -/
lemma allocPage_err (h : traverseTableToTable pa (rootTable s.context) v s = (.err, s')) :
    allocPage pa v s = (.err, s') := by
  have hlt : (rootTable s.context).level < levelMax := Nat.zero_lt_succ 2
  have hloop : traverseTables pa v (levelMax + 1) (rootTable s.context) s = (.err, s') := by
    rw [traverseTables, if_pos hlt]
    exact Exec.bind_err h
  rw [allocPage, Exec.get_bind]
  exact Exec.bind_err hloop

/-- No table covers an address from `2 ^ 48` on. -/
lemma allocPage_out_of_range (hva : 2 ^ 48 ≤ v) : allocPage pa v s = (.err, s) := by
  refine allocPage_err ?_
  rw [traverseTableToTable, rowByAddress_root_none hva, Exec.okOr_none]
  rfl

/-- What a new context starts with: an empty root table, or nothing. -/
theorem new_spec {m : Machine} (hcap : pa.capacity ≤ 2 ^ 48)
    (hwrap : m.allocated + pageSize < 2 ^ 64) (hal : pageSize ∣ m.allocated) :
    (∃ f c, new pa m = (.ok c, { taken m f with asidCounter := m.asidCounter + 1 }) ∧
      m.allocated ≤ f ∧ f + pageSize ≤ pa.capacity ∧ ¬ pa.reservedRanges.any (intersects f) ∧
      c.pageAllocations = [⟨f, virtualAddress f⟩] ∧
      Holds ⟨{ taken m f with asidCounter := m.asidCounter + 1 }, c⟩ (single f) f) ∨
    (∃ a, new pa m = (.err, { m with allocated := a }) ∧ m.allocated ≤ a ∧ pageSize ∣ a) := by
  rcases alloc_cases hcap hwrap hal with ⟨f, halloc, hle, hdvd, hf, hres, -⟩ |
    ⟨a, halloc, hle, hdvd, -⟩
  · have hps : pageSize = 4096 := rfl
    have hframe : IsFrame f := ⟨hdvd, by omega⟩
    refine Or.inl ⟨f, ⟨[⟨f, virtualAddress f⟩], m.asidCounter, virtualAddress f⟩, ?_, hle, hf, hres,
      rfl, ?_, rfl, ?_, ?_⟩
    · rw [new, Exec.bind_ok halloc]
      rfl
    · refine represents_single hframe fun i hi => ?_
      have hend := row_end_le hi
      exact readWord_clear (by omega) (by omega)
    · intro l p g hg
      rw [(single_eq_some hg).2.2]
      exact Nat.le_refl (f + pageSize)
    · show pageSize ∣ f + pageSize
      exact Nat.dvd_add hdvd (dvd_refl _)
  · refine Or.inr ⟨a, ?_, hle, hdvd⟩
    rw [new, Exec.bind_err halloc]

end Pimento.AllocPage
