import Pimento.AllocPage
import Pimento.Contexts

/-!
Who owns which frame.

Every position that holds a frame (a table or page of a context, or an unmapped allocation)
holds a frame of its own. New frames come from above the allocator's counter, so no step
gives two positions the same frame, and dropping a context clears only what it held.
-/

namespace Pimento.Ownership

open Address PageTable PageAllocator MemoryContext Descriptors Armv8 Placement TableTree Traverse
  AllocPage Contexts Runs ByteMemory

lemma update_eq_some {ι β : Type} [DecidableEq ι] {k : ι → Option β} {i j : ι} {u v : β}
    (h : Function.update k i (some v) j = some u) : (j = i ∧ u = v) ∨ (j ≠ i ∧ k j = some u) := by
  by_cases hij : j = i
  · rw [hij, Function.update_self] at h
    exact Or.inl ⟨hij, (Option.some.inj h).symm⟩
  · rw [Function.update_of_ne hij] at h
    exact Or.inr ⟨hij, h⟩

lemma isSome_update {ι β : Type} [DecidableEq ι] {k : ι → Option β} {i j : ι} {v : β}
    (h : j = i ∨ (k j).isSome) : (Function.update k i (some v) j).isSome := by
  by_cases hij : j = i
  · rw [hij, Function.update_self]
    rfl
  · rw [Function.update_of_ne hij]
    exact h.resolve_left hij

/-- A place for a frame: a position in the tree of a context, or an unmapped allocation. -/
inductive Position
  | node (c l p : ℕ)
  | stack (id : ℕ)
  deriving DecidableEq

/-- The frame at each position. -/
abbrev Layout := Position → Option ℕ

/-- The layout with another frame, or none, at one position. -/
def Layout.set (H : Layout) (x : Position) (z : Option ℕ) : Layout := Function.update H x z

/-- The tables and pages of one context. -/
def Layout.space (H : Layout) (c : ℕ) : Space := fun l p => H (.node c l p)

variable {pa : PageAllocator} {H H' : Layout} {x y : Position} {f g a b c l p : ℕ}

@[simp] lemma Layout.set_self {z : Option ℕ} : H.set x z x = z := Function.update_self _ _ _

lemma Layout.set_of_ne {z : Option ℕ} (h : y ≠ x) : H.set x z y = H y :=
  Function.update_of_ne h _ _

lemma Layout.set_eq_some (hx : H.set y (some g) x = some f) :
    (x = y ∧ f = g) ∨ (x ≠ y ∧ H x = some f) := update_eq_some hx

/-- A position that was free is not a position of an old frame. -/
lemma Layout.set_mono {z : Option ℕ} (hfree : H y = none) (hx : H x = some f) :
    H.set y z x = some f := by
  rw [set_of_ne, hx]
  rintro rfl
  rw [hfree] at hx
  cases hx

/-- The frames are distinct, and the allocator has given them out. -/
structure Layout.Fits (pa : PageAllocator) (allocated : ℕ) (H : Layout) : Prop where
  inj : ∀ {x y f}, H x = some f → H y = some f → x = y
  frame : ∀ {x f}, H x = some f → IsFrame f
  below : ∀ {x f}, H x = some f → f + pageSize ≤ allocated
  usable : ∀ {x f}, H x = some f →
    f + pageSize ≤ pa.capacity ∧ ¬ pa.reservedRanges.any (intersects f)

namespace Layout.Fits

lemma mono (h : H.Fits pa a) (hle : a ≤ b) : H.Fits pa b :=
  { h with below := fun hx => (h.below hx).trans hle }

lemma sub (h : H.Fits pa a) (hsub : ∀ {x f}, H' x = some f → H x = some f) : H'.Fits pa a where
  inj hx hy := h.inj (hsub hx) (hsub hy)
  frame hx := h.frame (hsub hx)
  below hx := h.below (hsub hx)
  usable hx := h.usable (hsub hx)

/-- A frame from above the counter has no position. -/
lemma ne_fresh (h : H.Fits pa a) (hle : a ≤ g) (hx : H x = some f) : f ≠ g := by
  have h1 := h.below hx
  have h2 : pageSize = 4096 := rfl
  omega

/-- A position gets a fresh frame. -/
lemma insert (h : H.Fits pa a) (hle : a ≤ g) (hg : IsFrame g) (hcap : g + pageSize ≤ pa.capacity)
    (hres : ¬ pa.reservedRanges.any (intersects g)) :
    (H.set y (some g)).Fits pa (g + pageSize) where
  inj {x x' f} hx hx' := by
    rcases set_eq_some hx with ⟨hxy, hf⟩ | ⟨-, hold⟩ <;>
      rcases set_eq_some hx' with ⟨hxy', hf'⟩ | ⟨-, hold'⟩
    · exact hxy.trans hxy'.symm
    · exact absurd hf (h.ne_fresh hle hold')
    · exact absurd hf' (h.ne_fresh hle hold)
    · exact h.inj hold hold'
  frame hx := by
    rcases set_eq_some hx with ⟨-, rfl⟩ | ⟨-, hx⟩
    · exact hg
    · exact h.frame hx
  below hx := by
    rcases set_eq_some hx with ⟨-, rfl⟩ | ⟨-, hx⟩
    · exact le_refl _
    · have := h.below hx
      omega
  usable hx := by
    rcases set_eq_some hx with ⟨-, rfl⟩ | ⟨-, hx⟩
    · exact ⟨hcap, hres⟩
    · exact h.usable hx

end Layout.Fits

lemma Layout.space_set_node : (H.set (.node c l p) (some g)).space c =
    insert (H.space c) l p g := by
  funext l' p'
  unfold Layout.space Placement.insert
  by_cases h : l' = l ∧ p' = p
  · rw [h.1, h.2, set_self, if_pos ⟨rfl, rfl⟩]
  · rw [set_of_ne (fun e => h (by cases e; exact ⟨rfl, rfl⟩)), if_neg h]

lemma Layout.space_set_of_ne {z : Option ℕ} (h : ∀ l p, x ≠ .node c l p) :
    (H.set x z).space c = H.space c := by
  funext l p
  exact set_of_ne (Ne.symm (h l p))

variable {w : World}

/-- **The ownership invariant**: the layout says where every frame in use is. -/
structure Owned (pa : PageAllocator) (w : World) (H : Layout) : Prop where
  fits : H.Fits pa w.machine.allocated
  aligned : pageSize ∣ w.machine.allocated
  tables : ∀ {c context}, w.contexts c = some context →
    ∃ root, Represents w.machine.memory (H.space c) root ∧ context.tableL0 = virtualAddress root
  live : ∀ {c l p f}, H (.node c l p) = some f → (w.contexts c).isSome
  stack : ∀ {id e}, w.stack id = some e →
    H (.stack id) = some e.page.address ∧ e.page.ptr = virtualAddress e.page.address
  stackOnly : ∀ {id f}, H (.stack id) = some f → (w.stack id).isSome
  recorded : ∀ {c context i page}, w.contexts c = some context →
    context.pageAllocations[i]? = some page → page.ptr = virtualAddress page.address ∧
      ((∃ l p, H (.node c l p) = some page.address) ∨
        ∃ id e, w.stack id = some e ∧ e.context = c ∧ e.index = i ∧ e.page = page)
  unused : ∀ {id}, w.next ≤ id → w.contexts id = none ∧ w.stack id = none
  calls : ∀ {c table a}, w.calls c = some (table, a) → ∃ context, w.contexts c = some context ∧
    ((2 ^ 48 ≤ a ∧ table = rootTable context) ∨
      (a < 2 ^ 48 ∧ ∃ l f, l ≤ levelMax ∧ H (.node c l (path l a)) = some f ∧
        table = managerAt l f a))

/-! ### What the invariant says about roles -/

/-- The hardware finds the tables where the placement has them. -/
lemma tableAt_eq {m : ByteMemory} {P : Space} {root : ℕ} (hrep : Represents m P root) :
    ∀ l p, l ≤ levelMax → tableAt m root l p = P l p
  | 0, p, _ => by
    unfold tableAt
    by_cases hp : p = 0
    · rw [if_pos hp, hp, hrep.placed.root]
    · rw [if_neg hp]
      rcases h : P 0 p with _ | f
      · rfl
      · exact absurd (hrep.placed.top h) hp
  | l + 1, p, hl => by
    have hlt : l < levelMax := hl
    have hmod : p % rowCount < rowCount := Nat.mod_lt _ (by decide)
    have hp : rowCount * (p / rowCount) + p % rowCount = p := Nat.div_add_mod _ _
    rw [tableAt, tableAt_eq hrep l (p / rowCount) hlt.le]
    rcases h : P l (p / rowCount) with _ | f
    · have := hrep.placed.none_child (by decide) hmod h
      rw [hp] at this
      exact this.symm
    · have hrow := hrep.rows hlt.le h hmod
      rw [hp] at hrow
      simp only [show m.readWord _ = _ from hrow]
      rcases hc : P (l + 1) p with _ | g
      · rw [rowOf, decode_zero]
      · rw [rowOf, decode_table (hrep.frame hc) hlt]

/-- The position behind a role. -/
def position : Role → Position
  | .root c => .node c 0 0
  | .table c l p => .node c l p
  | .page c x => .node c 4 x
  | .unmapped _ id => .stack id

section Roles

variable {context : MemoryContext} {va : ℕ} {t : Translation} {r r' : Role}
  (h : Owned pa w H)
include h

/-- The placement of a live context, below the frame its registers point to. -/
lemma Owned.represents (hc : w.contexts c = some context) :
    Represents w.machine.memory (H.space c) (physicalAddress context.tableL0) := by
  obtain ⟨root, hrep, htable⟩ := h.tables hc
  have hroot : root < 2 ^ 48 := (hrep.frame hrep.placed.root).2
  rwa [htable, ← Nat.add_zero (virtualAddress root), physicalAddress_virtualAddress (by omega),
    Nat.add_zero]

lemma Owned.hasRole (hf : HasRole w f r) : H (position r) = some f := by
  cases r with
  | root c =>
    obtain ⟨context, hc, rfl⟩ := hf
    exact (h.represents hc).placed.root
  | table c l p =>
    obtain ⟨context, hc, -, hl, hat⟩ := hf
    rwa [tableAt_eq (h.represents hc) l p hl] at hat
  | page c x =>
    obtain ⟨context, t, hc, ht, rfl⟩ := hf
    have hlt : x * pageSize < 2 ^ 48 := by
      by_contra hge
      rw [Armv8.translate, if_neg hge] at ht
      cases ht
    rw [translate_eq (h.represents hc) hlt] at ht
    obtain ⟨g, hg, rfl⟩ := Option.map_eq_some_iff.mp ht
    have hx : pageOf (x * pageSize) = x := Nat.mul_div_cancel _ (by decide)
    have hmod : x * pageSize % pageSize = 0 := Nat.mul_mod_left _ _
    rw [hx] at hg
    rw [userPage, hmod]
    exact hg
  | unmapped c id =>
    obtain ⟨e, he, -, rfl⟩ := hf
    exact (h.stack he).1

/-- **One role a frame.** -/
lemma Owned.role_unique (hf : HasRole w f r) (hf' : HasRole w f r') : r = r' := by
  have hpos := h.fits.inj (h.hasRole hf) (h.hasRole hf')
  cases r with
  | root c =>
    cases r' with
    | root c' => cases hpos; rfl
    | table c' l p =>
      obtain ⟨_, -, hl, -⟩ := hf'
      cases hpos
      omega
    | page => cases hpos
    | unmapped => cases hpos
  | table c l p =>
    obtain ⟨_, -, hl, hl', -⟩ := hf
    cases r' with
    | root c' => cases hpos; omega
    | table c' l' p' => cases hpos; rfl
    | page c' x => cases hpos; exact absurd hl' (by decide)
    | unmapped => cases hpos
  | page c x =>
    cases r' with
    | root => cases hpos
    | table c' l p =>
      obtain ⟨_, -, -, hl', -⟩ := hf'
      cases hpos
      exact absurd hl' (by decide)
    | page c' x' => cases hpos; rfl
    | unmapped => cases hpos
  | unmapped c id =>
    cases r' with
    | root => cases hpos
    | table => cases hpos
    | page => cases hpos
    | unmapped c' id' =>
      cases hpos
      obtain ⟨e, he, rfl, -⟩ := hf
      obtain ⟨e', he', rfl, -⟩ := hf'
      rw [Option.some.inj (he.symm.trans he')]

/-- What user code can reach is a page of its context. -/
lemma Owned.accessible (hc : w.contexts c = some context)
    (ht : translate w.machine.memory (physicalAddress context.tableL0) va = some t) :
    ∃ g, H (.node c 4 (pageOf va)) = some g ∧ t = userPage va g ∧
      t.outputAddress / pageSize * pageSize = g := by
  have hlt : va < 2 ^ 48 := by
    by_contra hge
    rw [Armv8.translate, if_neg hge] at ht
    cases ht
  rw [translate_eq (h.represents hc) hlt] at ht
  obtain ⟨g, hg, rfl⟩ := Option.map_eq_some_iff.mp ht
  obtain ⟨k, hk⟩ := (h.fits.frame hg).1
  refine ⟨g, hg, rfl, ?_⟩
  have hmod : va % pageSize < pageSize := Nat.mod_lt _ (by decide)
  rw [userPage, hk, Nat.mul_add_div (by decide), Nat.div_eq_of_lt hmod, Nat.add_zero,
    Nat.mul_comm]

end Roles

/-- A frame that passes the allocator's test is clear of a non-empty reserved range. -/
lemma clear_of_reserved {range : ℕ × ℕ} (hf : f + pageSize < 2 ^ 64) (hne : range.1 < range.2)
    (hend : range.2 < 2 ^ 64) (h : intersects f range = false) :
    f + pageSize ≤ range.1 ∨ range.2 ≤ f := by
  have hnot := mt (intersects_iff hf hne hend).mpr (by rw [h]; decide)
  omega

end Pimento.Ownership
