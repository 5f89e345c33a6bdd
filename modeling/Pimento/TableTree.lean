import Pimento.Descriptors
import Pimento.MemoryContext
import Pimento.Placement

/-!
The tables of a context as a placement of the positions of a radix-512 tree in frames.

Depths 0 to 3 are the table levels and depth 4 is the pages; the path of a page is its page
number. Memory represents a placement when every row of every table holds the descriptor of
the child below it, or zero.
-/

namespace Pimento.TableTree

open Address PageTable PageAllocator MemoryContext Descriptors Armv8 Placement ByteMemory

/-- Where the tables and pages of a context are. -/
abbrev Space := Placement ℕ

/-- The row `i` of the table in frame `f`. -/
def row (m : ByteMemory) (f i : ℕ) : Word := m.readWord (f + 8 * i)

/-- The row above a child at this level. -/
def rowOf (level : ℕ) : Option ℕ → Word
  | none => 0
  | some g => descriptor level g

/-- The memory holds the tables of the placement. -/
structure Represents (m : ByteMemory) (P : Space) (root : ℕ) : Prop where
  placed : WellPlaced rowCount 4 P root
  frame : ∀ {l p f}, P l p = some f → IsFrame f
  rows : ∀ {l p f i}, l ≤ levelMax → P l p = some f → i < rowCount →
    row m f i = rowOf l (P (l + 1) (rowCount * p + i))

/-- The page number of an address. -/
def pageOf (v : ℕ) : ℕ := v / pageSize

/-- The path at table level `l` towards an address. -/
def path (l v : ℕ) : ℕ := pathTo rowCount 4 l (pageOf v)

/-- The row of the table at level `l` on the way to an address. -/
def rowIndex (l v : ℕ) : ℕ := digit rowCount 4 l (pageOf v)

variable {m m' : ByteMemory} {P : Space} {root f g h l i p v : ℕ}

lemma rowIndex_lt : rowIndex l v < rowCount := digit_lt (by decide)

lemma path_succ (hl : l ≤ levelMax) : path (l + 1) v = rowCount * path l v + rowIndex l v :=
  pathTo_succ (Nat.lt_succ_of_le hl)

lemma path_last : path 4 v = pageOf v := pathTo_self

lemma path_root (hva : v < 2 ^ 48) : path 0 v = 0 := by
  refine pathTo_zero ?_
  have h : rowCount ^ 4 * pageSize = 2 ^ 48 := by norm_num [rowCount, pageSize]
  exact Nat.div_lt_of_lt_mul (by rw [Nat.mul_comm, h]; exact hva)

/-- The bit field the hardware takes is the digit of the page number. -/
lemma index_eq (hl : l ≤ 3) : Armv8.index v l = rowIndex l v := by
  unfold Armv8.index rowIndex digit pageOf
  rw [Nat.shiftRight_eq_div_pow, Nat.div_div_eq_div_mul,
    show pageSize * rowCount ^ (4 - (l + 1)) = 2 ^ (39 - 9 * l) by
      interval_cases l <;> norm_num [pageSize, rowCount]]
  rfl

/-! ### Frames -/

lemma IsFrame.disjoint (hf : IsFrame f) (hg : IsFrame g) (hne : f ≠ g) :
    f + pageSize ≤ g ∨ g + pageSize ≤ f := by
  obtain ⟨⟨a, rfl⟩, -⟩ := hf
  obtain ⟨⟨b, rfl⟩, -⟩ := hg
  unfold pageSize at *
  omega

lemma IsFrame.add_le (hf : IsFrame f) : f + pageSize ≤ 2 ^ 48 := by
  obtain ⟨⟨a, rfl⟩, hlt⟩ := hf
  unfold pageSize at *
  omega

lemma row_end_le (hi : i < rowCount) : 8 * i + 8 ≤ pageSize := by
  have h1 : rowCount = 512 := rfl
  have h2 : pageSize = 4096 := rfl
  omega

lemma row_congr (hs : SameOn m m' f pageSize) (hi : i < rowCount) : row m f i = row m' f i :=
  readWord_sameOn hs (by omega) (by have := row_end_le hi; omega)

/-- Only the frames of the tables matter. -/
lemma Represents.congr (hrep : Represents m P root)
    (hs : ∀ l p f, l ≤ levelMax → P l p = some f → SameOn m m' f pageSize) :
    Represents m' P root where
  placed := hrep.placed
  frame := hrep.frame
  rows hl hp hi := by rw [← row_congr (hs _ _ _ hl hp) hi, hrep.rows hl hp hi]

/-- A cleared frame is an empty table. -/
lemma represents_single (hf : IsFrame f) (hzero : ∀ i < rowCount, row m f i = 0) :
    Represents m (single f) f where
  placed := wellPlaced_single
  frame hp := by
    obtain ⟨-, -, rfl⟩ := single_eq_some hp
    exact hf
  rows {l p f' i} hl hp hi := by
    obtain ⟨rfl, rfl, rfl⟩ := single_eq_some hp
    rw [hzero i hi]
    rfl

/-- The memory after a child has been cleared and its descriptor written into row `i` of the
table in frame `f` at level `l`. -/
def install (m : ByteMemory) (l f i g : ℕ) : ByteMemory :=
  (m.clear g pageSize).writeWord (f + 8 * i) (descriptor l g)

/-- Installing a child changes no other frame. -/
lemma sameOn_install (hf : IsFrame f) (hg : IsFrame g) (hh : IsFrame h) (hi : i < rowCount)
    (hhf : h ≠ f) (hhg : h ≠ g) : SameOn m (install m l f i g) h pageSize := by
  have h1 := IsFrame.disjoint hh hf hhf
  have h2 := IsFrame.disjoint hh hg hhg
  have h3 := row_end_le hi
  exact (sameOn_clear h2).trans (sameOn_writeWord (by omega))

lemma row_install_self (hf : IsFrame f) (hg : IsFrame g) (hfg : f ≠ g) (hi : i < rowCount)
    {j : ℕ} (hj : j < rowCount) :
    row (install m l f i g) f j = if j = i then descriptor l g else row m f j := by
  have h1 := IsFrame.disjoint hf hg hfg
  have h3 := row_end_le hi
  have h4 := row_end_le hj
  unfold row install
  split
  · rename_i h
    rw [h, readWord_writeWord]
  · rw [readWord_writeWord_of_disjoint (by omega), readWord_clear_of_disjoint (by omega)]

lemma row_install_new (hf : IsFrame f) (hg : IsFrame g) (hfg : f ≠ g) (hi : i < rowCount)
    {j : ℕ} (hj : j < rowCount) : row (install m l f i g) g j = 0 := by
  have h1 := IsFrame.disjoint hf hg hfg
  have h3 := row_end_le hi
  have h4 := row_end_le hj
  unfold row install
  rw [readWord_writeWord_of_disjoint (by omega), readWord_clear (by omega) (by omega)]

/-- **Installing a child.** A child installed in a fresh frame extends the placement. -/
theorem Represents.install (hrep : Represents m P root) (hl : l ≤ levelMax)
    (hparent : P l p = some f) (hi : i < rowCount) (hfree : P (l + 1) (rowCount * p + i) = none)
    (hg : IsFrame g) (hfresh : ∀ l' p', P l' p' ≠ some g) :
    Represents (install m l f i g) (insert P (l + 1) (rowCount * p + i) g) root := by
  have hf := hrep.frame hparent
  have hfg : f ≠ g := fun h => hfresh l p (h ▸ hparent)
  have hr : 0 < rowCount := by decide
  refine ⟨?_, ?_, ?_⟩
  · have hup : P l ((rowCount * p + i) / rowCount) = some f := by
      rw [Nat.mul_add_div hr, Nat.div_eq_of_lt hi, Nat.add_zero, hparent]
    exact hrep.placed.insert (Nat.lt_succ_of_le hl) hup hfree hfresh
  · intro l' p' f' hp
    rcases insert_eq_some hp with ⟨-, -, rfl⟩ | hold
    · exact hg
    · exact hrep.frame hold
  · intro l' p' f' j hl' hp hj
    rcases insert_eq_some hp with ⟨hl₁, hp₁, hf₁⟩ | hold
    · -- the new child: nothing is below it
      rw [hf₁, row_install_new hf hg hfg hi hj, hl₁, hp₁, insert_of_ne (by omega),
        hrep.placed.none_child hr hj hfree]
      rfl
    · by_cases hff : f' = f
      · -- the parent: one row changes
        obtain ⟨hl₁, hp₁⟩ := hrep.placed.inj (hff ▸ hold) hparent
        rw [hff, hl₁, hp₁, row_install_self hf hg hfg hi hj]
        by_cases hji : j = i
        · rw [if_pos hji, hji, insert_self]
          rfl
        · rw [if_neg hji, insert_of_ne (by omega), hrep.rows hl hparent hj]
      · have hfg' : f' ≠ g := fun h => hfresh l' p' (h ▸ hold)
        rw [← row_congr (sameOn_install hf hg (hrep.frame hold) hi hff hfg') hj,
          hrep.rows hl' hold hj, insert_of_ne]
        rintro ⟨hl₁, hp₁⟩
        -- the same position would make `f'` the parent
        have hp' : p' = p := by
          have := congrArg (· / rowCount) hp₁
          simpa [Nat.mul_add_div hr, Nat.div_eq_of_lt hi, Nat.div_eq_of_lt hj] using this
        obtain rfl : l' = l := by omega
        rw [hp', hparent] at hold
        exact hff (Option.some.inj hold).symm

/-! ### The hardware walk -/

/-- The translation of an address whose page is the user page in frame `g`. -/
def userPage (v g : ℕ) : Translation where
  outputAddress := g + v % pageSize
  attrIndex := 1
  el0 := true
  readOnly := false
  accessFlag := true

lemma walkFrom_eq (hrep : Represents m P root) (k : ℕ) : ∀ l f, l + k = 3 →
    P l (path l v) = some f →
    walkFrom m v k f 0 = (P 4 (pageOf v)).map (userPage v) := by
  induction k with
  | zero =>
    intro l f hl hp
    obtain rfl : l = 3 := by omega
    have hrow := hrep.rows (i := rowIndex 3 v) (le_refl 3) hp rowIndex_lt
    rw [← path_succ (le_refl 3), path_last] at hrow
    rw [walkFrom, index_eq (le_refl 3), show m.readWord _ = _ from hrow]
    rcases hc : P 4 (pageOf v) with _ | g
    · rw [rowOf, decode_zero]
      rfl
    · rw [rowOf, show (3 : ℕ) = levelMax from rfl, decode_page (hrep.frame hc)]
      rfl
  | succ k ih =>
    intro l f hl hp
    have hl3 : l < levelMax := show l < 3 by omega
    have hrow := hrep.rows (i := rowIndex l v) hl3.le hp rowIndex_lt
    rw [← path_succ hl3.le] at hrow
    rw [walkFrom, show 3 - (k + 1) = l by omega, index_eq (by omega),
      show m.readWord _ = _ from hrow]
    rcases hc : P (l + 1) (path (l + 1) v) with _ | g
    · have hnone := hrep.placed.none_below (by decide) k (by omega) hc
      rw [show l + 1 + k = 3 by omega] at hnone
      have hlast := hrep.placed.none_child (r := rowCount) (i := rowIndex 3 v) (by decide)
        rowIndex_lt hnone
      rw [show pathTo rowCount 4 3 (pageOf v) = path 3 v from rfl, ← path_succ (le_refl 3),
        path_last] at hlast
      rw [rowOf, decode_zero, hlast]
      rfl
    · rw [rowOf, decode_table (hrep.frame hc) hl3]
      exact ih (l + 1) g (by omega) hc

/-- **The walk reads the placement off.** -/
theorem translate_eq (hrep : Represents m P root) (hva : v < 2 ^ 48) :
    translate m root v = (P 4 (pageOf v)).map (userPage v) := by
  rw [Armv8.translate, if_pos hva]
  refine walkFrom_eq hrep 3 0 root rfl ?_
  rw [path_root hva]
  exact hrep.placed.root

end Pimento.TableTree
