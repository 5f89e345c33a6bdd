import Pimento.TableTree

/-!
One level of the software walk.

The kernel finds a row by arithmetic on the first address of its table and the bytes a row
covers; on the way to an address these are the digits of the page number. A level either
finds the child, takes a fresh frame and installs it, or fails with no frame left.
-/

namespace Pimento.Traverse

open Address PageTable PageAllocator MemoryContext Descriptors Placement TableTree

/-- The manager of the table in frame `f` at level `l` on the way to an address. -/
def managerAt (l f v : ℕ) : TableManager where
  table := virtualAddress f
  level := l
  inputAddressStart := path l v * 2 ^ (48 - 9 * l)

variable {l f g v : ℕ}

lemma path_eq (hl : l ≤ 4) : path l v = v / 2 ^ (48 - 9 * l) := by
  unfold path pathTo pageOf
  rw [Nat.div_div_eq_div_mul, show pageSize * rowCount ^ (4 - l) = 2 ^ (48 - 9 * l) by
    interval_cases l <;> norm_num [pageSize, rowCount]]

lemma len_managerAt (hl : l ≤ levelMax) : (managerAt l f v).len = 2 ^ (48 - 9 * l) := by
  have hl' : l ≤ 3 := hl
  unfold TableManager.len managerAt levelMax
  interval_cases l <;> norm_num [pageSize, rowCount]

lemma len_div_rowCount (hl : l ≤ levelMax) :
    (managerAt l f v).len / rowCount = 2 ^ (48 - 9 * (l + 1)) := by
  have hl' : l ≤ 3 := hl
  rw [len_managerAt hl]
  interval_cases l <;> norm_num [rowCount]

/-- The first address of the next level, computed from the row. -/
lemma start_row (hl : l ≤ levelMax) (hva : v < 2 ^ 48) :
    TableRowManager.start ⟨managerAt l f v, rowIndex l v⟩ =
      path (l + 1) v * 2 ^ (48 - 9 * (l + 1)) := by
  have hl' : l ≤ 3 := hl
  have hsucc := path_succ (v := v) hl
  have hp := path_eq (v := v) (l := l + 1) (by omega)
  have hpow : 2 ^ (48 - 9 * l) = rowCount * 2 ^ (48 - 9 * (l + 1)) := by
    interval_cases l <;> norm_num [rowCount]
  have hle : path (l + 1) v * 2 ^ (48 - 9 * (l + 1)) ≤ v := by
    rw [hp]
    exact Nat.div_mul_le_self _ _
  have hsum : path l v * 2 ^ (48 - 9 * l) + 2 ^ (48 - 9 * (l + 1)) * rowIndex l v =
      path (l + 1) v * 2 ^ (48 - 9 * (l + 1)) := by
    rw [hsucc, hpow]
    ring
  unfold TableRowManager.start TableRowManager.len
  rw [len_div_rowCount hl, TableManager.start, managerAt, hsum]
  exact wrap_of_lt (by omega)

/-- **Row lookup.** The arithmetic on start addresses finds the row of the bit field. -/
lemma rowByAddress_managerAt (hl : l ≤ levelMax) (hva : v < 2 ^ 48) :
    (managerAt l f v).rowByAddress v = some ⟨managerAt l f v, rowIndex l v⟩ := by
  have hl' : l ≤ 3 := hl
  have hp := path_eq (v := v) (l := l) (by omega)
  have hstart : (managerAt l f v).start = v / 2 ^ (48 - 9 * l) * 2 ^ (48 - 9 * l) := by
    rw [← hp]
    rfl
  have hindex : rowIndex l v =
      (v - v / 2 ^ (48 - 9 * l) * 2 ^ (48 - 9 * l)) / 2 ^ (48 - 9 * (l + 1)) := by
    unfold rowIndex digit pageOf pageSize rowCount
    interval_cases l <;> norm_num <;> omega
  have hbound : v / 2 ^ (48 - 9 * l) * 2 ^ (48 - 9 * l) ≤ v ∧
      v < v / 2 ^ (48 - 9 * l) * 2 ^ (48 - 9 * l) + 2 ^ (48 - 9 * l) ∧
      v / 2 ^ (48 - 9 * l) * 2 ^ (48 - 9 * l) + 2 ^ (48 - 9 * l) ≤ 2 ^ 48 := by
    interval_cases l <;> norm_num at hva ⊢ <;> omega
  simp only [TableManager.rowByAddress, hstart, len_div_rowCount hl]
  rw [len_managerAt hl, wrap_of_lt (by omega), if_neg (by omega), hindex]

/-- The root table covers the addresses below `2 ^ 48`, and nothing else. -/
lemma rowByAddress_root_none {c : MemoryContext} (hva : 2 ^ 48 ≤ v) :
    (rootTable c).rowByAddress v = none := by
  have hlen : (rootTable c).len = 2 ^ 48 := by
    norm_num [TableManager.len, rootTable, pageSize, rowCount, levelMax, levelRoot]
  simp only [TableManager.rowByAddress, hlen]
  rw [if_pos]
  exact Or.inr (by simpa [TableManager.start, rootTable, wrap] using hva)

lemma rootTable_eq {c : MemoryContext} (hc : c.tableL0 = virtualAddress f) (hva : v < 2 ^ 48) :
    rootTable c = managerAt 0 f v := by
  simp [rootTable, managerAt, hc, path_root hva, levelRoot]

/-! ### Rows in memory -/

variable {m : ByteMemory} {w : Word} {i : ℕ}

lemma pointer_row (hf : IsFrame f) (hi : i < rowCount) :
    physicalAddress (TableRowManager.pointer ⟨managerAt l f v, i⟩) = f + 8 * i := by
  have h1 := IsFrame.add_le hf
  have h2 := row_end_le hi
  show physicalAddress (virtualAddress f + 8 * i) = f + 8 * i
  exact physicalAddress_virtualAddress (by omega)

lemma value_row (hf : IsFrame f) (hi : i < rowCount) :
    TableRowManager.value ⟨managerAt l f v, i⟩ m = (.ok (row m f i), m) := by
  rw [TableRowManager.value, if_pos hi, Exec.gets_apply, pointer_row hf hi]
  rfl

lemma setValue_row (hf : IsFrame f) (hi : i < rowCount) :
    TableRowManager.setValue ⟨managerAt l f v, i⟩ w m = (.ok (), m.writeWord (f + 8 * i) w) := by
  rw [TableRowManager.setValue, if_pos hi, Exec.modify_apply, pointer_row hf hi]

/-- The kind of child a row of this level holds. -/
def childType (l : ℕ) : DescriptorType := if l < levelMax then .table else .page

lemma descriptorType_row (hf : IsFrame f) (hi : i < rowCount) (hl : l ≤ levelMax)
    {c : Option ℕ} (hrow : row m f i = rowOf l c) (hc : ∀ g, c = some g → IsFrame g) :
    TableRowManager.descriptorType ⟨managerAt l f v, i⟩ m =
      (.ok (c.map fun _ => childType l), m) := by
  rw [TableRowManager.descriptorType, Exec.bind_ok (value_row hf hi), hrow]
  rcases c with _ | g
  · have h0 : rowOf l none &&& typeMask = 0 := BitVec.zero_and
    rw [h0, if_neg (by rintro ⟨h, -⟩; cases h), if_neg (by rintro ⟨h, -⟩; cases h),
      if_neg (by rintro ⟨h, -⟩; cases h)]
    rfl
  · have h3 : rowOf l (some g) &&& typeMask = 0b11 := descriptor_and_typeMask (hc g rfl) l
    rw [h3, Option.map_some, childType]
    by_cases h : l < levelMax
    · rw [if_pos ⟨rfl, h⟩, if_pos h]
      rfl
    · rw [if_neg (fun hn => h hn.2), if_neg (by rintro ⟨h, -⟩; cases h),
        if_pos ⟨rfl, le_antisymm hl (Nat.not_lt.mp h)⟩, if_neg h]
      rfl

lemma loadTable_row (hf : IsFrame f) (hi : i < rowCount) (hl : l < levelMax) (hg : IsFrame g)
    (hrow : row m f i = rowOf l (some g)) :
    TableRowManager.loadTable ⟨managerAt l f v, i⟩ m = (.ok ⟨descriptor l g⟩, m) := by
  rw [TableRowManager.loadTable, Exec.bind_ok (descriptorType_row hf hi hl.le hrow
    (by rintro _ ⟨⟩; exact hg))]
  simp only [Option.map_some, childType, if_pos hl]
  rw [Exec.bind_ok (value_row hf hi), hrow]
  rfl

lemma loadPage_row (hf : IsFrame f) (hi : i < rowCount) (hl : l = levelMax) (hg : IsFrame g)
    (hrow : row m f i = rowOf l (some g)) :
    TableRowManager.loadPage ⟨managerAt l f v, i⟩ m = (.ok ⟨descriptor l g⟩, m) := by
  rw [TableRowManager.loadPage, Exec.bind_ok (descriptorType_row hf hi hl.le hrow
    (by rintro _ ⟨⟩; exact hg))]
  simp only [Option.map_some, childType, if_neg hl.not_lt]
  rw [Exec.bind_ok (value_row hf hi), hrow]
  rfl

lemma writeTable_row (hf : IsFrame f) (hi : i < rowCount) (hl : l < levelMax) :
    TableRowManager.writeTable ⟨managerAt l f v, i⟩ ⟨w⟩ m =
      (.ok (), m.writeWord (f + 8 * i) w) := by
  rw [TableRowManager.writeTable, if_neg (by simpa [managerAt] using hl), setValue_row hf hi]
  rfl

lemma writePage_row (hf : IsFrame f) (hi : i < rowCount) (hl : l = levelMax)
    (b : PageDescriptorBuilder) :
    TableRowManager.writePage ⟨managerAt l f v, i⟩ b m =
      (.ok (), m.writeWord (f + 8 * i) b.build) := by
  rw [TableRowManager.writePage, if_neg (by simpa [managerAt] using hl), setValue_row hf hi]

/-! ### One level -/

/-- The scope after a child has been installed in frame `g`. -/
def installed (s : Scope) (l f i g : ℕ) : Scope where
  machine := { s.machine with
    memory := install s.machine.memory l f i g
    allocated := g + pageSize }
  context := { s.context with
    pageAllocations := s.context.pageAllocations ++ [⟨g, virtualAddress g⟩] }

/-- The scope after the allocator has failed with its counter at `a`. -/
def exhausted (s : Scope) (a : ℕ) : Scope :=
  { s with machine := { s.machine with allocated := a } }

variable {pa : PageAllocator} {P : Space} {root : ℕ} {s s' : Scope} {c : Option ℕ}

/-- What a level can do: the child it ends with, if any, and the scope. -/
inductive Child (pa : PageAllocator) (P : Space) (s : Scope) (l f v : ℕ) :
    Option ℕ → Scope → Prop
  | present {g : ℕ} (h : P (l + 1) (path (l + 1) v) = some g) : Child pa P s l f v (some g) s
  | fresh {g : ℕ} (h : P (l + 1) (path (l + 1) v) = none) (hle : s.machine.allocated ≤ g)
      (hg : IsFrame g) (hcap : g + pageSize ≤ pa.capacity)
      (hres : ¬ pa.reservedRanges.any (intersects g))
      (hfree : freeFrames pa s.machine.allocated = freeFrames pa (g + pageSize) + 1) :
      Child pa P s l f v (some g) (installed s l f (rowIndex l v) g)
  | none {a : ℕ} (h : P (l + 1) (path (l + 1) v) = none) (hle : s.machine.allocated ≤ a)
      (hal : pageSize ∣ a) (hfree : freeFrames pa s.machine.allocated = 0) :
      Child pa P s l f v none (exhausted s a)

lemma allocPageRaw_cases (hcap : pa.capacity ≤ 2 ^ 48)
    (hwrap : s.machine.allocated + pageSize < 2 ^ 64) (hal : pageSize ∣ s.machine.allocated) :
    (∃ g, allocPageRaw pa s = (.ok ⟨g, virtualAddress g⟩,
        { machine := taken s.machine g
          context := { s.context with
            pageAllocations := s.context.pageAllocations ++ [⟨g, virtualAddress g⟩] } }) ∧
      s.machine.allocated ≤ g ∧ IsFrame g ∧ g + pageSize ≤ pa.capacity ∧
      ¬ pa.reservedRanges.any (intersects g) ∧
      freeFrames pa s.machine.allocated = freeFrames pa (g + pageSize) + 1) ∨
    (∃ a, allocPageRaw pa s = (.err, exhausted s a) ∧ s.machine.allocated ≤ a ∧ pageSize ∣ a ∧
      freeFrames pa s.machine.allocated = 0) := by
  rcases alloc_cases hcap hwrap hal with
    ⟨g, halloc, hle, hdvd, hg, hres, hfree⟩ | ⟨a, halloc, hle, hdvd, hfree⟩
  · have hps : 0 < pageSize := by decide
    refine Or.inl ⟨g, ?_, hle, ⟨hdvd, by omega⟩, hg, hres, hfree⟩
    rw [allocPageRaw, Exec.bind_ok (a := ⟨g, virtualAddress g⟩)
      (t := { s with machine := taken s.machine g })]
    · rfl
    · simp [onMachine, Exec.zoom, halloc]
  · refine Or.inr ⟨a, ?_, hle, hdvd, hfree⟩
    rw [allocPageRaw, Exec.bind_err]
    simp [onMachine, Exec.zoom, halloc, exhausted]

lemma onMemory_ok {α : Type} {x : Exec ByteMemory α} {a : α} {m' : ByteMemory}
    (h : x s.machine.memory = (.ok a, m')) :
    onMemory x s = (.ok a, { s with machine := { s.machine with memory := m' } }) := by
  simp [onMemory, Exec.zoom, h]

/-- Reading leaves the scope as it is. -/
lemma onMemory_read {α : Type} {x : Exec ByteMemory α} {a : α}
    (h : x s.machine.memory = (.ok a, s.machine.memory)) : onMemory x s = (.ok a, s) :=
  onMemory_ok h

section Level

variable (hcap : pa.capacity ≤ 2 ^ 48) (hal : pageSize ∣ s.machine.allocated)
  (hwrap : P (l + 1) (path (l + 1) v) = none → s.machine.allocated + pageSize < 2 ^ 64)
  (hrep : Represents s.machine.memory P root) (hva : v < 2 ^ 48)
  (hp : P l (path l v) = some f)
include hrep hp

lemma row_eq (hl : l ≤ levelMax) :
    row s.machine.memory f (rowIndex l v) = rowOf l (P (l + 1) (path (l + 1) v)) := by
  rw [path_succ hl]
  exact hrep.rows hl hp rowIndex_lt

include hcap hal hwrap hva

/-- **A table level.** -/
theorem traverseTableToTable_child (hl : l < levelMax) :
    ∃ c s', Child pa P s l f v c s' ∧
      traverseTableToTable pa (managerAt l f v) v s =
        (match c with | some g => .ok (managerAt (l + 1) g v) | none => .err, s') := by
  have hf := hrep.frame hp
  have hrow := row_eq hrep hp hl.le
  have hchild : ∀ g, P (l + 1) (path (l + 1) v) = some g → IsFrame g := fun g hg => hrep.frame hg
  have htype := onMemory_read (descriptorType_row (v := v) hf rowIndex_lt hl.le hrow hchild)
  unfold traverseTableToTable
  simp only [rowByAddress_managerAt hl.le hva, Exec.okOr_some, Exec.pure_bind, start_row hl.le hva]
  rcases hc : P (l + 1) (path (l + 1) v) with _ | g
  · rw [hc] at htype hrow
    rcases allocPageRaw_cases hcap (hwrap hc) hal with
      ⟨g, halloc, hle, hg, hgcap, hres, hfree⟩ | ⟨a, halloc, hle, hdvd, hfree⟩
    · refine ⟨some g, _, .fresh hc hle hg hgcap hres hfree, ?_⟩
      have hwrite := writeTable_row (l := l) (v := v) (w := descriptor 0 g)
        (m := (taken s.machine g).memory) hf (rowIndex_lt (l := l) (v := v)) hl
      have hd : descriptor 0 g = descriptor l g := by
        rw [descriptor_table hl, descriptor_table (by decide)]
      refine (Exec.bind_ok htype).trans ((Exec.bind_ok halloc).trans ?_)
      simp only [tableDescriptorBuilder_new hg, Exec.okOr_some, Exec.pure_bind]
      rw [Exec.bind_ok (onMemory_ok hwrite), hd]
      rfl
    · refine ⟨none, _, .none hc hle hdvd hfree, ?_⟩
      exact (Exec.bind_ok htype).trans (Exec.bind_err halloc)
  · rw [hc] at htype hrow
    refine ⟨some g, s, .present hc, ?_⟩
    have hload := onMemory_read (loadTable_row (v := v) hf rowIndex_lt hl (hchild g hc) hrow)
    rw [Exec.bind_ok htype, Option.map_some, childType, if_pos hl]
    simp only
    rw [Exec.bind_ok hload, tableDescriptorBuilder_address (hchild g hc) hl]
    rfl

/-- **The page level.** -/
theorem traverseTableToPage_child (hl : l = levelMax) :
    ∃ c s', Child pa P s l f v c s' ∧
      traverseTableToPage pa (managerAt l f v) v s =
        (match c with | some g => .ok g | none => .err, s') := by
  have hf := hrep.frame hp
  have hrow := row_eq hrep hp hl.le
  have hchild : ∀ g, P (l + 1) (path (l + 1) v) = some g → IsFrame g := fun g hg => hrep.frame hg
  have htype := onMemory_read (descriptorType_row (v := v) hf rowIndex_lt hl.le hrow hchild)
  unfold traverseTableToPage
  simp only [rowByAddress_managerAt hl.le hva, Exec.okOr_some, Exec.pure_bind]
  rcases hc : P (l + 1) (path (l + 1) v) with _ | g
  · rw [hc] at htype hrow
    rcases allocPageRaw_cases hcap (hwrap hc) hal with
      ⟨g, halloc, hle, hg, hgcap, hres, hfree⟩ | ⟨a, halloc, hle, hdvd, hfree⟩
    · refine ⟨some g, _, .fresh hc hle hg hgcap hres hfree, ?_⟩
      obtain ⟨b, hb, hbuild⟩ := Option.map_eq_some_iff.mp (pageDescriptorBuilder_new hg)
      have hwrite := writePage_row (v := v) (m := (taken s.machine g).memory) hf
        (rowIndex_lt (l := l) (v := v)) hl ((b.setAttribute .normal).setUnprivileged true)
      rw [hbuild, ← hl] at hwrite
      refine (Exec.bind_ok htype).trans ((Exec.bind_ok halloc).trans ?_)
      simp only [hb, Exec.okOr_some, Exec.pure_bind]
      rw [Exec.bind_ok (onMemory_ok hwrite)]
      rfl
    · refine ⟨none, _, .none hc hle hdvd hfree, ?_⟩
      exact (Exec.bind_ok htype).trans (Exec.bind_err halloc)
  · rw [hc] at htype hrow
    refine ⟨some g, s, .present hc, ?_⟩
    have hload := onMemory_read (loadPage_row (v := v) hf rowIndex_lt hl (hchild g hc) hrow)
    have haddr : PageDescriptorBuilder.address ⟨descriptor l g⟩ = g := by
      rw [hl, pageDescriptorBuilder_address (hchild g hc)]
    rw [Exec.bind_ok htype, Option.map_some, childType, if_neg hl.not_lt]
    simp only
    rw [Exec.bind_ok hload, haddr]
    rfl

end Level

end Pimento.Traverse
