import Pimento.Descriptors

/-!
The translation tables of the kernel, as it builds them before it turns the MMU on.

The six tables are one static array, so a row of one of them is a cell of a grid. Every write
fills one cell, and what the loops have done so far is a set of cells.
-/

namespace Pimento.KernelTables

open Address PageTable Descriptors ByteMemory

def l3TableCount : ℕ := 3

def tableCount : ℕ := 3 + l3TableCount

/-- The address of `TABLES[i]`. -/
def tableAddress (tables i : ℕ) : ℕ := tables + pageSize * i

def tableDescriptor (t : TableManager) : Option TableDescriptorBuilder :=
  TableDescriptorBuilder.new (physicalAddress t.table)

def blockDescriptor (address : ℕ) : Option BlockDescriptorBuilder :=
  BlockDescriptorBuilder.new (physicalAddress address)

def pageDescriptor (address : ℕ) : Option PageDescriptorBuilder :=
  PageDescriptorBuilder.new (physicalAddress address)

section Managers

variable (tables : ℕ)

def tableL0 : TableManager := ⟨tableAddress tables 0, levelRoot, 0⟩

def tableL1 : TableManager := ⟨tableAddress tables 1, levelRoot + 1, ((tableL0 tables).row 0).start⟩

def tableL2 : TableManager := ⟨tableAddress tables 2, levelRoot + 2, ((tableL1 tables).row 0).start⟩

def tableL3 : List TableManager :=
  [⟨tableAddress tables 3, levelRoot + 3, ((tableL2 tables).row 0).start⟩,
    ⟨tableAddress tables 4, levelRoot + 3, ((tableL2 tables).row 1).start⟩,
    ⟨tableAddress tables 5, levelRoot + 3, ((tableL2 tables).row 2).start⟩]

end Managers

/-- A round of the loop over level 1. -/
def fillL1 (tables i : ℕ) : Exec ByteMemory Unit := do
  let row := (tableL1 tables).row i
  if i = 0 then
    row.writeTable (← .okOr (tableDescriptor (tableL2 tables)))
  else
    let desc := (← .okOr (blockDescriptor row.start)).setAttribute .device
    row.writeBlock desc

/-- A round of the loop over a table of level 3. -/
def fillL3 (table : TableManager) (j : ℕ) : Exec ByteMemory Unit := do
  let row := table.row j
  let desc := (← .okOr (pageDescriptor row.start)).setAttribute .normal
  row.writePage desc

/-- A round of the loop over level 2. -/
def fillL2 (tables i : ℕ) : Exec ByteMemory Unit := do
  let row := (tableL2 tables).row i
  if i < l3TableCount then
    match (tableL3 tables)[i]? with
    | some table =>
      row.writeTable (← .okOr (tableDescriptor table))
      Exec.forRange rowCount (fillL3 table)
    | none => .panic
  else
    let desc := (← .okOr (blockDescriptor row.start)).setAttribute .device
    row.writeBlock desc

/-- Create the tables; the result is the address of the root table. -/
def createTables (tables : ℕ) : Exec ByteMemory ℕ := do
  let row := (tableL0 tables).row 0
  row.writeTable (← .okOr (tableDescriptor (tableL1 tables)))
  Exec.forRange rowCount (fillL1 tables)
  Exec.forRange rowCount (fillL2 tables)
  return (tableL0 tables).table

/-! ### Kernel descriptors -/

/-- Type, access flag, not global; the attribute is that of device memory. -/
def deviceBlockFlags : Word := 0xC01

/-- Type, access flag, not global, normal memory. -/
def kernelPageFlags : Word := 0xC07

def deviceBlock (g : ℕ) : Word := deviceBlockFlags ||| addressBits g

def kernelPage (g : ℕ) : Word := kernelPageFlags ||| addressBits g

variable {g : ℕ}

lemma blockMask_getLsbD (i : ℕ) : blockAddressMask.getLsbD i = decide (21 ≤ i ∧ i < 48) := by
  by_cases hi : i < 64
  · have h : ∀ j : Fin 64, blockAddressMask.getLsbD j = decide (21 ≤ j.val ∧ j.val < 48) := by
      decide
    exact h ⟨i, hi⟩
  · rw [BitVec.getLsbD_of_ge _ _ (by omega)]
    exact (decide_eq_false (by omega)).symm

/-- The start of a block is a frame. -/
lemma isFrame_of_block (h : 2 ^ 21 ∣ g) (hlt : g < 2 ^ 48) : IsFrame g :=
  ⟨(by decide : pageSize ∣ 2 ^ 21).trans h, hlt⟩

lemma addressBits_and_not_blockMask (h : 2 ^ 21 ∣ g) (hlt : g < 2 ^ 48) :
    addressBits g &&& ~~~blockAddressMask = 0 := by
  refine BitVec.eq_of_getLsbD_eq fun i hi => ?_
  rw [BitVec.getLsbD_and, BitVec.getLsbD_not, blockMask_getLsbD]
  by_cases h21 : 21 ≤ i ∧ i < 48
  · simp [h21]
  · rcases Nat.lt_or_ge i 21 with hlow | hhigh
    · obtain ⟨k, rfl⟩ := h
      rw [addressBits, BitVec.getLsbD_ofNat, Nat.testBit_two_pow_mul]
      simp [Nat.not_le.mpr hlow]
    · rw [addressBits_getLsbD (isFrame_of_block h hlt) (by omega)]
      simp

lemma blockDescriptorBuilder_new (h : 2 ^ 21 ∣ g) (hlt : g < 2 ^ 48) :
    (BlockDescriptorBuilder.new g).map (fun b => (b.setAttribute .device).build) =
      some (deviceBlock g) := by
  have hmask : BitVec.ofNat 64 g &&& ~~~blockAddressMask = 0 := addressBits_and_not_blockMask h hlt
  rw [BlockDescriptorBuilder.new, if_neg (by rw [hmask]; simp)]
  simp only [Option.map_some, BlockDescriptorBuilder.setAttribute, BlockDescriptorBuilder.build,
    Option.some.injEq]
  exact flags_or_setAttribute (isFrame_of_block h hlt) _ .device

lemma kernelPageBuilder_new (hg : IsFrame g) :
    (PageDescriptorBuilder.new g).map (fun b => (b.setAttribute .normal).build) =
      some (kernelPage g) := by
  have hmask : BitVec.ofNat 64 g &&& ~~~pageAddressMask = 0 := addressBits_and_not_mask hg
  rw [PageDescriptorBuilder.new, if_neg (by rw [hmask]; simp)]
  simp only [Option.map_some, PageDescriptorBuilder.setAttribute, PageDescriptorBuilder.build,
    Option.some.injEq]
  exact flags_or_setAttribute hg _ .normal

/-! ### The grid of rows -/

/-- What the row `i` of the table `t` is for. -/
def target (tables : ℕ) : ℕ → ℕ → Word
  | 0, i => if i = 0 then descriptor 0 (tableAddress tables 1) else 0
  | 1, i => if i = 0 then descriptor 0 (tableAddress tables 2) else deviceBlock (2 ^ 30 * i)
  | 2, i =>
    if i < l3TableCount then descriptor 0 (tableAddress tables (3 + i))
    else deviceBlock (2 ^ 21 * i)
  | t + 3, i => kernelPage (2 ^ 21 * t + 2 ^ 12 * i)

/-- The address of a row. -/
def cell (tables t i : ℕ) : ℕ := tableAddress tables t + 8 * i

/-- The rows in the set have been written, and the others are still clear. -/
def Filled (tables : ℕ) (D : ℕ → ℕ → Prop) (m : ByteMemory) : Prop :=
  ∀ t i, t < tableCount → i < rowCount →
    (D t i → m.readWord (cell tables t i) = target tables t i) ∧
      (¬ D t i → m.readWord (cell tables t i) = 0)

/-- The static array is where it may be. -/
structure Placed (tables : ℕ) : Prop where
  aligned : pageSize ∣ tables
  below : tables + pageSize * tableCount ≤ 2 ^ 48

variable {tables t i : ℕ} {D D' : ℕ → ℕ → Prop} {m : ByteMemory}

lemma Filled.congr (h : Filled tables D m)
    (heq : ∀ t i, t < tableCount → i < rowCount → (D t i ↔ D' t i)) : Filled tables D' m := by
  intro t i ht hi
  rw [← heq t i ht hi]
  exact h t i ht hi

/-- Rows do not overlap. -/
lemma Filled.write (h : Filled tables D m) (ht : t < tableCount) (hi : i < rowCount) :
    Filled tables (fun t' i' => (t' = t ∧ i' = i) ∨ D t' i')
      (m.writeWord (cell tables t i) (target tables t i)) := by
  have hps : pageSize = 4096 := rfl
  have hrc : rowCount = 512 := rfl
  intro t' i' ht' hi'
  by_cases hsame : t' = t ∧ i' = i
  · obtain ⟨rfl, rfl⟩ := hsame
    exact ⟨fun _ => readWord_writeWord, fun hn => absurd (.inl ⟨rfl, rfl⟩) hn⟩
  · have hdisjoint : cell tables t' i' + 8 ≤ cell tables t i ∨
        cell tables t i + 8 ≤ cell tables t' i' := by
      unfold cell tableAddress
      rw [hps]
      omega
    rw [readWord_writeWord_of_disjoint hdisjoint]
    obtain ⟨hin, hout⟩ := h t' i' ht' hi'
    exact ⟨fun hd => hin (hd.resolve_left hsame), fun hn => hout fun hd => hn (.inr hd)⟩

lemma Placed.table_le (hp : Placed tables) (ht : t < tableCount) :
    tableAddress tables t + pageSize ≤ 2 ^ 48 := by
  have hle : pageSize * (t + 1) ≤ pageSize * tableCount := Nat.mul_le_mul_left _ ht
  have hbelow := hp.below
  rw [Nat.mul_succ] at hle
  unfold tableAddress
  omega

lemma Placed.frame (hp : Placed tables) (ht : t < tableCount) :
    IsFrame (tableAddress tables t) := by
  have hle := hp.table_le ht
  have hps : 0 < pageSize := by decide
  exact ⟨Nat.dvd_add hp.aligned (Nat.dvd_mul_right _ _), by omega⟩

/-- A write to a row of one of the tables. -/
lemma Placed.setValue (hp : Placed tables) (h : Filled tables D m) (ht : t < tableCount)
    {r : TableRowManager} (htable : r.tableManager.table = tableAddress tables t)
    (hi : r.index < rowCount) : ∃ m', r.setValue (target tables t r.index) m = (.ok (), m') ∧
      Filled tables (fun t' i' => (t' = t ∧ i' = r.index) ∨ D t' i') m' := by
  have hle := hp.table_le ht
  have hps : pageSize = 4096 := rfl
  have hrc : rowCount = 512 := rfl
  have hphys : physicalAddress r.pointer = cell tables t r.index := by
    rw [physicalAddress_eq_mod, TableRowManager.pointer, htable]
    exact Nat.mod_eq_of_lt (by omega)
  refine ⟨_, ?_, h.write ht hi⟩
  rw [TableRowManager.setValue, if_pos hi, hphys]
  rfl

section Writes

variable {r : TableRowManager} {j a : ℕ} (hp : Placed tables) (h : Filled tables D m)
  (ht : t < tableCount) (htable : r.tableManager.table = tableAddress tables t)
  (hi : r.index < rowCount)
include hp h ht htable hi

lemma write_table {u : TableManager} (hlevel : r.tableManager.level < levelMax)
    (hj : j < tableCount) (hu : u.table = tableAddress tables j)
    (htarget : target tables t r.index = descriptor 0 (tableAddress tables j)) :
    ∃ m', (Exec.okOr (tableDescriptor u) >>= r.writeTable) m = (.ok (), m') ∧
      Filled tables (fun t' i' => (t' = t ∧ i' = r.index) ∨ D t' i') m' := by
  have hphys : physicalAddress (tableAddress tables j) = tableAddress tables j := by
    rw [physicalAddress_eq_mod]
    exact Nat.mod_eq_of_lt (hp.frame hj).2
  obtain ⟨m', hset, hm'⟩ := hp.setValue h ht htable hi
  refine ⟨m', ?_, hm'⟩
  rw [tableDescriptor, hu, hphys, tableDescriptorBuilder_new (hp.frame hj), Exec.okOr_some,
    Exec.pure_bind, TableRowManager.writeTable, if_neg (by omega), ← hset, htarget]
  rfl

lemma write_block (hlevel : levelRoot < r.tableManager.level) (ha : 2 ^ 21 ∣ a) (hlt : a < 2 ^ 48)
    (htarget : target tables t r.index = deviceBlock a) :
    ∃ m', (Exec.okOr (blockDescriptor a) >>= fun b =>
        r.writeBlock (b.setAttribute .device)) m = (.ok (), m') ∧
      Filled tables (fun t' i' => (t' = t ∧ i' = r.index) ∨ D t' i') m' := by
  have hphys : physicalAddress a = a := by
    rw [physicalAddress_eq_mod]
    exact Nat.mod_eq_of_lt hlt
  obtain ⟨b, hb, hbuild⟩ := Option.map_eq_some_iff.mp (blockDescriptorBuilder_new ha hlt)
  obtain ⟨m', hset, hm'⟩ := hp.setValue h ht htable hi
  refine ⟨m', ?_, hm'⟩
  rw [blockDescriptor, hphys, hb, Exec.okOr_some, Exec.pure_bind, TableRowManager.writeBlock,
    if_neg (by omega), hbuild, ← hset, htarget]

lemma write_page (hlevel : r.tableManager.level = levelMax) (ha : IsFrame a)
    (htarget : target tables t r.index = kernelPage a) :
    ∃ m', (Exec.okOr (pageDescriptor a) >>= fun b =>
        r.writePage (b.setAttribute .normal)) m = (.ok (), m') ∧
      Filled tables (fun t' i' => (t' = t ∧ i' = r.index) ∨ D t' i') m' := by
  have hphys : physicalAddress a = a := by
    rw [physicalAddress_eq_mod]
    exact Nat.mod_eq_of_lt ha.2
  obtain ⟨b, hb, hbuild⟩ := Option.map_eq_some_iff.mp (kernelPageBuilder_new ha)
  obtain ⟨m', hset, hm'⟩ := hp.setValue h ht htable hi
  refine ⟨m', ?_, hm'⟩
  rw [pageDescriptor, hphys, hb, Exec.okOr_some, Exec.pure_bind, TableRowManager.writePage,
    if_neg (by omega), hbuild, ← hset, htarget]

end Writes

/-! ### The loops -/

/-- The start of a row. -/
lemma start_row {u : TableManager} (hl : u.level ≤ levelMax)
    (hlt : u.inputAddressStart + 2 ^ (39 - 9 * u.level) * i < 2 ^ 64) :
    (u.row i).start = u.inputAddressStart + 2 ^ (39 - 9 * u.level) * i := by
  have hrow : (u.row i).len = 2 ^ (39 - 9 * u.level) := by
    have hl3 : u.level ≤ 3 := hl
    unfold TableRowManager.len TableManager.row TableManager.len
    interval_cases u.level <;> norm_num [pageSize, rowCount, levelMax]
  unfold TableRowManager.start TableManager.start
  rw [hrow]
  exact wrap_of_lt hlt

lemma tableL1_start : (tableL1 tables).inputAddressStart = 0 :=
  start_row (u := tableL0 tables) (i := 0) (Nat.zero_le _) (Nat.two_pow_pos 64)

lemma tableL2_start : (tableL2 tables).inputAddressStart = 0 := by
  have h : (tableL1 tables).inputAddressStart = 0 := tableL1_start
  have hrow := start_row (u := tableL1 tables) (i := 0) (by decide : 1 ≤ levelMax)
    (by rw [h]; exact Nat.two_pow_pos 64)
  exact hrow.trans h

/-- The rows that are done before round `k` of the loop over level 1. -/
def DoneL1 (k t i : ℕ) : Prop := (t = 0 ∧ i = 0) ∨ (t = 1 ∧ i < k)

lemma fillL1_spec (hp : Placed tables) (hi : i < rowCount) (h : Filled tables (DoneL1 i) m) :
    ∃ m', fillL1 tables i m = (.ok (), m') ∧ Filled tables (DoneL1 (i + 1)) m' := by
  have hrc : rowCount = 512 := rfl
  have hdone : ∀ {m'}, Filled tables (fun t' i' => (t' = 1 ∧ i' = i) ∨ DoneL1 i t' i') m' →
      Filled tables (DoneL1 (i + 1)) m' := fun hm => hm.congr fun t i' _ _ => by
    unfold DoneL1
    omega
  by_cases hz : i = 0
  · obtain ⟨m', hw, hm'⟩ := write_table (r := (tableL1 tables).row i) (u := tableL2 tables)
      (j := 2) hp h (t := 1) (by decide) rfl hi (by decide : 1 < levelMax) (by decide) rfl
      (if_pos hz)
    refine ⟨m', ?_, hdone hm'⟩
    rw [fillL1, if_pos hz]
    exact hw
  · have hstart : ((tableL1 tables).row i).start = 2 ^ 30 * i := by
      have hrow := start_row (u := tableL1 tables) (i := i) (by decide : 1 ≤ levelMax)
        (by rw [tableL1_start, Nat.zero_add]; exact (by omega : 2 ^ 30 * i < 2 ^ 64))
      rwa [tableL1_start, Nat.zero_add] at hrow
    obtain ⟨m', hw, hm'⟩ := write_block (r := (tableL1 tables).row i) (a := 2 ^ 30 * i) hp h
      (t := 1) (by decide) rfl hi (by decide : levelRoot < 1)
      ((by decide : 2 ^ 21 ∣ 2 ^ 30).trans (Nat.dvd_mul_right _ _)) (by omega) (if_neg hz)
    refine ⟨m', ?_, hdone hm'⟩
    rw [fillL1, if_neg hz]
    rw [← hstart] at hw
    exact hw

lemma rowL2_start (tables : ℕ) (hi : i < rowCount) :
    ((tableL2 tables).row i).start = 2 ^ 21 * i := by
  have hrc : rowCount = 512 := rfl
  have hrow := start_row (u := tableL2 tables) (i := i) (by decide : 2 ≤ levelMax)
    (by rw [tableL2_start, Nat.zero_add]; exact (by omega : 2 ^ 21 * i < 2 ^ 64))
  rwa [tableL2_start, Nat.zero_add] at hrow

/-- The tables of level 3 follow each other in the array and in what they translate. -/
lemma tableL3_get (tables : ℕ) {k : ℕ} (hk : k < l3TableCount) :
    ∃ u, (tableL3 tables)[k]? = some u ∧ u.table = tableAddress tables (3 + k) ∧
      u.level = levelMax ∧ u.inputAddressStart = 2 ^ 21 * k := by
  have hk3 : k < 3 := hk
  have hstart : ∀ k < 3, ((tableL2 tables).row k).start = 2 ^ 21 * k := fun k hk =>
    rowL2_start tables (hk.trans (by decide))
  interval_cases k
  · exact ⟨_, rfl, rfl, rfl, hstart 0 (by decide)⟩
  · exact ⟨_, rfl, rfl, rfl, hstart 1 (by decide)⟩
  · exact ⟨_, rfl, rfl, rfl, hstart 2 (by decide)⟩

/-- The rows that are done before round `k` of the loop over level 2. -/
def DoneL2 (k t i : ℕ) : Prop :=
  (t = 0 ∧ i = 0) ∨ t = 1 ∨ (t = 2 ∧ i < k) ∨ (3 ≤ t ∧ t < 3 + k)

/-- The rows that are done before round `j` of the loop over the table `k` of level 3. -/
def DoneL3 (k j t i : ℕ) : Prop := DoneL2 k t i ∨ (t = 2 ∧ i = k) ∨ (t = 3 + k ∧ i < j)

lemma fillL3_spec {k j : ℕ} (hp : Placed tables) (hk : k < l3TableCount) (hj : j < rowCount)
    {u : TableManager} (htable : u.table = tableAddress tables (3 + k))
    (hlevel : u.level = levelMax)
    (hstart : u.inputAddressStart = 2 ^ 21 * k) (h : Filled tables (DoneL3 k j) m) :
    ∃ m', fillL3 u j m = (.ok (), m') ∧ Filled tables (DoneL3 k (j + 1)) m' := by
  have hk3 : k < 3 := hk
  have hrc : rowCount = 512 := rfl
  have hrow : (u.row j).start = 2 ^ 21 * k + 2 ^ 12 * j := by
    have hrow := start_row (u := u) (i := j) (by rw [hlevel])
    rw [hlevel, hstart] at hrow
    exact hrow (by omega : 2 ^ 21 * k + 2 ^ 12 * j < 2 ^ 64)
  have hframe : IsFrame (2 ^ 21 * k + 2 ^ 12 * j) := by
    refine ⟨Nat.dvd_add ?_ (Nat.dvd_mul_right _ _), by omega⟩
    exact (by decide : pageSize ∣ 2 ^ 21).trans (Nat.dvd_mul_right _ _)
  obtain ⟨m', hw, hm'⟩ := write_page (r := u.row j) hp h (t := 3 + k)
    (Nat.add_lt_add_left hk 3) htable hj hlevel hframe (by rw [Nat.add_comm 3 k]; rfl)
  refine ⟨m', ?_, hm'.congr fun t i _ _ => ?_⟩
  · rw [fillL3, hrow]
    exact hw
  · have hindex : (u.row j).index = j := rfl
    rw [hindex]
    unfold DoneL3 DoneL2
    omega

lemma fillL2_spec (hp : Placed tables) (hi : i < rowCount)
    (h : Filled tables (DoneL2 i) m) :
    ∃ m', fillL2 tables i m = (.ok (), m') ∧ Filled tables (DoneL2 (i + 1)) m' := by
  have hrc : rowCount = 512 := rfl
  by_cases hk : i < l3TableCount
  · have hk3 : i < 3 := hk
    obtain ⟨u, hget, htable, hlevel, hstart⟩ := tableL3_get tables hk
    obtain ⟨m₁, hw, hm₁⟩ := write_table (r := (tableL2 tables).row i) (u := u) (j := 3 + i) hp h
      (t := 2) (by decide) rfl hi (by decide : 2 < levelMax) (Nat.add_lt_add_left hk 3) htable
      (if_pos hk)
    have hm₁ : Filled tables (DoneL3 i 0) m₁ := hm₁.congr fun t i' _ _ => by
      have hindex : ((tableL2 tables).row i).index = i := rfl
      rw [hindex]
      unfold DoneL3 DoneL2
      omega
    obtain ⟨m₂, hloop, hm₂⟩ := Exec.forRange_spec (f := fillL3 u) (n := rowCount)
      (I := fun j m => Filled tables (DoneL3 i j) m) hm₁
      fun j hj m hm => fillL3_spec hp hk hj htable hlevel hstart hm
    refine ⟨m₂, ?_, hm₂.congr fun t i' ht hi' => ?_⟩
    · rw [fillL2, if_pos hk, hget]
      dsimp only
      rw [← Exec.bind_assoc, Exec.bind_ok hw, hloop]
    · unfold DoneL3 DoneL2
      omega
  · obtain ⟨m', hw, hm'⟩ := write_block (r := (tableL2 tables).row i) (a := 2 ^ 21 * i) hp h
      (t := 2) (by decide) rfl hi (by decide : levelRoot < 2) (Nat.dvd_mul_right _ _) (by omega)
      (if_neg hk)
    refine ⟨m', ?_, hm'.congr fun t i' ht _ => ?_⟩
    · rw [fillL2, if_neg hk]
      rw [← rowL2_start tables hi] at hw
      exact hw
    · have hindex : ((tableL2 tables).row i).index = i := rfl
      have ht6 : t < 6 := ht
      have hk3 : ¬ i < 3 := hk
      rw [hindex]
      unfold DoneL2
      omega

/-- **Construction**: the static array is clear at first; every row of it ends as it should. -/
theorem createTables_spec (hp : Placed tables)
    (hclear : ∀ x, tables ≤ x → x < tables + pageSize * tableCount → m x = 0) :
    ∃ m', createTables tables m = (.ok tables, m') ∧
      ∀ t i, t < tableCount → i < rowCount →
        m'.readWord (cell tables t i) = target tables t i := by
  have hps : pageSize = 4096 := rfl
  have hrc : rowCount = 512 := rfl
  have htc : tableCount = 6 := rfl
  have h₀ : Filled tables (fun _ _ => False) m := fun t i ht hi => by
    refine ⟨False.elim, fun _ => ?_⟩
    have hzero : m.readWord (cell tables t i) = readWord (fun _ => 0) (cell tables t i) := by
      refine readWord_congr fun k hk => hclear _ ?_ ?_
      · unfold cell tableAddress
        omega
      · unfold cell tableAddress
        rw [hps, htc]
        omega
    rw [hzero]
    simp [readWord]
  have hroot : target tables 0 0 = descriptor 0 (tableAddress tables 1) := rfl
  obtain ⟨m₁, hw, hm₁⟩ := write_table (r := (tableL0 tables).row 0) (u := tableL1 tables)
    (j := 1) hp h₀ (t := 0) (by decide) rfl (by decide : 0 < rowCount) (by decide : 0 < levelMax)
    (by decide) rfl hroot
  have hm₁ : Filled tables (DoneL1 0) m₁ := hm₁.congr fun t i _ _ => by
    have hindex : ((tableL0 tables).row 0).index = 0 := rfl
    rw [hindex, or_false]
    unfold DoneL1
    omega
  obtain ⟨m₂, hl1, hm₂⟩ := Exec.forRange_spec (f := fillL1 tables) (n := rowCount)
    (I := fun i m => Filled tables (DoneL1 i) m) hm₁ fun i hi m hm => fillL1_spec hp hi hm
  have hm₂ : Filled tables (DoneL2 0) m₂ := hm₂.congr fun t i ht hi => by
    unfold DoneL1 DoneL2
    omega
  obtain ⟨m₃, hl2, hm₃⟩ := Exec.forRange_spec (f := fillL2 tables) (n := rowCount)
    (I := fun i m => Filled tables (DoneL2 i) m) hm₂ fun i hi m hm => fillL2_spec hp hi hm
  refine ⟨m₃, ?_, fun t i ht hi => ?_⟩
  · rw [createTables, ← Exec.bind_assoc, Exec.bind_ok hw, Exec.bind_ok hl1, Exec.bind_ok hl2]
    rfl
  · obtain ⟨hin, hout⟩ := hm₃ t i ht hi
    by_cases hd : DoneL2 rowCount t i
    · exact hin hd
    · have hrest : t = 0 ∧ i ≠ 0 := by
        unfold DoneL2 at hd
        omega
      rw [hout hd, hrest.1]
      exact (if_neg hrest.2).symm

/-! ### The other memory -/

lemma keeps_forRange {J : ByteMemory → Prop} {f : ℕ → Exec ByteMemory Unit}
    (h : ∀ i, Exec.Keeps J (f i)) (n : ℕ) : Exec.Keeps J (Exec.forRange n f) := by
  induction n with
  | zero => exact Exec.keeps_pure _
  | succ n ih => exact ih.bind fun _ => h n

section Outside

variable {b : ℕ} {v : Byte} (hp : Placed tables)
  (hb : b < tables ∨ tables + pageSize * tableCount ≤ b)
include hp hb

lemma keeps_setValue (ht : t < tableCount) {r : TableRowManager}
    (htable : r.tableManager.table = tableAddress tables t) (w : Word) :
    Exec.Keeps (fun m => m b = v) (r.setValue w) := by
  intro m hm
  have hps : pageSize = 4096 := rfl
  have hrc : rowCount = 512 := rfl
  have htc : tableCount = 6 := rfl
  have hle := hp.table_le ht
  unfold TableRowManager.setValue
  split
  · have hphys : physicalAddress r.pointer = tableAddress tables t + 8 * r.index := by
      rw [physicalAddress_eq_mod, TableRowManager.pointer, htable]
      exact Nat.mod_eq_of_lt (by omega)
    refine (writeWord_of_outside ?_).trans hm
    rw [hps, htc] at hb
    rw [hphys, tableAddress, hps]
    omega
  · exact hm

lemma keeps_writeTable (ht : t < tableCount) {r : TableRowManager}
    (htable : r.tableManager.table = tableAddress tables t) (d : TableDescriptorBuilder) :
    Exec.Keeps (fun m => m b = v) (r.writeTable d) := by
  unfold TableRowManager.writeTable
  split
  · exact Exec.keeps_err
  · exact keeps_setValue hp hb ht htable _

lemma keeps_writeBlock (ht : t < tableCount) {r : TableRowManager}
    (htable : r.tableManager.table = tableAddress tables t) (d : BlockDescriptorBuilder) :
    Exec.Keeps (fun m => m b = v) (r.writeBlock d) := by
  unfold TableRowManager.writeBlock
  split
  · exact Exec.keeps_err
  · exact keeps_setValue hp hb ht htable _

lemma keeps_fillL1 (i : ℕ) : Exec.Keeps (fun m => m b = v) (fillL1 tables i) := by
  unfold fillL1
  dsimp only
  split
  · exact (Exec.keeps_okOr _).bind fun d => keeps_writeTable hp hb (t := 1) (by decide) rfl d
  · exact (Exec.keeps_okOr _).bind fun d => keeps_writeBlock hp hb (t := 1) (by decide) rfl _

lemma keeps_fillL3 {u : TableManager} (ht : t < tableCount) (hu : u.table = tableAddress tables t)
    (j : ℕ) : Exec.Keeps (fun m => m b = v) (fillL3 u j) := by
  refine (Exec.keeps_okOr _).bind fun d => ?_
  unfold TableRowManager.writePage
  split
  · exact Exec.keeps_err
  · exact keeps_setValue hp hb ht hu _

lemma keeps_fillL2 (i : ℕ) : Exec.Keeps (fun m => m b = v) (fillL2 tables i) := by
  unfold fillL2
  dsimp only
  split
  · rename_i hi
    obtain ⟨u, hget, htable, -, -⟩ := tableL3_get tables hi
    rw [hget]
    refine (Exec.keeps_okOr _).bind fun d => ?_
    refine (keeps_writeTable hp hb (t := 2) (by decide) (r := (tableL2 tables).row i) rfl d).bind
      fun _ => ?_
    exact keeps_forRange (keeps_fillL3 hp hb (Nat.add_lt_add_left hi 3) htable) _
  · exact (Exec.keeps_okOr _).bind fun d => keeps_writeBlock hp hb (t := 2) (by decide) rfl _

/-- Only the tables are written to. -/
lemma keeps_createTables : Exec.Keeps (fun m => m b = v) (createTables tables) := by
  unfold createTables
  refine (Exec.keeps_okOr _).bind fun d => ?_
  refine (keeps_writeTable hp hb (t := 0) (by decide) rfl d).bind fun _ => ?_
  refine (keeps_forRange (keeps_fillL1 hp hb) _).bind fun _ => ?_
  exact (keeps_forRange (keeps_fillL2 hp hb) _).bind fun _ => Exec.keeps_pure _

end Outside

end Pimento.KernelTables
