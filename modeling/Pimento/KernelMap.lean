import Mathlib.Data.Set.Function
import Pimento.KernelTables

/-!
The map of the kernel: what the hardware makes of the tables the kernel builds for itself.

The pieces (blocks of a gigabyte and of two megabytes, and pages) are all mapped to themselves,
so the walk agrees with the mapper that turns physical addresses into kernel pointers.
-/

namespace Pimento.KernelMap

open Address PageTable Descriptors Armv8 KernelTables

/-- The translation of a kernel address: its upper 16 bits are set. -/
def translateKernel (m : ByteMemory) (root va : ℕ) : Option Translation :=
  if vaStart ≤ va ∧ va < 2 ^ 64 then walkFrom m va 3 root 0 else none

/-- The number of bytes that are mapped. -/
def mappedLen : ℕ := 2 ^ 39

/-- The number of bytes below the device blocks. -/
def normalLen : ℕ := 3 * (2 * 1024 * 1024)

/-- Where the kernel finds the byte at a physical address, and how. -/
def kernelTranslation (a : ℕ) : Option Translation :=
  if a < mappedLen then
    some
      { outputAddress := physicalAddress (virtualAddress a)
        attrIndex := if a < normalLen then 1 else 0
        el0 := false
        readOnly := false
        accessFlag := true }
  else none

/-- The kernel addresses that do not fault. -/
def mapped (m : ByteMemory) (root : ℕ) : Set ℕ := {va | (translateKernel m root va).isSome}

variable {m : ByteMemory} {tables a g l : ℕ}

/-! ### Descriptors -/

/-- The address field of a wider leaf is the upper part of that of a page. -/
lemma outputAddress_eq_div (d : Word) (hl : l = 1 ∨ l = 2 ∨ l = 3) :
    outputAddress d (offsetBits l) =
      outputAddress d 12 / 2 ^ offsetBits l * 2 ^ offsetBits l := by
  unfold outputAddress
  rw [BitVec.extractLsb'_toNat, BitVec.extractLsb'_toNat, Nat.shiftRight_eq_div_pow,
    Nat.shiftRight_eq_div_pow]
  generalize d.toNat = n
  rcases hl with rfl | rfl | rfl <;> norm_num [offsetBits] <;> omega

/-- A leaf with these flags, whose start is aligned to its length. -/
lemma leafOf_flags_or (hg : IsFrame g) {flags : Word} (hf : flags &&& tableAddressMask = 0)
    (hl : l = 1 ∨ l = 2 ∨ l = 3) (hdvd : 2 ^ offsetBits l ∣ g) :
    leafOf l (flags ||| addressBits g) =
      .leaf g (flags.extractLsb' 2 3) (flags.extractLsb' 6 2) (flags.getLsbD 10) := by
  rw [leafOf, outputAddress_eq_div _ hl, outputAddress_flags_or hg hf, Nat.div_mul_cancel hdvd,
    flags_or_extractLsb' hg _ (by omega), flags_or_extractLsb' hg _ (by omega),
    flags_or_getLsbD hg _ (by omega)]

lemma decode_deviceBlock (hg : IsFrame g) (hl : l = 1 ∨ l = 2) (hdvd : 2 ^ offsetBits l ∣ g) :
    decode l (deviceBlock g) = .leaf g 0 0 true := by
  unfold decode deviceBlock
  rw [flags_or_getLsbD hg _ (by omega), flags_or_getLsbD hg _ (by omega), if_neg (by decide),
    if_neg (by decide), if_pos hl, leafOf_flags_or hg (by decide) (by omega) hdvd]
  rfl

lemma decode_kernelPage (hg : IsFrame g) : decode 3 (kernelPage g) = .leaf g 1 0 true := by
  unfold decode kernelPage
  rw [flags_or_getLsbD hg _ (by omega), flags_or_getLsbD hg _ (by omega), if_neg (by decide),
    if_pos (by decide), if_neg (by decide),
    leafOf_flags_or (l := 3) hg (by decide) (by omega) hg.1]
  rfl

lemma decode_kernelTable (hg : IsFrame g) (hl : l < levelMax) :
    decode l (descriptor 0 g) = .table g 0 := by
  have hsame : descriptor 0 g = descriptor l g :=
    (descriptor_table (by decide)).trans (descriptor_table hl).symm
  rw [hsame, decode_table hg hl]

/-! ### The walk -/

/-- The parts of a kernel address are those of the physical address. -/
lemma index_kernel (hl : l ≤ 3) (ha : a < 2 ^ 48) :
    Armv8.index (virtualAddress a) l = a / 2 ^ (39 - 9 * l) % 512 := by
  rw [Armv8.index, virtualAddress_of_lt ha, vaStart_eq, Nat.shiftRight_eq_div_pow]
  interval_cases l <;> norm_num <;> omega

lemma offset_kernel (hl : l = 1 ∨ l = 2 ∨ l = 3) (ha : a < 2 ^ 48) :
    virtualAddress a % 2 ^ offsetBits l = a % 2 ^ offsetBits l := by
  rw [virtualAddress_of_lt ha, vaStart_eq]
  rcases hl with rfl | rfl | rfl <;> norm_num [offsetBits] <;> omega

/-- One level of the walk. -/
lemma walkFrom_succ (va k table : ℕ) : walkFrom m va (k + 1) table 0 =
    match decode (3 - (k + 1)) (m.readWord (table + 8 * Armv8.index va (3 - (k + 1)))) with
    | .table next ap => walkFrom m va k next (0 ||| ap)
    | d => walkFrom.leaf va (3 - (k + 1)) d 0 := rfl

/-- A leaf that maps its bytes to themselves. -/
lemma leaf_kernel {attr : BitVec 3} (ha : a < 2 ^ 48) (hl : l = 1 ∨ l = 2 ∨ l = 3)
    (hg : g = 2 ^ offsetBits l * (a / 2 ^ offsetBits l)) :
    walkFrom.leaf (virtualAddress a) l (.leaf g attr 0 true) 0 =
      some ⟨a, attr, false, false, true⟩ := by
  have hsum : g + virtualAddress a % 2 ^ offsetBits l = a := by
    rw [offset_kernel hl ha, hg]
    exact Nat.div_add_mod a _
  exact congrArg (fun x => some (Translation.mk x attr false false true)) hsum

/-- Every row is as it should be. -/
def Built (tables : ℕ) (m : ByteMemory) : Prop := ∀ t i, t < tableCount → i < rowCount →
  m.readWord (cell tables t i) = target tables t i

/-- The descriptor the walk reads in a table. -/
lemma Built.row {t i : ℕ} (hb : Built tables m) (ha : a < 2 ^ 48) (ht : t < tableCount) (hl : l ≤ 3)
    (hi : a / 2 ^ (39 - 9 * l) % 512 = i) :
    m.readWord (tableAddress tables t + 8 * Armv8.index (virtualAddress a) l) =
      target tables t i := by
  rw [index_kernel hl ha, hi]
  exact hb t i ht (hi ▸ Nat.mod_lt _ (by decide))

/-- The tables of level 3 hold the pages of the first megabytes. -/
lemma walk_L3 (hb : Built tables m) (ha : a < normalLen) :
    walkFrom m (virtualAddress a) 0 (tableAddress tables (3 + a / 2 ^ 21)) 0 =
      some ⟨a, 1, false, false, true⟩ := by
  have hnl : normalLen = 6291456 := rfl
  have ht : a / 2 ^ 21 < 3 := by omega
  have hrow := hb.row (a := a) (by omega) (Nat.add_lt_add_left ht 3) (l := 3) (by decide) rfl
  rw [Nat.add_comm 3] at hrow
  have htarget : target tables (a / 2 ^ 21 + 3) (a / 2 ^ (39 - 9 * 3) % 512) =
      kernelPage (2 ^ 21 * (a / 2 ^ 21) + 2 ^ 12 * (a / 2 ^ 12 % 512)) := rfl
  have hpage : 2 ^ 21 * (a / 2 ^ 21) + 2 ^ 12 * (a / 2 ^ 12 % 512) =
      2 ^ 12 * (a / 2 ^ 12) := by omega
  rw [htarget, hpage] at hrow
  have hframe : IsFrame (2 ^ 12 * (a / 2 ^ 12)) := ⟨Nat.dvd_mul_right _ _, by omega⟩
  rw [walkFrom, Nat.add_comm 3, hrow, decode_kernelPage hframe]
  exact leaf_kernel (by omega) (by omega) rfl

section Levels

variable (hp : Placed tables) (hb : Built tables m)
include hp hb

lemma walk_L2 (ha : a < 2 ^ 30) :
    walkFrom m (virtualAddress a) 1 (tableAddress tables 2) 0 =
      some ⟨a, if a < normalLen then 1 else 0, false, false, true⟩ := by
  have hnl : normalLen = 6291456 := rfl
  have hrow := hb.row (a := a) (by omega) (t := 2) (by decide) (l := 2) (by decide)
    (by omega : a / 2 ^ 21 % 512 = a / 2 ^ 21)
  rw [walkFrom_succ, hrow]
  by_cases h3 : a / 2 ^ 21 < l3TableCount
  · have ht : a / 2 ^ 21 < 3 := h3
    rw [target, if_pos h3, decode_kernelTable (hp.frame (Nat.add_lt_add_left h3 3)) (by decide),
      if_pos (by omega)]
    exact walk_L3 hb (by omega)
  · have ht : ¬ a / 2 ^ 21 < 3 := h3
    have hframe : IsFrame (2 ^ 21 * (a / 2 ^ 21)) :=
      isFrame_of_block (Nat.dvd_mul_right _ _) (by omega)
    rw [target, if_neg h3, decode_deviceBlock hframe (by omega) (Nat.dvd_mul_right _ _),
      if_neg (by omega)]
    exact leaf_kernel (by omega) (by omega) rfl

lemma walk_L1 (ha : a < 2 ^ 39) :
    walkFrom m (virtualAddress a) 2 (tableAddress tables 1) 0 =
      some ⟨a, if a < normalLen then 1 else 0, false, false, true⟩ := by
  have hnl : normalLen = 6291456 := rfl
  have hrow := hb.row (a := a) (by omega) (t := 1) (by decide) (l := 1) (by decide)
    (by omega : a / 2 ^ 30 % 512 = a / 2 ^ 30)
  rw [walkFrom_succ, hrow]
  by_cases hz : a / 2 ^ 30 = 0
  · rw [target, if_pos hz, decode_kernelTable (hp.frame (by decide)) (by decide)]
    exact walk_L2 hp hb (by omega)
  · have hdvd : 2 ^ 21 ∣ 2 ^ 30 * (a / 2 ^ 30) :=
      (by decide : 2 ^ 21 ∣ 2 ^ 30).trans (Nat.dvd_mul_right _ _)
    rw [target, if_neg hz, decode_deviceBlock (isFrame_of_block hdvd (by omega)) (by omega)
      (Nat.dvd_mul_right _ _), if_neg (by omega)]
    exact leaf_kernel (by omega) (by omega) rfl

/-- **The walk**: the first half of a terabyte is mapped to itself, and nothing else. -/
theorem walk_L0 (ha : a < 2 ^ 48) : walkFrom m (virtualAddress a) 3 tables 0 =
    if a < mappedLen then some ⟨a, if a < normalLen then 1 else 0, false, false, true⟩
    else none := by
  have hml : mappedLen = 2 ^ 39 := rfl
  have hrow := hb.row ha (t := 0) (by decide) (l := 0) (by decide)
    (by omega : a / 2 ^ 39 % 512 = a / 2 ^ 39)
  have htables : tableAddress tables 0 = tables := rfl
  rw [htables] at hrow
  rw [walkFrom_succ, hrow]
  by_cases hz : a / 2 ^ 39 = 0
  · rw [target, if_pos hz, decode_kernelTable (hp.frame (by decide)) (by decide),
      if_pos (by omega)]
    exact walk_L1 hp hb (by omega)
  · rw [target, if_neg hz, decode_zero, if_neg (by omega)]
    rfl

end Levels

/-! ### The map and the mapper -/

lemma virtualAddress_lt (ha : a < 2 ^ 48) :
    vaStart ≤ virtualAddress a ∧ virtualAddress a < 2 ^ 64 := by
  rw [virtualAddress_of_lt ha]
  have hva : vaStart = 2 ^ 64 - 2 ^ 48 := by norm_num [vaStart, vaBits]
  omega

lemma physicalAddress_kernel (ha : a < 2 ^ 48) : physicalAddress (virtualAddress a) = a :=
  physicalAddress_virtualAddress (k := 0) ha

/-- A kernel address is the pointer to the physical address it is made of. -/
lemma virtualAddress_physicalAddress {p : ℕ} (hle : vaStart ≤ p) (hlt : p < 2 ^ 64) :
    virtualAddress (physicalAddress p) = p := by
  have hva : vaStart = 2 ^ 64 - 2 ^ 48 := by norm_num [vaStart, vaBits]
  rw [physicalAddress_eq_mod, virtualAddress_of_lt (Nat.mod_lt _ (by decide))]
  omega

lemma mem_mapped {p root : ℕ} (hw : ∀ a < 2 ^ 48,
      translateKernel m root (virtualAddress a) = kernelTranslation a) :
    p ∈ mapped m root ↔ ∃ a < mappedLen, virtualAddress a = p := by
  have hml : mappedLen = 2 ^ 39 := rfl
  constructor
  · intro hp
    have hrange : vaStart ≤ p ∧ p < 2 ^ 64 := by
      by_contra hn
      rw [mapped, Set.mem_ofPred_eq, translateKernel, if_neg hn] at hp
      cases hp
    have hback := virtualAddress_physicalAddress hrange.1 hrange.2
    have hlt : physicalAddress p < 2 ^ 48 := by
      rw [physicalAddress_eq_mod]
      exact Nat.mod_lt _ (by decide)
    rw [mapped, Set.mem_ofPred_eq, ← hback, hw _ hlt, kernelTranslation] at hp
    refine ⟨physicalAddress p, ?_, hback⟩
    by_contra hge
    rw [if_neg hge] at hp
    cases hp
  · rintro ⟨a, ha, rfl⟩
    rw [mapped, Set.mem_ofPred_eq, hw a (by omega), kernelTranslation, if_pos ha]
    rfl

/-- **The map of the kernel agrees with its mapper**: the tables are built without an error, every
kernel address is translated as the mapper says or faults, and the two conversions are inverse to
each other between the physical addresses that are mapped and the kernel addresses of them. -/
theorem kernel_map (hp : Placed tables)
    (hclear : ∀ x, tables ≤ x → x < tables + pageSize * tableCount → m x = 0) :
    ∃ m', createTables tables m = (.ok tables, m') ∧
      (∀ a < 2 ^ 48, translateKernel m' tables (virtualAddress a) = kernelTranslation a ∧
        physicalAddress (virtualAddress a) = a) ∧
      Set.InvOn physicalAddress virtualAddress (Set.Iio mappedLen) (mapped m' tables) ∧
      Set.MapsTo virtualAddress (Set.Iio mappedLen) (mapped m' tables) ∧
      Set.MapsTo physicalAddress (mapped m' tables) (Set.Iio mappedLen) := by
  have hml : mappedLen = 2 ^ 39 := rfl
  obtain ⟨m', hok, hb⟩ := createTables_spec hp hclear
  have hw : ∀ a < 2 ^ 48, translateKernel m' tables (virtualAddress a) = kernelTranslation a := by
    intro a ha
    rw [translateKernel, if_pos (virtualAddress_lt ha), walk_L0 hp hb ha, kernelTranslation,
      physicalAddress_kernel ha]
  have hmem := fun p => mem_mapped (p := p) hw
  refine ⟨m', hok, fun a ha => ⟨hw a ha, physicalAddress_kernel ha⟩, ⟨?_, ?_⟩, ?_, ?_⟩
  · intro a ha
    exact physicalAddress_kernel ((Set.mem_Iio.mp ha).trans (by decide))
  · intro p hp
    obtain ⟨a, ha, rfl⟩ := (hmem p).mp hp
    rw [physicalAddress_kernel (by omega)]
  · intro a ha
    exact (hmem _).mpr ⟨a, ha, rfl⟩
  · intro p hp
    obtain ⟨a, ha, rfl⟩ := (hmem p).mp hp
    rw [physicalAddress_kernel (by omega)]
    exact ha

/-- The tables of the kernel behind its first megabyte. -/
theorem kernel_map_megabyte : ∃ m',
    createTables 0x100000 (fun _ => 0) = (.ok 0x100000, m') ∧
      translateKernel m' 0x100000 (virtualAddress 0x3F201000) =
        some ⟨0x3F201000, 0, false, false, true⟩ := by
  have hp : Placed 0x100000 := ⟨by decide, by decide⟩
  obtain ⟨m', hok, hw, -⟩ := kernel_map hp fun _ _ _ => rfl
  exact ⟨m', hok, (hw 0x3F201000 (by decide)).1.trans (by decide)⟩

end Pimento.KernelMap
