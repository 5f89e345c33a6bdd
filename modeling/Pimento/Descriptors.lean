import Pimento.Armv8
import Pimento.PageTable

/-!
The descriptors the kernel writes, read back by the kernel and by the hardware.

A frame is a multiple of the page size below `2 ^ 48`, so its address and the flag bits of a
descriptor occupy different bits of the word.
-/

namespace Pimento.Descriptors

open Address PageTable Armv8

/-- A physical page. -/
def IsFrame (g : ℕ) : Prop := pageSize ∣ g ∧ g < 2 ^ 48

/-- The address of a frame as part of a descriptor. -/
def addressBits (g : ℕ) : Word := BitVec.ofNat 64 g

/-- The flags of a user page: type, access flag, not global, normal memory, EL0 access. -/
def userPageFlags : Word := 0xC47

/-- The word behind an installed child: a table below the last level, a user page there. -/
def descriptor (level g : ℕ) : Word :=
  if level < levelMax then typeTable ||| addressBits g else userPageFlags ||| addressBits g

lemma descriptor_table {level g : ℕ} (h : level < levelMax) :
    descriptor level g = typeTable ||| addressBits g := if_pos h

lemma descriptor_page {g : ℕ} : descriptor levelMax g = userPageFlags ||| addressBits g := rfl

lemma mask_getLsbD (i : ℕ) : tableAddressMask.getLsbD i = decide (12 ≤ i ∧ i < 48) := by
  by_cases hi : i < 64
  · have h : ∀ j : Fin 64, tableAddressMask.getLsbD j = decide (12 ≤ j.val ∧ j.val < 48) := by
      decide
    exact h ⟨i, hi⟩
  · rw [BitVec.getLsbD_of_ge _ _ (by omega)]
    exact (decide_eq_false (by omega)).symm

variable {g : ℕ}

lemma addressBits_getLsbD (hg : IsFrame g) {i : ℕ} (hi : ¬ (12 ≤ i ∧ i < 48)) :
    (addressBits g).getLsbD i = false := by
  obtain ⟨⟨k, rfl⟩, hlt⟩ := hg
  unfold addressBits
  rw [BitVec.getLsbD_ofNat]
  rcases Nat.lt_or_ge i 12 with h12 | h12
  · rw [show pageSize * k = 2 ^ 12 * k from rfl, Nat.testBit_two_pow_mul]
    simp [show ¬ 12 ≤ i by omega]
  · rw [Nat.testBit_lt_two_pow (lt_of_lt_of_le hlt (Nat.pow_le_pow_right (by omega) (by omega)))]
    simp

lemma addressBits_toNat (hg : IsFrame g) : (addressBits g).toNat = g := by
  unfold addressBits
  rw [BitVec.toNat_ofNat]
  exact Nat.mod_eq_of_lt (lt_trans hg.2 (by norm_num))

/-- A frame passes the address check of the builders. -/
lemma addressBits_and_not_mask (hg : IsFrame g) : addressBits g &&& ~~~tableAddressMask = 0 := by
  refine BitVec.eq_of_getLsbD_eq fun i hi => ?_
  rw [BitVec.getLsbD_and, BitVec.getLsbD_not, mask_getLsbD]
  by_cases h : 12 ≤ i ∧ i < 48
  · simp [h]
  · simp [addressBits_getLsbD hg h]

/-- The address can be masked out of a word whose flags lie outside the mask. -/
lemma flags_or_and_mask (hg : IsFrame g) {flags : Word} (hf : flags &&& tableAddressMask = 0) :
    (flags ||| addressBits g) &&& tableAddressMask = addressBits g := by
  rw [BitVec.and_comm, BitVec.and_or_distrib_left, BitVec.and_comm, hf]
  refine BitVec.eq_of_getLsbD_eq fun i hi => ?_
  rw [BitVec.getLsbD_or, BitVec.getLsbD_and, mask_getLsbD]
  by_cases h : 12 ≤ i ∧ i < 48
  · simp [h]
  · simp [addressBits_getLsbD hg h]

lemma flags_or_getLsbD (hg : IsFrame g) (flags : Word) {i : ℕ} (hi : ¬ (12 ≤ i ∧ i < 48)) :
    (flags ||| addressBits g).getLsbD i = flags.getLsbD i := by
  rw [BitVec.getLsbD_or, addressBits_getLsbD hg hi, Bool.or_false]

lemma flags_or_extractLsb' (hg : IsFrame g) (flags : Word) {lo len : ℕ}
    (h : lo + len ≤ 12 ∨ 48 ≤ lo) :
    (flags ||| addressBits g).extractLsb' lo len = flags.extractLsb' lo len := by
  refine BitVec.eq_of_getLsbD_eq fun i hi => ?_
  rw [BitVec.getLsbD_extractLsb', BitVec.getLsbD_extractLsb', flags_or_getLsbD hg _ (by omega)]

lemma flags_or_and_typeMask (hg : IsFrame g) (flags : Word) :
    (flags ||| addressBits g) &&& typeMask = flags &&& typeMask := by
  refine BitVec.eq_of_getLsbD_eq fun i hi => ?_
  rw [BitVec.getLsbD_and, BitVec.getLsbD_and]
  by_cases h2 : i < 2
  · rw [flags_or_getLsbD hg _ (by omega)]
  · have h : ∀ j : Fin 64, 2 ≤ j.val → typeMask.getLsbD j = false := by decide
    rw [h ⟨i, hi⟩ (Nat.not_lt.mp h2), Bool.and_false, Bool.and_false]

/-- What the hardware reads in the address field is the frame. -/
lemma outputAddress_flags_or (hg : IsFrame g) {flags : Word}
    (hf : flags &&& tableAddressMask = 0) : outputAddress (flags ||| addressBits g) 12 = g := by
  rw [← and_mask_toNat tableAddressMask (by decide), flags_or_and_mask hg hf,
    addressBits_toNat hg]

/-! ### What the builders produce -/

lemma tableDescriptorBuilder_new (hg : IsFrame g) :
    TableDescriptorBuilder.new g = some ⟨descriptor 0 g⟩ := by
  have h : BitVec.ofNat 64 g &&& ~~~tableAddressMask = 0 := addressBits_and_not_mask hg
  rw [TableDescriptorBuilder.new, if_neg (by rw [h]; simp)]
  rfl

lemma tableDescriptorBuilder_address (hg : IsFrame g) {l : ℕ} (hl : l < levelMax) :
    TableDescriptorBuilder.address ⟨descriptor l g⟩ = g := by
  unfold TableDescriptorBuilder.address
  rw [descriptor_table hl, flags_or_and_mask hg (by decide), addressBits_toNat hg]

/-- Flags can be cleared beside the address. -/
lemma flags_or_and_not (hg : IsFrame g) (flags : Word) {mask : Word}
    (hm : mask &&& tableAddressMask = 0) :
    (flags ||| addressBits g) &&& ~~~mask = (flags &&& ~~~mask) ||| addressBits g := by
  have h : addressBits g &&& ~~~mask = addressBits g := by
    refine BitVec.eq_of_getLsbD_eq fun i hi => ?_
    rw [BitVec.getLsbD_and, BitVec.getLsbD_not]
    by_cases hf : 12 ≤ i ∧ i < 48
    · have hbit : mask.getLsbD i = false := by
        have hand := congrArg (·.getLsbD i) hm
        simpa [mask_getLsbD, hf] using hand
      rw [hbit, Bool.not_false, Bool.and_true, decide_eq_true hi, Bool.and_true]
    · rw [addressBits_getLsbD hg hf, Bool.false_and]
  rw [BitVec.and_comm, BitVec.and_or_distrib_left, BitVec.and_comm, BitVec.and_comm (~~~_), h]

/-- The attribute field is set in a word whose attribute bits come from the flags. -/
lemma flags_or_setAttribute (hg : IsFrame g) (flags : Word) (a : Attribute) :
    ((flags ||| addressBits g) &&& ~~~attributeMask) ||| (a.value <<< attributeShift)
      = ((flags &&& ~~~attributeMask) ||| (a.value <<< attributeShift)) ||| addressBits g := by
  rw [flags_or_and_not hg flags (by decide), BitVec.or_assoc, BitVec.or_comm (addressBits g),
    ← BitVec.or_assoc]

lemma pageDescriptorBuilder_new (hg : IsFrame g) :
    (PageDescriptorBuilder.new g).map
        (fun b => ((b.setAttribute .normal).setUnprivileged true).build)
      = some (descriptor levelMax g) := by
  have h : BitVec.ofNat 64 g &&& ~~~pageAddressMask = 0 := addressBits_and_not_mask hg
  rw [PageDescriptorBuilder.new, if_neg (by rw [h]; simp)]
  simp only [Option.map_some, PageDescriptorBuilder.setAttribute,
    PageDescriptorBuilder.setUnprivileged, PageDescriptorBuilder.build, Option.some.injEq]
  rw [show BitVec.ofNat 64 g = addressBits g from rfl, flags_or_setAttribute hg,
    BitVec.or_assoc, BitVec.or_comm (addressBits g), ← BitVec.or_assoc]
  rfl

lemma pageDescriptorBuilder_address (hg : IsFrame g) :
    PageDescriptorBuilder.address ⟨descriptor levelMax g⟩ = g := by
  unfold PageDescriptorBuilder.address
  rw [descriptor_page, show pageAddressMask = tableAddressMask from rfl,
    flags_or_and_mask hg (by decide), addressBits_toNat hg]

lemma descriptor_and_typeMask (hg : IsFrame g) (l : ℕ) : descriptor l g &&& typeMask = 0b11 := by
  unfold descriptor
  split <;> rw [flags_or_and_typeMask hg] <;> decide

/-! ### What the hardware makes of them -/

lemma decode_zero (l : ℕ) : decode l 0 = .invalid := by simp [decode]

lemma decode_table (hg : IsFrame g) {l : ℕ} (hl : l < levelMax) :
    decode l (descriptor l g) = .table g 0 := by
  unfold decode
  rw [descriptor_table hl, flags_or_getLsbD hg _ (by omega), flags_or_getLsbD hg _ (by omega),
    if_neg (by decide), if_pos (by decide), if_pos (show l < 3 from hl),
    outputAddress_flags_or hg (by decide),
    flags_or_extractLsb' hg _ (by omega)]
  rfl

lemma decode_page (hg : IsFrame g) :
    decode levelMax (descriptor levelMax g) = .leaf g 1 1 true := by
  unfold decode leafOf
  rw [descriptor_page, flags_or_getLsbD hg _ (by omega), flags_or_getLsbD hg _ (by omega),
    flags_or_getLsbD hg _ (by omega), if_neg (by decide), if_pos (by decide), if_neg (by decide),
    show offsetBits levelMax = 12 from rfl, outputAddress_flags_or hg (by decide),
    flags_or_extractLsb' hg _ (by omega), flags_or_extractLsb' hg _ (by omega)]
  rfl

end Pimento.Descriptors
