import Pimento.Descriptors

/-!
What a written row means to the hardware, and to the kernel when it loads it again.

In whatever order the setters are called, a pending leaf is the address beside one word of
flags, which depends on the last call of each setter only.
-/

namespace Pimento.RowMeaning

open Address PageTable Armv8 Descriptors

/-! ### What is asked for -/

/-- A call of a setter of the page builder. -/
inductive Setter
  | setAttribute (a : Attribute)
  | setUnprivileged (u : Bool)
  deriving DecidableEq, Repr

def Setter.apply (b : PageDescriptorBuilder) : Setter → PageDescriptorBuilder
  | .setAttribute a => b.setAttribute a
  | .setUnprivileged u => b.setUnprivileged u

/-- The fields that the setters change. A new builder has index 0, that of `Device`, and keeps
EL0 out. -/
structure Fields where
  attr : Attribute := .device
  unprivileged : Bool := false
  deriving DecidableEq, Repr

def Fields.set (f : Fields) : Setter → Fields
  | .setAttribute a => { f with attr := a }
  | .setUnprivileged u => { f with unprivileged := u }

def blockBuilder (address : ℕ) (attributes : List Attribute) : Option BlockDescriptorBuilder :=
  (BlockDescriptorBuilder.new address).map (attributes.foldl .setAttribute)

def pageBuilder (address : ℕ) (setters : List Setter) : Option PageDescriptorBuilder :=
  (PageDescriptorBuilder.new address).map (setters.foldl Setter.apply)

/-- A descriptor to write: its address and the setters called on its builder, in order. -/
inductive Request
  | table (address : ℕ)
  | block (address : ℕ) (attributes : List Attribute)
  | page (address : ℕ) (setters : List Setter)
  deriving DecidableEq, Repr

namespace Request

def kind : Request → DescriptorType
  | .table _ => .table
  | .block .. => .block
  | .page .. => .page

def address : Request → ℕ
  | .table a => a
  | .block a _ => a
  | .page a _ => a

/-- The values last set. -/
def fields : Request → Fields
  | .table _ => {}
  | .block _ attributes => (attributes.map Setter.setAttribute).foldl Fields.set {}
  | .page _ setters => setters.foldl Fields.set {}

/-- The write of a request, or `none` if its builder refuses the address. -/
def write (r : TableRowManager) : Request → Option (Exec ByteMemory Unit)
  | .table a => (TableDescriptorBuilder.new a).map r.writeTable
  | .block a attributes => (blockBuilder a attributes).map r.writeBlock
  | .page a setters => (pageBuilder a setters).map r.writePage

/-- The descriptor the hardware should see. -/
def descriptor : Request → Descriptor
  | .table a => .table a 0
  | q => .leaf q.address (q.fields.attr.value.setWidth 3)
      (if q.fields.unprivileged then 0b01 else 0b00) true

end Request

/-! ### What is read back -/

/-- What the hardware takes a descriptor for: a leaf of the last level is a page. -/
def kindAt (level : ℕ) : Descriptor → Option DescriptorType
  | .invalid => none
  | .table .. => some .table
  | .leaf .. => some (if level = levelMax then .page else .block)

/-- The load for the kind of the request returns the builder that was written, with the same
address, and the other two fail. -/
def Loads (r : TableRowManager) (m : ByteMemory) : Request → Prop
  | .table a =>
    (∃ b, r.loadTable m = (.ok b, m) ∧ TableDescriptorBuilder.new a = some b ∧ b.address = a) ∧
      r.loadBlock m = (.err, m) ∧ r.loadPage m = (.err, m)
  | .block a attributes =>
    (∃ b, r.loadBlock m = (.ok b, m) ∧ blockBuilder a attributes = some b ∧ b.address = a) ∧
      r.loadTable m = (.err, m) ∧ r.loadPage m = (.err, m)
  | .page a setters =>
    (∃ b, r.loadPage m = (.ok b, m) ∧ pageBuilder a setters = some b ∧ b.address = a) ∧
      r.loadTable m = (.err, m) ∧ r.loadBlock m = (.err, m)

/-- The row means what was asked for. -/
structure Means (r : TableRowManager) (q : Request) (m : ByteMemory) : Prop where
  decoded : ∃ row, r.value m = (.ok row, m) ∧ decode r.tableManager.level row = q.descriptor
  kind : kindAt r.tableManager.level q.descriptor = some q.kind
  classified : r.descriptorType m = (.ok (some q.kind), m)
  loads : Loads r m q

variable {r : TableRowManager} {m m' : ByteMemory} {w : Word} {a g : ℕ} {k : DescriptorType}

/-! ### Rows -/

lemma value_setValue (hrow : r.index < rowCount) :
    r.setValue w m = (.ok (), m.writeWord (physicalAddress r.pointer) w) := by
  unfold TableRowManager.setValue
  rw [if_pos hrow, Exec.modify_apply]

/-- A row that was set holds the word. -/
lemma value_of_setValue (hrow : r.index < rowCount) (h : r.setValue w m = (.ok (), m')) :
    r.value m' = (.ok w, m') := by
  rw [value_setValue hrow] at h
  obtain rfl := (Prod.mk.inj h).2
  unfold TableRowManager.value
  rw [if_pos hrow, Exec.gets_apply, ByteMemory.readWord_writeWord]

/-- The type of a row is decided by the level and the type bits. -/
lemma descriptorType_of_value (hw : r.value m = (.ok w, m)) :
    r.descriptorType m =
      (.ok (if w &&& typeMask = typeTable ∧ r.tableManager.level < levelMax then some .table
        else if w &&& typeMask = typeBlock ∧ r.tableManager.level > 0 then some .block
        else if w &&& typeMask = typePage ∧ r.tableManager.level = levelMax then some .page
        else none), m) := by
  unfold TableRowManager.descriptorType
  rw [Exec.bind_ok hw]
  split_ifs <;> rfl

section Loads

variable (hw : r.value m = (.ok w, m)) (hk : r.descriptorType m = (.ok (some k), m))

include hw hk

lemma loadTable_of_value : r.loadTable m = if k = .table then (.ok ⟨w⟩, m) else (.err, m) := by
  unfold TableRowManager.loadTable
  rw [Exec.bind_ok hk]
  cases k
  case table => exact Exec.bind_ok hw
  case block => rfl
  case page => rfl

lemma loadBlock_of_value : r.loadBlock m = if k = .block then (.ok ⟨w⟩, m) else (.err, m) := by
  unfold TableRowManager.loadBlock
  rw [Exec.bind_ok hk]
  cases k
  case table => rfl
  case block => exact Exec.bind_ok hw
  case page => rfl

lemma loadPage_of_value : r.loadPage m = if k = .page then (.ok ⟨w⟩, m) else (.err, m) := by
  unfold TableRowManager.loadPage
  rw [Exec.bind_ok hk]
  cases k
  case table => rfl
  case block => rfl
  case page => exact Exec.bind_ok hw

end Loads

/-! ### Addresses the builders accept -/

/-- An address outside of the mask of a builder is refused, so an accepted one fits its field. -/
lemma outputAddress_of_accepted {mask : Word} {lo : ℕ}
    (hmask : mask.toNat = (2 ^ (48 - lo) - 1) * 2 ^ lo) (ha : a < 2 ^ 64)
    (h : addressBits a &&& ~~~mask = 0) : outputAddress (addressBits a) lo = a := by
  have hand : addressBits a &&& mask = addressBits a := by
    refine BitVec.eq_of_getLsbD_eq fun i hi => ?_
    have hbit := congrArg (·.getLsbD i) h
    simp only [BitVec.getLsbD_and, BitVec.getLsbD_not, hi, decide_true, Bool.true_and] at hbit ⊢
    cases hm : mask.getLsbD i
    · rw [hm, Bool.not_false, Bool.and_true] at hbit
      rw [hbit, Bool.and_false]
      exact BitVec.getLsbD_zero.symm
    · rw [Bool.and_true]
  rw [← and_mask_toNat mask hmask, hand]
  exact (BitVec.toNat_ofNat ..).trans (Nat.mod_eq_of_lt ha)

lemma outputAddress_lt {lo : ℕ} (hlo : lo ≤ 48) : outputAddress w lo < 2 ^ 48 := by
  unfold outputAddress
  calc (w.extractLsb' lo (48 - lo)).toNat * 2 ^ lo
      < 2 ^ (48 - lo) * 2 ^ lo := by
        exact Nat.mul_lt_mul_of_pos_right (BitVec.isLt _) (Nat.two_pow_pos lo)
    _ = 2 ^ 48 := by rw [← Nat.pow_add, Nat.sub_add_cancel hlo]

/-- The builders accept frames only. -/
lemma isFrame_of_accepted (lo : ℕ) {mask : Word} (hlo : 12 ≤ lo) (hlo' : lo ≤ 48)
    (hmask : mask.toNat = (2 ^ (48 - lo) - 1) * 2 ^ lo) (ha : a < 2 ^ 64)
    (h : addressBits a &&& ~~~mask = 0) : IsFrame a := by
  have hout := outputAddress_of_accepted hmask ha h
  refine ⟨?_, ?_⟩
  · rw [← hout]
    exact Dvd.dvd.mul_left (pow_dvd_pow 2 hlo) _
  · rw [← hout]
    exact outputAddress_lt hlo'

/-- Where the low bits of the address field are clear, a wider offset leaves the address. -/
lemma outputAddress_of_dvd {lo : ℕ} (hlo : 12 ≤ lo) (hlo' : lo ≤ 48)
    (h : 2 ^ lo ∣ outputAddress w 12) : outputAddress w lo = outputAddress w 12 := by
  have hfield : ∀ n ≤ 48, outputAddress w n = w.toNat % 2 ^ 48 / 2 ^ n * 2 ^ n := by
    intro n hn
    unfold outputAddress
    rw [BitVec.extractLsb'_toNat, Nat.shiftRight_eq_div_pow, ← Nat.mod_mul_right_div_self,
      ← Nat.pow_add, Nat.add_sub_cancel' hn]
  have hsplit : (2 : ℕ) ^ lo = 2 ^ 12 * 2 ^ (lo - 12) := by
    rw [← Nat.pow_add, Nat.add_sub_cancel' hlo]
  calc outputAddress w lo
      = w.toNat % 2 ^ 48 / 2 ^ lo * 2 ^ lo := hfield lo hlo'
    _ = outputAddress w 12 / 2 ^ lo * 2 ^ lo := by
        rw [hfield 12 (by omega), hsplit, ← Nat.div_div_eq_div_mul, ← Nat.div_div_eq_div_mul,
          Nat.mul_div_cancel _ (Nat.two_pow_pos 12)]
    _ = outputAddress w 12 := Nat.div_mul_cancel h

/-! ### Flags -/

/-- The flags of a leaf with these fields. -/
def leafFlags (type : Word) (f : Fields) : Word :=
  type ||| accessFlag ||| notGlobal ||| (f.attr.value <<< attributeShift) |||
    (if f.unprivileged then unprivilegedBit else 0)

/-- The bits that tell a block or a page from other descriptors. -/
def IsLeafType (type : Word) : Prop := type = typeBlock ∨ type = typePage

variable {type : Word} {f : Fields}

lemma leafFlags_and_mask (ht : IsLeafType type) : leafFlags type f &&& tableAddressMask = 0 := by
  obtain ⟨attr, u⟩ := f
  rcases ht with rfl | rfl <;> cases attr <;> cases u <;> decide

lemma leafFlags_and_typeMask (ht : IsLeafType type) : leafFlags type f &&& typeMask = type := by
  obtain ⟨attr, u⟩ := f
  rcases ht with rfl | rfl <;> cases attr <;> cases u <;> decide

lemma leafFlags_setAttribute (ht : IsLeafType type) (a : Attribute) :
    (leafFlags type f &&& ~~~attributeMask) ||| (a.value <<< attributeShift) =
      leafFlags type (f.set (.setAttribute a)) := by
  obtain ⟨attr, u⟩ := f
  rcases ht with rfl | rfl <;> cases attr <;> cases u <;> cases a <;> decide

lemma leafFlags_or_unprivileged (ht : IsLeafType type) :
    leafFlags type f ||| unprivilegedBit = leafFlags type (f.set (.setUnprivileged true)) := by
  obtain ⟨attr, u⟩ := f
  rcases ht with rfl | rfl <;> cases attr <;> cases u <;> decide

lemma leafFlags_and_not_unprivileged (ht : IsLeafType type) :
    leafFlags type f &&& ~~~unprivilegedBit = leafFlags type (f.set (.setUnprivileged false)) := by
  obtain ⟨attr, u⟩ := f
  rcases ht with rfl | rfl <;> cases attr <;> cases u <;> decide

/-- A leaf with these fields and this address. -/
def leafWord (type : Word) (f : Fields) (g : ℕ) : Word := leafFlags type f ||| addressBits g

section Leaf

variable (hg : IsFrame g) (ht : IsLeafType type)

include hg ht

/-! ### Setters -/

lemma leafWord_setAttribute (a : Attribute) :
    (leafWord type f g &&& ~~~attributeMask) ||| (a.value <<< attributeShift) =
      leafWord type (f.set (.setAttribute a)) g := by
  unfold leafWord
  rw [flags_or_setAttribute hg, leafFlags_setAttribute ht]

omit hg in
lemma leafWord_or_unprivileged :
    leafWord type f g ||| unprivilegedBit = leafWord type (f.set (.setUnprivileged true)) g := by
  unfold leafWord
  rw [BitVec.or_assoc, BitVec.or_comm (addressBits g), ← BitVec.or_assoc,
    leafFlags_or_unprivileged ht]

lemma leafWord_and_not_unprivileged :
    leafWord type f g &&& ~~~unprivilegedBit =
      leafWord type (f.set (.setUnprivileged false)) g := by
  unfold leafWord
  rw [flags_or_and_not hg _ (by decide), leafFlags_and_not_unprivileged ht]

/-! ### Reading a leaf -/

lemma leafWord_and_typeMask : leafWord type f g &&& typeMask = type := by
  unfold leafWord
  rw [flags_or_and_typeMask hg, leafFlags_and_typeMask ht]

lemma leafOf_leafWord {level : ℕ} (hdvd : 2 ^ offsetBits level ∣ g) :
    leafOf level (leafWord type f g) =
      .leaf g (f.attr.value.setWidth 3) (if f.unprivileged then 0b01 else 0b00) true := by
  have hout : outputAddress (leafWord type f g) 12 = g :=
    outputAddress_flags_or hg (leafFlags_and_mask ht)
  have hlo : 12 ≤ offsetBits level := Nat.le_add_right ..
  have hle : offsetBits level ≤ 48 := by unfold offsetBits; omega
  unfold leafOf
  rw [outputAddress_of_dvd hlo hle (by rwa [hout]), hout]
  unfold leafWord
  rw [flags_or_extractLsb' hg _ (by omega), flags_or_extractLsb' hg _ (by omega),
    flags_or_getLsbD hg _ (by omega)]
  obtain ⟨attr, u⟩ := f
  rcases ht with rfl | rfl <;> cases attr <;> cases u <;> rfl

/-- The type bits of a leaf are those it was started with. -/
lemma leafWord_getLsbD {i : ℕ} (hi : i < 2) :
    (leafWord type f g).getLsbD i = type.getLsbD i := by
  have hbit := congrArg (·.getLsbD i) (leafWord_and_typeMask (f := f) hg ht)
  have hmask : typeMask.getLsbD i = true := by
    interval_cases i <;> rfl
  simpa [BitVec.getLsbD_and, hmask] using hbit

end Leaf

lemma decode_blockWord {level : ℕ} (hg : IsFrame g) (hlevel : level = 1 ∨ level = 2) :
    decode level (leafWord typeBlock f g) = leafOf level (leafWord typeBlock f g) := by
  have ht : IsLeafType typeBlock := .inl rfl
  unfold decode
  rw [leafWord_getLsbD hg ht (by omega), leafWord_getLsbD hg ht (by omega), if_neg (by decide),
    if_neg (by decide), if_pos hlevel]

/-- At the last level the type bits of a block are reserved. -/
lemma decode_blockWord_levelMax (hg : IsFrame g) :
    decode levelMax (leafWord typeBlock f g) = .invalid := by
  have ht : IsLeafType typeBlock := .inl rfl
  unfold decode
  rw [leafWord_getLsbD hg ht (by omega), leafWord_getLsbD hg ht (by omega), if_neg (by decide),
    if_neg (by decide), if_neg (by decide)]

lemma decode_pageWord (hg : IsFrame g) :
    decode levelMax (leafWord typePage f g) = leafOf levelMax (leafWord typePage f g) := by
  have ht : IsLeafType typePage := .inr rfl
  unfold decode
  rw [leafWord_getLsbD hg ht (by omega), leafWord_getLsbD hg ht (by omega), if_neg (by decide),
    if_pos (by decide), if_neg (by decide)]

/-! ### Builders -/

lemma Setter.apply_pendingValue {b : PageDescriptorBuilder} (hg : IsFrame g)
    (hb : b.pendingValue = leafWord typePage f g) (s : Setter) :
    (s.apply b).pendingValue = leafWord typePage (f.set s) g := by
  have ht : IsLeafType typePage := .inr rfl
  cases s with
  | setAttribute a =>
    rw [← leafWord_setAttribute hg ht a, ← hb]
    rfl
  | setUnprivileged u =>
    cases u
    · rw [← leafWord_and_not_unprivileged hg ht, ← hb]
      rfl
    · rw [← leafWord_or_unprivileged ht, ← hb]
      rfl

/-- A chain of setters changes the fields and nothing else. -/
lemma page_foldl_pendingValue (hg : IsFrame g) (setters : List Setter) :
    ∀ {f : Fields} {b : PageDescriptorBuilder}, b.pendingValue = leafWord typePage f g →
      (setters.foldl Setter.apply b).pendingValue =
        leafWord typePage (setters.foldl Fields.set f) g := by
  induction setters with
  | nil => exact fun hb => hb
  | cons s setters ih => exact fun hb => ih (s.apply_pendingValue hg hb)

lemma block_foldl_pendingValue (hg : IsFrame g) (attributes : List Attribute) :
    ∀ {f : Fields} {b : BlockDescriptorBuilder}, b.pendingValue = leafWord typeBlock f g →
      (attributes.foldl BlockDescriptorBuilder.setAttribute b).pendingValue =
        leafWord typeBlock ((attributes.map Setter.setAttribute).foldl Fields.set f) g := by
  induction attributes with
  | nil => exact fun hb => hb
  | cons a attributes ih =>
    intro f b hb
    refine ih ?_
    rw [← leafWord_setAttribute hg (.inl rfl) a, ← hb]
    rfl

/-- A new leaf has the initial fields. -/
lemma new_leafWord (type : Word) :
    type ||| accessFlag ||| notGlobal ||| BitVec.ofNat 64 g = leafWord type {} g := by
  unfold leafWord leafFlags
  rw [show (Attribute.device.value <<< attributeShift : Word) = 0 from rfl]
  simp [addressBits]

lemma tableBuilder_spec {b : TableDescriptorBuilder} (ha : a < 2 ^ 64)
    (h : TableDescriptorBuilder.new a = some b) :
    IsFrame a ∧ b.pendingValue = descriptor levelRoot a := by
  unfold TableDescriptorBuilder.new at h
  split_ifs at h with hmask
  obtain rfl := Option.some.inj h
  exact ⟨isFrame_of_accepted 12 (by omega) (by omega) (by decide) ha (not_not.mp hmask), rfl⟩

lemma blockBuilder_spec {attributes : List Attribute} {b : BlockDescriptorBuilder}
    (ha : a < 2 ^ 64) (h : blockBuilder a attributes = some b) :
    IsFrame a ∧ b.pendingValue = leafWord typeBlock (Request.block a attributes).fields a := by
  obtain ⟨b₀, hnew, rfl⟩ := Option.map_eq_some_iff.mp h
  unfold BlockDescriptorBuilder.new at hnew
  split_ifs at hnew with hmask
  obtain rfl := Option.some.inj hnew
  have hg : IsFrame a :=
    isFrame_of_accepted 21 (by omega) (by omega) (by decide) ha (not_not.mp hmask)
  exact ⟨hg, block_foldl_pendingValue hg attributes (new_leafWord typeBlock)⟩

lemma pageBuilder_spec {setters : List Setter} {b : PageDescriptorBuilder} (ha : a < 2 ^ 64)
    (h : pageBuilder a setters = some b) :
    IsFrame a ∧ b.pendingValue = leafWord typePage (Request.page a setters).fields a := by
  obtain ⟨b₀, hnew, rfl⟩ := Option.map_eq_some_iff.mp h
  unfold PageDescriptorBuilder.new at hnew
  split_ifs at hnew with hmask
  obtain rfl := Option.some.inj hnew
  have hg : IsFrame a :=
    isFrame_of_accepted 12 (by omega) (by omega) (by decide) ha (not_not.mp hmask)
  exact ⟨hg, page_foldl_pendingValue hg setters (new_leafWord typePage)⟩

/-! ### Written rows -/

/-- A row translates as many bytes as a leaf of its level. -/
lemma len_eq : r.len = 2 ^ offsetBits r.tableManager.level := by
  have hpow : pageSize * rowCount ^ (levelMax - r.tableManager.level + 1) =
      2 ^ offsetBits r.tableManager.level * rowCount := by
    rw [show pageSize = 2 ^ 12 from rfl, show rowCount = 2 ^ 9 from rfl, ← Nat.pow_mul,
      ← Nat.pow_add, ← Nat.pow_add]
    rfl
  unfold TableRowManager.len TableManager.len
  rw [hpow, Nat.mul_div_cancel _ (by decide)]

lemma means_table {b : TableDescriptorBuilder} (ha : a < 2 ^ 64)
    (hnew : TableDescriptorBuilder.new a = some b) (hlevel : r.tableManager.level < levelMax)
    (hw : r.value m = (.ok b.build, m)) : Means r (.table a) m := by
  obtain ⟨hg, hb⟩ := tableBuilder_spec ha hnew
  have hword : b.build = descriptor r.tableManager.level a := by
    rw [TableDescriptorBuilder.build, hb, descriptor_table (by decide), descriptor_table hlevel]
  have htype : r.descriptorType m = (.ok (some .table), m) := by
    rw [descriptorType_of_value hw, hword, descriptor_and_typeMask hg, if_pos ⟨rfl, hlevel⟩]
  refine ⟨⟨_, hw, ?_⟩, rfl, htype, ⟨b, ?_, hnew, ?_⟩, ?_, ?_⟩
  · rw [hword, decode_table hg hlevel]
    rfl
  · rw [loadTable_of_value hw htype, if_pos rfl]
    rfl
  · rw [show b = ⟨descriptor levelRoot a⟩ from congrArg TableDescriptorBuilder.mk hb,
      tableDescriptorBuilder_address hg (by decide)]
  · rw [loadBlock_of_value hw htype, if_neg (by decide)]
  · rw [loadPage_of_value hw htype, if_neg (by decide)]

/-- The address of a leaf can be masked out, with the mask of its own kind too. -/
lemma leafWord_address {mask : Word} (lo : ℕ) (hg : IsFrame g) (ht : IsLeafType type)
    (hmask : mask.toNat = (2 ^ (48 - lo) - 1) * 2 ^ lo) (hlo : 12 ≤ lo) (hlo' : lo ≤ 48)
    (hdvd : 2 ^ lo ∣ g) : (leafWord type f g &&& mask).toNat = g := by
  have hout : outputAddress (leafWord type f g) 12 = g :=
    outputAddress_flags_or hg (leafFlags_and_mask ht)
  rw [and_mask_toNat mask hmask, outputAddress_of_dvd hlo hlo' (by rwa [hout]), hout]

lemma means_block {attributes : List Attribute} {b : BlockDescriptorBuilder} (ha : a < 2 ^ 64)
    (hnew : blockBuilder a attributes = some b) (halign : r.len ∣ a)
    (hlevel : r.tableManager.level = 1 ∨ r.tableManager.level = 2)
    (hw : r.value m = (.ok b.build, m)) : Means r (.block a attributes) m := by
  obtain ⟨hg, hb⟩ := blockBuilder_spec ha hnew
  have ht : IsLeafType typeBlock := .inl rfl
  have hmax : r.tableManager.level ≠ levelMax := by
    unfold levelMax
    omega
  have htype : r.descriptorType m = (.ok (some .block), m) := by
    rw [descriptorType_of_value hw, BlockDescriptorBuilder.build, hb,
      leafWord_and_typeMask hg ht, if_neg fun h => absurd h.1 (by decide), if_pos ⟨rfl, by omega⟩]
  rw [len_eq] at halign
  refine ⟨⟨_, hw, ?_⟩, ?_, htype, ⟨b, ?_, hnew, ?_⟩, ?_, ?_⟩
  · rw [BlockDescriptorBuilder.build, hb, decode_blockWord hg hlevel, leafOf_leafWord hg ht halign]
    rfl
  · exact congrArg some (if_neg hmax)
  · rw [loadBlock_of_value hw htype, if_pos rfl]
    rfl
  · have hdvd : 2 ^ 21 ∣ a := by
      refine dvd_trans (pow_dvd_pow 2 ?_) halign
      unfold offsetBits
      omega
    rw [BlockDescriptorBuilder.address, hb]
    exact leafWord_address 21 hg ht (by decide) (by omega) (by omega) hdvd
  · rw [loadTable_of_value hw htype, if_neg (by decide)]
  · rw [loadPage_of_value hw htype, if_neg (by decide)]

lemma means_page {setters : List Setter} {b : PageDescriptorBuilder} (ha : a < 2 ^ 64)
    (hnew : pageBuilder a setters = some b) (hlevel : r.tableManager.level = levelMax)
    (hw : r.value m = (.ok b.build, m)) : Means r (.page a setters) m := by
  obtain ⟨hg, hb⟩ := pageBuilder_spec ha hnew
  have ht : IsLeafType typePage := .inr rfl
  have htype : r.descriptorType m = (.ok (some .page), m) := by
    rw [descriptorType_of_value hw, PageDescriptorBuilder.build, hb, leafWord_and_typeMask hg ht,
      if_neg fun h => h.2.ne hlevel, if_neg fun h => absurd h.1 (by decide), if_pos ⟨rfl, hlevel⟩]
  refine ⟨⟨_, hw, ?_⟩, ?_, htype, ⟨b, ?_, hnew, ?_⟩, ?_, ?_⟩
  · rw [PageDescriptorBuilder.build, hb, hlevel, decode_pageWord hg,
      leafOf_leafWord hg ht (show 2 ^ offsetBits levelMax ∣ a from hg.1)]
    rfl
  · exact congrArg some (if_pos hlevel)
  · rw [loadPage_of_value hw htype, if_pos rfl]
    rfl
  · rw [PageDescriptorBuilder.address, hb]
    exact leafWord_address 12 hg ht (by decide) (by omega) (by omega) hg.1
  · rw [loadTable_of_value hw htype, if_neg (by decide)]
  · rw [loadBlock_of_value hw htype, if_neg (by decide)]

/-- A block written at the last level is no descriptor at all. -/
lemma not_means_block {attributes : List Attribute} {b : BlockDescriptorBuilder} (ha : a < 2 ^ 64)
    (hnew : blockBuilder a attributes = some b) (hlevel : r.tableManager.level = levelMax)
    (hw : r.value m = (.ok b.build, m)) : ¬ Means r (.block a attributes) m := by
  obtain ⟨hg, hb⟩ := blockBuilder_spec ha hnew
  rintro ⟨⟨row, hrow, hdecode⟩, -, -, -⟩
  have hword : row = leafWord typeBlock (Request.block a attributes).fields a := by
    rw [← hb, ← Outcome.ok.inj (Prod.mk.inj (hrow.symm.trans hw)).1.symm]
    rfl
  rw [hword, hlevel, decode_blockWord_levelMax hg] at hdecode
  cases hdecode

/-! ### Writers -/

lemma of_writeTable {b : TableDescriptorBuilder} (h : r.writeTable b m = (.ok (), m')) :
    r.tableManager.level < levelMax ∧ r.setValue b.build m = (.ok (), m') := by
  unfold TableRowManager.writeTable at h
  split_ifs at h with hmax
  · cases h
  · exact ⟨not_le.mp hmax, h⟩

lemma of_writeBlock {b : BlockDescriptorBuilder} (h : r.writeBlock b m = (.ok (), m')) :
    levelRoot < r.tableManager.level ∧ r.setValue b.build m = (.ok (), m') := by
  unfold TableRowManager.writeBlock at h
  split_ifs at h with hroot
  · cases h
  · exact ⟨not_le.mp hroot, h⟩

lemma of_writePage {b : PageDescriptorBuilder} (h : r.writePage b m = (.ok (), m')) :
    r.tableManager.level = levelMax ∧ r.setValue b.build m = (.ok (), m') := by
  unfold TableRowManager.writePage at h
  split_ifs at h with hmax
  · cases h
  · exact ⟨not_not.mp hmax, h⟩

/-- Below the root a block is always written. -/
lemma writeBlock_ok {b : BlockDescriptorBuilder} (hlevel : levelRoot < r.tableManager.level)
    (hrow : r.index < rowCount) :
    r.writeBlock b m = (.ok (), m.writeWord (physicalAddress r.pointer) b.build) := by
  unfold TableRowManager.writeBlock
  rw [if_neg (not_le.mpr hlevel), value_setValue hrow]

/-- **Descriptors mean what was written**, unless a block is written at the last level:
`write_block` succeeds there, and the hardware knows pages only. -/
theorem written_means_iff {q : Request} {write : Exec ByteMemory Unit}
    (hlevel : r.tableManager.level ≤ levelMax) (hrow : r.index < rowCount)
    (haddress : q.address < 2 ^ 64) (halign : q.kind = .block → r.len ∣ q.address)
    (hwrite : q.write r = some write) :
    (∀ m m', write m = (.ok (), m') → Means r q m') ↔
      ¬ (q.kind = .block ∧ r.tableManager.level = levelMax) := by
  cases q with
  | table a =>
    obtain ⟨b, hnew, rfl⟩ := Option.map_eq_some_iff.mp hwrite
    refine iff_of_true (fun m m' h => ?_) (by simp [Request.kind])
    obtain ⟨hmax, hset⟩ := of_writeTable h
    exact means_table haddress hnew hmax (value_of_setValue hrow hset)
  | block a attributes =>
    obtain ⟨b, hnew, rfl⟩ := Option.map_eq_some_iff.mp hwrite
    constructor
    · rintro hmeans ⟨-, hmax⟩
      have h := writeBlock_ok (m := fun _ => 0) (b := b) (by rw [hmax]; decide) hrow
      have hw := value_of_setValue hrow (of_writeBlock h).2
      exact not_means_block haddress hnew hmax hw (hmeans _ _ h)
    · intro hmax m m' h
      obtain ⟨hroot, hset⟩ := of_writeBlock h
      have hne : r.tableManager.level ≠ levelMax := fun h => hmax ⟨rfl, h⟩
      have hmiddle : r.tableManager.level = 1 ∨ r.tableManager.level = 2 := by
        unfold levelRoot at hroot
        unfold levelMax at hlevel hne
        omega
      exact means_block haddress hnew (halign rfl) hmiddle (value_of_setValue hrow hset)
  | page a setters =>
    obtain ⟨b, hnew, rfl⟩ := Option.map_eq_some_iff.mp hwrite
    refine iff_of_true (fun m m' h => ?_) (by simp [Request.kind])
    obtain ⟨hmax, hset⟩ := of_writePage h
    exact means_page haddress hnew hmax (value_of_setValue hrow hset)

/-- A device block of level 2 that becomes normal memory. -/
theorem written_means_normal :
    Means ⟨⟨virtualAddress 0x80000, 2, 0⟩, 1⟩ (.block 0x200000 [.device, .normal])
      (ByteMemory.writeWord (fun _ => 0) (physicalAddress (virtualAddress 0x80000 + 8 * 1))
        0x200C05) :=
  (written_means_iff (by decide) (by decide) (by decide) (fun _ => by decide) rfl).mpr (by decide)
    (fun _ => 0) _ (writeBlock_ok (b := ⟨0x200C05⟩) (by decide) (by decide))

/-- `write_block` at level 3 leaves a row that the kernel calls a block and the hardware
rejects. -/
theorem block_at_last_level :
    ∃ m', TableRowManager.writeBlock ⟨⟨virtualAddress 0x80000, levelMax, 0⟩, 1⟩ ⟨0x200C05⟩
        (fun _ => 0) = (.ok (), m') ∧
      blockBuilder 0x200000 [.normal] = some ⟨0x200C05⟩ ∧
      ¬ Means ⟨⟨virtualAddress 0x80000, levelMax, 0⟩, 1⟩ (.block 0x200000 [.normal]) m' := by
  have hnew : blockBuilder 0x200000 [.normal] = some ⟨0x200C05⟩ := by decide
  have h := writeBlock_ok (r := ⟨⟨virtualAddress 0x80000, levelMax, 0⟩, 1⟩)
    (b := ⟨0x200C05⟩) (m := fun _ => 0) (by decide) (by decide)
  refine ⟨_, h, hnew, ?_⟩
  exact not_means_block (by decide) hnew rfl (value_of_setValue (by decide) (of_writeBlock h).2)

end Pimento.RowMeaning
