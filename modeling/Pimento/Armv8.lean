import Pimento.ByteMemory
import Pimento.Address

/-!
The stage 1 translation of the hardware, for a 4 KB granule and 48-bit addresses.

The walk takes nine bits of the address at each of the levels 0 to 3. A descriptor with bit 0
clear faults at every level; bits 1:0 = 0b11 mean a table at levels 0 to 2 and a page at
level 3, and 0b01 a block at levels 1 and 2 only. A leaf whose access flag is clear faults.
-/

namespace Pimento.Armv8

open ByteMemory

/-- What a descriptor means at its level. -/
inductive Descriptor
  | invalid
  | table (next : ℕ) (apTable : BitVec 2)
  | leaf (output : ℕ) (attrIndex : BitVec 3) (ap : BitVec 2) (af : Bool)
  deriving DecidableEq, Repr

/-- Bits 47:`lo` of a descriptor, as an address. -/
def outputAddress (d : Word) (lo : ℕ) : ℕ := (d.extractLsb' lo (48 - lo)).toNat * 2 ^ lo

/-- The number of address bits a leaf at this level does not translate. -/
def offsetBits (level : ℕ) : ℕ := 12 + 9 * (3 - level)

def leafOf (level : ℕ) (d : Word) : Descriptor :=
  .leaf (outputAddress d (offsetBits level)) (d.extractLsb' 2 3) (d.extractLsb' 6 2)
    (d.getLsbD 10)

def decode (level : ℕ) (d : Word) : Descriptor :=
  if d.getLsbD 0 = false then .invalid
  else if d.getLsbD 1 then
    if level < 3 then .table (outputAddress d 12) (d.extractLsb' 61 2) else leafOf level d
  else if level = 1 ∨ level = 2 then leafOf level d
  else .invalid

/-- The result of a walk that does not fault. -/
structure Translation where
  outputAddress : ℕ
  attrIndex : BitVec 3
  /-- EL0 may read. -/
  el0 : Bool
  readOnly : Bool
  accessFlag : Bool
  deriving DecidableEq, Repr

/-- The index into the table of this level: bits 47:39, 38:30, 29:21 or 20:12. -/
def index (va level : ℕ) : ℕ := (va >>> (39 - 9 * level)) % 2 ^ 9

/-- The walk from the table at `table`, whose level is `3 - k`. The flags gather what the
`APTable` fields on the way take away: bit 0 the access of EL0, bit 1 every write. -/
def walkFrom (m : ByteMemory) (va : ℕ) : ℕ → ℕ → BitVec 2 → Option Translation
  | 0, table, apTable => leaf 3 (decode 3 (m.readWord (table + 8 * index va 3))) apTable
  | k + 1, table, apTable =>
    let level := 3 - (k + 1)
    match decode level (m.readWord (table + 8 * index va level)) with
    | .table next ap => walkFrom m va k next (apTable ||| ap)
    | d => leaf level d apTable
where
  leaf (level : ℕ) (d : Descriptor) (apTable : BitVec 2) : Option Translation :=
    match d with
    | .leaf output attrIndex ap af =>
      if af then
        some
          { outputAddress := output + va % 2 ^ offsetBits level
            attrIndex
            el0 := ap.getLsbD 0 && !apTable.getLsbD 0
            readOnly := ap.getLsbD 1 || apTable.getLsbD 1
            accessFlag := af }
      else none
    | _ => none

/-- The translation of a user address by the tables below `root`, or `none` for a fault. -/
def translate (m : ByteMemory) (root va : ℕ) : Option Translation :=
  if va < 2 ^ 48 then walkFrom m va 3 root 0 else none

/-! ### Bit fields and masks -/

lemma and_mask_toNat {d : Word} (mask : Word) {lo : ℕ}
    (hmask : mask.toNat = (2 ^ (48 - lo) - 1) * 2 ^ lo) :
    (d &&& mask).toNat = outputAddress d lo := by
  unfold outputAddress
  rw [BitVec.toNat_and, hmask, BitVec.extractLsb'_toNat]
  refine Nat.eq_of_testBit_eq fun i => ?_
  simp only [Nat.testBit_and, ← Nat.shiftLeft_eq, Nat.testBit_shiftLeft,
    Nat.testBit_two_pow_sub_one, Nat.testBit_mod_two_pow, Nat.testBit_shiftRight]
  by_cases hi : lo ≤ i
  · simp [hi, Bool.and_comm]
  · simp [hi]

end Pimento.Armv8
