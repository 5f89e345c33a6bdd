import Mathlib.Data.Nat.Bitwise
import Mathlib.Tactic.Common
import Mathlib.Tactic.NormNum

/-!
Machine addresses and the mapping between physical memory and kernel pointers.

An address is a `usize`, a number below `2 ^ 64`; additions that may overflow wrap, as in the
release build.
-/

namespace Pimento

/-- The value of a 64-bit `usize` after an arithmetic operation. -/
def wrap (n : ℕ) : ℕ := n % 2 ^ 64

lemma wrap_of_lt {n : ℕ} (h : n < 2 ^ 64) : wrap n = n := Nat.mod_eq_of_lt h

namespace Address

/-- `size_of::<Page>()`. -/
def pageSize : ℕ := 4096

def vaBits : ℕ := 48

/-- The first kernel address, `!((1 << VA_BITS) - 1)`. -/
def vaStart : ℕ := 2 ^ 64 - 1 - (2 ^ vaBits - 1)

/-- The kernel pointer to a physical address. -/
def virtualAddress (address : ℕ) : ℕ := address ||| vaStart

/-- The physical address behind a kernel pointer. -/
def physicalAddress (ptr : ℕ) : ℕ := ptr &&& (2 ^ 64 - 1 - vaStart)

lemma vaStart_eq : vaStart = 2 ^ 48 * (2 ^ 16 - 1) := by norm_num [vaStart, vaBits]

lemma virtualAddress_of_lt {a : ℕ} (h : a < 2 ^ 48) : virtualAddress a = vaStart + a := by
  unfold virtualAddress
  rw [Nat.lor_comm, vaStart_eq, Nat.two_pow_add_eq_or_of_lt h]

lemma physicalAddress_eq_mod (p : ℕ) : physicalAddress p = p % 2 ^ 48 := by
  unfold physicalAddress
  rw [show 2 ^ 64 - 1 - vaStart = 2 ^ 48 - 1 by norm_num [vaStart, vaBits],
    Nat.and_two_pow_sub_one_eq_mod]

/-- A kernel pointer into the direct map reaches the physical byte it was made from. -/
lemma physicalAddress_virtualAddress {a k : ℕ} (h : a + k < 2 ^ 48) :
    physicalAddress (virtualAddress a + k) = a + k := by
  rw [virtualAddress_of_lt (by omega), physicalAddress_eq_mod, vaStart_eq]
  omega

end Address

end Pimento
