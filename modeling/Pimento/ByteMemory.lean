import Mathlib.Data.BitVec
import Mathlib.Tactic.Common
import Mathlib.Tactic.IntervalCases

/-!
A byte-addressed memory with little-endian 64-bit words.
-/

namespace Pimento

abbrev Byte := BitVec 8

abbrev Word := BitVec 64

/-- A memory: the byte at every address. -/
abbrev ByteMemory := ℕ → Byte

namespace ByteMemory

variable {m m' : ByteMemory} {a b n : ℕ} {w : Word}

/-- The little-endian word at `a`. -/
def readWord (m : ByteMemory) (a : ℕ) : Word :=
  m (a + 7) ++ (m (a + 6) ++ (m (a + 5) ++ (m (a + 4) ++
    (m (a + 3) ++ (m (a + 2) ++ (m (a + 1) ++ m a))))))

def writeWord (m : ByteMemory) (a : ℕ) (w : Word) : ByteMemory := fun x =>
  if a ≤ x ∧ x < a + 8 then w.extractLsb' (8 * (x - a)) 8 else m x

/-- Zero the `n` bytes from `a` on. -/
def clear (m : ByteMemory) (a n : ℕ) : ByteMemory := fun x =>
  if a ≤ x ∧ x < a + n then 0 else m x

/-- Write the bytes `bs` from `a` on. -/
def writeBytes (m : ByteMemory) (a : ℕ) (bs : List Byte) : ByteMemory := fun x =>
  if a ≤ x then (bs[x - a]?).getD (m x) else m x

/-- Write consecutive words from `a` on. -/
def writeWords (m : ByteMemory) (a : ℕ) : List Word → ByteMemory
  | [] => m
  | w :: ws => writeWords (writeWord m a w) (a + 8) ws

/-- The two memories hold the same `n` bytes from `a` on. -/
def SameOn (m m' : ByteMemory) (a n : ℕ) : Prop := ∀ x, a ≤ x → x < a + n → m x = m' x

lemma readWord_congr (h : ∀ i < 8, m (a + i) = m' (a + i)) : readWord m a = readWord m' a := by
  have h0 := h 0 (by omega)
  simp only [Nat.add_zero] at h0
  simp only [readWord, h0, h 1 (by omega), h 2 (by omega), h 3 (by omega), h 4 (by omega),
    h 5 (by omega), h 6 (by omega), h 7 (by omega)]

lemma readWord_sameOn (h : SameOn m m' a n) (hb : a ≤ b) (hn : b + 8 ≤ a + n) :
    readWord m b = readWord m' b :=
  readWord_congr fun i hi => h (b + i) (by omega) (by omega)

lemma writeWord_byte (i : ℕ) (hi : i < 8) :
    writeWord m a w (a + i) = w.extractLsb' (8 * i) 8 := by
  unfold writeWord
  rw [if_pos ⟨by omega, by omega⟩, Nat.add_sub_cancel_left]

@[simp] lemma readWord_writeWord : readWord (writeWord m a w) a = w := by
  have h0 : writeWord m a w a = w.extractLsb' (8 * 0) 8 := writeWord_byte 0 (by omega)
  simp only [readWord, h0, writeWord_byte 1 (by omega), writeWord_byte 2 (by omega),
    writeWord_byte 3 (by omega), writeWord_byte 4 (by omega), writeWord_byte 5 (by omega),
    writeWord_byte 6 (by omega), writeWord_byte 7 (by omega)]
  rw [BitVec.extractLsb'_append_extractLsb'_eq_extractLsb' (by rfl),
    BitVec.extractLsb'_append_extractLsb'_eq_extractLsb' (by rfl),
    BitVec.extractLsb'_append_extractLsb'_eq_extractLsb' (by rfl),
    BitVec.extractLsb'_append_extractLsb'_eq_extractLsb' (by rfl),
    BitVec.extractLsb'_append_extractLsb'_eq_extractLsb' (by rfl),
    BitVec.extractLsb'_append_extractLsb'_eq_extractLsb' (by rfl),
    BitVec.extractLsb'_append_extractLsb'_eq_extractLsb' (by rfl)]
  exact BitVec.extractLsb'_eq_self

lemma writeWord_of_outside (h : b < a ∨ a + 8 ≤ b) : writeWord m a w b = m b := by
  unfold writeWord
  rw [if_neg (by omega)]

lemma readWord_writeWord_of_disjoint (h : b + 8 ≤ a ∨ a + 8 ≤ b) :
    readWord (writeWord m a w) b = readWord m b :=
  readWord_congr fun i hi => writeWord_of_outside (by omega)

lemma clear_of_outside (h : b < a ∨ a + n ≤ b) : clear m a n b = m b := by
  unfold clear
  rw [if_neg (by omega)]

lemma clear_of_inside (ha : a ≤ b) (hb : b < a + n) : clear m a n b = 0 := by
  unfold clear
  rw [if_pos ⟨ha, hb⟩]

lemma readWord_clear (ha : a ≤ b) (hb : b + 8 ≤ a + n) : readWord (clear m a n) b = 0 := by
  have h : readWord (clear m a n) b = readWord (fun _ => 0) b :=
    readWord_congr fun i hi => clear_of_inside (by omega) (by omega)
  rw [h]
  simp [readWord]

lemma readWord_clear_of_disjoint (h : b + 8 ≤ a ∨ a + n ≤ b) :
    readWord (clear m a n) b = readWord m b :=
  readWord_congr fun i hi => clear_of_outside (by omega)

lemma writeBytes_of_outside {bs : List Byte} (h : b < a ∨ a + bs.length ≤ b) :
    writeBytes m a bs b = m b := by
  unfold writeBytes
  split
  · rw [List.getElem?_eq_none (by omega)]
    rfl
  · rfl

lemma writeBytes_of_inside {bs : List Byte} (i : ℕ) (hi : i < bs.length) :
    writeBytes m a bs (a + i) = bs[i] := by
  unfold writeBytes
  rw [if_pos (by omega), Nat.add_sub_cancel_left, List.getElem?_eq_getElem hi]
  rfl

/-- Writing a byte and then the rest is writing them all. -/
lemma writeBytes_cons {b : Byte} {bs : List Byte} :
    writeBytes (writeBytes m a [b]) (a + 1) bs = writeBytes m a (b :: bs) := by
  funext x
  unfold writeBytes
  rcases Nat.lt_trichotomy x a with h | rfl | h
  · simp [show ¬ a + 1 ≤ x by omega, show ¬ a ≤ x by omega]
  · simp
  · obtain ⟨k, rfl⟩ := Nat.exists_eq_add_of_lt h
    have h₁ : a + k + 1 - (a + 1) = k := by omega
    have h₂ : a + k + 1 - a = k + 1 := by omega
    simp [h₁, h₂, show a + 1 ≤ a + k + 1 by omega, show a ≤ a + k + 1 by omega]

lemma SameOn.refl (m : ByteMemory) (a n : ℕ) : SameOn m m a n := fun _ _ _ => rfl

lemma SameOn.symm (h : SameOn m m' a n) : SameOn m' m a n := fun x ha hb => (h x ha hb).symm

lemma SameOn.trans {m'' : ByteMemory} (h : SameOn m m' a n) (h' : SameOn m' m'' a n) :
    SameOn m m'' a n := fun x ha hb => (h x ha hb).trans (h' x ha hb)

lemma sameOn_clear {k : ℕ} (h : a + n ≤ b ∨ b + k ≤ a) : SameOn m (clear m b k) a n :=
  fun x ha hx => (clear_of_outside (by omega)).symm

lemma sameOn_writeWord (h : a + n ≤ b ∨ b + 8 ≤ a) : SameOn m (writeWord m b w) a n :=
  fun x ha hx => (writeWord_of_outside (by omega)).symm

/-! ### Consecutive words -/

lemma writeWords_of_outside {ws : List Word} (h : b < a ∨ a + 8 * ws.length ≤ b) :
    writeWords m a ws b = m b := by
  induction ws generalizing m a with
  | nil => rfl
  | cons w ws ih =>
    rw [List.length_cons] at h
    rw [writeWords, ih (by omega), writeWord_of_outside (by omega)]

lemma writeWords_append (m : ByteMemory) (a : ℕ) (ws ws' : List Word) :
    writeWords m a (ws ++ ws') = writeWords (writeWords m a ws) (a + 8 * ws.length) ws' := by
  induction ws generalizing m a with
  | nil => rfl
  | cons w ws ih =>
    rw [List.cons_append, writeWords, ih, writeWords, List.length_cons, Nat.mul_succ,
      Nat.add_comm (8 * _), Nat.add_assoc]

/-- The words can be read back. -/
lemma readWord_writeWords {ws : List Word} {i : ℕ} (hi : i < ws.length) :
    readWord (writeWords m a ws) (a + 8 * i) = ws[i] := by
  induction ws generalizing m a i with
  | nil => cases hi
  | cons w ws ih =>
    rw [writeWords]
    cases i with
    | zero =>
      have hbelow : readWord (writeWords (writeWord m a w) (a + 8) ws) a =
          readWord (writeWord m a w) a :=
        readWord_congr fun i hi => writeWords_of_outside (by omega)
      exact hbelow.trans readWord_writeWord
    | succ i =>
      have hi' : i < ws.length := Nat.lt_of_succ_lt_succ hi
      rw [show a + 8 * (i + 1) = a + 8 + 8 * i by omega, ih hi']
      rfl

lemma sameOn_writeWords {ws : List Word} (h : a + n ≤ b ∨ b + 8 * ws.length ≤ a) :
    SameOn m (writeWords m b ws) a n :=
  fun x ha hx => (writeWords_of_outside (by omega)).symm

/-! ### Scattered bytes -/

/-- Store bytes at any addresses, one after the other. -/
def store (m : ByteMemory) (writes : List (ℕ × Byte)) : ByteMemory :=
  writes.foldl (fun m w => Function.update m w.1 w.2) m

lemma store_of_outside {writes : List (ℕ × Byte)} (h : ∀ w ∈ writes, w.1 ≠ b) :
    store m writes b = m b := by
  induction writes generalizing m with
  | nil => rfl
  | cons w writes ih =>
    have hw : w.1 ≠ b := h w (List.mem_cons_self ..)
    calc store m (w :: writes) b
        = store (Function.update m w.1 w.2) writes b := rfl
      _ = Function.update m w.1 w.2 b := ih fun w' hw' => h w' (List.mem_cons_of_mem w hw')
      _ = m b := Function.update_of_ne hw.symm ..

lemma sameOn_store {writes : List (ℕ × Byte)} (h : ∀ w ∈ writes, w.1 < a ∨ a + n ≤ w.1) :
    SameOn m (store m writes) a n :=
  fun x ha hx => (store_of_outside fun w hw => by have := h w hw; omega).symm

end ByteMemory

end Pimento
