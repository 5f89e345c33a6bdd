import Pimento.SystemCalls

/-!
What the `write` call gives away.

The call reads the memory of its arguments as the kernel sees it: a range that user code could
read is written out, and any other one is too, or faults.
-/

namespace Pimento.Confinement

open Address Armv8 MemoryContext UserCopy SysWrite

/-- What user code reads at an address: nothing where its page is not accessible from EL0. -/
def userView (s : Scope) (va : ℕ) : Option Byte :=
  match Armv8.translate s.machine.memory (physicalAddress s.context.tableL0) va with
  | some t => if t.el0 then some (s.machine.memory t.outputAddress) else none
  | none => none

/-- Every byte of the range is accessible from EL0. -/
def UserRange (s : Scope) (buf count : ℕ) : Prop := ∀ i < count, (userView s (buf + i)).isSome

instance (s : Scope) (buf count : ℕ) : Decidable (UserRange s buf count) :=
  inferInstanceAs (Decidable (∀ i < count, _))

/-- The bytes of a range that is accessible from EL0. -/
def userBytes (s : Scope) (buf count : ℕ) : List Byte :=
  (List.range count).map fun i => (userView s (buf + i)).getD 0

/-- The states look alike to user code. -/
def SameView (s s' : KernelState) : Prop := ∀ va, userView s.scope va = userView s'.scope va

/-- What user code asks the router for. -/
def write (fd buf count : ℕ) (args : ℕ × ℕ × ℕ) : Exec KernelState ℤ :=
  systemCallRouter.handle systemCallWrite fd buf count args.1 args.2.1 args.2.2

/-- The call returns a value and emits these bytes. -/
def Gives (x : Exec KernelState ℤ) (s : KernelState) (v : ℤ) (out : List Byte) : Prop :=
  ∃ t, x s = (.ok v, t) ∧ t.log = s.log ++ out

/-- The call is confined to what user code can see: it does the same in both states, and it
refuses a range that user code cannot read. -/
structure Confined (x : Exec KernelState ℤ) (fd buf count : ℕ) (s s' : KernelState) : Prop where
  same : ∃ v out, Gives x s v out ∧ Gives x s' v out
  refused : fd = 1 → 0 < count →
    (¬ UserRange s.scope buf count → Gives x s (-SystemCallError.badAddress.value) []) ∧
      (¬ UserRange s'.scope buf count → Gives x s' (-SystemCallError.badAddress.value) [])

/-- The heap has room for so many bytes. -/
def HasRoom (s : KernelState) (count : ℕ) : Prop := Heap.HasRoom s.allocated count

/-- The heap has room for a copy of the bytes and the text made of them. -/
def HeapFits (s : KernelState) (bytes : List Byte) : Prop :=
  HasRoom s (bytes.length + (Utf8.fromUtf8Lossy bytes).2.sum)

variable {s s' t : KernelState} {fd buf count : ℕ} {args : ℕ × ℕ × ℕ}

/-! ### The heap -/

/-- The state after an allocation. -/
def taken (s : KernelState) (count : ℕ) : KernelState := { s with allocated := s.allocated + count }

lemma taken_taken {a b : ℕ} : taken (taken s a) b = taken s (a + b) := by
  unfold taken
  rw [Nat.add_assoc]

lemma alloc_ok (h : HasRoom s count) : Heap.alloc count s = (.ok (), taken s count) := by
  rw [Heap.alloc, Exec.zoom, Heap.take_ok h]
  rfl

lemma alloc_panic (h : ¬ HasRoom s count) : (Heap.alloc count s).1 = .panic := Heap.take_panic h

lemma hasRoom_add {a b : ℕ} : HasRoom s (a + b) ↔ HasRoom s a ∧ HasRoom (taken s a) b := by
  have ht : (taken s a).allocated = s.allocated + a := rfl
  unfold HasRoom Heap.HasRoom
  rw [ht]
  omega

lemma allocAll_ok {counts : List ℕ} (h : HasRoom s counts.sum) :
    Heap.allocAll counts s = (.ok (), taken s counts.sum) := by
  induction counts generalizing s with
  | nil => rfl
  | cons c counts ih =>
    rw [List.sum_cons] at h
    obtain ⟨hc, hcs⟩ := hasRoom_add.mp h
    rw [Heap.allocAll, Exec.bind_ok (alloc_ok hc), ih hcs, List.sum_cons, taken_taken]

lemma allocAll_panic {counts : List ℕ} (h : ¬ HasRoom s counts.sum) :
    (Heap.allocAll counts s).1 = .panic := by
  induction counts generalizing s with
  | nil => exact absurd (.inl rfl) h
  | cons c counts ih =>
    rw [List.sum_cons] at h
    by_cases hc : HasRoom s c
    · rw [Heap.allocAll, Exec.bind_ok (alloc_ok hc)]
      exact ih fun hcs => h (hasRoom_add.mpr ⟨hc, hcs⟩)
    · have hp := alloc_panic hc
      rcases he : Heap.alloc c s with ⟨r, t⟩
      rw [he] at hp
      obtain rfl : r = .panic := hp
      rw [Heap.allocAll, Exec.bind_panic he]

/-! ### The copy -/

lemma userView_lt {c : Scope} {va : ℕ} (h : (userView c va).isSome) : va < 2 ^ 48 := by
  by_contra hge
  rw [userView, Armv8.translate, if_neg hge] at h
  cases h

/-- The kernel reads what user code reads. -/
lemma access_user {c : Scope} {va : ℕ} {b : Byte} (h : userView c va = some b) :
    ∃ a, access false va c = (.ok a, c) ∧ c.machine.memory a = b := by
  have hlt := userView_lt (Option.isSome_of_eq_some h)
  unfold userView at h
  rcases ht : Armv8.translate c.machine.memory (physicalAddress c.context.tableL0) va with _ | t
  · simp [ht] at h
  · refine ⟨t.outputAddress, ?_, ?_⟩
    · rw [access, Exec.get_bind, dataAddress, if_pos hlt, ht]
      rfl
    · rw [ht] at h
      simp only at h
      split at h
      · exact Option.some.inj h
      · cases h

lemma userBytes_succ (c : Scope) (buf count : ℕ) :
    userBytes c buf (count + 1) = (userView c buf).getD 0 :: userBytes c (buf + 1) count := by
  rw [userBytes, List.range_succ_eq_map, List.map_cons, List.map_map]
  refine congrArg _ (List.map_congr_left fun i _ => ?_)
  show (userView c (buf + (i + 1))).getD 0 = _
  rw [show buf + (i + 1) = buf + 1 + i by omega]

lemma copyFromUser_user {c : Scope} (h : UserRange c buf count) :
    copyFromUser buf count c = (.ok (userBytes c buf count), c) := by
  induction count generalizing buf with
  | zero => rfl
  | succ count ih =>
    have hfirst := h 0 (by omega)
    rw [Nat.add_zero] at hfirst
    obtain ⟨b, hb⟩ := Option.isSome_iff_exists.mp hfirst
    have hlt := userView_lt (Option.isSome_of_eq_some hb)
    obtain ⟨a, ha, hm⟩ := access_user hb
    have hrest : UserRange c (buf + 1) count := fun i hi => by
      rw [show buf + 1 + i = buf + (i + 1) by omega]
      exact h (i + 1) (by omega)
    have hwrap : wrap (buf + 1) = buf + 1 := wrap_of_lt (by omega)
    rw [userBytes_succ, hb, copyFromUser, Exec.bind_ok ha, Exec.get_bind, hwrap, hm]
    exact Exec.bind_ok (ih hrest)

@[simp] lemma userBytes_length (c : Scope) (buf count : ℕ) :
    (userBytes c buf count).length = count := by
  rw [userBytes, List.length_map, List.length_range]

/-! ### The call -/

/-- The state after a text has been written for which so many bytes were allocated. -/
def written (s : KernelState) (count : ℕ) (bytes : List Byte) : KernelState :=
  { taken s count with log := s.log ++ bytes }

lemma onScope_copy (h : UserRange s.scope buf count) {n : ℕ} :
    onScope (copyFromUser buf count) (taken s n) =
      (.ok (userBytes s.scope buf count), taken s n) := by
  have hcopy : copyFromUser buf count (taken s n).scope =
    (.ok (userBytes s.scope buf count), (taken s n).scope) := copyFromUser_user h
  rw [onScope, Exec.zoom, hcopy]

/-- With descriptor 1, the call copies the range, makes a text of it and prints that. -/
lemma call_one {a b c : ℕ} : SysWrite.call 1 buf count a b c = do
    Heap.alloc count
    let bytes ← onScope (copyFromUser buf count)
    Heap.allocAll (Utf8.fromUtf8Lossy bytes).2
    Log.print (Utf8.fromUtf8Lossy bytes).1
    return .ok count := by
  unfold SysWrite.call
  rw [if_neg (by simp)]
  simp only [SysWrite.fromUtf8Lossy, Exec.bind_assoc, Exec.pure_bind]

lemma call_user {a b c : ℕ} (hu : UserRange s.scope buf count)
    (hf : HeapFits s (userBytes s.scope buf count)) :
    ∃ n, SysWrite.call 1 buf count a b c s = (.ok (.ok count),
      written s n (Utf8.fromUtf8Lossy (userBytes s.scope buf count)).1) := by
  rw [HeapFits, userBytes_length, hasRoom_add] at hf
  obtain ⟨hcopy, htext⟩ := hf
  refine ⟨count + (Utf8.fromUtf8Lossy (userBytes s.scope buf count)).2.sum, ?_⟩
  rw [call_one, Exec.bind_ok (alloc_ok hcopy),
    Exec.bind_ok (onScope_copy hu), Exec.bind_ok (allocAll_ok htext),
    taken_taken]
  rfl

lemma call_panic {a b c : ℕ} (hu : UserRange s.scope buf count)
    (hf : ¬ HeapFits s (userBytes s.scope buf count)) :
    (SysWrite.call 1 buf count a b c s).1 = .panic := by
  rw [HeapFits, userBytes_length, hasRoom_add] at hf
  rw [call_one]
  by_cases hcopy : HasRoom s count
  · have htext := allocAll_panic fun h => hf ⟨hcopy, h⟩
    rw [Exec.bind_ok (alloc_ok hcopy), Exec.bind_ok (onScope_copy hu),
      Exec.bind_panic (Exec.eq_of_fst htext)]
  · rw [Exec.bind_panic (Exec.eq_of_fst (alloc_panic hcopy))]

/-- No range is refused. -/
lemma call_ok {a b c : ℕ} {r : Except SystemCallError ℕ}
    (h : SysWrite.call 1 buf count a b c s = (.ok r, t)) : r = .ok count ∧ HasRoom s count := by
  rw [call_one] at h
  obtain ⟨_, _, halloc, h⟩ := Exec.bind_eq_ok.mp h
  obtain ⟨bytes, _, _, h⟩ := Exec.bind_eq_ok.mp h
  obtain ⟨_, _, _, h⟩ := Exec.bind_eq_ok.mp h
  obtain ⟨_, _, _, h⟩ := Exec.bind_eq_ok.mp h
  refine ⟨(Outcome.ok.inj (congrArg Prod.fst h)).symm, ?_⟩
  by_contra hroom
  have hp := alloc_panic hroom
  rw [halloc] at hp
  cases hp

/-- The router hands the call on and returns its value as a signed number. -/
lemma write_eq : write fd buf count args =
    SysWrite.call fd buf count args.1 args.2.1 args.2.2 >>= fun
      | .ok val => pure (SystemCallRouter.toIsize val)
      | .error val => pure (-val.value : ℤ) := rfl

lemma write_other (hfd : fd ≠ 1) :
    Gives (write fd buf count args) s (-SystemCallError.badFileNumber.value) [] := by
  refine ⟨s, ?_, (List.append_nil _).symm⟩
  have hcall : SysWrite.call fd buf count args.1 args.2.1 args.2.2 s =
      (.ok (.error .badFileNumber), s) := by
    unfold SysWrite.call
    rw [if_pos hfd]
    rfl
  rw [write_eq, Exec.bind_ok hcall]
  rfl

lemma write_user (hu : UserRange s.scope buf count)
    (hf : HeapFits s (userBytes s.scope buf count)) :
    Gives (write 1 buf count args) s (SystemCallRouter.toIsize count)
      (Utf8.fromUtf8Lossy (userBytes s.scope buf count)).1 := by
  obtain ⟨n, hcall⟩ := call_user (a := args.1) (b := args.2.1) (c := args.2.2) hu hf
  refine ⟨written s n _, ?_, rfl⟩
  rw [write_eq, Exec.bind_ok hcall]
  rfl

/-- A call that returns has found room for the copy, and returns the length of the range. -/
lemma write_gives {v : ℤ} {out : List Byte} (h : Gives (write 1 buf count args) s v out) :
    v = SystemCallRouter.toIsize count ∧ HasRoom s count := by
  obtain ⟨t, hw, -⟩ := h
  rw [write_eq] at hw
  obtain ⟨r, u, hcall, hret⟩ := Exec.bind_eq_ok.mp hw
  obtain ⟨rfl, hroom⟩ := call_ok hcall
  exact ⟨(Outcome.ok.inj (congrArg Prod.fst hret)).symm, hroom⟩

lemma heapFits_of_gives {v : ℤ} {out : List Byte} (hu : UserRange s.scope buf count)
    (h : Gives (write 1 buf count args) s v out) :
    HeapFits s (userBytes s.scope buf count) := by
  by_contra hf
  obtain ⟨t, hw, -⟩ := h
  have hp := call_panic (a := args.1) (b := args.2.1) (c := args.2.2) hu hf
  rw [write_eq, Exec.bind_panic (Exec.eq_of_fst hp)] at hw
  cases hw

lemma toIsize_nonneg {n : ℕ} (h : n < 2 ^ 63) : 0 ≤ SystemCallRouter.toIsize n := by
  rw [SystemCallRouter.toIsize, BitVec.toInt_eq_toNat_of_lt] <;> rw [BitVec.toNat_ofNat] <;> omega

/-- The copy never fails, so that no range is refused. -/
lemma not_refused (hpos : 0 < count) {out : List Byte} :
    ¬ Gives (write 1 buf count args) s (-SystemCallError.badAddress.value) out := by
  intro h
  obtain ⟨hv, hroom⟩ := write_gives h
  have hle : s.allocated + count ≤ Heap.size := hroom.resolve_left (by omega)
  have hsize : Heap.size < 2 ^ 63 := by decide
  have hnonneg := toIsize_nonneg (n := count) (by omega)
  rw [← hv] at hnonneg
  exact absurd hnonneg (by decide)

lemma SameView.userRange_iff (h : SameView s s') :
    UserRange s.scope buf count ↔ UserRange s'.scope buf count := by
  simp only [UserRange, h _]

lemma SameView.userBytes_eq (h : SameView s s') :
    userBytes s.scope buf count = userBytes s'.scope buf count := by
  simp only [userBytes, h _]

/-- **Confinement of `write`**: for states that look alike to user code, the call is confined to
what user code can see exactly when it is not for the log, or when the whole range is accessible
from EL0 and both heaps have room for it. -/
theorem confined_iff (h : SameView s s') :
    Confined (write fd buf count args) fd buf count s s' ↔
      fd ≠ 1 ∨ UserRange s.scope buf count ∧ HeapFits s (userBytes s.scope buf count) ∧
        HeapFits s' (userBytes s'.scope buf count) := by
  constructor
  · intro hc
    refine or_iff_not_imp_left.mpr fun hfd => ?_
    obtain rfl : fd = 1 := not_not.mp hfd
    have hu : UserRange s.scope buf count := by
      by_contra hu
      have hpos : 0 < count := by
        by_contra hz
        exact hu fun i hi => absurd hi (by omega)
      exact not_refused hpos ((hc.refused rfl hpos).1 hu)
    obtain ⟨v, out, hs, hs'⟩ := hc.same
    exact ⟨hu, heapFits_of_gives hu hs, heapFits_of_gives (h.userRange_iff.mp hu) hs'⟩
  · rintro (hfd | ⟨hu, hf, hf'⟩)
    · exact ⟨⟨_, _, write_other hfd, write_other hfd⟩, fun hone => absurd hone hfd⟩
    · by_cases hfd : fd = 1
      · subst hfd
        have hu' := h.userRange_iff.mp hu
        refine ⟨⟨_, _, write_user hu hf, ?_⟩, fun _ _ => ⟨absurd hu, absurd hu'⟩⟩
        rw [h.userBytes_eq]
        exact write_user hu' hf'
      · exact ⟨⟨_, _, write_other hfd, write_other hfd⟩, fun hone => absurd hone hfd⟩

/-- A task whose first page is a page of memory that holds the letter A. -/
def pageState (allocated : ℕ) : KernelState :=
  let memory : ByteMemory := fun _ => 0
  let memory := memory.writeWord 0x1000 0x2003
  let memory := memory.writeWord 0x2000 0x3003
  let memory := memory.writeWord 0x3000 0x4003
  let memory := memory.writeWord 0x4000 0x5443
  ⟨⟨⟨memory.writeBytes 0x5000 [0x41], 0, 1⟩, ⟨[], 0, vaStart + 0x1000⟩⟩, allocated, [], none⟩

theorem confined_iff_page :
    Confined (write 1 0 1 (0, 0, 0)) 1 0 1 (pageState 0) (pageState 1) := by
  have hview : SameView (pageState 0) (pageState 1) := fun _ => rfl
  exact (confined_iff hview).mpr
    (.inr ⟨by decide +kernel, .inr (by decide +kernel), .inr (by decide +kernel)⟩)

/-- A task without a page, and a byte of the kernel. -/
def kernelByte (b : Byte) : KernelState :=
  ⟨⟨⟨fun x => if x = 0x5000 then b else 0, 0, 1⟩, ⟨[], 0, vaStart + 0x1000⟩⟩, 0, [], none⟩

lemma userView_kernelByte {b : Byte} (va : ℕ) : userView (kernelByte b).scope va = none := by
  have hword : ByteMemory.readWord (kernelByte b).scope.machine.memory
      (0x1000 + 8 * index va 0) = 0 := by
    have hindex : index va 0 < 2 ^ 9 := Nat.mod_lt _ (by decide)
    have hzero : ByteMemory.readWord (fun _ => 0) (0x1000 + 8 * index va 0) = 0 := by
      simp [ByteMemory.readWord]
    rw [← hzero]
    exact ByteMemory.readWord_congr fun i hi => if_neg (by omega)
  have hroot : physicalAddress (kernelByte b).scope.context.tableL0 = 0x1000 := by
    show physicalAddress (vaStart + 0x1000) = _
    rw [physicalAddress_eq_mod]
    decide
  have hwalk : Armv8.translate (kernelByte b).scope.machine.memory 0x1000 va = none := by
    unfold Armv8.translate
    split
    · simp only [walkFrom, Nat.sub_self, hword]
      rfl
    · rfl
  rw [userView, hroot, hwalk]

/-- **An unconfined call**: a task that can read nothing has a byte of the kernel written to the
log, and stops the kernel with an address that is not mapped. -/
theorem kernel_byte_written :
    SameView (kernelByte 0x41) (kernelByte 0x42) ∧
      ¬ Confined (write 1 (vaStart + 0x5000) 1 (0, 0, 0)) 1 (vaStart + 0x5000) 1
        (kernelByte 0x41) (kernelByte 0x42) ∧
      Gives (write 1 (vaStart + 0x5000) 1 (0, 0, 0)) (kernelByte 0x41) 1 [0x41] ∧
      Gives (write 1 (vaStart + 0x5000) 1 (0, 0, 0)) (kernelByte 0x42) 1 [0x42] ∧
      ¬ UserRange (kernelByte 0x41).scope 0 1 ∧
      (write 1 0 1 (0, 0, 0) (kernelByte 0x41)).1 = .panic := by
  have hview : SameView (kernelByte 0x41) (kernelByte 0x42) := fun va => by
    rw [userView_kernelByte, userView_kernelByte]
  have hnone (b : Byte) (va : ℕ) : ¬ UserRange (kernelByte b).scope va 1 := fun h => by
    have hfirst := h 0 (by decide)
    rw [userView_kernelByte] at hfirst
    cases hfirst
  refine ⟨hview, fun hc => ?_, ⟨_, Exec.eq_of_fst (by decide +kernel), by decide +kernel⟩,
    ⟨_, Exec.eq_of_fst (by decide +kernel), by decide +kernel⟩, hnone _ 0, by decide +kernel⟩
  exact not_refused (by decide) ((hc.refused rfl (by decide)).1 (hnone _ _))

end Pimento.Confinement
