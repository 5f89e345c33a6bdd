import Pimento.Exceptions
import Pimento.SystemCalls

/-!
A system call from the `svc` instruction to the one after it.

`el0_sync` saves the registers of user code, `vector_sync_el0` hands x8 and x0 to x5 to the router
and puts what it returns in the place of x0, and `load_regs` loads the registers again.
-/

namespace Pimento

open ByteMemory Aarch64 VectorTable

/-! ### The router -/

namespace SystemCallRouter

variable {handlers : List SystemCall} {indexed : List (Option SystemCall)} {num : ℕ}

/-- The system call with a number, the last one if there are several. -/
def lookup (handlers : List SystemCall) (num : ℕ) : Option SystemCall :=
  handlers.reverse.find? fun handler => handler.number = num

lemma lookup_append (handlers : List SystemCall) (handler : SystemCall) (num : ℕ) :
    lookup (handlers ++ [handler]) num =
      if handler.number = num then some handler else lookup handlers num := by
  rw [lookup, List.reverse_append, List.reverse_singleton, List.singleton_append, List.find?_cons]
  by_cases h : handler.number = num
  · simp [h]
  · simp [h, lookup]

lemma le_foldl_max (numbers : List ℕ) (a : ℕ) :
    a ≤ numbers.foldl max a ∧ ∀ n ∈ numbers, n ≤ numbers.foldl max a := by
  induction numbers generalizing a with
  | nil => exact ⟨le_rfl, fun n hn => by cases hn⟩
  | cons m numbers ih =>
    obtain ⟨hle, hall⟩ := ih (max a m)
    refine ⟨(le_max_left a m).trans hle, fun n hn => ?_⟩
    rcases List.mem_cons.mp hn with rfl | hn
    · exact (le_max_right a n).trans hle
    · exact hall n hn

/-- Put the system calls at their numbers. -/
def fill (n : ℕ) (handlers : List SystemCall) : List (Option SystemCall) :=
  handlers.foldl (fun indexed handler => indexed.set handler.number (some handler))
    (List.replicate n none)

lemma fill_append (n : ℕ) (handlers : List SystemCall) (handler : SystemCall) :
    fill n (handlers ++ [handler]) = (fill n handlers).set handler.number (some handler) := by
  rw [fill, List.foldl_append]
  rfl

lemma fill_length (n : ℕ) (handlers : List SystemCall) : (fill n handlers).length = n := by
  induction handlers using List.reverseRecOn with
  | nil => exact List.length_replicate
  | append_singleton handlers handler ih => rw [fill_append, List.length_set, ih]

lemma fill_lookup {n : ℕ} (hfit : ∀ handler ∈ handlers, handler.number < n) (num : ℕ) :
    ((fill n handlers)[num]?).getD none = lookup handlers num := by
  induction handlers using List.reverseRecOn with
  | nil =>
    change ((List.replicate n none)[num]?).getD none = none
    rw [List.getElem?_replicate]
    split <;> rfl
  | append_singleton handlers handler ih =>
    have hlt := hfit handler (by simp)
    rw [fill_append, lookup_append, List.getElem?_set, fill_length]
    by_cases h : handler.number = num
    · rw [if_pos h, if_pos h, if_pos (h ▸ hlt)]
      rfl
    · rw [if_neg h, if_neg h]
      exact ih fun handler' hin => hfit handler' (List.mem_append_left _ hin)

/-- Every number is in the list that `new` makes, and the last system call with it is there. -/
lemma new_lookup (handlers : List SystemCall) (num : ℕ) :
    (((new handlers).handlers)[num]?).getD none = lookup handlers num :=
  fill_lookup (fun _ hin => Nat.lt_succ_of_le
    ((le_foldl_max (handlers.map SystemCall.number) 0).2 _ (List.mem_map_of_mem hin))) num

/-- What is returned to user code: the value of the call, or the error number with its sign
changed. -/
def encode : Except SystemCallError ℕ → Word
  | .ok val => BitVec.ofNat 64 val
  | .error err => -BitVec.ofNat 64 err.value

/-- The answer to a system call: no other state matters than that of the call itself, or that of
the log if there is no such call. -/
def answer (handlers : List SystemCall) (num : ℕ) (args : Fin 6 → ℕ) : Exec KernelState Word :=
  match lookup handlers num with
  | some handler => do
    return encode (← handler.call (args 0) (args 1) (args 2) (args 3) (args 4) (args 5))
  | none => do
    Log.println (Log.ascii "not implemented: system call " ++ Log.ascii (toString num) ++
      Log.ascii " (0x" ++ Log.ascii (String.ofList (Nat.toDigits 16 num)) ++ Log.ascii ")")
    return encode (.error .functionNotImplemented)

lemma ofInt_toIsize (n : ℕ) : BitVec.ofInt 64 (toIsize n) = BitVec.ofNat 64 n := by
  rw [toIsize, BitVec.ofInt_toInt]

lemma ofInt_neg_natCast (n : ℕ) : BitVec.ofInt 64 (-(n : ℤ)) = -BitVec.ofNat 64 n := by
  rw [BitVec.ofInt_neg, BitVec.ofInt_natCast]

/-- The router gives the answer. -/
lemma handle_answer (handlers : List SystemCall) (num : ℕ) (args : Fin 6 → ℕ) :
    (do return BitVec.ofInt 64 (← (new handlers).handle num (args 0) (args 1) (args 2) (args 3)
      (args 4) (args 5)) : Exec KernelState Word) = answer handlers num args := by
  rw [handle, answer, new_lookup]
  cases lookup handlers num with
  | none =>
    dsimp only
    rw [Exec.bind_assoc]
    rfl
  | some handler =>
    dsimp only
    rw [Exec.bind_assoc]
    refine congrArg _ (funext fun r => ?_)
    cases r with
    | ok val =>
      change (pure (BitVec.ofInt 64 (toIsize val)) : Exec KernelState Word) = _
      rw [ofInt_toIsize]
      rfl
    | error err =>
      change (pure (BitVec.ofInt 64 (-err.value)) : Exec KernelState Word) = _
      rw [ofInt_neg_natCast]
      rfl

end SystemCallRouter

/-! ### The entry -/

namespace VectorTable

def esrEl1EcShift : ℕ := 26

def esrEl1EcMask : Word := 0b111111 <<< esrEl1EcShift

/-- `ESR_EL1_EC_SVC64`: the exception class of a system call. -/
def esrEl1EcSvc64 : Word := 0b010101

/-- The exception class. -/
def exceptionClass (esr : Word) : Word := (esr &&& esrEl1EcMask) >>> esrEl1EcShift

/-- `vector_sync_el0`, on the record that it is given. -/
def vectorSyncEl0 (router : SystemCallRouter) (regs : Registers) (esr : Word) :
    Exec KernelState Registers := do
  if exceptionClass esr = esrEl1EcSvc64 then
    let x0 ← router.handle (regs.x 8).toNat (regs.x 0).toNat (regs.x 1).toNat (regs.x 2).toNat
      (regs.x 3).toNat (regs.x 4).toNat (regs.x 5).toNat
    return { regs with x := Function.update regs.x 0 (BitVec.ofInt 64 x0) }
  else .panic

/-- The arguments of a system call: x0 to x5. -/
def arguments (x : Reg → Word) (i : Fin 6) : ℕ := (x (i.castLE (by decide))).toNat

variable {im : Image} {start stop : ℕ} {handlers : List SystemCall} {esr far w : Word} {c d : Pe}
  {k k' : KernelState} {r : Registers}

/-- The handler of a system call is given the record and ESR_EL1. -/
lemma entered_svc (im : Image) (esr far w : Word) (h : Registers.size ≤ c.core.sp.toNat) :
    Registers.read (entered im (.svc esr far w) c).core.memory
        ((entered im (.svc esr far w) c).core.x 0).toNat = saved (.svc esr far w) c ∧
      (entered im (.svc esr far w) c).core.x 1 = esr := by
  obtain ⟨hsp, hmemory, -⟩ := entered_spec im (.svc esr far w) h
  obtain ⟨-, -, hsys, -⟩ := saveRegs_spec (c := takeException im (.svc esr far w) c) h
  have hx0 : (entered im (.svc esr far w) c).core.x 0 =
      (entered im (.svc esr far w) c).core.sp := by
    rw [entered, execAll_append]
    rfl
  have hx1 : (entered im (.svc esr far w) c).core.x 1 =
      (execAll saveRegs (takeException im (.svc esr far w) c)).sys .esrEl1 := by
    rw [entered, execAll_append]
    rfl
  rw [hx0, hsp, hmemory, read_write, hx1, hsys]
  exact ⟨rfl, rfl⟩

/-- `vector_sync_el0` puts the answer in the record. -/
lemma vectorSyncEl0_svc (handlers : List SystemCall) (r : Registers)
    (h : exceptionClass esr = esrEl1EcSvc64) :
    vectorSyncEl0 (.new handlers) r esr =
      SystemCallRouter.answer handlers (r.x 8).toNat (arguments r.x) >>= fun w =>
        pure { r with x := Function.update r.x 0 w } := by
  rw [vectorSyncEl0, if_pos h, ← SystemCallRouter.handle_answer, Exec.bind_assoc]
  rfl

/-- An exception of another kind is not returned from. -/
lemma vectorSyncEl0_ok {router : SystemCallRouter} {r' : Registers}
    (h : vectorSyncEl0 router r esr k = (.ok r', k')) : exceptionClass esr = esrEl1EcSvc64 := by
  by_contra hne
  rw [vectorSyncEl0, if_neg hne] at h
  cases h

/-- **System calls**: user code that makes a system call goes on after it with the answer of the
last system call that has its x8 for a number, to its x0 to x5, in x0, and with x1 to x30, SP_EL0,
PSTATE and the kernel stack as they were. A number that no system call has is answered with an
error. -/
theorem system_call_returns (hroom : Registers.size ≤ c.core.sp.toNat)
    (hcall : vectorSyncEl0 (.new handlers)
      (.read (entered im (.svc esr far w) c).core.memory
        ((entered im (.svc esr far w) c).core.x 0).toNat)
      ((entered im (.svc esr far w) c).core.x 1) k = (.ok r, k'))
    (hw : w = r.x 0) (hran : Ran im start stop (.handled (.svc esr far w)) c d) :
    SystemCallRouter.answer handlers (c.core.x 8).toNat (arguments c.core.x) k = (.ok w, k') ∧
      Returns stop (.svc esr far w) c d := by
  refine ⟨?_, hran.sound⟩
  obtain ⟨hread, hesr⟩ := entered_svc im esr far w hroom
  rw [hread, hesr] at hcall
  rw [vectorSyncEl0_svc handlers _ (vectorSyncEl0_ok hcall)] at hcall
  obtain ⟨v, t, hanswer, hret⟩ := Exec.bind_eq_ok.mp hcall
  have hr : Outcome.ok _ = Outcome.ok r := congrArg Prod.fst hret
  obtain rfl : t = k' := congrArg Prod.snd hret
  obtain rfl : w = v := by
    rw [hw, ← Outcome.ok.inj hr]
    dsimp only
    rw [Function.update_self]
  exact hanswer

/-- The kernel before it has a clock. -/
def quietKernel : KernelState := ⟨⟨⟨fun _ => 0, 0, 1⟩, ⟨[], 0, 0⟩⟩, 0, [], none⟩

/-- A handler that writes an answer and returns at once. -/
lemma exists_answered (im : Image) (start stop : ℕ) (esr far w : Word)
    (hstart : start + Registers.size ≤ c.core.sp.toNat) (hstop : c.core.sp.toNat ≤ stop) :
    ∃ d, Ran im start stop (.handled (.svc esr far w)) c d := by
  obtain ⟨e, he⟩ : ∃ e, e = entered im (.svc esr far w) c := ⟨_, rfl⟩
  let answered := (e.setPc (e.core.x 30)).setMemory (e.core.memory.writeWord (frame c) w)
  have hmemory : answered.core.memory = e.core.memory.writeWord (frame c) w :=
    setMemory_memory (e.setPc (e.core.x 30)) _
  have hbody : Ran im start stop (.running true (frame c) (frame c + 8)) e answered := by
    refine .step (.nothing true (frame c) (frame c + 8) e) ?_
    rw [hmemory]
    exact sameOn_writeWord (.inr (by omega))
  have hresult : answered.core.memory.readWord (frame c) = w := by
    rw [hmemory, readWord_writeWord]
  subst he
  exact ⟨_, .exception hstart hstop hbody rfl rfl hresult (.nothing ..) (.nothing ..)⟩

/-- Two system calls with the number 56. -/
def twice : List SystemCall :=
  [⟨56, fun a _ _ _ _ _ => pure (.ok a)⟩, ⟨56, fun _ b _ _ _ _ => pure (.ok (b + 1))⟩]

/-- User code makes the system call 56 with 7 in x1: the second one answers. -/
theorem system_call_returns_twice : ∃ d k',
    SystemCallRouter.answer twice 56 (arguments user.core.x) quietKernel = (.ok 8, k') ∧
      Returns 0x3000 (.svc 0x56000000 0 8) user d := by
  obtain ⟨hread, hesr⟩ := entered_svc bootImage 0x56000000 0 8 (c := user) (by decide)
  have hclass : exceptionClass 0x56000000 = esrEl1EcSvc64 := by decide
  have hanswer : SystemCallRouter.answer twice (user.core.x 8).toNat (arguments user.core.x)
      quietKernel = (.ok 8, _) := rfl
  have hcall := (congrFun (vectorSyncEl0_svc twice (saved (.svc 0x56000000 0 8) user) hclass)
    quietKernel).trans (Exec.bind_ok hanswer)
  rw [← hread] at hcall
  obtain ⟨d, hd⟩ := exists_answered bootImage 0x2000 0x3000 0x56000000 0 8 (c := user)
    (by decide) (by decide)
  exact ⟨d, _, system_call_returns (by decide) (hesr.symm ▸ hcall) rfl hd⟩

end VectorTable

end Pimento
