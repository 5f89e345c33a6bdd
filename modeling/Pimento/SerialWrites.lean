import Pimento.Bcm2837Serial
import Pimento.Mutex

/-!
The serial driver writing to its transmitter.

`write` takes the lock for each byte. Several callers may write at the same time, and the
transmitter sends what it holds at any time.
-/

namespace Pimento.SerialWrites

open Runs

variable {ι : Type}

/-- The transmitter of the mini UART. -/
structure Transmitter where
  /-- What has been written to it and not been sent. -/
  holding : Option Byte
  sent : List Byte
  deriving DecidableEq, Repr

namespace Transmitter

/-- `AUX_MU_LSR_TX_EMPTY` is set. -/
def empty (t : Transmitter) : Bool := t.holding.isNone

/-- Write `AUX_MU_IO`. A byte that has not been sent is lost. -/
def writeIo (t : Transmitter) (byte : Byte) : Transmitter := { t with holding := some byte }

/-- The transmitter sends what it holds. -/
def send (t : Transmitter) : Transmitter := ⟨none, t.sent ++ t.holding.toList⟩

/-- What has been sent or will be. -/
def output (t : Transmitter) : List Byte := t.sent ++ t.holding.toList

end Transmitter

/-- Where a caller is: not in `write`, or in `write_byte` with more bytes to come. -/
inductive Caller
  | away
  | locking (byte : Byte) (rest : List Byte)
  /-- In the loop that waits for the transmitter. -/
  | waiting (byte : Byte) (rest : List Byte)
  /-- It has seen that the transmitter is empty. -/
  | ready (byte : Byte) (rest : List Byte)
  | unlocking (rest : List Byte)
  deriving DecidableEq, Repr

/-- The loop of `write` goes on. -/
def Caller.next : List Byte → Caller
  | [] => .away
  | byte :: rest => .locking byte rest

structure World (ι : Type) where
  lock : Lock
  transmitter : Transmitter
  callers : ι → Caller
  /-- What has been written to `AUX_MU_IO`, and who has written it. -/
  written : List (ι × Byte)

namespace World

def new : World ι := ⟨.new, ⟨none, []⟩, fun _ => .away, []⟩

end World

inductive Event (ι : Type)
  /-- `write` is called. -/
  | call (i : ι) (buf : List Byte)
  | advance (i : ι)
  | send
  deriving DecidableEq, Repr

variable [DecidableEq ι]

def step (w : World ι) : Event ι → Option (World ι)
  | .call i buf =>
    match w.callers i with
    | .away => some { w with callers := Function.update w.callers i (.next buf) }
    | _ => none
  | .advance i =>
    match w.callers i with
    | .away => none
    | .locking byte rest =>
      let (acquired, lock) := w.lock.exchange
      some
        { w with
          lock
          callers := Function.update w.callers i
            (if acquired then .waiting byte rest else .locking byte rest) }
    | .waiting byte rest =>
      some
        { w with
          callers := Function.update w.callers i
            (if w.transmitter.empty then .ready byte rest else .waiting byte rest) }
    | .ready byte rest =>
      some
        { w with
          transmitter := w.transmitter.writeIo byte
          callers := Function.update w.callers i (.unlocking rest)
          written := w.written ++ [(i, byte)] }
    | .unlocking rest =>
      some
        { w with
          lock := w.lock.unlock
          callers := Function.update w.callers i (.next rest) }
  | .send => some { w with transmitter := w.transmitter.send }

/-- What a caller has asked for, in order. -/
def asked (i : ι) (es : List (Event ι)) : List Byte :=
  es.flatMap fun
    | .call j buf => if j = i then buf else []
    | _ => []

/-- What a caller has written, in order. -/
def writtenBy (i : ι) (log : List (ι × Byte)) : List Byte :=
  log.filterMap fun c => if c.1 = i then some c.2 else none

namespace Caller

/-- What is left to be written. -/
def pending : Caller → List Byte
  | away => []
  | locking byte rest | waiting byte rest | ready byte rest => byte :: rest
  | unlocking rest => rest

/-- The caller has the lock. -/
def Holds : Caller → Prop
  | waiting _ _ | ready _ _ | unlocking _ => True
  | _ => False

/-- The caller is about to write to the transmitter. -/
def IsReady : Caller → Prop
  | ready _ _ => True
  | _ => False

lemma pending_next (buf : List Byte) : (next buf).pending = buf := by cases buf <;> rfl

lemma not_holds_next (buf : List Byte) : ¬ (next buf).Holds := by cases buf <;> exact id

lemma IsReady.holds {c : Caller} (h : c.IsReady) : c.Holds := by
  cases c <;> trivial

end Caller

/-- What comes out is what has been written, and every caller's bytes come in its own order, those
before what it has not yet written. -/
structure Shuffled (es : List (Event ι)) (w : World ι) : Prop where
  output : w.transmitter.output = w.written.map Prod.snd
  callers : ∀ i, asked i es = writtenBy i w.written ++ (w.callers i).pending

/-- The lock is held by the caller that is in its section, and the transmitter is empty when it is
about to be written to. -/
structure Inv (w : World ι) : Prop where
  output : w.transmitter.output = w.written.map Prod.snd
  locked : ∀ i, (w.callers i).Holds → w.lock.locked = true
  only : ∀ i j, (w.callers i).Holds → (w.callers j).Holds → i = j
  ready : ∀ i, (w.callers i).IsReady → w.transmitter.holding = none

variable {w w' : World ι} {i j : ι} {e : Event ι} {es : List (Event ι)} {c : Caller}
  {byte : Byte} {rest : List Byte}

/-! ### One caller at a time -/

/-- A turn of a loop, the lock, the write to the transmitter or the release. -/
lemma step_advance (h : step w (.advance i) = some w') :
    (∃ c : Caller, c.pending = (w.callers i).pending ∧ (c.Holds → (w.callers i).Holds) ∧
      (c.IsReady → w.transmitter.holding = none) ∧
      w' = { w with callers := Function.update w.callers i c }) ∨
    (∃ byte rest, w.callers i = .locking byte rest ∧ w.lock.locked = false ∧
      w' = { w with
        lock := ⟨true⟩
        callers := Function.update w.callers i (.waiting byte rest) }) ∨
    (∃ byte rest, w.callers i = .ready byte rest ∧
      w' = { w with
        transmitter := w.transmitter.writeIo byte
        callers := Function.update w.callers i (.unlocking rest)
        written := w.written ++ [(i, byte)] }) ∨
    ∃ rest, w.callers i = .unlocking rest ∧
      w' = { w with
        lock := w.lock.unlock
        callers := Function.update w.callers i (.next rest) } := by
  rw [step] at h
  split at h
  · cases h
  · rename_i byte rest hi
    cases hl : w.lock.locked with
    | false =>
      rw [Lock.exchange_free hl] at h
      exact .inr (.inl ⟨byte, rest, hi, rfl, (Option.some.inj h).symm⟩)
    | true =>
      rw [Lock.exchange_taken hl] at h
      exact .inl ⟨.locking byte rest, by rw [hi], False.elim, False.elim,
        (Option.some.inj h).symm⟩
  · rename_i byte rest hi
    refine .inl ⟨_, ?_, fun _ => by rw [hi]; trivial, fun hc => ?_, (Option.some.inj h).symm⟩
    · rw [hi]
      split <;> rfl
    · by_cases hempty : w.transmitter.empty = true
      · exact Option.isNone_iff_eq_none.mp hempty
      · rw [if_neg hempty] at hc
        exact hc.elim
  · rename_i byte rest hi
    exact .inr (.inr (.inl ⟨byte, rest, hi, (Option.some.inj h).symm⟩))
  · rename_i rest hi
    exact .inr (.inr (.inr ⟨rest, hi, (Option.some.inj h).symm⟩))

/-- What another caller is doing, or what the one that has gone on is doing now. -/
lemma update_cases (P : Caller → Prop) (h : P (Function.update w.callers i c j)) :
    (j = i ∧ P c) ∨ (j ≠ i ∧ P (w.callers j)) := by
  by_cases hj : j = i
  · rw [hj, Function.update_self] at h
    exact .inl ⟨hj, h⟩
  · rw [Function.update_of_ne hj] at h
    exact .inr ⟨hj, h⟩

/-- A caller goes on in its section, or out of it. -/
lemma Inv.goOn (h : Inv w) (hholds : c.Holds → (w.callers i).Holds)
    (hready : c.IsReady → w.transmitter.holding = none) :
    Inv { w with callers := Function.update w.callers i c } := by
  have hold : ∀ j, (Function.update w.callers i c j).Holds → (w.callers j).Holds := fun j hj => by
    rcases update_cases Caller.Holds hj with ⟨rfl, hc⟩ | ⟨-, hj⟩
    · exact hholds hc
    · exact hj
  refine ⟨h.output, fun j hj => h.locked j (hold j hj),
    fun j k hj hk => h.only j k (hold j hj) (hold k hk), fun j hj => ?_⟩
  rcases update_cases Caller.IsReady hj with ⟨-, hc⟩ | ⟨-, hj⟩
  · exact hready hc
  · exact h.ready j hj

/-- The lock was free. -/
lemma Inv.acquire (h : Inv w) (hl : w.lock.locked = false) :
    Inv { w with
      lock := ⟨true⟩
      callers := Function.update w.callers i (.waiting byte rest) } := by
  have hnone : ∀ j, ¬ (w.callers j).Holds := fun j hj => by
    rw [h.locked j hj] at hl
    cases hl
  refine ⟨h.output, fun _ _ => rfl, fun j k hj hk => ?_, fun j hj => ?_⟩
  · rcases update_cases Caller.Holds hj with ⟨rfl, -⟩ | ⟨-, hj⟩
    · rcases update_cases Caller.Holds hk with ⟨rfl, -⟩ | ⟨-, hk⟩
      · rfl
      · exact absurd hk (hnone k)
    · exact absurd hj (hnone j)
  · rcases update_cases Caller.IsReady hj with ⟨-, hc⟩ | ⟨-, hj⟩
    · exact hc.elim
    · exact absurd hj.holds (hnone j)

/-- The transmitter was empty. -/
lemma Inv.put (h : Inv w) (hi : w.callers i = .ready byte rest) :
    Inv { w with
      transmitter := w.transmitter.writeIo byte
      callers := Function.update w.callers i (.unlocking rest)
      written := w.written ++ [(i, byte)] } := by
  have hempty := h.ready i (by rw [hi]; trivial)
  have hholds : (w.callers i).Holds := by rw [hi]; trivial
  have hold : ∀ j, (Function.update w.callers i (.unlocking rest) j).Holds →
      (w.callers j).Holds := fun j hj => by
    rcases update_cases Caller.Holds hj with ⟨rfl, -⟩ | ⟨-, hj⟩
    · exact hholds
    · exact hj
  refine ⟨?_, fun j hj => h.locked j (hold j hj),
    fun j k hj hk => h.only j k (hold j hj) (hold k hk), fun j hj => ?_⟩
  · have hsent : w.transmitter.sent = w.written.map Prod.snd := by
      rw [← h.output, Transmitter.output, hempty, Option.toList_none, List.append_nil]
    rw [List.map_append, ← hsent]
    rfl
  · rcases update_cases Caller.IsReady hj with ⟨-, hc⟩ | ⟨hne, hj⟩
    · exact hc.elim
    · exact absurd (h.only j i hj.holds hholds) hne

/-- Nobody else is in its section. -/
lemma Inv.release (h : Inv w) (hi : w.callers i = .unlocking rest) :
    Inv { w with
      lock := w.lock.unlock
      callers := Function.update w.callers i (.next rest) } := by
  have hholds : (w.callers i).Holds := by rw [hi]; trivial
  have hnone : ∀ j, ¬ (Function.update w.callers i (.next rest) j).Holds := fun j hj => by
    rcases update_cases Caller.Holds hj with ⟨-, hc⟩ | ⟨hne, hj⟩
    · exact Caller.not_holds_next rest hc
    · exact hne (h.only j i hj hholds)
  exact ⟨h.output, fun j hj => absurd hj (hnone j), fun j _ hj _ => absurd hj (hnone j),
    fun j hj => absurd hj.holds (hnone j)⟩

omit [DecidableEq ι] in
lemma Inv.send (h : Inv w) : Inv { w with transmitter := w.transmitter.send } :=
  ⟨(List.append_nil _).trans h.output, h.locked, h.only, fun _ _ => rfl⟩

lemma Inv.step (h : Inv w) (hs : step w e = some w') : Inv w' := by
  cases e with
  | call i buf =>
    rw [SerialWrites.step] at hs
    split at hs
    · obtain rfl := Option.some.inj hs
      exact h.goOn (fun hc => absurd hc (Caller.not_holds_next buf))
        fun hc => absurd hc.holds (Caller.not_holds_next buf)
    · cases hs
  | send =>
    obtain rfl := Option.some.inj hs
    exact h.send
  | advance i =>
    rcases step_advance hs with ⟨c, -, hholds, hready, rfl⟩ | ⟨byte, rest, -, hl, rfl⟩ |
      ⟨byte, rest, hi, rfl⟩ | ⟨rest, hi, rfl⟩
    · exact h.goOn hholds hready
    · exact h.acquire hl
    · exact h.put hi
    · exact h.release hi

/-! ### What is written for whom -/

lemma asked_snoc (j : ι) (es : List (Event ι)) (e : Event ι) :
    asked j (es ++ [e]) = asked j es ++ asked j [e] := List.flatMap_append

lemma writtenBy_snoc (j : ι) (log : List (ι × Byte)) (c : ι × Byte) :
    writtenBy j (log ++ [c]) = writtenBy j log ++ writtenBy j [c] := List.filterMap_append

/-- A caller goes on with as much to write as before. -/
lemma pending_update (h : c.pending = (w.callers i).pending) (j : ι) :
    (Function.update w.callers i c j).pending = (w.callers j).pending := by
  by_cases hj : j = i
  · rw [hj, Function.update_self, h]
  · rw [Function.update_of_ne hj]

lemma callers_step (h : ∀ j, asked j es = writtenBy j w.written ++ (w.callers j).pending)
    (hs : step w e = some w') (j : ι) :
    asked j (es ++ [e]) = writtenBy j w'.written ++ (w'.callers j).pending := by
  rw [asked_snoc, h j, List.append_assoc]
  cases e with
  | send =>
    obtain rfl := Option.some.inj hs
    exact congrArg _ (List.append_nil _)
  | call i buf =>
    rw [step] at hs
    split at hs
    · rename_i hi
      obtain rfl := Option.some.inj hs
      refine congrArg _ ?_
      by_cases hj : i = j
      · subst hj
        dsimp only
        rw [Function.update_self, Caller.pending_next, hi]
        simp [asked, Caller.pending]
      · simp [asked, hj, Function.update_of_ne (Ne.symm hj)]
    · cases hs
  | advance i =>
    have hnone : asked j [Event.advance i] = [] := rfl
    rw [hnone, List.append_nil]
    rcases step_advance hs with ⟨c, hpending, -, -, rfl⟩ | ⟨byte, rest, hi, -, rfl⟩ |
      ⟨byte, rest, hi, rfl⟩ | ⟨rest, hi, rfl⟩
    · exact congrArg _ (pending_update hpending j).symm
    · refine congrArg _ (pending_update ?_ j).symm
      rw [hi]
      rfl
    · dsimp only
      rw [writtenBy_snoc, List.append_assoc]
      refine congrArg _ ?_
      by_cases hj : i = j
      · subst hj
        simp [writtenBy, hi, Caller.pending]
      · simp [writtenBy, hj, Function.update_of_ne (Ne.symm hj)]
    · refine congrArg _ (pending_update ?_ j).symm
      rw [hi, Caller.pending_next]
      rfl

/-- **Shuffled writes**: whoever writes and however their accesses and the transmitter's sending
interleave, no byte is lost or written twice: what comes out is what the callers have asked for,
with the bytes of each of them in its own order. -/
theorem writes_shuffled (hrun : Run step (World.new : World ι) es w) : Shuffled es w where
  output := by
    have hi : Inv w := hrun.invariant (fun _ _ _ h hs => h.step hs)
      ⟨rfl, fun _ => False.elim, fun _ _ => False.elim, fun _ => False.elim⟩
    exact hi.output
  callers := hrun.invariant_log
    (I := fun es w => ∀ j, asked j es = writtenBy j w.written ++ (w.callers j).pending)
    (fun _ _ _ _ h hs => callers_step h hs) fun _ => rfl

/-- Two callers write two bytes each. The second one takes the lock between the bytes of the first
one and waits for the transmitter. -/
def alternating : List (Event ℕ) :=
  [.call 0 [104, 105], .call 1 [72, 73]] ++ List.replicate 4 (.advance 0) ++
    List.replicate 3 (.advance 1) ++ [.send] ++ List.replicate 3 (.advance 1) ++
    [.advance 0, .send] ++ List.replicate 3 (.advance 0)

theorem writes_shuffled_alternating :
    (reach step World.new alternating).transmitter.output = [104, 72, 105] ∧
      Shuffled alternating (reach step World.new alternating) := by
  refine ⟨by decide +kernel, ?_⟩
  exact writes_shuffled (run_reach (by decide +kernel))

end Pimento.SerialWrites
