import Mathlib.Data.List.Nodup
import Pimento.OnceLock

/-!
A cell that is written once, over any interleaving of the calls on it.

The history of the cell splits at the one closure that runs. Before it there are only calls of
`get` that find nothing; after it every call is told the value of the closure.
-/

namespace Pimento.WriteOnce

open OnceLock Runs

variable {T E : Type}

/-- A call of `get` returns nothing. -/
def Before : Entry T → Prop
  | .returned _ (.get none) => True
  | _ => False

/-- A call returns what the closure of the call `k` has stored; `set` succeeds for the call
whose value that is, and hands its value back to any other. -/
def After (k : ℕ) (v : T) : Entry T → Prop
  | .returned _ (.get r) => r = some (some v)
  | .returned _ (.getOrInit r) => r = some v
  | .returned id (.set u r) => id = k ∧ u = v ∧ r = .ok () ∨ id ≠ k ∧ r = .error u
  | _ => False

/-- The history of a cell that has been written to at most once. -/
inductive Splits : List (Entry T) → Prop
  | empty {h : List (Entry T)} (before : ∀ e ∈ h, Before e) : Splits h
  | filled {h₁ h₂ : List (Entry T)} {k : ℕ} {v : T} (before : ∀ e ∈ h₁, Before e)
      (after : ∀ e ∈ h₂, After k v e) : Splits (h₁ ++ .ran k v :: h₂)

/-- A call of `set` returns `Ok`. -/
def isOk : Entry T → Bool
  | .returned _ (.set _ (.ok ())) => true
  | _ => false

/-- The call that returns. -/
def returnedBy : Entry T → Option ℕ
  | .returned id _ => some id
  | _ => none

variable {w w' : World T E} {h : List (Entry T)} {k id : ℕ} {v : T} {c : Caller T E}
  {s : OnceScope T E}

/-! ### The sections of a call -/

/-- A section that finds the cell filled leaves it. -/
lemma callOnce_filled {f : Exec (OnceScope T E) Unit} (h : s.cell.once.completed = true) :
    Once.callOnce f s = (.ok (), s) := by
  rw [Once.callOnce, Exec.get_bind, if_neg (by simp [h])]
  rfl

/-- A section that finds the cell empty fills it. -/
lemma initSection_empty {f : Exec (OnceScope T E) T} {t : OnceScope T E}
    (h : s.cell.once.completed = false) (hf : f s = (.ok v, t)) :
    initSection f s = (.ok (), { t with cell := ⟨⟨true⟩, some v⟩, ran := t.ran ++ [v] }) := by
  rw [initSection, Once.callOnce, Exec.get_bind, if_pos h, Exec.bind_assoc, Exec.bind_ok hf]
  rfl

/-! ### The states of the cell -/

/-- A call that has not come to its section has its variable. -/
def Waiting (c : Caller T E) : Prop := c.value = c.op.captured

/-- Nothing has been written. -/
structure Empty (w : World T E) : Prop where
  cell : w.cell = OnceLock.new
  before : ∀ e ∈ w.history, Before e
  callers : ∀ {id c}, w.callers id = some c → c.phase ≠ .initialized ∧
    (c.phase = .start → Waiting c)

/-- What a call that has found the cell initialized has in its variable: the closure of the call
`k` has taken its value. -/
def Found (k : ℕ) (v : T) (id : ℕ) (c : Caller T E) : Prop :=
  if id = k then c.value = none ∧ ∀ u, c.op = .set u → u = v else Waiting c

/-- The closure of the call `k` has written a value. -/
structure Filled (w : World T E) (k : ℕ) (v : T) : Prop where
  cell : w.cell = ⟨⟨true⟩, some v⟩
  history : ∃ h₁ h₂, w.history = h₁ ++ .ran k v :: h₂ ∧ (∀ e ∈ h₁, Before e) ∧ ∀ e ∈ h₂, After k v e
  writer : ∃ c, w.callers k = some c ∧ c.phase ≠ .start
  callers : ∀ {id c}, w.callers id = some c → (c.phase = .start → Waiting c) ∧
    (c.phase = .initialized → Found k v id c)

/-- A call that has returned is done, and has returned once. -/
structure ReturnsOnce (w : World T E) : Prop where
  nodup : (w.history.filterMap returnedBy).Nodup
  done : ∀ id ∈ w.history.filterMap returnedBy, ∃ c, w.callers id = some c ∧ c.phase = .done

lemma empty_new (env : E) : Empty (World.new env : World T E) :=
  ⟨rfl, by simp [World.new], by simp [World.new]⟩

lemma returnsOnce_new (env : E) : ReturnsOnce (World.new env : World T E) :=
  ⟨List.nodup_nil, by simp [World.new]⟩

/-! ### One step -/

@[simp] lemma put_history {rs : List (Reply T)} :
    (w.put id c s rs).history = w.history ++ s.ran.map (.ran id) ++ rs.map (.returned id) := rfl

/-- A caller after a step is the one that moved, or an old one. -/
lemma update_cases {callers : ℕ → Option (Caller T E)} {id' : ℕ} {c' : Caller T E}
    (h : Function.update callers id (some c) id' = some c') :
    id' = id ∧ c' = c ∨ id' ≠ id ∧ callers id' = some c' := by
  by_cases hid : id' = id
  · rw [hid, Function.update_self] at h
    exact .inl ⟨hid, (Option.some.inj h).symm⟩
  · rw [Function.update_of_ne hid] at h
    exact .inr ⟨hid, h⟩

lemma step_call {op : Op T E} (h : step w (.call id op) = some w') :
    w.callers id = none ∧
      w' = { w with callers := Function.update w.callers id (some ⟨op, op.captured, .start⟩) } := by
  rcases hc : w.callers id with _ | c <;> simp only [step, hc] at h
  · exact ⟨rfl, (Option.some.inj h).symm⟩
  · cases h

/-- A call that has begun. -/
lemma Empty.call {op : Op T E} (h : Empty w) :
    Empty { w with callers := Function.update w.callers id (some ⟨op, op.captured, .start⟩) } where
  cell := h.cell
  before := h.before
  callers hc := by
    rcases update_cases hc with ⟨-, rfl⟩ | ⟨-, hold⟩
    · exact ⟨by simp, fun _ => rfl⟩
    · exact h.callers hold

lemma Filled.call {op : Op T E} (h : Filled w k v) (hnew : w.callers id = none) :
    Filled { w with callers := Function.update w.callers id (some ⟨op, op.captured, .start⟩) }
      k v where
  cell := h.cell
  history := h.history
  writer := by
    obtain ⟨c, hc, hphase⟩ := h.writer
    have hne : k ≠ id := by
      rintro rfl
      rw [hnew] at hc
      cases hc
    exact ⟨c, by rw [← hc]; exact Function.update_of_ne hne _ _, hphase⟩
  callers hc := by
    rcases update_cases hc with ⟨-, rfl⟩ | ⟨-, hold⟩
    · exact ⟨fun _ => rfl, by simp⟩
    · exact h.callers hold

/-- The section of a call that finds the cell empty: `get` returns nothing, and any other call
writes the value of its closure. -/
lemma advance_start_empty (h : Empty w) (hc : w.callers id = some c) (hp : c.phase = .start) :
    (∃ s, s.cell = w.cell ∧ s.ran = [] ∧
        advance w id c = some (w.put id { c with phase := .done } s [.get none])) ∨
      ∃ s v, s.cell = ⟨⟨true⟩, some v⟩ ∧ s.ran = [v] ∧ Found id v id { c with value := s.value } ∧
        advance w id c = some (w.put id { c with phase := .initialized } s []) := by
  have hcell : w.cell.once.completed = false := by
    rw [h.cell]
    rfl
  have hvalue : c.value = c.op.captured := (h.callers hc).2 hp
  obtain ⟨op, value, phase⟩ := c
  obtain rfl : phase = .start := hp
  obtain rfl : value = op.captured := hvalue
  cases op with
  | get =>
    refine .inl ⟨⟨w.cell, w.env, none, []⟩, rfl, rfl, ?_⟩
    simp [advance, lockedSection, Once.isCompleted, hcell, Op.captured]
  | getOrInit f =>
    have hsec := initSection_empty (f := callerClosure f) (s := ⟨w.cell, w.env, none, []⟩) hcell rfl
    refine .inr ⟨⟨⟨⟨true⟩, some (f w.env).1⟩, (f w.env).2, none, [(f w.env).1]⟩, (f w.env).1, rfl,
      rfl, ?_, ?_⟩
    · rw [Found, if_pos rfl]
      exact ⟨rfl, by simp⟩
    · simp only [advance, lockedSection, Op.captured]
      rw [Exec.bind_ok hsec]
      rfl
  | set u =>
    have hsec := initSection_empty (f := takeValue) (s := ⟨w.cell, w.env, some u, []⟩) hcell rfl
    refine .inr ⟨⟨⟨⟨true⟩, some u⟩, w.env, none, [u]⟩, u, rfl, rfl, ?_, ?_⟩
    · rw [Found, if_pos rfl]
      exact ⟨rfl, fun u' hu => by cases hu; rfl⟩
    · simp only [advance, lockedSection, Op.captured]
      rw [Exec.bind_ok hsec]
      rfl

/-- The section of a call that finds the cell filled writes nothing. -/
lemma advance_start_filled (h : Filled w k v) (hp : c.phase = .start) :
    advance w id c =
      some (w.put id { c with phase := .initialized } ⟨w.cell, w.env, c.value, []⟩ []) := by
  have hcell : w.cell.once.completed = true := by rw [h.cell]
  have hskip : ∀ f, initSection f ⟨w.cell, w.env, c.value, []⟩ =
      (.ok (), (⟨w.cell, w.env, c.value, []⟩ : OnceScope T E)) := fun f => callOnce_filled hcell
  obtain ⟨op, value, phase⟩ := c
  obtain rfl : phase = .start := hp
  cases op with
  | get => simp [advance, lockedSection, Once.isCompleted, hcell]
  | getOrInit f =>
    simp only [advance, lockedSection]
    rw [Exec.bind_ok (hskip _)]
    rfl
  | set u =>
    simp only [advance, lockedSection]
    rw [Exec.bind_ok (hskip _)]
    rfl

/-- A call that has found the cell initialized returns its value. -/
lemma advance_initialized (h : Filled w k v) (hc : w.callers id = some c)
    (hp : c.phase = .initialized) :
    ∃ r, After k v (.returned id r) ∧
      advance w id c = some
        (w.put id { c with phase := .done } ⟨w.cell, w.env, c.value, []⟩ [r]) := by
  have hdata : w.cell.data = some v := by rw [h.cell]
  have hfound := (h.callers hc).2 hp
  obtain ⟨op, value, phase⟩ := c
  obtain rfl : phase = .initialized := hp
  cases op with
  | get => exact ⟨.get (some (some v)), rfl, by simp [advance, reply, assumeInitRef, hdata]⟩
  | getOrInit f => exact ⟨.getOrInit (some v), rfl, by simp [advance, reply, assumeInitRef, hdata]⟩
  | set u =>
    unfold Found at hfound
    split at hfound
    · rename_i hid
      obtain ⟨rfl, hu⟩ := hfound
      refine ⟨.set u (.ok ()), .inl ⟨hid, hu u rfl, rfl⟩, ?_⟩
      simp [advance, reply, assumeInitRef]
    · rename_i hid
      obtain rfl : value = some u := hfound
      refine ⟨.set u (.error u), .inr ⟨hid, rfl⟩, ?_⟩
      simp [advance, reply, assumeInitRef]

/-- A step of a call on an empty cell leaves it empty or fills it. -/
lemma Empty.advance (h : Empty w) (hc : w.callers id = some c) (hstep : advance w id c = some w') :
    Empty w' ∨ ∃ k v, Filled w' k v := by
  rcases hp : c.phase with _ | _ | _
  · rcases advance_start_empty h hc hp with ⟨s, hcell, hran, hput⟩ |
      ⟨s, v, hcell, hran, hfound, hput⟩
    · rw [hput] at hstep
      obtain rfl := Option.some.inj hstep
      refine .inl ⟨hcell.trans h.cell, fun e he => ?_, fun hc' => ?_⟩
      · rw [put_history, hran] at he
        rcases List.mem_append.mp he with hold | hnew
        · exact h.before e (by simpa using hold)
        · rw [List.mem_singleton.mp hnew]
          trivial
      · rcases update_cases hc' with ⟨-, rfl⟩ | ⟨-, hold⟩
        · exact ⟨by simp, by simp⟩
        · exact h.callers hold
    · rw [hput] at hstep
      obtain rfl := Option.some.inj hstep
      refine .inr ⟨id, v, hcell, ⟨w.history, [], ?_, h.before, by simp⟩, ?_, fun hc' => ?_⟩
      · rw [put_history, hran]
        simp
      · exact ⟨_, Function.update_self _ _ _, by simp⟩
      · rcases update_cases hc' with ⟨rfl, rfl⟩ | ⟨-, hold⟩
        · exact ⟨by simp, fun _ => hfound⟩
        · exact ⟨(h.callers hold).2, fun hi => absurd hi (h.callers hold).1⟩
  · exact absurd hp (h.callers hc).1
  · rw [OnceLock.advance, hp] at hstep
    cases hstep

/-- A step of a call on a filled cell leaves it as it is. -/
lemma Filled.advance (h : Filled w k v) (hc : w.callers id = some c)
    (hstep : advance w id c = some w') : Filled w' k v := by
  obtain ⟨h₁, h₂, hsplit, hbefore, hafter⟩ := h.history
  have hwriter : ∀ c', c'.phase ≠ .start →
      ∃ c'', Function.update w.callers id (some c') k = some c'' ∧ c''.phase ≠ .start := by
    intro c' hne
    by_cases hk : k = id
    · exact ⟨c', by rw [hk, Function.update_self], hne⟩
    · obtain ⟨c'', hold, hphase⟩ := h.writer
      exact ⟨c'', by rw [Function.update_of_ne hk, hold], hphase⟩
  rcases hp : c.phase with _ | _ | _
  · rw [advance_start_filled h hp] at hstep
    obtain rfl := Option.some.inj hstep
    refine ⟨h.cell, ⟨h₁, h₂, by simpa using hsplit, hbefore, hafter⟩, hwriter _ (by simp),
      fun hc' => ?_⟩
    rcases update_cases hc' with ⟨rfl, rfl⟩ | ⟨-, hold⟩
    · refine ⟨by simp, fun _ => ?_⟩
      have hid : _ ≠ k := fun hid => by
        obtain ⟨c'', hold, hphase⟩ := h.writer
        rw [← hid, hc] at hold
        cases hold
        exact hphase hp
      rw [Found, if_neg hid]
      exact (h.callers hc).1 hp
    · exact h.callers hold
  · obtain ⟨r, hr, hput⟩ := advance_initialized h hc hp
    rw [hput] at hstep
    obtain rfl := Option.some.inj hstep
    refine ⟨h.cell, ⟨h₁, h₂ ++ [.returned id r], by simp [hsplit], hbefore, fun e he => ?_⟩,
      hwriter _ (by simp), fun hc' => ?_⟩
    · rcases List.mem_append.mp he with hold | hnew
      · exact hafter e hold
      · rw [List.mem_singleton.mp hnew]
        exact hr
    · rcases update_cases hc' with ⟨rfl, rfl⟩ | ⟨-, hold⟩
      · exact ⟨by simp, by simp⟩
      · exact h.callers hold
  · rw [OnceLock.advance, hp] at hstep
    cases hstep

/-! ### Runs -/

lemma returnedBy_ran (vs : List T) : (vs.map (Entry.ran id)).filterMap returnedBy = [] := by
  induction vs with
  | nil => rfl
  | cons v vs ih => exact ih

/-- A step of a call returns at most once, and only from a call that is not done. -/
lemma advance_returns (h : OnceLock.advance w id c = some w') :
    ∃ c' es, c.phase ≠ .done ∧ w'.callers = Function.update w.callers id (some c') ∧
      w'.history = w.history ++ es ∧
      (es.filterMap returnedBy = [] ∨ es.filterMap returnedBy = [id] ∧ c'.phase = .done) := by
  unfold OnceLock.advance at h
  rcases hp : c.phase with _ | _ | _ <;> simp only [hp] at h
  · rcases hsec : lockedSection c.op ⟨w.cell, w.env, c.value, []⟩ with
      ⟨(_ | _) | _ | _ | _, s⟩ <;> rw [hsec] at h <;> obtain rfl := Option.some.inj h
    · exact ⟨_, s.ran.map (.ran id) ++ [.returned id (.get none)], by simp, rfl, by simp,
        .inr ⟨by simp [returnedBy], rfl⟩⟩
    · exact ⟨_, s.ran.map (.ran id), by simp, rfl, by simp, .inl (returnedBy_ran _)⟩
    all_goals exact ⟨_, s.ran.map (.ran id) ++ [.panicked id], by simp, rfl, by simp,
      .inl (by simp [returnedBy])⟩
  · rcases hrep : reply c.value c.op ⟨w.cell, w.env, c.value, []⟩ with ⟨r | _ | _ | _, s⟩ <;>
      rw [hrep] at h <;> obtain rfl := Option.some.inj h
    · exact ⟨_, s.ran.map (.ran id) ++ [.returned id r], by simp, rfl, by simp,
        .inr ⟨by simp [returnedBy], rfl⟩⟩
    all_goals exact ⟨_, s.ran.map (.ran id) ++ [.panicked id], by simp, rfl, by simp,
      .inl (by simp [returnedBy])⟩
  · cases h

lemma ReturnsOnce.step {e : Event T E} (h : ReturnsOnce w) (hstep : step w e = some w') :
    ReturnsOnce w' := by
  cases e with
  | call id op =>
    obtain ⟨hnew, rfl⟩ := step_call hstep
    refine ⟨h.nodup, fun id' hid' => ?_⟩
    obtain ⟨c, hc, hp⟩ := h.done id' hid'
    have hne : id' ≠ id := by
      rintro rfl
      rw [hnew] at hc
      cases hc
    exact ⟨c, by rw [← hc]; exact Function.update_of_ne hne _ _, hp⟩
  | advance id =>
    obtain ⟨c, hc, hadv⟩ := Option.bind_eq_some_iff.mp hstep
    obtain ⟨c', es, hp, hcallers, hhist, hes⟩ := advance_returns hadv
    have hnot : id ∉ w.history.filterMap returnedBy := fun hid => by
      obtain ⟨c'', hc'', hdone⟩ := h.done id hid
      rw [hc] at hc''
      cases hc''
      exact hp hdone
    have hold : ∀ id' ∈ w.history.filterMap returnedBy,
        ∃ c, w'.callers id' = some c ∧ c.phase = .done := fun id' hid' => by
      obtain ⟨c'', hc'', hdone⟩ := h.done id' hid'
      have hne : id' ≠ id := fun he => hnot (he ▸ hid')
      exact ⟨c'', by rw [hcallers, Function.update_of_ne hne, hc''], hdone⟩
    rcases hes with hnone | ⟨hone, hdone⟩
    · refine ⟨?_, ?_⟩ <;> rw [hhist, List.filterMap_append, hnone, List.append_nil]
      · exact h.nodup
      · exact hold
    · refine ⟨?_, ?_⟩ <;> rw [hhist, List.filterMap_append, hone]
      · exact List.nodup_append.mpr ⟨h.nodup, List.nodup_singleton id, fun a ha b hb => by
          rw [List.mem_singleton.mp hb]
          exact fun he => hnot (he ▸ ha)⟩
      · intro id' hid'
        rcases List.mem_append.mp hid' with hin | hnew
        · exact hold id' hin
        · rw [List.mem_singleton.mp hnew, hcallers]
          exact ⟨c', Function.update_self _ _ _, hdone⟩
  | environment env =>
    obtain rfl := Option.some.inj hstep
    exact ⟨h.nodup, h.done⟩

/-- The states that a run leads to. -/
lemma state_step {e : Event T E} (h : Empty w ∨ ∃ k v, Filled w k v) (hstep : step w e = some w') :
    Empty w' ∨ ∃ k v, Filled w' k v := by
  cases e with
  | call id op =>
    obtain ⟨hnew, rfl⟩ := step_call hstep
    rcases h with h | ⟨k, v, h⟩
    · exact .inl h.call
    · exact .inr ⟨k, v, h.call hnew⟩
  | advance id =>
    obtain ⟨c, hc, hadv⟩ := Option.bind_eq_some_iff.mp hstep
    rcases h with h | ⟨k, v, h⟩
    · exact h.advance hc hadv
    · exact .inr ⟨k, v, h.advance hc hadv⟩
  | environment env =>
    obtain rfl := Option.some.inj hstep
    rcases h with h | ⟨k, v, h⟩
    · exact .inl ⟨h.cell, h.before, h.callers⟩
    · exact .inr ⟨k, v, h.cell, h.history, h.writer, h.callers⟩

/-- The calls that return are at least as many as those for which a call of `set` does. -/
lemma countP_isOk_le {h : List (Entry T)} (hk : ∀ e ∈ h, isOk e = true → returnedBy e = some k) :
    h.countP isOk ≤ (h.filterMap returnedBy).count k := by
  induction h with
  | nil => exact Nat.le_refl 0
  | cons e h ih =>
    have hrest := ih fun e' he' => hk e' (List.mem_cons_of_mem e he')
    rw [List.countP_cons, List.filterMap_cons]
    by_cases hok : isOk e = true
    · rw [if_pos hok, hk e (List.mem_cons_self ..) hok]
      simpa using hrest
    · rw [if_neg hok]
      rcases returnedBy e with _ | id
      · exact hrest
      · exact Nat.le_trans hrest (List.count_le_count_cons ..)

lemma not_isOk_of_before {e : Entry T} (h : Before e) : isOk e = false := by
  rcases e with _ | ⟨_, _ | _ | ⟨_, _ | _⟩⟩ | _ <;> first | rfl | cases h

lemma returnedBy_of_after {e : Entry T} (h : After k v e) (hok : isOk e = true) :
    returnedBy e = some k := by
  rcases e with _ | ⟨id, _ | _ | ⟨u, _ | _⟩⟩ | _ <;> try cases hok
  rcases h with ⟨rfl, -⟩ | ⟨-, hr⟩
  · rfl
  · cases hr

/-- **A write-once register**: over any calls and any interleaving of their steps, at most one
closure runs; a call of `get` returns nothing only before it has, and every call that returns
after it, but `set`, returns its value; at most one call of `set` returns `Ok`, the one whose own
value was stored, and any other has its value back. -/
theorem write_once {env : E} {es : List (Event T E)} (hrun : Run step (World.new env) es w) :
    Splits w.history ∧ w.history.countP isOk ≤ 1 ∧ (w.history.filterMap returnedBy).Nodup := by
  have hreturns := hrun.invariant (fun _ _ _ => ReturnsOnce.step) (returnsOnce_new env)
  have hstate := hrun.invariant (fun _ _ _ => state_step) (.inl (empty_new env))
  rcases hstate with h | ⟨k, v, h⟩
  · refine ⟨.empty h.before, ?_, hreturns.nodup⟩
    rw [List.countP_eq_zero.mpr fun e he => by rw [not_isOk_of_before (h.before e he)]; simp]
    exact Nat.zero_le 1
  · obtain ⟨h₁, h₂, hsplit, hbefore, hafter⟩ := h.history
    refine ⟨?_, ?_, hreturns.nodup⟩
    · rw [hsplit]
      exact .filled hbefore hafter
    · refine Nat.le_trans (countP_isOk_le (k := k) fun e he hok => ?_)
        (List.nodup_iff_count_le_one.mp hreturns.nodup k)
      rw [hsplit] at he
      rcases List.mem_append.mp he with hin | hin
      · rw [not_isOk_of_before (hbefore e hin)] at hok
        cases hok
      · rcases List.mem_cons.mp hin with rfl | hin
        · cases hok
        · exact returnedBy_of_after (hafter e hin) hok

/-- Two calls of `set`, and one of `get` that comes before both. -/
def race : List (Event ℕ Unit) :=
  [.call 0 (.set 7), .call 1 .get, .call 2 (.set 8), .advance 1, .advance 2, .advance 0,
    .advance 0, .advance 2]

theorem write_once_race :
    (reach step (World.new () : World ℕ Unit) race).history =
        [.returned 1 (.get none), .ran 2 8, .returned 0 (.set 7 (.error 7)),
          .returned 2 (.set 8 (.ok ()))] ∧
      Splits (reach step (World.new () : World ℕ Unit) race).history ∧
      (reach step (World.new () : World ℕ Unit) race).history.countP isOk ≤ 1 ∧
      ((reach step (World.new () : World ℕ Unit) race).history.filterMap returnedBy).Nodup := by
  refine ⟨by decide +kernel, ?_⟩
  have hrun : Run step (World.new () : World ℕ Unit) race (reach step (World.new ()) race) :=
    run_reach (by decide +kernel)
  exact write_once hrun

end Pimento.WriteOnce
