import Mathlib.Data.List.Basic

/-!
Runs of a transition system, with the events they are made of.

A system is a partial function from a state and an event to the next state. What holds of
every state a run reaches is proved from one step.
-/

namespace Pimento.Runs

variable {σ ε : Type}

/-- The run `es` leads from the first state to the second. -/
inductive Run (step : σ → ε → Option σ) : σ → List ε → σ → Prop
  | nil (s : σ) : Run step s [] s
  | snoc {s t u : σ} {es : List ε} {e : ε} (h : Run step s es t) (hs : step t e = some u) :
      Run step s (es ++ [e]) u

/-- The system with a step allowed only where the condition on the state before it holds. -/
def guarded (cond : σ → ε → Prop) [∀ s e, Decidable (cond s e)] (step : σ → ε → Option σ) :
    σ → ε → Option σ := fun s e => if cond s e then step s e else none

variable {step : σ → ε → Option σ} {s t u : σ} {es : List ε} {e : ε}

lemma guarded_eq_some {cond : σ → ε → Prop} [∀ s e, Decidable (cond s e)] :
    guarded cond step s e = some t ↔ cond s e ∧ step s e = some t := by
  unfold guarded
  split <;> simp [*]

/-- **Invariant rule.** What holds at the start and is kept by every step holds at the end of
every run. -/
theorem Run.invariant {I : σ → Prop} (hstep : ∀ s e t, I s → step s e = some t → I t)
    (h : Run step s es t) (hs : I s) : I t := by
  induction h with
  | nil => exact hs
  | snoc _ hst ih => exact hstep _ _ _ ih hst

/-- The invariant rule for a relation between the events so far and the state. -/
theorem Run.invariant_log {I : List ε → σ → Prop}
    (hstep : ∀ es s e t, I es s → step s e = some t → I (es ++ [e]) t)
    (h : Run step s es t) (hs : I [] s) : I es t := by
  induction h with
  | nil => exact hs
  | snoc _ hst ih => exact hstep _ _ _ _ ih hst

lemma Run.append {es' : List ε} (h : Run step s es t) (h' : Run step t es' u) :
    Run step s (es ++ es') u := by
  induction h' with
  | nil => simpa using h
  | snoc _ hst ih =>
    rw [← List.append_assoc]
    exact ih.snoc hst

lemma Run.single (h : step s e = some t) : Run step s [e] t := (Run.nil s).snoc h

lemma Run.cons (h : step s e = some t) (h' : Run step t es u) : Run step s (e :: es) u :=
  (Run.single h).append h'

/-- **Simulation rule.** Where an invariant holds, what a step does to the image of the state is
what the image of the event does: so it is for every run. -/
theorem Run.simulate {τ δ : Type} {step' : τ → δ → Option τ} {I : σ → Prop} (f : σ → τ)
    (g : ε → List δ)
    (hstep : ∀ s e t, I s → step s e = some t → I t ∧ Run step' (f s) (g e) (f t))
    (h : Run step s es t) (hs : I s) : I t ∧ Run step' (f s) (es.flatMap g) (f t) := by
  induction h with
  | nil => exact ⟨hs, .nil _⟩
  | @snoc t u es e _ hst ih =>
    obtain ⟨ht, hrun⟩ := ih
    obtain ⟨hu, hrun'⟩ := hstep _ _ _ ht hst
    refine ⟨hu, ?_⟩
    have hsplit : (es ++ [e]).flatMap g = es.flatMap g ++ g e := by
      rw [List.flatMap_append, List.flatMap_singleton]
    rw [hsplit]
    exact hrun.append hrun'

/-- A run of a system is a run of any system that takes its steps. -/
lemma Run.mono {step' : σ → ε → Option σ} (hle : ∀ s e t, step s e = some t → step' s e = some t)
    (h : Run step s es t) : Run step' s es t := by
  induction h with
  | nil => exact .nil _
  | snoc _ hst ih => exact ih.snoc (hle _ _ _ hst)

lemma Run.snoc_cases (h : Run step s (es ++ [e]) u) : ∃ t, Run step s es t ∧ step t e = some u := by
  generalize hes : es ++ [e] = es' at h
  cases h with
  | nil => simp at hes
  | snoc h hst =>
    obtain ⟨rfl, he⟩ := List.append_inj' hes rfl
    obtain rfl : e = _ := by simpa using he
    exact ⟨_, h, hst⟩

/-- The events of a run determine where it leads. -/
lemma Run.unique (h : Run step s es t) (h' : Run step s es u) : t = u := by
  induction h generalizing u with
  | nil =>
    generalize hes : ([] : List ε) = es' at h'
    cases h' with
    | nil => rfl
    | snoc => simp at hes
  | snoc _ hst ih =>
    obtain ⟨v, hv, hu⟩ := h'.snoc_cases
    obtain rfl := ih hv
    exact Option.some.inj (hst.symm.trans hu)

lemma getElem?_snoc_eq_some {β : Type} {xs : List β} {u v : β} {i : ℕ}
    (h : (xs ++ [v])[i]? = some u) : xs[i]? = some u ∨ (i = xs.length ∧ u = v) := by
  rcases Nat.lt_or_ge i xs.length with hlt | hge
  · rw [List.getElem?_append_left hlt] at h
    exact Or.inl h
  · rw [List.getElem?_append_right hge, List.getElem?_singleton] at h
    obtain ⟨hi, hv⟩ := Option.ite_none_right_eq_some.mp h
    exact Or.inr ⟨by omega, (Option.some.inj hv).symm⟩

/-- An entry of a log is the last one, or it is among the others. -/
lemma split_snoc {β : Type} {xs before after : List β} {x y : β}
    (h : xs ++ [y] = before ++ x :: after) :
    (before = xs ∧ x = y) ∨ ∃ after', xs = before ++ x :: after' := by
  rcases List.eq_nil_or_concat' after with rfl | ⟨after, z, rfl⟩
  · obtain ⟨rfl, hx⟩ := List.append_inj' h rfl
    exact .inl ⟨rfl, (List.singleton_inj.mp hx).symm⟩
  · rw [← List.cons_append, ← List.append_assoc] at h
    exact .inr ⟨after, (List.append_inj' h rfl).1⟩

/-- Where some events lead, if all of them can happen. -/
def final (step : σ → ε → Option σ) : σ → List ε → Option σ
  | s, [] => some s
  | s, e :: es => (step s e).bind fun t => final step t es

/-- The state after events that can all happen. -/
def reach (step : σ → ε → Option σ) (s : σ) (es : List ε) : σ := (final step s es).getD s

lemma run_final (h : final step s es = some t) : Run step s es t := by
  induction es generalizing s with
  | nil =>
    obtain rfl := Option.some.inj h
    exact .nil s
  | cons e es ih =>
    obtain ⟨u, hu, ht⟩ := Option.bind_eq_some_iff.mp h
    exact .cons hu (ih ht)

lemma run_reach (h : (final step s es).isSome) : Run step s es (reach step s es) := by
  obtain ⟨t, ht⟩ := Option.isSome_iff_exists.mp h
  rw [reach, ht]
  exact run_final ht

/-- **Exact condition**: where every step keeps a property exactly when it meets a condition, the
property holds at the end of a run exactly when all of its steps met the condition. -/
theorem Run.iff_guarded {cond : σ → ε → Prop} [∀ s e, Decidable (cond s e)] {I J : σ → Prop}
    (hJ : ∀ s e t, J s → step s e = some t → J t)
    (hI : ∀ s e t, J s → step s e = some t → (I t ↔ I s ∧ cond s e))
    (h : Run step s es t) (hj : J s) (hi : I s) : I t ↔ Run (guarded cond step) s es t := by
  induction h with
  | nil => exact ⟨fun _ => .nil _, fun _ => hi⟩
  | @snoc t u es e h hst ih =>
    rw [hI _ _ _ (h.invariant hJ hj) hst, ih]
    constructor
    · rintro ⟨hr, hc⟩
      exact hr.snoc (guarded_eq_some.mpr ⟨hc, hst⟩)
    · intro hr
      obtain ⟨t', hr', hst'⟩ := hr.snoc_cases
      obtain rfl := h.unique (hr'.mono fun _ _ _ hs => (guarded_eq_some.mp hs).2)
      exact ⟨hr', (guarded_eq_some.mp hst').1⟩

lemma Run.split {es₁ es₂ : List ε} (h : Run step s (es₁ ++ es₂) t) :
    ∃ u, Run step s es₁ u ∧ Run step u es₂ t := by
  induction es₂ generalizing es₁ with
  | nil => exact ⟨t, by rwa [List.append_nil] at h, .nil t⟩
  | cons e es₂ ih =>
    rw [List.append_cons] at h
    obtain ⟨v, h₁, h₂⟩ := ih h
    obtain ⟨u, hu, hst⟩ := h₁.snoc_cases
    exact ⟨u, hu, .cons hst h₂⟩

/-- The property holds in every state along the events. -/
def Always (step : σ → ε → Option σ) (I : σ → Prop) (s : σ) (es : List ε) : Prop :=
  ∀ es₁ es₂ u, es = es₁ ++ es₂ → Run step s es₁ u → I u

/-- **Exact condition, along the run**: where a step that meets a condition keeps an invariant and
any other breaks the property, the property holds all along a run exactly when all of its steps
met the condition. -/
theorem Run.always_iff_guarded {cond : σ → ε → Prop} [∀ s e, Decidable (cond s e)]
    {I J : σ → Prop} (hJ : ∀ s e t, J s → cond s e → step s e = some t → J t)
    (hI : ∀ s, J s → I s) (hbreak : ∀ s e t, J s → ¬ cond s e → step s e = some t → ¬ I t)
    (h : Run step s es t) (hs : J s) :
    Always step I s es ↔ Run (guarded cond step) s es t := by
  have hinv : ∀ {es t}, Run (guarded cond step) s es t → J t := fun hr => by
    refine hr.invariant (fun s e t hj hst => ?_) hs
    obtain ⟨hc, hst⟩ := guarded_eq_some.mp hst
    exact hJ s e t hj hc hst
  have hmono : ∀ {es t}, Run (guarded cond step) s es t → Run step s es t := fun hr =>
    hr.mono fun _ _ _ hst => (guarded_eq_some.mp hst).2
  constructor
  · intro hall
    induction h with
    | nil => exact .nil _
    | @snoc t u es e h hst ih =>
      have hr := ih fun es₁ es₂ v hes hrun =>
        hall es₁ (es₂ ++ [e]) v (by rw [hes, List.append_assoc]) hrun
      have hc : cond t e := by
        by_contra hc
        exact hbreak t e u (hinv hr) hc hst
          (hall (es ++ [e]) [] u (List.append_nil _).symm (h.snoc hst))
      exact hr.snoc (guarded_eq_some.mpr ⟨hc, hst⟩)
  · rintro hr es₁ es₂ u rfl hrun
    obtain ⟨v, hv, -⟩ := hr.split
    obtain rfl := hrun.unique (hmono hv)
    exact hI u (hinv hv)

end Pimento.Runs
