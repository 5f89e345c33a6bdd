import Mathlib.Data.List.Perm.Subperm
import Mathlib.Data.Nat.Find
import Mathlib.Logic.Relation
import Mathlib.Tactic.Common

/-!
Following a partial function to where it stops.

A chain follows `next` from a point until there is no next one. Where a level rises along
`next` and is bounded, every chain stops; where `next` is injective, two chains that stop at one
point lie on each other.
-/

namespace Pimento.Climb

variable {ν : Type} {next : ν → Option ν} {x y t : ν}

/-- The end of the chain from a point, with at most the given number of looks ahead. -/
def climb (next : ν → Option ν) : ℕ → ν → Option ν
  | 0, _ => none
  | n + 1, x =>
    match next x with
    | some y => climb next n y
    | none => some x

/-- The chain from the first point comes through the second. -/
def Leads (next : ν → Option ν) : ν → ν → Prop := Relation.ReflTransGen fun x y => next x = some y

/-- The chain from the first point stops at the second. -/
structure Ends (next : ν → Option ν) (x t : ν) : Prop where
  leads : Leads next x t
  stops : next t = none

lemma Leads.here : Leads next x x := .refl

lemma Leads.head (h : next x = some y) (hy : Leads next y t) : Leads next x t :=
  Relation.ReflTransGen.head h hy

lemma Leads.cases (h : Leads next x t) : t = x ∨ ∃ y, next x = some y ∧ Leads next y t := by
  rcases Relation.ReflTransGen.cases_head h with rfl | ⟨y, hy, hyt⟩
  · exact .inl rfl
  · exact .inr ⟨y, hy, hyt⟩

lemma Ends.here (h : next x = none) : Ends next x x := ⟨.refl, h⟩

lemma Ends.head (h : next x = some y) (hy : Ends next y t) : Ends next x t :=
  ⟨hy.leads.head h, hy.stops⟩

lemma Ends.eq_of_stop (h : Ends next x t) (hx : next x = none) : t = x := by
  rcases h.leads.cases with rfl | ⟨y, hy, -⟩
  · rfl
  · simp [hx] at hy

lemma Ends.tail (h : Ends next x t) (hx : next x = some y) : Ends next y t := by
  rcases h.leads.cases with rfl | ⟨z, hz, hzt⟩
  · simp [h.stops] at hx
  · obtain rfl : z = y := by simpa [hz] using hx
    exact ⟨hzt, h.stops⟩

/-- A chain stops at one point only. -/
lemma Ends.unique {t' : ν} (h : Ends next x t) (h' : Ends next x t') : t = t' := by
  rcases Relation.ReflTransGen.total_of_right_unique
    (fun _ _ _ ha hb => Option.some.inj (ha.symm.trans hb)) h.leads h'.leads with hl | hl
  · rcases Leads.cases hl with he | ⟨y, hy, -⟩
    · exact he.symm
    · simp [h.stops] at hy
  · rcases Leads.cases hl with he | ⟨y, hy, -⟩
    · exact he
    · simp [h'.stops] at hy

/-- A chain can be followed back by a function that undoes the steps of `next`. -/
lemma Leads.reverse {prev : ν → Option ν} (hinv : ∀ x y, next x = some y → prev y = some x)
    (h : Leads next x t) : Leads prev t x := by
  induction h with
  | refl => exact .here
  | tail _ hs ih => exact ih.head (hinv _ _ hs)

/-- Two points on one chain have one end. -/
lemma Ends.of_leads (hl : Leads next x y) (h : Ends next y t) : Ends next x t :=
  ⟨Relation.ReflTransGen.trans hl h.leads, h.stops⟩

lemma climb_ends : ∀ {n : ℕ} {x : ν}, climb next n x = some t → Ends next x t
  | n + 1, x, h => by
    unfold climb at h
    rcases hx : next x with _ | y <;> rw [hx] at h
    · obtain rfl := Option.some.inj h
      exact .here hx
    · exact (climb_ends h).head hx

/-- **Totality**: where a bounded level rises along `next`, every chain stops. -/
theorem climb_total (level : ν → ℕ) {bound : ℕ} (hle : ∀ x, level x ≤ bound)
    (hlt : ∀ x y, next x = some y → level x < level y) :
    ∀ (n : ℕ) (x : ν), bound < level x + n → ∃ t, climb next n x = some t
  | 0, x, h => by
    have := hle x
    omega
  | n + 1, x, h => by
    unfold climb
    rcases hx : next x with _ | y
    · exact ⟨x, rfl⟩
    · exact climb_total level hle hlt n y (by have := hlt x y hx; omega)

lemma climb_succ : ∀ {n : ℕ} {x : ν}, climb next n x = some t → climb next (n + 1) x = some t
  | n + 1, x, h => by
    unfold climb at h ⊢
    rcases hx : next x with _ | y <;> rw [hx] at h
    · exact h
    · exact climb_succ h

lemma climb_mono {n m : ℕ} (hle : n ≤ m) (h : climb next n x = some t) :
    climb next m x = some t := by
  induction hle with
  | refl => exact h
  | step _ ih => exact climb_succ ih

/-- A chain that stops is climbed with enough looks ahead. -/
lemma Ends.exists_climb (h : Ends next x t) : ∃ n, climb next n x = some t := by
  obtain ⟨hl, hs⟩ := h
  induction hl using Relation.ReflTransGen.head_induction_on with
  | refl => exact ⟨1, by simp [climb, hs]⟩
  | head hx _ ih =>
    obtain ⟨n, hn⟩ := ih
    exact ⟨n + 1, by simp only [climb, hx, hn]⟩

/-- The points that a climb of just so many steps leaves: they are all different. -/
lemma exists_path : ∀ {n : ℕ} {x : ν}, climb next (n + 1) x = some t → climb next n x = none →
    ∃ path : List ν, path.length = n ∧ path.Nodup ∧
      ∀ y ∈ path, next y ≠ none ∧ climb next (n + 1) y ≠ none
  | 0, _, _, _ => ⟨[], rfl, .nil, by simp⟩
  | n + 1, x, h, hn => by
    rcases hx : next x with _ | y
    · simp [climb, hx] at hn
    · simp only [climb, hx] at h hn
      obtain ⟨path, hlen, hnodup, hpath⟩ := exists_path (x := y) h hn
      have hx' : climb next (n + 1) x = none := by simp only [climb, hx, hn]
      refine ⟨x :: path, by simp [hlen], ?_, ?_⟩
      · exact List.nodup_cons.mpr ⟨fun hm => (hpath x hm).2 hx', hnodup⟩
      · intro z hz
        rcases List.mem_cons.mp hz with rfl | hz
        · refine ⟨by simp [hx], ?_⟩
          simp only [climb, hx]
          simp [h]
        · obtain ⟨hnext, hc⟩ := hpath z hz
          obtain ⟨u, hu⟩ := Option.ne_none_iff_exists'.mp hc
          exact ⟨hnext, by simp [climb_succ hu]⟩

/-- **Bound**: a chain that stops does so within as many steps as there are points to leave. -/
theorem climb_of_ends (dom : List ν) (hdom : ∀ x, next x ≠ none → x ∈ dom) (h : Ends next x t) :
    climb next (dom.length + 1) x = some t := by
  classical
  have hex := h.exists_climb
  have hfind := Nat.find_spec hex
  rcases hn : Nat.find hex with _ | n
  · rw [hn] at hfind
    simp [climb] at hfind
  · rw [hn] at hfind
    have hnone : climb next n x = none := by
      rcases hc : climb next n x with _ | u
      · rfl
      · obtain rfl := (climb_ends hc).unique h
        exact absurd hc (Nat.find_min hex (by omega))
    obtain ⟨path, hlen, hnodup, hpath⟩ := exists_path hfind hnone
    have hle := (hnodup.subperm fun y hy => hdom y (hpath y hy).1).length_le
    exact climb_mono (by omega) hfind

/-- A chain that moves rises. -/
lemma Leads.level (level : ν → ℕ) (hlt : ∀ x y, next x = some y → level x < level y)
    (h : Leads next x t) : t = x ∨ level x < level t := by
  induction h with
  | refl => exact .inl rfl
  | tail _ hs ih =>
    have := hlt _ _ hs
    rcases ih with rfl | ih
    · exact .inr this
    · exact .inr (by omega)

/-- **Comparability**: two chains of an injective function that stop at one point lie on each
other. -/
theorem Ends.comparable (hinj : ∀ x y z, next x = some z → next y = some z → x = y)
    (hx : Ends next x t) (hy : Ends next y t) : Leads next x y ∨ Leads next y x := by
  have hu : Relator.RightUnique (Function.swap fun x y => next x = some y) :=
    fun a b c hb hc => hinj b c a hb hc
  rcases Relation.ReflTransGen.total_of_right_unique hu hx.leads.swap hy.leads.swap with h | h
  · exact .inr h.swap
  · exact .inl h.swap

/-! ### One more step -/

/-- The second function has one step more than the first. -/
structure OneMore (next next' : ν → Option ν) (a b : ν) : Prop where
  stops : next a = none
  step : next' a = some b
  rest : ∀ x, x ≠ a → next' x = next x

namespace OneMore

variable {next' : ν → Option ν} {a b : ν} (h : OneMore next next' a b)

include h

lemma step_old (hx : next x = some y) : next' x = some y := by
  rw [h.rest x, hx]
  rintro rfl
  simp [h.stops] at hx

lemma leads (hl : Leads next x t) : Leads next' x t := by
  induction hl with
  | refl => exact .here
  | tail _ hs ih => exact .tail ih (h.step_old hs)

/-- A chain that stopped elsewhere stops where it did. -/
lemma ends_ne (he : Ends next x t) (hne : t ≠ a) : Ends next' x t :=
  ⟨h.leads he.leads, by rw [h.rest _ hne, he.stops]⟩

/-- A chain that stopped where the step starts goes on from its end. -/
lemma ends_on (he : Ends next x a) (hb : Ends next' b t) : Ends next' x t :=
  .of_leads (h.leads he.leads) (hb.head h.step)

/-- What stops with the step stops without it. -/
lemma ends_old (he : Ends next' x t) : ∃ t', Ends next x t' := by
  obtain ⟨hl, hs⟩ := he
  induction hl using Relation.ReflTransGen.head_induction_on with
  | refl =>
    refine ⟨t, .here ?_⟩
    rw [← h.rest t, hs]
    rintro rfl
    simp [h.step] at hs
  | @head x y hx _ ih =>
    by_cases hxa : x = a
    · exact ⟨x, .here (hxa ▸ h.stops)⟩
    · obtain ⟨t', ht'⟩ := ih
      exact ⟨t', ht'.head (by rw [← h.rest x hxa, hx])⟩

/-- The step closes a cycle where its end leads back to it. -/
lemma not_ends (hl : Leads next b a) : ¬ Ends next' a t := by
  intro he
  -- every point of the chain leads back
  have hback : ∀ x, Leads next' a x → Leads next' x a := by
    intro x hx
    induction hx with
    | refl => exact .here
    | @tail y z _ hs ih =>
      rcases ih.cases with rfl | ⟨w, hw, hwa⟩
      · obtain rfl := Option.some.inj (h.step.symm.trans hs)
        exact h.leads hl
      · obtain rfl := Option.some.inj (hw.symm.trans hs)
        exact hwa
  have hstop := he.stops
  rcases (hback t he.leads).cases with rfl | ⟨y, hy, -⟩
  · simp [h.step] at hstop
  · simp [hstop] at hy

/-- **One more step**: all chains stop with it exactly when they stopped without it, and its end
did not lead back. -/
theorem ends_iff :
    (∀ x, ∃ t, Ends next' x t) ↔ (∀ x, ∃ t, Ends next x t) ∧ ¬ Leads next b a := by
  constructor
  · intro he
    refine ⟨fun x => ?_, fun hl => ?_⟩
    · obtain ⟨t, ht⟩ := he x
      exact h.ends_old ht
    · obtain ⟨t, ht⟩ := he a
      exact h.not_ends hl ht
  · rintro ⟨he, hl⟩ x
    obtain ⟨t, ht⟩ := he x
    by_cases hta : t = a
    · subst hta
      obtain ⟨u, hu⟩ := he b
      exact ⟨u, h.ends_on ht (h.ends_ne hu fun hut => hl (hut ▸ hu.leads))⟩
    · exact ⟨t, h.ends_ne ht hta⟩

end OneMore

end Pimento.Climb
