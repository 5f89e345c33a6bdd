import Mathlib.Tactic.Common

/-!
Systems that reply to the calls made to them.

One system refines another when, seen through an abstraction of its states, it gives the same
replies. Both are total; a call that is not permitted has a reply too, but nothing is said
about it.
-/

namespace Pimento.Replies

variable {σ τ κ ρ : Type}

/-- The replies to calls made one after the other, and the state they leave. -/
def replies (call : κ → σ → ρ × σ) : List κ → σ → List ρ × σ
  | [], s => ([], s)
  | c :: cs, s =>
    let (r, t) := call c s
    let (rs, u) := replies call cs t
    (r :: rs, u)

/-- Every call is permitted in the state it is made in. -/
def Permitted (call : κ → σ → ρ × σ) (permitted : κ → σ → Prop) : List κ → σ → Prop
  | [], _ => True
  | c :: cs, s => permitted c s ∧ Permitted call permitted cs (call c s).2

instance decidablePermitted (call : κ → σ → ρ × σ) (permitted : κ → σ → Prop)
    [∀ c s, Decidable (permitted c s)] : ∀ cs s, Decidable (Permitted call permitted cs s)
  | [], _ => isTrue trivial
  | c :: cs, s =>
    have := decidablePermitted call permitted cs (call c s).2
    inferInstanceAs (Decidable (permitted c s ∧ Permitted call permitted cs (call c s).2))

/-- One call is replied to alike, leaves states that agree, and keeps the invariant. -/
structure Agrees (call : κ → σ → ρ × σ) (spec : κ → τ → ρ × τ) (view : σ → τ) (I : σ → Prop)
    (c : κ) (s : σ) : Prop where
  reply : (call c s).1 = (spec c (view s)).1
  state : view (call c s).2 = (spec c (view s)).2
  keeps : I (call c s).2

variable {call : κ → σ → ρ × σ} {spec : κ → τ → ρ × τ} {view : σ → τ} {I : σ → Prop}
  {permitted : κ → τ → Prop}

/-- **Refinement rule**: where every permitted call agrees, every sequence of permitted calls
does. -/
theorem replies_refine
    (hstep : ∀ c s, I s → permitted c (view s) → Agrees call spec view I c s)
    (cs : List κ) (s : σ) (hs : I s) (hp : Permitted spec permitted cs (view s)) :
    (replies call cs s).1 = (replies spec cs (view s)).1 ∧
      view (replies call cs s).2 = (replies spec cs (view s)).2 ∧ I (replies call cs s).2 := by
  induction cs generalizing s with
  | nil => exact ⟨rfl, rfl, hs⟩
  | cons c cs ih =>
    obtain ⟨hc, hcs⟩ := hp
    obtain ⟨hr, hv, hk⟩ := hstep c s hs hc
    rw [← hv] at hcs
    obtain ⟨hrs, hvs, hks⟩ := ih _ hk hcs
    rw [hv] at hrs hvs
    simp only [replies]
    exact ⟨by rw [hr, hrs], hvs, hks⟩

end Pimento.Replies
