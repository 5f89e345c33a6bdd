import Pimento.Ownership

/-!
The ownership invariant is kept by every step.

A step that takes a frame extends the layout with a frame from above the counter, a drop
takes positions out of it, and the bytes that a step changes lie in frames the tables of no
other context use.
-/

namespace Pimento.Ownership

open Address PageTable PageAllocator MemoryContext Descriptors Armv8 Placement TableTree Traverse
  AllocPage Contexts Runs ByteMemory

variable {pa : PageAllocator} {H H' : Layout} {x y : Position} {f g a b c l p : ℕ}
  {w w' : World}

/-- What is left of the layout when a context is dropped. -/
def without (w : World) (H : Layout) (c : ℕ) : Layout
  | .node c' l p => if c' = c then none else H (.node c' l p)
  | .stack id =>
    if ((w.stack id).filter fun e => e.context ≠ c || e.held).isSome then H (.stack id) else none

lemma without_eq_some (hx : without w H c x = some f) : H x = some f := by
  unfold without at hx
  split at hx
  · exact (Option.ite_none_left_eq_some.mp hx).2
  · exact (Option.ite_none_right_eq_some.mp hx).2

/-- Dropping the pages of a context clears only pages without another handle. -/
lemma sameOn_dropPages {keep : ℕ → Bool} {n : ℕ} (pages : List PageAllocation) :
    ∀ m k, (∀ i page, pages[i]? = some page → keep (i + k) = false →
        ∀ m : Machine, SameOn m.memory (dealloc page m).2.memory f n) →
      SameOn m.memory ((pages.zipIdx k).foldl (fun m a => if keep a.2 then m else (dealloc a.1 m).2)
        m).memory f n := by
  induction pages with
  | nil => exact fun m k _ => SameOn.refl _ _ _
  | cons page pages ih =>
    intro m k h
    rw [List.zipIdx_cons, List.foldl_cons]
    have hrest := ih (if keep k then m else (dealloc page m).2) (k + 1) fun i page' hi hkeep =>
      h (i + 1) page' (by simpa using hi) (by rwa [show i + 1 + k = i + (k + 1) by omega])
    refine SameOn.trans ?_ hrest
    split
    · exact SameOn.refl _ _ _
    · rename_i hk
      exact h 0 page rfl (by simpa using hk) m

lemma allocated_dropPages {keep : ℕ → Bool} (pages : List PageAllocation) : ∀ m k,
    ((pages.zipIdx k).foldl (fun m a => if keep a.2 then m else (dealloc a.1 m).2)
      m).allocated = m.allocated := by
  induction pages with
  | nil => exact fun m k => rfl
  | cons page pages ih =>
    intro m k
    rw [List.zipIdx_cons, List.foldl_cons, ih]
    split <;> rfl

section Steps

variable {context : MemoryContext} (h : Owned pa w H)
include h

/-- The memory may change outside the tables. -/
lemma Owned.memory {m : ByteMemory} (hs : ∀ c l p f, l ≤ levelMax → H (.node c l p) = some f →
    SameOn w.machine.memory m f pageSize) :
    Owned pa { w with machine := { w.machine with memory := m } } H :=
  { h with
    tables := fun hc => by
      obtain ⟨root, hrep, htable⟩ := h.tables hc
      exact ⟨root, hrep.congr fun l p f hl hp => hs _ l p f hl hp, htable⟩ }

/-- The counter may advance. -/
lemma Owned.counter (hle : w.machine.allocated ≤ a) (hal : pageSize ∣ a) :
    Owned pa { w with machine := { w.machine with allocated := a } } H :=
  { h with fits := h.fits.mono hle, aligned := hal }

/-- A call may end. -/
lemma Owned.endCall : Owned pa { w with calls := Function.update w.calls c none } H :=
  { h with
    calls := fun {c'} _ _ hcall => by
      by_cases hcc : c' = c
      · simp [hcc] at hcall
      · exact h.calls (by simpa [Function.update_of_ne hcc] using hcall) }

/-- A new frame lies above the counter, so clearing it changes no other. -/
lemma Owned.sameOn_fresh (hle : w.machine.allocated ≤ g) (hx : H x = some f) :
    SameOn w.machine.memory (w.machine.memory.clear g pageSize) f pageSize := by
  have := h.fits.below hx
  exact sameOn_clear (Or.inl (by omega))

lemma Owned.create (hcap : pa.capacity ≤ 2 ^ 48)
    (hfits : w.machine.allocated + pageSize < 2 ^ 64) : ∃ H', Owned pa (create pa w) H' := by
  rcases new_spec hcap hfits h.aligned with
    ⟨f, context, hnew, hle, hf, hres, hpages, hhold⟩ | ⟨a, hnew, hle, hal⟩
  · have hw : Contexts.create pa w =
        { w with
          machine := { taken w.machine f with asidCounter := w.machine.asidCounter + 1 }
          contexts := Function.update w.contexts w.next (some context)
          next := w.next + 1 } := by
      unfold Contexts.create
      rw [hnew]
    rw [hw]
    have hfree : ∀ l p, H (.node w.next l p) = none := fun l p => by
      rcases hx : H (.node w.next l p) with _ | g
      · rfl
      · have := h.live hx
        rw [(h.unused (le_refl _)).1] at this
        cases this
    have hframe : IsFrame f := hhold.rep.frame hhold.rep.placed.root
    have hspace : (H.set (.node w.next 0 0) (some f)).space w.next = single f := by
      rw [Layout.space_set_node]
      funext l p
      exact congrArg (fun z => if l = 0 ∧ p = 0 then some f else z) (hfree l p)
    have hother : ∀ {c}, c ≠ w.next →
        Function.update w.contexts w.next (some context) c = w.contexts c :=
      fun hc => Function.update_of_ne hc _ _
    have hold : ∀ c, c ≠ w.next → (H.set (.node w.next 0 0) (some f)).space c = H.space c :=
      fun c hc => Layout.space_set_of_ne fun l p e => hc (by cases e; rfl)
    refine ⟨H.set (.node w.next 0 0) (some f), h.fits.insert hle hframe hf hres, hhold.aligned,
      ?_, ?_, ?_, ?_, ?_, ?_, ?_⟩
    · intro c context' hc
      rcases update_eq_some hc with ⟨rfl, rfl⟩ | ⟨hcn, hc⟩
      · rw [hspace]
        exact ⟨f, hhold.rep, hhold.table⟩
      · obtain ⟨root, hrep, htable⟩ := h.tables hc
        rw [hold c hcn]
        exact ⟨root, hrep.congr fun l p f' _ hp => h.sameOn_fresh hle hp, htable⟩
    · intro c l p g hx
      show (Function.update w.contexts w.next (some context) c).isSome
      by_cases hcn : c = w.next
      · rw [hcn, Function.update_self]
        rfl
      · rw [Layout.set_of_ne (fun e => hcn (Position.node.inj e).1)] at hx
        rw [hother hcn]
        exact h.live hx
    · intro id e he
      rw [Layout.set_of_ne (by rintro ⟨⟩)]
      exact h.stack he
    · intro id g hx
      rw [Layout.set_of_ne (by rintro ⟨⟩)] at hx
      exact h.stackOnly hx
    · intro c context' i page hc hpage
      rcases update_eq_some hc with ⟨rfl, rfl⟩ | ⟨hcn, hc⟩
      · rw [hpages, List.getElem?_singleton] at hpage
        obtain ⟨-, hpage⟩ := Option.ite_none_right_eq_some.mp hpage
        obtain rfl := Option.some.inj hpage
        exact ⟨rfl, Or.inl ⟨0, 0, Layout.set_self⟩⟩
      · obtain ⟨hptr, hx⟩ := h.recorded hc hpage
        exact ⟨hptr, hx.imp_left fun ⟨l, p, hx⟩ => ⟨l, p, Layout.set_mono (hfree 0 0) hx⟩⟩
    · intro id hid
      have hlt : w.next < id := hid
      obtain ⟨hnone, hstack⟩ := h.unused hlt.le
      exact ⟨(hother hlt.ne').trans hnone, hstack⟩
    · intro c table a hcall
      obtain ⟨context', hc, hcase⟩ := h.calls hcall
      have hcn : c ≠ w.next := fun e => by
        rw [e, (h.unused (le_refl _)).1] at hc
        cases hc
      refine ⟨context', (hother hcn).trans hc, hcase.imp_right ?_⟩
      rintro ⟨ha, l, f', hl, hx, htable⟩
      exact ⟨ha, l, f', hl, Layout.set_mono (hfree 0 0) hx, htable⟩
  · have hw : Contexts.create pa w = { w with machine := { w.machine with allocated := a } } := by
      unfold Contexts.create
      rw [hnew]
    rw [hw]
    exact ⟨H, h.counter hle hal⟩

/-- A call stands at a table on the way to its address. -/
lemma Owned.setCall (hc : w.contexts c = some context) (ha : a < 2 ^ 48) (hl : l ≤ levelMax)
    (hx : H (.node c l (path l a)) = some f) :
    Owned pa { w with calls := Function.update w.calls c (some (managerAt l f a, a)) } H :=
  { h with
    calls := fun {c' table a'} hcall => by
      rcases update_eq_some hcall with ⟨rfl, he⟩ | ⟨-, hold⟩
      · obtain ⟨rfl, rfl⟩ := Prod.mk.inj he
        exact ⟨context, hc, Or.inr ⟨ha, l, f, hl, hx, rfl⟩⟩
      · exact h.calls hold }

lemma Owned.start (hc : w.contexts c = some context) :
    Owned pa { w with calls := Function.update w.calls c (some (rootTable context, a)) } H := by
  rcases Nat.lt_or_ge a (2 ^ 48) with ha | ha
  · obtain ⟨root, hrep, htable⟩ := h.tables hc
    rw [rootTable_eq htable ha]
    refine h.setCall hc ha (by decide) ?_
    rw [path_root ha]
    exact hrep.placed.root
  · exact { h with
      calls := fun {c' table a'} hcall => by
        rcases update_eq_some hcall with ⟨rfl, he⟩ | ⟨-, hold⟩
        · obtain ⟨rfl, rfl⟩ := Prod.mk.inj he
          exact ⟨context, hc, Or.inl ⟨ha, rfl⟩⟩
        · exact h.calls hold }

/-- The context of a call holds its tables. -/
lemma Owned.holds (hc : w.contexts c = some context) :
    ∃ root, Holds ⟨w.machine, context⟩ (H.space c) root := by
  obtain ⟨root, hrep, htable⟩ := h.tables hc
  exact ⟨root, hrep, htable, fun hp => h.fits.below hp, h.aligned⟩

/-- A level of a call. -/
lemma Owned.child {ch : Option ℕ} {s : Scope} (hc : w.contexts c = some context)
    (hl : l ≤ levelMax) (hx : H (.node c l (path l a)) = some f)
    (hchild : Child pa (H.space c) ⟨w.machine, context⟩ l f a ch s) :
    ∃ H', Owned pa (w.put c s none) H' ∧
      ∀ g, ch = some g → H' (.node c (l + 1) (path (l + 1) a)) = some g := by
  obtain ⟨root, hs⟩ := h.holds hc
  obtain ⟨hs', hto, hend⟩ := hs.child hchild hl hx
  rcases hchild with ⟨hg⟩ | ⟨hnone, hle, hg, hcap, hres, -⟩ | ⟨hnone, hle, hal, -⟩
  · rw [put_same hc]
    exact ⟨H, h.endCall, fun g hg' => by rw [← Option.some.inj hg']; exact hg⟩
  · rename_i g
    have hfree : H (.node c (l + 1) (path (l + 1) a)) = none := hnone
    have hspace : (H.set (.node c (l + 1) (path (l + 1) a)) (some g)).space c =
        grow (H.space c) l a (some g) := Layout.space_set_node
    refine ⟨H.set (.node c (l + 1) (path (l + 1) a)) (some g),
      ⟨h.fits.insert hle hg hcap hres, hs'.aligned, ?_, ?_, ?_, ?_, ?_, ?_, ?_⟩,
      fun g' hg' => by rw [← Option.some.inj hg', Layout.set_self]⟩
    · intro c' context' hc'
      rcases update_eq_some hc' with ⟨rfl, rfl⟩ | ⟨hcc, hc'⟩
      · rw [hspace]
        exact ⟨root, hs'.rep, hs'.table⟩
      · obtain ⟨root', hrep, htable⟩ := h.tables hc'
        rw [Layout.space_set_of_ne fun l' p e => hcc (Position.node.inj e).1.symm]
        refine ⟨root', hrep.congr fun l' p f' _ hp => ?_, htable⟩
        -- a table of another context is none of this one's
        refine hto.frame f' (hrep.frame hp) (h.fits.below hp) fun l'' p' _ hp' => hcc ?_
        exact (Position.node.inj (h.fits.inj hp hp')).1
    · intro c' l' p g' hx'
      refine isSome_update ?_
      rcases Layout.set_eq_some hx' with ⟨he, -⟩ | ⟨-, hold⟩
      · exact Or.inl (Position.node.inj he).1
      · exact Or.inr (h.live hold)
    · intro id e he
      rw [Layout.set_of_ne (by rintro ⟨⟩)]
      exact h.stack he
    · intro id g' hx'
      rw [Layout.set_of_ne (by rintro ⟨⟩)] at hx'
      exact h.stackOnly hx'
    · intro c' context' i page hc' hpage
      rcases update_eq_some hc' with ⟨rfl, rfl⟩ | ⟨-, hc'⟩
      · rcases getElem?_snoc_eq_some hpage with hpage | ⟨-, rfl⟩
        · obtain ⟨hptr, hx'⟩ := h.recorded hc hpage
          exact ⟨hptr, hx'.imp_left fun ⟨l', p, hx'⟩ => ⟨l', p, Layout.set_mono hfree hx'⟩⟩
        · exact ⟨rfl, Or.inl ⟨_, _, Layout.set_self⟩⟩
      · obtain ⟨hptr, hx'⟩ := h.recorded hc' hpage
        exact ⟨hptr, hx'.imp_left fun ⟨l', p, hx'⟩ => ⟨l', p, Layout.set_mono hfree hx'⟩⟩
    · intro id hid
      obtain ⟨hnone, hstack⟩ := h.unused hid
      have hne : id ≠ c := fun e => by
        rw [e, hc] at hnone
        cases hnone
      exact ⟨(Function.update_of_ne hne _ _).trans hnone, hstack⟩
    · intro c' table a' hcall
      by_cases hcc : c' = c
      · have : Function.update w.calls c none c' = some (table, a') := hcall
        rw [hcc, Function.update_self] at this
        cases this
      · obtain ⟨context', hc', hcase⟩ := h.calls ((Function.update_of_ne hcc _ _).symm.trans hcall)
        refine ⟨context', (Function.update_of_ne hcc _ _).trans hc', hcase.imp_right ?_⟩
        rintro ⟨ha, l', f', hl', hx', htable⟩
        exact ⟨ha, l', f', hl', Layout.set_mono hfree hx', htable⟩
  · rw [put_same hc]
    exact ⟨H, (h.counter hle hal).endCall, by simp⟩

/-- A call that misses a child asks for a frame. -/
lemma Owned.takesFrame (hc : w.contexts c = some context) (ha : a < 2 ^ 48) (hl : l ≤ levelMax)
    (hx : H (.node c l (path l a)) = some f) (hcall : w.calls c = some (managerAt l f a, a))
    (hnone : H.space c (l + 1) (path (l + 1) a) = none) : takesFrame w (.advance c) = true := by
  obtain ⟨root, hrep, -⟩ := h.tables hc
  have hrow := row_eq (s := ⟨w.machine, context⟩) hrep
    (show H.space c l (path l a) = some f from hx) hl
  rw [hnone] at hrow
  have htype := descriptorType_row (v := a) (h.fits.frame hx) rowIndex_lt hl hrow (by simp)
  unfold Contexts.takesFrame
  simp only [hcall, rowByAddress_managerAt hl ha]
  rw [htype]
  rfl

/-- A call takes its next step. -/
lemma Owned.advance {table : TableManager} (hcap : pa.capacity ≤ 2 ^ 48)
    (hfits : CounterFits w (.advance c)) (hc : w.contexts c = some context)
    (hcall : w.calls c = some (table, a)) :
    ∃ H', Owned pa (advance pa w c context table a) H' := by
  obtain ⟨context', hc', hcase⟩ := h.calls hcall
  obtain rfl : context' = context := Option.some.inj (hc'.symm.trans hc)
  rcases hcase with ⟨ha, rfl⟩ | ⟨ha, l, f, hl, hx, rfl⟩
  · -- no row covers the address
    have hstep : traverseTableToTable pa (rootTable context') a ⟨w.machine, context'⟩ =
        (.err, ⟨w.machine, context'⟩) := by
      rw [traverseTableToTable, rowByAddress_root_none ha, Exec.okOr_none]
      rfl
    have hlt : (rootTable context').level < levelMax := Nat.zero_lt_succ 2
    have hw : Contexts.advance pa w c context' (rootTable context') a =
        w.put c ⟨w.machine, context'⟩ none := by
      unfold Contexts.advance
      rw [if_pos hlt, hstep]
    rw [hw, put_same hc]
    exact ⟨H, h.endCall⟩
  · obtain ⟨root, hs⟩ := h.holds hc
    have hwrap := fun hnone => hfits (h.takesFrame hc ha hl hx hcall hnone)
    rcases Nat.lt_or_ge l levelMax with hlt | hge
    · obtain ⟨ch, s, hchild, hstep⟩ :=
        traverseTableToTable_child hcap hs.aligned hwrap hs.rep ha hx hlt
      obtain ⟨H', hown, hnext⟩ := h.child hc hl hx hchild
      rcases ch with _ | g
      · have hw : Contexts.advance pa w c context' (managerAt l f a) a = w.put c s none := by
          unfold Contexts.advance
          rw [if_pos (show (managerAt l f a).level < levelMax from hlt), hstep]
        rw [hw]
        exact ⟨H', hown⟩
      · have hw : Contexts.advance pa w c context' (managerAt l f a) a =
            w.put c s (some (managerAt (l + 1) g a, a)) := by
          unfold Contexts.advance
          rw [if_pos (show (managerAt l f a).level < levelMax from hlt), hstep]
        have hself : (w.put c s none).contexts c = some s.context := put_self
        have hset := hown.setCall hself ha hlt (hnext g rfl)
        rw [hw, ← put_calls none]
        exact ⟨H', hset⟩
    · obtain ⟨ch, s, hchild, hstep⟩ := traverseTableToPage_child hcap hs.aligned hwrap hs.rep ha hx
        (le_antisymm hl hge)
      obtain ⟨H', hown, -⟩ := h.child hc hl hx hchild
      have hw : Contexts.advance pa w c context' (managerAt l f a) a = w.put c s none := by
        unfold Contexts.advance
        rw [if_neg (show ¬ (managerAt l f a).level < levelMax from Nat.not_lt.mpr hge), hstep]
      rw [hw]
      exact ⟨H', hown⟩

lemma Owned.unmapped (hcap : pa.capacity ≤ 2 ^ 48)
    (hfits : w.machine.allocated + pageSize < 2 ^ 64) (hc : w.contexts c = some context) :
    ∃ H', Owned pa (unmapped pa w c context) H' := by
  rcases allocPageRaw_cases (s := ⟨w.machine, context⟩) hcap hfits h.aligned with
    ⟨g, halloc, hle, hg, hgcap, hres, -⟩ | ⟨a, halloc, hle, hal, -⟩
  · have hw : Contexts.unmapped pa w c context =
        { w.put c ⟨taken w.machine g, { context with
            pageAllocations := context.pageAllocations ++ [⟨g, virtualAddress g⟩] }⟩ none with
          stack := Function.update w.stack w.next
            (some ⟨c, context.pageAllocations.length, ⟨g, virtualAddress g⟩, true⟩)
          next := w.next + 1 } := by
      unfold Contexts.unmapped allocPageUnmapped
      rw [halloc]
    have hfree : H (.stack w.next) = none := by
      rcases hx : H (.stack w.next) with _ | f
      · rfl
      · have := h.stackOnly hx
        rw [(h.unused (le_refl _)).2] at this
        cases this
    have hspace : ∀ c', (H.set (.stack w.next) (some g)).space c' = H.space c' :=
      fun c' => Layout.space_set_of_ne fun l p e => by cases e
    have hother : ∀ {id}, id ≠ w.next → Function.update w.stack w.next
        (some ⟨c, context.pageAllocations.length, ⟨g, virtualAddress g⟩, true⟩) id = w.stack id :=
      fun hid => Function.update_of_ne hid _ _
    rw [hw]
    refine ⟨H.set (.stack w.next) (some g), h.fits.insert hle hg hgcap hres,
      Nat.dvd_add hg.1 (dvd_refl _), ?_, ?_, ?_, ?_, ?_, ?_, ?_⟩
    · intro c' context' hc'
      rw [hspace]
      rcases update_eq_some hc' with ⟨rfl, rfl⟩ | ⟨-, hc'⟩
      · obtain ⟨root, hrep, htable⟩ := h.tables hc
        exact ⟨root, hrep.congr fun l p f _ hp => h.sameOn_fresh hle hp, htable⟩
      · obtain ⟨root, hrep, htable⟩ := h.tables hc'
        exact ⟨root, hrep.congr fun l p f _ hp => h.sameOn_fresh hle hp, htable⟩
    · intro c' l p f hx
      rw [Layout.set_of_ne (by rintro ⟨⟩)] at hx
      exact isSome_update (Or.inr (h.live hx))
    · intro id e he
      rcases update_eq_some he with ⟨rfl, rfl⟩ | ⟨-, he⟩
      · exact ⟨Layout.set_self, rfl⟩
      · obtain ⟨hx, hptr⟩ := h.stack he
        exact ⟨Layout.set_mono hfree hx, hptr⟩
    · intro id f hx
      refine isSome_update ?_
      rcases Layout.set_eq_some hx with ⟨he, -⟩ | ⟨-, hx⟩
      · exact Or.inl (Position.stack.inj he)
      · exact Or.inr (h.stackOnly hx)
    · intro c' context' i page hc' hpage
      have hkeep : ∀ {id e}, w.stack id = some e → Function.update w.stack w.next
          (some ⟨c, context.pageAllocations.length, ⟨g, virtualAddress g⟩, true⟩) id = some e :=
        fun {id e} he => by
          rw [hother (fun e' => by rw [e', (h.unused (le_refl _)).2] at he; cases he), he]
      have hold : ∀ {context' i page}, w.contexts c' = some context' →
          context'.pageAllocations[i]? = some page → page.ptr = virtualAddress page.address ∧
            ((∃ l p, H.set (.stack w.next) (some g) (.node c' l p) = some page.address) ∨
              ∃ id e, Function.update w.stack w.next
                (some ⟨c, context.pageAllocations.length, ⟨g, virtualAddress g⟩, true⟩) id =
                  some e ∧
                  e.context = c' ∧ e.index = i ∧ e.page = page) := by
        intro context' i page hc' hpage
        obtain ⟨hptr, ⟨l, p, hx⟩ | ⟨id, e, he, hrest⟩⟩ := h.recorded hc' hpage
        · exact ⟨hptr, Or.inl ⟨l, p, Layout.set_mono hfree hx⟩⟩
        · exact ⟨hptr, Or.inr ⟨id, e, hkeep he, hrest⟩⟩
      rcases update_eq_some hc' with ⟨rfl, rfl⟩ | ⟨-, hc'⟩
      · rcases getElem?_snoc_eq_some hpage with hpage | ⟨rfl, rfl⟩
        · exact hold hc hpage
        · exact ⟨rfl, Or.inr ⟨w.next, _, Function.update_self _ _ _, rfl, rfl, rfl⟩⟩
      · exact hold hc' hpage
    · intro id hid
      have hlt : w.next < id := hid
      obtain ⟨hnone, hstack⟩ := h.unused hlt.le
      have hne : id ≠ c := fun e => by
        rw [e, hc] at hnone
        cases hnone
      exact ⟨(Function.update_of_ne hne _ _).trans hnone, (hother hlt.ne').trans hstack⟩
    · intro c' table a' hcall
      by_cases hcc : c' = c
      · have : Function.update w.calls c none c' = some (table, a') := hcall
        rw [hcc, Function.update_self] at this
        cases this
      · obtain ⟨context', hc', hcase⟩ := h.calls ((Function.update_of_ne hcc _ _).symm.trans hcall)
        refine ⟨context', (Function.update_of_ne hcc _ _).trans hc', hcase.imp_right ?_⟩
        rintro ⟨ha, l', f', hl', hx', htable⟩
        exact ⟨ha, l', f', hl', Layout.set_mono hfree hx', htable⟩
  · have hw : Contexts.unmapped pa w c context = w.put c
      ⟨{ w.machine with allocated := a }, context⟩ none := by
      unfold Contexts.unmapped allocPageUnmapped
      rw [halloc]
      exact rfl
    rw [hw, put_same hc]
    exact ⟨H, (h.counter hle hal).endCall⟩

/-- Frames at different positions do not overlap. -/
lemma Owned.disjoint (hx : H x = some f) (hy : H y = some g) (hxy : x ≠ y) :
    f + pageSize ≤ g ∨ g + pageSize ≤ f :=
  IsFrame.disjoint (h.fits.frame hx) (h.fits.frame hy) fun e => hxy (h.fits.inj hx (e ▸ hy))

lemma Owned.physicalAddress_eq (hx : H x = some f) : physicalAddress (virtualAddress f) = f := by
  have hf := (h.fits.frame hx).2
  exact physicalAddress_virtualAddress (k := 0) (by omega)

/-- A deallocated page is cleared; no frame at another position changes. -/
lemma Owned.sameOn_dealloc {page : PageAllocation} {m : Machine} (hy : H y = some page.address)
    (hptr : page.ptr = virtualAddress page.address) (hx : H x = some f) (hxy : x ≠ y) :
    SameOn m.memory (dealloc page m).2.memory f pageSize := by
  show SameOn m.memory (m.memory.clear (physicalAddress page.ptr) pageSize) f pageSize
  rw [hptr, h.physicalAddress_eq hy]
  exact sameOn_clear (h.disjoint hx hy hxy)

lemma Owned.dropHandle {id : ℕ} {e : Stack} (he : w.stack id = some e) :
    ∃ H', Owned pa (dropHandle w id e) H' := by
  obtain ⟨hx, hptr⟩ := h.stack he
  unfold Contexts.dropHandle
  split
  · -- the context still has the page
    have hkeep : ∀ {id' e'}, w.stack id' = some e' →
        ∃ e'', Function.update w.stack id (some { e with held := false }) id' = some e'' ∧
          e''.context = e'.context ∧ e''.index = e'.index ∧ e''.page = e'.page := by
      intro id' e' he'
      by_cases hid : id' = id
      · subst hid
        obtain rfl := Option.some.inj (he'.symm.trans he)
        exact ⟨_, Function.update_self _ _ _, rfl, rfl, rfl⟩
      · exact ⟨e', (Function.update_of_ne hid _ _).trans he', rfl, rfl, rfl⟩
    refine ⟨H, { h with stack := ?_, stackOnly := ?_, recorded := ?_, unused := ?_ }⟩
    · intro id' e' he'
      rcases update_eq_some he' with ⟨rfl, rfl⟩ | ⟨-, he'⟩
      · exact ⟨hx, hptr⟩
      · exact h.stack he'
    · exact fun hx' => isSome_update (Or.inr (h.stackOnly hx'))
    · intro c context i page hc hpage
      obtain ⟨hp, hnode | ⟨id', e', he', hctx, hidx, hpg⟩⟩ := h.recorded hc hpage
      · exact ⟨hp, Or.inl hnode⟩
      · obtain ⟨e'', he'', h1, h2, h3⟩ := hkeep he'
        exact ⟨hp, Or.inr ⟨id', e'', he'', h1.trans hctx, h2.trans hidx, h3.trans hpg⟩⟩
    · intro id' hid
      obtain ⟨hc, hs⟩ := h.unused hid
      refine ⟨hc, (Function.update_of_ne ?_ _ _).trans hs⟩
      rintro rfl
      rw [he] at hs
      cases hs
  · -- the page is deallocated
    rename_i hdead
    have hsub : ∀ {x f}, H.set (.stack id) none x = some f → x ≠ .stack id ∧ H x = some f := by
      intro x f hx'
      by_cases hid : x = .stack id
      · rw [hid, Layout.set_self] at hx'
        cases hx'
      · rw [Layout.set_of_ne hid] at hx'
        exact ⟨hid, hx'⟩
    have hnode : ∀ c, (H.set (.stack id) none).space c = H.space c :=
      fun c => Layout.space_set_of_ne fun l p e => by cases e
    have hstack : ∀ {id' e'}, Function.update w.stack id none id' = some e' →
        id' ≠ id ∧ w.stack id' = some e' := by
      intro id' e' he'
      by_cases hid : id' = id
      · rw [hid, Function.update_self] at he'
        cases he'
      · rw [Function.update_of_ne hid] at he'
        exact ⟨hid, he'⟩
    refine ⟨H.set (.stack id) none, h.fits.sub fun hx' => (hsub hx').2, h.aligned, ?_,
      fun hx' => h.live (hsub hx').2, ?_, ?_, ?_, ?_, ?_⟩
    · intro c context hc
      obtain ⟨root, hrep, htable⟩ := h.tables hc
      rw [hnode]
      exact ⟨root, hrep.congr fun l p f _ hp =>
        h.sameOn_dealloc hx hptr (show H (.node c l p) = some f from hp) (by rintro ⟨⟩), htable⟩
    · intro id' e' he'
      obtain ⟨hid, hold⟩ := hstack he'
      obtain ⟨hx', hptr'⟩ := h.stack hold
      exact ⟨(Layout.set_of_ne fun e => hid (Position.stack.inj e)).trans hx', hptr'⟩
    · intro id' f hx'
      obtain ⟨hne, hold⟩ := hsub hx'
      have hid : id' ≠ id := fun e => hne (by rw [e])
      exact (congrArg Option.isSome (Function.update_of_ne hid _ _)).trans (h.stackOnly hold)
    · intro c context i page hc hpage
      obtain ⟨hp, ⟨l, p, hx'⟩ | ⟨id', e', he', hctx, hrest⟩⟩ := h.recorded hc hpage
      · exact ⟨hp, Or.inl ⟨l, p, (Layout.set_of_ne (by rintro ⟨⟩)).trans hx'⟩⟩
      · refine ⟨hp, Or.inr ⟨id', e', (Function.update_of_ne ?_ _ _).trans he', hctx, hrest⟩⟩
        rintro rfl
        obtain rfl := Option.some.inj (he'.symm.trans he)
        rw [hctx, show w.contexts c = some context from hc] at hdead
        exact hdead rfl
    · intro id' hid
      obtain ⟨hc, hs⟩ := h.unused hid
      refine ⟨hc, ?_⟩
      rcases hu : Function.update w.stack id none id' with _ | e'
      · exact hu
      · rw [(hstack hu).2] at hs
        cases hs
    · intro c table a hcall
      obtain ⟨context, hc, hcase⟩ := h.calls hcall
      refine ⟨context, hc, hcase.imp_right ?_⟩
      rintro ⟨ha, l, f, hl, hx', htable⟩
      exact ⟨ha, l, f, hl, (Layout.set_of_ne (by rintro ⟨⟩)).trans hx', htable⟩

lemma Owned.store {va : ℕ} {b : Byte} (hc : w.contexts c = some context)
    (hstep : store w va b context = some w') : ∃ H', Owned pa w' H' := by
  unfold Contexts.store at hstep
  rcases ht : translate w.machine.memory (physicalAddress context.tableL0) va with _ | t
  · rw [ht] at hstep
    cases hstep
  rw [ht] at hstep
  obtain ⟨-, hw⟩ := Option.ite_none_right_eq_some.mp hstep
  obtain rfl := Option.some.inj hw
  obtain ⟨g, hg, rfl, -⟩ := h.accessible hc ht
  refine ⟨H, h.memory fun c' l p f hl hx x hx₁ hx₂ => (writeBytes_of_outside ?_).symm⟩
  -- a table is at another position, so it does not overlap the page
  have hdisj := h.disjoint hx hg fun e => by
    have := (Position.node.inj e).2.1
    have hmax : levelMax = 3 := rfl
    omega
  have hmod : va % pageSize < pageSize := Nat.mod_lt _ (by decide)
  simp only [userPage, List.length_singleton]
  omega

/-- **Dropping a context** changes no frame that is left. -/
lemma Owned.sameOn_drop (hc : w.contexts c = some context) (hx : without w H c x = some f) :
    SameOn w.machine.memory (drop w c context).machine.memory f pageSize := by
  refine sameOn_dropPages context.pageAllocations w.machine 0 fun i page hi hkeep m => ?_
  obtain ⟨hptr, ⟨l, p, hy⟩ | ⟨id, e, he, hctx, hidx, rfl⟩⟩ := h.recorded hc hi
  · refine h.sameOn_dealloc hy hptr (without_eq_some hx) ?_
    rintro rfl
    simp [without] at hx
  · refine h.sameOn_dealloc (h.stack he).1 hptr (without_eq_some hx) ?_
    rintro rfl
    -- the page is cleared, so no handle is left
    have hid : id < w.next := by
      by_contra hge
      rw [(h.unused (Nat.not_lt.mp hge)).2] at he
      cases he
    have hheld : e.held = false := by
      have := List.any_eq_false.mp hkeep id (List.mem_range.mpr hid)
      simpa [he, hctx, hidx] using this
    simp [without, he, hctx, hheld] at hx

lemma Owned.drop (hc : w.contexts c = some context) (hcall : w.calls c = none) :
    Owned pa (drop w c context) (without w H c) := by
  have hlive : ∀ {c' context'}, (Contexts.drop w c context).contexts c' = some context' →
      c' ≠ c ∧ w.contexts c' = some context' := by
    intro c' context' hc'
    have hup : Function.update w.contexts c none c' = some context' := hc'
    by_cases hcc : c' = c
    · rw [hcc, Function.update_self] at hup
      cases hup
    · rw [Function.update_of_ne hcc] at hup
      exact ⟨hcc, hup⟩
  have hnode : ∀ {c'}, c' ≠ c → ∀ l p, without w H c (.node c' l p) = H (.node c' l p) :=
    fun hne l p => if_neg hne
  have hstack : ∀ {id e}, (Contexts.drop w c context).stack id = some e →
      w.stack id = some e ∧ without w H c (.stack id) = H (.stack id) := by
    intro id e he
    have hf : (w.stack id).filter (fun e => e.context ≠ c || e.held) = some e := he
    exact ⟨(Option.filter_eq_some_iff.mp hf).1, if_pos (Option.isSome_of_eq_some hf)⟩
  refine ⟨?_, ?_, ?_, ?_, ?_, ?_, ?_, ?_, ?_⟩
  · have : (Contexts.drop w c context).machine.allocated = w.machine.allocated :=
      allocated_dropPages _ _ _
    rw [this]
    exact h.fits.sub fun hx => without_eq_some hx
  · have : (Contexts.drop w c context).machine.allocated = w.machine.allocated :=
      allocated_dropPages _ _ _
    rw [this]
    exact h.aligned
  · intro c' context' hc'
    obtain ⟨hne, hc'⟩ := hlive hc'
    obtain ⟨root, hrep, htable⟩ := h.tables hc'
    have hspace : (without w H c).space c' = H.space c' := funext fun l => funext (hnode hne l)
    rw [hspace]
    exact ⟨root, hrep.congr fun l p f _ hp => h.sameOn_drop hc ((hnode hne l p).trans hp), htable⟩
  · intro c' l p f hx
    have hne : c' ≠ c := fun e => by simp [without, e] at hx
    exact (congrArg Option.isSome (Function.update_of_ne hne _ _)).trans
      (h.live (without_eq_some hx))
  · intro id e he
    obtain ⟨hold, hkeep⟩ := hstack he
    rw [hkeep]
    exact h.stack hold
  · intro id f hx
    exact (Option.ite_none_right_eq_some.mp hx).1
  · intro c' context' i page hc' hpage
    obtain ⟨hne, hc'⟩ := hlive hc'
    obtain ⟨hptr, ⟨l, p, hx⟩ | ⟨id, e, he, hctx, hrest⟩⟩ := h.recorded hc' hpage
    · exact ⟨hptr, Or.inl ⟨l, p, (hnode hne l p).trans hx⟩⟩
    · refine ⟨hptr, Or.inr ⟨id, e, ?_, hctx, hrest⟩⟩
      exact Option.filter_eq_some_iff.mpr ⟨he, by simp [hctx, hne]⟩
  · intro id hid
    obtain ⟨hnone, hs⟩ := h.unused hid
    have hne : id ≠ c := fun e => by
      rw [e, hc] at hnone
      cases hnone
    refine ⟨(Function.update_of_ne hne _ _).trans hnone, ?_⟩
    show (w.stack id).filter _ = none
    rw [hs]
    rfl
  · intro c' table a hcall'
    obtain ⟨context', hc', hcase⟩ := h.calls hcall'
    have hne : c' ≠ c := fun e => by
      have hcall'' : w.calls c' = some (table, a) := hcall'
      rw [e, hcall] at hcall''
      cases hcall''
    refine ⟨context', (Function.update_of_ne hne _ _).trans hc', hcase.imp_right ?_⟩
    rintro ⟨ha, l, f, hl, hx, htable⟩
    exact ⟨ha, l, f, hl, (hnode hne _ _).trans hx, htable⟩

/-- **One step** keeps the ownership invariant. -/
theorem Owned.step {e : Event} (hcap : pa.capacity ≤ 2 ^ 48) (hfits : CounterFits w e)
    (hstep : step pa w e = some w') : ∃ H', Owned pa w' H' := by
  have hidle : ∀ {c context}, w.idle c = some context → w.contexts c = some context ∧
      w.calls c = none := fun hi => by
    obtain ⟨hcall, hc⟩ := Option.ite_none_right_eq_some.mp hi
    exact ⟨hc, hcall⟩
  cases e with
  | create =>
    obtain rfl := Option.some.inj hstep
    exact h.create hcap (hfits rfl)
  | start c a =>
    obtain ⟨context, hi, rfl⟩ := Option.map_eq_some_iff.mp hstep
    exact ⟨H, h.start (hidle hi).1⟩
  | advance c =>
    obtain ⟨context, hc, hmap⟩ := Option.bind_eq_some_iff.mp hstep
    obtain ⟨⟨table, a⟩, hcall, rfl⟩ := Option.map_eq_some_iff.mp hmap
    exact h.advance hcap hfits hc hcall
  | unmapped c =>
    obtain ⟨context, hi, rfl⟩ := Option.map_eq_some_iff.mp hstep
    exact h.unmapped hcap (hfits rfl) (hidle hi).1
  | dropHandle id =>
    obtain ⟨e, he, rfl⟩ := Option.map_eq_some_iff.mp hstep
    exact h.dropHandle (Option.filter_eq_some_iff.mp he).1
  | drop c =>
    obtain ⟨context, hi, rfl⟩ := Option.map_eq_some_iff.mp hstep
    exact ⟨_, h.drop (hidle hi).1 (hidle hi).2⟩
  | store c va b =>
    obtain ⟨context, hc, hs⟩ := Option.bind_eq_some_iff.mp hstep
    exact h.store hc hs

end Steps

end Pimento.Ownership
