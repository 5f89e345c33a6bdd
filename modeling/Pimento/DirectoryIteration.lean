import Mathlib.Data.List.ReduceOption
import Pimento.FileHandles
import Pimento.Runs

/-!
Reading a directory that grows.

An open directory counts the calls made on it, also those that found no entry, and takes the count
for the position of the next entry. As long as every call has found one it is that position.
-/

namespace Pimento.DirectoryIteration

open FileHandles Runs

/-- What is done with an open directory and in the directory it belongs to. -/
inductive Event
  | readdir
  | mkdir (name : String)
  | mknod (name : String)
  deriving DecidableEq, Repr

/-- The file systems and an open directory, with what its calls have returned. -/
structure Reading (D : Type) where
  world : Files D
  directory : Directory
  replies : List (Option NodeLink)

variable {D : Type}

/-- The directory is opened. -/
def opened (w : Files D) (node : Node) : Reading D := ⟨w, .new node, []⟩

namespace Reading

/-- The list of entries of the directory. -/
def entries (s : Reading D) : Option (List NodeLink) := s.world.entries s.directory.node

/-- The entries that the calls have returned, in order. -/
def returned (s : Reading D) : List NodeLink := s.replies.reduceOption

/-- One call more, with its reply. -/
def answered (s : Reading D) (reply : Option NodeLink) : Reading D where
  world := s.world
  directory := { s.directory with position := s.directory.position + 1 }
  replies := s.replies ++ [reply]

lemma returned_answered (s : Reading D) (reply : Option NodeLink) :
    (s.answered reply).returned = s.returned ++ reply.toList := by
  unfold returned answered
  rw [List.reduceOption_append, List.reduceOption_singleton]

end Reading

variable (devices : CharacterDevices D)

/-- The file systems after a change. An error goes to the caller. -/
def added (s : Reading D) : Outcome Unit × Files D → Option (Reading D)
  | (.ok (), w) => some { s with world := w }
  | (.err, w) => some { s with world := w }
  | _ => none

/-- One call. -/
def step (s : Reading D) : Event → Option (Reading D)
  | .readdir =>
    match Directory.readdir (Files.fileSystem devices) ⟨s.world, s.directory⟩ with
    | (.ok reply, t) => some ⟨t.world, t.handle, s.replies ++ [reply]⟩
    | (.err, t) => some ⟨t.world, t.handle, s.replies⟩
    | _ => none
  | .mkdir name => added s ((Files.fileSystem devices).mkdir s.directory.node.fileSystem
      s.directory.node name s.world)
  | .mknod name => added s ((Files.fileSystem devices).mknod s.directory.node.fileSystem
      s.directory.node name s.world)

/-- What was returned is the first entries of the directory. -/
def Iterates (s : Reading D) : Prop := ∃ l k, s.entries = some l ∧ s.returned = l.take k

/-- Once a call has returned nothing, the directory is read only while it has no entry at the
position. -/
def NoneLater (s : Reading D) : Event → Prop
  | .readdir => none ∈ s.replies → ∀ l ∈ s.entries, l.length ≤ s.directory.position
  | _ => True

instance (s : Reading D) : ∀ e, Decidable (NoneLater s e)
  | .readdir => inferInstanceAs
      (Decidable (none ∈ s.replies → ∀ l ∈ s.entries, l.length ≤ s.directory.position))
  | .mkdir _ => isTrue trivial
  | .mknod _ => isTrue trivial

/-- The directory belongs to a temporary file system, and has these entries. -/
structure Listed (node : Node) (l : List NodeLink) (w : Files D) : Prop where
  tmpfs : ∃ t, w.instances[node.fileSystem]? = some (.tmpfs t) ∧
    t.directories[node.nodeId]? = some l ∧ node.nodeId < t.nodeCounter

variable {node : Node} {l : List NodeLink} {w : Files D} {devices}

lemma Listed.entries (h : Listed node l w) : w.entries node = some l := by
  obtain ⟨t, hi, hl, -⟩ := h.tmpfs
  rw [Files.entries, hi]
  exact hl

/-- Whatever was done with the file systems so far, a listed directory is one of these. -/
lemma listed_of_used {d : D} {v : Vfs (Files D)} (h : VirtualFileSystem.Used devices d v)
    (htmpfs : OnTmpfs v.world node) (hl : v.world.entries node = some l) :
    Listed node l v.world := by
  obtain ⟨t, hi⟩ := htmpfs
  rw [Files.entries, hi] at hl
  refine ⟨t, hi, hl, ((Walk.Inv.of_used h).tree _ _ hi).below _ ?_⟩
  exact Option.isSome_iff_exists.mpr ⟨l, hl⟩

/-! ### One call -/

lemma Listed.readdir {directory : Directory} (h : Listed directory.node l w) :
    Directory.readdir (Files.fileSystem devices) ⟨w, directory⟩ =
      (.ok l[directory.position]?,
        ⟨w, { directory with position := directory.position + 1 }⟩) := by
  obtain ⟨t, hi, hl, -⟩ := h.tmpfs
  have halive : (Files.fileSystem devices).alive directory.node.fileSystem w = true :=
    decide_eq_true (List.getElem?_eq_some_iff.mp hi).1
  exact Directory.readdir_ok halive (Files.readdir_eq devices directory.position hi hl)

lemma listed_set {t t' : Tmpfs} (hi : w.instances[node.fileSystem]? = some (.tmpfs t))
    (hl : t'.directories[node.nodeId]? = some l) (hlt : node.nodeId < t'.nodeCounter) :
    Listed node l { w with instances := w.instances.set node.fileSystem (.tmpfs t') } :=
  ⟨t', List.getElem?_set_self (List.getElem?_eq_some_iff.mp hi).1, hl, hlt⟩

lemma Listed.mkdir (devices : CharacterDevices D) (h : Listed node l w) (name : String) :
    ∃ w' links, (Files.fileSystem devices).mkdir node.fileSystem node name w = (.ok (), w') ∧
      Listed node (l ++ links) w' := by
  obtain ⟨t, hi, hl, hlt⟩ := h.tmpfs
  obtain ⟨t', hmkdir, -, hcounter, -, hdirs⟩ := Tmpfs.mkdir_of_some name hl hlt.ne
  have hl' := (hdirs node.nodeId).trans (if_pos rfl)
  exact ⟨_, _, call_tmpfs hi hmkdir, listed_set hi hl' (by omega)⟩

lemma Listed.mknod (devices : CharacterDevices D) (h : Listed node l w) (name : String) :
    ∃ w' links, (Files.fileSystem devices).mknod node.fileSystem node name w = (.ok (), w') ∧
      Listed node (l ++ links) w' := by
  obtain ⟨t, hi, hl, hlt⟩ := h.tmpfs
  refine ⟨_, [⟨name, node.fileSystem, t.nodeCounter, .file⟩],
    call_tmpfs hi (Tmpfs.mknod_of_some name hl), listed_set hi ?_ (Nat.lt_succ_of_lt hlt)⟩
  exact Std.TreeMap.getElem?_insert_self

/-! ### Any calls -/

variable {s t : Reading D} {e : Event}

/-- What was returned is the first entries, and every call was counted. -/
structure Counted (s : Reading D) : Prop where
  entries : ∃ l, Listed s.directory.node l s.world ∧ s.returned <+: l
  position : s.directory.position = s.replies.length

/-- A step takes a state to one that has seen one more call, or more entries. -/
lemma step_cases (hl : Listed s.directory.node l s.world) (h : step devices s e = some t) :
    (e = .readdir ∧ t = s.answered l[s.directory.position]?) ∨
      (e ≠ .readdir ∧ ∃ w links, Listed s.directory.node (l ++ links) w ∧
        t = { s with world := w }) := by
  cases e with
  | readdir =>
    rw [step, hl.readdir] at h
    exact .inl ⟨rfl, (Option.some.inj h).symm⟩
  | mkdir name =>
    obtain ⟨w, links, hmkdir, hl'⟩ := hl.mkdir devices name
    rw [step, hmkdir] at h
    exact .inr ⟨by simp, w, links, hl', (Option.some.inj h).symm⟩
  | mknod name =>
    obtain ⟨w, links, hmknod, hl'⟩ := hl.mknod devices name
    rw [step, hmknod] at h
    exact .inr ⟨by simp, w, links, hl', (Option.some.inj h).symm⟩

lemma Counted.iterates (h : Counted s) : Iterates s := by
  obtain ⟨l, hl, hp⟩ := h.entries
  exact ⟨l, _, hl.entries, List.prefix_iff_eq_take.mp hp⟩

/-- As long as every call has found an entry, as many were returned as calls were made. -/
lemma returned_length (hn : none ∉ s.replies) : s.returned.length = s.replies.length := by
  refine List.reduceOption_length_eq_iff.mpr fun x hx => ?_
  cases x with
  | none => exact absurd hx hn
  | some _ => rfl

/-- **Step lemma**: a call that meets the condition keeps the count right. -/
lemma Counted.step (h : Counted s) (hc : NoneLater s e)
    (hst : DirectoryIteration.step devices s e = some t) : Counted t := by
  obtain ⟨⟨l, hl, hp⟩, hpos⟩ := h
  rcases step_cases hl hst with ⟨rfl, rfl⟩ | ⟨-, w, links, hl', rfl⟩
  · refine ⟨⟨l, hl, ?_⟩, by simp [Reading.answered, hpos]⟩
    rw [Reading.returned_answered]
    rcases hget : l[s.directory.position]? with _ | link
    · rw [Option.toList_none, List.append_nil]
      exact hp
    · -- an entry is found, so every call before has found one
      obtain ⟨hlt, hget'⟩ := List.getElem?_eq_some_iff.mp hget
      have hn : none ∉ s.replies := fun hm => by
        have hle := hc hm l hl.entries
        omega
      have hlen : s.returned.length = s.directory.position := (returned_length hn).trans hpos.symm
      rw [Option.toList_some, List.prefix_iff_eq_take.mp hp, hlen, ← hget',
        List.take_concat_get']
      exact List.take_prefix _ _
  · exact ⟨⟨_, hl', hp.trans (List.prefix_append _ _)⟩, hpos⟩

/-- **Iteration**: while the directory grows, what was returned is its first entries, in every run
in which no call finds an entry once one has returned nothing. -/
theorem iterates_in_order {es : List Event} (hl : Listed node l w)
    (hrun : Run (guarded NoneLater (step devices)) (opened w node) es s) : Iterates s := by
  have hstart : Counted (opened w node) := ⟨⟨l, hl, List.nil_prefix⟩, rfl⟩
  have hcounted : Counted s := by
    refine hrun.invariant (fun s e t hs hst => ?_) hstart
    obtain ⟨hc, hst⟩ := guarded_eq_some.mp hst
    exact hs.step hc hst
  exact hcounted.iterates

/-- A call that does not meet the condition passes over entries: it returns one behind the first
that was not returned, and only an entry that is the same hides that. -/
theorem iterates_later (h : Counted s) (hc : ¬ NoneLater s e) (hst : step devices s e = some t) :
    ∃ l, s.entries = some l ∧ s.returned.length < s.directory.position ∧
      (Iterates t ↔ l[s.returned.length]? = l[s.directory.position]?) := by
  obtain ⟨⟨l, hl, hp⟩, hpos⟩ := h
  rcases step_cases hl hst with ⟨rfl, rfl⟩ | ⟨hne, -⟩
  · simp only [NoneLater, Reading.entries, hl.entries, Option.mem_def, Option.some.injEq,
      forall_eq', not_forall, Nat.not_le] at hc
    obtain ⟨hn, hlt⟩ := hc
    have hlen : s.returned.length < s.directory.position :=
      hpos ▸ List.reduceOption_length_lt_iff.mpr hn
    refine ⟨l, hl.entries, hlen, ?_⟩
    rw [List.getElem?_eq_getElem hlt]
    constructor
    · rintro ⟨l', k, hl', hk⟩
      obtain rfl : l' = l := Option.some.inj (hl'.symm.trans hl.entries)
      rw [Reading.returned_answered, Option.toList_some] at hk
      have hlast : (l'.take k)[s.returned.length]? = some l'[s.directory.position] := by
        rw [← hk, List.getElem?_concat_length]
      rw [List.getElem?_take] at hlast
      split at hlast
      · exact hlast
      · cases hlast
    · intro hsame
      refine ⟨l, s.returned.length + 1, hl.entries, ?_⟩
      rw [Reading.returned_answered, List.take_add_one, hsame, ← List.prefix_iff_eq_take.mp hp]
  · cases e with
    | readdir => exact absurd rfl hne
    | mkdir name => exact absurd trivial hc
    | mknod name => exact absurd trivial hc

open Walk (noDevices)

/-- The root of the first file system, opened. -/
def rootOpened : Reading Unit := opened (VirtualFileSystem.new ()).world ⟨0, 0, .directory⟩

def growing : List Event := [.readdir, .mkdir "a", .readdir, .readdir, .readdir, .readdir]

theorem iterates_growing :
    Iterates (reach (guarded NoneLater (step noDevices)) rootOpened growing) ∧
      (reach (guarded NoneLater (step noDevices)) rootOpened growing).replies.length = 5 := by
  have hused : VirtualFileSystem.Used noDevices () (VirtualFileSystem.new ()) := .new
  have hl : Listed ⟨0, 0, .directory⟩
      (newDirectory ⟨0, 0, .directory⟩ ⟨0, 0, .directory⟩) (VirtualFileSystem.new ()).world :=
    listed_of_used hused ⟨_, rfl⟩ (by decide +kernel)
  have hrun : Run (guarded NoneLater (step noDevices)) rootOpened growing
      (reach (guarded NoneLater (step noDevices)) rootOpened growing) :=
    run_reach (by decide +kernel)
  exact ⟨iterates_in_order hl hrun, by decide +kernel⟩

/-- Read to its end, the directory gets two entries, of which the first is never returned. -/
def lateEntries : List Event :=
  [.readdir, .readdir, .readdir, .mknod "a", .mknod "b", .readdir]

theorem entry_lost :
    Run (step noDevices) rootOpened lateEntries (reach (step noDevices) rootOpened lateEntries) ∧
      (reach (step noDevices) rootOpened lateEntries).returned.map NodeLink.name =
        [".", "..", "b"] ∧
      ¬ Iterates (reach (step noDevices) rootOpened lateEntries) := by
  refine ⟨run_reach (by decide +kernel), by decide +kernel, ?_⟩
  rintro ⟨l, k, hl, hk⟩
  have hprefix : (reach (step noDevices) rootOpened lateEntries).returned <+: l :=
    hk ▸ List.take_prefix k l
  have hnot : ∀ l ∈ (reach (step noDevices) rootOpened lateEntries).entries,
      ¬ (reach (step noDevices) rootOpened lateEntries).returned <+: l := by decide +kernel
  exact hnot l hl hprefix

end Pimento.DirectoryIteration
