import Pimento.FileTree

/-!
Making a directory or a file in a temporary file system.

Both operations take a new number, link it in a directory and store an empty directory or an
empty file under it. `mkdir` links it twice.
-/

namespace Pimento

open FileTree

/-- The operations that make a node. -/
inductive Creation
  | mkdir
  | mknod
  deriving DecidableEq, Repr

namespace Creation

def nodeType : Creation → NodeType
  | mkdir => .directory
  | mknod => .file

/-- How often the new node is linked in its directory. -/
def copies : Creation → ℕ
  | mkdir => 2
  | mknod => 1

/-- The operation of a temporary file system. -/
def make : Creation → Node → String → Exec Tmpfs Unit
  | mkdir => Tmpfs.mkdir
  | mknod => Tmpfs.mknod

/-- What making a node in a directory changes. -/
structure Makes (op : Creation) (dir : Node) (name : String) (nodeLinks : List NodeLink)
    (t t' : Tmpfs) : Prop where
  root : t'.root = t.root
  counter : t'.nodeCounter = t.nodeCounter + 1
  entries : t.directories[dir.nodeId]? = some nodeLinks
  directories : ∀ k : ℕ, t'.directories[k]? =
    if k = dir.nodeId then
      some (nodeLinks ++ List.replicate op.copies
        ⟨name, dir.fileSystem, t.nodeCounter, op.nodeType⟩)
    else if k = t.nodeCounter ∧ op = .mkdir then
      some (newDirectory ⟨dir.fileSystem, t.nodeCounter, .directory⟩ dir)
    else t.directories[k]?
  files : ∀ k : ℕ, t'.files[k]? =
    if k = t.nodeCounter ∧ op = .mknod then some [] else t.files[k]?

variable {op : Creation} {t t' : Tmpfs} {dir : Node} {name : String} {nodeLinks : List NodeLink}
  {f : FsId}

lemma nodeType_eq_directory : op.nodeType = .directory ↔ op = .mkdir := by
  cases op <;> simp [nodeType]

/-- Nothing can fail in a directory that exists. -/
lemma exists_makes (op : Creation) (name : String) (h : t.directories[dir.nodeId]? = some nodeLinks)
    (hne : dir.nodeId ≠ t.nodeCounter) :
    ∃ t', op.make dir name t = (.ok (), t') ∧ Makes op dir name nodeLinks t t' := by
  cases op with
  | mkdir =>
    obtain ⟨t', ht', hr, hc, hf, hd⟩ := Tmpfs.mkdir_of_some name h hne
    exact ⟨t', ht', hr, hc, h, by simpa [copies, nodeType] using hd, by simp [hf]⟩
  | mknod =>
    refine ⟨_, Tmpfs.mknod_of_some name h, rfl, rfl, h, fun k => ?_, fun k => ?_⟩
    · simp only [Std.TreeMap.getElem?_insert, Std.compare_eq_iff_eq]
      by_cases hk : k = dir.nodeId
      · simp [hk, copies, nodeType]
      · simp [hk, Ne.symm hk]
    · simp only [Std.TreeMap.getElem?_insert, Std.compare_eq_iff_eq]
      by_cases hk : k = t.nodeCounter
      · simp [hk]
      · simp [hk, Ne.symm hk]

/-- Making a node adds it to its directory. -/
lemma Makes.adds (h : Makes op dir name nodeLinks t t')
    (hd : dir = ⟨dir.fileSystem, dir.nodeId, .directory⟩) :
    Adds dir.fileSystem (.tmpfs t) dir.nodeId nodeLinks op.nodeType (.tmpfs t') where
  root := h.root
  leafType := rfl
  type := by cases op <;> simp [nodeType, Instance.leafType]
  counter := h.counter
  dir := h.entries
  directories := by
    refine ⟨List.replicate op.copies ⟨name, dir.fileSystem, t.nodeCounter, op.nodeType⟩,
      fun c hc => ?_, fun k => ?_⟩
    · rw [List.eq_of_mem_replicate hc]
      rfl
    · have hk := h.directories k
      simp only [Instance.directories, Instance.nodeCounter, nodeType_eq_directory, ← hd]
      exact hk

/-- The links of a directory stay, and those to a child made in it follow. -/
lemma Makes.links (h : Makes op dir name nodeLinks t t') {k : ℕ} {l : List NodeLink}
    (hl : t'.directories[k]? = some l) :
    (k = t.nodeCounter ∧ op = .mkdir ∧
        l = newDirectory ⟨dir.fileSystem, t.nodeCounter, .directory⟩ dir) ∨
      ∃ old new : List NodeLink, t.directories[k]? = some old ∧ l = old ++ new ∧
        ∀ c ∈ new, c.name = name := by
  rw [h.directories] at hl
  split at hl
  · rename_i hk
    refine .inr ⟨nodeLinks, _, by rw [hk, h.entries], (Option.some.inj hl).symm, fun c hc => ?_⟩
    rw [List.eq_of_mem_replicate hc]
  · split at hl
    · rename_i hk
      exact .inl ⟨hk.1, hk.2, (Option.some.inj hl).symm⟩
    · exact .inr ⟨l, [], hl, by simp, by simp⟩

lemma Makes.old_links (h : Makes op dir name nodeLinks t t') {k : ℕ} {l : List NodeLink}
    (hk : k ≠ t.nodeCounter) (hl : t.directories[k]? = some l) :
    ∃ new, t'.directories[k]? = some (l ++ new) := by
  rw [h.directories]
  by_cases hkd : k = dir.nodeId
  · subst hkd
    obtain rfl := Option.some.inj (h.entries.symm.trans hl)
    exact ⟨_, if_pos rfl⟩
  · exact ⟨[], by rw [if_neg hkd, if_neg fun hc => hk hc.1, hl, List.append_nil]⟩

end Creation

end Pimento
