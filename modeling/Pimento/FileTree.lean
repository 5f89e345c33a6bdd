import Pimento.Files
import Pimento.MountTable

/-!
Every file system is a tree, and stays one.

A directory lists itself, its parent, and then its children; a child directory lists it as its
parent in turn. Children are younger than their parents.
-/

namespace Pimento.FileTree

open MountTable VirtualFileSystem

/-- A node linked in a directory, besides itself and its parent. -/
structure Child (f : FsId) (i : Instance) (dir : ℕ) (n : Node) : Prop where
  fileSystem : n.fileSystem = f
  below : n.nodeId < i.nodeCounter
  nodeType : n.nodeType = i.typeOf n.nodeId
  parent : n.nodeType = .directory →
    ∃ rest, i.directories[n.nodeId]? = some (newDirectory n ⟨f, dir, .directory⟩ ++ rest)

/-- The links of a directory. Only the root is its own parent. -/
def Listing (f : FsId) (i : Instance) (dir : ℕ) (nodeLinks : List NodeLink) : Prop :=
  ∃ parent rest,
    nodeLinks = newDirectory ⟨f, dir, .directory⟩ ⟨f, parent, .directory⟩ ++ rest ∧
    i.isDirectory parent ∧ (dir = 0 → parent = 0) ∧ (dir ≠ 0 → parent < dir) ∧
    ∀ c ∈ rest, Child f i dir c.node

structure Tree (f : FsId) (i : Instance) : Prop where
  root : i.root = ⟨f, 0, .directory⟩
  rootDirectory : i.isDirectory 0
  below : ∀ k, i.isDirectory k → k < i.nodeCounter
  listing : ∀ k nodeLinks, i.directories[k]? = some nodeLinks → Listing f i k nodeLinks

/-- A file system grows: what its nodes were they still are. -/
structure Grows (i i' : Instance) : Prop where
  counter : i.nodeCounter ≤ i'.nodeCounter
  typeOf : ∀ k < i.nodeCounter, i'.typeOf k = i.typeOf k

section

variable {f : FsId} {i i' : Instance} {d : ℕ} {nodeLinks links : List NodeLink}
  {nodeType : NodeType}

lemma leafType_ne (i : Instance) : i.leafType ≠ .directory := by
  cases i <;> simp [Instance.leafType]

lemma typeOf_eq_directory {k : ℕ} : i.typeOf k = .directory ↔ i.isDirectory k := by
  unfold Instance.typeOf
  split <;> simp [*, leafType_ne]

lemma directories_newInstance (f : FsId) (kind : Files.Kind) (k : ℕ) :
    (Files.newInstance f kind).directories[k]? =
      if k = 0 then some (newDirectory ⟨f, 0, .directory⟩ ⟨f, 0, .directory⟩) else none := by
  have hi (l : List NodeLink) : ((∅ : Std.TreeMap ℕ (List NodeLink)).insert 0 l)[k]? =
      if k = 0 then some l else none := by
    by_cases hk : k = 0
    · simp [hk]
    · simp [hk, Ne.symm hk]
  cases kind <;> exact hi _

lemma nodeCounter_newInstance (f : FsId) (kind : Files.Kind) :
    (Files.newInstance f kind).nodeCounter = 1 := by
  cases kind <;> rfl

/-- A new file system is a tree. -/
lemma tree_newInstance (f : FsId) (kind : Files.Kind) : Tree f (Files.newInstance f kind) := by
  have hd := directories_newInstance f kind
  have hc := nodeCounter_newInstance f kind
  refine ⟨by cases kind <;> rfl, by simp [Instance.isDirectory, hd], fun k hk => ?_, ?_⟩
  · rw [Instance.isDirectory, hd] at hk
    rw [hc]
    split at hk
    · omega
    · simp at hk
  · intro k nodeLinks hk
    rw [hd] at hk
    split at hk
    · obtain rfl := Option.some.inj hk
      subst k
      exact ⟨0, [], by simp, by simp [Instance.isDirectory, hd], by simp, by simp, by simp⟩
    · simp at hk

/-- What a change adds to a file system: a node of the given type, linked in a directory, with
its own links when it is a directory. -/
structure Adds (f : FsId) (i : Instance) (d : ℕ) (nodeLinks : List NodeLink)
    (nodeType : NodeType) (i' : Instance) : Prop where
  root : i'.root = i.root
  leafType : i'.leafType = i.leafType
  type : nodeType = .directory ∨ nodeType = i.leafType
  counter : i'.nodeCounter = i.nodeCounter + 1
  dir : i.directories[d]? = some nodeLinks
  directories : ∃ links : List NodeLink, (∀ c ∈ links, c.node = ⟨f, i.nodeCounter, nodeType⟩) ∧
    ∀ k : ℕ, i'.directories[k]? =
      if k = d then some (nodeLinks ++ links)
      else if k = i.nodeCounter ∧ nodeType = .directory then
        some (newDirectory ⟨f, i.nodeCounter, .directory⟩ ⟨f, d, .directory⟩)
      else i.directories[k]?

namespace Adds

variable (ha : Adds f i d nodeLinks nodeType i')

include ha

lemma isDirectory_of_lt {k : ℕ} (hk : k < i.nodeCounter) :
    i'.isDirectory k = i.isDirectory k := by
  obtain ⟨links, -, hd⟩ := ha.directories
  rw [Instance.isDirectory, Instance.isDirectory, hd k]
  by_cases hkd : k = d
  · simp [hkd, ha.dir]
  · simp [hkd, hk.ne]

lemma typeOf_of_lt {k : ℕ} (hk : k < i.nodeCounter) : i'.typeOf k = i.typeOf k := by
  rw [Instance.typeOf, Instance.typeOf, ha.isDirectory_of_lt hk, ha.leafType]

lemma grows : Grows i i' := ⟨by rw [ha.counter]; omega, fun _ => ha.typeOf_of_lt⟩

lemma child {dir : ℕ} {n : Node} (hc : Child f i dir n) : Child f i' dir n := by
  refine ⟨hc.fileSystem, by have := hc.below; rw [ha.counter]; omega, ?_, fun hn => ?_⟩
  · rw [ha.typeOf_of_lt hc.below, hc.nodeType]
  · obtain ⟨links, -, hd⟩ := ha.directories
    obtain ⟨rest, hr⟩ := hc.parent hn
    by_cases hk : n.nodeId = d
    · rw [hk, ha.dir] at hr
      obtain rfl := Option.some.inj hr
      exact ⟨rest ++ links, by simp [hd, hk]⟩
    · exact ⟨rest, by rw [hd, if_neg hk, if_neg (by simp [hc.below.ne]), hr]⟩

variable (ht : Tree f i)

include ht

lemma dir_lt : d < i.nodeCounter := ht.below d (by simp [Instance.isDirectory, ha.dir])

lemma typeOf_new : i'.typeOf i.nodeCounter = nodeType := by
  obtain ⟨links, -, hd⟩ := ha.directories
  have hdl := ha.dir_lt ht
  have hnew : i.directories[i.nodeCounter]? = none := by
    have := fun h => (ht.below i.nodeCounter h).ne
    simpa [Instance.isDirectory] using this
  rcases ha.type with rfl | rfl
  · simp [Instance.typeOf, Instance.isDirectory, hd, hdl.ne']
  · simp [Instance.typeOf, Instance.isDirectory, hd, hdl.ne', ha.leafType, leafType_ne, hnew]

lemma newChild {c : NodeLink} (hc : c.node = ⟨f, i.nodeCounter, nodeType⟩) :
    Child f i' d c.node := by
  rw [hc]
  refine ⟨rfl, by simp [ha.counter], (ha.typeOf_new ht).symm, fun hn => ?_⟩
  obtain ⟨links, -, hd⟩ := ha.directories
  have hdl := ha.dir_lt ht
  simp only at hn ⊢
  subst hn
  exact ⟨[], by simp [hd, hdl.ne']⟩

/-- The old listings stay, one with the new node added. -/
lemma listing_old {k : ℕ} {old new : List NodeLink} (h : i.directories[k]? = some old)
    (hn : ∃ links : List NodeLink, new = old ++ links ∧ ∀ c ∈ links, Child f i' k c.node) :
    Listing f i' k new := by
  obtain ⟨links, rfl, hl⟩ := hn
  obtain ⟨parent, rest, rfl, hp, h0, hlt, hr⟩ := ht.listing k old h
  refine ⟨parent, rest ++ links, by simp, ?_, h0, hlt, ?_⟩
  · rwa [ha.isDirectory_of_lt (ht.below parent hp)]
  · intro c hc
    rcases List.mem_append.mp hc with hc | hc
    · exact ha.child (hr c hc)
    · exact hl c hc

/-- **Growth of the tree**: adding a node to a directory of a tree gives a tree. -/
theorem tree : Tree f i' := by
  have hdl := ha.dir_lt ht
  obtain ⟨links, hlinks, hd⟩ := ha.directories
  refine ⟨ha.root.trans ht.root, ?_, fun k hk => ?_, fun k new hk => ?_⟩
  · rw [ha.isDirectory_of_lt (by omega)]
    exact ht.rootDirectory
  · rw [ha.counter]
    by_contra hge
    have hk' : i.isDirectory k := by
      rw [Instance.isDirectory, hd, if_neg (by omega), if_neg (by omega)] at hk
      exact hk
    have := ht.below k hk'
    omega
  · rw [hd] at hk
    by_cases hkd : k = d
    · rw [if_pos hkd] at hk
      obtain rfl := Option.some.inj hk
      subst k
      exact ha.listing_old ht ha.dir ⟨links, rfl, fun c hc => ha.newChild ht (hlinks c hc)⟩
    · rw [if_neg hkd] at hk
      by_cases hkn : k = i.nodeCounter ∧ nodeType = .directory
      · rw [if_pos hkn] at hk
        obtain rfl := Option.some.inj hk
        obtain ⟨rfl, -⟩ := hkn
        refine ⟨d, [], by simp, ?_, by omega, fun _ => hdl, by simp⟩
        rw [ha.isDirectory_of_lt hdl]
        simp [Instance.isDirectory, ha.dir]
      · rw [if_neg hkn] at hk
        exact ha.listing_old ht hk ⟨[], by simp, by simp⟩

end Adds

/-- Registering a device adds it to the root of a device file system. -/
lemma adds_registerCharacterDevice {d : Devfs} (name : String) (device : ℕ)
    (hr : d.root.fileSystem = f)
    (h : d.directories[d.root.nodeId]? = some nodeLinks) :
    Adds f (.devfs d) d.root.nodeId nodeLinks .characterDevice
      (.devfs (Devfs.registerCharacterDevice name device d).2) := by
  rw [Devfs.registerCharacterDevice_of_some name device h]
  refine ⟨rfl, rfl, .inr rfl, rfl, h, [⟨name, f, d.nodeCounter, .characterDevice⟩],
    by simp [Instance.nodeCounter], fun k => ?_⟩
  simp only [Instance.directories, hr, Std.TreeMap.getElem?_insert, Std.compare_eq_iff_eq]
  by_cases hk : k = d.root.nodeId
  · simp [hk]
  · simp [hk, Ne.symm hk]

end

end Pimento.FileTree
