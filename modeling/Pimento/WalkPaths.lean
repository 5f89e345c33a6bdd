import Pimento.ParentLookup
import Pimento.SplitOn

/-!
Walking a path in two parts.

A slash cuts a path into two lists of tokens, and the walk over both goes on where the walk over
the first has ended: at a mount point that is not yet resolved, which the next token resolves.
-/

namespace Pimento

open SplitOn

namespace PathInfo

variable {p q : String} {start : Node}

lemma slash_toString : slash.toString = String.singleton slash := rfl

/-- A slash separates the tokens before it from those after it. -/
lemma pathStrToTokens_join (p q : String) :
    pathStrToTokens (p ++ "/" ++ q) = pathStrToTokens p ++ pathStrToTokens q := by
  have hslash : "/" = String.singleton slash := rfl
  unfold pathStrToTokens
  rw [slash_toString, hslash, splitOn_append_singleton, List.filterMap_append]

lemma pathStrToTokens_empty : pathStrToTokens "" = [] := by
  unfold pathStrToTokens
  rw [slash_toString, splitOn_singleton]
  simp

lemma absolute_eq (p : String) :
    absolute p = if p.toList.head? = some slash then some ⟨pathStrToTokens p, .root⟩ else none :=
  rfl

lemma new_eq (p : String) (start : Node) :
    new p start =
      ⟨pathStrToTokens p, if p.toList.head? = some slash then .root else .node start⟩ := by
  unfold new
  rw [absolute_eq]
  split <;> rename_i h <;> split at h <;> simp_all

/-- A path that has something before a slash starts where this starts. -/
lemma new_join (hp : p ≠ "") (q : String) (start : Node) :
    new (p ++ "/" ++ q) start =
      ⟨(new p start).tokens ++ pathStrToTokens q, (new p start).start⟩ := by
  have hhead : (p ++ "/" ++ q).toList.head? = p.toList.head? := by
    obtain ⟨c, cs, hc⟩ := List.exists_cons_of_ne_nil (by simpa using hp : p.toList ≠ [])
    simp [hc]
  rw [new_eq, new_eq, hhead, pathStrToTokens_join]

lemma new_relative (hq : q.toList.head? ≠ some slash) (start : Node) :
    new q start = ⟨pathStrToTokens q, .node start⟩ := by
  rw [new_eq, if_neg hq]

/-- **Slashes**: one more slash next to a slash changes nothing. -/
lemma new_slashes (p q : String) (start : Node) :
    new (p ++ "//" ++ q) start = new (p ++ "/" ++ q) start := by
  have hsplit : p ++ "//" ++ q = p ++ "/" ++ "" ++ "/" ++ q := by
    rw [show "//" = "/" ++ "/" from rfl, String.append_empty, ← String.append_assoc]
  have htokens : pathStrToTokens (p ++ "//" ++ q) = pathStrToTokens (p ++ "/" ++ q) := by
    rw [hsplit, pathStrToTokens_join, pathStrToTokens_join, pathStrToTokens_join,
      pathStrToTokens_empty, List.append_nil]
  have hhead : (p ++ "//" ++ q).toList.head? = (p ++ "/" ++ q).toList.head? := by
    rcases hc : p.toList with _ | ⟨c, cs⟩ <;> simp [hc]
  rw [new_eq, new_eq, htokens, hhead]

/-- A slash at the end changes nothing. -/
lemma new_trailing (hp : p ≠ "") (start : Node) : new (p ++ "/") start = new p start := by
  have h := new_join hp "" start
  rwa [String.append_empty, pathStrToTokens_empty, List.append_nil] at h

end PathInfo

namespace FileManager

variable {W : Type} (fs : FileSystem W)

lemma walkTokens_append (ts us : List PathToken) (n : Node) :
    walkTokens fs (ts ++ us) n = walkTokens fs ts n >>= walkTokens fs us := by
  induction ts generalizing n with
  | nil => rfl
  | cons t ts ih =>
    simp only [List.cons_append, walkTokens, Exec.bind_assoc]
    exact congrArg _ (funext fun m => ih m)

/-- **Composition**: the walk of a joined path is the walk of its first part and then, from there,
of its second. -/
theorem walk_join {p q : String} (hp : p ≠ "") (hq : q.toList.head? ≠ some slash) (start : Node) :
    walk fs (.new (p ++ "/" ++ q) start) =
      walk fs (.new p start) >>= fun n => walk fs (.new q n) := by
  have hsecond : ∀ n, walk fs (.new q n) = walkTokens fs (PathInfo.pathStrToTokens q) n := by
    intro n
    rw [PathInfo.new_relative hq]
    rfl
  simp only [hsecond]
  rw [PathInfo.new_join hp, walk, walk, Exec.bind_assoc]
  exact congrArg _ (funext fun n => walkTokens_append fs _ _ n)

end FileManager

namespace WalkPaths

open MountTable ParentLookup VirtualFileSystem Walk

variable {D : Type} (devices : CharacterDevices D)

/-- Two walks end with the same node up to `resolve_subtree`, or both fail. -/
def sameEnd (s : Vfs (Files D)) : Outcome Node → Outcome Node → Bool
  | .ok n, .ok m => sameDirectory devices s n m
  | r, r' => r = r'

variable {devices} {s : Vfs (Files D)} {dir n : Node}

section

variable (h : Inv s)

include h

/-- A directory names itself. -/
lemma find_current (hn : s.world.Known dir) (hd : dir.nodeType = .directory) :
    find s.world dir currentName = some dir := by
  obtain ⟨i, nodeLinks, hi, hl, he⟩ := exists_entries hn hd
  obtain ⟨parent, rest, rfl, -⟩ := (h.tree _ i hi).listing _ _ hl
  simp [find, he, newDirectory, currentName, ← hd]

/-- What is on top of a directory is one. -/
lemma top_directory (devices : CharacterDevices D) (hd : dir.nodeType = .directory) :
    (top (Files.fileSystem devices) s dir).nodeType = .directory := by
  rcases leads_mounted ((h.table devices).ends_top dir).leads with he | ⟨m, hm, he⟩
  · rw [he, hd]
  · rw [he, h.root_eq devices (h.subtree m hm)]

lemma next_current (hn : s.world.Known dir) (hd : dir.nodeType = .directory) :
    next devices s dir .current = some (top (Files.fileSystem devices) s dir) := by
  have hdir := top_directory h devices hd
  unfold next
  simp only [hdir, if_true]
  exact find_current h (h.top_known devices hn) hdir

/-- The next token resolves the node itself. -/
lemma next_top (devices : CharacterDevices D) (n : Node) (token : PathToken) :
    next devices s (top (Files.fileSystem devices) s n) token = next devices s n token := by
  unfold next
  rw [(h.table devices).top_top]

/-- A walk ends where it ends. -/
lemma sameEnd_self {us : List PathToken} (hn : s.world.Known n) :
    let r : Outcome Node := match follow devices s us n with
      | some m => .ok m
      | none => .err
    sameEnd devices s r r := by
  rcases hx : follow devices s us n with _ | m
  · rfl
  · have hm := h.follow_known hn hx
    exact (h.sameDirectory_iff devices hm hm).mpr rfl

/-- A `.` after a prefix that ends at a directory leads to the same node. -/
lemma follow_current {ts us : List PathToken} (hs : s.world.Known n)
    (hdir : follow devices s ts n = some dir) (hd : dir.nodeType = .directory) :
    follow devices s (ts ++ .current :: us) n =
      match us with
      | [] => some (top (Files.fileSystem devices) s dir)
      | _ => follow devices s (ts ++ us) n := by
  have hk := h.follow_known hs hdir
  rw [follow_append, hdir, Option.bind_some, follow, next_current h hk hd, Option.bind_some]
  cases us with
  | nil => rfl
  | cons u us =>
    simp only [follow_append, hdir, Option.bind_some, follow]
    rw [next_top h]

end

/-- **Walking paths**: the walk of a path joined with a slash is the walk of its first part and
then of its second from there; more slashes change nothing, and neither does a `.` after a
directory, up to `resolve_subtree`. -/
theorem walk_composes {d : D} (hr : Reachable devices d s) :
    (∀ (p q : String) (start : Node), p ≠ "" → q.toList.head? ≠ some slash →
      FileManager.walk (Files.fileSystem devices) (.new (p ++ "/" ++ q) start) s =
        (FileManager.walk (Files.fileSystem devices) (.new p start) >>= fun n =>
          FileManager.walk (Files.fileSystem devices) (.new q n)) s) ∧
    (∀ (p q : String) (start : Node),
      FileManager.walk (Files.fileSystem devices) (.new (p ++ "//" ++ q) start) s =
        FileManager.walk (Files.fileSystem devices) (.new (p ++ "/" ++ q) start) s) ∧
    (∀ (p : String) (start : Node), p ≠ "" →
      FileManager.walk (Files.fileSystem devices) (.new (p ++ "/") start) s =
        FileManager.walk (Files.fileSystem devices) (.new p start) s) ∧
    ∀ (start : PathStart) (ts us : List PathToken) (dir : Node), Startable s start →
      (FileManager.walk (Files.fileSystem devices) ⟨ts, start⟩ s).1 = .ok dir →
      dir.nodeType = .directory →
      sameEnd devices s
        (FileManager.walk (Files.fileSystem devices) ⟨ts ++ .current :: us, start⟩ s).1
        (FileManager.walk (Files.fileSystem devices) ⟨ts ++ us, start⟩ s).1 := by
  refine ⟨fun p q start hp hq => ?_, fun p q start => ?_, fun p start hp => ?_,
    fun start ts us dir hp hw hd => ?_⟩
  · rw [FileManager.walk_join _ hp hq]
  · rw [PathInfo.new_slashes]
  · rw [PathInfo.new_trailing hp]
  · have h := Inv.of_reachable hr
    have hs := h.start_known devices hp
    rw [walk_result h devices ⟨ts, start⟩ hp] at hw
    rw [walk_result h devices ⟨ts ++ .current :: us, start⟩ hp,
      walk_result h devices ⟨ts ++ us, start⟩ hp]
    simp only at hw ⊢
    rcases hf : follow devices s ts (Walk.start devices s start) with _ | dir'
    · simp [hf] at hw
    · obtain rfl : dir' = dir := by simpa [hf] using hw
      rw [follow_current h hs hf hd]
      cases us with
      | nil =>
        have hk := h.follow_known hs hf
        rw [List.append_nil, hf]
        exact (h.sameDirectory_iff devices (h.top_known devices hk) hk).mpr
          ((h.table devices).top_top dir')
      | cons u us => exact sameEnd_self h hs

/-- The walk of `/a` ends at a mount point, and `.` goes on from the root mounted there. -/
theorem walk_composes_mounted :
    FileManager.walk (Files.fileSystem noDevices) (.new ("/a" ++ "/" ++ "..") ⟨0, 0, .directory⟩)
        withMount =
      (FileManager.walk (Files.fileSystem noDevices) (.new "/a" ⟨0, 0, .directory⟩) >>= fun n =>
        FileManager.walk (Files.fileSystem noDevices) (.new ".." n)) withMount ∧
    sameEnd noDevices withMount
      (FileManager.walk (Files.fileSystem noDevices) ⟨[.literal "a", .current], .root⟩ withMount).1
      (FileManager.walk (Files.fileSystem noDevices) ⟨[.literal "a"], .root⟩ withMount).1 ∧
    (FileManager.walk (Files.fileSystem noDevices) ⟨[.literal "a", .current], .root⟩
      withMount).1 = .ok ⟨1, 0, .directory⟩ := by
  obtain ⟨hjoin, -, -, hcurrent⟩ := walk_composes reachable_withMount
  exact ⟨hjoin "/a" ".." _ (by decide) (by decide),
    hcurrent .root [.literal "a"] [] ⟨0, 1, .directory⟩ trivial (by decide +kernel) rfl,
    by decide +kernel⟩

end WalkPaths

end Pimento
