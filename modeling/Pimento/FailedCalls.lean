import Pimento.PathCalls

/-!
Calls by path that fail.

The error branches behind the checks of the virtual file system are never taken, so a call that
returns `Err` has done nothing.
-/

namespace Pimento.FailedCalls

open FileTree MountTable NodeCalls ParentLookup PathCalls VirtualFileSystem Walk

/-- The call returns with `Ok`, or with `Err` and the state as it was. -/
def Settles {σ α : Type} (x : Exec σ α) (s : σ) : Prop :=
  (∃ a s', x s = (.ok a, s')) ∨ x s = (.err, s)

variable {D : Type} {devices : CharacterDevices D} {s : Vfs (Files D)} {path : PathInfo}

/-- A call that walks a path first settles if it does so on the node. -/
lemma settles_walk {α : Type} {op : Node → Exec (Vfs (Files D)) α} (h : Inv s)
    (hp : Startable s path.start) (hop : ∀ n, s.world.Known n → Settles (op n) s) :
    Settles (FileManager.walk (Files.fileSystem devices) path >>= op) s := by
  have hw := h.walk_eq devices path hp
  rcases hx : follow devices s path.tokens (start devices s path.start) with _ | n
  · rw [hx] at hw
    exact .inr (Exec.bind_err hw)
  · rw [hx] at hw
    rw [Settles, Exec.bind_ok hw]
    exact hop n (h.follow_known (h.start_known devices hp) hx)

lemma settles_byPath (devices : CharacterDevices D) (h : Inv s) (op : Creation)
    (hp : Startable s path.start) : Settles (op.byPath devices path) s := by
  rcases byPath_cases devices h op hp with ⟨n, name, dir, t, nodeLinks, t', -, -, -, -, he⟩ |
    ⟨-, he⟩
  · exact .inl ⟨(), _, he⟩
  · exact .inr he

lemma settles_mount (h : Inv s) (hp : Startable s path.start) (f : FsId) :
    Settles (FileManager.mount (Files.fileSystem devices) path f) s := by
  refine settles_walk h hp fun n hn => ?_
  have he := mount_eq f ((h.table devices).resolveSubtree_eq hn)
  by_cases hc : (top (Files.fileSystem devices) s n).nodeType = .directory ∧
      ∀ m ∈ s.mounts, m.subtree ≠ f
  · rw [if_pos hc] at he
    exact .inl ⟨(), _, he⟩
  · rw [if_neg hc] at he
    exact .inr he

lemma settles_opendir (h : Inv s) (hp : Startable s path.start) :
    Settles (FileManager.opendir (Files.fileSystem devices) path) s := by
  refine settles_walk h hp fun n hn => ?_
  rw [Settles, h.opendir_eq devices hn]
  by_cases hd : (top (Files.fileSystem devices) s n).nodeType = .directory
  · exact .inl ⟨Directory.new (top (Files.fileSystem devices) s n), s, by simp only [hd, if_true]⟩
  · exact .inr (by simp only [hd, if_false])

lemma settles_openFile (h : Inv s) (hp : Startable s path.start) :
    Settles (FileManager.openFile (Files.fileSystem devices) path) s := by
  refine settles_walk h hp fun n hn => ?_
  rw [Settles, openFile_eq devices h hn]
  by_cases hd : (top (Files.fileSystem devices) s n).nodeType = .directory
  · exact .inr (by simp only [hd, if_true])
  · exact .inl ⟨File.new (top (Files.fileSystem devices) s n), s, by simp only [hd, if_false]⟩

/-- **Failed calls**: every `mkdir`, `mknod`, `mount`, `opendir` and `open`, whatever its path,
returns, and where it returns `Err` it leaves everything as it was. -/
theorem failed_unchanged {d : D} (hr : Used devices d s) (hp : Startable s path.start) :
    Settles (FileManager.mkdir (Files.fileSystem devices) path) s ∧
      Settles (FileManager.mknod (Files.fileSystem devices) path) s ∧
      (∀ f, Settles (FileManager.mount (Files.fileSystem devices) path f) s) ∧
      Settles (FileManager.opendir (Files.fileSystem devices) path) s ∧
      Settles (FileManager.openFile (Files.fileSystem devices) path) s := by
  have h := Inv.of_used hr
  exact ⟨settles_byPath devices h .mkdir hp, settles_byPath devices h .mknod hp,
    settles_mount h hp, settles_opendir h hp, settles_openFile h hp⟩

theorem failed_unchanged_withMount :
    Settles (FileManager.mkdir (Files.fileSystem noDevices) (rootEntry "a")) withMount ∧
      Settles (FileManager.mknod (Files.fileSystem noDevices) (rootEntry "a")) withMount ∧
      (∀ f, Settles (FileManager.mount (Files.fileSystem noDevices) (rootEntry "a") f) withMount) ∧
      Settles (FileManager.opendir (Files.fileSystem noDevices) (rootEntry "a")) withMount ∧
      Settles (FileManager.openFile (Files.fileSystem noDevices) (rootEntry "a")) withMount :=
  failed_unchanged reachable_withMount.used
    (show Startable withMount (rootEntry "a").start from trivial)

end Pimento.FailedCalls
