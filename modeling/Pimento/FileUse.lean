import Pimento.FileContents
import Pimento.FileSteps

/-!
The file systems in use: besides what is done to them by path, open files are read and written.

Reading and writing change the contents of files and the state of devices. The trees stay as they
are.
-/

namespace Pimento

open FileTree VirtualFileSystem Walk

/-- A call on an open file. -/
inductive FileCall
  | seek (position : ℕ)
  | read (count : ℕ)
  | write (buf : List Byte)
  deriving DecidableEq, Repr

namespace FileCall

variable {W : Type} (fs : FileSystem W)

/-- The call, without what it returns. -/
def perform : FileCall → Exec (Handle W File) Unit
  | seek position => File.seek fs position
  | read count => do let _ ← File.read fs count
  | write buf => do let _ ← File.write fs buf

end FileCall

namespace VirtualFileSystem

variable {D : Type} (devices : CharacterDevices D)

/-- The states that events lead to, with calls on any open files in between. -/
inductive Used (d : D) : Vfs (Files D) → Prop
  | new : Used d (new d)
  | step {s s' : Vfs (Files D)} {e : FileEvent} (h : Used d s) (hs : Does devices s e s') :
      Used d s'
  | use {s : Vfs (Files D)} (h : Used d s) (file : File) (call : FileCall) :
      Used d { s with world := (call.perform (Files.fileSystem devices) ⟨s.world, file⟩).2.world }

lemma Reachable.used {devices : CharacterDevices D} {d : D} {s : Vfs (Files D)}
    (h : Reachable devices d s) : Used devices d s := by
  induction h with
  | new => exact .new
  | step _ hs ih => exact ih.step hs

end VirtualFileSystem

namespace Walk

variable {D α : Type} {devices : CharacterDevices D} {s : Vfs (Files D)} {w : Files D} {f : FsId}
  {t : Tmpfs}

/-- A tree does not depend on the contents of its files. -/
lemma tree_files (h : Tree f (.tmpfs t)) (files : Std.TreeMap ℕ (List Byte)) :
    Tree f (.tmpfs { t with files }) := by
  refine ⟨h.root, h.rootDirectory, h.below, fun k nodeLinks hk => ?_⟩
  obtain ⟨parent, rest, hl, hp, h0, hlt, hr⟩ := h.listing k nodeLinks hk
  refine ⟨parent, rest, hl, hp, h0, hlt, fun c hc => ?_⟩
  obtain ⟨hf, hb, hty, hpar⟩ := hr c hc
  exact ⟨hf, hb, hty, hpar⟩

/-- A call of a method that changes no more than the contents of files keeps the invariant. -/
lemma keeps_call (s : Vfs (Files D)) (f : FsId) {tmpfs : Exec Tmpfs α} {devfs : Devfs → Exec D α}
    (ht : ∀ t, ∃ files, (tmpfs t).2 = { t with files }) :
    Exec.Keeps (fun w => Inv { s with world := w }) (Files.call f tmpfs devfs) := by
  intro w h
  unfold Files.call
  rcases hi : w.instances[f]? with _ | t | d
  · exact h
  · obtain ⟨files, hfiles⟩ := ht t
    simp only [hfiles]
    exact h.set hi ⟨le_rfl, fun _ _ => rfl⟩ (tree_files (h.tree f _ hi) files)
  · exact ⟨h.tree, h.root, h.stacked, h.point, h.subtree⟩

lemma seek_files (file : Node) (position : ℕ) (t : Tmpfs) :
    ∃ files, (Tmpfs.seek file position t).2 = { t with files } := ⟨t.files, rfl⟩

lemma read_files (file : Node) (position count : ℕ) (t : Tmpfs) :
    ∃ files, (Tmpfs.read file position count t).2 = { t with files } :=
  ⟨t.files, Tmpfs.read_same file position count t⟩

lemma write_files (file : Node) (position : ℕ) (buf : List Byte) (t : Tmpfs) :
    ∃ files, (Tmpfs.write file position buf t).2 = { t with files } := by
  unfold Tmpfs.write
  rw [Exec.get_bind]
  rcases t.files[file.nodeId]? with _ | bytes
  · exact ⟨t.files, rfl⟩
  · simp only [Exec.okOr_some, Exec.pure_bind, Exec.modify_bind]
    split
    · exact ⟨_, rfl⟩
    · split <;> exact ⟨_, rfl⟩

/-- Work on the world of an open file keeps what it keeps of the world. -/
lemma keeps_onWorld {W H : Type} {K : W → Prop} {x : Exec W α} (hx : Exec.Keeps K x) :
    Exec.Keeps (fun h : Handle W H => K h.world) (Handle.onWorld x) :=
  fun h hk => hx h.world hk

lemma keeps_upgrade {W : Type} {K : W → Prop} (fs : FileSystem W) (node : Node) :
    Exec.Keeps K (fs.upgrade node) :=
  Exec.keeps_get.bind fun _ => (Exec.keeps_guard _).bind fun _ => Exec.keeps_pure _

/-- Calls on open files keep the invariant. -/
lemma keeps_perform (devices : CharacterDevices D) (s : Vfs (Files D)) (call : FileCall) :
    Exec.Keeps (fun h => Inv { s with world := h.world })
      (call.perform (Files.fileSystem devices)) := by
  have hon : ∀ {α : Type} {x : Exec (Files D) α},
      Exec.Keeps (fun w => Inv { s with world := w }) x →
      Exec.Keeps (fun h : Handle (Files D) File => Inv { s with world := h.world })
        (Handle.onWorld x) := fun hx =>
    keeps_onWorld (K := fun w => Inv { s with world := w }) hx
  have hup := fun node => hon (keeps_upgrade (Files.fileSystem devices) node)
  cases call with
  | seek position =>
    refine Exec.keeps_get.bind fun h => (hup _).bind fun f => (hon ?_).bind fun _ => ?_
    · exact keeps_call s f (seek_files _ position)
    · exact fun _ hk => hk
  | read count =>
    refine (Exec.keeps_get.bind fun h => (hup _).bind fun f => (hon ?_).bind fun _ => ?_).bind
      fun _ => Exec.keeps_pure _
    · exact keeps_call s f (read_files _ _ count)
    · exact fun _ hk => hk
  | write buf =>
    refine (Exec.keeps_get.bind fun h => (hup _).bind fun f => (hon ?_).bind fun _ => ?_).bind
      fun _ => Exec.keeps_pure _
    · exact keeps_call s f (write_files _ _ buf)
    · exact fun _ hk => hk

/-- **Invariant of file systems in use**: it holds whatever is done by path or on open files. -/
theorem Inv.of_used {d : D} (h : Used devices d s) : Inv s := by
  induction h with
  | new => exact inv_new d
  | step _ hs ih => exact ih.step hs
  | @use s _ file call ih => exact keeps_perform devices s call ⟨s.world, file⟩ ih

end Walk

end Pimento
