import Pimento.Elf
import Pimento.FileManager
import Pimento.UserCopy

/-!
The service that executes a user program in the current context.
-/

namespace Pimento

open Address MemoryContext

/-- What executing a program works on: the file systems, and the machine with the memory
context of the task. The copies made to user memory are recorded. -/
structure Process (W : Type) where
  vfs : Vfs W
  scope : Scope
  copied : List LoadablePage

/-- The registers that user code is entered with. -/
structure UserEntry where
  entryPoint : ℕ
  stack : ℕ
  deriving DecidableEq, Repr

namespace TaskExecution

variable {W α : Type} (fs : FileSystem W) (pa : PageAllocator)

/-- `STACK_INIT`. -/
def stackInit : ℕ := 0x80000000

/-- Work on the file systems. -/
def onVfs (x : Exec (Vfs W) α) : Exec (Process W) α :=
  .zoom Process.vfs (fun v s => { s with vfs := v }) x

/-- Work on the memory context. -/
def onScope (x : Exec Scope α) : Exec (Process W) α :=
  .zoom Process.scope (fun c s => { s with scope := c }) x

/-- Work on the open file. -/
def onFile (x : Exec (Handle W File) α) : Exec (Handle (Process W) File) α :=
  .zoom (fun s => ⟨s.world.vfs.world, s.handle⟩)
    (fun f s => ⟨{ s.world with vfs := { s.world.vfs with world := f.world } }, f.handle⟩) x

/-- `copy_to_user` for the contents of a page. -/
def copyPage (page : LoadablePage) : Exec (Process W) Unit := do
  onScope (UserCopy.copyToUser page.bytes page.address)
  .modify fun s => { s with copied := s.copied ++ [page] }

/-- The body of the loop: `alloc_page` and `copy_to_user`. -/
@[irreducible] def loadPage (page : LoadablePage) : Exec (Process W) Unit := do
  let _ ← onScope (allocPage pa page.address)
  copyPage page

/-- The loop that copies each section from the binary file, for at most the given number of
iterations. -/
def load (reader : Elf64Reader) : ℕ → LoadablePages → Exec (Handle (Process W) File) Unit
  | 0, _ => .hang
  | n + 1, pages => do
    match ← onFile (LoadablePages.next fs reader pages) with
    | (none, _) => pure ()
    | (some page, pages) =>
      Handle.onWorld (loadPage pa page)
      load reader n pages

/-- The pages of a segment whose addresses a context can map. -/
def segmentBound : ℕ := 2 ^ 36

/-- Every iteration but the last one loads a page or fails, and a page has an address that a
context can map: more of them would go round for ever. -/
def loadBound (reader : Elf64Reader) : ℕ := reader.programHeaders.length * segmentBound + 1

/-- What follows once the file is open, up to user code. -/
def executeFile : Exec (Handle (Process W) File) UserEntry := do
  let reader ← onFile (Elf64Reader.new fs)
  load fs pa reader (loadBound reader) .new
  let _ ← Handle.onWorld (onScope (allocPage pa (stackInit - pageSize)))
  return ⟨reader.entryPoint, stackInit⟩

/-- Executes a user program in the current context. It does not return when it succeeds: its
value is what user code is entered with. -/
def execute (path : PathInfo) : Exec (Process W) UserEntry := do
  let file ← onVfs (FileManager.openFile fs path)
  Handle.withHandle file (executeFile fs pa)

variable {fs pa}

lemma onFile_ok {x : Exec (Handle W File) α} {s : Handle (Process W) File} {a : α}
    {f : Handle W File} (h : x ⟨s.world.vfs.world, s.handle⟩ = (.ok a, f)) :
    onFile x s = (.ok a,
      ⟨{ s.world with vfs := { s.world.vfs with world := f.world } }, f.handle⟩) := by
  simp [onFile, Exec.zoom, h]

variable {reader : Elf64Reader} {pages c : LoadablePages} {s t u v : Handle (Process W) File}
  {n : ℕ}

/-- The loop ends when the iterator does. -/
lemma load_none (h : onFile (LoadablePages.next fs reader pages) s = (.ok (none, c), t)) :
    load fs pa reader (n + 1) pages s = (.ok (), t) := by
  rw [load, Exec.bind_ok h]
  rfl

/-- One round of the loop. -/
lemma load_some {page : LoadablePage}
    (h : onFile (LoadablePages.next fs reader pages) s = (.ok (some page, c), t))
    (hp : Handle.onWorld (loadPage pa page) t = (.ok (), u)) :
    load fs pa reader (n + 1) pages s = load fs pa reader n c u := by
  rw [load, Exec.bind_ok h]
  exact Exec.bind_ok hp

lemma loadPage_ok {page : LoadablePage} {p : Process W} {g : ℕ} {x y : Scope}
    (ha : allocPage pa page.address p.scope = (.ok g, x))
    (hc : UserCopy.copyToUser page.bytes page.address x = (.ok (), y)) :
    loadPage pa page p = (.ok (), ⟨p.vfs, y, p.copied ++ [page]⟩) := by
  unfold loadPage copyPage
  simp [onScope, Exec.zoom, Exec.bind_apply, ha, hc]

/-- The iterator at its end. -/
lemma next_end (h : LoadablePages.nextRange pages
    (reader.programHeaders.drop pages.programHeaderIndex) = (none, c)) :
    onFile (LoadablePages.next fs reader pages) s = (.ok (none, c), s) :=
  onFile_ok (LoadablePages.next_none h)

end TaskExecution

end Pimento
