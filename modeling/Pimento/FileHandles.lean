import Mathlib.Logic.Function.Basic
import Pimento.FileUse
import Pimento.Overwrite
import Pimento.Replies

/-!
Open files of temporary file systems.

A node is a string of bytes, and an open file is a position in one. Any number of files may be
open, also on the same node. Directories have no bytes, and calls on them return errors.
-/

namespace Pimento

open Replies

/-- What a call on an open file returns. -/
inductive FileReply
  | unit
  | buf (buf : List Byte)
  | len (len : ℕ)
  deriving DecidableEq, Repr

/-- The call, with what it returns. -/
def FileCall.call {W : Type} (fs : FileSystem W) : FileCall → Exec (Handle W File) FileReply
  | seek position => do
    File.seek fs position
    return .unit
  | read count => return .buf (← File.read fs count)
  | write buf => return .len (← File.write fs buf)

namespace FileHandles

variable {ι D : Type}

/-- The file systems with open files. -/
structure OpenFiles (ι D : Type) where
  world : Files D
  files : ι → File

/-- Where the bytes of a node are. -/
abbrev Place : Type := FsId × ℕ

def place (node : Node) : Place := (node.fileSystem, node.nodeId)

/-- The bytes of the nodes and the positions in them. -/
structure Contents (ι : Type) where
  bytes : Place → Option (List Byte)
  position : ι → ℕ

section

variable [DecidableEq ι]

/-- A call on one of the open files. -/
def OpenFiles.call (devices : CharacterDevices D) (c : ι × FileCall) (s : OpenFiles ι D) :
    Outcome FileReply × OpenFiles ι D :=
  let (r, h) := c.2.call (Files.fileSystem devices) ⟨s.world, s.files c.1⟩
  (r, ⟨h.world, Function.update s.files c.1 h.handle⟩)

namespace Contents

variable (node : ι → Node)

/-- Move the position in one of the open files. -/
def move (s : Contents ι) (i : ι) (position : ℕ) : Contents ι :=
  { s with position := Function.update s.position i position }

/-- What a call does with the bytes of the nodes and the positions. -/
def call : ι × FileCall → Contents ι → Outcome FileReply × Contents ι
  | (i, .seek position), s => (.ok .unit, s.move i position)
  | (i, .read count), s =>
    match s.bytes (place (node i)) with
    | some bytes =>
      let buf := (bytes.take (min (s.position i + count) bytes.length)).drop (s.position i)
      (.ok (.buf buf), s.move i (s.position i + buf.length))
    | none => (.err, s)
  | (i, .write buf), s =>
    match s.bytes (place (node i)) with
    | some bytes =>
      (.ok (.len buf.length),
        { s.move i (s.position i + buf.length) with
          bytes := Function.update s.bytes (place (node i))
            (some (overwrite 0 bytes (s.position i) buf)) })
    | none => (.err, s)

/-- Reads start within the file, and positions do not overflow. -/
def permitted : ι × FileCall → Contents ι → Prop
  | (_, .seek _), _ => True
  | (i, .read count), s =>
    (∀ bytes ∈ s.bytes (place (node i)), s.position i ≤ bytes.length) ∧
      s.position i + count < 2 ^ 64
  | (i, .write buf), s => s.position i + buf.length < 2 ^ 64

instance : ∀ c s, Decidable (permitted node c s)
  | (_, .seek _), _ => isTrue trivial
  | (i, .read count), s => inferInstanceAs (Decidable
      ((∀ bytes ∈ s.bytes (place (node i)), s.position i ≤ bytes.length) ∧
        s.position i + count < 2 ^ 64))
  | (i, .write buf), s => inferInstanceAs (Decidable (s.position i + buf.length < 2 ^ 64))

end Contents

end

/-- The bytes of the nodes of the file systems, and the positions in the open files. -/
def view (s : OpenFiles ι D) : Contents ι where
  bytes k := s.world.contents ⟨k.1, k.2, .file⟩
  position i := (s.files i).position

def withoutFiles : Instance → Instance
  | .tmpfs t => .tmpfs { t with files := ∅ }
  | .devfs d => .devfs d

/-- The file systems apart from the bytes of files. -/
def rest (w : Files D) : Files D := { w with instances := w.instances.map withoutFiles }

/-- The node belongs to a temporary file system. -/
def OnTmpfs (w : Files D) (node : Node) : Prop :=
  ∃ t, w.instances[node.fileSystem]? = some (.tmpfs t)

end FileHandles

namespace Tmpfs

variable {t : Tmpfs} {file : Node} {bytes buf : List Byte} {position count : ℕ}

lemma write_of_none (position : ℕ) (buf : List Byte) (h : t.files[file.nodeId]? = none) :
    Tmpfs.write file position buf t = (.err, t) := by
  rw [Tmpfs.write, Exec.get_bind, h]
  rfl

/-- A write overwrites the bytes of one file. -/
lemma write_of_some (h : t.files[file.nodeId]? = some bytes)
    (hlt : position + buf.length < 2 ^ 64) :
    ∃ files : Std.TreeMap ℕ (List Byte),
      Tmpfs.write file position buf t = (.ok buf.length, { t with files }) ∧
        ∀ k, files[k]? = if k = file.nodeId then some (overwrite 0 bytes position buf)
          else t.files[k]? := by
  have hend : rangeEnd position buf.length = position + buf.length := Nat.mod_eq_of_lt hlt
  have hsplice := splice_eq_overwrite (0 : Byte) bytes position buf rfl
  rw [Tmpfs.write, Exec.get_bind, h]
  simp only [Exec.okOr_some, Exec.pure_bind, Exec.modify_bind, hend]
  rw [if_neg (by omega), if_neg (by omega), hsplice, Nat.add_sub_cancel_left]
  refine ⟨_, rfl, fun k => ?_⟩
  simp only [Std.TreeMap.getElem?_insert, Std.compare_eq_iff_eq]
  by_cases hk : k = file.nodeId
  · simp [hk]
  · simp [hk, Ne.symm hk]

end Tmpfs

namespace FileHandles

variable {ι D : Type} {devices : CharacterDevices D} {w : Files D} {f : FsId} {t t' : Tmpfs}

lemma contents_eq (node : Node) (hi : w.instances[node.fileSystem]? = some (.tmpfs t)) :
    w.contents node = t.files[node.nodeId]? := by
  rw [Files.contents, hi]

/-- What a call on a temporary file system changes. -/
lemma call_tmpfs {α : Type} {x : Exec Tmpfs α} {y : Devfs → Exec D α} {r : Outcome α}
    (hi : w.instances[f]? = some (.tmpfs t)) (hx : x t = (r, t')) :
    Files.call f x y w = (r, { w with instances := w.instances.set f (.tmpfs t') }) := by
  unfold Files.call
  rw [hi]
  simp only [hx]

lemma contents_set (hi : w.instances[f]? = some (.tmpfs t)) (node : Node) :
    Files.contents { w with instances := w.instances.set f (.tmpfs t') } node =
      if node.fileSystem = f then t'.files[node.nodeId]? else w.contents node := by
  have hlt := (List.getElem?_eq_some_iff.mp hi).1
  unfold Files.contents
  by_cases hn : node.fileSystem = f
  · rw [if_pos hn, hn, List.getElem?_set_self hlt]
  · rw [if_neg hn, List.getElem?_set_ne (Ne.symm hn)]

/-- The bytes of files are all that changes with them. -/
lemma rest_set {files : Std.TreeMap ℕ (List Byte)} (hi : w.instances[f]? = some (.tmpfs t)) :
    rest { w with instances := w.instances.set f (.tmpfs { t with files }) } = rest w := by
  obtain ⟨hlt, hget⟩ := List.getElem?_eq_some_iff.mp hi
  have hsame : withoutFiles (.tmpfs { t with files }) = withoutFiles w.instances[f] := by
    rw [hget]
    rfl
  have hlt' : f < (w.instances.map withoutFiles).length := by simpa using hlt
  have hmap : (w.instances.map withoutFiles)[f] = withoutFiles w.instances[f] := List.getElem_map _
  unfold rest
  rw [List.map_set, hsame, ← hmap, List.set_getElem_self]

lemma OnTmpfs.of_rest {w' : Files D} {node : Node} (h : OnTmpfs w node) (hr : rest w' = rest w) :
    OnTmpfs w' node := by
  obtain ⟨t, ht⟩ := h
  have hmap : w'.instances.map withoutFiles = w.instances.map withoutFiles :=
    congrArg Files.instances hr
  have hget : (w'.instances[node.fileSystem]?).map withoutFiles =
      some (withoutFiles (.tmpfs t)) := by
    rw [← List.getElem?_map, hmap, List.getElem?_map, ht]
    rfl
  obtain ⟨i, hi, hw⟩ := Option.map_eq_some_iff.mp hget
  cases i with
  | tmpfs t' => exact ⟨t', hi⟩
  | devfs d => simp [withoutFiles] at hw

section

variable [DecidableEq ι] (node : ι → Node) (w₀ : Files D) {s : OpenFiles ι D} {i : ι}

/-- The files are open on these nodes, and the file systems differ in the bytes of files only. -/
def Same (s : OpenFiles ι D) : Prop := (∀ i, (s.files i).node = node i) ∧ rest s.world = rest w₀

variable {node w₀} (hs : Same node w₀ s)
include hs

/-- A call that moves its own position and changes bytes as the model does. -/
lemma agrees_of {c : FileCall} {r : Outcome FileReply} {w' : Files D} (position : ℕ)
    (hcall : c.call (Files.fileSystem devices) ⟨s.world, s.files i⟩ =
      (r, ⟨w', { s.files i with position }⟩))
    (hrest : rest w' = rest s.world)
    (hspec : Contents.call node (i, c) (view s) = (r,
      ⟨fun k => w'.contents ⟨k.1, k.2, .file⟩, Function.update (view s).position i position⟩)) :
    Agrees (OpenFiles.call devices) (Contents.call node) view (Same node w₀) (i, c) s := by
  have hc : OpenFiles.call devices (i, c) s =
      (r, ⟨w', Function.update s.files i { s.files i with position }⟩) := by
    rw [OpenFiles.call, hcall]
  refine ⟨by rw [hc, hspec], ?_, ?_⟩
  · rw [hc, hspec]
    unfold view
    congr 1
    funext j
    by_cases hj : j = i
    · simp [hj]
    · simp [hj]
  · rw [hc]
    refine ⟨fun j => ?_, hrest.trans hs.2⟩
    by_cases hj : j = i
    · simp [hj, hs.1]
    · simp [hj, hs.1]

/-- **Step lemma**: every permitted call does what the model says. -/
theorem agrees (hn : ∀ i, OnTmpfs w₀ (node i)) (c : ι × FileCall)
    (hp : Contents.permitted node c (view s)) :
    Agrees (OpenFiles.call devices) (Contents.call node) view (Same node w₀) c s := by
  obtain ⟨i, c⟩ := c
  obtain ⟨t, ht⟩ := (hn i).of_rest hs.2
  rw [← hs.1 i] at ht
  have ha : (Files.fileSystem devices).alive (s.files i).node.fileSystem s.world = true :=
    decide_eq_true (List.getElem?_eq_some_iff.mp ht).1
  have hb : (view s).bytes (place (node i)) = t.files[(s.files i).node.nodeId]? := by
    rw [← hs.1 i]
    exact contents_eq ⟨_, _, .file⟩ ht
  have hsame : ∀ {α : Type} {x : Exec Tmpfs α} {y : Devfs → Exec D α} {r : Outcome α},
      x t = (r, t) → Files.call (s.files i).node.fileSystem x y s.world = (r, s.world) :=
    fun hx => Files.call_same ht (by simpa using hx) (by simp)
  cases c with
  | seek position => exact agrees_of hs _ (Exec.bind_ok (File.seek_ok ha (hsame rfl))) rfl rfl
  | read count =>
    obtain ⟨hle, hlt⟩ := hp
    rcases hf : t.files[(s.files i).node.nodeId]? with _ | bytes
    · have hr := File.read_err ha (hsame (Tmpfs.read_of_none _ count hf))
      refine agrees_of hs (s.files i).position (Exec.bind_err hr) rfl ?_
      rw [Contents.call, hb, hf]
      exact congrArg _ (congrArg _ (Function.update_eq_self i _).symm)
    · have hr := File.read_ok ha (hsame (Tmpfs.read_of_some hf (hle bytes (hb.trans hf)) hlt))
      refine agrees_of hs _ (Exec.bind_ok hr) rfl ?_
      rw [Contents.call, hb, hf]
      rfl
  | write buf =>
    rcases hf : t.files[(s.files i).node.nodeId]? with _ | bytes
    · have hr := File.write_err ha (hsame (Tmpfs.write_of_none _ buf hf))
      refine agrees_of hs (s.files i).position (Exec.bind_err hr) rfl ?_
      rw [Contents.call, hb, hf]
      exact congrArg _ (congrArg _ (Function.update_eq_self i _).symm)
    · obtain ⟨files, hw, hfiles⟩ := Tmpfs.write_of_some hf hp
      have hr := File.write_ok ha (call_tmpfs ht hw)
      refine agrees_of hs _ (Exec.bind_ok hr) (rest_set ht) ?_
      rw [Contents.call, hb, hf]
      refine congrArg _ (congrArg (fun b => Contents.mk b _) (funext fun k => ?_))
      rw [contents_set ht, ← hs.1 i]
      by_cases hk : k = place (s.files i).node
      · subst hk
        simp [place, hfiles]
      · rw [Function.update_of_ne hk]
        split
        · rename_i hf'
          have hid : k.2 ≠ (s.files i).node.nodeId := fun h => hk (Prod.ext hf' h)
          rw [hfiles, if_neg hid]
          exact contents_eq ⟨_, _, .file⟩ (hf' ▸ ht)
        · rfl

end

/-- **Refinement**: for every sequence of permitted calls on any number of open files of temporary
file systems, the calls return what they return in the model, and leave the bytes and positions
they leave there. Nothing else changes. -/
theorem open_files [DecidableEq ι] (devices : CharacterDevices D) (s : OpenFiles ι D)
    (hn : ∀ i, OnTmpfs s.world (s.files i).node) (calls : List (ι × FileCall))
    (hp : Permitted (Contents.call fun i => (s.files i).node)
      (Contents.permitted fun i => (s.files i).node) calls (view s)) :
    let (code, t) := replies (OpenFiles.call devices) calls s
    let (model, u) := replies (Contents.call fun i => (s.files i).node) calls (view s)
    code = model ∧ view t = u ∧ (∀ i, (t.files i).node = (s.files i).node) ∧
      rest t.world = rest s.world :=
  replies_refine (fun c _ hs hc => agrees hs hn c hc) calls s ⟨fun _ => rfl, rfl⟩ hp

/-- What is written through one handle is read back through any other. -/
theorem write_read [DecidableEq ι] (devices : CharacterDevices D) (s : OpenFiles ι D)
    (hn : ∀ i, OnTmpfs s.world (s.files i).node) {i j : ι} {bytes buf : List Byte}
    (hij : (s.files j).node = (s.files i).node)
    (hb : s.world.contents (s.files i).node = some bytes)
    (hlt : (s.files i).position + buf.length < 2 ^ 64) :
    (replies (OpenFiles.call devices)
      [(i, .write buf), (j, .seek (s.files i).position), (j, .read buf.length)] s).1 =
        [.ok (.len buf.length), .ok .unit, .ok (.buf buf)] := by
  have hv : (view s).bytes (place (s.files i).node) = some bytes := hb
  have hpos : (view s).position i = (s.files i).position := rfl
  have hlen := length_overwrite 0 bytes (s.files i).position buf
  refine (replies_refine (fun c _ hs hc => agrees hs hn c hc) _ s
    ⟨fun _ => rfl, rfl⟩ ?_).1.trans ?_
  · simp only [Permitted, Contents.permitted, Contents.call, Contents.move, hv, hij, hpos]
    simp
    omega
  · simp only [replies, Contents.call, Contents.move, hv, hij, hpos]
    simp [List.drop_take, take_drop_overwrite]

/-- A file on the root file system, opened twice. -/
def openedTwice : OpenFiles Bool Unit where
  world := (FileManager.mknod (Files.fileSystem Walk.noDevices) (Walk.rootEntry "a")
    (VirtualFileSystem.new ())).2.world
  files _ := .new ⟨0, 1, .file⟩

/-- One of the files is written, the other one extends it with an empty write. -/
theorem open_files_openedTwice :
    (replies (OpenFiles.call Walk.noDevices)
      [(true, .write [1, 2]), (false, .seek 4), (false, .write []), (true, .read 5)]
      openedTwice).1 = [.ok (.len 2), .ok .unit, .ok (.len 0), .ok (.buf [0, 0])] :=
  (open_files Walk.noDevices openedTwice (fun _ => ⟨_, rfl⟩) _ (by decide +kernel)).1.trans
    (by decide +kernel)

end FileHandles

end Pimento
