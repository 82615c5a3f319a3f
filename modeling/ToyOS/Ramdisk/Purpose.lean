import ToyOS.Lib.Loop
import ToyOS.Lib.Walks
import ToyOS.Ramdisk.Components
import ToyOS.Ramdisk.Descriptors

/-! # What the file operations are for

A volume is a map from paths to directories and files with their contents, and a
table of handles on them. `perform` is what the `README` asks of each operation,
said of volumes: there are no inodes, blocks or entries here, and room enough.
-/
namespace ToyOS.Ramdisk.Purpose
open ToyOS.Lib.Loop ToyOS.Lib.CStrings ToyOS.Lib.Words ToyOS.Lib.Walks ToyOS.Ramdisk.Components
open ToyOS.Ramdisk.Descriptors

instance : DecidableEq Component := fun c c' =>
  decidable_of_iff (c.bytes = c'.bytes) ⟨Component.ext_bytes, congrArg Component.bytes⟩

inductive Node where
  | dir (access : Nat)
  | file (access : Nat) (content : Str)

namespace Node

def access : Node → Nat
  | dir a | file a _ => a

def chmod (mode : Nat) : Node → Node
  | dir _ => dir mode
  | file _ d => file mode d

end Node

structure Handle where
  path : List Component
  flags : Nat
  cursor : Nat

structure Volume where
  tree : List Component → Option Node
  handles : Nat → Option Handle

/-- A call; the paths of `create`, `mkdir` and `unlink` are given with their last
component apart. -/
inductive Call where
  | create (cs : List Component) (c : Component) (mode : Nat)
  | mkdir (cs : List Component) (c : Component)
  | unlink (cs : List Component) (c : Component)
  | chmod (path : List Component) (mode : Nat)
  | open (path : List Component) (flags : Nat)
  | write (fd : Int) (text : Str)
  | lseek (fd offset : Int)
  | read (fd : Int) (count : Nat)
  | close (fd : Int)

/-- The value a call returns and the bytes it hands over. -/
structure Answer where
  value : Int
  bytes : Str

/-- The bytes of `d` with `text` put over them from position `pos` on. -/
def splice (d : Str) (pos : Nat) (text : Str) : Str := d.take pos ++ text ++ d.drop (pos + text.length)

theorem splice_end (d text : Str) : splice d d.length text = d ++ text := by
  rw [splice, List.take_length, List.drop_eq_nil_of_le (by omega), List.append_nil]

namespace Volume

/-- The root directory and nothing open. -/
def empty : Volume where
  tree := Function.update (fun _ => none) [] (some (.dir 0))
  handles _ := none

section
variable (v : Volume)

def refuse : Volume × Answer := (v, ⟨-1, []⟩)

def setNode (path : List Component) (n : Option Node) : Volume :=
  { v with tree := Function.update v.tree path n }

def setHandle (i : Nat) (h : Option Handle) : Volume :=
  { v with handles := Function.update v.handles i h }

/-- The handle a descriptor stands for. -/
def handle (fd : Int) : Option Handle := if 0 ≤ fd ∧ fd < 1024 then v.handles fd.toNat else none

/-- There is something below the path. -/
def Parent (path : List Component) : Prop := ∃ c, v.tree (path ++ [c]) ≠ none

def Opened (path : List Component) : Prop := ∃ i h, i < 1024 ∧ v.handles i = some h ∧ h.path = path

/-- A new node, in a directory and where nothing is. -/
def enter (cs : List Component) (c : Component) (n : Node) : Volume × Answer :=
  match v.tree cs, v.tree (cs ++ [c]) with
  | some (.dir _), none => (v.setNode (cs ++ [c]) (some n), ⟨0, []⟩)
  | _, _ => v.refuse

open Classical in
noncomputable def remove (path : List Component) : Volume × Answer :=
  if v.tree path = none ∨ v.Parent path ∨ v.Opened path then v.refuse
  else (v.setNode path none, ⟨0, []⟩)

def chmod (path : List Component) (mode : Nat) : Volume × Answer :=
  if path = [] then v.refuse
  else match v.tree path with
    | none => v.refuse
    | some n => (v.setNode path (some (n.chmod mode)), ⟨0, []⟩)

/-- The first handle that is not in use. -/
def unused : Option Nat := firstIdx (fun i => (v.handles i).isNone) 0 1024

def openPath (path : List Component) (flags : Nat) : Volume × Answer :=
  if path = [] then v.refuse
  else match v.tree path, v.unused with
    | some n, some i =>
      if accessDenied flags n.access then v.refuse
      else (v.setHandle i (some ⟨path, flags, 0⟩), ⟨i, []⟩)
    | _, _ => v.refuse

/-- What a call does to the file a descriptor stands for; it is refused where there
is none. -/
def onFile (fd : Int) (act : Handle → Nat → Str → Volume × Answer) : Volume × Answer :=
  match v.handle fd with
  | none => v.refuse
  | some h => match v.tree h.path with
    | some (.file access d) => act h access d
    | _ => v.refuse

def write (fd : Int) (text : Str) (h : Handle) (access : Nat) (d : Str) : Volume × Answer :=
  if access = RD ∨ h.flags = RD then v.refuse
  else
    ((v.setNode h.path (some (.file access (splice d h.cursor text)))).setHandle fd.toNat
      (some { h with cursor := h.cursor + text.length }), ⟨text.length, []⟩)

/-- A position behind the end is that of the last byte. -/
def lseek (fd offset : Int) (h : Handle) (d : Str) : Volume × Answer :=
  if offset < 0 then v.refuse
  else
    let pos := min offset.toNat (d.length - 1)
    (v.setHandle fd.toNat (some { h with cursor := pos }), ⟨pos, []⟩)

def read (fd : Int) (count : Nat) (h : Handle) (d : Str) : Volume × Answer :=
  if h.flags = WR then v.refuse
  else
    let bytes := (d.drop h.cursor).take count
    (v.setHandle fd.toNat (some { h with cursor := h.cursor + bytes.length }), ⟨bytes.length, bytes⟩)

def close (fd : Int) : Volume × Answer :=
  match v.handle fd with
  | none => v.refuse
  | some _ => (v.setHandle fd.toNat none, ⟨0, []⟩)

noncomputable def perform : Call → Volume × Answer
  | .create cs c mode => v.enter cs c (.file mode [])
  | .mkdir cs c => v.enter cs c (.dir 1)
  | .unlink cs c => v.remove (cs ++ [c])
  | .chmod path mode => v.chmod path mode
  | .open path flags => v.openPath path flags
  | .write fd text => v.onFile fd (v.write fd text)
  | .lseek fd offset => v.onFile fd fun h _ d => v.lseek fd offset h d
  | .read fd count => v.onFile fd fun h _ d => v.read fd count h d
  | .close fd => v.close fd

end

/-- Nothing above the path is a regular file. -/
def Plain (v : Volume) (path : List Component) : Prop :=
  ∀ q, q <+: path → q ≠ path → ∀ access d, v.tree q ≠ some (.file access d)

/-- Whether a volume is one: the root is a directory, what is there is in a
directory, and handles stand for what is there. -/
structure Formed (v : Volume) : Prop where
  root : ∃ access, v.tree [] = some (.dir access)
  parent : ∀ cs c, v.tree (cs ++ [c]) ≠ none → ∃ access, v.tree cs = some (.dir access)
  there : ∀ i h, i < 1024 → v.handles i = some h → v.tree h.path ≠ none

variable {v : Volume} {path cs : List Component} {c : Component} {fd : Int} {h : Handle} {n : Node}

@[simp] theorem setNode_handles (n : Option Node) : (v.setNode path n).handles = v.handles := rfl
@[simp] theorem setHandle_tree (i : Nat) (h : Option Handle) : (v.setHandle i h).tree = v.tree := rfl

theorem handle_some (hh : v.handle fd = some h) :
    ∃ i : Nat, fd = i ∧ i < 1024 ∧ v.handles i = some h := by
  unfold handle at hh
  split at hh
  · rename_i hfd
    exact ⟨fd.toNat, by omega, by omega, hh⟩
  · cases hh

theorem handle_natCast {i : Nat} (hi : i < 1024) : v.handle i = v.handles i := by
  unfold handle
  rw [if_pos (by omega)]
  rfl

theorem Plain.parent (hp : v.Plain (cs ++ [c])) : v.Plain cs := by
  intro q hq hne
  refine hp q (hq.trans (List.prefix_append cs [c])) ?_
  rintro rfl
  exact not_concat_prefix hq

theorem Plain.parent_not_file (hp : v.Plain (cs ++ [c])) (access : Nat) (d : Str) :
    v.tree cs ≠ some (.file access d) := by
  refine hp cs (List.prefix_append cs [c]) ?_ access d
  intro e
  simpa using congrArg List.length e

/-- What is there is reached through directories. -/
theorem Formed.plain (hv : Formed v) (hp : v.tree path ≠ none) : v.Plain path := by
  induction path using List.reverseRecOn with
  | nil =>
    intro q hq hne
    exact absurd (List.prefix_nil.mp hq) hne
  | append_singleton cs c ih =>
    obtain ⟨a, ha⟩ := hv.parent cs c hp
    intro q hq hne access d he
    rcases List.prefix_concat_iff.mp hq with rfl | hq
    · exact hne rfl
    · by_cases hqc : q = cs
      · rw [hqc, ha] at he
        cases he
      · exact ih (by rw [ha]; exact Option.some_ne_none _) q hq hqc access d he

end Volume
end ToyOS.Ramdisk.Purpose
