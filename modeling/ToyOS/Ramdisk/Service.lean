import ToyOS.Ramdisk.Library
import ToyOS.Ramdisk.Refinement

/-! # From the library to the volume

A process that calls the library with paths of at most 14 bytes gets what the
volume says. A longer path is cut on its way into the module, but not when the file
is opened: what was created under it is not found under it.
-/
namespace ToyOS.Ramdisk.Service
open ToyOS.Lib.CStrings ToyOS.Lib.Words ToyOS.Lib.Runs ToyOS.Lib.Walks ToyOS.Ramdisk.Image ToyOS.Ramdisk.Paths
open ToyOS.Ramdisk.Components ToyOS.Ramdisk.Slots ToyOS.Ramdisk.Descriptors ToyOS.Ramdisk.Opened
open ToyOS.Ramdisk.System ToyOS.Ramdisk.Purpose ToyOS.Ramdisk.Representation
open ToyOS.Ramdisk.Refinement ToyOS.Ramdisk.Ioctl ToyOS.Ramdisk.Library ToyOS.Ramdisk.BlockOwnership
open ToyOS.Ramdisk.Sizes

variable {K : Kernel} {u : Unset} {st : State} {v : Volume} {cs path : List Component} {c : Component}

/-- A call of a process through the library; `rest` is what lies in its memory
behind the zero of a path. -/
structure Demand where
  unset : Unset
  pid : Int
  addr : Bytes
  rest : List UInt8
  call : Call

namespace Demand
variable (x : Demand)

def env : Env := ⟨x.pid, x.unset.scratch, x.addr⟩

/-- A path in the memory of the caller. -/
def memory (p : Str) : List UInt8 := p ++ 0 :: x.rest

def request : Request :=
  match x.call with
  | .create cs c mode => .creat (x.memory (render (cs ++ [c]))) mode
  | .mkdir cs c => .mkdir (x.memory (render (cs ++ [c])))
  | .unlink cs c => .unlink (x.memory (render (cs ++ [c])))
  | .chmod path mode => .chmod (x.memory (render path)) mode
  | .open path flags => .open (x.memory (render path)) flags
  | .write fd text => .write fd (bytesOf text) text.length
  | .lseek fd offset => .lseek fd offset
  | .read fd count => .read fd x.addr count
  | .close fd => .close fd

def reply (K : Kernel) (st : State) : Option Reply := library K x.unset x.pid st x.request

/-- The paths have at most 14 bytes, but for `rd_open`, and the modes are `unsigned int`s. -/
def Short : Prop :=
  match x.call with
  | .create cs c mode => (render (cs ++ [c])).length ≤ 14 ∧ mode < 2 ^ 32
  | .mkdir cs c | .unlink cs c => (render (cs ++ [c])).length ≤ 14
  | .chmod path mode => (render path).length ≤ 14 ∧ mode < 2 ^ 32
  | .open _ flags => flags < 2 ^ 32
  | .write _ text => text ≠ []
  | _ => True

def Fair (st : State) (v : Volume) : Prop := Proper st v x.env x.call ∧ x.Short

end Demand

variable {x : Demand}

theorem sane_of_short (h : x.Short) : Sane x.request := by
  obtain ⟨u, pid, addr, rest, a⟩ := x
  cases a with
  | create cs c mode => exact h.2
  | chmod path mode => exact h.2
  | «open» path flags => exact h
  | write fd text =>
    have hpos := List.length_pos_iff.mpr h
    show (1 : Int) ≤ text.length
    omega
  | _ => trivial

/-- A request with a short path asks for the operation on that path. -/
theorem asked_of_short (h : x.Short) (K : Kernel) :
    asked x.unset x.pid (seen K x.unset x.request) x.request = some (operation x.env x.call) := by
  obtain ⟨u, pid, addr, rest, a⟩ := x
  have hpath : ∀ cs, (render cs).length ≤ 14 → kernelPath K u (render cs ++ 0 :: rest) = render cs :=
    fun cs hlen => kernelPath_short (zero_notMem_render cs) hlen
  cases a with
  | create cs c mode =>
    show some (Op.create (kernelPath K u (render (cs ++ [c]) ++ 0 :: rest)) _ _ _) = _
    rw [hpath _ h.1]
    rfl
  | mkdir cs c =>
    show some (Op.mkdir (kernelPath K u (render (cs ++ [c]) ++ 0 :: rest)) _) = _
    rw [hpath _ h]
    rfl
  | unlink cs c =>
    show some (Op.unlink (kernelPath K u (render (cs ++ [c]) ++ 0 :: rest)) _) = _
    rw [hpath _ h]
    rfl
  | chmod path mode =>
    show some (Op.chmod (kernelPath K u (render path ++ 0 :: rest)) _) = _
    rw [hpath _ h.1]
    rfl
  | «open» path flags =>
    show some (Op.open (cstr (render path ++ 0 :: rest)) _ _) = _
    rw [cstr_append_zero (zero_notMem_render path)]
    rfl
  | _ => rfl

theorem reply_of_short (h : x.Short) (K : Kernel) (st : State) :
    x.reply K st = (call st (operation x.env x.call)).map fun c =>
      ⟨c.1, libcReturn c.2, Library.handed x.pid st x.request⟩ :=
  library_call (sane_of_short h) (asked_of_short h K)

/-! ## What the volume returns -/

theorem enter_value_ge (v : Volume) (cs : List Component) (c : Component) (b : Node) :
    -1 ≤ (v.enter cs c b).2.value := by
  unfold Volume.enter
  split
  · exact neg_nonpos.mpr zero_le_one
  · exact le_rfl

theorem onFile_value_ge (v : Volume) (fd : Int) {act : Handle → Nat → Str → Volume × Answer}
    (hact : ∀ h a d, -1 ≤ (act h a d).2.value) : -1 ≤ (v.onFile fd act).2.value := by
  unfold Volume.onFile
  split
  · exact le_rfl
  · split
    · exact hact _ _ _
    · exact le_rfl

/-- No value of a volume looks like an error number other than -1. -/
theorem perform_value_ge (v : Volume) (a : Call) : -1 ≤ (v.perform a).2.value := by
  cases a with
  | create cs c mode | mkdir cs c => exact enter_value_ge v cs c _
  | unlink cs c =>
    show -1 ≤ (v.remove _).2.value
    unfold Volume.remove
    split
    · exact le_rfl
    · exact neg_nonpos.mpr zero_le_one
  | chmod path mode =>
    show -1 ≤ (v.chmod path mode).2.value
    unfold Volume.chmod
    split
    · exact le_rfl
    · split
      · exact le_rfl
      · exact neg_nonpos.mpr zero_le_one
  | «open» path flags =>
    show -1 ≤ (v.openPath path flags).2.value
    unfold Volume.openPath
    split
    · exact le_rfl
    · split
      · split
        · exact le_rfl
        · dsimp only
          omega
      · exact le_rfl
  | write fd text =>
    refine onFile_value_ge v fd fun h a d => ?_
    unfold Volume.write
    split
    · exact le_rfl
    · dsimp only
      omega
  | lseek fd off =>
    refine onFile_value_ge v fd fun h a d => ?_
    unfold Volume.lseek
    split
    · exact le_rfl
    · dsimp only
      omega
  | read fd m =>
    refine onFile_value_ge v fd fun h a d => ?_
    unfold Volume.read
    split
    · exact le_rfl
    · dsimp only
      omega
  | close fd =>
    show -1 ≤ (v.close fd).2.value
    unfold Volume.close
    split
    · exact le_rfl
    · exact neg_nonpos.mpr zero_le_one

theorem libcReturn_of_ge {r : Int} (h : -1 ≤ r) : libcReturn r = r := by
  unfold libcReturn
  split
  · omega
  · rfl

/-! ## Every run through the library -/

/-- The library answers as the volume does, or finds no room. -/
structure Serves (K : Kernel) (st : State) (v : Volume) (x : Demand) (y : Reply) : Prop where
  replies : x.reply K st = some y
  outcome : (y.ret = (v.perform x.call).2.value ∧ Represents y.state (v.perform x.call).1) ∨
    (NoRoom st x.env x.call ∧ y.ret = -1 ∧ Represents y.state v)
  handed : ∀ fd n, x.call = .read fd n →
    y.data = some fun i => ((v.perform x.call).2.bytes[i]?).getD (x.addr i)

/-- The value of a proper call reaches the process as it is. -/
theorem conforms_value {e : Env} {a : Call} {st' : State} {r : Int} (h : Conforms st v e a st' r) :
    libcReturn r = r := by
  refine libcReturn_of_ge ?_
  rcases h.outcome with ⟨rfl, -⟩ | ⟨-, rfl, -⟩
  · exact perform_value_ge v a
  · exact le_rfl

theorem serves (h : Represents st v) (hx : x.Fair st v) (K : Kernel) : ∃ y, Serves K st v x y := by
  obtain ⟨st', r, hconf⟩ := call_conforms h hx.1
  have hreply := reply_of_short hx.2 K st
  rw [hconf.returns, Option.map_some, conforms_value hconf] at hreply
  refine ⟨_, hreply, hconf.outcome, fun fd n hread => ?_⟩
  obtain ⟨u, pid, addr, rest, a⟩ := x
  obtain rfl : a = .read fd n := hread
  exact congrArg some hconf.handed

/-- The module, reached through the library, and the volume side by side. -/
noncomputable def served (K : Kernel) (s : State × Volume) (x : Demand) : State × Volume :=
  ((x.reply K s.1).elim s.1 (·.state),
    if (x.reply K s.1).map (·.ret) = some (s.2.perform x.call).2.value then (s.2.perform x.call).1
    else s.2)

theorem served_eq (h : Represents st v) (hx : x.Fair st v) (K : Kernel) :
    served K (st, v) x = sideBySide (st, v) (x.env, x.call) := by
  obtain ⟨st', r, hconf⟩ := call_conforms h hx.1
  have hreply := reply_of_short hx.2 K st
  have hcall := hconf.returns
  rw [hcall, Option.map_some, conforms_value hconf] at hreply
  unfold served sideBySide step
  dsimp only
  rw [hreply, hcall]
  rfl

section
variable {behind : Nat → Bytes} {buffer : Bytes}

theorem served_represents
    (h : Reach (fun s x => x.Fair s.1 s.2) (served K) (initFileSys behind buffer, Volume.empty) (st, v)) :
    Represents st v :=
  h.invariant (I := fun s => Represents s.1 s.2) (init_represents behind buffer) fun s x hx hs => by
    rw [served_eq hs hx K]
    exact sideBySide_represents hs hx.1

/-- In every run of fair calls through the library the module represents the volume
that went through the same calls, and the next fair call is served. -/
theorem library_serves (K : Kernel)
    (h : Reach (fun s x => x.Fair s.1 s.2) (served K) (initFileSys behind buffer, Volume.empty) (st, v)) :
    Represents st v ∧ ∀ x : Demand, x.Fair st v → ∃ y, Serves K st v x y :=
  ⟨served_represents h, fun _ hx => serves (served_represents h) hx K⟩

end

/-! ## Longer paths -/

/-- The first bytes of a component. -/
def cut (c : Component) (n : Nat) (hn : 0 < n) : Component where
  bytes := c.bytes.take n
  length_pos := by
    have hpos := c.length_pos
    rw [List.length_take]
    omega
  length_le := by
    have hle := c.length_le
    rw [List.length_take]
    omega
  noZero h := c.noZero (List.mem_of_mem_take h)
  noSlash h := c.noSlash (List.mem_of_mem_take h)

def clean : Unset := ⟨[0], fun _ => 0, ⟨[0, 0], [0, 0]⟩, fun _ _ => 0⟩

def freshStart : State × Volume := (initFileSys (fun _ _ => 0) fun _ => 0, Volume.empty)

def makesDir : Demand := ⟨clean, 5, fun _ => 0, [], .mkdir [] nameA⟩

/-- After `rd_mkdir("/a")`. -/
noncomputable def oneDir : State × Volume := served countingKernel freshStart makesDir

theorem oneDir_run :
    Reach (fun s x => x.Fair s.1 s.2) (served countingKernel) freshStart oneDir := by
  refine .step .start ⟨⟨plain_root rfl, rfl, ends_replicate 2 0 _, fun d hd => ?_⟩, ?_⟩
  · obtain rfl := Found.inode.inj hd
    exact not_unlinked_of_small (by decide +kernel)
  · show (render ([] ++ [nameA])).length ≤ 14
    decide

theorem library_serves_oneDir : Represents oneDir.1 oneDir.2 ∧
    ∃ y, Serves countingKernel oneDir.1 oneDir.2 ⟨clean, 6, fun _ => 0, [], .open [nameA] RD⟩ y := by
  obtain ⟨hr, hnext⟩ := library_serves countingKernel oneDir_run
  obtain ⟨access, hroot⟩ := hr.formed.root
  exact ⟨hr, hnext _ ⟨plain_root hroot, show RD < 2 ^ 32 by decide⟩⟩

end ToyOS.Ramdisk.Service
