import ToyOS.Ramdisk.Fetching
import ToyOS.Ramdisk.Ioctl

/-! # The library of a process

`userspace_interface.c`: each function fills in an `ioctl_args_t` and sends it to
the module. A call through the library is the call itself made on the path that
the module sees, and that is the caller's path if it has at most 14 bytes.
-/
namespace ToyOS.Ramdisk.Library
open ToyOS.Lib.Loop ToyOS.Lib.CStrings ToyOS.Lib.Runs ToyOS.Lib.Words ToyOS.Ramdisk.Image ToyOS.Ramdisk.Blocks
open ToyOS.Ramdisk.Descriptors ToyOS.Ramdisk.Write ToyOS.Ramdisk.Read ToyOS.Ramdisk.System
open ToyOS.Ramdisk.Fetching ToyOS.Ramdisk.Ioctl

/-- What `ioctl` returns to the process: an error number is made -1. -/
def libcReturn (r : Int) : Int := if -4095 ≤ r ∧ r ≤ -1 then -1 else r

section
variable (K : Kernel) (u : Unset) (pid : Int) (st : State)

/-- An `ioctl` on the descriptor of `/proc/discos`. -/
def request (cmd : Nat) (args : IoctlArgs) : Option Reply :=
  (ioctl K u st cmd args).map fun r => { r with ret := libcReturn r.ret }

/-- `memset(args, 0, sizeof(ioctl_args_t))`. -/
def zeroArgs : IoctlArgs := ⟨0, 0, 0, 0, none, none⟩

def rdInit : Option Reply := request K u st RD_INIT zeroArgs

def rdCreat (pathname : List UInt8) (mode : Nat) : Option Reply :=
  request K u st RD_CREATE { zeroArgs with pathname := some pathname, mode := toI32 mode }

def rdUnlink (pathname : List UInt8) : Option Reply :=
  request K u st RD_UNLINK { zeroArgs with pathname := some pathname }

def rdMkdir (pathname : List UInt8) : Option Reply :=
  request K u st RD_MKDIR { zeroArgs with pathname := some pathname }

def rdOpen (pathname : List UInt8) (mode : Nat) : Option Reply :=
  request K u st RD_OPEN { zeroArgs with pathname := some pathname, mode := toI32 mode, pid := pid }

def rdWrite (fd : Int) (data : Bytes) (numberOfData : Int) : Option Reply :=
  request K u st RD_WRITE { zeroArgs with pid := pid, fd := fd, size := numberOfData, data := some data }

def rdChmod (pathname : List UInt8) (mode : Nat) : Option Reply :=
  request K u st RD_CHMOD { zeroArgs with mode := toI32 mode, pathname := some pathname, pid := pid }

def rdLseek (fd offset : Int) : Option Reply :=
  request K u st RD_LSEEK { zeroArgs with fd := fd, size := offset, pid := pid }

def rdRead (fd : Int) (addr : Bytes) (numberOfData : Int) : Option Reply :=
  request K u st RD_READ { zeroArgs with fd := fd, data := some addr, size := numberOfData, pid := pid }

def rdClose (fd : Int) : Option Reply := request K u st RD_CLOSE { zeroArgs with fd := fd, pid := pid }

end

/-- A call of the library. A path is the caller's memory from `pathname` on. -/
inductive Request where
  | init
  | creat (pathname : List UInt8) (mode : Nat)
  | unlink (pathname : List UInt8)
  | mkdir (pathname : List UInt8)
  | open (pathname : List UInt8) (mode : Nat)
  | write (fd : Int) (data : Bytes) (n : Int)
  | chmod (pathname : List UInt8) (mode : Nat)
  | lseek (fd offset : Int)
  | read (fd : Int) (addr : Bytes) (n : Int)
  | close (fd : Int)

def library (K : Kernel) (u : Unset) (pid : Int) (st : State) : Request → Option Reply
  | .init => rdInit K u st
  | .creat p mode => rdCreat K u st p mode
  | .unlink p => rdUnlink K u st p
  | .mkdir p => rdMkdir K u st p
  | .open p mode => rdOpen K u pid st p mode
  | .write fd data n => rdWrite K u pid st fd data n
  | .chmod p mode => rdChmod K u pid st p mode
  | .lseek fd offset => rdLseek K u pid st fd offset
  | .read fd addr n => rdRead K u pid st fd addr n
  | .close fd => rdClose K u pid st fd

/-- The path of a request as the module sees it. -/
def seen (K : Kernel) (u : Unset) : Request → Str
  | .creat p _ | .unlink p | .mkdir p | .chmod p _ => kernelPath K u p
  | .open p _ => cstr p
  | _ => []

/-- The operation of `discos.c` that a request asks for, on the path `p`. -/
def asked (u : Unset) (pid : Int) (p : Str) : Request → Option Op
  | .init => none
  | .creat _ mode => some (.create p .reg mode u.scratch)
  | .unlink _ => some (.unlink p u.scratch)
  | .mkdir _ => some (.mkdir p u.scratch)
  | .open _ mode => some (.open p mode pid)
  | .write fd data n => some (.write fd pid data n)
  | .chmod _ mode => some (.chmod p mode)
  | .lseek fd offset => some (.lseek fd offset pid)
  | .read fd addr n => some (.read fd addr n pid)
  | .close fd => some (.close fd pid)

/-- What the caller's memory holds afterwards. -/
def handed (pid : Int) (st : State) : Request → Option Bytes
  | .write _ data _ => some data
  | .read fd addr n => some (Read.rdRead st fd addr n pid).2.2
  | _ => none

/-- The modes are `unsigned int`s, and a write has bytes to write. -/
def Sane : Request → Prop
  | .creat _ mode | .open _ mode | .chmod _ mode => mode < 2 ^ 32
  | .write _ _ n => 1 ≤ n
  | _ => True

/-! ## What is written -/

section
variable {data data' : Bytes} {n : Int} {k b j : Nat} {w : Writer}
variable (h : ∀ i : Nat, (i : Int) < n → data i = data' i)
include h

/-- There is still something to write. -/
def Unfinished (n : Int) (w : Writer) : Prop := (w.written : Int) < n

theorem writeByte_agree (hw : Unfinished n w) :
    (writeByte k data n b j w).Agree (Unfinished n) (writeByte k data' n b j w) := by
  unfold writeByte putByte
  rw [h w.written hw]
  refine ⟨rfl, ?_⟩
  unfold Unfinished at *
  split
  · dsimp only
    split
    · trivial
    · rename_i hne
      show ((w.written + 1 : Nat) : Int) < n
      push_cast at hne ⊢
      omega
  · exact hw

theorem writeBlock_agree {slot : PtrSlot} {offset : Nat} (hw : Unfinished n w) :
    (writeBlock k data n slot offset w).Agree (Unfinished n) (writeBlock k data' n slot offset w) := by
  unfold writeBlock
  cases ensureBlock w.fs slot with
  | none => exact ⟨rfl, trivial⟩
  | some fs => exact forFrom_agree hw fun j t ht => writeByte_agree h ht

theorem writeDirect_agree (hw : Unfinished n w) :
    (writeDirect k data n w).Agree (Unfinished n) (writeDirect k data' n w) :=
  forFrom_agree hw fun _ _ ht => writeBlock_agree h ht

theorem writeSingle_agree (hw : Unfinished n w) :
    (writeSingle k data n w).Agree (Unfinished n) (writeSingle k data' n w) := by
  unfold writeSingle
  dsimp only
  split
  · cases ensureBlock w.fs (.singleIndirect k) with
    | none => exact ⟨rfl, trivial⟩
    | some fs => exact forFrom_agree hw fun _ _ ht => writeBlock_agree h ht
  · exact ⟨rfl, hw⟩

theorem writeIndex_agree {d offset i : Nat} (hw : Unfinished n w) :
    (writeIndex k data n d offset i w).Agree (Unfinished n) (writeIndex k data' n d offset i w) := by
  unfold writeIndex
  cases ensureBlock w.fs (.indexBlock d i) with
  | none => exact ⟨rfl, trivial⟩
  | some fs => exact forFrom_agree hw fun _ _ ht => writeBlock_agree h ht

theorem writeDouble_agree (hw : Unfinished n w) :
    (writeDouble k data n w).Agree (Unfinished n) (writeDouble k data' n w) := by
  unfold writeDouble
  dsimp only
  split
  · cases ensureBlock w.fs (.doubleIndirect k) with
    | none => exact ⟨rfl, trivial⟩
    | some fs => exact forFrom_agree hw fun _ _ ht => writeIndex_agree h ht
  · exact ⟨rfl, hw⟩

theorem writeStages_agree (hw : Unfinished n w) : writeStages k data n w = writeStages k data' n w := by
  have htwo := (writeDirect_agree (k := k) h hw).bind fun _ ht => writeSingle_agree (k := k) h ht
  have hthree := htwo.bind fun _ ht => writeDouble_agree (k := k) h ht
  unfold writeStages
  rw [hthree.1]

/-- `rd_write` looks at no more than the bytes it is given. -/
theorem rdWrite_congr (hn : 1 ≤ n) (st : State) (fd pid : Int) :
    Write.rdWrite st fd pid data n = Write.rdWrite st fd pid data' n := by
  have hstages : ∀ k fs pos, writeStages k data n ⟨fs, pos, 0, 0⟩ = writeStages k data' n ⟨fs, pos, 0, 0⟩ :=
    fun k fs pos => writeStages_agree h (show ((0 : Nat) : Int) < n by omega)
  unfold Write.rdWrite
  simp only [hstages]

end

theorem kernelData_lt (u : Unset) (d : Bytes) {n : Int} {i : Nat} (hi : (i : Int) < n) :
    kernelData u d n i = d i := by
  unfold kernelData
  rw [copyPages_apply _ _ (by push_cast; omega), if_pos (by omega)]

/-! ## A call through the library -/

variable {K : Kernel} {u : Unset} {pid : Int} {st : State}

theorem mode_arrives {mode : Nat} (h : mode < 2 ^ 32) : toU32 (toI32 mode) = mode := by
  unfold toU32 toI32
  split <;> omega

theorem onto_map (r : Option (State × Int)) (d : Option Bytes) :
    (r.map fun r => (⟨r.1, r.2, d⟩ : Reply)).map (fun r => { r with ret := libcReturn r.ret }) =
      r.map fun r => ⟨r.1, libcReturn r.2, d⟩ := by
  cases r <;> rfl

/-- Every request but `rd_init` is the operation it asks for, on the path the
module sees: it leads to the same state and hands over the same bytes, and returns
the same value but for what `ioctl` takes for an error number. -/
theorem library_call {r : Request} (hr : Sane r) {op : Op} (hop : asked u pid (seen K u r) r = some op) :
    library K u pid st r = (call st op).map fun c => ⟨c.1, libcReturn c.2, handed pid st r⟩ := by
  cases r with
  | init => cases hop
  | creat p mode =>
    obtain rfl := Option.some.inj hop
    refine (onto_map (call st (.create (kernelPath K u p) .reg (toU32 (toI32 mode)) u.scratch)) none).trans ?_
    rw [mode_arrives hr]
    rfl
  | unlink p =>
    obtain rfl := Option.some.inj hop
    exact onto_map (call st (.unlink (kernelPath K u p) u.scratch)) none
  | mkdir p =>
    obtain rfl := Option.some.inj hop
    exact onto_map (call st (.mkdir (kernelPath K u p) u.scratch)) none
  | «open» p mode =>
    obtain rfl := Option.some.inj hop
    refine (onto_map (call st (.open (cstr p) (toU32 (toI32 mode)) pid)) none).trans ?_
    rw [mode_arrives hr]
    rfl
  | write fd data n =>
    obtain rfl := Option.some.inj hop
    refine (onto_map (call st (.write fd pid (kernelData u data n) n)) (some data)).trans ?_
    have hdata : ∀ i : Nat, (i : Int) < n → kernelData u data n i = data i :=
      fun i hi => kernelData_lt u data hi
    have hwrite := rdWrite_congr hdata hr st fd pid
    unfold call
    dsimp only
    rw [hwrite]
    rfl
  | chmod p mode =>
    obtain rfl := Option.some.inj hop
    refine (onto_map (call st (.chmod (kernelPath K u p) (toU32 (toI32 mode)))) none).trans ?_
    rw [mode_arrives hr]
    rfl
  | lseek fd offset =>
    obtain rfl := Option.some.inj hop
    exact onto_map (call st (.lseek fd offset pid)) none
  | read fd addr n =>
    obtain rfl := Option.some.inj hop
    rfl
  | close fd =>
    obtain rfl := Option.some.inj hop
    exact onto_map (call st (.close fd pid)) none

/-- A kernel that counts one byte more than it may look at. -/
def countingKernel : Kernel where
  strnlenUser m n := min (cstr m).length n + 1
  ends p rest n hp hlt := by
    rw [cstr_append_zero hp]
    omega
  long p rest n hp hle := by
    rw [cstr_append_zero hp]
    omega

/-! ## Whole runs -/

/-- A request with the process that makes it and what the kernel has not set by then. -/
structure Asking where
  unset : Unset
  pid : Int
  request : Request

/-- What comes back: the value, and the caller's memory where it has given some. -/
abbrev Back := Option (Int × Option Bytes)

/-- `rd_init` starts anew; any other request is its operation. -/
def direct (K : Kernel) (st : State) (x : Asking) : State × Back :=
  match asked x.unset x.pid (seen K x.unset x.request) x.request with
  | none => (initFileSys x.unset.behind st.readBuffer, some (0, none))
  | some op => (step st op, (call st op).map fun c => (libcReturn c.2, handed x.pid st x.request))

end ToyOS.Ramdisk.Library
