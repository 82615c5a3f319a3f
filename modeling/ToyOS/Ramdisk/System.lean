import ToyOS.Lib.Runs
import ToyOS.Ramdisk.Write
import ToyOS.Ramdisk.Read

/-! # The file system as a state machine

One step is one call of an `rd_` operation. A call that would index `inodes[]`
out of range is a step without effect.
-/
namespace ToyOS.Ramdisk.System
open ToyOS.Lib.Words ToyOS.Lib.CStrings ToyOS.Lib.Runs ToyOS.Ramdisk.Image
open ToyOS.Ramdisk.Paths ToyOS.Ramdisk.Namespace ToyOS.Ramdisk.Descriptors
open ToyOS.Ramdisk.Write ToyOS.Ramdisk.Read

/-- A call with its arguments; the path operations carry what `vmalloc` hands
out for their scratch buffers, `write` the caller's memory from `data` on. -/
inductive Op where
  | create (pathname : Str) (type : FileType) (mode : Nat) (mem : Scratch)
  | mkdir (pathname : Str) (mem : Scratch)
  | unlink (pathname : Str) (mem : Scratch)
  | chmod (pathname : Str) (mode : Nat)
  | open (pathname : Str) (flags : Nat) (pid : Int)
  | write (fd pid : Int) (data : Bytes) (numBytes : Int)
  | lseek (fd offset pid : Int)
  | read (fd : Int) (addr : Bytes) (numBytes pid : Int)
  | close (fd pid : Int)

/-- The state and return value of an operation on the image alone. -/
def onImage (st : State) (r : Option (FileSys × Int)) : Option (State × Int) :=
  r.map fun r => ({ st with discos := r.1 }, r.2)

/-- The new state and the return value of a call. -/
def call (st : State) : Op → Option (State × Int)
  | .create p t m mem => onImage st (rdCreate st.discos p t m mem)
  | .mkdir p mem => onImage st (rdMkdir st.discos p mem)
  | .unlink p mem => onImage st (rdUnlink st.discos p mem)
  | .chmod p m => onImage st (rdChmod st.discos p m)
  | .open p fl pid => rdOpen st p fl pid
  | .write fd pid d n => some (rdWrite st fd pid d n)
  | .lseek fd off pid => some (rdLseek st fd off pid)
  | .read fd a n pid => some ((rdRead st fd a n pid).1, (rdRead st fd a n pid).2.1)
  | .close fd pid => some (rdClose st fd pid)

def step (st : State) (op : Op) : State := (call st op).elim st (·.1)

/-- The globals after `init_file_sys`: `behind` is what lies behind the image
and `buffer` what `read_buffer` holds. -/
def initFileSys (behind : Nat → Bytes) (buffer : Bytes) : State where
  discos := ((rdMkdir (emptyImage behind) [slash] ⟨[], []⟩).elim (emptyImage behind) (·.1))
  pFdTable _ := ⟨0, fun _ => .zero⟩
  readBuffer := buffer

/-- The states of the runs from `init_file_sys` whose every call is allowed. -/
def Reachable (ok : State → Op → Prop) (st : State) : Prop :=
  ∃ behind buffer, Reach ok step (initFileSys behind buffer) st

end ToyOS.Ramdisk.System
