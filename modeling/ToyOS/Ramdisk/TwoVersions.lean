import ToyOS.Ramdisk.Fetching
import ToyOS.Ramdisk.Isolation
import ToyOS.Ramdisk.Uninitialised

/-! # The user-space version does what the kernel version does

The two `discos.c` are not the same program. But while the paths are well named, the
image came as zeros and no call reads what nobody wrote, a run of the user-space
version is a run of the kernel version: every call leaves the same image and the same
descriptors and returns the same, with two differences. A directory is created with
the mode `RW`, and a read is put together on the stack instead of in `read_buffer`.
-/
namespace ToyOS.Ramdisk.TwoVersions
open ToyOS.Lib.Loop ToyOS.Lib.Words ToyOS.Lib.CStrings ToyOS.Lib.Runs ToyOS.Lib.Gather ToyOS.Ramdisk.Image
open ToyOS.Ramdisk.Paths ToyOS.Ramdisk.Components ToyOS.Ramdisk.Descriptors ToyOS.Ramdisk.Read
open ToyOS.Ramdisk.Fetching ToyOS.Ramdisk.UserLookup ToyOS.Ramdisk.Versions ToyOS.Ramdisk.Uninitialised
open ToyOS.Ramdisk.Creating (rdCreate_result)
open ToyOS.Ramdisk.Isolation (value)
open ToyOS.Ramdisk.BlockOwnership (nameA)

variable {fs : FileSys} {st : State} {path : Str} {req : Request}
variable {fd pid n : Int} {addr stack : Bytes} {l : List UInt8}

/-- The paths of a request are well named. -/
def Named : Request → Prop
  | .create p _ _ | .mkdir p | .unlink p | .chmod p _ | .open p _ _ => ∃ cs, p = render cs
  | .write .. | .lseek .. | .read .. | .close .. => True

end ToyOS.Ramdisk.TwoVersions
