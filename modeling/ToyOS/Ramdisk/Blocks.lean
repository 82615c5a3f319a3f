import ToyOS.Lib.Loop
import ToyOS.Ramdisk.Image

/-! # Allocation of blocks and inodes -/
namespace ToyOS.Ramdisk.Blocks
open ToyOS.Lib.Loop ToyOS.Lib.Words ToyOS.Lib.Bits ToyOS.Ramdisk.Image

/-- The range check lets 7931 through, one more than there are blocks. -/
def clearBitmap (map : Bytes) (index : Nat) : Bytes :=
  if 7931 < index then map else clearBit map index

def setBitmap (map : Bytes) (index : Nat) : Bytes :=
  if 7931 < index then map else setBit map index

/-- The least clear bit; `none` is the -1 of the source. The byte search skips
0xff, the bit search shifts a copy of the byte found. -/
def getFreeBlockNumFromBitmap (fs : FileSys) (map : Bytes) : Option Nat :=
  if fs.freeBlocks = 0 then none
  else match firstIdx (fun i => map i != 255) 0 1024 with
    | none => none
    | some freeBytePos =>
      let freeByte := map freeBytePos
      let freeBit := freeBytePos * 8 +
        (firstIdx (fun i => (freeByte >>> UInt8.ofNat i) &&& 1 == 0) 0 8).getD 0
      if 7931 ≤ freeBit then none else some freeBit

def allocateDataBlock (fs : FileSys) (freeBlockNumber : Nat) : FileSys :=
  { fs with
    bitmap := setBitmap fs.bitmap freeBlockNumber
    freeBlocks := u32Sub fs.freeBlocks 1 }.zeroBlock freeBlockNumber

/-- The idiom of every allocation site: search the bitmap, give up on -1,
allocate the block found. -/
def takeBlock (fs : FileSys) : Option (FileSys × Nat) :=
  (getFreeBlockNumFromBitmap fs fs.bitmap).map fun b => (allocateDataBlock fs b, b)

/-- `if (*slot == NULL) { take a block or give up; *slot = the block; }` -/
def ensureBlock (fs : FileSys) (slot : PtrSlot) : Option FileSys :=
  if fs.ptrAt slot = 0 then (takeBlock fs).map fun r => r.1.setPtr slot (ptrTo r.2)
  else some fs

def getFreeInodeNum (fs : FileSys) : Option Nat :=
  if fs.freeInodes = 0 then none
  else firstIdx (fun i => (fs.inodes i).type == none) 1 1023

def allocateInode (fs : FileSys) (n : Nat) : FileSys :=
  { fs with freeInodes := u32Sub fs.freeInodes 1 }.setInode n .zero

/-- What the three helpers below do to each block they meet: give its bit back,
zero it, count it. -/
def freeBlock (fs : FileSys) (b : Nat) : FileSys :=
  { fs with
    bitmap := clearBitmap fs.bitmap b
    freeBlocks := u32 (fs.freeBlocks + 1) }.zeroBlock b

/-- Free the block a slot points to, if any; the slot itself is left as it is. -/
def freeSlot (fs : FileSys) (slot : PtrSlot) : FileSys :=
  if fs.ptrAt slot = 0 then fs else freeBlock fs (blockOf (fs.ptrAt slot))

def clearInodeSingleIndirect (fs : FileSys) (singleIndirect : Nat) : FileSys :=
  freeBlock (loop (fun i fs => freeSlot fs (.indexBlock singleIndirect i)) 0 64 fs) singleIndirect

def clearInodeDoubleIndirect (fs : FileSys) (doubleIndirect : Nat) : FileSys :=
  freeBlock
    (loop (fun i fs =>
      let singleIndirect := fs.ptrAt (.indexBlock doubleIndirect i)
      if singleIndirect = 0 then fs else clearInodeSingleIndirect fs (blockOf singleIndirect))
      0 64 fs)
    doubleIndirect

/-- Frees every block of inode `k`; the pointers in the inode stay. -/
def myClearInode (fs : FileSys) (k : Nat) : FileSys :=
  let fs := loop (fun i fs => freeSlot fs (.pointers k i)) 0 8 fs
  let fs := if (fs.inodes k).singleIndirectPtrs = 0 then fs
    else clearInodeSingleIndirect fs (blockOf (fs.inodes k).singleIndirectPtrs)
  if (fs.inodes k).doubleIndirectPtrs = 0 then fs
  else clearInodeDoubleIndirect fs (blockOf (fs.inodes k).doubleIndirectPtrs)

end ToyOS.Ramdisk.Blocks
