import ToyOS.Lib.Bits
import ToyOS.Lib.Words
import ToyOS.Lib.CStrings

/-! # The file-system image

The records of `discos.h`. A `data_block_struct*` is kept as a number: 0 is
NULL and `b + 1` is `&discos->data_blocks[b]`, so `ptr - &data_blocks[0]` is
`blockOf`. A data block is its 256 bytes, and the three views of the union read
the same bytes: characters, sixteen 16-byte entries (14 of name, then the inode
number), or sixty-four 4-byte pointers. Machine words are `Nat`s below 2^32.
-/
namespace ToyOS.Ramdisk.Image
open ToyOS.Lib.Words ToyOS.Lib.CStrings

/-- The two contents of `type` in a live inode; a free inode has the empty string. -/
inductive FileType where
  | dir
  | reg
deriving DecidableEq, Repr

/-- Arithmetic of `unsigned int`. -/
@[irreducible] def u32 (n : Nat) : Nat := n % 2 ^ 32

/-- An `int` converted to `unsigned int`. -/
@[irreducible] def toU32 (x : Int) : Nat := (x % 2 ^ 32).toNat

/-- `x - n` on `unsigned int`s. -/
def u32Sub (x n : Nat) : Nat := toU32 (x - n)

theorem u32_lt (x : Nat) : u32 x < 2 ^ 32 := by
  unfold u32; exact Nat.mod_lt _ (by omega)

theorem u32Sub_lt (x y : Nat) : u32Sub x y < 2 ^ 32 := by
  unfold u32Sub toU32; omega

theorem u32_of_lt {n : Nat} (h : n < 2 ^ 32) : u32 n = n := by
  unfold u32; exact Nat.mod_eq_of_lt h

theorem u32Sub_of_le {x n : Nat} (hx : x < 2 ^ 32) (h : n ≤ x) : u32Sub x n = x - n := by
  unfold u32Sub toU32; omega

theorem toU32_natCast {n : Nat} (h : n < 2 ^ 32) : toU32 n = n := by
  unfold toU32; omega

structure Inode where
  type : Option FileType
  size : Nat
  pointers : Nat → Nat
  singleIndirectPtrs : Nat
  doubleIndirectPtrs : Nat
  access : Nat

/-- `memset(inode, 0, INODE_SIZE)`. -/
def Inode.zero : Inode := ⟨none, 0, fun _ => 0, 0, 0, 0⟩

/-- `superblock`, `inodes[1024]`, `bitmap[1024]` and `data_blocks[7931]`. The
blocks lie next to each other in memory; what lies behind the last one has
indices from 7931 on. -/
structure FileSys where
  freeBlocks : Nat
  freeInodes : Nat
  inodes : Nat → Inode
  bitmap : Bytes
  dataBlocks : Nat → Bytes

/-- The number of the block a non-NULL pointer points to. -/
def blockOf (p : Nat) : Nat := p - 1

def ptrTo (b : Nat) : Nat := b + 1

@[simp] theorem blockOf_ptrTo (b : Nat) : blockOf (ptrTo b) = b := rfl
@[simp] theorem ptrTo_ne_zero (b : Nat) : ptrTo b ≠ 0 := Nat.succ_ne_zero b

theorem ptrTo_blockOf {p : Nat} (h : p ≠ 0) : ptrTo (blockOf p) = p := by
  unfold ptrTo blockOf; omega

/-- Where a block pointer is stored: in an inode, or in slot `i` of index block `b`. -/
inductive PtrSlot where
  | pointers (k i : Nat)
  | singleIndirect (k : Nat)
  | doubleIndirect (k : Nat)
  | indexBlock (b i : Nat)
deriving DecidableEq

namespace FileSys

def setInode (fs : FileSys) (k : Nat) (node : Inode) : FileSys :=
  { fs with inodes := Function.update fs.inodes k node }

def setBlock (fs : FileSys) (b : Nat) (bytes : Bytes) : FileSys :=
  { fs with dataBlocks := Function.update fs.dataBlocks b bytes }

/-- Read a stored block pointer. -/
def ptrAt (fs : FileSys) : PtrSlot → Nat
  | .pointers k i => (fs.inodes k).pointers i
  | .singleIndirect k => (fs.inodes k).singleIndirectPtrs
  | .doubleIndirect k => (fs.inodes k).doubleIndirectPtrs
  | .indexBlock b i => load (fs.dataBlocks b) (4 * i) 4

/-- Overwrite a stored block pointer. -/
def setPtr (fs : FileSys) : PtrSlot → Nat → FileSys
  | .pointers k i, p =>
    fs.setInode k { fs.inodes k with pointers := Function.update (fs.inodes k).pointers i p }
  | .singleIndirect k, p => fs.setInode k { fs.inodes k with singleIndirectPtrs := p }
  | .doubleIndirect k, p => fs.setInode k { fs.inodes k with doubleIndirectPtrs := p }
  | .indexBlock b i, p => fs.setBlock b (store (fs.dataBlocks b) (4 * i) 4 p)

/-- `entries[j].inode_num` of block `b`. -/
def entryNum (fs : FileSys) (b j : Nat) : Nat := load (fs.dataBlocks b) (16 * j + 14) 2

def setEntryNum (fs : FileSys) (b j n : Nat) : FileSys :=
  fs.setBlock b (store (fs.dataBlocks b) (16 * j + 14) 2 (n % 2 ^ 16))

/-- Memory from the start of block `b` on, across the following blocks. -/
def window (fs : FileSys) (b : Nat) : Bytes := fun a => fs.dataBlocks (b + a / 256) (a % 256)

/-- Store the byte `a` bytes after the start of block `b`. -/
def poke (fs : FileSys) (b a : Nat) (v : UInt8) : FileSys :=
  fs.setBlock (b + a / 256) (Function.update (fs.dataBlocks (b + a / 256)) (a % 256) v)

/-- `strcmp(entries[j].name, s) == 0` for block `b`. A name without a zero in
its 14 bytes is read on into what follows it. -/
def entryNameIs (fs : FileSys) (b j : Nat) (s : Str) : Bool := strEq (fs.window b) (16 * j) s

/-- `strcpy` to `a` bytes after the start of block `b`; nothing stops it at the
end of the name field, the entry or the block. -/
def strcpyAt (fs : FileSys) (b : Nat) : Nat → Str → FileSys
  | a, [] => fs.poke b a 0
  | a, c :: s => (fs.poke b a c).strcpyAt b (a + 1) s

/-- `memset(&entries[j], 0, sizeof(dir_entry_struct))` in block `b`. -/
def clearEntry (fs : FileSys) (b j : Nat) : FileSys :=
  fs.setBlock b fun a => if 16 * j ≤ a ∧ a < 16 * j + 16 then 0 else fs.dataBlocks b a

/-- `memset(&data_blocks[b], 0, BLOCK_SIZE)`. -/
def zeroBlock (fs : FileSys) (b : Nat) : FileSys := fs.setBlock b fun _ => 0

end FileSys
end ToyOS.Ramdisk.Image
