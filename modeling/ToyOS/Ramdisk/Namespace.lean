import ToyOS.Ramdisk.Paths
import ToyOS.Ramdisk.Directories

/-! # Creating, removing and changing the mode of files

`none` is a call that would index `inodes[]` out of range. A string argument
is the string the caller passes; `vmalloc` and `kmalloc` succeed.
-/
namespace ToyOS.Ramdisk.Namespace
open ToyOS.Lib.Words ToyOS.Lib.CStrings ToyOS.Ramdisk.Image ToyOS.Ramdisk.Blocks ToyOS.Ramdisk.Paths
open ToyOS.Ramdisk.Directories

/-- The end of `rd_create`: the new inode `n` is allocated, the entry `e` and
the inode are filled in, and the directory `cur` grows by one entry. -/
def fillEntry (fs : FileSys) (cur : Nat) (e : EntryPtr) (n : Nat) (entryName : Str)
    (type : FileType) (mode : Nat) : FileSys :=
  let fs := allocateInode fs n
  let fs := (fs.strcpyAt e.block (16 * e.slot) entryName).setEntryNum e.block e.slot n
  let fs := fs.setInode n { fs.inodes n with type := some type, access := mode }
  fs.setInode cur { fs.inodes cur with size := u32 ((fs.inodes cur).size + 16) }

def rdCreate (fs : FileSys) (pathname : Str) (type : FileType) (mode : Nat) (mem : Scratch) :
    Option (FileSys × Int) :=
  if fs.freeInodes = 0 then some (fs, -1)
  else if fs.freeBlocks = 0 then some (fs, -1)
  else
    let (currentPath, entryName) := splitPath pathname mem
    match findIndex fs currentPath with
    | .outside => none
    | .missing => some (fs, -1)
    | .inode cur =>
      match getNextEntry fs cur with
      | (fs, none) => some (fs, -1)
      | (fs, some e) =>
        match getFreeInodeNum fs with
        | none => some (fs, -1)
        | some n => some (fillEntry fs cur e n entryName type mode, 0)

/-- `rd_mkdir`; the two buffers it allocates itself are never read. -/
def rdMkdir (fs : FileSys) (pathname : Str) (mem : Scratch) : Option (FileSys × Int) :=
  if pathname = [slash] then
    if fs.freeInodes = 1024 then
      some ({ fs with freeInodes := u32Sub fs.freeInodes 1 }.setInode 0
        { fs.inodes 0 with type := some .dir }, 0)
    else some (fs, -1)
  else (rdCreate fs pathname .dir 1 mem).map fun r => (r.1, if r.2 = 0 then 0 else -1)

/-- `init_file_sys` on an image `vmalloc` returned: it is zeroed, `behind` is
what lies after it. -/
def emptyImage (behind : Nat → Bytes) : FileSys where
  freeBlocks := 7931
  freeInodes := 1024
  inodes _ := .zero
  bitmap _ := 0
  dataBlocks b := if b < 7931 then fun _ => 0 else behind b

/-- The end of `rd_unlink`: inode `k` goes, and its name from directory `d`. -/
def removeFile (fs : FileSys) (k d : Nat) (filename : Str) : FileSys :=
  let fs := clearEntryInCurrentDir (myClearInode fs k) d filename
  let fs := fs.setInode d { fs.inodes d with size := u32Sub (fs.inodes d).size 16 }
  { fs.setInode k .zero with freeInodes := u32 (fs.freeInodes + 1) }

def rdUnlink (fs : FileSys) (pathname : Str) (mem : Scratch) : Option (FileSys × Int) :=
  if pathname = [slash] then some (fs, -1)
  else match findIndex fs pathname with
    | .outside => none
    | .missing => some (fs, -1)
    | .inode k =>
      if (fs.inodes k).type = some .dir ∧ 0 < (fs.inodes k).size then some (fs, -1)
      else
        let (currentDir, filename) := splitPath pathname mem
        match findIndex fs currentDir with
        | .outside => none
        | .missing => some (fs, -1)
        | .inode d => some (removeFile fs k d filename, 0)

def rdChmod (fs : FileSys) (pathname : Str) (mode : Nat) : Option (FileSys × Int) :=
  if pathname = [slash] then some (fs, -1)
  else match findIndex fs pathname with
    | .outside => none
    | .missing => some (fs, -1)
    | .inode k => some (fs.setInode k { fs.inodes k with access := mode }, 0)

end ToyOS.Ramdisk.Namespace
