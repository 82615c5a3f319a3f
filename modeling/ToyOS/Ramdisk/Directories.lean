import ToyOS.Ramdisk.Blocks

/-! # Directory entries: finding a free one, clearing one -/
namespace ToyOS.Ramdisk.Directories
open ToyOS.Lib.Loop ToyOS.Lib.CStrings ToyOS.Ramdisk.Image ToyOS.Ramdisk.Blocks

/-- A `dir_entry_struct*`: entry `slot` of block `block`. -/
structure EntryPtr where
  block : Nat
  slot : Nat
deriving DecidableEq, Repr

/-- The first entry of the block without an inode number. -/
def getNextDirEntry (fs : FileSys) (b : Nat) : Option EntryPtr :=
  (firstIdx (fun j => fs.entryNum b j == 0) 0 16).map (⟨b, ·⟩)

def getNextDirEntrySingle (fs : FileSys) (singleIndirect seg : Nat) :
    FileSys × Option EntryPtr :=
  let block := fs.ptrAt (.indexBlock singleIndirect seg)
  if block = 0 then
    match takeBlock fs with
    | none => (fs, none)
    | some (fs, b) => (fs.setPtr (.indexBlock singleIndirect seg) (ptrTo b), some ⟨b, 0⟩)
  else (fs, getNextDirEntry fs (blockOf block))

/-- A new index block is used but not linked: the source has the store to
`double_indirect->index_block[seg]` commented out. -/
def getNextDirEntryDouble (fs : FileSys) (doubleIndirect segment : Nat) :
    FileSys × Option EntryPtr :=
  let block := fs.ptrAt (.indexBlock doubleIndirect (segment / 64))
  if block = 0 then
    match takeBlock fs with
    | none => (fs, none)
    | some (fs, b) => getNextDirEntrySingle fs b (segment % 64)
  else getNextDirEntrySingle fs (blockOf block) (segment % 64)

/-- One pass of the loop over the direct blocks; it returns to the caller of
`get_next_entry`. -/
def nextEntryDirect (k i : Nat) (fs : FileSys) : Flow FileSys (Option EntryPtr) :=
  let dirPtr := fs.ptrAt (.pointers k i)
  if dirPtr = 0 then
    match takeBlock fs with
    | none => .ret fs none
    | some (fs, b) => .ret (fs.setPtr (.pointers k i) (ptrTo b)) (some ⟨b, 0⟩)
  else match getNextDirEntry fs (blockOf dirPtr) with
    | some e => .ret fs (some e)
    | none => .next fs

/-- The double-indirect part; a failed search ends in the final `return NULL`. -/
def nextEntryDouble (fs : FileSys) (k seg : Nat) : FileSys × Option EntryPtr :=
  if 72 ≤ seg ∧ seg < 4168 then
    match ensureBlock fs (.doubleIndirect k) with
    | none => (fs, none)
    | some fs =>
      getNextDirEntryDouble fs (blockOf (fs.ptrAt (.doubleIndirect k))) (seg - 72)
  else (fs, none)

/-- The single-indirect part, which looks at one block only and goes on to the
double-indirect part with `seg = 72` when that block is full. -/
def nextEntrySingle (fs : FileSys) (k seg : Nat) : FileSys × Option EntryPtr :=
  if 8 ≤ seg ∧ seg < 72 then
    match ensureBlock fs (.singleIndirect k) with
    | none => (fs, none)
    | some fs =>
      match getNextDirEntrySingle fs (blockOf (fs.ptrAt (.singleIndirect k))) (seg - 8) with
      | (fs, some e) => (fs, some e)
      | (fs, none) => nextEntryDouble fs k 72
  else nextEntryDouble fs k seg

/-- The search starts at the block the directory's size points to. -/
def getNextEntry (fs : FileSys) (k : Nat) : FileSys × Option EntryPtr :=
  let seg := (fs.inodes k).size / 256
  match forFrom (nextEntryDirect k) seg (8 - seg) fs with
  | .ret fs e => (fs, e)
  | .next fs => nextEntrySingle fs k seg

/-- The variables of the scan over one level of `clear_entry_in_current_dir`. -/
structure Scan where
  fs : FileSys
  findEntry : Bool
  nonEmptyEntries : Nat
  nonEmptyBlocks : Nat
  lastEntry : Bool

/-- One entry: count it if it has a number, then clear it if it has the name. -/
def scanEntry (filename : Str) (b j : Nat) (s : Scan) : Scan :=
  let s := if s.fs.entryNum b j ≠ 0 then { s with nonEmptyEntries := s.nonEmptyEntries + 1 } else s
  if s.fs.entryNameIs b j filename then
    { s with fs := s.fs.clearEntry b j, findEntry := true }
  else s

/-- One block of a level: scan it if it is there, and give it back when the
entry has been found, here or before, and exactly one entry was counted. -/
def scanBlock (filename : Str) (slot : PtrSlot) (s : Scan) : Scan :=
  let p := s.fs.ptrAt slot
  let s := { s with nonEmptyEntries := 0 }
  let s := if p = 0 then s
    else loop (scanEntry filename (blockOf p)) 0 16
      { s with nonEmptyBlocks := s.nonEmptyBlocks + 1 }
  if s.findEntry = true ∧ s.nonEmptyEntries = 1 then
    { s with
      fs := { s.fs with
        bitmap := clearBitmap s.fs.bitmap (blockOf (s.fs.ptrAt slot)) }.setPtr slot 0
      lastEntry := true }
  else s

/-- The single-indirect stage, with the index block given back at its end when
its only block has been. -/
def clearEntrySingle (filename : Str) (d : Nat) (s : Scan) : Scan :=
  let singleIndirect := s.fs.ptrAt (.singleIndirect d)
  if singleIndirect = 0 then s
  else
    let s := loop (fun i => scanBlock filename (.indexBlock (blockOf singleIndirect) i)) 0 64
      { s with nonEmptyBlocks := 0, lastEntry := false }
    if s.findEntry = true ∧ s.nonEmptyBlocks = 1 ∧ s.lastEntry = true then
      { s with
        fs := { s.fs with
          bitmap := clearBitmap s.fs.bitmap (blockOf (s.fs.ptrAt (.singleIndirect d))) }.setPtr
            (.singleIndirect d) 0 }
    else s

/-- Clears the entries called `filename` of the first level that has one. The
double-indirect level is searched in the source but nothing is cleared there. -/
def clearEntryInCurrentDir (fs : FileSys) (d : Nat) (filename : Str) : FileSys :=
  let s := loop (fun i => scanBlock filename (.pointers d i)) 0 8 ⟨fs, false, 0, 0, false⟩
  if s.findEntry then s.fs else (clearEntrySingle filename d s).fs

end ToyOS.Ramdisk.Directories
