import ToyOS.Ramdisk.Blocks

/-! # Path parsing and lookup -/
namespace ToyOS.Ramdisk.Paths
open ToyOS.Lib.Loop ToyOS.Lib.CStrings ToyOS.Ramdisk.Image

/-- The byte `'/'`. -/
def slash : UInt8 := 47

/-- The downward scan of `parse_absolute_path`: the last slash below position `n`. -/
def lastSlash (path : Str) : Nat → Option Nat
  | 0 => none
  | n + 1 => if path[n]? = some slash then some n else lastSlash path n

/-- Splits off the last component. The arguments are the buffers as the caller
hands them over; a parent other than the root is copied without a terminator. -/
def parseAbsolutePath (path : Str) (currentDir filename : List UInt8) :
    List UInt8 × List UInt8 :=
  match lastSlash path path.length with
  | none => (currentDir, strcpy filename path)
  | some 0 => (strcpy currentDir [slash], strcpy filename (path.drop 1))
  | some i => (strncpy currentDir path i, strcpy filename (path.drop (i + 1)))

/-- What `vmalloc` returns for the two scratch buffers of one call. -/
structure Scratch where
  currentDir : List UInt8
  filename : List UInt8

/-- The strings the callers of `parse_absolute_path` go on with. -/
def splitPath (path : Str) (mem : Scratch) : Str × Str :=
  let r := parseAbsolutePath path (clearStr mem.currentDir) (clearStr mem.filename)
  (cstr r.1, cstr r.2)

/-- What a lookup answers; `outside` when it would index `inodes[]` out of range. -/
inductive Found where
  | inode (k : Nat)
  | missing
  | outside
deriving DecidableEq, Repr

/-- The number in the first entry of block `b` with the name looked for. -/
def searchBlock (fs : FileSys) (b : Nat) (found : Str) : Option Nat :=
  firstSome (fun j => if fs.entryNameIs b j found then some (fs.entryNum b j) else none) 0 16

/-- The source takes a changed `cur_node_num` for success, so an entry with the
number of the directory itself does not count. -/
def newNumber (fs : FileSys) (preNodeNum : Nat) (found : Str) (p : Nat) : Option Nat :=
  if p = 0 then none else (searchBlock fs (blockOf p) found).filter (· != preNodeNum)

def findInIndex (fs : FileSys) (preNodeNum : Nat) (found : Str) (b : Nat) : Option Nat :=
  firstSome (fun i => newNumber fs preNodeNum found (fs.ptrAt (.indexBlock b i))) 0 64

def findDirect (fs : FileSys) (preNodeNum : Nat) (found : Str) : Option Nat :=
  firstSome (fun i => newNumber fs preNodeNum found (fs.ptrAt (.pointers preNodeNum i))) 0 8

def findSingle (fs : FileSys) (preNodeNum : Nat) (found : Str) : Option Nat :=
  let singleIndirect := fs.ptrAt (.singleIndirect preNodeNum)
  if singleIndirect = 0 then none else findInIndex fs preNodeNum found (blockOf singleIndirect)

def findDouble (fs : FileSys) (preNodeNum : Nat) (found : Str) : Option Nat :=
  let doubleIndirect := fs.ptrAt (.doubleIndirect preNodeNum)
  if doubleIndirect = 0 then none
  else firstSome (fun k =>
    let singleIndirect := fs.ptrAt (.indexBlock (blockOf doubleIndirect) k)
    if singleIndirect = 0 then none else findInIndex fs preNodeNum found (blockOf singleIndirect))
    0 64

/-- One round of the `strsep` loop: the three pointer levels in turn. -/
def findComponent (fs : FileSys) (preNodeNum : Nat) (found : Str) : Option Nat :=
  (findDirect fs preNodeNum found).or
    ((findSingle fs preNodeNum found).or (findDouble fs preNodeNum found))

/-- The `strsep` loop from inode `cur` on. -/
def walk (fs : FileSys) : Nat → List Str → Found
  | cur, [] => .inode cur
  | cur, t :: ts =>
    if 1024 ≤ cur then .outside
    else match findComponent fs cur t with
      | some n => walk fs n ts
      | none => .missing

/-- `my_find_inode_number`; `missing` is -1. -/
def myFindInodeNumber (fs : FileSys) (pathname : Str) : Found :=
  if pathname = [slash] then .inode 0
  else walk fs 0 ((pathname.drop 1).splitOn slash)

/-- A lookup whose answer the caller uses as an index. -/
def findIndex (fs : FileSys) (pathname : Str) : Found :=
  match myFindInodeNumber fs pathname with
  | .inode k => if k < 1024 then .inode k else .outside
  | r => r

end ToyOS.Ramdisk.Paths
