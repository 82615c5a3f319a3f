import ToyOS.Ramdisk.Namespace

/-! # Descriptor tables: open, seek and close -/
namespace ToyOS.Ramdisk.Descriptors
open ToyOS.Lib.Loop ToyOS.Lib.Words ToyOS.Lib.CStrings ToyOS.Ramdisk.Image ToyOS.Ramdisk.Paths

/-! The access rights, as `S_I*` bits. -/

def RD : Nat := 0o444
def RW : Nat := 0o644
def WR : Nat := 0o244

/-- `inode_ptr` is NULL or points to one of the 1024 inodes. -/
structure FileObject where
  inodePtr : Option (Fin 1024)
  status : Nat
  cursor : Nat
  pos : Nat
  usable : Nat

def FileObject.zero : FileObject := ⟨none, 0, 0, 0, 0⟩

structure ProcessFdTable where
  pid : Nat
  fileObjects : Nat → FileObject

/-- The global variables. -/
structure State where
  discos : FileSys
  pFdTable : Nat → ProcessFdTable
  readBuffer : Bytes

/-- An `unsigned int` converted to `int`. -/
def toI32 (n : Nat) : Int := if n < 2 ^ 31 then n else (n : Int) - 2 ^ 32

/-- A pointer to a file object: table and index. -/
structure FdPtr where
  table : Nat
  slot : Nat
deriving DecidableEq

namespace State

def fileObject (st : State) (f : FdPtr) : FileObject := (st.pFdTable f.table).fileObjects f.slot

def setFileObject (st : State) (f : FdPtr) (o : FileObject) : State :=
  let t := st.pFdTable f.table
  let t := { t with fileObjects := Function.update t.fileObjects f.slot o }
  { st with pFdTable := Function.update st.pFdTable f.table t }

end State

/-- The table with the caller's pid, else one whose pid is 0. No pid is ever stored. -/
def getFdTable (st : State) (pid : Int) : Option Nat :=
  (firstIdx (fun i => (st.pFdTable i).pid == toU32 pid) 0 10).or
    (firstIdx (fun i => (st.pFdTable i).pid == 0) 0 10)

/-- The loop at the head of `rd_write`, `rd_lseek`, `rd_read` and `rd_close`:
the first file object with `pos == fd`. -/
def findFileObject (st : State) (fd pid : Int) : Option FdPtr :=
  match getFdTable st pid with
  | none => none
  | some t =>
    (firstIdx (fun i => (st.fileObject ⟨t, i⟩).pos == toU32 fd) 0 1024).map (⟨t, ·⟩)

def createFileObject (st : State) (pid : Int) : Option (State × FdPtr) :=
  match getFdTable st pid with
  | none => none
  | some t =>
    (firstIdx (fun i => (st.fileObject ⟨t, i⟩).usable == 0) 0 1024).map fun i =>
      (st.setFileObject ⟨t, i⟩ { st.fileObject ⟨t, i⟩ with pos := i, usable := 1 }, ⟨t, i⟩)

/-- The three access checks of `rd_open`; other flags pass. -/
def accessDenied (flags access : Nat) : Bool :=
  (flags == RD && access == WR) || (flags == WR && access == RD) || (flags == RW && access != RW)

def rdOpen (st : State) (pathname : Str) (flags : Nat) (pid : Int) : Option (State × Int) :=
  if pathname = [slash] then some (st, -1)
  else match myFindInodeNumber st.discos pathname with
    | .outside => none
    | .missing => some (st, -1)
    | .inode k =>
      if hk : k < 1024 then
        if accessDenied flags (st.discos.inodes k).access then some (st, -1)
        else match createFileObject st pid with
          | none => some (st, -1)
          | some (st, f) =>
            let st := st.setFileObject f
              { st.fileObject f with cursor := 0, inodePtr := some ⟨k, hk⟩, status := flags }
            some (st, toI32 (st.fileObject f).pos)
      else none

/-- The checks `rd_lseek`, `rd_read` and `rd_close` begin with; `none` is their -1. -/
def usableFile (st : State) (fd pid : Int) : Option (FdPtr × Fin 1024) :=
  match findFileObject st fd pid with
  | none => none
  | some f => match (st.fileObject f).inodePtr with
    | none => none
    | some k =>
      if (st.fileObject f).usable ≠ 1 then none
      else if (st.discos.inodes k).type = some .dir then none
      else some (f, k)

def rdLseek (st : State) (fd offset pid : Int) : State × Int :=
  match usableFile st fd pid with
  | none => (st, -1)
  | some (f, k) =>
    if offset < 0 then (st, -1)
    else
      let fileSize := (st.discos.inodes k).size
      if fileSize ≤ toU32 offset then
        (st.setFileObject f { st.fileObject f with cursor := u32Sub fileSize 1 },
          toI32 (u32Sub fileSize 1))
      else (st.setFileObject f { st.fileObject f with cursor := toU32 offset }, offset)

def rdClose (st : State) (fd pid : Int) : State × Int :=
  match usableFile st fd pid with
  | none => (st, -1)
  | some (f, _) => (st.setFileObject f .zero, 0)

end ToyOS.Ramdisk.Descriptors
