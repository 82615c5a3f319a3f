import ToyOS.Ramdisk.Descriptors

/-! # rd_write -/
namespace ToyOS.Ramdisk.Write
open ToyOS.Lib.Loop ToyOS.Lib.Words ToyOS.Ramdisk.Image ToyOS.Ramdisk.Blocks ToyOS.Ramdisk.Descriptors

/-- The variables of `rd_write` that change while it runs; `cursor` is the one
of the file object. -/
structure Writer where
  fs : FileSys
  cursor : Nat
  written : Nat
  seg : Nat

section
variable (k : Nat) (data : Bytes) (numBytes : Int)

/-- `block->data[j] = data[written_bytes]` with its three counters. -/
def putByte (b j : Nat) (w : Writer) : Writer :=
  let fs := w.fs.setBlock b (Function.update (w.fs.dataBlocks b) j (data w.written))
  { w with
    fs := fs.setInode k { fs.inodes k with size := u32 ((fs.inodes k).size + 1) }
    cursor := u32 (w.cursor + 1)
    written := w.written + 1 }

/-- One pass of the loop over the bytes of a block. A zero byte in the buffer
is not stored and not skipped either: the position moves on, the buffer does not. -/
def writeByte (b j : Nat) (w : Writer) : Flow Writer Int :=
  if data w.written ≠ 0 then
    let w := putByte k data b j w
    if (w.written : Int) = numBytes then .ret w w.written else .next w
  else .next w

/-- One pass of a loop over blocks: allocate the block if it is missing, then
write from `offset` on. -/
def writeBlock (slot : PtrSlot) (offset : Nat) (w : Writer) : Flow Writer Int :=
  match ensureBlock w.fs slot with
  | none => .ret w (-1)
  | some fs =>
    forFrom (writeByte k data numBytes (blockOf (fs.ptrAt slot))) offset (256 - offset)
      { w with fs := fs }

/-- The direct blocks, located by the cursor. -/
def writeDirect (w : Writer) : Flow Writer Int :=
  let seg := w.cursor / 256
  let offset := w.cursor % 256
  forFrom (fun i => writeBlock k data numBytes (.pointers k i) offset) seg (8 - seg) w

/-- The single-indirect blocks, located by the size. -/
def writeSingle (w : Writer) : Flow Writer Int :=
  let seg := (w.fs.inodes k).size / 256
  let offset := (w.fs.inodes k).size % 256
  if 8 ≤ seg ∧ seg < 72 then
    match ensureBlock w.fs (.singleIndirect k) with
    | none => .ret w (-1)
    | some fs =>
      let singleIndirect := blockOf (fs.ptrAt (.singleIndirect k))
      forFrom (fun i => writeBlock k data numBytes (.indexBlock singleIndirect i) offset)
        (seg - 8) (64 - (seg - 8)) { w with fs := fs }
  else .next w

/-- One index block of the double-indirect part; `seg` is divided again on
every pass. -/
def writeIndex (doubleIndirect offset i : Nat) (w : Writer) : Flow Writer Int :=
  match ensureBlock w.fs (.indexBlock doubleIndirect i) with
  | none => .ret w (-1)
  | some fs =>
    let singleIndirect := blockOf (fs.ptrAt (.indexBlock doubleIndirect i))
    let seg := w.seg / 64
    forFrom (fun j => writeBlock k data numBytes (.indexBlock singleIndirect j) offset)
      seg (64 - seg) { w with fs := fs, seg := seg }

/-- The double-indirect blocks, located by the size. The outer loop starts at 0. -/
def writeDouble (w : Writer) : Flow Writer Int :=
  let seg := (w.fs.inodes k).size / 256
  let offset := (w.fs.inodes k).size % 256
  if 72 ≤ seg ∧ seg < 4168 then
    match ensureBlock w.fs (.doubleIndirect k) with
    | none => .ret { w with seg := seg } (-1)
    | some fs =>
      let doubleIndirect := blockOf (fs.ptrAt (.doubleIndirect k))
      forFrom (writeIndex k data numBytes doubleIndirect offset) 0 64
        { w with fs := fs, seg := seg - 8 - 64 }
  else .next { w with seg := seg }

/-- The three stages and what is returned when they all fall through. -/
def writeStages (w : Writer) : Flow Writer Int :=
  (((writeDirect k data numBytes w).bind (writeSingle k data numBytes)).bind
    (writeDouble k data numBytes)).bind fun w =>
      if 4168 ≤ w.seg then .ret w w.written else .ret w 0

end

/-- The value a function returns with; `d` where control falls off its end. -/
def returned (d : Int) : Flow Writer Int → Int
  | .next _ => d
  | .ret _ r => r

/-- `rd_write`. Unlike the other operations it does not look at `usable`. -/
def rdWrite (st : State) (fd pid : Int) (data : Bytes) (numBytes : Int) : State × Int :=
  match findFileObject st fd pid with
  | none => (st, -1)
  | some f => match (st.fileObject f).inodePtr with
    | none => (st, -1)
    | some k =>
      if (st.discos.inodes k).type = some .dir then (st, -1)
      else if (st.discos.inodes k).access = RD ∨ (st.fileObject f).status = RD then (st, -1)
      else
        let r := writeStages k data numBytes ⟨st.discos, (st.fileObject f).cursor, 0, 0⟩
        ({ st with discos := r.state.fs }.setFileObject f
          { st.fileObject f with cursor := r.state.cursor }, returned 0 r)

end ToyOS.Ramdisk.Write
