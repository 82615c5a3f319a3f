import ToyOS.Ramdisk.Descriptors

/-! # rd_read -/
namespace ToyOS.Ramdisk.Read
open ToyOS.Lib.Loop ToyOS.Lib.Words ToyOS.Ramdisk.Image ToyOS.Ramdisk.Descriptors

/-- The variables of `rd_read` that change while it runs; `buffer` is the
global `read_buffer`, `cursor` the one of the file object. -/
structure Reader where
  buffer : Bytes
  cursor : Nat
  bytesRead : Nat
  seg : Nat

section
variable (fs : FileSys) (k : Nat) (bytesToRead : Int)

/-- Leave the enclosing loop when enough has been read. -/
def breakIfDone (r : Reader) : Flow Reader Unit :=
  if (r.bytesRead : Int) = bytesToRead then .ret r () else .next r

/-- One pass of the loop over the bytes of a block; zero bytes are skipped. -/
def readByte (b j : Nat) (r : Reader) : Flow Reader Unit :=
  let c := fs.dataBlocks b j
  if c ≠ 0 then
    breakIfDone bytesToRead
      { r with
        buffer := Function.update r.buffer r.bytesRead c
        cursor := u32 (r.cursor + 1)
        bytesRead := r.bytesRead + 1 }
  else .next r

/-- One pass of a loop over blocks: the byte loop, whose `break` ends only
itself, and the test that follows it. -/
def readBlock (slot : PtrSlot) (offset : Nat) (r : Reader) : Flow Reader Unit :=
  let p := fs.ptrAt slot
  breakIfDone bytesToRead
    (if p = 0 then r
    else (forFrom (readByte fs bytesToRead (blockOf p)) offset (256 - offset) r).state)

def readDirect (r : Reader) : Reader :=
  let seg := r.cursor / 256
  let offset := r.cursor % 256
  (forFrom (fun i => readBlock fs bytesToRead (.pointers k i) offset) seg (8 - seg) r).state

def readSingle (r : Reader) : Reader :=
  let seg := r.cursor / 256
  let offset := r.cursor % 256
  if (r.bytesRead : Int) < bytesToRead ∧ 8 ≤ seg ∧ seg < 72 then
    let singleIndirect := fs.ptrAt (.singleIndirect k)
    if singleIndirect = 0 then r
    else
      (forFrom (fun i => readBlock fs bytesToRead (.indexBlock (blockOf singleIndirect) i) offset)
        (seg - 8) (64 - (seg - 8)) r).state
  else r

/-- One index block of the double-indirect part; `seg` is divided again on
every pass that finds its index block. -/
def readIndex (doubleIndirect offset i : Nat) (r : Reader) : Flow Reader Unit :=
  let singleIndirect := fs.ptrAt (.indexBlock doubleIndirect i)
  breakIfDone bytesToRead
    (if singleIndirect = 0 then r
    else
      let seg := r.seg / 64
      (forFrom (fun j => readBlock fs bytesToRead (.indexBlock (blockOf singleIndirect) j) offset)
        seg (64 - seg) { r with seg := seg }).state)

def readDouble (r : Reader) : Reader :=
  let seg := r.cursor / 256
  let offset := r.cursor % 256
  if (r.bytesRead : Int) < bytesToRead ∧ 72 ≤ seg ∧ seg < 4168 then
    let doubleIndirect := fs.ptrAt (.doubleIndirect k)
    if doubleIndirect = 0 then r
    else
      (forFrom (readIndex fs bytesToRead (blockOf doubleIndirect) offset) 0 64
        { r with seg := seg - 8 - 64 }).state
  else r

def readStages (r : Reader) : Reader :=
  readDouble fs k bytesToRead (readSingle fs k bytesToRead (readDirect fs k bytesToRead r))

end

/-- `copy_to_user(dst + o, src + o, n)`. -/
def copyToUser (dst src : Bytes) (o n : Nat) : Bytes :=
  fun i => if o ≤ i ∧ i < o + n then src i else dst i

/-- The page-wise copy of the first `left` bytes from offset `o` on; `fuel`
bounds the number of pages. A negative `left` copies nothing. -/
def copyPages (src : Bytes) : (fuel : Nat) → (left : Int) → (o : Nat) → Bytes → Bytes
  | 0, left, o, dst => copyToUser dst src o left.toNat
  | fuel + 1, left, o, dst =>
    if 4096 < left then copyPages src fuel (left - 4096) (o + 4096) (copyToUser dst src o 4096)
    else copyToUser dst src o left.toNat

/-- `rd_read` into the memory `addr` of the caller. -/
def rdRead (st : State) (fd : Int) (addr : Bytes) (numBytes pid : Int) : State × Int × Bytes :=
  match usableFile st fd pid with
  | none => (st, -1, addr)
  | some (f, k) =>
    if u32Sub (st.discos.inodes k).size (st.fileObject f).cursor < toU32 numBytes then
      (st, -1, addr)
    else
      let buffer : Bytes := fun i => if i < 4 then 0 else st.readBuffer i
      let r := readStages st.discos k numBytes ⟨buffer, (st.fileObject f).cursor, 0, 0⟩
      ({ st with readBuffer := r.buffer }.setFileObject f
        { st.fileObject f with cursor := r.cursor },
        r.bytesRead, copyPages r.buffer (numBytes.toNat / 4096 + 1) numBytes 0 addr)

end ToyOS.Ramdisk.Read
