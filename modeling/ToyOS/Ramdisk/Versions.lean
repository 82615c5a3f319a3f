import ToyOS.Ramdisk.System
import ToyOS.Ramdisk.UserLookup

/-! # The kernel and the user-space version, with uninitialised memory

The two `discos.c` have the same text, but for the lookup, what they do to
memory just allocated, the mode of a directory and the buffer of `rd_read`. A
call here also gets the bytes the allocator returns to it.
-/
namespace ToyOS.Ramdisk.Versions
open ToyOS.Lib.Loop ToyOS.Lib.Words ToyOS.Lib.CStrings ToyOS.Lib.Runs ToyOS.Ramdisk.Image
open ToyOS.Ramdisk.Paths ToyOS.Ramdisk.Directories ToyOS.Ramdisk.Blocks ToyOS.Ramdisk.Namespace
open ToyOS.Ramdisk.Descriptors ToyOS.Ramdisk.Write ToyOS.Ramdisk.Read ToyOS.Ramdisk.UserLookup

inductive Version where
  | kernel
  | userSpace
deriving DecidableEq, Repr

/-- What the allocator returns during one call: for the copy of the path looked
up, for that of its parent, and for the buffers of `parse_absolute_path`. -/
structure Memory where
  copy : List UInt8
  parentCopy : List UInt8
  buffers : Scratch

/-- Nothing but zeros. -/
def Memory.zeros : Memory := ⟨[], [], ⟨[], []⟩⟩

variable {V : Version} {fs : FileSys} {st : State} {path : Str} {copy : List UInt8}
variable {type : FileType} {mode : Nat} {mem : Memory}

/-! ## The operations -/

/-- The `memset` after an allocation, which the user-space version leaves out. -/
def Version.fresh : Version → List UInt8 → List UInt8
  | .kernel, buf => clearStr buf
  | .userSpace, buf => buf

/-- `my_find_inode_number` steps over the first byte of its copy, a slash or not. -/
def Version.find (fs : FileSys) (pathname : Str) (copy : List UInt8) : Version → Found
  | .kernel =>
    let temp := strcpy (clearStr copy) pathname
    if cstr temp = [slash] then .inode 0 else walk fs 0 ((cstr (temp.drop 1)).splitOn slash)
  | .userSpace => findInodeNumber fs (cstr (strcpy copy pathname))

def Version.findIndex (V : Version) (fs : FileSys) (pathname : Str) (copy : List UInt8) : Found :=
  match V.find fs pathname copy with
  | .inode k => if k < 1024 then .inode k else .outside
  | r => r

/-- The strings the callers of `parse_absolute_path` go on with. -/
def Version.parse (V : Version) (pathname : Str) (buffers : Scratch) : Str × Str :=
  let r := parseAbsolutePath pathname (V.fresh buffers.currentDir) (V.fresh buffers.filename)
  (cstr r.1, cstr r.2)

/-- The mode `rd_mkdir` passes on. -/
def Version.dirMode : Version → Nat
  | .kernel => 1
  | .userSpace => RW

def rdCreate (V : Version) (fs : FileSys) (pathname : Str) (type : FileType) (mode : Nat)
    (mem : Memory) : Option (FileSys × Int) :=
  if fs.freeInodes = 0 then some (fs, -1)
  else if fs.freeBlocks = 0 then some (fs, -1)
  else
    let (currentPath, entryName) := V.parse pathname mem.buffers
    match V.findIndex fs currentPath mem.parentCopy with
    | .outside => none
    | .missing => some (fs, -1)
    | .inode cur =>
      match getNextEntry fs cur with
      | (fs, none) => some (fs, -1)
      | (fs, some e) =>
        match getFreeInodeNum fs with
        | none => some (fs, -1)
        | some n => some (fillEntry fs cur e n entryName type mode, 0)

def rdMkdir (V : Version) (fs : FileSys) (pathname : Str) (mem : Memory) :
    Option (FileSys × Int) :=
  if pathname = [slash] then
    if fs.freeInodes = 1024 then
      some ({ fs with freeInodes := u32Sub fs.freeInodes 1 }.setInode 0
        { fs.inodes 0 with type := some .dir }, 0)
    else some (fs, -1)
  else (rdCreate V fs pathname .dir V.dirMode mem).map fun r => (r.1, if r.2 = 0 then 0 else -1)

def rdUnlink (V : Version) (fs : FileSys) (pathname : Str) (mem : Memory) :
    Option (FileSys × Int) :=
  if pathname = [slash] then some (fs, -1)
  else match V.findIndex fs pathname mem.copy with
    | .outside => none
    | .missing => some (fs, -1)
    | .inode k =>
      if (fs.inodes k).type = some .dir ∧ 0 < (fs.inodes k).size then some (fs, -1)
      else
        let (currentDir, filename) := V.parse pathname mem.buffers
        match V.findIndex fs currentDir mem.parentCopy with
        | .outside => none
        | .missing => some (fs, -1)
        | .inode d => some (removeFile fs k d filename, 0)

def rdChmod (V : Version) (fs : FileSys) (pathname : Str) (mode : Nat) (mem : Memory) :
    Option (FileSys × Int) :=
  if pathname = [slash] then some (fs, -1)
  else match V.findIndex fs pathname mem.copy with
    | .outside => none
    | .missing => some (fs, -1)
    | .inode k => some (fs.setInode k { fs.inodes k with access := mode }, 0)

def rdOpen (V : Version) (st : State) (pathname : Str) (flags : Nat) (pid : Int) (mem : Memory) :
    Option (State × Int) :=
  if pathname = [slash] then some (st, -1)
  else match V.find st.discos pathname mem.copy with
    | .outside => none
    | .missing => some (st, -1)
    | .inode k =>
      if hk : k < 1024 then
        if accessDenied flags (st.discos.inodes k).access then some (st, -1)
        else match createFileObject st pid with
          | none => some (st, -1)
          | some (st, f) =>
            let st := st.setFileObject f
              { st.fileObject f with cursor := 0, inodePtr := some ⟨k, hk⟩, status := flags }
            some (st, toI32 (st.fileObject f).pos)
      else none

/-- `strcpy(dst, src)` where `src` has a zero at index `n`. -/
def copyUntilZero (dst src : Bytes) (n : Nat) : Bytes :=
  let len := (firstIdx (fun i => src i == 0) 0 n).getD n
  fun i => if i < len then src i else if i = len then 0 else dst i

/-- `rd_read`; the user-space version reads into an array of its own, `stack`
before the call, and copies it as a string. -/
def rdRead (st : State) (fd : Int) (addr : Bytes) (numBytes pid : Int) (stack : Bytes) :
    Version → State × Int × Bytes
  | .kernel => Read.rdRead st fd addr numBytes pid
  | .userSpace =>
    match usableFile st fd pid with
    | none => (st, -1, addr)
    | some (f, k) =>
      if u32Sub (st.discos.inodes k).size (st.fileObject f).cursor < toU32 numBytes then
        (st, -1, addr)
      else
        let buffer : Bytes := fun i => if i < 5 then 0 else stack i
        let r := readStages st.discos k numBytes ⟨buffer, (st.fileObject f).cursor, 0, 0⟩
        (st.setFileObject f { st.fileObject f with cursor := r.cursor }, r.bytesRead,
          copyUntilZero addr (Function.update r.buffer numBytes.toNat 0) numBytes.toNat)

/-- A call with its arguments. -/
inductive Request where
  | create (pathname : Str) (type : FileType) (mode : Nat)
  | mkdir (pathname : Str)
  | unlink (pathname : Str)
  | chmod (pathname : Str) (mode : Nat)
  | open (pathname : Str) (flags : Nat) (pid : Int)
  | write (fd pid : Int) (data : Bytes) (numBytes : Int)
  | lseek (fd offset pid : Int)
  | read (fd : Int) (addr : Bytes) (numBytes pid : Int) (stack : Bytes)
  | close (fd pid : Int)

def call (V : Version) (st : State) (mem : Memory) : Request → Option (State × Int)
  | .create p t m => System.onImage st (rdCreate V st.discos p t m mem)
  | .mkdir p => System.onImage st (rdMkdir V st.discos p mem)
  | .unlink p => System.onImage st (rdUnlink V st.discos p mem)
  | .chmod p m => System.onImage st (rdChmod V st.discos p m mem)
  | .open p fl pid => rdOpen V st p fl pid mem
  | .write fd pid d n => some (rdWrite st fd pid d n)
  | .lseek fd off pid => some (rdLseek st fd off pid)
  | .read fd a n pid stack => some ((rdRead st fd a n pid stack V).1, (rdRead st fd a n pid stack V).2.1)
  | .close fd pid => some (rdClose st fd pid)

/-- One call; a call that would index `inodes[]` out of range returns nothing. -/
def perform (V : Version) (st : State) (a : Request × Memory) : State × Option Int :=
  ((call V st a.2 a.1).elim st (·.1), (call V st a.2 a.1).map (·.2))

/-- The globals when `init_file_sys` calls `rd_mkdir`. The user-space version
clears `sizeof(sizeof(filesys_struct))` bytes, which lie in the superblock, so the
rest of the image is as `malloc` returned it. -/
def Version.image (behind : Nat → Bytes) (image : FileSys) : Version → FileSys
  | .kernel => emptyImage behind
  | .userSpace => { image with freeBlocks := 7931, freeInodes := 1024 }

/-- `init_file_sys`; `behind` is what lies behind the image. -/
def initFileSys (V : Version) (behind : Nat → Bytes) (image : FileSys) (buffer : Bytes) :
    State × Int :=
  let discos := V.image behind image
  let r := (rdMkdir V discos [slash] .zeros).getD (discos, -1)
  ({ discos := r.1, pFdTable := fun _ => ⟨0, fun _ => .zero⟩, readBuffer := buffer }, r.2)

/-! ## The kernel version is the one of the other modules -/

theorem kernel_parse (path : Str) (buffers : Scratch) :
    Version.kernel.parse path buffers = splitPath path buffers := rfl

theorem kernel_find (h : 0 ∉ path) : Version.kernel.find fs path [] = myFindInodeNumber fs path := by
  have hcopy : strcpy (clearStr []) path = path ++ 0 :: [] := rfl
  unfold Version.find myFindInodeNumber
  dsimp only
  rw [hcopy, cstr_append_zero h]
  cases path with
  | nil => rfl
  | cons c s =>
    have hs : 0 ∉ s := fun hm => h (List.mem_cons_of_mem _ hm)
    rw [List.cons_append, List.drop_one, List.drop_one, List.tail_cons, List.tail_cons,
      cstr_append_zero hs]

theorem kernel_findIndex (h : 0 ∉ path) :
    Version.kernel.findIndex fs path [] = Paths.findIndex fs path := by
  have hf : Version.kernel.find fs path [] = myFindInodeNumber fs path := kernel_find h
  unfold Version.findIndex Paths.findIndex
  generalize Version.kernel.find fs path [] = r at hf ⊢
  subst hf
  cases myFindInodeNumber fs path <;> rfl

theorem kernel_rdCreate (buffers : Scratch) :
    rdCreate .kernel fs path type mode ⟨[], [], buffers⟩ =
      Namespace.rdCreate fs path type mode buffers := by
  have hparent : 0 ∉ (splitPath path buffers).1 := zero_notMem_cstr _
  have hf : Version.kernel.findIndex fs (splitPath path buffers).1 [] =
      Paths.findIndex fs (splitPath path buffers).1 := kernel_findIndex hparent
  unfold rdCreate Namespace.rdCreate
  rw [kernel_parse]
  generalize splitPath path buffers = s at hf ⊢
  obtain ⟨currentPath, entryName⟩ := s
  dsimp only at hf ⊢
  generalize Version.kernel.findIndex fs currentPath [] = r at hf ⊢
  subst hf
  split
  · rfl
  · split
    · rfl
    · cases Paths.findIndex fs currentPath with
      | outside => rfl
      | missing => rfl
      | inode cur => rfl

theorem kernel_rdUnlink (h : 0 ∉ path) (buffers : Scratch) :
    rdUnlink .kernel fs path ⟨[], [], buffers⟩ = Namespace.rdUnlink fs path buffers := by
  have hparent : 0 ∉ (splitPath path buffers).1 := zero_notMem_cstr _
  have hf : Version.kernel.findIndex fs path [] = Paths.findIndex fs path := kernel_findIndex h
  have hd : Version.kernel.findIndex fs (splitPath path buffers).1 [] =
      Paths.findIndex fs (splitPath path buffers).1 := kernel_findIndex hparent
  unfold rdUnlink Namespace.rdUnlink
  rw [kernel_parse]
  generalize splitPath path buffers = s at hd ⊢
  obtain ⟨currentDir, filename⟩ := s
  dsimp only at hd ⊢
  generalize Version.kernel.findIndex fs path [] = r at hf ⊢
  generalize Version.kernel.findIndex fs currentDir [] = r' at hd ⊢
  subst hf hd
  split
  · rfl
  · cases Paths.findIndex fs path with
    | outside => rfl
    | missing => rfl
    | inode k =>
      by_cases hdir : (fs.inodes k).type = some .dir ∧ 0 < (fs.inodes k).size
      · simp only [if_pos hdir]
      · cases Paths.findIndex fs currentDir <;> simp only [if_neg hdir]

/-- The text a call looks up. -/
def Request.text : Request → Str
  | .create p _ _ | .mkdir p | .unlink p | .chmod p _ | .open p _ _ => p
  | .write .. | .lseek .. | .read .. | .close .. => []

def Request.op (buffers : Scratch) : Request → System.Op
  | .create p t m => .create p t m buffers
  | .mkdir p => .mkdir p buffers
  | .unlink p => .unlink p buffers
  | .chmod p m => .chmod p m
  | .open p fl pid => .open p fl pid
  | .write fd pid d n => .write fd pid d n
  | .lseek fd off pid => .lseek fd off pid
  | .read fd a n pid _ => .read fd a n pid
  | .close fd pid => .close fd pid

/-- While the copies of paths lie in zeroed memory, a call of the kernel version
is the call of `System`. -/
theorem kernel_call {req : Request} (h : 0 ∉ req.text) (buffers : Scratch) :
    call .kernel st ⟨[], [], buffers⟩ req = System.call st (req.op buffers) := by
  cases req with
  | create p t m => exact congrArg (System.onImage st) (kernel_rdCreate buffers)
  | mkdir p =>
    refine congrArg (System.onImage st) ?_
    unfold rdMkdir Namespace.rdMkdir
    rw [kernel_rdCreate]
    rfl
  | unlink p => exact congrArg (System.onImage st) (kernel_rdUnlink h buffers)
  | chmod p m =>
    refine congrArg (System.onImage st) ?_
    have hf : Version.kernel.findIndex st.discos p [] = Paths.findIndex st.discos p :=
      kernel_findIndex h
    unfold rdChmod Namespace.rdChmod
    generalize Version.kernel.findIndex st.discos p [] = r at hf ⊢
    subst hf
    cases Paths.findIndex st.discos p <;> rfl
  | «open» p fl pid =>
    show rdOpen .kernel st p fl pid _ = Descriptors.rdOpen st p fl pid
    have hf : Version.kernel.find st.discos p [] = myFindInodeNumber st.discos p := kernel_find h
    unfold rdOpen Descriptors.rdOpen
    generalize Version.kernel.find st.discos p [] = r at hf ⊢
    subst hf
    cases myFindInodeNumber st.discos p <;> rfl
  | write | lseek | read | close => rfl

end ToyOS.Ramdisk.Versions
