import ToyOS.Ramdisk.Versions

/-! # Which calls read memory nobody wrote

`parse_absolute_path` copies the parent with `strncpy`, which stores no zero, so
the text goes on with what the buffer held. In the kernel version a lookup of
the empty text begins behind its terminator. `Settled` says that a call meets a
zero in both places, and then it does what it does on memory full of zeros.
-/
namespace ToyOS.Ramdisk.Uninitialised
open ToyOS.Lib.Words ToyOS.Lib.CStrings ToyOS.Lib.Runs ToyOS.Ramdisk.Image ToyOS.Ramdisk.Paths
open ToyOS.Ramdisk.Namespace (emptyImage)
open ToyOS.Ramdisk.Descriptors (State)
open ToyOS.Ramdisk.Versions

variable {V : Version} {fs : FileSys} {st : State} {path : Str} {copy buf : List UInt8}
variable {type : FileType} {mode n fl : Nat} {pid : Int} {mem : Memory} {buffers : Scratch}
variable {req : Request}

/-! ## Bytes that are zero -/

/-- Byte `n` of a buffer; what is not listed is zero. -/
def ZeroAt (buf : List UInt8) (n : Nat) : Prop := (buf[n]?).getD 0 = 0

instance : Decidable (ZeroAt buf n) := inferInstanceAs (Decidable (_ = _))

theorem cstr_append_drop (s : Str) (h : ZeroAt buf n) : cstr (s ++ buf.drop n) = cstr s := by
  cases hd : buf.drop n with
  | nil => rw [List.append_nil]
  | cons b rest =>
    have hb : buf[n]? = some b := by rw [← List.head?_drop, hd]; rfl
    unfold ZeroAt at h
    rw [hb] at h
    obtain rfl : b = 0 := h
    unfold cstr
    rw [List.takeWhile_append]
    split
    · rename_i hall
      rw [List.takeWhile_cons_of_neg (by decide), List.append_nil]
      exact (List.takeWhile_prefix _).eq_of_length hall |>.symm
    · rfl

theorem cstr_strcpy_any (dst : List UInt8) (src : Str) : cstr (strcpy dst src) = cstr src := by
  have h : ZeroAt (0 :: dst.drop (src.length + 1)) 0 := rfl
  exact cstr_append_drop src h

/-! ## The text of the parent -/

/-- A zero stands where `parse_absolute_path` stops filling the parent's buffer. -/
def ParentEnds (V : Version) (pathname : Str) (buffers : Scratch) : Prop :=
  match lastSlash pathname pathname.length with
  | none => ZeroAt (V.fresh buffers.currentDir) 0
  | some 0 => True
  | some n => ZeroAt (V.fresh buffers.currentDir) n

/-- A lookup of the empty text finds a zero behind its terminator, too. -/
def CopyEnds (V : Version) (pathname : Str) (copy : List UInt8) : Prop :=
  V = .kernel → pathname = [] → ZeroAt (clearStr copy) 1

theorem parse_ends (h : ParentEnds V path buffers) : V.parse path buffers = V.parse path ⟨[], []⟩ := by
  have hfresh : V.fresh [] = [] := by cases V <;> rfl
  unfold ParentEnds at h
  unfold Version.parse parseAbsolutePath
  rw [hfresh]
  cases hl : lastSlash path path.length with
  | none =>
    rw [hl] at h
    have hdir : cstr (V.fresh buffers.currentDir) = cstr [] := by
      have hz : ZeroAt (V.fresh buffers.currentDir) 0 := h
      rw [← cstr_append_drop [] hz, List.drop_zero, List.nil_append]
    exact Prod.ext hdir (by simp only [cstr_strcpy_any])
  | some m =>
    cases m with
    | zero => exact Prod.ext (by simp only [cstr_strcpy_any]) (by simp only [cstr_strcpy_any])
    | succ m =>
      rw [hl] at h
      have hz : ZeroAt (V.fresh buffers.currentDir) (m + 1) := h
      refine Prod.ext ?_ (by simp only [cstr_strcpy_any])
      simp only [strncpy]
      rw [cstr_append_drop _ hz, List.drop_nil, List.append_nil]

theorem find_ends (h : CopyEnds V path copy) : V.find fs path copy = V.find fs path [] := by
  cases V with
  | kernel =>
    unfold Version.find
    dsimp only
    rw [cstr_strcpy_any, cstr_strcpy_any]
    cases path with
    | nil =>
      have hz := h rfl rfl
      have hdrop : cstr ((clearStr copy).drop 1) = [] := cstr_append_drop [] hz
      have hdrop : cstr ((strcpy (clearStr copy) []).drop 1) = [] := hdrop
      rw [hdrop]
      rfl
    | cons c s =>
      have hdrop : ∀ buf, cstr ((strcpy buf (c :: s)).drop 1) = cstr s := fun buf =>
        cstr_strcpy_any (buf.drop 1) s ▸ by simp [strcpy]
      rw [hdrop, hdrop]
  | userSpace =>
    unfold Version.find
    rw [cstr_strcpy_any, cstr_strcpy_any]

theorem findIndex_ends (h : CopyEnds V path copy) :
    V.findIndex fs path copy = V.findIndex fs path [] := by
  unfold Version.findIndex
  rw [find_ends h]

/-! ## Calls -/

/-- The lookup of the parent reads only what the call has written, or zeros. -/
def ParentSettled (V : Version) (pathname : Str) (mem : Memory) : Prop :=
  ParentEnds V pathname mem.buffers ∧ CopyEnds V (V.parse pathname ⟨[], []⟩).1 mem.parentCopy

/-- `rd_unlink` gets as far as the parent. -/
def Unlinks (V : Version) (fs : FileSys) (pathname : Str) : Prop :=
  ∃ k, V.findIndex fs pathname [] = .inode k ∧
    ¬ ((fs.inodes k).type = some .dir ∧ 0 < (fs.inodes k).size)

/-- Every lookup the call makes reads only what the call has written, or zeros. -/
def Settled (V : Version) (st : State) (a : Request × Memory) : Prop :=
  match a.1 with
  | .create p _ _ => st.discos.freeInodes ≠ 0 → st.discos.freeBlocks ≠ 0 → ParentSettled V p a.2
  | .mkdir p => p ≠ [slash] → st.discos.freeInodes ≠ 0 → st.discos.freeBlocks ≠ 0 →
      ParentSettled V p a.2
  | .unlink p => CopyEnds V p a.2.copy ∧ (Unlinks V st.discos p → ParentSettled V p a.2)
  | .chmod p _ | .open p _ _ => CopyEnds V p a.2.copy
  | .write .. | .lseek .. | .read .. | .close .. => True

theorem rdCreate_settled (h : fs.freeInodes ≠ 0 → fs.freeBlocks ≠ 0 → ParentSettled V path mem) :
    rdCreate V fs path type mode mem = rdCreate V fs path type mode .zeros := by
  unfold rdCreate
  by_cases hi : fs.freeInodes = 0
  · rw [if_pos hi, if_pos hi]
  · by_cases hb : fs.freeBlocks = 0
    · rw [if_neg hi, if_neg hi, if_pos hb, if_pos hb]
    · obtain ⟨hp, hc⟩ := h hi hb
      rw [if_neg hi, if_neg hi, if_neg hb, if_neg hb, parse_ends hp]
      simp only [findIndex_ends hc]
      rfl

theorem rdMkdir_settled (h : path ≠ [slash] → fs.freeInodes ≠ 0 → fs.freeBlocks ≠ 0 →
    ParentSettled V path mem) : rdMkdir V fs path mem = rdMkdir V fs path .zeros := by
  unfold rdMkdir
  by_cases hroot : path = [slash]
  · rw [if_pos hroot, if_pos hroot]
  · rw [if_neg hroot, if_neg hroot, rdCreate_settled (h hroot)]

theorem rdUnlink_settled (h : CopyEnds V path mem.copy)
    (h' : Unlinks V fs path → ParentSettled V path mem) :
    rdUnlink V fs path mem = rdUnlink V fs path .zeros := by
  have hzeros : V.findIndex fs path Memory.zeros.copy = V.findIndex fs path [] := rfl
  unfold rdUnlink
  rw [findIndex_ends h, hzeros]
  cases hk : V.findIndex fs path [] with
  | missing => rfl
  | outside => rfl
  | inode k =>
    dsimp only
    by_cases hdir : (fs.inodes k).type = some .dir ∧ 0 < (fs.inodes k).size
    · rw [if_pos hdir, if_pos hdir]
    · obtain ⟨hp, hc⟩ := h' ⟨k, hk, hdir⟩
      rw [if_neg hdir, if_neg hdir, parse_ends hp]
      simp only [findIndex_ends hc]
      rfl

theorem call_settled {a : Request × Memory} (h : Settled V st a) :
    call V st a.2 a.1 = call V st .zeros a.1 := by
  obtain ⟨req, mem⟩ := a
  cases req with
  | create p t m => exact congrArg (System.onImage st) (rdCreate_settled h)
  | mkdir p => exact congrArg (System.onImage st) (rdMkdir_settled h)
  | unlink p => exact congrArg (System.onImage st) (rdUnlink_settled h.1 h.2)
  | chmod p m =>
    have hf : V.findIndex st.discos p mem.copy = V.findIndex st.discos p [] := findIndex_ends h
    simp only [call, rdChmod, hf]
    rfl
  | «open» p fl pid =>
    have hf : V.find st.discos p mem.copy = V.find st.discos p [] := find_ends h
    simp only [call, rdOpen, hf]
    rfl
  | write | lseek | read | close => rfl

/-! ## Runs -/

/-- `malloc` returned an image of zeros; the kernel version zeroes it itself. -/
def Blank (behind : Nat → Bytes) (image : FileSys) : Version → Prop
  | .kernel => True
  | .userSpace =>
    image = { emptyImage behind with freeBlocks := image.freeBlocks, freeInodes := image.freeInodes }

theorem initFileSys_blank {behind : Nat → Bytes} {image : FileSys} (buffer : Bytes)
    (h : Blank behind image V) :
    initFileSys V behind image buffer = initFileSys V behind (emptyImage behind) buffer := by
  have himage : V.image behind image = V.image behind (emptyImage behind) := by
    cases V with
    | kernel => rfl
    | userSpace => rw [h]; rfl
  unfold initFileSys
  rw [himage]

/-- A run whose every call is settled returns what it returns on zeros. -/
theorem returns_on_zeros {as : List (Request × Memory)}
    (h : Along (fun s a => (perform V s a).1) (Settled V) st as) :
    (runOutputs (perform V) st as).2 =
      (runOutputs (perform V) st ((as.map (·.1)).map fun req => (req, Memory.zeros))).2 := by
  induction as generalizing st with
  | nil => rfl
  | cons a as ih =>
    have he : perform V st a = perform V st (a.1, .zeros) := by
      unfold perform
      rw [call_settled h.1]
    have htail := ih h.2
    dsimp only at htail
    rw [he] at htail
    rw [List.map_cons, List.map_cons, runOutputs, runOutputs, he]
    exact congrArg (_ :: ·) htail

/-- In both versions, two runs of the same calls return the same, whatever the
allocator hands out to them: provided every call is settled, and in the
user-space version the image came as zeros. -/
theorem returns_independent {behind : Nat → Bytes} {image image' : FileSys} {buffer : Bytes}
    {as as' : List (Request × Memory)} (himage : Blank behind image V)
    (himage' : Blank behind image' V) (hreq : as.map (·.1) = as'.map (·.1))
    (h : Along (fun s a => (perform V s a).1) (Settled V)
      (initFileSys V behind image buffer).1 as)
    (h' : Along (fun s a => (perform V s a).1) (Settled V)
      (initFileSys V behind image' buffer).1 as') :
    (initFileSys V behind image buffer).2 = (initFileSys V behind image' buffer).2 ∧
      (runOutputs (perform V) (initFileSys V behind image buffer).1 as).2 =
        (runOutputs (perform V) (initFileSys V behind image' buffer).1 as').2 := by
  have hstart : initFileSys V behind image buffer = initFileSys V behind image' buffer :=
    (initFileSys_blank buffer himage).trans (initFileSys_blank buffer himage').symm
  constructor
  · rw [hstart]
  · rw [returns_on_zeros h, returns_on_zeros h', hreq, hstart]

open ToyOS.Ramdisk.BlockOwnership ToyOS.Ramdisk.Components

/-- `rd_mkdir("/a")`, then `rd_create("/a/a")` with these bytes for the parent. -/
def mkdirCreate (currentDir : List UInt8) : List (Request × Memory) :=
  [(.mkdir (render [nameA]), .zeros),
    (.create (render [nameA, nameA]) .reg Descriptors.RW, ⟨[], [], ⟨currentDir, []⟩⟩)]

/-- The buffer's bytes beyond its first zero do not matter when they are zero. -/
theorem returns_independent_mkdirCreate :
    (initFileSys .kernel (fun _ _ => 0) (emptyImage fun _ _ => 0) fun _ => 0).2 =
        (initFileSys .kernel (fun _ _ => 0) (emptyImage fun _ _ => 0) fun _ => 0).2 ∧
      (runOutputs (perform .kernel)
        (initFileSys .kernel (fun _ _ => 0) (emptyImage fun _ _ => 0) fun _ => 0).1
        (mkdirCreate [])).2 =
      (runOutputs (perform .kernel)
        (initFileSys .kernel (fun _ _ => 0) (emptyImage fun _ _ => 0) fun _ => 0).1
        (mkdirCreate [120, 120, 120, 0])).2 := by
  refine returns_independent trivial trivial rfl ?_ ?_
  · refine ⟨fun _ _ _ => ⟨trivial, fun _ h => by cases h⟩, fun _ _ => ⟨?_, fun _ h => by cases h⟩,
      trivial⟩
    exact (rfl : ZeroAt (clearStr []) 2)
  · refine ⟨fun _ _ _ => ⟨trivial, fun _ h => by cases h⟩, fun _ _ => ⟨?_, fun _ h => by cases h⟩,
      trivial⟩
    exact (by decide : ZeroAt (clearStr [120, 120, 120, 0]) 2)

/-- In the kernel version a byte behind the copied parent decides whether
`rd_create` finds it; in the user-space version an image with no clear bit in its
bitmap leaves no room for a file. -/
theorem stale_bytes_matter :
    ((runOutputs (perform .kernel)
        (initFileSys .kernel (fun _ _ => 0) (emptyImage fun _ _ => 0) fun _ => 0).1
        (mkdirCreate [0, 0, 0, 0])).2 = [some 0, some 0] ∧
      (runOutputs (perform .kernel)
        (initFileSys .kernel (fun _ _ => 0) (emptyImage fun _ _ => 0) fun _ => 0).1
        (mkdirCreate [0, 0, 120, 0])).2 = [some 0, some (-1)]) ∧
    (runOutputs (perform .userSpace)
        (initFileSys .userSpace (fun _ _ => 0) (emptyImage fun _ _ => 0) fun _ => 0).1
        [(.mkdir (render [nameA]), .zeros)]).2 = [some 0] ∧
      (runOutputs (perform .userSpace)
        (initFileSys .userSpace (fun _ _ => 0) { emptyImage fun _ _ => 0 with bitmap := fun _ => 255 }
          fun _ => 0).1
        [(.mkdir (render [nameA]), .zeros)]).2 = [some (-1)] := by
  decide +kernel

end ToyOS.Ramdisk.Uninitialised
