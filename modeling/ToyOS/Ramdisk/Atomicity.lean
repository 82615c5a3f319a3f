import ToyOS.Ramdisk.BlockOwnership
import ToyOS.Ramdisk.FullDirectory

/-! # Calls that fail and leave a trace

A name operation that returns -1 has changed nothing, except for the blocks a
search for an entry has taken before it ran out of blocks, or before
`rd_create` ran out of inodes.
-/
namespace ToyOS.Ramdisk.Atomicity
open ToyOS.Lib.Loop ToyOS.Lib.Words ToyOS.Lib.Bits ToyOS.Lib.CStrings ToyOS.Lib.Runs
open ToyOS.Ramdisk.Image ToyOS.Ramdisk.Blocks ToyOS.Ramdisk.Places ToyOS.Ramdisk.Allocation
open ToyOS.Ramdisk.Ownership ToyOS.Ramdisk.Scanning ToyOS.Ramdisk.Removing
open ToyOS.Ramdisk.Paths ToyOS.Ramdisk.Components ToyOS.Ramdisk.Directories ToyOS.Ramdisk.Slots
open ToyOS.Ramdisk.Namespace ToyOS.Ramdisk.Creating ToyOS.Ramdisk.Descriptors ToyOS.Ramdisk.System
open ToyOS.Ramdisk.Effects ToyOS.Ramdisk.BlockOwnership ToyOS.Ramdisk.Supply ToyOS.Ramdisk.FullDirectory

variable {fs fs' : FileSys} {k m : Nat} {path : Str} {type : FileType} {mode : Nat} {mem : Scratch}
variable {st : State} {op : Op}

/-- A search for an entry in `k` that takes a block in vain: its place needs
blocks and some can be had, but not all of them and nothing makes up for it, or
no inode is free. -/
def TakesInVain (fs : FileSys) (k : Nat) : Prop :=
  ∃ p, Target fs k p ∧ missing fs p ≠ 0 ∧ avail fs ≠ 0 ∧
    (¬ InodeFree fs ∨ avail fs < missing fs p ∧ ¬ Fallback fs k)

/-- The parent cut out of the path is searched in vain. -/
def CreatesInVain (fs : FileSys) (path : Str) (mem : Scratch) : Prop :=
  fs.freeInodes ≠ 0 ∧ ∃ d, findIndex fs (splitPath path mem).1 = .inode d ∧ TakesInVain fs d

theorem search_unchanged (hw : Word fs) (hf : fs.freeInodes ≠ 0) :
    ((∀ e n, (getNextEntry fs k).2 = some e → getFreeInodeNum (getNextEntry fs k).1 ≠ some n) →
      (getNextEntry fs k).1 = fs) ↔ ¬ TakesInVain fs k := by
  have hinode : (∃ n, getFreeInodeNum (getNextEntry fs k).1 = some n) ↔ InodeFree fs :=
    freeInode_after hf
  have hs := search hw k
  generalize getNextEntry fs k = r at hs hinode ⊢
  obtain ⟨fs', e⟩ := r
  -- nothing is taken where nothing is needed or nothing can be had
  have idle : ∀ {p}, Target fs k p → missing fs p = 0 ∨ avail fs = 0 → ¬ TakesInVain fs k := by
    rintro p ht h0 ⟨q, hq, hm, ha, -⟩
    obtain rfl := ht.unique hq
    omega
  cases hs with
  | blocked hb =>
    refine iff_of_true (fun _ => rfl) ?_
    rintro ⟨q, hq, -⟩
    exact hq.not_blocked hb
  | @found p _ e ht hle hsp =>
    by_cases h0 : missing fs p = 0
    · exact iff_of_true (fun _ => hsp.same h0) (idle ht (.inl h0))
    · by_cases hi : InodeFree fs
      · refine iff_of_true (fun h => ?_) ?_
        · obtain ⟨n, hn⟩ := hinode.mpr hi
          exact absurd hn (h e n rfl)
        · rintro ⟨q, hq, -, -, hno | ⟨hlt, -⟩⟩
          · exact hno hi
          · obtain rfl := ht.unique hq
            omega
      · refine iff_of_false (fun h => hsp.ne h0 (h fun e n _ hn => hi (hinode.mp ⟨n, hn⟩))) ?_
        exact not_not.mpr ⟨p, ht, h0, by omega, .inl hi⟩
  | @other p _ e ht hlt hsp hf =>
    by_cases h0 : avail fs = 0
    · exact iff_of_true (fun _ => hsp.same h0) (idle ht (.inr h0))
    · by_cases hi : InodeFree fs
      · refine iff_of_true (fun h => ?_) ?_
        · obtain ⟨n, hn⟩ := hinode.mpr hi
          exact absurd hn (h e n rfl)
        · rintro ⟨q, hq, -, -, hno | ⟨-, hno⟩⟩
          · exact hno hi
          · exact hno hf
      · refine iff_of_false (fun h => hsp.ne h0 (h fun e n _ hn => hi (hinode.mp ⟨n, hn⟩))) ?_
        exact not_not.mpr ⟨p, ht, by omega, h0, .inl hi⟩
  | @short p _ ht hlt hsp hf =>
    by_cases h0 : avail fs = 0
    · exact iff_of_true (fun _ => hsp.same h0) (idle ht (.inr h0))
    · refine iff_of_false (fun h => hsp.ne h0 (h fun e n he => absurd he (by simp))) ?_
      exact not_not.mpr ⟨p, ht, by omega, h0, .inr ⟨hlt, hf⟩⟩

theorem create_unchanged_iff (hw : Word fs) (path : Str) (type : FileType) (mode : Nat)
    (mem : Scratch) :
    (∀ fs', rdCreate fs path type mode mem = some (fs', -1) → fs' = fs) ↔
      ¬ CreatesInVain fs path mem := by
  unfold rdCreate CreatesInVain
  by_cases hf : fs.freeInodes = 0
  · rw [if_pos hf]
    refine iff_of_true (fun fs' h => ?_) fun h => h.1 hf
    exact (Prod.mk.inj (Option.some.inj h)).1.symm
  rw [if_neg hf]
  by_cases hb : fs.freeBlocks = 0
  · rw [if_pos hb]
    refine iff_of_true (fun fs' h => (Prod.mk.inj (Option.some.inj h)).1.symm) ?_
    rintro ⟨-, d, -, p, -, -, ha, -⟩
    unfold avail at ha
    omega
  rw [if_neg hb]
  generalize splitPath path mem = sp
  obtain ⟨dir, name⟩ := sp
  dsimp only
  cases hfind : findIndex fs dir with
  | outside => simp
  | missing =>
    refine iff_of_true (fun fs' h => (Prod.mk.inj (Option.some.inj h)).1.symm) ?_
    rintro ⟨-, d, hd, -⟩
    cases hd
  | inode d =>
    have key := search_unchanged (k := d) hw hf
    simp only [Found.inode.injEq, exists_eq_left', ne_eq, hf, not_false_eq_true, true_and]
    rw [← key]
    generalize getNextEntry fs d = g
    obtain ⟨fs₁, e⟩ := g
    cases e with
    | none => simp
    | some e =>
      cases hn : getFreeInodeNum fs₁ with
      | none => simp [hn]
      | some n => simp [hn]

/-! ## The three operations -/

/-- The calls that fail and leave a trace. -/
def LeavesTrace (st : State) : Op → Prop
  | .create path _ _ mem => CreatesInVain st.discos path mem
  | .mkdir path mem => path ≠ [slash] ∧ CreatesInVain st.discos path mem
  | _ => False

theorem onImage_eq {st' : State} {r : Option (FileSys × Int)} {v : Int} :
    onImage st r = some (st', v) ↔ ∃ fs', r = some (fs', v) ∧ st' = { st with discos := fs' } := by
  unfold onImage
  constructor
  · intro h
    obtain ⟨⟨fs', w⟩, hr, he⟩ := Option.map_eq_some_iff.mp h
    obtain ⟨rfl, rfl⟩ := Prod.mk.inj he
    exact ⟨fs', hr, rfl⟩
  · rintro ⟨fs', rfl, rfl⟩
    rfl

theorem onImage_unchanged {r : Option (FileSys × Int)} {v : Int} :
    (∀ st', onImage st r = some (st', v) → st'.discos = st.discos) ↔
      ∀ fs', r = some (fs', v) → fs' = st.discos := by
  simp only [onImage_eq]
  constructor
  · intro h fs' hr
    exact h _ ⟨fs', hr, rfl⟩
  · rintro h st' ⟨fs', hr, rfl⟩
    exact h fs' hr

theorem unlink_fails (h : rdUnlink fs path mem = some (fs', -1)) : fs' = fs := by
  unfold rdUnlink at h
  split at h
  · exact (Prod.mk.inj (Option.some.inj h)).1.symm
  · split at h
    · cases h
    · exact (Prod.mk.inj (Option.some.inj h)).1.symm
    · split at h
      · exact (Prod.mk.inj (Option.some.inj h)).1.symm
      · dsimp only at h
        split at h
        · cases h
        · exact (Prod.mk.inj (Option.some.inj h)).1.symm
        · have := (Prod.mk.inj (Option.some.inj h)).2
          omega

/-- After any calls whatever, a name operation that returns -1 has left
superblock, inodes, bitmap and blocks as they were exactly when it took no block
in vain. -/
theorem failed_unchanged_iff (h : Reachable (fun _ _ => True) st) (hop : NameOp op) :
    (∀ st', call st op = some (st', -1) → st'.discos = st.discos) ↔ ¬ LeavesTrace st op := by
  have hw := word_reachable h
  cases op with
  | create path type mode mem =>
    exact onImage_unchanged.trans (create_unchanged_iff hw path type mode mem)
  | mkdir path mem =>
    refine onImage_unchanged.trans ?_
    by_cases hp : path = [slash]
    · refine iff_of_true (fun fs' h => ?_) fun h => h.1 hp
      unfold rdMkdir at h
      rw [if_pos hp] at h
      split at h
      · have := (Prod.mk.inj (Option.some.inj h)).2
        omega
      · exact (Prod.mk.inj (Option.some.inj h)).1.symm
    · rw [rdMkdir_eq _ hp, create_unchanged_iff hw path .dir 1 mem]
      exact not_congr (and_iff_right hp).symm
  | unlink path mem => exact onImage_unchanged.trans (iff_of_true (fun _ h => unlink_fails h) id)
  | chmod | «open» | write | lseek | read | close => exact hop.elim

theorem failed_unchanged_iff_oneFile :
    (∀ st', call oneFile (.create (render [nameA]) .reg RW ⟨[0, 0], [0, 0]⟩) = some (st', -1) →
      st'.discos = oneFile.discos) ↔
      ¬ LeavesTrace oneFile (.create (render [nameA]) .reg RW ⟨[0, 0], [0, 0]⟩) :=
  failed_unchanged_iff ⟨_, _, .step .start trivial⟩ trivial

/-! ## A file system worn down to its last block

Creating a file in the empty root and removing it again gives the block of the
root back without counting it, and leaves everything else as it was.
-/

def zeroed : Scratch := ⟨[0, 0], [0, 0]⟩

/-- The image of a fresh file system with `m` in `free_blocks`. -/
def worn (m : Nat) : FileSys where
  freeBlocks := m
  freeInodes := 1023
  inodes := Function.update (fun _ => .zero) 0 { Inode.zero with type := some .dir }
  bitmap _ := 0
  dataBlocks _ _ := 0

/-- The same with the file `/a`. -/
def wornFile (m : Nat) : FileSys where
  freeBlocks := m
  freeInodes := 1022
  inodes := Function.update (Function.update (fun _ => .zero) 0
    ⟨some .dir, 16, Function.update (fun _ => 0) 0 1, 0, 0, 0⟩) 1 (freshInode .reg RW)
  bitmap := Function.update (fun _ => 0) 0 1
  dataBlocks := Function.update (fun _ _ => 0) 0 (entryBytes (fun _ => 0) 0 [97] 1)

theorem takeBlock_worn (m : Nat) :
    takeBlock (worn (m + 1)) = some (allocateDataBlock (worn (m + 1)) 0, 0) := by
  have h : firstIdx (fun i => (worn (m + 1)).bitmap i != 255) 0 1024 = some 0 := rfl
  unfold takeBlock getFreeBlockNumFromBitmap
  rw [if_neg (show (worn (m + 1)).freeBlocks ≠ 0 from Nat.succ_ne_zero m), h]
  have h' : firstIdx (fun i => (worn (m + 1)).bitmap 0 >>> UInt8.ofNat i &&& 1 == 0) 0 8 =
      some 0 := by
    show firstIdx (fun i => (0 : UInt8) >>> UInt8.ofNat i &&& 1 == 0) 0 8 = some 0
    decide
  dsimp only
  rw [h']
  rfl

theorem create_worn {m : Nat} (hm : m + 1 < 2 ^ 32) :
    rdCreate (worn (m + 1)) (render [nameA]) .reg RW zeroed = some (wornFile m, 0) := by
  have hsplit : splitPath (render [nameA]) zeroed = ([slash], [97]) := by decide +kernel
  have hsize : ((worn (m + 1)).inodes 0).size / 256 = 0 := by simp [worn, Inode.zero]
  have hg : getNextEntry (worn (m + 1)) 0 =
      ((allocateDataBlock (worn (m + 1)) 0).setPtr (.pointers 0 0) 1, some ⟨0, 0⟩) := by
    unfold getNextEntry
    rw [hsize]
    dsimp only
    rw [show 8 - 0 = 7 + 1 by rfl, forFrom, nextEntryDirect, takeBlock_worn]
    simp [worn, FileSys.ptrAt, Inode.zero, ptrTo]
  have hfree : (worn (m + 1)).freeInodes ≠ 0 := by show 1023 ≠ 0; decide
  have hn : getFreeInodeNum ((allocateDataBlock (worn (m + 1)) 0).setPtr (.pointers 0 0) 1) =
      some 1 := by
    unfold getFreeInodeNum
    rw [setPtr_freeInodes, allocate_freeInodes, if_neg hfree]
    simp only [setPtr_type, allocate_inodes]
    refine firstIdx_eq_some.mpr ⟨Nat.le_refl _, by decide, ?_, fun j h1 h2 => by omega⟩
    simp [worn, Inode.zero]
  unfold rdCreate
  rw [if_neg hfree, if_neg (show (worn (m + 1)).freeBlocks ≠ 0 from Nat.succ_ne_zero m), hsplit]
  dsimp only
  rw [show findIndex (worn (m + 1)) [slash] = .inode 0 from rfl]
  dsimp only
  rw [hg]
  dsimp only
  rw [hn]
  dsimp only
  rw [fillEntry_eq (by decide)]
  dsimp only
  refine congrArg (fun fs => some (fs, (0 : Int))) ?_
  have hsub : ∀ n : Nat, n + 1 < 2 ^ 32 → u32Sub (n + 1) 1 = n := fun n hn => by
    rw [u32Sub_of_le hn (by omega)]; omega
  have hbit : setBit (fun _ => 0) 0 = Function.update (fun _ => 0) 0 1 := by
    funext a
    by_cases ha : a = 0
    · subst ha; decide
    · simp [setBit, ha]
  have hroot : u32 (Inode.zero.size + 16) = 16 := u32_of_lt (by decide)
  simp [allocateInode, allocateDataBlock, FileSys.setPtr, FileSys.setInode, FileSys.setBlock,
    FileSys.zeroBlock, worn, wornFile, hsub m hm, hsub 1022, setBitmap, hbit, hroot]
  rw [Function.update_comm (by decide), Function.update_idem]
  rfl

/-- The root's block is given back, but not counted. -/
theorem unlink_worn (m : Nat) :
    rdUnlink (wornFile m) (render [nameA]) zeroed = some (worn m, 0) := by
  have hsplit : splitPath (render [nameA]) zeroed = ([slash], [97]) := by decide +kernel
  have hfind : findIndex (wornFile m) (render [nameA]) = .inode 1 := by
    have h0 : findIndex (wornFile 0) (render [nameA]) = .inode 1 := by decide +kernel
    exact h0
  have htype : ((wornFile m).inodes 1).type = some .reg := by simp [wornFile, freshInode]
  unfold rdUnlink
  rw [if_neg (by decide), hfind]
  dsimp only
  rw [if_neg (by rw [htype]; simp), hsplit]
  dsimp only
  rw [show findIndex (wornFile m) [slash] = .inode 0 from rfl]
  dsimp only
  have hclear : myClearInode (wornFile m) 1 = wornFile m := by
    have hloop : loop (fun i fs => freeSlot fs (.pointers 1 i)) 0 8 (wornFile m) = wornFile m := by
      refine loop_inv (fun _ fs => fs = wornFile m) rfl ?_
      rintro i t - - rfl
      simp [freeSlot, wornFile, FileSys.ptrAt, freshInode, Inode.zero]
    unfold myClearInode
    dsimp only
    rw [hloop]
    simp [wornFile, freshInode, Inode.zero]
  have hname : (wornFile m).entryNameIs 0 0 [97] = true := by
    have h0 : (wornFile 0).entryNameIs 0 0 [97] = true := by decide +kernel
    exact h0
  have hnamed : named (wornFile m) 0 [97] 16 = true := named_iff.mpr ⟨0, by decide, hname⟩
  have hnum : numbered (wornFile m) 0 = 1 := by
    have h0 : numbered (wornFile 0) 0 = 1 := by decide +kernel
    exact h0
  have hblock : clearTo (wornFile m) 0 [97] 16 = (wornFile m).setBlock 0 fun _ => 0 := by
    unfold clearTo
    refine congrArg ((wornFile m).setBlock 0) (funext fun a => ?_)
    by_cases ha : a < 16
    · rw [show a / 16 = 0 by omega, if_pos ⟨by omega, hname⟩]
    · split
      · rfl
      · have hb : (wornFile m).dataBlocks 0 = entryBytes (fun _ => 0) 0 [97] 1 := by simp [wornFile]
        rw [hb, entryBytes, store_of_lt_or_le _ (by omega),
          copyStr_of_lt_or_gt _ (.inr (by simp only [List.length_singleton]; omega))]
  have hscan : scanBlock [97] (.pointers 0 0) ⟨wornFile m, false, 0, 0, false⟩ =
      ⟨giveBack ((wornFile m).setBlock 0 fun _ => 0) (.pointers 0 0), true, 1, 1, true⟩ := by
    have hp : (wornFile m).ptrAt (.pointers 0 0) = 1 := by simp [wornFile, FileSys.ptrAt]
    rw [scanBlock_present (b := 0) (by rw [hp]; decide) (by rw [hp]; rfl)]
    dsimp only
    rw [hnamed, hnum, hblock]
    rfl
  have hloop : ∃ n b l,
      loop (fun i => scanBlock [97] (.pointers 0 i)) 0 8 ⟨wornFile m, false, 0, 0, false⟩ =
        ⟨giveBack ((wornFile m).setBlock 0 fun _ => 0) (.pointers 0 0), true, n, b, l⟩ := by
    rw [show (8 : Nat) = 7 + 1 by rfl, loop, hscan]
    -- the other direct blocks are not there
    refine loop_inv (fun _ s => ∃ n b l, s = Scan.mk
      (giveBack ((wornFile m).setBlock 0 fun _ => 0) (.pointers 0 0)) true n b l) ⟨1, 1, true, rfl⟩ ?_
    rintro i _ - - ⟨n, b, l, rfl⟩
    refine ⟨0, b, l, ?_⟩
    rw [scanBlock_absent]
    simp [giveBack, wornFile, FileSys.ptrAt, FileSys.setPtr, FileSys.setInode, FileSys.setBlock]
  have hremove : removeFile (wornFile m) 1 0 [97] = worn m := by
    obtain ⟨n, b, l, hl⟩ := hloop
    rw [removeFile_eq, hclear]
    unfold clearEntryInCurrentDir
    dsimp only
    rw [hl]
    have hbit : clearBit (Function.update (fun _ => 0) 0 1) 0 = fun _ => 0 := by
      funext a
      by_cases ha : a = 0
      · subst ha; decide
      · simp [clearBit, ha]
    have hsub : u32Sub 16 16 = 0 := by decide +kernel
    have hadd : u32 1023 = 1023 := u32_of_lt (by decide)
    simp [dropInode, giveBack, wornFile, worn, FileSys.ptrAt, FileSys.setPtr, FileSys.setInode,
      FileSys.setBlock, clearBitmap, blockOf, hbit, hsub, hadd]
    funext j
    by_cases h1 : j = 1
    · subst h1
      simp
    · by_cases h0 : j = 0
      · subst h0
        simp [Inode.zero]
      · simp [h0, h1]
  rw [hremove]

/-- The other globals are as `init_file_sys` leaves them. -/
def wornState (m : Nat) : State := { initFileSys (fun _ _ => 0) fun _ => 0 with discos := worn m }

theorem initFileSys_worn : initFileSys (fun _ _ => 0) (fun _ => 0) = wornState 7931 := by
  have hblocks : (emptyImage fun _ _ => 0).dataBlocks = fun _ _ => 0 := by
    funext b
    unfold emptyImage
    dsimp only
    split <;> rfl
  have hempty : emptyImage (fun _ _ => 0) = ⟨7931, 1024, fun _ => .zero, fun _ => 0, fun _ _ => 0⟩ :=
    congrArg (FileSys.mk 7931 1024 (fun _ => .zero) fun _ => 0) hblocks
  have hfree : u32Sub 1024 1 = 1023 := u32Sub_of_le (by decide) (by decide)
  have h : (initFileSys (fun _ _ => 0) fun _ => 0).discos = worn 7931 := by
    rw [initFileSys_discos, hempty, makeRoot]
    dsimp only
    rw [hfree]
    rfl
  unfold wornState
  rw [← h]

theorem worn_reachable (n : Nat) (hn : n ≤ 7931) :
    Reachable (fun _ _ => True) (wornState (7931 - n)) := by
  induction n with
  | zero =>
    refine ⟨fun _ _ => 0, fun _ => 0, ?_⟩
    rw [initFileSys_worn]
    exact .start
  | succ n ih =>
    obtain ⟨behind, buffer, h⟩ := ih (by omega)
    refine ⟨behind, buffer, ?_⟩
    obtain ⟨m, hm⟩ : ∃ m, 7931 - (n + 1) = m := ⟨_, rfl⟩
    rw [show 7931 - n = m + 1 by omega] at h
    have hc : call (wornState (m + 1)) (.create (render [nameA]) .reg RW zeroed) =
        some ({ wornState (m + 1) with discos := wornFile m }, 0) := by
      show onImage _ (rdCreate (worn (m + 1)) _ _ _ _) = _
      rw [create_worn (by omega)]
      rfl
    have hu : call { wornState (m + 1) with discos := wornFile m } (.unlink (render [nameA]) zeroed) =
        some (wornState m, 0) := by
      show onImage _ (rdUnlink (wornFile m) _ _) = _
      rw [unlink_worn]
      rfl
    have h₁ := h.step (a := .create (render [nameA]) .reg RW zeroed) trivial
    rw [step, hc] at h₁
    have h₂ := h₁.step (a := .unlink (render [nameA]) zeroed) trivial
    rw [step, Option.elim_some, hu] at h₂
    exact hm ▸ h₂

/-- Nine of ten blocks go to the root and to 2048 bytes of `/a`. -/
def lastBlock : State :=
  [.create (render [nameA]) .reg RW zeroed, .open (render [nameA]) RW 5,
    .write 0 5 (fun _ => 65) 2048].foldl step (wornState 10)

/-- An entry in `/a` needs two blocks; the one that is left becomes the index
block of `/a` and then the call fails. -/
theorem lastBlock_taken : Reachable (fun _ _ => True) lastBlock ∧
    ∃ st', call lastBlock (.create (render [nameA, nameA]) .reg RW zeroed) = some (st', -1) ∧
      st'.discos ≠ lastBlock.discos := by
  obtain ⟨behind, buffer, h⟩ := worn_reachable 7921 (by decide)
  refine ⟨⟨behind, buffer, h.foldl _ fun _ _ _ => trivial⟩, ?_⟩
  have hvalues : (call lastBlock (.create (render [nameA, nameA]) .reg RW zeroed)).map
      (fun r => (r.2, r.1.discos.freeBlocks)) = some (-1, 0) ∧ lastBlock.discos.freeBlocks = 1 := by
    decide +kernel
  obtain ⟨⟨st', r⟩, hc, he⟩ := Option.map_eq_some_iff.mp hvalues.1
  obtain ⟨rfl, hfree⟩ := Prod.mk.inj he
  refine ⟨st', hc, fun e => ?_⟩
  have hlast := hvalues.2
  rw [← e, hfree] at hlast
  cases hlast

end ToyOS.Ramdisk.Atomicity
