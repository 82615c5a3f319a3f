import ToyOS.Ramdisk.Supply

/-! # How many bytes a write stores

Size and cursor both move on by the number of bytes stored. That number is at
most the count asked for, ends at the first zero byte of the buffer, and in the
direct blocks is bounded by the blocks that are there or can be had.
-/
namespace ToyOS.Ramdisk.Counting
open ToyOS.Lib.Loop ToyOS.Lib.Words ToyOS.Ramdisk.Image ToyOS.Ramdisk.Blocks ToyOS.Ramdisk.Places
open ToyOS.Ramdisk.Allocation ToyOS.Ramdisk.Write ToyOS.Ramdisk.Writing ToyOS.Ramdisk.Records
open ToyOS.Ramdisk.Supply

variable {fs fs' : FileSys} {k c s m o a spare : Nat} {data : Bytes} {n : Int} {w : Writer}
variable {slot : PtrSlot}

/-! ## Size and cursor -/

/-- From size `s` and cursor `c` on, both have moved on by the bytes written. -/
def Moved (k s c : Nat) (w : Writer) : Prop :=
  (w.fs.inodes k).size = u32 (s + w.written) ∧ w.cursor = u32 (c + w.written)

theorem u32_succ (x m : Nat) : u32 (u32 (x + m) + 1) = u32 (x + (m + 1)) := by
  unfold u32
  omega

theorem moved_kept (k s c : Nat) (data : Bytes) : Kept k data (Moved k s c) where
  ensure w slot fs' hw he := by
    have hsize := congrArg Record.size (congrFun (ensureBlock_record he) k)
    exact ⟨hsize.trans hw.1, hw.2⟩
  put w b j hw _ := by
    obtain ⟨hsize, hcursor⟩ := hw
    constructor
    · simp only [putByte, setInode_inodes_self, setBlock_inodes, hsize]
      exact u32_succ s w.written
    · simp only [putByte, hcursor]
      exact u32_succ c w.written

theorem moved_start (hs : (fs.inodes k).size < 2 ^ 32) (hc : c < 2 ^ 32) :
    Moved k (fs.inodes k).size c ⟨fs, c, 0, 0⟩ :=
  ⟨(u32_of_lt hs).symm, (u32_of_lt hc).symm⟩

/-! ## The bounds -/

/-- Nothing is stored once the buffer has come to a zero byte. -/
theorem written_kept (h : data m = 0) : Kept k data fun w => w.written ≤ m where
  ensure _ _ _ hw _ := hw
  put w _ _ hw h0 := by
    have hne : w.written ≠ m := fun e => h0 (e ▸ h)
    exact Nat.lt_of_le_of_ne hw hne

/-- A write of `n` bytes returns when it has stored them. -/
theorem written_carried (k : Nat) (data : Bytes) (n : Int) :
    Carried k data n (fun w => (w.written : Int) < n) fun w => (w.written : Int) ≤ n where
  ensure _ _ _ hw _ := hw
  put w _ _ hw _ hne := by
    dsimp only [putByte]
    omega
  done w _ _ _ _ hn := by
    dsimp only [putByte]
    omega
  quit w hw := by omega

theorem writeByte_atMost (b i : Nat) (w : Writer) :
    (writeByte k data n b i w).Ends (fun w' => w'.written ≤ w.written + 1)
      fun w' _ => w'.written ≤ w.written + 1 := by
  unfold writeByte
  dsimp only
  split
  · split
    · exact Nat.le_refl _
    · exact Nat.le_refl _
  · exact Nat.le_succ _

theorem writeBlock_atMost (data : Bytes) (slot : PtrSlot) (o : Nat) (w : Writer) :
    (writeBlock k data n slot o w).Ends (fun w' => w'.written ≤ w.written + 256)
      fun w' _ => w'.written ≤ w.written + 256 := by
  unfold writeBlock
  split
  · exact Nat.le_add_right _ _
  · refine (forFrom_atMost (·.written) 1 fun i t => writeByte_atMost _ i t).mono
      (fun w' h => ?_) fun w' _ h => ?_
    · dsimp only at h
      omega
    · dsimp only at h
      omega

/-- A loop over at most `t` blocks. -/
theorem writeBlocks_atMost (slot : Nat → PtrSlot) (o a : Nat) {m t : Nat} (hm : m ≤ t) (w : Writer) :
    (forFrom (fun i => writeBlock k data n (slot i) o) a m w).Ends
      (fun w' => w'.written ≤ w.written + t * 256) fun w' _ => w'.written ≤ w.written + t * 256 := by
  have hle : m * 256 ≤ t * 256 := Nat.mul_le_mul_right 256 hm
  have h := forFrom_atMost (·.written) 256 (a := a) (n := m) (s := w) fun i t =>
    writeBlock_atMost (k := k) (n := n) data (slot i) o t
  exact h.mono (fun w' h => Nat.le_trans h (by omega)) fun w' _ h => Nat.le_trans h (by omega)

theorem writeSingle_atMost (w : Writer) :
    (writeSingle k data n w).Ends (fun w' => w'.written ≤ w.written + 64 * 256)
      fun w' _ => w'.written ≤ w.written + 64 * 256 := by
  unfold writeSingle
  dsimp only
  split
  · split
    · exact Nat.le_add_right _ _
    · rename_i fs' he
      exact writeBlocks_atMost _ _ _ (by omega) { w with fs := fs' }
  · exact Nat.le_add_right _ _

theorem writeIndex_atMost (b o i : Nat) (w : Writer) :
    (writeIndex k data n b o i w).Ends (fun w' => w'.written ≤ w.written + 64 * 256)
      fun w' _ => w'.written ≤ w.written + 64 * 256 := by
  unfold writeIndex
  split
  · exact Nat.le_add_right _ _
  · rename_i fs' he
    exact writeBlocks_atMost _ _ _ (by omega) { w with fs := fs', seg := w.seg / 64 }

theorem writeDouble_atMost (w : Writer) :
    (writeDouble k data n w).Ends (fun w' => w'.written ≤ w.written + 64 * (64 * 256))
      fun w' _ => w'.written ≤ w.written + 64 * (64 * 256) := by
  unfold writeDouble
  dsimp only
  split
  · split
    · exact Nat.le_add_right _ _
    · exact forFrom_atMost (·.written) (64 * 256) fun i t => writeIndex_atMost _ _ i t
  · exact Nat.le_add_right _ _

/-- No call stores more than a file of the greatest size holds. -/
theorem writeStages_atMost (k : Nat) (data : Bytes) (n : Int) (w : Writer) :
    (writeStages k data n w).state.written ≤ w.written + 1067008 := by
  have hdirect : (writeDirect k data n w).Ends (fun w' => w'.written ≤ w.written + 2048)
      fun w' _ => w'.written ≤ w.written + 1067008 :=
    (writeBlocks_atMost _ _ _ (by omega : 8 - w.cursor / 256 ≤ 8) w).mono
      (fun w' h => Nat.le_trans h (by omega)) fun w' _ h => Nat.le_trans h (by omega)
  refine Flow.Ends.state (N := fun w' : Writer => w'.written ≤ w.written + 1067008) ?_
  refine Flow.Ends.bind (M := fun w' : Writer => w'.written ≤ w.written + 1067008)
    (Flow.Ends.bind (M := fun w' : Writer => w'.written ≤ w.written + 18432) (hdirect.bind fun w₁ h₁ => ?_)
      fun w₂ h₂ => ?_) fun w₃ h₃ => ?_
  · exact (writeSingle_atMost w₁).mono (fun w' h => by omega) fun w' _ h => by omega
  · exact (writeDouble_atMost w₂).mono (fun w' h => by omega) fun w' _ h => by omega
  · split <;> exact h₃

/-! ## The direct blocks -/

/-- How many of the `m` direct blocks from `a` on are there or can be had, one
after the other, while `spare` blocks are left. -/
def blocksHad (fs : FileSys) (k : Nat) : Nat → Nat → Nat → Nat
  | _, _, 0 => 0
  | spare, a, m + 1 =>
    if fs.ptrAt (.pointers k a) ≠ 0 then blocksHad fs k spare (a + 1) m + 1
    else if spare = 0 then 0 else blocksHad fs k (spare - 1) (a + 1) m + 1

theorem blocksHad_congr
    (h : ∀ i, a ≤ i → fs'.ptrAt (.pointers k i) = fs.ptrAt (.pointers k i)) :
    blocksHad fs' k spare a m = blocksHad fs k spare a m := by
  induction m generalizing a spare with
  | zero => rfl
  | succ m ih =>
    have hrest : ∀ i, a + 1 ≤ i → fs'.ptrAt (.pointers k i) = fs.ptrAt (.pointers k i) :=
      fun i hi => h i (by omega)
    rw [blocksHad, blocksHad, h a (Nat.le_refl a), ih hrest, ih hrest]

/-- A block that has been had. -/
theorem ensureBlock_had (hw : Word fs) (h : ensureBlock fs (.pointers k a) = some fs') :
    Word fs' ∧ blocksHad fs k (avail fs) a (m + 1) = blocksHad fs' k (avail fs') (a + 1) m + 1 := by
  by_cases h0 : fs.ptrAt (.pointers k a) = 0
  · have hpos : avail fs ≠ 0 := fun ha => by
      rw [ensure_none h0 ha] at h
      cases h
    obtain ⟨fs₁, b, ht⟩ := exists_take hpos
    have hs := spent_of_take hw ht
    obtain ⟨hfs₁, -⟩ := takeBlock_some ht
    rw [ensureBlock, if_pos h0, ht] at h
    obtain rfl := Option.some.inj h
    have hleft := hs.left
    refine ⟨(hs.setPtr _ _).word, ?_⟩
    rw [blocksHad, if_neg (not_not.mpr h0), if_neg hpos, avail_setPtr,
      show avail fs - 1 = avail fs₁ by omega, blocksHad_congr fun i hi => ?_]
    have hne : PtrSlot.pointers k i ≠ .pointers k a := fun e => by
      injection e
      omega
    rw [ptrAt_setPtr_ne _ _ hne, hfs₁]
    rfl
  · rw [ensure_there h0] at h
    obtain rfl := Option.some.inj h
    exact ⟨hw, by rw [blocksHad, if_pos h0]⟩

/-- Storing a byte takes no block and moves no direct pointer. -/
structure SameSupply (k : Nat) (fs fs' : FileSys) : Prop where
  word : Word fs'
  avail : avail fs' = avail fs
  pointers : ∀ i, fs'.ptrAt (.pointers k i) = fs.ptrAt (.pointers k i)

theorem SameSupply.putByte (h : SameSupply k fs w.fs) (b i : Nat) :
    SameSupply k fs (putByte k data b i w).fs := by
  refine ⟨h.word, h.avail, fun j => ?_⟩
  rw [← h.pointers j]
  exact congrArg (fun x => x.pointers j) (setInode_inodes_self _ _ _)

theorem writeBlock_had (hw : Word w.fs) :
    (writeBlock k data n (.pointers k a) o w).Ends
      (fun w' => w'.written ≤ w.written + (256 - o) ∧ Word w'.fs ∧
        blocksHad w.fs k (avail w.fs) a (m + 1) =
          blocksHad w'.fs k (avail w'.fs) (a + 1) m + 1)
      fun w' _ => w'.written ≤
        w.written + blocksHad w.fs k (avail w.fs) a (m + 1) * (256 - o) := by
  unfold writeBlock
  cases he : ensureBlock w.fs (.pointers k a) with
  | none => exact Nat.le_add_right _ _
  | some fs' =>
    obtain ⟨hw', hhad⟩ := ensureBlock_had (m := m) hw he
    rw [hhad]
    have hone : 256 - o ≤ (blocksHad fs' k (avail fs') (a + 1) m + 1) * (256 - o) :=
      Nat.le_mul_of_pos_left _ (Nat.succ_pos _)
    have hloop := forFrom_ends (a := o) (n := 256 - o) (s := { w with fs := fs' })
      (f := writeByte k data n (blockOf (fs'.ptrAt (.pointers k a))))
      (R := fun w' _ => w'.written ≤ w.written + (256 - o))
      (fun j w' => w'.written ≤ w.written + (j - o) ∧ SameSupply k fs' w'.fs)
      ⟨Nat.le_add_right _ _, hw', rfl, fun _ => rfl⟩ fun j t hj hlt h => by
        obtain ⟨hle, hs⟩ := h
        unfold writeByte
        dsimp only
        split
        · split
          · show t.written + 1 ≤ _
            omega
          · refine ⟨?_, hs.putByte _ _⟩
            show t.written + 1 ≤ _
            omega
        · exact ⟨by omega, hs⟩
    refine hloop.mono (fun w' h => ?_) fun w' _ h => by omega
    obtain ⟨hle, hs⟩ := h
    refine ⟨by omega, hs.word, ?_⟩
    rw [hs.avail, blocksHad_congr fun i _ => hs.pointers i]

/-- The direct stage fills at most the blocks it can have. -/
theorem writeDirect_had (hw : Word w.fs) :
    (forFrom (fun i => writeBlock k data n (.pointers k i) o) a m w).Ends
      (fun w' => w'.written ≤ w.written + blocksHad w.fs k (avail w.fs) a m * (256 - o))
      fun w' _ => w'.written ≤ w.written + blocksHad w.fs k (avail w.fs) a m * (256 - o) := by
  induction m generalizing a w with
  | zero => exact Nat.le_add_right _ _
  | succ m ih =>
    rw [forFrom]
    refine (writeBlock_had (m := m) hw).bind fun t ht => ?_
    obtain ⟨hle, hwt, hhad⟩ := ht
    rw [hhad, Nat.succ_mul]
    exact (ih (a := a + 1) hwt).mono (fun w' h => by omega) fun w' _ h => by omega

/-! ## A size that does not overflow -/

/-- A write to inode `k` from cursor `c` on does not take the size past 2^32 - 1:
from 1067008 on only the direct blocks are written, up to the count asked for,
the first zero byte of the buffer and the end of the blocks that can be had. -/
def Fits (fs : FileSys) (k c : Nat) (data : Bytes) (n : Int) : Prop :=
  (fs.inodes k).size < 1067008 ∨ (0 < n ∧ (fs.inodes k).size + n < 2 ^ 32) ∨
    (∃ m, data m = 0 ∧ (fs.inodes k).size + m < 2 ^ 32) ∨
    (fs.inodes k).size + blocksHad fs k (avail fs) (c / 256) (8 - c / 256) * (256 - c % 256) < 2 ^ 32

/-- A file that has outgrown the pointers is written in the direct blocks only. -/
theorem writeStages_outgrown (hw : Word fs) (hc : c < 2 ^ 32) (hbig : 1067008 ≤ (fs.inodes k).size)
    (hfit : (fs.inodes k).size +
      blocksHad fs k (avail fs) (c / 256) (8 - c / 256) * (256 - c % 256) < 2 ^ 32) :
    (writeStages k data n ⟨fs, c, 0, 0⟩).state.written ≤
      blocksHad fs k (avail fs) (c / 256) (8 - c / 256) * (256 - c % 256) := by
  obtain ⟨M, hM⟩ : ∃ M, blocksHad fs k (avail fs) (c / 256) (8 - c / 256) * (256 - c % 256) = M :=
    ⟨_, rfl⟩
  rw [hM] at hfit ⊢
  have hhad : (writeDirect k data n ⟨fs, c, 0, 0⟩).Ends
      (fun w' => w'.written ≤ 0 +
        blocksHad fs k (avail fs) (c / 256) (8 - c / 256) * (256 - c % 256))
      fun w' _ => w'.written ≤ 0 +
        blocksHad fs k (avail fs) (c / 256) (8 - c / 256) * (256 - c % 256) :=
    writeDirect_had (w := ⟨fs, c, 0, 0⟩) hw
  rw [hM, Nat.zero_add] at hhad
  have hmoved := (moved_kept k (fs.inodes k).size c data).writeBlocks (n := n)
    (w := ⟨fs, c, 0, 0⟩) (moved_start (by omega) hc) (.pointers k) (c % 256) (c / 256) (8 - c / 256)
  refine Flow.Ends.state (N := fun w : Writer => w.written ≤ M) ?_
  refine Flow.Ends.bind (M := fun w : Writer => w.written ≤ M) (Flow.Ends.bind
    (M := fun w : Writer => w.written ≤ M ∧ 4168 ≤ (w.fs.inodes k).size / 256)
    (Flow.Ends.bind ((hhad.and hmoved).mono (fun w h => h) fun w _ h => h.1) fun w h => ?_)
    fun w h => ?_) fun w h => ?_
  · -- the size is beyond both indirect levels
    obtain ⟨hle, hsize, -⟩ := h
    rw [u32_of_lt (by omega)] at hsize
    unfold writeSingle
    dsimp only
    rw [if_neg (by omega)]
    exact ⟨hle, by omega⟩
  · unfold writeDouble
    dsimp only
    rw [if_neg (by omega)]
    exact h.1
  · split <;> exact h

theorem written_fits (hw : Word fs) (hs : (fs.inodes k).size < 2 ^ 32) (hc : c < 2 ^ 32)
    (h : Fits fs k c data n) :
    (fs.inodes k).size + (writeStages k data n ⟨fs, c, 0, 0⟩).state.written < 2 ^ 32 := by
  by_cases hbig : (fs.inodes k).size < 1067008
  · have := writeStages_atMost k data n ⟨fs, c, 0, 0⟩
    dsimp only at this
    omega
  rcases h with h | ⟨hn, h⟩ | ⟨m, hm, h⟩ | h
  · exact absurd h hbig
  · have := (written_carried k data n).writeStages (w := ⟨fs, c, 0, 0⟩) (fun _ _ h => h) hn
    omega
  · have := (written_kept hm).writeStages (k := k) (n := n) (w := ⟨fs, c, 0, 0⟩) (fun _ _ h => h)
      (Nat.zero_le m)
    omega
  · have hle : (writeStages k data n ⟨fs, c, 0, 0⟩).state.written ≤ _ :=
      writeStages_outgrown hw hc (not_lt.mp hbig) h
    omega

/-- Such a write moves size and cursor on by the bytes stored. -/
theorem moved_of_fits (hw : Word fs) (hs : (fs.inodes k).size < 2 ^ 32)
    (hc : c ≤ (fs.inodes k).size) (h : Fits fs k c data n) :
    ∃ m, ((writeStages k data n ⟨fs, c, 0, 0⟩).state.fs.inodes k).size = (fs.inodes k).size + m ∧
      (writeStages k data n ⟨fs, c, 0, 0⟩).state.cursor = c + m := by
  have hlt := written_fits hw hs (by omega) h
  obtain ⟨hsize, hcursor⟩ := (moved_kept k (fs.inodes k).size c data).writeStages (n := n)
    (w := ⟨fs, c, 0, 0⟩) (fun _ _ h => h) (moved_start hs (by omega))
  rw [u32_of_lt hlt] at hsize
  rw [u32_of_lt (by omega)] at hcursor
  exact ⟨_, hsize, hcursor⟩

end ToyOS.Ramdisk.Counting
