import ToyOS.Ramdisk.Namespace
import ToyOS.Ramdisk.Scanning
import ToyOS.Ramdisk.Allocation

/-! # What the helpers of rd_create and rd_unlink keep in any state

A property of the image that the single stores keep is kept by the search for
an entry, by the helpers that free the blocks of an inode and by the scan that
clears an entry. No invariant is needed.
-/
namespace ToyOS.Ramdisk.Rules
open ToyOS.Lib.Loop ToyOS.Lib.Words ToyOS.Lib.CStrings
open ToyOS.Ramdisk.Image ToyOS.Ramdisk.Blocks ToyOS.Ramdisk.Places ToyOS.Ramdisk.Allocation
open ToyOS.Ramdisk.Directories ToyOS.Ramdisk.Scanning

variable {I : FileSys → Prop} {fs fs' : FileSys}

/-! ## Taking blocks -/

/-- Taking a block and storing a pointer keep `I`. -/
structure KeptByTaking (I : FileSys → Prop) : Prop where
  take : ∀ fs fs' b, I fs → takeBlock fs = some (fs', b) → I fs'
  setPtr : ∀ fs s v, I fs → I (fs.setPtr s v)

theorem KeptByTaking.ensureBlock (r : KeptByTaking I) (h : I fs) {s : PtrSlot}
    (he : ensureBlock fs s = some fs') : I fs' := by
  unfold Blocks.ensureBlock at he
  split at he
  · obtain ⟨⟨fs₁, b⟩, ht, rfl⟩ := Option.map_eq_some_iff.mp he
    exact r.setPtr _ _ _ (r.take _ _ _ h ht)
  · cases he; exact h

theorem KeptByTaking.single (r : KeptByTaking I) (h : I fs) (b i : Nat) :
    I (getNextDirEntrySingle fs b i).1 := by
  unfold getNextDirEntrySingle
  dsimp only
  split
  · split
    · exact h
    · rename_i ht
      exact r.setPtr _ (.indexBlock b i) _ (r.take _ _ _ h ht)
  · exact h

theorem KeptByTaking.double (r : KeptByTaking I) (h : I fs) (k seg : Nat) :
    I (nextEntryDouble fs k seg).1 := by
  unfold nextEntryDouble
  split
  · split
    · exact h
    · rename_i he
      have h₁ := r.ensureBlock h he
      unfold getNextDirEntryDouble
      dsimp only
      split
      · split
        · exact h₁
        · rename_i ht
          exact r.single (r.take _ _ _ h₁ ht) _ _
      · exact r.single h₁ _ _
  · exact h

theorem KeptByTaking.getNextEntry (r : KeptByTaking I) (h : I fs) (k : Nat) :
    I (getNextEntry fs k).1 := by
  have hloop := forFrom_ends (a := (fs.inodes k).size / 256) (n := 8 - (fs.inodes k).size / 256)
    (f := nextEntryDirect k) (R := fun fs' _ => I fs') (fun _ fs => I fs) h
    fun i t _ _ h => by
      unfold nextEntryDirect
      dsimp only
      split
      · split
        · exact h
        · rename_i ht
          exact r.setPtr _ (.pointers k i) _ (r.take _ _ _ h ht)
      · split <;> exact h
  unfold Directories.getNextEntry
  dsimp only
  generalize forFrom (nextEntryDirect k) ((fs.inodes k).size / 256)
    (8 - (fs.inodes k).size / 256) fs = fl at hloop ⊢
  cases fl with
  | ret fs' e => exact hloop
  | next fs' =>
    have hloop : I fs' := hloop
    dsimp only
    unfold nextEntrySingle
    split
    · split
      · exact hloop
      · rename_i fs₁ he
        have h₁ := r.single (r.ensureBlock hloop he)
          (blockOf (fs₁.ptrAt (.singleIndirect k))) ((fs.inodes k).size / 256 - 8)
        split
        · rename_i hg
          rw [hg] at h₁; exact h₁
        · rename_i hg
          rw [hg] at h₁; exact r.double h₁ _ _
    · exact r.double hloop _ _

/-! ## Giving blocks back -/

theorem keptByFreeing_single (hfree : ∀ fs b, I fs → I (freeBlock fs b)) (h : I fs) (b : Nat) :
    I (clearInodeSingleIndirect fs b) := by
  refine hfree _ _ (loop_inv (a := 0) (n := 64) (fun _ fs => I fs) h fun i t _ _ ht => ?_)
  unfold freeSlot
  split
  · exact ht
  · exact hfree _ _ ht

theorem keptByFreeing_double (hfree : ∀ fs b, I fs → I (freeBlock fs b)) (h : I fs) (b : Nat) :
    I (clearInodeDoubleIndirect fs b) := by
  refine hfree _ _ (loop_inv (a := 0) (n := 64) (fun _ fs => I fs) h fun i t _ _ ht => ?_)
  dsimp only
  split
  · exact ht
  · exact keptByFreeing_single hfree ht _

theorem keptByFreeing (hfree : ∀ fs b, I fs → I (freeBlock fs b)) (h : I fs) (k : Nat) :
    I (myClearInode fs k) := by
  have hloop := loop_inv (a := 0) (n := 8) (fun _ fs => I fs)
    (f := fun i fs => freeSlot fs (.pointers k i)) h fun i t _ _ ht => by
      unfold freeSlot
      split
      · exact ht
      · exact hfree _ _ ht
  unfold myClearInode
  dsimp only
  generalize loop (fun i fs => freeSlot fs (.pointers k i)) 0 8 fs = fs₁ at hloop ⊢
  split
  · split
    · exact hloop
    · exact keptByFreeing_double hfree hloop _
  · split
    · exact keptByFreeing_single hfree hloop _
    · exact keptByFreeing_double hfree (keptByFreeing_single hfree hloop _) _

/-! ## Clearing an entry -/

/-- A store into a block, and a block unmarked and unlinked, keep `I`. -/
structure KeptByClearing (I : FileSys → Prop) : Prop where
  setBlock : ∀ fs b bytes, I fs → I (fs.setBlock b bytes)
  unlink : ∀ fs map s, I fs → I ({ fs with bitmap := map }.setPtr s 0)

theorem KeptByClearing.scanBlock (r : KeptByClearing I) (filename : Str) (s : PtrSlot) {t : Scan}
    (h : I t.fs) : I (scanBlock filename s t).fs := by
  by_cases h0 : t.fs.ptrAt s = 0
  · rw [scanBlock_absent h0]; exact h
  · rw [scanBlock_present h0 rfl]
    have hc : I (clearTo t.fs (blockOf (t.fs.ptrAt s)) filename 16) := r.setBlock _ _ _ h
    dsimp only
    split
    · exact r.unlink _ _ _ hc
    · exact hc

theorem KeptByClearing.clearEntry (r : KeptByClearing I) (h : I fs) (d : Nat) (filename : Str) :
    I (clearEntryInCurrentDir fs d filename) := by
  have hloop : ∀ (slot : Nat → PtrSlot) (m : Nat) (t : Scan), I t.fs →
      I (loop (fun i => Directories.scanBlock filename (slot i)) 0 m t).fs :=
    fun slot m t ht => loop_inv (a := 0) (n := m) (fun _ s => I s.fs)
      (f := fun i => Directories.scanBlock filename (slot i)) ht
      fun i s _ _ h => r.scanBlock filename _ h
  unfold clearEntryInCurrentDir
  dsimp only
  have h8 := hloop (.pointers d) 8 ⟨fs, false, 0, 0, false⟩ h
  generalize loop (fun i => Directories.scanBlock filename (.pointers d i)) 0 8
    ⟨fs, false, 0, 0, false⟩ = t at h8 ⊢
  split
  · exact h8
  · unfold clearEntrySingle
    dsimp only
    split
    · exact h8
    · have h64 := hloop (.indexBlock (blockOf (t.fs.ptrAt (.singleIndirect d)))) 64
        { t with nonEmptyBlocks := 0, lastEntry := false } h8
      generalize loop (fun i => Directories.scanBlock filename
        (.indexBlock (blockOf (t.fs.ptrAt (.singleIndirect d))) i)) 0 64 _ = t₂ at h64 ⊢
      split
      · exact r.unlink _ _ (.singleIndirect d) h64
      · exact h64

end ToyOS.Ramdisk.Rules
