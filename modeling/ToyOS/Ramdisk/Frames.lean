import ToyOS.Ramdisk.BlockOwnership
import ToyOS.Ramdisk.Records

/-! # What a call leaves alone

`SameFile` is the part of the image a reader of one inode sees: its size, its
pointers on all levels and the bytes of its blocks. A call that creates or
removes a file changes it only for the inodes it works on.
-/
namespace ToyOS.Ramdisk.Frames
open ToyOS.Lib.CStrings ToyOS.Ramdisk.Image ToyOS.Ramdisk.Blocks ToyOS.Ramdisk.Places
open ToyOS.Ramdisk.Ownership ToyOS.Ramdisk.Growth ToyOS.Ramdisk.Paths ToyOS.Ramdisk.Directories
open ToyOS.Ramdisk.Slots ToyOS.Ramdisk.Namespace ToyOS.Ramdisk.Creating ToyOS.Ramdisk.Removing
open ToyOS.Ramdisk.Records

variable {fs fs' fs'' : FileSys} {j k d n cur mode : Nat} {path name : Str} {type : FileType}
variable {mem : Scratch} {r : Int} {e : EntryPtr} {S : Place → Prop}

structure SameFile (fs fs' : FileSys) (j : Nat) : Prop where
  size : (fs'.inodes j).size = (fs.inodes j).size
  ref : ∀ q, q.Valid → q.node = j → ref fs' q = ref fs q
  bytes : ∀ q, q.Valid → q.node = j → ¬ q.IsIndex → Places.ref fs q ≠ 0 →
    fs'.dataBlocks (blockOf (Places.ref fs q)) = fs.dataBlocks (blockOf (Places.ref fs q))

theorem SameFile.refl : SameFile fs fs j := ⟨rfl, fun _ _ _ => rfl, fun _ _ _ _ _ => rfl⟩

theorem SameFile.trans (h : SameFile fs fs' j) (h' : SameFile fs' fs'' j) : SameFile fs fs'' j := by
  refine ⟨h'.size.trans h.size, fun q hq hj => (h'.ref q hq hj).trans (h.ref q hq hj),
    fun q hq hj hl h0 => ?_⟩
  have e := h.ref q hq hj
  have hb := h'.bytes q hq hj hl (by rwa [e])
  rw [e] at hb
  exact hb.trans (h.bytes q hq hj hl h0)

theorem sameFile_extends (h : Extends k fs fs') (hj : j ≠ k) : SameFile fs fs' j := by
  refine ⟨by rw [h.inodes j hj], fun q hq e => h.keeps q hq fun hk => absurd (e.symm.trans hk) hj,
    fun q hq e _ h0 => h.blocks q hq (fun hk => hj (e.symm.trans hk)) h0⟩

theorem sameFile_removed (h : Removed k d S fs fs') (hk : j ≠ k) (hd : j ≠ d) :
    SameFile fs fs' j := by
  refine ⟨by rw [h.inodes j hk hd], fun q hq e => ?_, fun q hq e _ h0 => ?_⟩
  · exact h.kept q hq (e ▸ hk) fun hS => hd (e.symm.trans (h.node q hS).1)
  · exact h.blocks q hq (e ▸ hk) (e ▸ hd) h0

/-- The block of the entry found belongs to no other inode. -/
theorem entry_elsewhere {x : EntryPtr} (h : NextEntry fs k fs' (some x)) (ho : Owned every fs)
    {q : Place} (hq : q.Valid) (hn : q.node ≠ k) : ref fs' q ≠ ptrTo x.block := by
  have hown := (h.extends ho).owned
  cases h with
  | leaf hp _ hk _ _ h =>
    obtain ⟨he, -⟩ := h.entry
    intro e
    have hpq := hown.unique hp trivial hq trivial (by rw [he]; exact ptrTo_ne_zero _) (he.trans e.symm)
    exact hn (hpq ▸ hk)
  | unlinked _ hfresh => exact hfresh q hq

theorem sameFile_fillEntry (hfit : 16 * e.slot + name.length < 256)
    (hb : ∀ q, q.Valid → q.IsIndex → ref fs q ≠ ptrTo e.block)
    (hown : ∀ q, q.Valid → q.node = j → ref fs q ≠ ptrTo e.block) (hn : j ≠ n) (hc : j ≠ cur) :
    SameFile fs (fillEntry fs cur e n name type mode) j := by
  refine ⟨by rw [fillEntry_inodes_ne hfit hn hc], fun q hq hj => ?_, fun q hq hj _ h0 => ?_⟩
  · rw [fillEntry_ref hfit hb hq, if_neg (hj ▸ hn)]
  · refine fillEntry_blocks_ne hfit fun h => hown q hq hj ?_
    rw [← h, ptrTo_blockOf h0]

/-- Creating a file changes its parent and an inode that was free. -/
theorem sameFile_create (h : CreateResult fs path type mode mem fs' r) (ho : Owned every fs)
    (hfit : NameFits fs path mem) (htype : (fs.inodes j).type ≠ none)
    (hj : findIndex fs (splitPath path mem).1 ≠ .inode j) : SameFile fs fs' j := by
  cases h with
  | refused => exact .refl
  | noEntry hc _ hfind hg =>
    exact sameFile_extends ((getNextEntry_next ho hc hg).extends ho) fun e => hj (e ▸ hfind)
  | @filled cur n fs₁ e hc _ hfind hg hn =>
    have hcur : j ≠ cur := fun e => hj (e ▸ hfind)
    have hnext := getNextEntry_next ho hc hg
    have hx := hnext.extends ho
    have hnew : j ≠ n := by
      rintro rfl
      have hfree := (newInode_of_get hn).free
      rw [hx.inodes j hcur] at hfree
      exact htype hfree
    exact (sameFile_extends hx hcur).trans (sameFile_fillEntry (hfit _ _ hfind (by rw [hg]))
      (hnext.plain ho).2 (fun q hq h => entry_elsewhere hnext ho hq (h ▸ hcur)) hnew hcur)

/-- Removing a file changes its inode and its parent. -/
theorem sameFile_unlink (h : UnlinkResult fs path mem fs' r) (ho : Owned every fs)
    (hfile : findIndex fs path ≠ .inode j) (hdir : findIndex fs (splitPath path mem).1 ≠ .inode j) :
    SameFile fs fs' j := by
  cases h with
  | refused => exact .refl
  | @removed k d hk hd _ hf _ hp =>
    obtain ⟨S, hr, -⟩ := removeFile_removed ho hk hd (splitPath path mem).2
    exact sameFile_removed hr (fun e => hfile (e ▸ hf)) fun e => hdir (e ▸ hp)

end ToyOS.Ramdisk.Frames
