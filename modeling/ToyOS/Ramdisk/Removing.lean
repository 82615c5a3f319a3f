import ToyOS.Ramdisk.Clearing
import ToyOS.Ramdisk.Creating

/-! # What rd_unlink does to the image

`removeFile` gives back the blocks of inode `k`, takes the name out of directory
`d` and zeroes the inode. `Removed S` is its effect on the pointers: those of
`k` go, those in `S` go with them (blocks of `d` given back), all others stay.
-/
namespace ToyOS.Ramdisk.Removing
open ToyOS.Lib.Loop ToyOS.Lib.Words ToyOS.Lib.Bits ToyOS.Lib.Ownership ToyOS.Lib.CStrings
open ToyOS.Ramdisk.Image ToyOS.Ramdisk.Blocks ToyOS.Ramdisk.Places ToyOS.Ramdisk.Ownership
open ToyOS.Ramdisk.Release ToyOS.Ramdisk.Paths ToyOS.Ramdisk.Directories ToyOS.Ramdisk.Clearing
open ToyOS.Ramdisk.Namespace ToyOS.Ramdisk.Creating

variable {fs fs' fs₂ : FileSys} {k d : Nat} {filename path : Str} {p q : Place} {S : Place → Prop}
variable {mem : Scratch} {r : Int}

structure Removed (k d : Nat) (S : Place → Prop) (fs fs' : FileSys) : Prop where
  node : ∀ q, S q → q.node = d ∧ q.node ≠ k
  gone : ∀ q, q.Valid → q.node = k ∨ S q → ref fs' q = 0
  kept : ∀ q, q.Valid → q.node ≠ k → ¬ S q → ref fs' q = ref fs q
  bits : ∀ c, bit fs'.bitmap c = true ↔
    bit fs.bitmap c = true ∧ ∀ q, q.Valid → q.node = k ∨ S q → ref fs q ≠ ptrTo c
  blocks : ∀ q, q.Valid → q.node ≠ k → q.node ≠ d → ref fs q ≠ 0 →
    fs'.dataBlocks (blockOf (ref fs q)) = fs.dataBlocks (blockOf (ref fs q))
  inodes : ∀ k', k' ≠ k → k' ≠ d → fs'.inodes k' = fs.inodes k'
  self : fs'.inodes k = .zero
  parent : d ≠ k → (fs'.inodes d).type = (fs.inodes d).type ∧
    (fs'.inodes d).access = (fs.inodes d).access ∧
    (fs'.inodes d).size = u32Sub (fs.inodes d).size 16
  freeInodes : fs'.freeInodes = u32 (fs.freeInodes + 1)
  balance : fs'.freeBlocks + clearBits fs ≤ fs.freeBlocks + clearBits fs'
  exact : (∀ q, ¬ S q) → fs'.freeBlocks + clearBits fs = fs.freeBlocks + clearBits fs'

/-- The last two stores of `rd_unlink`. -/
def dropInode (fs : FileSys) (k d : Nat) : FileSys :=
  let fs := fs.setInode d { fs.inodes d with size := u32Sub (fs.inodes d).size 16 }
  { fs.setInode k .zero with freeInodes := u32 (fs.freeInodes + 1) }

theorem removeFile_eq (fs : FileSys) (k d : Nat) (filename : Str) :
    removeFile fs k d filename =
      dropInode (clearEntryInCurrentDir (myClearInode fs k) d filename) k d := rfl

theorem dropInode_ref (fs : FileSys) (k d : Nat) (q : Place) :
    ref (dropInode fs k d) q = if q.node = k then 0 else ref fs q := by
  split
  · rename_i h
    subst h
    exact (ref_of_eq rfl rfl q).trans (ref_zeroed _ q)
  · rename_i h
    exact (ref_of_eq rfl rfl q).trans ((ref_setInode fun h' => absurd h' h).trans
      (ref_setSize fs d _ q))

theorem dropInode_self (fs : FileSys) (k d : Nat) : (dropInode fs k d).inodes k = .zero :=
  setInode_inodes_self _ _ _

theorem dropInode_parent (fs : FileSys) {k d : Nat} (h : d ≠ k) :
    (dropInode fs k d).inodes d =
      { fs.inodes d with size := u32Sub (fs.inodes d).size 16 } :=
  (setInode_inodes_ne _ _ h).trans (setInode_inodes_self _ _ _)

theorem dropInode_inodes_ne (fs : FileSys) {k d k' : Nat} (h : k' ≠ k) (h' : k' ≠ d) :
    (dropInode fs k d).inodes k' = fs.inodes k' :=
  (setInode_inodes_ne _ _ h).trans (setInode_inodes_ne _ _ h')

/-- The directory after its blocks have been given back holds only zeros. -/
theorem clearEntry_self (ho : Owned every fs) (hk : k < 1024) :
    clearEntryInCurrentDir (myClearInode fs k) k filename = myClearInode fs k := by
  have hF := myClearInode_freed ho hk
  generalize myClearInode fs k = fs₁ at hF ⊢
  have hroot : ∀ q, q.up = none → ref fs₁ q = ref fs q := fun q hq => by
    cases q <;> simp only [Place.up, reduceCtorEq] at hq <;>
      simp only [ref, FileSys.ptrAt, hF.inodes]
  refine clearEntry_zero (fun i hi h0 => ?_) fun h0 => ?_
  · have e := hroot (.direct k i) rfl
    rw [e] at h0 ⊢
    exact hF.zero (.direct k i) ⟨hk, hi⟩ rfl h0
  · have e := hroot (.single k) rfl
    rw [e] at h0 ⊢
    exact hF.zero (.single k) hk rfl h0

theorem removeFile_removed (ho : Owned every fs) (hk : k < 1024) (hd : d < 1024)
    (filename : Str) :
    ∃ S, Removed k d S fs (removeFile fs k d filename) ∧
      (¬ GivesBack (myClearInode fs k) d filename → ∀ q, ¬ S q) := by
  have hF := myClearInode_freed ho hk
  rw [removeFile_eq]
  by_cases e : d = k
  · subst e
    rw [clearEntry_self ho hd]
    generalize myClearInode fs d = fs₁ at hF ⊢
    refine ⟨fun _ => False, ⟨fun _ h => h.elim, fun q hq h => ?_, fun q hq hn _ => ?_, fun c => ?_,
      fun q hq hn _ h0 => (hF.blocks_rest ho hq hn h0 :), fun k' h h' => ?_, dropInode_self _ _ _,
      fun h => absurd rfl h, ?_, (le_of_eq hF.balance :), fun _ => (hF.balance :)⟩, fun _ _ => id⟩
    · rw [dropInode_ref, if_pos (h.resolve_right id)]
    · rw [dropInode_ref, if_neg hn]; exact hF.ref_rest ho hq hn
    · simp only [or_false]; exact hF.bits c
    · rw [dropInode_inodes_ne _ h h', hF.inodes]
    · rw [← hF.freeInodes]; rfl
  · obtain ⟨S, hC, hS⟩ := (clearEntry_outcome (hF.owned ho) e hd filename).cleared
      (hF.owned ho) e hd
    generalize clearEntryInCurrentDir (myClearInode fs k) d filename = fs₂ at hC
    generalize myClearInode fs k = fs₁ at hF hC hS ⊢
    have hle : clearBits fs₁ ≤ clearBits fs₂ :=
      clearCount_mono fun c hc => ((hC.bits c).mp hc).1
    have hb := hF.balance
    have hf : (dropInode fs₂ k d).freeBlocks = fs₁.freeBlocks := hC.freeBlocks
    have hnode : ∀ q, S q → q.node ≠ k := fun q h => by rw [hC.node q h]; exact e
    refine ⟨S, ⟨fun q h => ⟨hC.node q h, hnode q h⟩, fun q hq h => ?_, fun q hq hn h => ?_,
      fun c => ?_, fun q hq hn hnd h0 => ?_, fun k' h h' => ?_, dropInode_self _ _ _, fun _ => ?_, ?_,
      ?_, fun hno => ?_⟩, hS⟩
    · rw [dropInode_ref]
      split
      · rfl
      · rename_i hn
        exact hC.gone q hq hn (h.resolve_left hn)
    · rw [dropInode_ref, if_neg hn, hC.kept q hq hn h]; exact hF.ref_rest ho hq hn
    · refine (hC.bits c).trans ?_
      rw [hF.bits, and_assoc]
      refine and_congr_right fun _ => ⟨fun hx q hq h => ?_, fun hx => ⟨fun q hq h => hx q hq (.inl h),
        fun q hq h => ?_⟩⟩
      · by_cases hn : q.node = k
        · exact hx.1 q hq hn
        · rw [← hF.ref_rest ho hq hn]; exact hx.2 q hq (h.resolve_left hn)
      · rw [hF.ref_rest ho hq (hnode q h)]; exact hx q hq (.inr h)
    · have e' := hF.ref_rest ho hq hn
      have := hC.blocks q hq hn hnd (by rw [e']; exact h0)
      rw [e'] at this
      exact this.trans (hF.blocks_rest ho hq hn h0)
    · rw [dropInode_inodes_ne _ h h', hC.inodes k' h', hF.inodes]
    · rw [dropInode_parent _ e]
      dsimp only
      rw [hC.type, hC.access, hC.size, hF.inodes]
      exact ⟨rfl, rfl, rfl⟩
    · rw [← hF.freeInodes, ← hC.freeInodes]; rfl
    · have : clearBits (dropInode fs₂ k d) = clearBits fs₂ := rfl
      omega
    · have h1 : clearBits (dropInode fs₂ k d) = clearBits fs₂ := rfl
      have h2 : clearBits fs₂ = clearBits fs₁ := by
        refine clearCount_congr fun c _ => Bool.eq_iff_iff.mpr ?_
        rw [hC.bits]
        exact and_iff_left fun q _ h => absurd h (hno q)
      omega

theorem Removed.released (h : Removed k d S fs fs') :
    Holding.Released (fun p => p.node = k ∨ S p) (holding every fs) (holding every fs') := by
  refine ⟨fun p b => ⟨fun ⟨hp, _, e⟩ => ?_, fun ⟨⟨hp, _, e⟩, hn⟩ => ?_⟩, fun b => ?_⟩
  · have hn : ¬ (p.node = k ∨ S p) := fun hn => ptrTo_ne_zero b (e.symm.trans (h.gone p hp hn))
    rw [not_or] at hn
    exact ⟨⟨hp, trivial, by rw [← h.kept p hp hn.1 hn.2]; exact e⟩, not_or.mpr hn⟩
  · rw [not_or] at hn
    exact ⟨hp, trivial, by rw [h.kept p hp hn.1 hn.2]; exact e⟩
  · refine (h.bits b).trans (and_congr_right fun _ => ?_)
    constructor
    · rintro hx ⟨p, hS, hp, _, e⟩; exact hx p hp hS e
    · exact fun hx p hp hS e => hx ⟨p, hS, hp, trivial, e⟩

theorem Removed.owned (h : Removed k d S fs fs') (ho : Owned every fs) : Owned every fs' where
  sound := h.released.sound ho.sound
  inRange {p} hp _ := by
    by_cases hn : p.node = k ∨ S p
    · rw [h.gone p hp hn]; omega
    · rw [not_or] at hn
      rw [h.kept p hp hn.1 hn.2]; exact ho.inRange hp trivial
  counted := by have := h.balance; have := ho.counted; omega

/-! ## The whole call -/

/-- The cases of `rd_unlink`, with the inode and the parent it found. -/
inductive UnlinkResult (fs : FileSys) (path : Str) (mem : Scratch) : FileSys → Int → Prop
  | refused : UnlinkResult fs path mem fs (-1)
  | removed {k d : Nat} (hk : k < 1024) (hd : d < 1024) (hroot : path ≠ [slash])
      (hfile : findIndex fs path = .inode k)
      (hdir : ¬ ((fs.inodes k).type = some .dir ∧ 0 < (fs.inodes k).size))
      (hfind : findIndex fs (splitPath path mem).1 = .inode d) :
      UnlinkResult fs path mem (removeFile fs k d (splitPath path mem).2) 0

theorem rdUnlink_result (h : rdUnlink fs path mem = some (fs', r)) :
    UnlinkResult fs path mem fs' r := by
  unfold rdUnlink at h
  split at h
  · cases h; exact .refused
  · rename_i hroot
    split at h
    · cases h
    · cases h; exact .refused
    · rename_i k hfile
      split at h
      · cases h; exact .refused
      · rename_i hdir
        dsimp only at h
        split at h
        · cases h
        · cases h; exact .refused
        · rename_i d hfind
          obtain ⟨rfl, rfl⟩ := Prod.mk.inj (Option.some.inj h)
          exact .removed (findIndex_lt hfile) (findIndex_lt hfind) hroot hfile hdir hfind

end ToyOS.Ramdisk.Removing
