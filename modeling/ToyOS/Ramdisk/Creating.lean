import ToyOS.Ramdisk.Components
import ToyOS.Ramdisk.Namespace
import ToyOS.Ramdisk.Release
import ToyOS.Ramdisk.Slots

/-! # What rd_create does to the image

`fillEntry` writes one entry and two inode records. As long as the name fits
the block, nothing else changes: no pointer but those of the new inode, which
are NULL.
-/
namespace ToyOS.Ramdisk.Creating
open ToyOS.Lib.Loop ToyOS.Lib.Words ToyOS.Lib.Bits ToyOS.Lib.Ownership ToyOS.Lib.CStrings
open ToyOS.Ramdisk.Image ToyOS.Ramdisk.Blocks ToyOS.Ramdisk.Places ToyOS.Ramdisk.Ownership
open ToyOS.Ramdisk.Growth ToyOS.Ramdisk.Release ToyOS.Ramdisk.Slots ToyOS.Ramdisk.Paths
open ToyOS.Ramdisk.Directories ToyOS.Ramdisk.Namespace

variable {fs fs' : FileSys} {cur n mode : Nat} {e : EntryPtr} {name path : Str} {type : FileType}
variable {p q : Place} {mem : Scratch} {r : Int}

/-! ## Filling an entry -/

theorem poke_eq (fs : FileSys) (b : Nat) {a : Nat} (h : a < 256) (v : UInt8) :
    fs.poke b a v = fs.setBlock b (Function.update (fs.dataBlocks b) a v) := by
  simp only [FileSys.poke, Nat.div_eq_of_lt h, Nat.mod_eq_of_lt h, Nat.add_zero]

/-- A name that ends inside its block changes no other block. -/
theorem strcpyAt_eq (fs : FileSys) (b : Nat) {a : Nat} {s : Str} (h : a + s.length < 256) :
    fs.strcpyAt b a s = fs.setBlock b (copyStr (fs.dataBlocks b) a s) := by
  induction s generalizing fs a with
  | nil => exact poke_eq fs b h 0
  | cons c s ih =>
    rw [List.length_cons] at h
    rw [FileSys.strcpyAt, ih _ (by omega), poke_eq _ _ (by omega), copyStr]
    simp [FileSys.setBlock]

/-- A block after an entry has been filled in. -/
def entryBytes (m : Bytes) (slot : Nat) (name : Str) (n : Nat) : Bytes :=
  store (copyStr m (16 * slot) name) (16 * slot + 14) 2 (n % 2 ^ 16)

/-- The record of a file just created. -/
def freshInode (type : FileType) (mode : Nat) : Inode :=
  { Inode.zero with type := some type, access := mode }

theorem fillEntry_eq (hfit : 16 * e.slot + name.length < 256) :
    fillEntry fs cur e n name type mode =
      let fs₁ := (allocateInode fs n).setBlock e.block
        (entryBytes (fs.dataBlocks e.block) e.slot name n)
      let fs₂ := fs₁.setInode n (freshInode type mode)
      fs₂.setInode cur { fs₂.inodes cur with size := u32 ((fs₂.inodes cur).size + 16) } := by
  unfold fillEntry
  dsimp only
  rw [strcpyAt_eq _ _ hfit]
  simp [FileSys.setEntryNum, FileSys.setBlock, entryBytes, allocateInode, FileSys.setInode, freshInode]

section
variable (hfit : 16 * e.slot + name.length < 256)
include hfit

theorem fillEntry_bitmap : (fillEntry fs cur e n name type mode).bitmap = fs.bitmap := by
  rw [fillEntry_eq hfit]; rfl

theorem fillEntry_freeBlocks :
    (fillEntry fs cur e n name type mode).freeBlocks = fs.freeBlocks := by
  rw [fillEntry_eq hfit]; rfl

theorem fillEntry_block : (fillEntry fs cur e n name type mode).dataBlocks e.block =
    entryBytes (fs.dataBlocks e.block) e.slot name n := by
  rw [fillEntry_eq hfit]; simp

theorem fillEntry_blocks_ne {b : Nat} (h : b ≠ e.block) :
    (fillEntry fs cur e n name type mode).dataBlocks b = fs.dataBlocks b := by
  rw [fillEntry_eq hfit]; exact setBlock_dataBlocks_ne _ _ h

theorem fillEntry_inodes_ne {k : Nat} (hn : k ≠ n) (hc : k ≠ cur) :
    (fillEntry fs cur e n name type mode).inodes k = fs.inodes k := by
  rw [fillEntry_eq hfit]
  dsimp only
  rw [setInode_inodes_ne _ _ hc, setInode_inodes_ne _ _ hn, setBlock_inodes]
  exact setInode_inodes_ne _ _ hn

theorem fillEntry_new (hne : n ≠ cur) :
    (fillEntry fs cur e n name type mode).inodes n = freshInode type mode := by
  rw [fillEntry_eq hfit]
  dsimp only
  rw [setInode_inodes_ne _ _ hne, setInode_inodes_self]

theorem fillEntry_type (k : Nat) : ((fillEntry fs cur e n name type mode).inodes k).type =
    if k = n then some type else (fs.inodes k).type := by
  rw [fillEntry_eq hfit]
  dsimp only
  have hsize : ∀ (f : FileSys) (s : Nat), ((f.setInode cur { f.inodes cur with size := s }).inodes
      k).type = (f.inodes k).type := fun f s => by
    by_cases h : k = cur
    · subst h; simp
    · rw [setInode_inodes_ne _ _ h]
  rw [hsize]
  split
  · rename_i h; subst h; simp [freshInode]
  · rename_i h
    rw [setInode_inodes_ne _ _ h, setBlock_inodes]
    exact congrArg Inode.type (setInode_inodes_ne _ _ h)

/-- Only the new inode loses its pointers. -/
theorem fillEntry_ref (hb : ∀ q, q.Valid → q.IsIndex → ref fs q ≠ ptrTo e.block) (hq : q.Valid) :
    ref (fillEntry fs cur e n name type mode) q = if q.node = n then 0 else ref fs q := by
  have h₀ : ∀ q, ref (allocateInode fs n) q = if q.node = n then 0 else ref fs q := fun q => by
    split
    · rename_i h; subst h; exact ref_zeroed _ q
    · rename_i h
      exact (ref_setInode fun h' => absurd h' h).trans (ref_of_eq rfl rfl q)
  rw [fillEntry_eq hfit]
  dsimp only
  rw [ref_setSize, ref_setInode fun _ => ?_, ref_setBlock, h₀]
  · intro r hi hv _
    rw [h₀]
    split
    · exact (ptrTo_ne_zero _).symm
    · exact hb r (hv hq) hi
  · have : (allocateInode fs n).inodes n = .zero := setInode_inodes_self _ _ _
    rw [setBlock_inodes, this]
    exact ⟨rfl, rfl, rfl⟩

/-- Places let go, the map stays. -/
theorem fillEntry_forgotten (hb : ∀ q, q.Valid → q.IsIndex → ref fs q ≠ ptrTo e.block) :
    Holding.Forgotten (holding every fs)
      (holding every (fillEntry fs cur e n name type mode)) := by
  refine ⟨fun {p b} ⟨hp, _, h⟩ => ⟨hp, trivial, ?_⟩, fun {b} h => ?_⟩
  · rw [fillEntry_ref hfit hb hp] at h
    split at h
    · exact absurd h.symm (ptrTo_ne_zero b)
    · exact h
  · simp only [holding, fillEntry_bitmap hfit]; exact h

theorem fillEntry_owned (ho : Owned every fs)
    (hb : ∀ q, q.Valid → q.IsIndex → ref fs q ≠ ptrTo e.block) :
    Owned every (fillEntry fs cur e n name type mode) where
  sound := (fillEntry_forgotten hfit hb).sound ho.sound
  inRange hp _ := by
    rw [fillEntry_ref hfit hb hp]
    split
    · omega
    · exact ho.inRange hp trivial
  counted := by
    rw [fillEntry_freeBlocks hfit, clearBits, fillEntry_bitmap hfit]; exact ho.counted

end

/-! ## The whole call -/

theorem getNextEntry_next {k : Nat} {e : Option EntryPtr} (ho : Owned every fs) (hk : k < 1024)
    (hg : getNextEntry fs k = (fs', e)) : NextEntry fs k fs' e := by
  have := getNextEntry_spec ho hk
  rwa [hg] at this

/-- The cases of `rd_create`, with the parent `cur` it found. -/
inductive CreateResult (fs : FileSys) (path : Str) (type : FileType) (mode : Nat) (mem : Scratch) :
    FileSys → Int → Prop
  | refused : CreateResult fs path type mode mem fs (-1)
  | noEntry {cur : Nat} {fs' : FileSys} {e : Option EntryPtr} (hc : cur < 1024)
      (hfb : fs.freeBlocks ≠ 0) (hfind : findIndex fs (splitPath path mem).1 = .inode cur)
      (hg : getNextEntry fs cur = (fs', e)) :
      CreateResult fs path type mode mem fs' (-1)
  | filled {cur n : Nat} {fs' : FileSys} {e : EntryPtr} (hc : cur < 1024)
      (hfb : fs.freeBlocks ≠ 0) (hfind : findIndex fs (splitPath path mem).1 = .inode cur)
      (hg : getNextEntry fs cur = (fs', some e)) (hn : getFreeInodeNum fs' = some n) :
      CreateResult fs path type mode mem (fillEntry fs' cur e n (splitPath path mem).2 type mode) 0

theorem findIndex_lt {k : Nat} (h : findIndex fs path = .inode k) : k < 1024 := by
  unfold findIndex at h
  split at h
  · split at h
    · rename_i hk
      cases h; exact hk
    · cases h
  · rename_i h'
    exact absurd h (h' k)

theorem rdCreate_result (h : rdCreate fs path type mode mem = some (fs', r)) :
    CreateResult fs path type mode mem fs' r := by
  unfold rdCreate at h
  split at h
  · cases h; exact .refused
  · split at h
    · cases h; exact .refused
    · rename_i hfb
      dsimp only at h
      split at h
      · cases h
      · cases h; exact .refused
      · rename_i cur hfind
        have hc := findIndex_lt hfind
        cases hg : getNextEntry fs cur with | mk fs₁ e => ?_
        rw [hg] at h
        cases e with
        | none => cases h; exact .noEntry hc hfb hfind hg
        | some e =>
          dsimp only at h
          split at h
          · cases h; exact .noEntry hc hfb hfind hg
          · rename_i n hn
            obtain ⟨rfl, rfl⟩ := Prod.mk.inj (Option.some.inj h)
            exact .filled hc hfb hfind hg hn

/-- The name `rd_create` copies ends inside the block of its entry. -/
def NameFits (fs : FileSys) (path : Str) (mem : Scratch) : Prop :=
  ∀ cur e, findIndex fs (splitPath path mem).1 = .inode cur → (getNextEntry fs cur).2 = some e →
    16 * e.slot + (splitPath path mem).2.length < 256

theorem CreateResult.owned (h : CreateResult fs path type mode mem fs' r) (ho : Owned every fs)
    (hfit : NameFits fs path mem) : Owned every fs' := by
  cases h with
  | refused => exact ho
  | noEntry hc _ _ hg => exact ((getNextEntry_next ho hc hg).extends ho).owned
  | filled hc _ hfind hg hn =>
    have hne := getNextEntry_next ho hc hg
    exact fillEntry_owned (hfit _ _ hfind (by rw [hg])) (hne.extends ho).owned (hne.plain ho).2

end ToyOS.Ramdisk.Creating
