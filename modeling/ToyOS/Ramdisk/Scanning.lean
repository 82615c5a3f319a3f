import Mathlib.Data.Finset.Card
import ToyOS.Ramdisk.Release
import ToyOS.Ramdisk.Directories

/-! # What clear_entry_in_current_dir does

The scan over a level clears the entries with the name in every block, and from
the first block with such an entry on it gives back each block that had exactly
one numbered entry. `Dropped` says which blocks these are, read off the image
before the scan; `Scanned` is the loop invariant.
-/
namespace ToyOS.Ramdisk.Scanning
open ToyOS.Lib.Loop ToyOS.Lib.Words ToyOS.Lib.Bits ToyOS.Lib.Ownership ToyOS.Lib.CStrings
open ToyOS.Ramdisk.Image ToyOS.Ramdisk.Blocks ToyOS.Ramdisk.Places ToyOS.Ramdisk.Allocation
open ToyOS.Ramdisk.Ownership ToyOS.Ramdisk.Directories

/-! ## One block -/

/-- Entries of block `b` with an inode number. -/
def numbered (fs : FileSys) (b : Nat) : Nat :=
  ((Finset.range 16).filter fun j => fs.entryNum b j ≠ 0).card

/-- One of the first `n` entries of block `b` has the name. -/
def named (fs : FileSys) (b : Nat) (filename : Str) (n : Nat) : Bool :=
  (List.range n).any fun j => fs.entryNameIs b j filename

theorem named_iff {fs : FileSys} {b : Nat} {filename : Str} {n : Nat} :
    named fs b filename n = true ↔ ∃ j < n, fs.entryNameIs b j filename = true := by
  simp [named]

theorem named_succ (fs : FileSys) (b : Nat) (filename : Str) (n : Nat) :
    named fs b filename (n + 1) = (named fs b filename n || fs.entryNameIs b n filename) := by
  simp [named, List.range_succ]

/-- The image with the first `n` entries of block `b` cleared where they have the name. -/
def clearTo (fs : FileSys) (b : Nat) (filename : Str) (n : Nat) : FileSys :=
  fs.setBlock b fun a =>
    if a < 16 * n ∧ fs.entryNameIs b (a / 16) filename = true then 0 else fs.dataBlocks b a

/-- Unmark the block of a slot and empty the slot. -/
def giveBack (fs : FileSys) (slot : PtrSlot) : FileSys :=
  { fs with bitmap := clearBitmap fs.bitmap (blockOf (fs.ptrAt slot)) }.setPtr slot 0

section
variable (fs : FileSys) (b : Nat) (filename : Str) (n : Nat)

theorem setBlock_self : fs.setBlock b (fs.dataBlocks b) = fs := by
  simp [FileSys.setBlock]

/-- What lies behind entry `n` is as it was. -/
theorem window_clearTo {a : Nat} (ha : 16 * n ≤ a) :
    (clearTo fs b filename n).window b a = fs.window b a := by
  unfold FileSys.window clearTo
  by_cases h : b + a / 256 = b
  · rw [h, setBlock_dataBlocks_self, if_neg (by omega)]
  · rw [setBlock_dataBlocks_ne _ _ h]

theorem entryNameIs_clearTo (s : Str) :
    (clearTo fs b filename n).entryNameIs b n s = fs.entryNameIs b n s :=
  strEq_congr fun _ ha _ => window_clearTo fs b filename n ha

theorem entryNum_clearTo : (clearTo fs b filename n).entryNum b n = fs.entryNum b n :=
  load_congr fun a ha _ => by
    rw [clearTo, setBlock_dataBlocks_self, if_neg (by omega)]

theorem clearTo_zero : clearTo fs b filename 0 = fs := by
  have e : (fun a => if a < 16 * 0 ∧ fs.entryNameIs b (a / 16) filename = true then 0
      else fs.dataBlocks b a) = fs.dataBlocks b := funext fun a => if_neg (by omega)
  rw [clearTo, e, setBlock_self]

theorem clearTo_succ_of_ne (h : fs.entryNameIs b n filename = false) :
    clearTo fs b filename (n + 1) = clearTo fs b filename n := by
  unfold clearTo
  congr 1
  funext a
  by_cases ha : a / 16 = n
  · rw [ha, h]; simp
  · rw [if_congr (and_congr_left fun _ => (by omega : a < 16 * (n + 1) ↔ a < 16 * n)) rfl rfl]

theorem clearTo_succ_of_eq (h : fs.entryNameIs b n filename = true) :
    clearTo fs b filename (n + 1) = (clearTo fs b filename n).clearEntry b n := by
  unfold clearTo FileSys.clearEntry
  simp only [FileSys.setBlock, Function.update_idem, Function.update_self]
  congr 2
  funext a
  by_cases ha : a / 16 = n
  · rw [ha, h, if_pos ⟨by omega, rfl⟩, if_pos (by omega)]
  · rw [if_neg (by omega : ¬ (16 * n ≤ a ∧ a < 16 * n + 16)),
      if_congr (and_congr_left fun _ => (by omega : a < 16 * (n + 1) ↔ a < 16 * n)) rfl rfl]

theorem clearTo_of_not_named (h : ∀ j, j < n → fs.entryNameIs b j filename = false) :
    clearTo fs b filename n = fs := by
  induction n with
  | zero => exact clearTo_zero fs b filename
  | succ n ih =>
    rw [clearTo_succ_of_ne fs b filename n (h n (by omega)), ih fun j hj => h j (by omega)]

end

/-- The sixteen passes over the entries of a block. -/
theorem scanEntries (filename : Str) (b : Nat) (s : Scan) :
    loop (scanEntry filename b) 0 16 s =
      { s with
        fs := clearTo s.fs b filename 16
        findEntry := s.findEntry || named s.fs b filename 16
        nonEmptyEntries := s.nonEmptyEntries + numbered s.fs b } := by
  have h := loop_inv (a := 0) (n := 16) (s := s) (f := scanEntry filename b)
    (fun n s' => s' = { s with
      fs := clearTo s.fs b filename n
      findEntry := s.findEntry || named s.fs b filename n
      nonEmptyEntries := s.nonEmptyEntries +
        ((Finset.range n).filter fun j => s.fs.entryNum b j ≠ 0).card }) ?_ ?_
  · exact h
  · simp [clearTo_zero, named]
  · rintro n _ _ _ rfl
    have hcard : ((Finset.range (n + 1)).filter fun j => s.fs.entryNum b j ≠ 0).card =
        ((Finset.range n).filter fun j => s.fs.entryNum b j ≠ 0).card +
          if s.fs.entryNum b n ≠ 0 then 1 else 0 := by
      rw [Finset.range_add_one, Finset.filter_insert]
      split
      · rw [Finset.card_insert_of_notMem (by simp)]
      · rfl
    simp only [scanEntry, entryNum_clearTo, named_succ, hcard]
    by_cases hnum : s.fs.entryNum b n ≠ 0
    · rw [if_pos hnum, if_pos hnum]
      dsimp only
      rw [entryNameIs_clearTo]
      cases hname : s.fs.entryNameIs b n filename with
      | true => simp [clearTo_succ_of_eq _ _ _ _ hname, Nat.add_assoc]
      | false => simp [clearTo_succ_of_ne _ _ _ _ hname, Nat.add_assoc]
    · rw [if_neg hnum, if_neg hnum]
      dsimp only
      rw [entryNameIs_clearTo]
      cases hname : s.fs.entryNameIs b n filename with
      | true => simp [clearTo_succ_of_eq _ _ _ _ hname]
      | false => simp [clearTo_succ_of_ne _ _ _ _ hname]

theorem scanBlock_absent {filename : Str} {slot : PtrSlot} {s : Scan} (h : s.fs.ptrAt slot = 0) :
    scanBlock filename slot s = { s with nonEmptyEntries := 0 } := by
  simp [scanBlock, h]

theorem scanBlock_present {filename : Str} {slot : PtrSlot} {s : Scan} {b : Nat}
    (h : s.fs.ptrAt slot ≠ 0) (hb : blockOf (s.fs.ptrAt slot) = b) :
    scanBlock filename slot s =
      let fs₁ := clearTo s.fs b filename 16
      let found := s.findEntry || named s.fs b filename 16
      if found = true ∧ numbered s.fs b = 1 then
        ⟨giveBack fs₁ slot, found, numbered s.fs b, s.nonEmptyBlocks + 1, true⟩
      else ⟨fs₁, found, numbered s.fs b, s.nonEmptyBlocks + 1, s.lastEntry⟩ := by
  subst hb
  simp only [scanBlock, if_neg h, scanEntries, Nat.zero_add]
  rfl

end ToyOS.Ramdisk.Scanning
