import ToyOS.Ramdisk.Allocation
import ToyOS.Ramdisk.Namespace

/-! # The bitmap

The search through bytes and the bits of one of them comes to the least clear
bit below 7931, and the two functions that change a bit leave the others alone.
-/
namespace ToyOS.Ramdisk.Bitmap
open ToyOS.Lib.Words ToyOS.Lib.Bits
open ToyOS.Ramdisk.Image ToyOS.Ramdisk.Blocks ToyOS.Ramdisk.Allocation
open ToyOS.Ramdisk.Namespace (emptyImage)

variable {fs : FileSys} {map : Bytes} {b c : Nat}

/-- Block `b` is the first of the usable blocks that is not taken. -/
structure LeastClear (map : Bytes) (b : Nat) : Prop where
  usable : b < 7931
  clear : bit map b = false
  least : ∀ c, c < b → bit map c = true

theorem LeastClear.unique (hb : LeastClear map b) (hc : LeastClear map c) : b = c := by
  rcases Nat.lt_trichotomy b c with hlt | heq | hlt
  · exact absurd (hc.least b hlt) (by simp [hb.clear])
  · exact heq
  · exact absurd (hb.least c hlt) (by simp [hc.clear])

theorem found_iff (hfree : fs.freeBlocks ≠ 0) :
    getFreeBlockNumFromBitmap fs map = some b ↔ LeastClear map b := by
  constructor
  · intro h
    obtain ⟨-, husable, hclear, hleast⟩ := getFree_some h
    exact ⟨husable, hclear, hleast⟩
  · intro hb
    obtain ⟨c, hc⟩ := getFree_isSome hfree hb.usable hb.clear
    obtain ⟨-, husable, hclear, hleast⟩ := getFree_some hc
    rw [hc, hb.unique ⟨husable, hclear, hleast⟩]

theorem exhausted_iff (hfree : fs.freeBlocks ≠ 0) :
    getFreeBlockNumFromBitmap fs map = none ↔ ∀ b, b < 7931 → bit map b = true := by
  refine ⟨fun h => getFree_none h hfree, fun hfull => ?_⟩
  cases h : getFreeBlockNumFromBitmap fs map with
  | none => rfl
  | some b =>
    have hb := (found_iff hfree).mp h
    exact absurd (hfull b hb.usable) (by simp [hb.clear])

/-- What the three functions on the bitmap are for. -/
structure Works (fs : FileSys) (map : Bytes) : Prop where
  found : ∀ b, getFreeBlockNumFromBitmap fs map = some b ↔ LeastClear map b
  exhausted : getFreeBlockNumFromBitmap fs map = none ↔ ∀ b, b < 7931 → bit map b = true
  set : ∀ b, b < 7931 → ∀ c, bit (setBitmap map b) c = if c = b then true else bit map c
  clear : ∀ b, b < 7931 → ∀ c, bit (clearBitmap map b) c = if c = b then false else bit map c
  undo : ∀ b, getFreeBlockNumFromBitmap fs map = some b → clearBitmap (setBitmap map b) b = map

/-- They do it on every map while `free_blocks` is positive. -/
theorem bitmap_works (fs : FileSys) (map : Bytes) (hfree : fs.freeBlocks ≠ 0) : Works fs map := by
  refine ⟨fun b => found_iff hfree, exhausted_iff hfree, fun b hb c => ?_, fun b hb c => ?_, fun b h => ?_⟩
  · rw [setBitmap_of_lt map hb, bit_setBit]
    by_cases hc : c = b
    · simp [hc]
    · simp [hc]
  · rw [clearBitmap_of_lt map hb, bit_clearBit]
    by_cases hc : c = b
    · simp [hc]
    · simp [hc]
  · have hb := (found_iff hfree).mp h
    rw [setBitmap_of_lt map hb.usable, clearBitmap_of_lt _ hb.usable]
    exact clearBit_setBit hb.clear

/-- A map with the first block taken, and the bits behind that of the last block set. -/
theorem bitmap_works_oneTaken : Works (emptyImage fun _ _ => 0)
    fun i => if i = 0 then 1 else if i = 991 then 0xf8 else 0 :=
  bitmap_works _ _ (by decide)

end ToyOS.Ramdisk.Bitmap
