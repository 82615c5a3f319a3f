import ToyOS.Ramdisk.Places

/-! # What the allocator hands out -/
namespace ToyOS.Ramdisk.Allocation
open ToyOS.Lib.Loop ToyOS.Lib.Words ToyOS.Lib.Bits
open ToyOS.Ramdisk.Image ToyOS.Ramdisk.Blocks ToyOS.Ramdisk.Places

theorem setBitmap_of_lt (map : Bytes) {b : Nat} (hb : b < 7931) : setBitmap map b = setBit map b := by
  rw [setBitmap, if_neg (by omega)]

theorem clearBitmap_of_lt (map : Bytes) {b : Nat} (hb : b < 7931) :
    clearBitmap map b = clearBit map b := by
  rw [clearBitmap, if_neg (by omega)]

/-- Shifting a copy of the byte reads its bits from the low end. -/
theorem shifted_low_bit (m : UInt8) {i : Nat} (hi : i < 8) :
    ((m >>> UInt8.ofNat i) &&& 1 == 0) = !m.toNat.testBit i := by
  have hs : (UInt8.ofNat i).toNat % 8 = i := by simp; omega
  have hn : ((m >>> UInt8.ofNat i) &&& 1).toNat = m.toNat / 2 ^ i % 2 := by
    rw [UInt8.toNat_and, UInt8.toNat_shiftRight, hs, UInt8.toNat_one, Nat.and_one_is_mod,
      Nat.shiftRight_eq_div_pow]
  rw [Bool.eq_iff_iff, beq_iff_eq, ← UInt8.toNat_inj, hn, Nat.testBit_eq_decide_div_mod_eq]
  simp

/-- The two-level search returns the least clear bit of the map. -/
theorem getFree_some {fs : FileSys} {map : Bytes} {b : Nat}
    (h : getFreeBlockNumFromBitmap fs map = some b) :
    fs.freeBlocks ≠ 0 ∧ b < 7931 ∧ bit map b = false ∧ ∀ c, c < b → bit map c = true := by
  unfold getFreeBlockNumFromBitmap at h
  split at h
  · cases h
  · rename_i hfree
    split at h
    · cases h
    · rename_i pos hpos
      obtain ⟨_, hlt, hne, hbefore⟩ := firstIdx_eq_some.mp hpos
      have hne : map pos ≠ 255 := by simpa using hne
      obtain ⟨o, ho, hclear, hmin⟩ : ∃ o, o < 8 ∧ (map pos).toNat.testBit o = false ∧
          firstIdx (fun i => (map pos >>> UInt8.ofNat i) &&& 1 == 0) 0 8 = some o := by
        cases hf : firstIdx (fun i => (map pos >>> UInt8.ofNat i) &&& 1 == 0) 0 8 with
        | none =>
          obtain ⟨o, ho, hc⟩ := exists_clear_of_ne hne
          have := firstIdx_eq_none.mp hf o (by omega) (by omega)
          rw [shifted_low_bit _ ho, hc] at this
          cases this
        | some o =>
          obtain ⟨_, ho, hc, _⟩ := firstIdx_eq_some.mp hf
          rw [shifted_low_bit _ (by omega)] at hc
          exact ⟨o, by omega, by simpa using hc, rfl⟩
      simp only [hmin, Option.getD_some] at h
      split at h
      · cases h
      · cases h
        refine ⟨hfree, by omega, ?_, fun c hc => ?_⟩
        · simpa [bit, show (pos * 8 + o) / 8 = pos by omega, show (pos * 8 + o) % 8 = o by omega]
        · by_cases hp : c / 8 = pos
          · obtain ⟨_, _, _, hbit⟩ := firstIdx_eq_some.mp hmin
            have := hbit (c % 8) (by omega) (by omega)
            rw [shifted_low_bit _ (by omega)] at this
            simpa [bit, hp] using this
          · have hfull : map (c / 8) = 255 := by
              simpa using hbefore (c / 8) (by omega) (by omega)
            have h8 : c % 8 < 8 := Nat.mod_lt _ (by omega)
            simp only [bit, hfull, show (255 : UInt8).toNat = 2 ^ 8 - 1 by rfl,
              Nat.testBit_two_pow_sub_one, h8, decide_true]

/-- It fails only when the counter is zero or no usable bit is clear. -/
theorem getFree_none {fs : FileSys} {map : Bytes}
    (h : getFreeBlockNumFromBitmap fs map = none) (hfree : fs.freeBlocks ≠ 0) :
    ∀ c, c < 7931 → bit map c = true := by
  have hall : ∀ (n : Nat) (c : Nat), c / 8 < n → (∀ i, i < n → map i = 255) →
      bit map c = true := by
    intro n c hc hn
    have h8 : c % 8 < 8 := Nat.mod_lt _ (by omega)
    simp only [bit, hn _ hc, show (255 : UInt8).toNat = 2 ^ 8 - 1 by rfl,
      Nat.testBit_two_pow_sub_one, h8, decide_true]
  unfold getFreeBlockNumFromBitmap at h
  rw [if_neg hfree] at h
  split at h
  · rename_i hno
    intro c hc
    exact hall 1024 c (by omega) fun i hi => by
      simpa using firstIdx_eq_none.mp hno i (by omega) (by omega)
  · rename_i pos hpos
    obtain ⟨_, hlt, hne, hbefore⟩ := firstIdx_eq_some.mp hpos
    dsimp only at h
    split at h
    · rename_i hbig
      intro c hc
      by_cases hp : c / 8 = pos
      · cases hf : firstIdx (fun i => (map pos >>> UInt8.ofNat i) &&& 1 == 0) 0 8 with
        | none =>
          have := firstIdx_eq_none.mp hf (c % 8) (by omega) (by omega)
          rw [shifted_low_bit _ (by omega)] at this
          simpa [bit, hp] using this
        | some o =>
          obtain ⟨_, _, _, hbit⟩ := firstIdx_eq_some.mp hf
          rw [hf, Option.getD_some] at hbig
          have := hbit (c % 8) (by omega) (by omega)
          rw [shifted_low_bit _ (by omega)] at this
          simpa [bit, hp] using this
      · by_cases hl : c / 8 < pos
        · exact hall pos c hl fun i hi => by simpa using hbefore i (by omega) hi
        · have : (firstIdx (fun i => (map pos >>> UInt8.ofNat i) &&& 1 == 0) 0 8).getD 0 < 8 := by
            cases hf : firstIdx (fun i => (map pos >>> UInt8.ofNat i) &&& 1 == 0) 0 8 with
            | none => simp
            | some o => simpa using (firstIdx_eq_some.mp hf).2.1
          omega
    · cases h

theorem getFree_isSome {fs : FileSys} {map : Bytes} {c : Nat} (hfree : fs.freeBlocks ≠ 0)
    (hc : c < 7931) (hbit : bit map c = false) :
    ∃ b, getFreeBlockNumFromBitmap fs map = some b := by
  cases h : getFreeBlockNumFromBitmap fs map with
  | some b => exact ⟨b, rfl⟩
  | none => have := getFree_none h hfree c hc; simp [hbit] at this

/-! ## `allocate_data_block`, field by field -/

section
variable (fs : FileSys) (b : Nat)

@[simp] theorem allocate_inodes : (allocateDataBlock fs b).inodes = fs.inodes := rfl
@[simp] theorem allocate_freeInodes : (allocateDataBlock fs b).freeInodes = fs.freeInodes := rfl
@[simp] theorem allocate_freeBlocks :
    (allocateDataBlock fs b).freeBlocks = u32Sub fs.freeBlocks 1 := rfl
@[simp] theorem allocate_bitmap :
    (allocateDataBlock fs b).bitmap = setBitmap fs.bitmap b := rfl
@[simp] theorem allocate_dataBlocks_self (a : Nat) :
    (allocateDataBlock fs b).dataBlocks b a = 0 := by
  simp [allocateDataBlock, FileSys.zeroBlock]

theorem allocate_dataBlocks_ne {c : Nat} (h : c ≠ b) :
    (allocateDataBlock fs b).dataBlocks c = fs.dataBlocks c := by
  simp [allocateDataBlock, FileSys.zeroBlock, setBlock_dataBlocks_ne _ _ h]

theorem allocate_ptrAt_self (i : Nat) :
    (allocateDataBlock fs b).ptrAt (.indexBlock b i) = 0 :=
  load_zero fun _ _ _ => allocate_dataBlocks_self fs b _

end

theorem allocate_ptrAt_ne {fs : FileSys} {b : Nat} {s : PtrSlot}
    (h : ∀ i, s ≠ .indexBlock b i) : (allocateDataBlock fs b).ptrAt s = fs.ptrAt s := by
  cases s with
  | indexBlock c i =>
    have hc : c ≠ b := fun e => h i (by rw [e])
    simp [FileSys.ptrAt, allocate_dataBlocks_ne _ _ hc]
  | _ => rfl

theorem takeBlock_some {fs fs' : FileSys} {b : Nat} (h : takeBlock fs = some (fs', b)) :
    fs' = allocateDataBlock fs b ∧ fs.freeBlocks ≠ 0 ∧ b < 7931 ∧ bit fs.bitmap b = false := by
  unfold takeBlock at h
  cases hg : getFreeBlockNumFromBitmap fs fs.bitmap with
  | none => simp [hg] at h
  | some c =>
    simp only [hg, Option.map_some, Option.some.injEq, Prod.mk.injEq] at h
    obtain ⟨rfl, rfl⟩ := h
    obtain ⟨h1, h2, h3, _⟩ := getFree_some hg
    exact ⟨rfl, h1, h2, h3⟩

theorem takeBlock_none {fs : FileSys} (h : takeBlock fs = none) (hfree : fs.freeBlocks ≠ 0) :
    clearCount (bit fs.bitmap) 7931 = 0 := by
  have hn : getFreeBlockNumFromBitmap fs fs.bitmap = none := by simpa [takeBlock] using h
  rw [clearCount, Finset.card_eq_zero, Finset.filter_eq_empty_iff]
  intro c hc
  simp [getFree_none hn hfree c (Finset.mem_range.mp hc)]

end ToyOS.Ramdisk.Allocation
