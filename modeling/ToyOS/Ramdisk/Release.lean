import ToyOS.Ramdisk.Growth

/-! # Giving the blocks of an inode back

`my_clear_inode` walks the pointer tree of an inode and zeroes what it finds,
index blocks after their leaves. `Freed S` is the image in which the blocks at
the places in `S` have been given back; the walk adds a place, or an index
block with all that is below it, at a time.
-/
namespace ToyOS.Ramdisk.Release
open ToyOS.Lib.Loop ToyOS.Lib.Words ToyOS.Lib.Bits ToyOS.Lib.Ownership
open ToyOS.Ramdisk.Image ToyOS.Ramdisk.Blocks ToyOS.Ramdisk.Places ToyOS.Ramdisk.Allocation
open ToyOS.Ramdisk.Ownership

variable {fs₀ fs fs' : FileSys} {S T : Place → Prop} {p q r : Place} {k : Nat}

structure Freed (fs₀ : FileSys) (S : Place → Prop) (fs : FileSys) : Prop where
  inodes : fs.inodes = fs₀.inodes
  freeInodes : fs.freeInodes = fs₀.freeInodes
  bits : ∀ c, bit fs.bitmap c = true ↔
    bit fs₀.bitmap c = true ∧ ∀ p, p.Valid → S p → ref fs₀ p ≠ ptrTo c
  zero : ∀ p, p.Valid → S p → ref fs₀ p ≠ 0 → ∀ a, fs.dataBlocks (blockOf (ref fs₀ p)) a = 0
  same : ∀ c, (∀ p, p.Valid → S p → ref fs₀ p ≠ ptrTo c) → fs.dataBlocks c = fs₀.dataBlocks c
  balance : fs.freeBlocks + clearBits fs₀ = fs₀.freeBlocks + clearBits fs

theorem Freed.start (fs₀ : FileSys) : Freed fs₀ (fun _ => False) fs₀ where
  inodes := rfl
  freeInodes := rfl
  bits c := by simp
  zero _ _ h := h.elim
  same _ _ := rfl
  balance := rfl

/-- Places without a block may be added, and invalid ones. -/
theorem Freed.widen (h : Freed fs₀ S fs) (hST : ∀ q, q.Valid → S q → T q)
    (h0 : ∀ q, q.Valid → T q → ¬ S q → ref fs₀ q = 0) : Freed fs₀ T fs where
  inodes := h.inodes
  freeInodes := h.freeInodes
  balance := h.balance
  bits c := by
    rw [h.bits]
    refine and_congr_right fun _ => ⟨fun hs p hp hT e => ?_, fun ht p hp hS => ht p hp (hST p hp hS)⟩
    by_cases hS : S p
    · exact hs p hp hS e
    · exact absurd (e.symm.trans (h0 p hp hT hS)) (ptrTo_ne_zero c)
  zero p hp hT hr := by
    by_cases hS : S p
    · exact h.zero p hp hS hr
    · exact absurd (h0 p hp hT hS) hr
  same c hc := h.same c fun p hp hS => hc p hp (hST p hp hS)

/-- `p` is the index block `r` or a slot of it. -/
def Below (r p : Place) : Prop := p = r ∨ ∃ i, p.up = some (r, i)

section
variable (ho : Owned every fs₀)
include ho

/-- An index block not yet given back is as it was. -/
theorem Freed.ptrAt_under (h : Freed fs₀ S fs) (hr : r.Valid) (hn : ¬ S r) (h0 : ref fs₀ r ≠ 0)
    (i : Nat) : fs.ptrAt (.indexBlock (blockOf (ref fs₀ r)) i) = under fs₀ (ref fs₀ r) i := by
  have hs := h.same (blockOf (ref fs₀ r)) fun p hp hS e => by
    rw [ptrTo_blockOf h0] at e
    exact hn (ho.unique hr trivial hp trivial h0 e.symm ▸ hS)
  rw [under, if_neg h0]
  simp only [FileSys.ptrAt, hs]

/-- Giving back the block at one more place. -/
theorem Freed.freeBlock (h : Freed fs₀ S fs) (hp : p.Valid) (hn : ¬ S p) (h0 : ref fs₀ p ≠ 0) :
    Freed fs₀ (fun q => S q ∨ q = p) (freeBlock fs (blockOf (ref fs₀ p))) := by
  have hlt := ho.blockOf_lt hp trivial
  have hset : bit fs.bitmap (blockOf (ref fs₀ p)) = true := by
    refine (h.bits _).mpr ⟨ho.marked hp trivial h0, fun q hq hS e => hn ?_⟩
    rw [ptrTo_blockOf h0] at e
    exact ho.unique hp trivial hq trivial h0 e.symm ▸ hS
  have hbits : ∀ c, bit (Blocks.freeBlock fs (blockOf (ref fs₀ p))).bitmap c =
      (bit fs.bitmap c && !decide (c = blockOf (ref fs₀ p))) := fun c => by
    show bit (clearBitmap fs.bitmap _) c = _
    rw [clearBitmap_of_lt _ hlt, bit_clearBit]
  have hcount := clearCount_clear hlt hset hbits
  have hfree : (Blocks.freeBlock fs (blockOf (ref fs₀ p))).freeBlocks = fs.freeBlocks + 1 := by
    have := h.balance
    have := ho.counted
    have := clearBits_le fs
    exact u32_of_lt (by omega)
  refine ⟨h.inodes, h.freeInodes, fun c => ?_, fun q hq hS hr a => ?_, fun c hc => ?_, ?_⟩
  · rw [hbits, Bool.and_eq_true, h.bits, and_assoc]
    refine and_congr_right fun _ => ⟨fun hx q hq hS e => ?_, fun hx => ⟨fun q hq hS => ?_, ?_⟩⟩
    · rcases hS with hS | rfl
      · exact hx.1 q hq hS e
      · simp [e] at hx
    · exact hx q hq (.inl hS)
    · have := hx p hp (.inr rfl)
      simp only [Bool.not_eq_true', decide_eq_false_iff_not]
      rintro rfl
      exact this (ptrTo_blockOf h0).symm
  · by_cases e : blockOf (ref fs₀ q) = blockOf (ref fs₀ p)
    · rw [e]; simp [Blocks.freeBlock, FileSys.zeroBlock]
    · simp only [Blocks.freeBlock, FileSys.zeroBlock, setBlock_dataBlocks_ne _ _ e]
      rcases hS with hS | rfl
      · exact h.zero q hq hS hr a
      · exact absurd rfl e
  · have e : c ≠ blockOf (ref fs₀ p) := fun e =>
      hc p hp (.inr rfl) (by rw [e, ptrTo_blockOf h0])
    simp only [Blocks.freeBlock, FileSys.zeroBlock, setBlock_dataBlocks_ne _ _ e]
    exact h.same c fun q hq hS => hc q hq (.inl hS)
  · have := h.balance
    simp only [clearBits] at *
    omega

theorem Freed.freeSlot (h : Freed fs₀ S fs) (hp : p.Valid) (hn : ¬ S p) {slot : PtrSlot}
    (hs : fs.ptrAt slot = ref fs₀ p) :
    Freed fs₀ (fun q => S q ∨ q = p) (freeSlot fs slot) := by
  unfold Blocks.freeSlot
  rw [hs]
  split
  · rename_i h0
    refine h.widen (fun _ _ => .inl) fun q _ hT hS => ?_
    rw [hT.resolve_left hS]; exact h0
  · rename_i h0
    exact h.freeBlock ho hp hn h0

/-- An index block of leaves, given back with them. -/
theorem Freed.clearSingle (h : Freed fs₀ S fs) (leaf : Nat → Place) (hr : r.Valid)
    (hleaf : ∀ i, i < 64 → (leaf i).Valid ∧ (leaf i).up = some (r, i))
    (hn : ∀ q, Below r q → ¬ S q) (h0 : ref fs₀ r ≠ 0) :
    Freed fs₀ (fun q => S q ∨ Below r q) (clearInodeSingleIndirect fs (blockOf (ref fs₀ r))) := by
  have hloop := loop_inv (a := 0) (n := 64) (s := fs)
    (fun n fs' => Freed fs₀ (fun q => S q ∨ ∃ i < n, q = leaf i) fs')
    (f := fun i fs => Blocks.freeSlot fs (.indexBlock (blockOf (ref fs₀ r)) i))
    (h.widen (fun _ _ => .inl) fun q _ hT hS => absurd (hT.resolve_left hS) (by simp)) ?_
  · refine (hloop.freeBlock ho hr (fun hS => ?_) h0).widen (fun q _ hS => ?_) fun q hq hT hS => ?_
    · rcases hS with hS | ⟨i, hi, e⟩
      · exact hn r (.inl rfl) hS
      · exact Place.up_ne (hleaf i (by omega)).2 e
    · rcases hS with (hS | ⟨i, hi, rfl⟩) | rfl
      · exact .inl hS
      · exact .inr (.inr ⟨i, (hleaf i (by omega)).2⟩)
      · exact .inr (.inl rfl)
    · -- only slots past the end of the index block are left out, and they are invalid
      rcases hT with hS' | rfl | ⟨i, hu⟩
      · exact absurd (.inl (.inl hS')) hS
      · exact absurd (.inr rfl) hS
      · have hi : i < 64 := by
          cases q <;> simp only [Place.up, Option.some.injEq, Prod.mk.injEq, reduceCtorEq] at hu <;>
            obtain ⟨_, rfl⟩ := hu <;> simp only [Place.Valid] at hq <;> omega
        exact absurd (.inl (.inr ⟨i, by omega, Place.up_inj hu (hleaf i hi).2⟩)) hS
  · intro i fs' _ hi h'
    have hi : i < 64 := by omega
    obtain ⟨hv, hu⟩ := hleaf i hi
    have hnr : ¬ (S r ∨ ∃ j < i, r = leaf j) := by
      rintro (hS | ⟨j, hj, e⟩)
      · exact hn r (.inl rfl) hS
      · exact Place.up_ne (hleaf j (by omega)).2 e
    have hnl : ¬ (S (leaf i) ∨ ∃ j < i, leaf i = leaf j) := by
      rintro (hS | ⟨j, hj, e⟩)
      · exact hn _ (.inr ⟨i, hu⟩) hS
      · have := (hleaf j (by omega)).2
        rw [← e, hu] at this
        simp only [Option.some.injEq, Prod.mk.injEq, true_and] at this
        omega
    refine (h'.freeSlot ho hv hnl ?_).widen (fun q _ hS => ?_) fun q _ hT hS => ?_
    · rw [h'.ptrAt_under ho hr hnr h0, ref_up hu]
    · rcases hS with (hS | ⟨j, hj, e⟩) | e
      · exact .inl hS
      · exact .inr ⟨j, by omega, e⟩
      · exact .inr ⟨i, by omega, e⟩
    · exfalso
      rcases hT with hS' | ⟨j, hj, e⟩
      · exact hS (.inl (.inl hS'))
      · by_cases hji : j = i
        · exact hS (.inr (hji ▸ e))
        · exact hS (.inl (.inr ⟨j, by omega, e⟩))

theorem Freed.clearDouble (h : Freed fs₀ S fs) (hk : k < 1024)
    (hn : ∀ q, q = .double k ∨ (∃ i, Below (.index k i) q) → ¬ S q) (h0 : ref fs₀ (.double k) ≠ 0) :
    Freed fs₀ (fun q => S q ∨ q = .double k ∨ ∃ i, Below (.index k i) q)
      (clearInodeDoubleIndirect fs (blockOf (ref fs₀ (.double k)))) := by
  have hloop := loop_inv (a := 0) (n := 64) (s := fs)
    (fun n fs' => Freed fs₀ (fun q => S q ∨ ∃ i < n, Below (.index k i) q) fs')
    (f := fun i fs =>
      let singleIndirect := fs.ptrAt (.indexBlock (blockOf (ref fs₀ (.double k))) i)
      if singleIndirect = 0 then fs else clearInodeSingleIndirect fs (blockOf singleIndirect))
    (h.widen (fun _ _ => .inl) fun q _ hT hS => absurd (hT.resolve_left hS) (by simp)) ?_
  · have hd : ¬ (S (.double k) ∨ ∃ i < 0 + 64, Below (.index k i) (.double k)) := by
      rintro (hS | ⟨i, _, e | ⟨j, e⟩⟩)
      · exact hn _ (.inl rfl) hS
      · cases e
      · cases e
    refine (hloop.freeBlock ho (p := .double k) hk hd h0).widen (fun q _ hS => ?_)
      fun q hq hT hS => ?_
    · rcases hS with (hS | ⟨i, _, e⟩) | rfl
      · exact .inl hS
      · exact .inr (.inr ⟨i, e⟩)
      · exact .inr (.inl rfl)
    · exfalso
      rcases hT with hS' | rfl | ⟨i, hb⟩
      · exact hS (.inl (.inl hS'))
      · exact hS (.inr rfl)
      · have hi : i < 64 := by
          rcases hb with rfl | ⟨j, hu⟩
          · exact hq.2
          · exact (Place.up_valid hu hq).2
        exact hS (.inl (.inr ⟨i, by omega, hb⟩))
  · intro i fs' _ hi h'
    have hi : i < 64 := by omega
    have hnd : ¬ (S (.double k) ∨ ∃ j < i, Below (.index k j) (.double k)) := by
      rintro (hS | ⟨j, _, e | ⟨l, e⟩⟩)
      · exact hn _ (.inl rfl) hS
      · cases e
      · cases e
    have hni : ∀ q, Below (.index k i) q → ¬ (S q ∨ ∃ j < i, Below (.index k j) q) := by
      rintro q hb (hS | ⟨j, hj, hb'⟩)
      · exact hn _ (.inr ⟨i, hb⟩) hS
      · obtain rfl | ⟨l, hu⟩ := hb <;> obtain e | ⟨l', hu'⟩ := hb'
        · injection e; omega
        · cases hu'
        · rw [e] at hu; cases hu
        · rw [hu] at hu'
          simp only [Option.some.injEq, Prod.mk.injEq, Place.index.injEq] at hu'
          omega
    have hread : fs'.ptrAt (.indexBlock (blockOf (ref fs₀ (.double k))) i) =
        ref fs₀ (.index k i) := h'.ptrAt_under ho (r := .double k) hk hnd h0 i
    have hstep : ∀ fs₁, Freed fs₀ (fun q => (S q ∨ ∃ j < i, Below (.index k j) q) ∨
          Below (.index k i) q) fs₁ →
        Freed fs₀ (fun q => S q ∨ ∃ j < i + 1, Below (.index k j) q) fs₁ := fun fs₁ h₁ => by
      refine h₁.widen (fun q _ hS => ?_) fun q _ hT hS => (hS ?_).elim
      · rcases hS with (hS | ⟨j, hj, e⟩) | e
        · exact .inl hS
        · exact .inr ⟨j, by omega, e⟩
        · exact .inr ⟨i, by omega, e⟩
      · rcases hT with hS' | ⟨j, hj, e⟩
        · exact .inl (.inl hS')
        · by_cases hji : j = i
          · exact .inr (hji ▸ e)
          · exact .inl (.inr ⟨j, by omega, e⟩)
    dsimp only
    rw [hread]
    split
    · rename_i hz
      refine hstep _ (h'.widen (fun _ _ => .inl) fun q _ hT hS => ?_)
      rcases hT.resolve_left hS with rfl | ⟨l, hu⟩
      · exact hz
      · rw [ref_up hu, hz]; rfl
    · rename_i hz
      exact hstep _ (h'.clearSingle ho (r := .index k i) (fun j => .dleaf k i j) ⟨hk, hi⟩
        (fun j hj => ⟨⟨hk, hi, hj⟩, rfl⟩) hni hz)

/-- `my_clear_inode` gives back exactly the blocks of the inode. -/
theorem myClearInode_freed (hk : k < 1024) :
    Freed fs₀ (fun q => q.node = k) (myClearInode fs₀ k) := by
  have h1 := loop_inv (a := 0) (n := 8) (s := fs₀)
    (fun n fs => Freed fs₀ (fun q => ∃ i < n, q = .direct k i) fs)
    (f := fun i fs => Blocks.freeSlot fs (.pointers k i))
    ((Freed.start fs₀).widen (fun _ _ h => h.elim) fun q _ hT => absurd hT (by simp))
    fun i fs _ hi h => ?_
  · have h2 : Freed fs₀ (fun q => (∃ i < 8, q = .direct k i) ∨ Below (.single k) q)
        (let fs := loop (fun i fs => Blocks.freeSlot fs (.pointers k i)) 0 8 fs₀
        if (fs.inodes k).singleIndirectPtrs = 0 then fs
          else clearInodeSingleIndirect fs (blockOf (fs.inodes k).singleIndirectPtrs)) := by
      dsimp only
      have e : ((loop (fun i fs => Blocks.freeSlot fs (.pointers k i)) 0 8 fs₀).inodes
          k).singleIndirectPtrs = ref fs₀ (.single k) := by rw [h1.inodes]; rfl
      rw [e]
      split
      · rename_i h0
        refine h1.widen (fun _ _ => .inl) fun q _ hT hS => ?_
        rcases hT.resolve_left hS with rfl | ⟨i, hu⟩
        · exact h0
        · rw [ref_up hu, h0]; rfl
      · rename_i h0
        refine h1.clearSingle ho (r := .single k) (fun i => .sleaf k i) hk
          (fun i hi => ⟨⟨hk, hi⟩, rfl⟩) (fun q hb hS => ?_) h0
        obtain ⟨i, _, rfl⟩ := hS
        obtain e | ⟨j, e⟩ := hb <;> cases e
    have hall : ∀ fs, Freed fs₀ (fun q => ((∃ i < 8, q = .direct k i) ∨ Below (.single k) q) ∨
        q = .double k ∨ ∃ i, Below (.index k i) q) fs → Freed fs₀ (fun q => q.node = k) fs := by
      refine fun fs h => h.widen (fun q _ hS => ?_) fun q hq hT hS => (hS ?_).elim
      · obtain (⟨i, _, rfl⟩ | rfl | ⟨i, hu⟩) | rfl | ⟨i, rfl | ⟨j, hu⟩⟩ := hS <;>
          first | rfl | exact (Place.up_node hu).symm
      · subst hT
        cases q with
        | direct k i => exact .inl (.inl ⟨i, hq.2, rfl⟩)
        | single k => exact .inl (.inr (.inl rfl))
        | sleaf k i => exact .inl (.inr (.inr ⟨i, rfl⟩))
        | double k => exact .inr (.inl rfl)
        | index k i => exact .inr (.inr ⟨i, .inl rfl⟩)
        | dleaf k i j => exact .inr (.inr ⟨i, .inr ⟨j, rfl⟩⟩)
    refine hall _ ?_
    unfold myClearInode
    dsimp only at h2 ⊢
    generalize (if ((loop (fun i fs => Blocks.freeSlot fs (.pointers k i)) 0 8 fs₀).inodes
      k).singleIndirectPtrs = 0 then _ else _) = fs at h2 ⊢
    have e : (fs.inodes k).doubleIndirectPtrs = ref fs₀ (.double k) := by rw [h2.inodes]; rfl
    rw [e]
    split
    · rename_i h0
      refine h2.widen (fun _ _ => .inl) fun q _ hT hS => ?_
      rcases hT.resolve_left hS with rfl | ⟨i, rfl | ⟨j, hu⟩⟩
      · exact h0
      · rw [ref_up (r := .double k) (i := i) rfl, h0]; rfl
      · rw [ref_up hu, ref_up (p := .index k i) (r := .double k) (i := i) rfl, h0]; rfl
    · rename_i h0
      refine h2.clearDouble ho hk (fun q hb hS => ?_) h0
      obtain rfl | ⟨i, rfl | ⟨j, hu⟩⟩ := hb <;>
        obtain ⟨l, _, e⟩ | e | ⟨l, e⟩ := hS <;>
        first | (cases e; done) | (subst e; cases hu) | (rw [hu] at e; cases e)
  · have hn : ¬ ∃ j < i, Place.direct k i = .direct k j := by
      rintro ⟨j, hj, e⟩; injection e; omega
    refine (h.freeSlot ho (p := .direct k i) ⟨hk, by omega⟩ hn ?_).widen (fun q _ hS => ?_)
      fun q _ hT hS => (hS ?_).elim
    · simp only [FileSys.ptrAt, h.inodes, ref]
    · rcases hS with ⟨j, hj, e⟩ | e
      · exact ⟨j, by omega, e⟩
      · exact ⟨i, by omega, e⟩
    · obtain ⟨j, hj, e⟩ := hT
      by_cases hji : j = i
      · exact .inr (hji ▸ e)
      · exact .inl ⟨j, by omega, e⟩

/-! ## What is left -/

theorem Freed.ref_rest (h : Freed fs₀ (fun q => q.node = k) fs) (hq : q.Valid) (hn : q.node ≠ k) :
    ref fs q = ref fs₀ q := by
  refine ref_congr (fun r hr _ => ?_) fun r i _ hv hrn h0 => ?_
  · cases r <;> simp only [Place.up, reduceCtorEq] at hr <;> simp only [ref, FileSys.ptrAt, h.inodes]
  · have hr := hv hq
    rw [h.ptrAt_under ho hr (by rw [hrn]; exact hn) h0, under, if_neg h0]

theorem Freed.blocks_rest (h : Freed fs₀ (fun q => q.node = k) fs) (hq : q.Valid)
    (hn : q.node ≠ k) (h0 : ref fs₀ q ≠ 0) :
    fs.dataBlocks (blockOf (ref fs₀ q)) = fs₀.dataBlocks (blockOf (ref fs₀ q)) := by
  refine h.same _ fun p hp hS e => hn ?_
  rw [ptrTo_blockOf h0] at e
  rw [ho.unique hq trivial hp trivial h0 e.symm]; exact hS

theorem Freed.released (h : Freed fs₀ (fun q => q.node = k) fs) :
    Holding.Released (fun p => p.node = k) (holding every fs₀) (holding (· ≠ k) fs) := by
  refine ⟨fun p b => ⟨fun ⟨hp, hn, e⟩ => ?_, fun ⟨⟨hp, _, e⟩, hn⟩ => ?_⟩, fun b => ?_⟩
  · exact ⟨⟨hp, trivial, by rw [← h.ref_rest ho hp hn]; exact e⟩, hn⟩
  · exact ⟨hp, hn, by rw [h.ref_rest ho hp hn]; exact e⟩
  · refine (h.bits b).trans (and_congr_right fun _ => ?_)
    constructor
    · rintro hx ⟨p, hS, hp, _, e⟩; exact hx p hp hS e
    · exact fun hx p hp hS e => hx ⟨p, hS, hp, trivial, e⟩

theorem Freed.owned (h : Freed fs₀ (fun q => q.node = k) fs) : Owned (· ≠ k) fs where
  sound := (h.released ho).sound ho.sound
  inRange hp hn := by rw [h.ref_rest ho hp hn]; exact ho.inRange hp trivial
  counted := by have := h.balance; have := ho.counted; omega

end

theorem ref_zeroed (fs : FileSys) (p : Place) : ref (fs.setInode p.node .zero) p = 0 := by
  cases p <;> simp [ref, FileSys.ptrAt, Inode.zero, Place.node, under]

end ToyOS.Ramdisk.Release
