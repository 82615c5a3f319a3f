import ToyOS.Ramdisk.Ownership

/-! # What writing to one inode may do

`Attach` is one allocation: an empty place takes a fresh block. `Grows k` is
what any number of allocations for inode `k`, stores into its leaf blocks and
changes of its size add up to; it is reflexive and transitive, so a loop has it
when every pass has.
-/
namespace ToyOS.Ramdisk.Growth
open ToyOS.Lib.Words ToyOS.Lib.Bits ToyOS.Lib.Ownership
open ToyOS.Ramdisk.Image ToyOS.Ramdisk.Blocks ToyOS.Ramdisk.Places ToyOS.Ramdisk.Allocation
open ToyOS.Ramdisk.Ownership

variable {live : Nat → Prop} {fs fs' fs'' : FileSys} {p q : Place} {b k : Nat}

theorem owned_congr (ho : Owned live fs)
    (hr : ∀ q, q.Valid → live q.node → ref fs' q = ref fs q)
    (hb : ∀ c, bit fs'.bitmap c = bit fs.bitmap c) (hf : fs'.freeBlocks = fs.freeBlocks) :
    Owned live fs' := by
  refine ⟨⟨fun {q c} h => ?_, fun {q r c} h h' => ?_⟩, fun hq lq => ?_, ?_⟩
  · obtain ⟨hq, lq, e⟩ := h
    have := ho.sound.marked (p := q) (b := c) ⟨hq, lq, hr q hq lq ▸ e⟩
    simpa [holding, hb] using this
  · exact ho.sound.unique ⟨h.1, h.2.1, hr q h.1 h.2.1 ▸ h.2.2⟩ ⟨h'.1, h'.2.1, hr r h'.1 h'.2.1 ▸ h'.2.2⟩
  · rw [hr _ hq lq]; exact ho.inRange hq lq
  · rw [hf, clearBits, clearCount_congr fun c _ => hb c]; exact ho.counted

/-! ## One allocation -/

/-- `fs'` is `fs` after the empty place `p` took the fresh block `b`, zeroed. -/
structure Attach (live : Nat → Prop) (p : Place) (b : Nat) (fs fs' : FileSys) : Prop where
  lt : b < 7931
  fresh : bit fs.bitmap b = false
  bits : ∀ c, bit fs'.bitmap c = (bit fs.bitmap c || decide (c = b))
  free : fs'.freeBlocks + 1 = fs.freeBlocks
  rooted : Rooted fs p
  empty : ref fs p = 0
  self : ref fs' p = ptrTo b
  other : ∀ q, q.Valid → live q.node → q ≠ p → ref fs' q = ref fs q
  zero : ∀ a, fs'.dataBlocks b a = 0
  blocks : ∀ c, c ≠ b → (∀ r i, p.up = some (r, i) → c ≠ blockOf (ref fs r)) →
    fs'.dataBlocks c = fs.dataBlocks c
  inodes : ∀ k', k' ≠ p.node → fs'.inodes k' = fs.inodes k'
  type : (fs'.inodes p.node).type = (fs.inodes p.node).type
  size : (fs'.inodes p.node).size = (fs.inodes p.node).size
  access : (fs'.inodes p.node).access = (fs.inodes p.node).access
  freeInodes : fs'.freeInodes = fs.freeInodes

/-- Taking a block and zeroing it changes no place: no index block is fresh. -/
theorem ref_allocate (ho : Owned live fs) (hb : bit fs.bitmap b = false) (hq : q.Valid)
    (lq : live q.node) : ref (allocateDataBlock fs b) q = ref fs q := by
  refine ref_congr (fun r hr _ => ?_) fun r i _ hv hn hr => ?_
  · cases r <;> simp only [Place.up, reduceCtorEq] at hr <;> rfl
  · have hne : ref fs r ≠ ptrTo b := ho.ref_ne hb (hv hq) (hn ▸ lq)
    refine allocate_ptrAt_ne fun j e => hne ?_
    injection e with e _
    rw [← e, ptrTo_blockOf hr]

/-- The pointer store that follows an allocation. -/
theorem attach_of_take (ho : Owned live fs) (hp : p.Valid) (lp : live p.node) (hr : Rooted fs p)
    (h0 : ref fs p = 0) (ht : takeBlock fs = some (fs', b)) :
    Attach live p b fs (fs'.setPtr (slotOf fs p) (ptrTo b)) := by
  obtain ⟨rfl, hfree, hlt, hb⟩ := takeBlock_some ht
  have hsame : ∀ q, q.Valid → live q.node → ref (allocateDataBlock fs b) q = ref fs q :=
    fun q hq lq => ref_allocate ho hb hq lq
  have hup : ∀ r i, p.up = some (r, i) → ref (allocateDataBlock fs b) r = ref fs r :=
    fun r i h => hsame r (Place.up_valid h hp) (up_live lp h)
  have hslot : slotOf (allocateDataBlock fs b) p = slotOf fs p := by
    cases hu : p.up with
    | none => cases p <;> simp only [Place.up, reduceCtorEq] at hu <;> rfl
    | some ri => rw [slotOf_up hu, slotOf_up hu, hup ri.1 ri.2 hu]
  have hroot : Rooted (allocateDataBlock fs b) p := fun r i h => by rw [hup r i h]; exact hr r i h
  have hpriv : Private live (allocateDataBlock fs b) := by
    intro q r hq lq hr' lr h1 h2
    rw [hsame q hq lq] at h1 h2
    exact ho.unique hq lq hr' lr h1 (h2.trans (hsame r hr' lr))
  have hv : ptrTo b < 2 ^ 32 := by unfold ptrTo; omega
  have hself := ref_setPtr_self hpriv hroot hp lp hv
  -- the slot written is not in the new block, whose slots are therefore still zero
  have hnot : ∀ i, slotOf fs p ≠ .indexBlock b i := by
    intro i e
    cases hu : p.up with
    | none => cases p <;> simp only [Place.up, reduceCtorEq] at hu <;> cases e
    | some ri =>
      rw [slotOf_up hu] at e
      injection e with e _
      refine ho.ref_ne hb (Place.up_valid hu hp) (up_live lp hu) ?_
      rw [← e, ptrTo_blockOf (hr ri.1 ri.2 hu)]
  have hchild : ∀ q i, q.up = some (p, i) → q.Valid →
      ref ((allocateDataBlock fs b).setPtr (slotOf (allocateDataBlock fs b) p) (ptrTo b)) q =
        ref (allocateDataBlock fs b) q := by
    intro q i hu _
    rw [ref_up hu, ref_up hu, hself, hsame p hp lp, h0, under, if_neg (ptrTo_ne_zero b),
      blockOf_ptrTo, under, if_pos rfl, hslot,
      ptrAt_setPtr_ne _ _ fun e => hnot i e.symm, allocate_ptrAt_self]
  have hother := fun q hq lq hne =>
    (ref_setPtr_ne hpriv hroot hp lp hchild (q := q) hq lq hne).trans (hsame q hq lq)
  rw [hslot] at hself hother
  refine
    { lt := hlt, fresh := hb, rooted := hr, empty := h0, self := hself, other := hother
      bits := fun c => ?_, free := ?_, zero := fun a => ?_, blocks := fun c hc hcr => ?_
      inodes := fun k' hk => ?_, type := ?_, size := ?_, access := ?_, freeInodes := ?_ }
  · rw [setPtr_bitmap, allocate_bitmap, setBitmap_of_lt _ hlt, bit_setBit]
  · have := ho.freeBlocks_lt
    rw [setPtr_freeBlocks, allocate_freeBlocks, u32Sub_of_le this (by omega)]
    omega
  · cases hs : slotOf fs p with
    | indexBlock c i =>
      have hne : b ≠ c := fun e => hnot i (by rw [hs, e])
      simp [FileSys.setPtr, setBlock_dataBlocks_ne _ _ hne]
    | _ => simp [FileSys.setPtr]
  · cases hs : slotOf fs p with
    | indexBlock x i =>
      cases hu : p.up with
      | none => cases p <;> simp only [Place.up, reduceCtorEq] at hu <;> cases hs
      | some ri =>
        rw [slotOf_up hu] at hs
        injection hs with e _
        have hne : c ≠ x := e ▸ hcr ri.1 ri.2 hu
        simp [FileSys.setPtr, setBlock_dataBlocks_ne _ _ hne, allocate_dataBlocks_ne _ _ hc]
    | _ => simp [FileSys.setPtr, allocate_dataBlocks_ne _ _ hc]
  · rw [setPtr_inodes_ne _ _ _ _ hk, allocate_inodes]
  · rw [setPtr_type, allocate_inodes]
  · rw [setPtr_size, allocate_inodes]
  · rw [setPtr_access, allocate_inodes]
  · simp

theorem ensureBlock_cases (ho : Owned live fs) (hp : p.Valid) (lp : live p.node)
    (hr : Rooted fs p) (h : ensureBlock fs (slotOf fs p) = some fs') :
    (ref fs p ≠ 0 ∧ fs' = fs) ∨ ∃ b, Attach live p b fs fs' := by
  unfold ensureBlock at h
  split at h
  · rename_i h0
    obtain ⟨⟨fs₁, b⟩, ht, rfl⟩ := Option.map_eq_some_iff.mp h
    exact .inr ⟨b, attach_of_take ho hp lp hr (by rw [ref_eq_ptrAt hr, h0]) ht⟩
  · rename_i h0
    exact .inl ⟨by rw [ref_eq_ptrAt hr]; exact h0, (Option.some.inj h).symm⟩

theorem Attach.attached (a : Attach live p b fs fs') (hp : p.Valid) (lp : live p.node) :
    Holding.Attached p b (holding live fs) (holding live fs') := by
  refine ⟨fun q c => ?_, fun c => by simp [holding, a.bits]⟩
  by_cases e : q = p
  · subst e
    simp only [holding, a.self, a.empty, hp, lp, true_and]
    unfold ptrTo; omega
  · constructor
    · rintro ⟨h1, h2, h3⟩; exact .inl ⟨h1, h2, a.other q h1 h2 e ▸ h3⟩
    · rintro (⟨h1, h2, h3⟩ | ⟨rfl, _⟩)
      · exact ⟨h1, h2, (a.other q h1 h2 e).trans h3⟩
      · exact absurd rfl e

theorem Attach.clear (a : Attach live p b fs fs') : clearBits fs' + 1 = clearBits fs :=
  clearCount_set a.lt a.fresh a.bits

theorem Attach.owned (a : Attach live p b fs fs') (ho : Owned live fs) (hp : p.Valid)
    (lp : live p.node) : Owned live fs' := by
  refine ⟨(a.attached hp lp).sound ho.sound (by simp [holding, a.fresh]), fun {q} hq lq => ?_, ?_⟩
  · by_cases e : q = p
    · rw [e, a.self]; have := a.lt; unfold ptrTo; omega
    · rw [a.other q hq lq e]; exact ho.inRange hq lq
  · have := a.clear
    have := a.free
    have := ho.counted
    omega

/-! ## Any number of them -/

/-- What operations on inode `k` leave alone: the pointers that were set, the
blocks and records of the other inodes, and the balance of counter and map. -/
structure Keeps (k : Nat) (fs fs' : FileSys) : Prop where
  owned : Owned every fs'
  keeps : ∀ q, q.Valid → (q.node = k → ref fs q ≠ 0) → ref fs' q = ref fs q
  blocks : ∀ q, q.Valid → q.node ≠ k → ref fs q ≠ 0 →
    fs'.dataBlocks (blockOf (ref fs q)) = fs.dataBlocks (blockOf (ref fs q))
  inodes : ∀ k', k' ≠ k → fs'.inodes k' = fs.inodes k'
  type : (fs'.inodes k).type = (fs.inodes k).type
  access : (fs'.inodes k).access = (fs.inodes k).access
  freeInodes : fs'.freeInodes = fs.freeInodes
  used : ∀ c, bit fs.bitmap c = true → bit fs'.bitmap c = true
  balance : fs'.freeBlocks + clearBits fs = fs.freeBlocks + clearBits fs'
  idle : fs.freeBlocks = 0 → fs'.bitmap = fs.bitmap

/-- Nothing that was marked is let go, and every new mark is for a block of `k`. -/
structure Grows (k : Nat) (fs fs' : FileSys) : Prop extends Keeps k fs fs' where
  tight : ∀ L : Place → Prop, (∀ p, p.node = k → L p) →
    (holding every fs).Tight L → (holding every fs').Tight L

theorem Keeps.refl (ho : Owned every fs) : Keeps k fs fs :=
  ⟨ho, fun _ _ _ => rfl, fun _ _ _ _ => rfl, fun _ _ => rfl, rfl, rfl, rfl, fun _ h => h, rfl,
    fun _ => rfl⟩

theorem Grows.refl (ho : Owned every fs) : Grows k fs fs := ⟨.refl ho, fun _ _ h => h⟩

theorem Keeps.trans (h : Keeps k fs fs') (h' : Keeps k fs' fs'') : Keeps k fs fs'' := by
  refine ⟨h'.owned, fun q hq hn => ?_, fun q hq hn h0 => ?_, fun k' hk => ?_, ?_, ?_, ?_, ?_, ?_,
    fun h0 => ?_⟩
  · have e := h.keeps q hq hn
    rw [h'.keeps q hq fun hk => by rw [e]; exact hn hk, e]
  · have e := h.keeps q hq fun hk => absurd hk hn
    have := h'.blocks q hq hn (by rw [e]; exact h0)
    rw [e] at this
    rw [this, h.blocks q hq hn h0]
  · rw [h'.inodes k' hk, h.inodes k' hk]
  · rw [h'.type, h.type]
  · rw [h'.access, h.access]
  · rw [h'.freeInodes, h.freeInodes]
  · exact fun c hc => h'.used c (h.used c hc)
  · have := h.balance; have := h'.balance; omega
  · have e := h.idle h0
    have hb := h.balance
    simp only [clearBits, e] at hb
    rw [h'.idle (by omega), e]

theorem Grows.trans (h : Grows k fs fs') (h' : Grows k fs' fs'') : Grows k fs fs'' :=
  ⟨h.toKeeps.trans h'.toKeeps, fun L hL ht => h'.tight L hL (h.tight L hL ht)⟩

theorem Attach.grows (a : Attach every p b fs fs') (ho : Owned every fs) (hp : p.Valid) :
    Grows p.node fs fs' where
  owned := a.owned ho hp trivial
  keeps q hq hn := a.other q hq trivial fun e => hn (e ▸ rfl) (e ▸ a.empty)
  blocks q hq hn h0 := by
    refine a.blocks _ (fun e => ?_) fun r i hu e => ?_
    · exact ho.ref_ne a.fresh hq trivial (by rw [← e, ptrTo_blockOf h0])
    · have hr : ref fs q = ref fs r := by
        rw [← ptrTo_blockOf h0, e, ptrTo_blockOf (a.rooted r i hu)]
      have := ho.unique hq trivial (Place.up_valid hu hp) trivial h0 hr
      exact hn (by rw [this, Place.up_node hu])
  inodes := a.inodes
  type := a.type
  access := a.access
  freeInodes := a.freeInodes
  used c hc := by rw [a.bits, hc, Bool.true_or]
  balance := by have := a.free; have := a.clear; omega
  idle h0 := by have := a.free; omega
  tight L hL ht := (a.attached hp trivial).tight ht (hL p rfl)

/-- Steps that leave every pointer and the map as they are. -/
theorem Grows.of_ref (ho : Owned every fs) (hr : ∀ q, q.Valid → ref fs' q = ref fs q)
    (hmap : fs'.bitmap = fs.bitmap) (hf : fs'.freeBlocks = fs.freeBlocks)
    (hfi : fs'.freeInodes = fs.freeInodes)
    (hblocks : ∀ q, q.Valid → q.node ≠ k → ref fs q ≠ 0 →
      fs'.dataBlocks (blockOf (ref fs q)) = fs.dataBlocks (blockOf (ref fs q)))
    (hinodes : ∀ k', k' ≠ k → fs'.inodes k' = fs.inodes k')
    (ht : (fs'.inodes k).type = (fs.inodes k).type)
    (ha : (fs'.inodes k).access = (fs.inodes k).access) : Grows k fs fs' where
  owned := owned_congr ho (fun q hq _ => hr q hq) (fun c => by rw [hmap]) hf
  keeps q hq _ := hr q hq
  blocks := hblocks
  inodes := hinodes
  type := ht
  access := ha
  freeInodes := hfi
  used c hc := by rw [hmap]; exact hc
  balance := by rw [hf, clearBits, clearBits, hmap]
  idle _ := hmap
  tight L _ h b hb := by
    simp only [holding, hmap] at hb
    obtain ⟨q, hL, hq, lq, e⟩ := h b hb
    exact ⟨q, hL, hq, lq, by rw [hr q hq]; exact e⟩

/-- A store into a block that only a leaf place of `k` may hold. -/
theorem grows_setBlock (ho : Owned every fs) {bytes : Bytes}
    (hb : ∀ q, q.Valid → ref fs q = ptrTo b → q.node = k ∧ ¬ q.IsIndex) :
    Grows k fs (fs.setBlock b bytes) := by
  refine .of_ref ho (fun q hq => ref_setBlock fun r hi hv _ e => (hb r (hv hq) e).2 hi) rfl rfl rfl
    (fun q hq hn h0 => setBlock_dataBlocks_ne _ _ fun e => hn ?_) (fun _ _ => rfl) rfl rfl
  exact (hb q hq (by rw [← e, ptrTo_blockOf h0])).1

theorem grows_leaf (ho : Owned every fs) (bytes : Bytes) (hp : p.Valid) (hl : ¬ p.IsIndex)
    (h0 : ref fs p ≠ 0) : Grows p.node fs (fs.setBlock (blockOf (ref fs p)) bytes) := by
  refine grows_setBlock ho fun q hq e => ?_
  have : p = q := ho.unique hp trivial hq trivial h0 (by rw [e, ptrTo_blockOf h0])
  exact this ▸ ⟨rfl, hl⟩

theorem grows_size (ho : Owned every fs) (n : Nat) :
    Grows k fs (fs.setInode k { fs.inodes k with size := n }) :=
  .of_ref ho (fun _ _ => ref_setInode fun _ => ⟨rfl, rfl, rfl⟩) rfl rfl rfl (fun _ _ _ _ => rfl)
    (fun _ h => setInode_inodes_ne _ _ h) (by simp) (by simp)

/-- Filling an empty slot keeps or takes a block, and the slot is set after. -/
theorem ensureBlock_grows (ho : Owned every fs) (hp : p.Valid) (hr : Rooted fs p)
    (h : ensureBlock fs (slotOf fs p) = some fs') :
    Grows p.node fs fs' ∧ ref fs' p ≠ 0 ∧ slotOf fs' p = slotOf fs p ∧ Rooted fs' p ∧
      (fs'.inodes p.node).size = (fs.inodes p.node).size := by
  rcases ensureBlock_cases ho hp trivial hr h with ⟨h0, rfl⟩ | ⟨b, a⟩
  · exact ⟨.refl ho, h0, rfl, hr, rfl⟩
  · have hup : ∀ r i, p.up = some (r, i) → ref fs' r = ref fs r := fun r i hu =>
      a.other r (Place.up_valid hu hp) trivial (Place.up_ne hu)
    refine ⟨a.grows ho hp, by rw [a.self]; exact ptrTo_ne_zero b, ?_, fun r i hu => ?_, a.size⟩
    · cases hu : p.up with
      | none => cases p <;> simp only [Place.up, reduceCtorEq] at hu <;> rfl
      | some ri => rw [slotOf_up hu, slotOf_up hu, hup ri.1 ri.2 hu]
    · rw [hup r i hu]; exact hr r i hu

/-! ## Only allocations -/

/-- The image with more blocks, all of them zero: no leaf block has changed. -/
structure Extends (k : Nat) (fs fs' : FileSys) : Prop extends Keeps k fs fs' where
  size : (fs'.inodes k).size = (fs.inodes k).size
  leaves : ∀ q, q.Valid → ¬ q.IsIndex → ref fs q ≠ 0 →
    fs'.dataBlocks (blockOf (ref fs q)) = fs.dataBlocks (blockOf (ref fs q))
  zero : ∀ q, q.Valid → ¬ q.IsIndex → ref fs q = 0 → ref fs' q ≠ 0 →
    ∀ a, fs'.dataBlocks (blockOf (ref fs' q)) a = 0

/-- No new mark is for a block out of reach. -/
def Linked (k : Nat) (fs fs' : FileSys) : Prop :=
  ∀ L : Place → Prop, (∀ p, p.node = k → L p) →
    (holding every fs).Tight L → (holding every fs').Tight L

theorem Linked.refl : Linked k fs fs := fun _ _ h => h

theorem Linked.trans (h : Linked k fs fs') (h' : Linked k fs' fs'') : Linked k fs fs'' :=
  fun L hL ht => h' L hL (h L hL ht)

theorem Extends.refl (ho : Owned every fs) : Extends k fs fs :=
  ⟨.refl ho, rfl, fun _ _ _ _ => rfl, fun _ _ _ h h' => absurd h h'⟩

theorem Extends.trans (h : Extends k fs fs') (h' : Extends k fs' fs'') : Extends k fs fs'' := by
  refine ⟨h.toKeeps.trans h'.toKeeps, by rw [h'.size, h.size], fun q hq hl h0 => ?_,
    fun q hq hl h0 h1 => ?_⟩
  · have e := h.keeps q hq fun _ => h0
    have := h'.leaves q hq hl (by rw [e]; exact h0)
    rw [e] at this
    rw [this, h.leaves q hq hl h0]
  · by_cases hm : ref fs' q = 0
    · exact h'.zero q hq hl hm h1
    · have e := h'.keeps q hq fun _ => hm
      rw [e, h'.leaves q hq hl hm]
      exact h.zero q hq hl h0 hm

theorem Attach.extends (a : Attach every p b fs fs') (ho : Owned every fs) (hp : p.Valid) :
    Extends p.node fs fs' where
  toKeeps := (a.grows ho hp).toKeeps
  size := a.size
  leaves q hq hl h0 := by
    refine a.blocks _ (fun e => ?_) fun r i hu e => hl ?_
    · exact ho.ref_ne a.fresh hq trivial (by rw [← e, ptrTo_blockOf h0])
    · have hr : ref fs q = ref fs r := by
        rw [← ptrTo_blockOf h0, e, ptrTo_blockOf (a.rooted r i hu)]
      rw [ho.unique hq trivial (Place.up_valid hu hp) trivial h0 hr]
      exact Place.up_isIndex hu
  zero q hq hl h0 h1 := by
    by_cases e : q = p
    · rw [e, a.self]; exact a.zero
    · exact absurd ((a.other q hq trivial e).trans h0) h1

theorem Attach.linked (a : Attach every p b fs fs') (hp : p.Valid) : Linked p.node fs fs' :=
  fun _ hL ht => (a.attached hp trivial).tight ht (hL p rfl)

/-- A block that no place refers to may hold anything. -/
theorem extends_setBlock (ho : Owned every fs) (bytes : Bytes)
    (hb : ∀ q, q.Valid → ref fs q ≠ ptrTo b) : Extends k fs (fs.setBlock b bytes) := by
  have hr : ∀ q, q.Valid → ref (fs.setBlock b bytes) q = ref fs q := fun q hq =>
    ref_setBlock fun r _ hv _ => hb r (hv hq)
  have hg : Grows k fs (fs.setBlock b bytes) :=
    grows_setBlock ho fun q hq e => absurd e (hb q hq)
  refine ⟨hg.toKeeps, rfl, fun q hq _ h0 => ?_, fun q hq _ h0 h1 => ?_⟩
  · exact setBlock_dataBlocks_ne _ _ fun e => hb q hq (by rw [← e, ptrTo_blockOf h0])
  · exact absurd ((hr q hq).trans h0) h1

/-- A block taken and not linked: it stays marked and nobody refers to it. -/
theorem extends_takeBlock (ho : Owned every fs) (h : takeBlock fs = some (fs', b)) :
    Extends k fs fs' ∧ (∀ q, q.Valid → ref fs' q = ref fs q) ∧ (∀ q, q.Valid → ref fs q ≠ ptrTo b) ∧
      b < 7931 ∧ (∀ a, fs'.dataBlocks b a = 0) ∧ fs'.freeBlocks + 1 = fs.freeBlocks := by
  obtain ⟨rfl, hfree, hlt, hb⟩ := takeBlock_some h
  have hr : ∀ q, q.Valid → ref (allocateDataBlock fs b) q = ref fs q :=
    fun q hq => ref_allocate ho hb hq trivial
  have hbits : ∀ c, bit (allocateDataBlock fs b).bitmap c = (bit fs.bitmap c || decide (c = b)) :=
    fun c => by rw [allocate_bitmap, setBitmap_of_lt _ hlt, bit_setBit]
  have hclear := clearCount_set hlt hb hbits
  have hf : (allocateDataBlock fs b).freeBlocks + 1 = fs.freeBlocks := by
    rw [allocate_freeBlocks, u32Sub_of_le ho.freeBlocks_lt (by omega)]; omega
  have hblocks : ∀ q, q.Valid → ref fs q ≠ 0 → (allocateDataBlock fs b).dataBlocks
      (blockOf (ref fs q)) = fs.dataBlocks (blockOf (ref fs q)) := fun q hq h0 =>
    allocate_dataBlocks_ne _ _ fun e =>
      ho.ref_ne hb hq trivial (by rw [← e, ptrTo_blockOf h0])
  refine ⟨⟨⟨⟨⟨fun {q c} h => ?_, fun {q r c} h h' => ?_⟩, fun {q} hq _ => ?_, ?_⟩,
    fun q hq _ => hr q hq, fun q hq _ h0 => hblocks q hq h0, fun _ _ => rfl, rfl, rfl, rfl,
    fun c hc => ?_, ?_, fun h0 => absurd h0 hfree⟩, rfl, fun q hq _ h0 => hblocks q hq h0,
    fun q hq _ h0 h1 => absurd ((hr q hq).trans h0) h1⟩, hr,
    fun q hq => ho.ref_ne hb hq trivial, hlt, allocate_dataBlocks_self fs b, hf⟩
  · obtain ⟨hq, _, e⟩ := h
    have := ho.sound.marked (p := q) (b := c) ⟨hq, trivial, by rw [← hr q hq]; exact e⟩
    simp only [holding] at this ⊢
    rw [hbits, this, Bool.true_or]
  · exact ho.sound.unique ⟨h.1, trivial, by rw [← hr q h.1]; exact h.2.2⟩
      ⟨h'.1, trivial, by rw [← hr r h'.1]; exact h'.2.2⟩
  · rw [hr q hq]; exact ho.inRange hq trivial
  · have := ho.counted
    simp only [clearBits] at *
    omega
  · rw [hbits, hc, Bool.true_or]
  · simp only [clearBits] at *
    omega

end ToyOS.Ramdisk.Growth
