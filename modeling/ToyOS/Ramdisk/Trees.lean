import ToyOS.Ramdisk.Release

/-! # The pointer tree of one inode

`my_clear_inode` on an inode whose own blocks are in order, whatever the rest of
the image is like: it looks at that inode only, so it does what it does in the
image in which the other inodes are empty.
-/
namespace ToyOS.Ramdisk.Trees
open ToyOS.Lib.Loop ToyOS.Lib.Words ToyOS.Lib.Bits ToyOS.Lib.Ownership
open ToyOS.Ramdisk.Image ToyOS.Ramdisk.Blocks ToyOS.Ramdisk.Places ToyOS.Ramdisk.Ownership
open ToyOS.Ramdisk.Release

variable {fs fs' s t : FileSys} {b k : Nat} {p q : Place}

/-- The 4234 places of inode `k`. -/
def placesOf (k : Nat) : List Place :=
  (List.range 8).map (.direct k) ++ (.single k :: (List.range 64).map (.sleaf k)) ++
    (.double k :: (List.range 64).flatMap fun i => .index k i :: (List.range 64).map (.dleaf k i))

/-- The blocks of inode `k`, index blocks included. -/
def tree (fs : FileSys) (k : Nat) : List Nat :=
  ((placesOf k).filter fun p => ref fs p ≠ 0).map fun p => blockOf (ref fs p)

/-- The pointers of inode `k` lead to distinct blocks, all of them allocated. -/
structure IsTree (fs : FileSys) (k : Nat) : Prop where
  distinct : (tree fs k).Nodup
  inRange : ∀ b ∈ tree fs k, b < 7931
  marked : ∀ b ∈ tree fs k, bit fs.bitmap b = true

/-- The blocks of inode `k` are given back, and nothing else has changed. -/
structure TreeFreed (fs fs' : FileSys) (k : Nat) : Prop where
  bits : ∀ b, bit fs'.bitmap b = true ↔ bit fs.bitmap b = true ∧ b ∉ tree fs k
  zeroed : ∀ b ∈ tree fs k, ∀ a, fs'.dataBlocks b a = 0
  kept : ∀ b, b ∉ tree fs k → fs'.dataBlocks b = fs.dataBlocks b
  counted : fs'.freeBlocks = u32 (fs.freeBlocks + (tree fs k).length)
  inodes : fs'.inodes = fs.inodes
  freeInodes : fs'.freeInodes = fs.freeInodes

theorem mem_placesOf (hk : k < 1024) : p ∈ placesOf k ↔ p.Valid ∧ p.node = k := by
  cases p <;> simp only [placesOf, List.mem_append, List.mem_map, List.mem_range, List.mem_cons,
    List.mem_flatMap, Place.Valid, Place.node, reduceCtorEq, Place.direct.injEq, Place.single.injEq,
    Place.sleaf.injEq, Place.double.injEq, Place.index.injEq, Place.dleaf.injEq] <;> grind

theorem mem_tree (hk : k < 1024) :
    b ∈ tree fs k ↔ ∃ p, p.Valid ∧ p.node = k ∧ ref fs p = ptrTo b := by
  simp only [tree, List.mem_map, List.mem_filter, mem_placesOf hk, decide_eq_true_eq]
  constructor
  · intro h
    obtain ⟨p, ⟨⟨hp, hn⟩, h0⟩, rfl⟩ := h
    exact ⟨p, hp, hn, (ptrTo_blockOf h0).symm⟩
  · intro h
    obtain ⟨p, hp, hn, e⟩ := h
    exact ⟨p, ⟨⟨hp, hn⟩, by rw [e]; exact ptrTo_ne_zero b⟩, by rw [e, blockOf_ptrTo]⟩

/-- A block is in the tree once. -/
theorem IsTree.unique (h : IsTree fs k) (hk : k < 1024) (hp : p.Valid) (np : p.node = k) (hq : q.Valid)
    (nq : q.node = k) (ep : ref fs p = ptrTo b) (eq : ref fs q = ptrTo b) : p = q := by
  have hmem : ∀ r : Place, r.Valid → r.node = k → ref fs r = ptrTo b →
      r ∈ (placesOf k).filter fun p => ref fs p ≠ 0 := fun r hr nr er => by
    simp only [List.mem_filter, mem_placesOf hk, decide_eq_true_eq]
    exact ⟨⟨hr, nr⟩, by rw [er]; exact ptrTo_ne_zero b⟩
  exact List.inj_on_of_nodup_map h.distinct (hmem p hp np ep) (hmem q hq nq eq) (by rw [ep, eq])

/-! ## The inode by itself -/

/-- The image with all inodes empty but `k`. -/
def alone (fs : FileSys) (k : Nat) : FileSys :=
  { fs with freeBlocks := 0, inodes := fun j => if j = k then fs.inodes k else .zero }

theorem ref_alone (hp : p.node = k) : ref (alone fs k) p = ref fs p := by
  subst hp
  refine ref_congr (fun q hq hn => ?_) fun q i _ _ _ _ => rfl
  have hsame : (alone fs p.node).inodes q.node = fs.inodes q.node := by
    rw [hn]
    exact if_pos rfl
  cases q with
  | direct j i | single j | double j =>
    have hsame : (alone fs p.node).inodes j = fs.inodes j := hsame
    simp only [ref, FileSys.ptrAt, hsame]
  | sleaf | index | dleaf => cases hq

theorem ref_others (hp : p.node ≠ k) : ref (alone fs k) p = 0 := by
  have hzero : (alone fs k).inodes p.node = .zero := if_neg hp
  cases p with
  | direct j i | single j | sleaf j i | double j | index j i | dleaf j i l =>
    have hzero : (alone fs k).inodes j = .zero := hzero
    simp [ref, FileSys.ptrAt, hzero, Inode.zero, under]

theorem IsTree.owned (h : IsTree fs k) (hk : k < 1024) : Owned every (alone fs k) := by
  have hnode : ∀ {p b}, (holding every (alone fs k)).holds p b →
      p.Valid ∧ p.node = k ∧ ref fs p = ptrTo b := by
    intro p b hp
    have hn : p.node = k := by
      by_contra hne
      exact ptrTo_ne_zero b (hp.2.2.symm.trans (ref_others hne))
    exact ⟨hp.1, hn, (ref_alone hn).symm.trans hp.2.2⟩
  refine ⟨⟨fun hp => ?_, fun hp hq => ?_⟩, fun {p} hp _ => ?_, Nat.zero_le _⟩
  · exact h.marked _ ((mem_tree hk).mpr ⟨_, hnode hp⟩)
  · obtain ⟨vp, np, ep⟩ := hnode hp
    obtain ⟨vq, nq, eq⟩ := hnode hq
    exact h.unique hk vp np vq nq ep eq
  · by_cases h0 : ref (alone fs k) p = 0
    · omega
    · have hlt := h.inRange _ ((mem_tree hk).mpr ⟨p, hnode ⟨hp, trivial, ref_eq_ptrTo h0⟩⟩)
      unfold blockOf at hlt
      omega

/-- `t`, which came of `fs` without a change of its inodes, agrees with `s` on what
`my_clear_inode` reads of inode `k`; `s` counts from 0. -/
structure Beside (fs : FileSys) (k : Nat) (s t : FileSys) : Prop where
  inode : s.inodes k = t.inodes k
  bitmap : s.bitmap = t.bitmap
  blocks : s.dataBlocks = t.dataBlocks
  count : t.freeBlocks = u32 (fs.freeBlocks + s.freeBlocks)
  inodes : t.inodes = fs.inodes
  freeInodes : t.freeInodes = fs.freeInodes

theorem Beside.freeBlock (h : Beside fs k s t) (b : Nat) : Beside fs k (freeBlock s b) (freeBlock t b) := by
  refine ⟨h.inode, congrArg (clearBitmap · b) h.bitmap, ?_, ?_, h.inodes, h.freeInodes⟩
  · simp only [Blocks.freeBlock, FileSys.zeroBlock, FileSys.setBlock, h.blocks]
  · show u32 (t.freeBlocks + 1) = u32 (fs.freeBlocks + u32 (s.freeBlocks + 1))
    rw [h.count]
    unfold u32
    omega

theorem Beside.freeSlot (h : Beside fs k s t) {slot : PtrSlot} (hs : s.ptrAt slot = t.ptrAt slot) :
    Beside fs k (freeSlot s slot) (freeSlot t slot) := by
  unfold Blocks.freeSlot
  rw [hs]
  split
  · exact h
  · exact h.freeBlock _

theorem Beside.ptrAt_index (h : Beside fs k s t) (b i : Nat) :
    s.ptrAt (.indexBlock b i) = t.ptrAt (.indexBlock b i) := by
  simp only [FileSys.ptrAt, h.blocks]

theorem Beside.clearSingle (h : Beside fs k s t) (b : Nat) :
    Beside fs k (clearInodeSingleIndirect s b) (clearInodeSingleIndirect t b) := by
  have hleaves : Beside fs k (loop (fun i fs => Blocks.freeSlot fs (.indexBlock b i)) 0 64 s)
      (loop (fun i fs => Blocks.freeSlot fs (.indexBlock b i)) 0 64 t) :=
    loop_related h fun i s' t' h' => h'.freeSlot (h'.ptrAt_index b i)
  unfold clearInodeSingleIndirect
  exact hleaves.freeBlock b

theorem Beside.clearIndex (h : Beside fs k s t) (b i : Nat) :
    Beside fs k
      (if s.ptrAt (.indexBlock b i) = 0 then s
        else clearInodeSingleIndirect s (blockOf (s.ptrAt (.indexBlock b i))))
      (if t.ptrAt (.indexBlock b i) = 0 then t
        else clearInodeSingleIndirect t (blockOf (t.ptrAt (.indexBlock b i)))) := by
  rw [h.ptrAt_index b i]
  split
  · exact h
  · exact h.clearSingle _

theorem Beside.clearDouble (h : Beside fs k s t) (b : Nat) :
    Beside fs k (clearInodeDoubleIndirect s b) (clearInodeDoubleIndirect t b) := by
  unfold clearInodeDoubleIndirect
  refine Beside.freeBlock ?_ b
  exact loop_related h fun i s' t' h' => h'.clearIndex b i

theorem Beside.myClearInode (h : Beside fs k s t) : Beside fs k (myClearInode s k) (myClearInode t k) := by
  have hdirect : Beside fs k (loop (fun i fs => Blocks.freeSlot fs (.pointers k i)) 0 8 s)
      (loop (fun i fs => Blocks.freeSlot fs (.pointers k i)) 0 8 t) :=
    loop_related h fun i s' t' h' => h'.freeSlot (by simp only [FileSys.ptrAt, h'.inode])
  unfold Blocks.myClearInode
  dsimp only
  generalize loop (fun i fs => Blocks.freeSlot fs (.pointers k i)) 0 8 s = s₁ at hdirect ⊢
  generalize loop (fun i fs => Blocks.freeSlot fs (.pointers k i)) 0 8 t = t₁ at hdirect ⊢
  have hsingle : Beside fs k
      (if (s₁.inodes k).singleIndirectPtrs = 0 then s₁
        else clearInodeSingleIndirect s₁ (blockOf (s₁.inodes k).singleIndirectPtrs))
      (if (t₁.inodes k).singleIndirectPtrs = 0 then t₁
        else clearInodeSingleIndirect t₁ (blockOf (t₁.inodes k).singleIndirectPtrs)) := by
    rw [hdirect.inode]
    split
    · exact hdirect
    · exact hdirect.clearSingle _
  generalize (if (s₁.inodes k).singleIndirectPtrs = 0 then _ else _) = s₂ at hsingle ⊢
  generalize (if (t₁.inodes k).singleIndirectPtrs = 0 then _ else _) = t₂ at hsingle ⊢
  rw [hsingle.inode]
  split
  · exact hsingle
  · exact hsingle.clearDouble _

/-! ## Its tree given back -/

/-- An inode freed: the bits of its blocks are cleared, these blocks are zeroed
and counted, and no other bit, block or inode has changed. -/
theorem myClearInode_tree (hk : k < 1024) (hw : fs.freeBlocks < 2 ^ 32) (h : IsTree fs k) :
    TreeFreed fs (myClearInode fs k) k := by
  have hfreed := myClearInode_freed (h.owned hk) hk
  have hbeside : Beside fs k (alone fs k) fs := by
    refine ⟨if_pos rfl, rfl, rfl, ?_, rfl, rfl⟩
    show fs.freeBlocks = u32 (fs.freeBlocks + 0)
    exact (u32_of_lt hw).symm
  have hrun := hbeside.myClearInode
  generalize myClearInode (alone fs k) k = s at hfreed hrun
  have hout : ∀ c, (∀ p, p.Valid → p.node = k → ref (alone fs k) p ≠ ptrTo c) ↔ c ∉ tree fs k := by
    intro c
    rw [mem_tree hk]
    push Not
    refine forall_congr' fun p => forall_congr' fun _ => forall_congr' fun hn => ?_
    rw [ref_alone hn]
  have hbits : ∀ c, bit s.bitmap c = true ↔ bit fs.bitmap c = true ∧ c ∉ tree fs k := fun c =>
    (hfreed.bits c).trans (and_congr_right fun _ => hout c)
  have hcount : s.freeBlocks = (tree fs k).length := by
    have hclear : clearBits s = clearBits (alone fs k) + (tree fs k).length :=
      clearCount_without h.distinct h.inRange h.marked hbits
    have hbalance := hfreed.balance
    have hzero : (alone fs k).freeBlocks = 0 := rfl
    omega
  refine ⟨fun c => ?_, fun b hb => ?_, fun b hb => ?_, ?_, ?_, ?_⟩
  · rw [← hrun.bitmap]
    exact hbits c
  · obtain ⟨p, hp, hn, e⟩ := (mem_tree hk).mp hb
    rw [← ref_alone hn] at e
    have hz := hfreed.zero p hp hn (by rw [e]; exact ptrTo_ne_zero b)
    rw [e, blockOf_ptrTo, hrun.blocks] at hz
    exact hz
  · rw [← hrun.blocks]
    exact hfreed.same b ((hout b).mpr hb)
  · rw [hrun.count, hcount]
  · exact hrun.inodes
  · exact hrun.freeInodes

/-- Inode 1 with a direct block 0 and an index block 1, whose only leaf is block 2. -/
def threeBlocks : FileSys where
  freeBlocks := 7928
  freeInodes := 1022
  inodes j := if j = 1 then ⟨some .reg, 2049, fun i => if i = 0 then ptrTo 0 else 0, ptrTo 1, 0, 0⟩ else .zero
  bitmap := fun i => if i = 0 then 7 else 0
  dataBlocks b := if b = 1 then store (fun _ => 0) 0 4 (ptrTo 2) else fun _ => 65

theorem threeBlocks_tree : tree threeBlocks 1 = [0, 1, 2] := by decide +kernel

theorem myClearInode_tree_threeBlocks : TreeFreed threeBlocks (myClearInode threeBlocks 1) 1 := by
  refine myClearInode_tree (by decide) (by decide) ⟨?_, ?_, ?_⟩
  · rw [threeBlocks_tree]
    decide
  · rw [threeBlocks_tree]
    decide
  · rw [threeBlocks_tree]
    decide

end ToyOS.Ramdisk.Trees
