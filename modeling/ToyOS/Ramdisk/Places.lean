import ToyOS.Lib.Ownership
import ToyOS.Ramdisk.Blocks

/-! # The places of a block pointer

An inode reaches its blocks through three levels of pointers. `Place` names the
4234 pointers of an inode by their position in that tree, `ref` follows the
tree to read one. The lemmas of this module say what a store to memory does to
the value of every place.
-/
namespace ToyOS.Ramdisk.Places
open ToyOS.Lib.Words ToyOS.Lib.Bits ToyOS.Lib.Ownership
open ToyOS.Ramdisk.Image ToyOS.Ramdisk.Blocks

/-! ## Reading back what was stored -/

section
variable (fs : FileSys)

@[simp] theorem setInode_inodes_self (k : Nat) (n : Inode) : (fs.setInode k n).inodes k = n := by
  simp [FileSys.setInode]

theorem setInode_inodes_ne {k k' : Nat} (n : Inode) (h : k' ≠ k) :
    (fs.setInode k n).inodes k' = fs.inodes k' := by
  simp [FileSys.setInode, Function.update_of_ne h]

@[simp] theorem setInode_dataBlocks (k : Nat) (n : Inode) :
    (fs.setInode k n).dataBlocks = fs.dataBlocks := rfl
@[simp] theorem setInode_bitmap (k : Nat) (n : Inode) : (fs.setInode k n).bitmap = fs.bitmap := rfl
@[simp] theorem setInode_freeBlocks (k : Nat) (n : Inode) :
    (fs.setInode k n).freeBlocks = fs.freeBlocks := rfl
@[simp] theorem setInode_freeInodes (k : Nat) (n : Inode) :
    (fs.setInode k n).freeInodes = fs.freeInodes := rfl

@[simp] theorem setBlock_dataBlocks_self (b : Nat) (bytes : Bytes) :
    (fs.setBlock b bytes).dataBlocks b = bytes := by
  simp [FileSys.setBlock]

theorem setBlock_dataBlocks_ne {b c : Nat} (bytes : Bytes) (h : c ≠ b) :
    (fs.setBlock b bytes).dataBlocks c = fs.dataBlocks c := by
  simp [FileSys.setBlock, Function.update_of_ne h]

@[simp] theorem setBlock_inodes (b : Nat) (bytes : Bytes) :
    (fs.setBlock b bytes).inodes = fs.inodes := rfl
@[simp] theorem setBlock_bitmap (b : Nat) (bytes : Bytes) :
    (fs.setBlock b bytes).bitmap = fs.bitmap := rfl
@[simp] theorem setBlock_freeBlocks (b : Nat) (bytes : Bytes) :
    (fs.setBlock b bytes).freeBlocks = fs.freeBlocks := rfl
@[simp] theorem setBlock_freeInodes (b : Nat) (bytes : Bytes) :
    (fs.setBlock b bytes).freeInodes = fs.freeInodes := rfl

@[simp] theorem setPtr_bitmap (s : PtrSlot) (p : Nat) : (fs.setPtr s p).bitmap = fs.bitmap := by
  cases s <;> rfl
@[simp] theorem setPtr_freeBlocks (s : PtrSlot) (p : Nat) :
    (fs.setPtr s p).freeBlocks = fs.freeBlocks := by
  cases s <;> rfl
@[simp] theorem setPtr_freeInodes (s : PtrSlot) (p : Nat) :
    (fs.setPtr s p).freeInodes = fs.freeInodes := by
  cases s <;> rfl

theorem setPtr_record (s : PtrSlot) (p k : Nat) :
    ((fs.setPtr s p).inodes k).type = (fs.inodes k).type ∧
      ((fs.setPtr s p).inodes k).size = (fs.inodes k).size ∧
      ((fs.setPtr s p).inodes k).access = (fs.inodes k).access := by
  cases s with
  | indexBlock b i => exact ⟨rfl, rfl, rfl⟩
  | pointers k' i | singleIndirect k' | doubleIndirect k' =>
    by_cases hk : k = k'
    · subst hk; simp [FileSys.setPtr]
    · simp [FileSys.setPtr, setInode_inodes_ne _ _ hk]

theorem setPtr_type (s : PtrSlot) (p k : Nat) :
    ((fs.setPtr s p).inodes k).type = (fs.inodes k).type := (setPtr_record fs s p k).1

theorem setPtr_size (s : PtrSlot) (p k : Nat) :
    ((fs.setPtr s p).inodes k).size = (fs.inodes k).size := (setPtr_record fs s p k).2.1

theorem setPtr_access (s : PtrSlot) (p k : Nat) :
    ((fs.setPtr s p).inodes k).access = (fs.inodes k).access := (setPtr_record fs s p k).2.2

theorem ptrAt_setPtr_self (s : PtrSlot) {p : Nat} (hp : p < 2 ^ 32) :
    (fs.setPtr s p).ptrAt s = p := by
  cases s with
  | indexBlock b i =>
    simp only [FileSys.setPtr, FileSys.ptrAt, setBlock_dataBlocks_self]
    exact load_store_self _ _ hp
  | _ => simp [FileSys.setPtr, FileSys.ptrAt]

/-- Two pointer slots never overlap. -/
theorem ptrAt_setPtr_ne {s s' : PtrSlot} (p : Nat) (h : s' ≠ s) :
    (fs.setPtr s p).ptrAt s' = fs.ptrAt s' := by
  cases s with
  | indexBlock b i =>
    cases s' with
    | indexBlock b' i' =>
      simp only [FileSys.setPtr, FileSys.ptrAt]
      by_cases hb : b' = b
      · subst hb
        have hi : i' ≠ i := fun e => h (by rw [e])
        rw [setBlock_dataBlocks_self]
        exact load_store_of_disjoint _ (by omega)
      · rw [setBlock_dataBlocks_ne _ _ hb]
    | _ => rfl
  | pointers k i =>
    cases s' with
    | indexBlock b' i' => rfl
    | pointers k' i' =>
      by_cases hk : k' = k
      · subst hk
        have hi : i' ≠ i := fun e => h (by rw [e])
        simp [FileSys.setPtr, FileSys.ptrAt, Function.update_of_ne hi]
      · simp [FileSys.setPtr, FileSys.ptrAt, setInode_inodes_ne _ _ hk]
    | singleIndirect k' | doubleIndirect k' =>
      by_cases hk : k' = k
      · subst hk; simp [FileSys.setPtr, FileSys.ptrAt]
      · simp [FileSys.setPtr, FileSys.ptrAt, setInode_inodes_ne _ _ hk]
  | singleIndirect k | doubleIndirect k =>
    cases s' with
    | indexBlock b' i' => rfl
    | pointers k' i' | singleIndirect k' | doubleIndirect k' =>
      by_cases hk : k' = k
      · subst hk; simp_all [FileSys.setPtr, FileSys.ptrAt]
      · simp [FileSys.setPtr, FileSys.ptrAt, setInode_inodes_ne _ _ hk]

end

/-! ## The pointer tree -/

inductive Place where
  | direct (k i : Nat)
  | single (k : Nat)
  | sleaf (k i : Nat)
  | double (k : Nat)
  | index (k i : Nat)
  | dleaf (k i j : Nat)
deriving DecidableEq

namespace Place

/-- The inode a place belongs to. -/
def node : Place → Nat
  | direct k _ | single k | sleaf k _ | double k | index k _ | dleaf k _ _ => k

def Valid : Place → Prop
  | direct k i => k < 1024 ∧ i < 8
  | single k | double k => k < 1024
  | sleaf k i | index k i => k < 1024 ∧ i < 64
  | dleaf k i j => k < 1024 ∧ i < 64 ∧ j < 64

/-- Places whose block is an index block. -/
def IsIndex : Place → Prop
  | single _ | double _ | index _ _ => True
  | direct _ _ | sleaf _ _ | dleaf _ _ _ => False

/-- The index block a pointer is stored in, and its slot there. -/
def up : Place → Option (Place × Nat)
  | direct _ _ | single _ | double _ => none
  | sleaf k i => some (single k, i)
  | index k i => some (double k, i)
  | dleaf k i j => some (index k i, j)

theorem Valid.node_lt {p : Place} (h : p.Valid) : p.node < 1024 := by
  cases p <;> simp only [Valid] at h <;> simp only [node] <;> omega

theorem up_node {p r : Place} {i : Nat} (h : p.up = some (r, i)) : r.node = p.node := by
  cases p <;> simp only [up, Option.some.injEq, Prod.mk.injEq, reduceCtorEq] at h <;>
    rw [← h.1] <;> rfl

theorem up_isIndex {p r : Place} {i : Nat} (h : p.up = some (r, i)) : r.IsIndex := by
  cases p <;> simp only [up, Option.some.injEq, Prod.mk.injEq, reduceCtorEq] at h <;>
    rw [← h.1] <;> trivial

theorem up_valid {p r : Place} {i : Nat} (h : p.up = some (r, i)) (hp : p.Valid) : r.Valid := by
  cases p <;> simp only [up, Option.some.injEq, Prod.mk.injEq, reduceCtorEq] at h <;>
    rw [← h.1] <;> simp only [Valid] at hp ⊢ <;> omega

theorem up_ne {p r : Place} {i : Nat} (h : p.up = some (r, i)) : r ≠ p := by
  cases p <;> simp only [up, Option.some.injEq, Prod.mk.injEq, reduceCtorEq] at h <;>
    obtain ⟨rfl, rfl⟩ := h <;> simp

theorem up_inj {p q r : Place} {i : Nat} (h : p.up = some (r, i)) (h' : q.up = some (r, i)) :
    p = q := by
  cases p <;> cases q <;>
    simp only [up, Option.some.injEq, Prod.mk.injEq, reduceCtorEq] at h h' <;>
    obtain ⟨h1, rfl⟩ := h <;> obtain ⟨h2, rfl⟩ := h' <;> subst h1 <;> simp_all

/-- The tree has three levels. -/
theorem up_up {p q r : Place} {i j : Nat} (h : p.up = some (q, i)) (h' : q.up = some (r, j)) :
    r.up = none := by
  cases p <;> simp only [up, Option.some.injEq, Prod.mk.injEq, reduceCtorEq] at h <;>
    obtain ⟨rfl, rfl⟩ := h <;>
    simp only [up, Option.some.injEq, Prod.mk.injEq, reduceCtorEq] at h'
  obtain ⟨rfl, rfl⟩ := h'; rfl

end Place

/-- The pointer in slot `i` of the index block `p` points to. -/
def under (fs : FileSys) (p i : Nat) : Nat :=
  if p = 0 then 0 else fs.ptrAt (.indexBlock (blockOf p) i)

/-- The pointer at a place; NULL when an index block on the way is missing. -/
def ref (fs : FileSys) : Place → Nat
  | .direct k i => fs.ptrAt (.pointers k i)
  | .single k => fs.ptrAt (.singleIndirect k)
  | .sleaf k i => under fs (fs.ptrAt (.singleIndirect k)) i
  | .double k => fs.ptrAt (.doubleIndirect k)
  | .index k i => under fs (fs.ptrAt (.doubleIndirect k)) i
  | .dleaf k i j => under fs (under fs (fs.ptrAt (.doubleIndirect k)) i) j

/-- Where the pointer of a place is stored. -/
def slotOf (fs : FileSys) : Place → PtrSlot
  | .direct k i => .pointers k i
  | .single k => .singleIndirect k
  | .sleaf k i => .indexBlock (blockOf (ref fs (.single k))) i
  | .double k => .doubleIndirect k
  | .index k i => .indexBlock (blockOf (ref fs (.double k))) i
  | .dleaf k i j => .indexBlock (blockOf (ref fs (.index k i))) j

/-- The index block that stores the pointer of `p` is there. -/
def Rooted (fs : FileSys) (p : Place) : Prop := ∀ r i, p.up = some (r, i) → ref fs r ≠ 0

theorem setPtr_inodes_ne (fs fs' : FileSys) (p : Place) (v : Nat) {k : Nat} (h : k ≠ p.node) :
    (fs.setPtr (slotOf fs' p) v).inodes k = fs.inodes k := by
  cases p with
  | direct | single | double => exact setInode_inodes_ne _ _ h
  | sleaf | index | dleaf => rfl

theorem ref_up {fs : FileSys} {p r : Place} {i : Nat} (h : p.up = some (r, i)) :
    ref fs p = under fs (ref fs r) i := by
  cases p <;> simp only [Place.up, Option.some.injEq, Prod.mk.injEq, reduceCtorEq] at h <;>
    obtain ⟨rfl, rfl⟩ := h <;> rfl

theorem slotOf_up {fs : FileSys} {p r : Place} {i : Nat} (h : p.up = some (r, i)) :
    slotOf fs p = .indexBlock (blockOf (ref fs r)) i := by
  cases p <;> simp only [Place.up, Option.some.injEq, Prod.mk.injEq, reduceCtorEq] at h <;>
    obtain ⟨rfl, rfl⟩ := h <;> rfl

theorem ref_eq_ptrAt {fs : FileSys} {p : Place} (h : Rooted fs p) :
    ref fs p = fs.ptrAt (slotOf fs p) := by
  cases hu : p.up with
  | none => cases p <;> simp only [Place.up, reduceCtorEq] at hu <;> rfl
  | some ri =>
    obtain ⟨r, i⟩ := ri
    rw [ref_up hu, slotOf_up hu, under, if_neg (h r i hu)]

theorem rooted_of_ref_ne {fs : FileSys} {p : Place} (h : ref fs p ≠ 0) : Rooted fs p := by
  intro r i hu hr
  rw [ref_up hu, hr] at h
  exact h rfl

/-- A place all of whose ancestors agree in two images has one pointer in both. -/
theorem ref_congr {fs fs' : FileSys} {p : Place}
    (hroot : ∀ q, q.up = none → q.node = p.node → ref fs' q = ref fs q)
    (hslot : ∀ q i, q.IsIndex → (p.Valid → q.Valid) → q.node = p.node → ref fs q ≠ 0 →
      fs'.ptrAt (.indexBlock (blockOf (ref fs q)) i) =
        fs.ptrAt (.indexBlock (blockOf (ref fs q)) i)) :
    ref fs' p = ref fs p := by
  -- one level down the tree
  have step : ∀ q r i, q.up = some (r, i) → (p.Valid → q.Valid) → q.node = p.node →
      ref fs' r = ref fs r → ref fs' q = ref fs q := by
    intro q r i hu hv hn hr
    rw [ref_up hu, ref_up hu, hr, under, under]
    split
    · rfl
    · rename_i h
      exact hslot r i (Place.up_isIndex hu) (fun hp => Place.up_valid hu (hv hp))
        ((Place.up_node hu).trans hn) h
  cases p with
  | direct k i | single k | double k => exact hroot _ rfl rfl
  | sleaf k i | index k i => exact step _ _ _ rfl id rfl (hroot _ rfl rfl)
  | dleaf k i j =>
    exact step _ _ _ rfl id rfl (step _ _ _ rfl (fun h => ⟨h.1, h.2.1⟩) rfl (hroot _ rfl rfl))

/-- Changing a block that is no index block of the inode. -/
theorem ref_setBlock {fs : FileSys} {b : Nat} {bytes : Bytes} {p : Place}
    (h : ∀ q, q.IsIndex → (p.Valid → q.Valid) → q.node = p.node → ref fs q ≠ ptrTo b) :
    ref (fs.setBlock b bytes) p = ref fs p := by
  refine ref_congr (fun q hq hn => ?_) fun q i hi hv hn hr => ?_
  · cases q <;> simp only [Place.up, reduceCtorEq] at hq <;> rfl
  · have hb : blockOf (ref fs q) ≠ b := fun e => h q hi hv hn (by rw [← e, ptrTo_blockOf hr])
    simp only [FileSys.ptrAt, setBlock_dataBlocks_ne _ _ hb]

/-- Changing another inode, or this one's other fields. -/
theorem ref_setInode {fs : FileSys} {k : Nat} {n : Inode} {p : Place}
    (h : p.node = k → n.pointers = (fs.inodes k).pointers ∧
      n.singleIndirectPtrs = (fs.inodes k).singleIndirectPtrs ∧
      n.doubleIndirectPtrs = (fs.inodes k).doubleIndirectPtrs) :
    ref (fs.setInode k n) p = ref fs p := by
  refine ref_congr (fun q hq hn => ?_) fun q i _ _ _ _ => rfl
  by_cases hk : q.node = k
  · obtain ⟨h1, h2, h3⟩ := h (hn ▸ hk)
    clear h hn
    subst hk
    cases q <;> simp only [Place.up, reduceCtorEq] at hq <;>
      simp_all [ref, FileSys.ptrAt, Place.node]
  · cases q <;> simp only [Place.up, reduceCtorEq] at hq <;> simp only [Place.node] at hk <;>
      simp [ref, FileSys.ptrAt, setInode_inodes_ne _ _ hk]

theorem ref_setSize (fs : FileSys) (k n : Nat) (p : Place) :
    ref (fs.setInode k { fs.inodes k with size := n }) p = ref fs p :=
  ref_setInode fun _ => ⟨rfl, rfl, rfl⟩

/-- The image with only the bitmap and the counters changed. -/
theorem ref_of_eq {fs fs' : FileSys} (hi : fs'.inodes = fs.inodes)
    (hd : fs'.dataBlocks = fs.dataBlocks) (p : Place) : ref fs' p = ref fs p := by
  refine ref_congr (fun q hq _ => ?_) fun q i _ _ _ _ => ?_
  · cases q <;> simp only [Place.up, reduceCtorEq] at hq <;> simp [ref, FileSys.ptrAt, hi]
  · simp [FileSys.ptrAt, hd]

end ToyOS.Ramdisk.Places
