import ToyOS.Ramdisk.Allocation

/-! # Block ownership

`holding` is the abstract view of an image: which place holds which block, and
which blocks the bitmap marks. `Owned` says that the marks protect the blocks.
Both look only at the inodes that satisfy `live`, because in the middle of
`rd_unlink` the pointers of the dying inode are already void.
-/
namespace ToyOS.Ramdisk.Ownership
open ToyOS.Lib.Words ToyOS.Lib.Bits ToyOS.Lib.Ownership
open ToyOS.Ramdisk.Image ToyOS.Ramdisk.Blocks ToyOS.Ramdisk.Places ToyOS.Ramdisk.Allocation

def holding (live : Nat → Prop) (fs : FileSys) : Holding Place Nat where
  holds p b := p.Valid ∧ live p.node ∧ ref fs p = ptrTo b
  used b := bit fs.bitmap b = true

/-- Clear bits among those of the 7931 blocks. -/
abbrev clearBits (fs : FileSys) : Nat := clearCount (bit fs.bitmap) 7931

structure Owned (live : Nat → Prop) (fs : FileSys) : Prop where
  sound : (holding live fs).Sound
  inRange : ∀ {p}, p.Valid → live p.node → ref fs p ≤ 7931
  counted : fs.freeBlocks ≤ clearBits fs

/-- All inodes count. -/
abbrev every : Nat → Prop := fun _ => True

section
variable {live : Nat → Prop} {fs fs' : FileSys} {p q : Place} {b : Nat}

theorem ref_eq_ptrTo (h : ref fs p ≠ 0) : ref fs p = ptrTo (blockOf (ref fs p)) :=
  (ptrTo_blockOf h).symm

theorem clearBits_le (fs : FileSys) : clearBits fs ≤ 7931 := by
  refine (Finset.card_filter_le _ _).trans ?_
  simp

theorem Owned.unique (h : Owned live fs) (hp : p.Valid) (lp : live p.node) (hq : q.Valid)
    (lq : live q.node) (hr : ref fs p ≠ 0) (he : ref fs p = ref fs q) : p = q :=
  h.sound.unique ⟨hp, lp, ref_eq_ptrTo hr⟩ ⟨hq, lq, he ▸ ref_eq_ptrTo hr⟩

theorem Owned.marked (h : Owned live fs) (hp : p.Valid) (lp : live p.node) (hr : ref fs p ≠ 0) :
    bit fs.bitmap (blockOf (ref fs p)) = true :=
  h.sound.marked ⟨hp, lp, ref_eq_ptrTo hr⟩

theorem Owned.ref_ne (h : Owned live fs) (hb : bit fs.bitmap b = false) (hp : p.Valid)
    (lp : live p.node) : ref fs p ≠ ptrTo b := by
  intro e
  have := h.sound.marked (p := p) (b := b) ⟨hp, lp, e⟩
  simp [holding, hb] at this

theorem Owned.blockOf_lt (h : Owned live fs) (hp : p.Valid) (lp : live p.node) :
    blockOf (ref fs p) < 7931 := by
  have := h.inRange hp lp
  unfold blockOf; omega

theorem Owned.freeBlocks_lt (h : Owned live fs) : fs.freeBlocks < 2 ^ 32 := by
  have := h.counted
  have := clearBits_le fs
  omega

theorem up_live (h : live q.node) {r : Place} {i : Nat} (hu : q.up = some (r, i)) : live r.node := by
  rw [Place.up_node hu]; exact h

/-! ## Storing one pointer -/

/-- No block is referred to from two places. -/
def Private (live : Nat → Prop) (fs : FileSys) : Prop :=
  ∀ p q, p.Valid → live p.node → q.Valid → live q.node → ref fs p ≠ 0 → ref fs p = ref fs q → p = q

theorem Owned.priv (h : Owned live fs) : Private live fs :=
  fun _ _ hp lp hq lq hr he => h.unique hp lp hq lq hr he

theorem ref_setPtr_root (p : Place) (v : Nat) (hu : q.up = none) (hne : q ≠ p) :
    ref (fs.setPtr (slotOf fs p) v) q = ref fs q := by
  have hs : slotOf fs q ≠ slotOf fs p := by
    cases q <;> simp only [Place.up, reduceCtorEq] at hu <;> cases p <;> simp_all [slotOf]
  cases q <;> simp only [Place.up, reduceCtorEq] at hu <;> exact ptrAt_setPtr_ne fs v hs

/-- The slots of two places in the same or in different index blocks differ,
because no two places share an index block. -/
theorem ptrAt_setPtr_under (hu : Private live fs) (hr : Rooted fs p) (hp : p.Valid)
    (lp : live p.node) (v : Nat) (hq : q.Valid) (lq : live q.node) (hne : q ≠ p)
    {r : Place} {i : Nat} (hup : q.up = some (r, i)) (h0 : ref fs r ≠ 0) :
    (fs.setPtr (slotOf fs p) v).ptrAt (.indexBlock (blockOf (ref fs r)) i) =
      fs.ptrAt (.indexBlock (blockOf (ref fs r)) i) := by
  refine ptrAt_setPtr_ne _ _ fun e => ?_
  cases hpu : p.up with
  | none => cases p <;> simp only [Place.up, reduceCtorEq] at hpu <;> cases e
  | some ri =>
    obtain ⟨r', i'⟩ := ri
    rw [slotOf_up hpu] at e
    injection e with hb hi
    have he : ref fs r = ref fs r' := by
      rw [ref_eq_ptrTo h0, ref_eq_ptrTo (hr r' i' hpu), hb]
    have hrr := hu r r' (Place.up_valid hup hq) (up_live lq hup) (Place.up_valid hpu hp)
      (up_live lp hpu) h0 he
    subst hrr hi
    exact hne (Place.up_inj hup hpu)

/-- The index block that stores the pointer keeps its place. -/
theorem ref_setPtr_up (hu : Private live fs) (hr : Rooted fs p) (hp : p.Valid)
    (lp : live p.node) (v : Nat) {r : Place} {i : Nat} (hup : p.up = some (r, i)) :
    ref (fs.setPtr (slotOf fs p) v) r = ref fs r := by
  have hne := Place.up_ne hup
  cases hur : r.up with
  | none => exact ref_setPtr_root p v hur hne
  | some rj =>
    obtain ⟨r₂, j⟩ := rj
    have h2 : r₂ ≠ p := by
      rintro rfl
      rw [Place.up_up hup hur] at hup
      cases hup
    rw [ref_up hur, ref_up hur, ref_setPtr_root p v (Place.up_up hup hur) h2, under, under]
    split
    · rfl
    · rename_i h0
      exact ptrAt_setPtr_under hu hr hp lp v (Place.up_valid hup hp) (up_live lp hup) hne hur h0

theorem ref_setPtr_self (hu : Private live fs) (hr : Rooted fs p) (hp : p.Valid)
    (lp : live p.node) {v : Nat} (hv : v < 2 ^ 32) :
    ref (fs.setPtr (slotOf fs p) v) p = v := by
  have hup := fun r i => ref_setPtr_up hu hr hp lp v (r := r) (i := i)
  have hs : slotOf (fs.setPtr (slotOf fs p) v) p = slotOf fs p := by
    cases hpu : p.up with
    | none => cases p <;> simp only [Place.up, reduceCtorEq] at hpu <;> rfl
    | some ri =>
      have hri := hup ri.1 ri.2 hpu
      generalize fs.setPtr (slotOf fs p) v = fs' at hri
      rw [slotOf_up hpu, slotOf_up hpu, hri]
  have hr' : Rooted (fs.setPtr (slotOf fs p) v) p := fun r i h => by
    rw [hup r i h]; exact hr r i h
  rw [ref_eq_ptrAt hr', hs, ptrAt_setPtr_self _ _ hv]

/-- A store to the slot of `p` changes no other place, provided the places
directly below `p` read what they read before. -/
theorem ref_setPtr_ne (hu : Private live fs) (hr : Rooted fs p) (hp : p.Valid) (lp : live p.node)
    {v : Nat} (hchild : ∀ q i, q.up = some (p, i) → q.Valid →
      ref (fs.setPtr (slotOf fs p) v) q = ref fs q)
    (hq : q.Valid) (lq : live q.node) (hne : q ≠ p) :
    ref (fs.setPtr (slotOf fs p) v) q = ref fs q := by
  -- one level down the tree
  have step : ∀ q r i, q.up = some (r, i) → q.Valid → live q.node → q ≠ p →
      (r ≠ p → ref (fs.setPtr (slotOf fs p) v) r = ref fs r) →
      ref (fs.setPtr (slotOf fs p) v) q = ref fs q := by
    intro q r i hup hq lq hne ih
    by_cases hrp : r = p
    · subst hrp; exact hchild q i hup hq
    · rw [ref_up hup, ref_up hup, ih hrp, under, under]
      split
      · rfl
      · rename_i h0
        exact ptrAt_setPtr_under hu hr hp lp v hq lq hne hup h0
  cases hqu : q.up with
  | none => exact ref_setPtr_root p v hqu hne
  | some ri =>
    obtain ⟨r, i⟩ := ri
    refine step q r i hqu hq lq hne fun hrp => ?_
    cases hru : r.up with
    | none => exact ref_setPtr_root p v hru hrp
    | some rj =>
      obtain ⟨r₂, j⟩ := rj
      exact step r r₂ j hru (Place.up_valid hqu hq) (up_live lq hqu) hrp
        fun hr2 => ref_setPtr_root p v (Place.up_up hqu hru) hr2

end
end ToyOS.Ramdisk.Ownership
