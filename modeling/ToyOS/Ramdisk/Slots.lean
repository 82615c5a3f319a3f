import ToyOS.Ramdisk.Growth
import ToyOS.Ramdisk.Directories

/-! # Where get_next_entry finds a free entry

It looks at one leaf place of the directory and takes the entry there, or a
fresh block for it. Two searches end elsewhere: a full block ends the search in
the levels below it (`Blocked`), and a missing index block in the double level
is taken but not linked (`Unlinked`).
-/
namespace ToyOS.Ramdisk.Slots
open ToyOS.Lib.Loop ToyOS.Lib.Words ToyOS.Lib.Bits
open ToyOS.Ramdisk.Image ToyOS.Ramdisk.Blocks ToyOS.Ramdisk.Places ToyOS.Ramdisk.Allocation
open ToyOS.Ramdisk.Ownership ToyOS.Ramdisk.Growth ToyOS.Ramdisk.Directories

variable {fs fs' : FileSys} {p q r : Place} {e : Option EntryPtr} {b k i j seg : Nat}

/-- The block is there and all of its entries are numbered. -/
def Full (fs : FileSys) (p : Place) : Prop :=
  ref fs p ≠ 0 ∧ ∀ j, j < 16 → fs.entryNum (blockOf (ref fs p)) j ≠ 0

/-- What the search finds at one leaf place. -/
inductive AtLeaf (fs : FileSys) (p : Place) : FileSys → Option EntryPtr → Prop
  | found (h0 : ref fs p ≠ 0) {j : Nat} (hj : j < 16)
      (hz : fs.entryNum (blockOf (ref fs p)) j = 0) :
      AtLeaf fs p fs (some ⟨blockOf (ref fs p), j⟩)
  | fresh {fs' : FileSys} {b : Nat} (h : Attach every p b fs fs') : AtLeaf fs p fs' (some ⟨b, 0⟩)
  | noBlock (h0 : ref fs p = 0) (h : fs.freeBlocks = 0) : AtLeaf fs p fs none
  | full (h : Full fs p) : AtLeaf fs p fs none

theorem freeBlocks_of_takeBlock (ho : Owned every fs) (h : takeBlock fs = none) :
    fs.freeBlocks = 0 := by
  by_contra hf
  have := takeBlock_none h hf
  have := ho.counted
  simp only [clearBits] at this
  omega

theorem AtLeaf.extends (h : AtLeaf fs p fs' e) (ho : Owned every fs) (hp : p.Valid) :
    Extends p.node fs fs' ∧ Linked p.node fs fs' := by
  cases h with
  | fresh a => exact ⟨a.extends ho hp, a.linked hp⟩
  | _ => exact ⟨.refl ho, .refl⟩

/-- The entry is in the block of the place, and it is free. -/
theorem AtLeaf.entry {x : EntryPtr} (h : AtLeaf fs p fs' (some x)) :
    ref fs' p = ptrTo x.block ∧ x.slot < 16 ∧ fs'.entryNum x.block x.slot = 0 ∧ ¬ Full fs p := by
  cases h with
  | found h0 hj hz =>
    exact ⟨(ptrTo_blockOf h0).symm, hj, hz, fun hf => hf.2 _ hj hz⟩
  | fresh a =>
    exact ⟨a.self, Nat.zero_lt_succ 15, load_zero fun _ _ _ => a.zero _, fun hf => hf.1 a.empty⟩

theorem AtLeaf.none (h : AtLeaf fs p fs' none) :
    fs' = fs ∧ (Full fs p ∨ ref fs p = 0 ∧ fs.freeBlocks = 0) := by
  cases h with
  | noBlock h0 h => exact ⟨rfl, .inr ⟨h0, h⟩⟩
  | full h => exact ⟨rfl, .inl h⟩

/-- The search in a block that is there. -/
theorem getNextDirEntry_atLeaf (h0 : ref fs p ≠ 0) :
    AtLeaf fs p fs (getNextDirEntry fs (blockOf (ref fs p))) := by
  unfold getNextDirEntry
  cases hf : firstIdx (fun j => fs.entryNum (blockOf (ref fs p)) j == 0) 0 16 with
  | none =>
    refine .full ⟨h0, fun j hj => ?_⟩
    simpa using firstIdx_eq_none.mp hf j (by omega) (by omega)
  | some j =>
    obtain ⟨_, hj, hz, _⟩ := firstIdx_eq_some.mp hf
    exact .found h0 (by omega) (by simpa using hz)

theorem getNextDirEntrySingle_atLeaf (ho : Owned every fs) (hp : p.Valid)
    (hu : p.up = some (r, i)) (h0 : ref fs r ≠ 0) :
    AtLeaf fs p (getNextDirEntrySingle fs (blockOf (ref fs r)) i).1
      (getNextDirEntrySingle fs (blockOf (ref fs r)) i).2 := by
  have hr : Rooted fs p := fun r' i' hu' => by
    rw [hu] at hu'
    obtain ⟨rfl, rfl⟩ := Prod.mk.inj (Option.some.inj hu')
    exact h0
  have hptr : fs.ptrAt (.indexBlock (blockOf (ref fs r)) i) = ref fs p := by
    rw [ref_eq_ptrAt hr, slotOf_up hu]
  unfold getNextDirEntrySingle
  dsimp only
  rw [hptr]
  split
  · rename_i hz
    split
    · rename_i ht
      exact .noBlock hz (freeBlocks_of_takeBlock ho ht)
    · rename_i ht
      rw [← slotOf_up hu]
      exact .fresh (attach_of_take ho hp trivial hr hz ht)
  · rename_i hz
    exact getNextDirEntry_atLeaf hz

theorem nextEntryDirect_ends (ho : Owned every fs) (hk : k < 1024) (hi : i < 8) :
    (nextEntryDirect k i fs).Ends (fun fs' => fs' = fs ∧ Full fs (.direct k i))
      fun fs' e => AtLeaf fs (.direct k i) fs' e ∧ ¬ Full fs (.direct k i) := by
  have hr : Rooted fs (.direct k i) := fun _ _ h => by cases h
  unfold nextEntryDirect
  dsimp only
  split
  · rename_i hz
    have hn : ¬ Full fs (.direct k i) := fun hf => hf.1 hz
    split
    · rename_i ht
      exact ⟨.noBlock hz (freeBlocks_of_takeBlock ho ht), hn⟩
    · rename_i ht
      exact ⟨.fresh (attach_of_take (p := .direct k i) ho ⟨hk, hi⟩ trivial hr hz ht), hn⟩
  · rename_i hz
    have h := getNextDirEntry_atLeaf (p := .direct k i) hz
    split
    · rename_i e he
      have he : getNextDirEntry fs (blockOf (ref fs (.direct k i))) = some e := he
      rw [he] at h
      exact ⟨h, h.entry.2.2.2⟩
    · rename_i he
      have he : getNextDirEntry fs (blockOf (ref fs (.direct k i))) = none := he
      rw [he] at h
      exact ⟨rfl, h.none.2.resolve_right fun hx => hz hx.1⟩

/-! ## The double level -/

/-- Blocks taken before the leaf block when the index block is missing. -/
def need (fs : FileSys) (k : Nat) : Nat := if ref fs (.double k) = 0 then 2 else 1

/-- What the search in the double level finds at slot `j` of index block `i`. -/
inductive DoubleEntry (fs : FileSys) (k i j : Nat) : FileSys → Option EntryPtr → Prop
  | leaf {fs' : FileSys} {e : Option EntryPtr} (h0 : ref fs (.index k i) ≠ 0)
      (h : AtLeaf fs (.dleaf k i j) fs' e) : DoubleEntry fs k i j fs' e
  | unlinked {fs' : FileSys} {b : Nat} (h0 : ref fs (.index k i) = 0) (hx : Extends k fs fs')
      (hb : ∀ q, q.Valid → ref fs' q ≠ ptrTo b) (hlt : b < 7931)
      (hneed : need fs k < fs.freeBlocks) : DoubleEntry fs k i j fs' (some ⟨b, 0⟩)
  | short {fs' : FileSys} (h0 : ref fs (.index k i) = 0) (hx : Extends k fs fs')
      (hneed : fs.freeBlocks ≤ need fs k)
      (hlink : fs.freeBlocks < need fs k → Linked k fs fs') : DoubleEntry fs k i j fs' none

/-- The index block that is taken and forgotten. -/
theorem getNextDirEntryDouble_missing (ho : Owned every fs) {c : Nat} (seg : Nat)
    (h0 : fs.ptrAt (.indexBlock c (seg / 64)) = 0) :
    (∃ fs' b, getNextDirEntryDouble fs c seg = (fs', some ⟨b, 0⟩) ∧ Extends k fs fs' ∧
        (∀ q, q.Valid → ref fs' q ≠ ptrTo b) ∧ b < 7931 ∧ 1 < fs.freeBlocks ∧
        ∀ q, q.Valid → ref fs' q = ref fs q) ∨
      ∃ fs', getNextDirEntryDouble fs c seg = (fs', none) ∧ Extends k fs fs' ∧
        fs.freeBlocks ≤ 1 ∧ (fs.freeBlocks = 0 → fs' = fs) ∧
        ∀ q, q.Valid → ref fs' q = ref fs q := by
  unfold getNextDirEntryDouble
  dsimp only
  rw [if_pos h0]
  cases ht : takeBlock fs with
  | none =>
    have := freeBlocks_of_takeBlock ho ht
    exact .inr ⟨fs, rfl, .refl ho, by omega, fun _ => rfl, fun _ _ => rfl⟩
  | some fb =>
    obtain ⟨fs₁, b⟩ := fb
    obtain ⟨hx, hr, hb, _, hz, hf⟩ := extends_takeBlock (k := k) ho ht
    have hslot : fs₁.ptrAt (.indexBlock b (seg % 64)) = 0 := load_zero fun a _ _ => hz a
    dsimp only
    unfold getNextDirEntrySingle
    dsimp only
    rw [if_pos hslot]
    cases ht₁ : takeBlock fs₁ with
    | none =>
      have := freeBlocks_of_takeBlock hx.owned ht₁
      exact .inr ⟨fs₁, rfl, hx, by omega, fun _ => by omega, hr⟩
    | some fc =>
      obtain ⟨fs₂, c'⟩ := fc
      obtain ⟨hx₁, hr₁, hc, hlt, _, hf₁⟩ := extends_takeBlock (k := k) hx.owned ht₁
      -- the pointer goes into the forgotten block
      have hx₂ := extends_setBlock (k := k) (b := b) hx₁.owned
        (store (fs₂.dataBlocks b) (4 * (seg % 64)) 4 (ptrTo c')) fun q hq => by
          rw [hr₁ q hq, hr q hq]; exact hb q hq
      have e : ∀ q, q.Valid →
          ref (fs₂.setPtr (.indexBlock b (seg % 64)) (ptrTo c')) q = ref fs₂ q := fun q hq =>
        ref_setBlock fun r _ hv _ => by rw [hr₁ r (hv hq), hr r (hv hq)]; exact hb r (hv hq)
      refine .inl ⟨_, c', rfl, hx.trans (hx₁.trans hx₂), fun q hq => ?_, hlt, by omega,
        fun q hq => ?_⟩
      · rw [e q hq, hr₁ q hq]
        exact hc q hq
      · rw [e q hq, hr₁ q hq, hr q hq]

theorem nextEntryDouble_out (h : ¬ (72 ≤ seg ∧ seg < 4168)) : nextEntryDouble fs k seg = (fs, none) := by
  rw [nextEntryDouble, if_neg h]

theorem ensureBlock_none (ho : Owned every fs) (hr : Rooted fs p)
    (h : ensureBlock fs (slotOf fs p) = none) : ref fs p = 0 ∧ fs.freeBlocks = 0 := by
  unfold ensureBlock at h
  split at h
  · rename_i h0
    exact ⟨by rw [ref_eq_ptrAt hr]; exact h0,
      freeBlocks_of_takeBlock ho (Option.map_eq_none_iff.mp h)⟩
  · cases h

theorem ensureBlock_some (hr : Rooted fs p) (h0 : ref fs p ≠ 0) :
    ensureBlock fs (slotOf fs p) = some fs := by
  rw [ensureBlock, ← ref_eq_ptrAt hr, if_neg h0]

/-- The double-indirect part. -/
theorem nextEntryDouble_spec (ho : Owned every fs) (hk : k < 1024) (h72 : 72 ≤ seg)
    (h4168 : seg < 4168) :
    DoubleEntry fs k ((seg - 72) / 64) ((seg - 72) % 64) (nextEntryDouble fs k seg).1
      (nextEntryDouble fs k seg).2 := by
  have hr : ∀ fs, Rooted fs (.double k) := fun _ _ _ h => by cases h
  have hi : (seg - 72) / 64 < 64 := by omega
  have hup : (Place.index k ((seg - 72) / 64)).up = some (.double k, (seg - 72) / 64) := rfl
  unfold nextEntryDouble
  rw [if_pos ⟨h72, h4168⟩]
  by_cases hd : ref fs (.double k) = 0
  · have h0 : ref fs (.index k ((seg - 72) / 64)) = 0 := by rw [ref_up hup, hd]; rfl
    have hneed : need fs k = 2 := if_pos hd
    cases he : ensureBlock fs (.doubleIndirect k) with
    | none =>
      have := (ensureBlock_none (p := .double k) ho (hr fs) he).2
      exact .short h0 (.refl ho) (by omega) fun _ => .refl
    | some fs₁ =>
      rcases ensureBlock_cases (p := .double k) ho hk trivial (hr fs) he with ⟨hne, _⟩ | ⟨b, a⟩
      · exact absurd hd hne
      have hx₁ := a.extends ho (p := .double k) hk
      have hl₁ := a.linked (p := .double k) hk
      have hfree := a.free
      dsimp only
      rw [show fs₁.ptrAt (.doubleIndirect k) = ptrTo b from a.self, blockOf_ptrTo]
      obtain ⟨fs', b', e, hx, hb, hlt, h1, -⟩ | ⟨fs', e, hx, h1, hs, -⟩ :=
        getNextDirEntryDouble_missing (k := k) hx₁.owned (c := b) (seg - 72)
          (load_zero fun x _ _ => a.zero x)
      · rw [e]
        exact .unlinked h0 (hx₁.trans hx) hb hlt (by omega)
      · rw [e]
        exact .short h0 (hx₁.trans hx) (by omega) fun hlt => by
          rw [hs (by omega)]; exact hl₁
  · have hneed : need fs k = 1 := if_neg hd
    rw [show ensureBlock fs (.doubleIndirect k) = some fs from
      ensureBlock_some (p := .double k) (hr fs) hd]
    have hptr : fs.ptrAt (.indexBlock (blockOf (ref fs (.double k))) ((seg - 72) / 64)) =
        ref fs (.index k ((seg - 72) / 64)) := by rw [ref_up hup, under, if_neg hd]
    dsimp only
    rw [show fs.ptrAt (.doubleIndirect k) = ref fs (.double k) from rfl]
    by_cases h0 : ref fs (.index k ((seg - 72) / 64)) = 0
    · obtain ⟨fs', b', e, hx, hb, hlt, h1, -⟩ | ⟨fs', e, hx, h1, hs, -⟩ :=
        getNextDirEntryDouble_missing (k := k) ho (seg - 72) (hptr.trans h0)
      · rw [e]
        exact .unlinked h0 hx hb hlt (by omega)
      · rw [e]
        exact .short h0 hx (by omega) fun hlt => by
          rw [hs (by omega)]; exact .refl
    · refine .leaf h0 ?_
      unfold getNextDirEntryDouble
      dsimp only
      rw [hptr, if_neg h0]
      exact getNextDirEntrySingle_atLeaf (p := .dleaf k ((seg - 72) / 64) ((seg - 72) % 64)) ho
        ⟨hk, hi, Nat.mod_lt _ (by omega)⟩ rfl h0

/-! ## The whole search -/

/-- The segment the double level is entered with. -/
def DoubleSeg (fs : FileSys) (k seg : Nat) : Prop :=
  (seg = 72 ∧ 8 ≤ (fs.inodes k).size / 256 ∧ (fs.inodes k).size / 256 < 72 ∧
    Full fs (.sleaf k ((fs.inodes k).size / 256 - 8))) ∨
  (seg = (fs.inodes k).size / 256 ∧ 72 ≤ seg ∧ seg < 4168)

/-- The search ends in the double level at an index block that is missing. -/
def Unlinked (fs : FileSys) (k : Nat) : Prop :=
  ∃ seg, DoubleSeg fs k seg ∧ ref fs (.index k ((seg - 72) / 64)) = 0

/-- The search ends at full blocks, whatever is free elsewhere. -/
def Blocked (fs : FileSys) (k : Nat) : Prop :=
  ((fs.inodes k).size / 256 < 8 ∧
    ∀ i, (fs.inodes k).size / 256 ≤ i → i < 8 → Full fs (.direct k i)) ∨
  (∃ seg, DoubleSeg fs k seg ∧ Full fs (.dleaf k ((seg - 72) / 64) ((seg - 72) % 64))) ∨
  4168 ≤ (fs.inodes k).size / 256

/-- The answer of `get_next_entry` for inode `k`. -/
inductive NextEntry (fs : FileSys) (k : Nat) : FileSys → Option EntryPtr → Prop
  | leaf {p : Place} {fs₁ fs' : FileSys} {e : EntryPtr} (hp : p.Valid) (hl : ¬ p.IsIndex)
      (hk : p.node = k) (hx : Extends k fs fs₁) (hlink : Linked k fs fs₁)
      (h : AtLeaf fs₁ p fs' (some e)) (hb : ¬ Blocked fs k) (hu : ¬ Unlinked fs k) :
      NextEntry fs k fs' (some e)
  | unlinked {fs' : FileSys} {b : Nat} (hx : Extends k fs fs')
      (hfresh : ∀ q, q.Valid → ref fs' q ≠ ptrTo b) (hlt : b < 7931) (hb : ¬ Blocked fs k)
      (hu : Unlinked fs k) (hneed : need fs k < fs.freeBlocks) : NextEntry fs k fs' (some ⟨b, 0⟩)
  | blocked (hb : Blocked fs k) : NextEntry fs k fs none
  | short {fs' : FileSys} (hx : Extends k fs fs') (hb : ¬ Blocked fs k)
      (hneed : fs.freeBlocks < 2 ∨ Unlinked fs k ∧ fs.freeBlocks ≤ need fs k)
      (hlink : ¬ Unlinked fs k ∨ fs.freeBlocks < need fs k → Linked k fs fs') :
      NextEntry fs k fs' none

theorem DoubleSeg.unique {seg' : Nat} (h : DoubleSeg fs k seg) (h' : DoubleSeg fs k seg') :
    seg = seg' := by
  unfold DoubleSeg at h h'
  omega

theorem DoubleSeg.range (h : DoubleSeg fs k seg) : 72 ≤ seg ∧ seg < 4168 := by
  unfold DoubleSeg at h
  omega

theorem not_doubleSeg (h : (fs.inodes k).size / 256 < 8 ∨ (fs.inodes k).size / 256 < 72 ∧
    ¬ Full fs (.sleaf k ((fs.inodes k).size / 256 - 8))) : ¬ DoubleSeg fs k seg := by
  unfold DoubleSeg
  rintro (⟨_, h8, _, hf⟩ | ⟨rfl, h72, _⟩)
  · exact h.elim (fun hx => by omega) fun hx => hx.2 hf
  · omega

/-- Outside the double level only the direct one can be blocked. -/
theorem not_blocked (hd : ∀ seg, ¬ DoubleSeg fs k seg) (h : (fs.inodes k).size / 256 < 4168)
    (hdir : (fs.inodes k).size / 256 < 8 →
      ∃ i, (fs.inodes k).size / 256 ≤ i ∧ i < 8 ∧ ¬ Full fs (.direct k i)) : ¬ Blocked fs k := by
  rintro (⟨h8, hall⟩ | ⟨seg, hs, _⟩ | h')
  · obtain ⟨i, h1, h2, hn⟩ := hdir h8
    exact hn (hall i h1 h2)
  · exact hd seg hs
  · omega

theorem not_unlinked (hd : ∀ seg, ¬ DoubleSeg fs k seg) : ¬ Unlinked fs k :=
  fun ⟨seg, hs, _⟩ => hd seg hs

/-- A search that ends in the double level. -/
theorem DoubleEntry.next (ho : Owned every fs) (hk : k < 1024) (hs : DoubleSeg fs k seg)
    (h : DoubleEntry fs k ((seg - 72) / 64) ((seg - 72) % 64) fs' e) : NextEntry fs k fs' e := by
  have hrange := hs.range
  have h4168 : (fs.inodes k).size / 256 < 4168 := by unfold DoubleSeg at hs; omega
  have h8 : ¬ (fs.inodes k).size / 256 < 8 := by unfold DoubleSeg at hs; omega
  have hv : (Place.dleaf k ((seg - 72) / 64) ((seg - 72) % 64)).Valid :=
    ⟨hk, by omega, Nat.mod_lt _ (by omega)⟩
  have hblocked : Blocked fs k → Full fs (.dleaf k ((seg - 72) / 64) ((seg - 72) % 64)) := by
    rintro (⟨h, _⟩ | ⟨seg', hs', hf⟩ | h)
    · exact absurd h h8
    · rw [hs.unique hs']; exact hf
    · omega
  have hunlinked : Unlinked fs k → ref fs (.index k ((seg - 72) / 64)) = 0 := by
    rintro ⟨seg', hs', h0⟩
    rw [hs.unique hs']; exact h0
  have hchild : ref fs (.index k ((seg - 72) / 64)) = 0 →
      ¬ Full fs (.dleaf k ((seg - 72) / 64) ((seg - 72) % 64)) := fun h0 hf =>
    hf.1 (by rw [ref_up (r := .index k ((seg - 72) / 64)) rfl, h0]; rfl)
  cases h with
  | leaf h0 h =>
    have hu : ¬ Unlinked fs k := fun hu => h0 (hunlinked hu)
    cases e with
    | some e =>
      exact .leaf hv id rfl (.refl ho) .refl h (fun hb => h.entry.2.2.2 (hblocked hb)) hu
    | none =>
      obtain ⟨rfl, hf | ⟨hz, hfree⟩⟩ := h.none
      · exact .blocked (.inr (.inl ⟨seg, hs, hf⟩))
      · exact .short (.refl ho) (fun hb => (hblocked hb).1 hz) (.inl (by omega)) fun _ => .refl
  | unlinked h0 hx hb hlt hneed =>
    exact .unlinked hx hb hlt (fun hB => hchild h0 (hblocked hB)) ⟨seg, hs, h0⟩ hneed
  | short h0 hx hneed hlink =>
    exact .short hx (fun hB => hchild h0 (hblocked hB)) (.inr ⟨⟨seg, hs, h0⟩, hneed⟩)
      fun h => hlink (h.resolve_left fun hu => hu ⟨seg, hs, h0⟩)

theorem nextEntryDirect_loop (ho : Owned every fs) (hk : k < 1024) (seg : Nat) :
    (forFrom (nextEntryDirect k) seg (8 - seg) fs).Ends
      (fun fs' => fs' = fs ∧ ∀ i, seg ≤ i → i < 8 → Full fs (.direct k i))
      fun fs' e => ∃ i, seg ≤ i ∧ i < 8 ∧ AtLeaf fs (.direct k i) fs' e ∧ ¬ Full fs (.direct k i) := by
  refine (forFrom_ends (fun i fs' => fs' = fs ∧ ∀ j, seg ≤ j → j < i → Full fs (.direct k j))
    ⟨rfl, by omega⟩ fun i t hi hn h => ?_).mono (fun fs' h => ⟨h.1, fun i h1 h2 =>
      h.2 i h1 (by omega)⟩) fun _ _ => id
  obtain ⟨rfl, hall⟩ := h
  refine (nextEntryDirect_ends ho hk (by omega)).mono (fun fs' h => ⟨h.1, fun j h1 h2 => ?_⟩)
    fun fs' e h => ⟨i, hi, by omega, h⟩
  by_cases e : j = i
  · exact e ▸ h.2
  · exact hall j h1 (by omega)

theorem nextEntrySingle_spec (ho : Owned every fs) (hk : k < 1024)
    (h8 : 8 ≤ (fs.inodes k).size / 256) (h72 : (fs.inodes k).size / 256 < 72) :
    NextEntry fs k (nextEntrySingle fs k ((fs.inodes k).size / 256)).1
      (nextEntrySingle fs k ((fs.inodes k).size / 256)).2 := by
  obtain ⟨i, hi⟩ : ∃ i, (fs.inodes k).size / 256 - 8 = i := ⟨_, rfl⟩
  have hr : ∀ fs, Rooted fs (.single k) := fun _ _ _ h => by cases h
  have hup : (Place.sleaf k i).up = some (.single k, i) := rfl
  have hv : (Place.sleaf k i).Valid := ⟨hk, by omega⟩
  -- when the leaf is not full the double level does not count
  have hout : ¬ Full fs (.sleaf k i) → (¬ Blocked fs k) ∧ ¬ Unlinked fs k := fun hf => by
    have hd : ∀ seg, ¬ DoubleSeg fs k seg := fun seg =>
      not_doubleSeg (.inr ⟨h72, by rw [hi]; exact hf⟩)
    exact ⟨not_blocked hd (by omega) fun h => by omega, not_unlinked hd⟩
  unfold nextEntrySingle
  rw [if_pos ⟨h8, h72⟩, hi]
  cases he : ensureBlock fs (.singleIndirect k) with
  | none =>
    obtain ⟨h0, hfree⟩ := ensureBlock_none (p := .single k) ho (hr fs) he
    obtain ⟨hb, hu⟩ := hout fun hf => hf.1 (by rw [ref_up hup, h0]; rfl)
    exact .short (.refl ho) hb (.inl (by omega)) fun _ => .refl
  | some fs₁ =>
    obtain ⟨hx, hl, h0, hsame⟩ : Extends k fs fs₁ ∧ Linked k fs fs₁ ∧ ref fs₁ (.single k) ≠ 0 ∧
        (fs₁ = fs ∨ ref fs (.single k) = 0 ∧ (∀ i, ref fs₁ (.sleaf k i) = 0) ∧
          fs.freeBlocks = fs₁.freeBlocks + 1) := by
      rcases ensureBlock_cases (p := .single k) ho hk trivial (hr fs) he with ⟨hne, rfl⟩ | ⟨b, a⟩
      · exact ⟨.refl ho, .refl, hne, .inl rfl⟩
      · refine ⟨a.extends ho hk, a.linked hk, by rw [a.self]; exact ptrTo_ne_zero b,
          .inr ⟨a.empty, fun i => ?_, a.free.symm⟩⟩
        rw [ref_up (r := .single k) rfl, a.self, under, if_neg (ptrTo_ne_zero b)]
        exact load_zero fun x _ _ => a.zero x
    have hat := getNextDirEntrySingle_atLeaf hx.owned hv hup h0
    dsimp only
    rw [show fs₁.ptrAt (.singleIndirect k) = ref fs₁ (.single k) from rfl]
    generalize getNextDirEntrySingle fs₁ (blockOf (ref fs₁ (.single k))) i = r at hat ⊢
    have hempty : ref fs (.single k) = 0 → ¬ Full fs (.sleaf k i) := fun hz hf =>
      hf.1 (by rw [ref_up hup, hz]; rfl)
    obtain ⟨fs₂, _ | e⟩ := r
    · obtain ⟨h2, hcase⟩ := hat.none
      dsimp only at h2 ⊢
      subst h2
      rcases hcase with hf | ⟨hz, hfree⟩
      · rcases hsame with rfl | ⟨_, hzero, _⟩
        · have hs : DoubleSeg fs₂ k 72 := .inl ⟨rfl, h8, h72, by rw [hi]; exact hf⟩
          exact (nextEntryDouble_spec ho hk (Nat.le_refl 72) (by omega)).next ho hk hs
        · exact absurd (hzero i) hf.1
      · obtain ⟨hb, hu⟩ : (¬ Blocked fs k) ∧ ¬ Unlinked fs k := by
          refine hout fun hf => ?_
          rcases hsame with rfl | ⟨hs0, _⟩
          · exact hf.1 hz
          · exact hempty hs0 hf
        have hfew : fs.freeBlocks < 2 := by
          obtain rfl | ⟨_, _, h1⟩ := hsame <;> omega
        have hd := nextEntryDouble_spec hx.owned hk (Nat.le_refl 72) (by omega : 72 < 4168)
        generalize nextEntryDouble fs₂ k 72 = r at hd ⊢
        obtain ⟨fs₃, e⟩ := r
        cases hd with
        | leaf h0 h =>
          cases e with
          | some e =>
            exact .leaf (p := .dleaf k ((72 - 72) / 64) ((72 - 72) % 64))
              ⟨hk, by omega, by omega⟩ id rfl hx hl h hb hu
          | none =>
            rw [h.none.1]
            exact .short hx hb (.inl hfew) fun _ => hl
        | unlinked _ _ _ _ hneed => omega
        | short h0 hx' hneed hlink =>
          refine .short (hx.trans hx') hb (.inl hfew) fun _ => hl.trans (hlink ?_)
          unfold need; split <;> omega
    · obtain ⟨hb, hu⟩ : (¬ Blocked fs k) ∧ ¬ Unlinked fs k := by
        refine hout fun hf => ?_
        rcases hsame with rfl | ⟨hs0, _⟩
        · exact hat.entry.2.2.2 hf
        · exact hempty hs0 hf
      exact .leaf hv id rfl hx hl hat hb hu

theorem getNextEntry_spec (ho : Owned every fs) (hk : k < 1024) :
    NextEntry fs k (getNextEntry fs k).1 (getNextEntry fs k).2 := by
  have hloop := nextEntryDirect_loop ho hk ((fs.inodes k).size / 256)
  unfold getNextEntry
  dsimp only
  generalize forFrom (nextEntryDirect k) ((fs.inodes k).size / 256)
    (8 - (fs.inodes k).size / 256) fs = fl at hloop ⊢
  cases fl with
  | ret fs' e =>
    obtain ⟨i, h1, h2, hat, hn⟩ := hloop
    have hd : ∀ seg, ¬ DoubleSeg fs k seg := fun seg => not_doubleSeg (.inl (by omega))
    have hb := not_blocked hd (by omega) fun _ => ⟨i, h1, h2, hn⟩
    cases e with
    | some e =>
      exact .leaf (p := .direct k i) ⟨hk, h2⟩ id rfl (.refl ho) .refl hat hb (not_unlinked hd)
    | none =>
      obtain ⟨h3, hf | ⟨_, hfree⟩⟩ := hat.none
      · exact absurd hf hn
      · dsimp only
        rw [h3]
        exact .short (.refl ho) hb (.inl (by omega)) fun _ => .refl
  | next fs' =>
    obtain ⟨h3, hfull⟩ := hloop
    dsimp only
    rw [h3]
    by_cases h8 : (fs.inodes k).size / 256 < 8
    · rw [nextEntrySingle, if_neg (by omega), nextEntryDouble_out (by omega)]
      exact .blocked (.inl ⟨h8, hfull⟩)
    · by_cases h72 : (fs.inodes k).size / 256 < 72
      · exact nextEntrySingle_spec ho hk (by omega) h72
      · rw [nextEntrySingle, if_neg (by omega)]
        by_cases h4168 : (fs.inodes k).size / 256 < 4168
        · exact (nextEntryDouble_spec ho hk (by omega) h4168).next ho hk
            (.inr ⟨rfl, by omega, h4168⟩)
        · rw [nextEntryDouble_out (by omega)]
          exact .blocked (.inr (.inr (by omega)))

theorem NextEntry.extends (h : NextEntry fs k fs' e) (ho : Owned every fs) : Extends k fs fs' := by
  cases h with
  | leaf hp _ hk hx _ h =>
    subst hk
    exact hx.trans (h.extends hx.owned hp).1
  | unlinked hx => exact hx
  | blocked => exact .refl ho
  | short hx => exact hx

/-- The entry found lies in no index block. -/
theorem NextEntry.plain {x : EntryPtr} (h : NextEntry fs k fs' (some x)) (ho : Owned every fs) :
    x.slot < 16 ∧ ∀ q, q.Valid → q.IsIndex → ref fs' q ≠ ptrTo x.block := by
  have hown := (h.extends ho).owned
  cases h with
  | leaf hp hl _ _ _ h =>
    obtain ⟨he, hs, _⟩ := h.entry
    refine ⟨hs, fun q hq hi e => hl ?_⟩
    have hpq := hown.unique hp trivial hq trivial (by rw [he]; exact ptrTo_ne_zero _) (he.trans e.symm)
    exact hpq ▸ hi
  | unlinked _ hfresh => exact ⟨Nat.zero_lt_succ 15, fun q hq _ => hfresh q hq⟩

/-! ## The index blocks of the double level -/

/-- A search at one place moves no other pointer. -/
theorem AtLeaf.other (h : AtLeaf fs p fs' e) (hq : q.Valid) (hne : q ≠ p) : ref fs' q = ref fs q := by
  cases h with
  | fresh a => exact a.other q hq trivial hne
  | found | noBlock | full => rfl

theorem ensureBlock_other {s : Place} (ho : Owned every fs) (hs : s.Valid) (hr : Rooted fs s)
    (h : ensureBlock fs (slotOf fs s) = some fs') (hq : q.Valid) (hne : q ≠ s) :
    ref fs' q = ref fs q := by
  rcases ensureBlock_cases ho hs trivial hr h with ⟨_, rfl⟩ | ⟨b, a⟩
  · rfl
  · exact a.other q hq trivial hne

/-- The double level links no index block. -/
theorem nextEntryDouble_index (ho : Owned every fs) (hk : k < 1024) (hi : i < 64) (seg : Nat) :
    ref (nextEntryDouble fs k seg).1 (.index k i) = ref fs (.index k i) := by
  have hr : Rooted fs (.double k) := fun _ _ h => by cases h
  have hq : (Place.index k i).Valid := ⟨hk, hi⟩
  unfold nextEntryDouble
  split
  · rename_i hseg
    cases he : ensureBlock fs (.doubleIndirect k) with
    | none => rfl
    | some fs₁ =>
      have hsame : ref fs₁ (.index k i) = ref fs (.index k i) :=
        ensureBlock_other (s := .double k) ho hk hr he hq fun e => by cases e
      have ho₁ : Owned every fs₁ := (ensureBlock_grows (p := .double k) ho hk hr he).1.owned
      have h0 : ref fs₁ (.double k) ≠ 0 := (ensureBlock_grows (p := .double k) ho hk hr he).2.1
      rw [← hsame]
      dsimp only
      rw [show fs₁.ptrAt (.doubleIndirect k) = ref fs₁ (.double k) from rfl]
      have hptr : fs₁.ptrAt (.indexBlock (blockOf (ref fs₁ (.double k))) ((seg - 72) / 64)) =
          ref fs₁ (.index k ((seg - 72) / 64)) := by
        rw [ref_up (p := .index k _) (r := .double k) rfl, under, if_neg h0]
      by_cases hi0 : ref fs₁ (.index k ((seg - 72) / 64)) = 0
      · obtain ⟨fs₂, b, e, -, -, -, -, hsame⟩ | ⟨fs₂, e, -, -, -, hsame⟩ :=
          getNextDirEntryDouble_missing (k := k) ho₁ (seg - 72) (hptr.trans hi0)
        · rw [e]
          exact hsame _ hq
        · rw [e]
          exact hsame _ hq
      · unfold getNextDirEntryDouble
        dsimp only
        rw [hptr, if_neg hi0]
        have hat := getNextDirEntrySingle_atLeaf
          (p := .dleaf k ((seg - 72) / 64) ((seg - 72) % 64)) ho₁
          ⟨hk, by omega, Nat.mod_lt _ (by omega)⟩ rfl hi0
        exact hat.other hq fun e => by cases e
  · rfl

theorem getNextEntry_index (ho : Owned every fs) (hk : k < 1024) (hi : i < 64) :
    ref (getNextEntry fs k).1 (.index k i) = ref fs (.index k i) := by
  have hq : (Place.index k i).Valid := ⟨hk, hi⟩
  have hloop := nextEntryDirect_loop ho hk ((fs.inodes k).size / 256)
  unfold getNextEntry
  dsimp only
  generalize forFrom (nextEntryDirect k) ((fs.inodes k).size / 256)
    (8 - (fs.inodes k).size / 256) fs = fl at hloop ⊢
  cases fl with
  | ret fs' e =>
    obtain ⟨j, _, _, hat, _⟩ := hloop
    exact hat.other hq fun e => by cases e
  | next fs' =>
    obtain ⟨rfl, _⟩ := hloop
    dsimp only
    unfold nextEntrySingle
    split
    · rename_i hseg
      have hr : Rooted fs' (.single k) := fun _ _ h => by cases h
      cases he : ensureBlock fs' (.singleIndirect k) with
      | none => rfl
      | some fs₁ =>
        have hsame : ref fs₁ (.index k i) = ref fs' (.index k i) :=
          ensureBlock_other (s := .single k) ho hk hr he hq fun e => by cases e
        obtain ⟨hg, h0, -⟩ := ensureBlock_grows (p := .single k) ho hk hr he
        have hv : (Place.sleaf k ((fs'.inodes k).size / 256 - 8)).Valid := ⟨hk, by omega⟩
        have hat := getNextDirEntrySingle_atLeaf hg.owned hv rfl h0
        rw [← hsame]
        dsimp only
        rw [show fs₁.ptrAt (.singleIndirect k) = ref fs₁ (.single k) from rfl]
        generalize getNextDirEntrySingle fs₁ (blockOf (ref fs₁ (.single k)))
          ((fs'.inodes k).size / 256 - 8) = r at hat ⊢
        obtain ⟨fs₂, _ | e⟩ := r
        · obtain ⟨rfl, -⟩ := hat.none
          exact nextEntryDouble_index hg.owned hk hi 72
        · exact hat.other hq fun e => by cases e
    · exact nextEntryDouble_index ho hk hi _

end ToyOS.Ramdisk.Slots
