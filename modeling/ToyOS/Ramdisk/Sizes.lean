import Mathlib.Data.Finset.Card
import ToyOS.Ramdisk.Catalog
import ToyOS.Ramdisk.Reclaiming

/-! # The size of a directory and its entries

`rd_create` adds 16 to the size of the parent and `rd_unlink` takes 16 off,
whatever happened to its entries. `KeepsSizes` says of a call that it adds or
takes out exactly one.
-/
namespace ToyOS.Ramdisk.Sizes
open ToyOS.Lib.CStrings ToyOS.Lib.Words ToyOS.Lib.Runs ToyOS.Ramdisk.Image ToyOS.Ramdisk.Blocks
open ToyOS.Ramdisk.Write ToyOS.Ramdisk.Writing ToyOS.Ramdisk.Places ToyOS.Ramdisk.Ownership
open ToyOS.Ramdisk.Growth ToyOS.Ramdisk.Paths
open ToyOS.Ramdisk.Components ToyOS.Ramdisk.Lookup ToyOS.Ramdisk.Directories ToyOS.Ramdisk.Slots
open ToyOS.Ramdisk.Clearing ToyOS.Ramdisk.Namespace ToyOS.Ramdisk.Creating ToyOS.Ramdisk.Removing
open ToyOS.Ramdisk.Unlinking ToyOS.Ramdisk.Records ToyOS.Ramdisk.Effects ToyOS.Ramdisk.Supply
open ToyOS.Ramdisk.Descriptors ToyOS.Ramdisk.System ToyOS.Ramdisk.BlockOwnership
open ToyOS.Ramdisk.Catalog ToyOS.Ramdisk.Reclaiming ToyOS.Ramdisk.Cursors ToyOS.Ramdisk.Binding

variable {counts : Option FileType → Prop} {fs fs₁ fs' : FileSys} {st : State} {op : Op}
variable {x k d cur n mode : Nat} {p : Place}
variable {s : Place × Nat} {e : EntryPtr} {name path : Str} {type : FileType} {mem : Scratch} {r : Int}

/-! ## The entries of a directory -/

/-- The slots with a number in the blocks of inode `x`. -/
def occupied (fs : FileSys) (x : Nat) : Finset (Place × Nat) :=
  (slots x).toFinset.filter fun s => ref fs s.1 ≠ 0 ∧ fs.entryNum (blockOf (ref fs s.1)) s.2 ≠ 0

/-- The size of every directory is that of its entries. -/
def Sized (fs : FileSys) : Prop :=
  ∀ x, x < 1024 → (fs.inodes x).type = some .dir → (fs.inodes x).size = 16 * (occupied fs x).card

theorem mem_occupied (hx : x < 1024) : s ∈ occupied fs x ↔
    (s.1.Valid ∧ ¬ s.1.IsIndex ∧ s.1.node = x) ∧ s.2 < 16 ∧ ref fs s.1 ≠ 0 ∧
      fs.entryNum (blockOf (ref fs s.1)) s.2 ≠ 0 := by
  rw [occupied, Finset.mem_filter, List.mem_toFinset, slots, mem_slotsOf, mem_leaves hx, and_assoc]

/-- For an inode that counts they are its entries. -/
theorem mem_occupied_entry (hx : x < 1024) (hd : counts (fs.inodes x).type) :
    s ∈ occupied fs x ↔ s.1.node = x ∧ ∃ n, Entry counts fs s n := by
  rw [mem_occupied hx]
  constructor
  · rintro ⟨⟨hv, hl, hn⟩, hj, h0, hnum⟩
    exact ⟨hn, _, ⟨hv, hl, by rw [hn]; exact hd, h0⟩, hj, rfl, hnum⟩
  · rintro ⟨hn, n, ⟨hv, hl, -, h0⟩, hj, hnum, hne⟩
    exact ⟨⟨hv, hl, hn⟩, hj, h0, by rw [hnum]; exact hne⟩

theorem length_slots (x : Nat) : (slots x).length = 66688 := by
  have h : ∀ ps : List Place, (slotsOf ps).length = ps.length * 16 := by
    intro ps
    simp [slotsOf]
  rw [slots, h, leaves, List.length_append, List.length_append, directLeaves, singleLeaves,
    doubleLeaves, List.length_flatMap]
  simp

theorem card_occupied_le (fs : FileSys) (x : Nat) : (occupied fs x).card ≤ 66688 := by
  calc (occupied fs x).card ≤ (slots x).toFinset.card := Finset.card_filter_le _ _
    _ ≤ (slots x).length := List.toFinset_card_le _
    _ = 66688 := length_slots x

theorem occupied_empty (h : ∀ q, q.Valid → q.node = x → ref fs q = 0) (hx : x < 1024) :
    occupied fs x = ∅ := by
  refine Finset.eq_empty_of_forall_notMem fun s hs => ?_
  obtain ⟨⟨hv, -, hn⟩, -, h0, -⟩ := (mem_occupied hx).mp hs
  exact h0 (h s.1 hv hn)

/-- Pointers and leaf blocks of the directory are the same. -/
theorem occupied_congr (hx : x < 1024) (hr : ∀ q, q.Valid → q.node = x → ref fs' q = ref fs q)
    (hb : ∀ q, q.Valid → ¬ q.IsIndex → q.node = x → ref fs q ≠ 0 →
      fs'.dataBlocks (blockOf (ref fs q)) = fs.dataBlocks (blockOf (ref fs q))) :
    occupied fs' x = occupied fs x := by
  ext s
  rw [mem_occupied hx, mem_occupied hx]
  refine and_congr_right fun ⟨hv, hl, hn⟩ => and_congr_right fun _ => ?_
  rw [hr s.1 hv hn]
  exact and_congr_right fun h0 => by rw [entryNum_congr (hb s.1 hv hl hn h0)]

theorem occupied_search (h : Shelved counts fs) (hk : k < 1024) (hx : x < 1024)
    (hd : counts (fs.inodes x).type) : occupied (getNextEntry fs k).1 x = occupied fs x := by
  have ho := h.owned
  have hext := (getNextEntry_spec ho hk).extends ho
  have hd' : counts ((getNextEntry fs k).1.inodes x).type := by
    rw [getNextEntry_types ho hk]
    exact hd
  ext s
  rw [mem_occupied_entry hx hd', mem_occupied_entry hx hd]
  refine and_congr_right fun hn => ⟨?_, ?_⟩
  · rintro ⟨n, he⟩
    exact ⟨n, he.held (search_held ho hk he.block s.2)⟩
  · rintro ⟨n, ⟨hv, hl, hc, h0⟩, hj, hnum, hne⟩
    have hr := hext.keeps s.1 hv fun _ => h0
    refine ⟨n, ⟨hv, hl, ?_, by rw [hr]; exact h0⟩, hj, ?_, hne⟩
    · rw [getNextEntry_types ho hk]
      exact hc
    · rw [hr, entryNum_congr (hext.leaves s.1 hv hl h0)]
      exact hnum

/-! ## Creating a file -/

section
variable (hf : Filled fs₁ e n name type fs') (hname : name.length ≤ 13) (hn : n < 1024)
include hf

theorem occupied_new (hn : n < 1024) : occupied fs' n = ∅ := by
  refine occupied_empty (fun q hv hq => ?_) hn
  rw [hf.refs q hv, if_pos hq]

include hname hn

/-- The entry filled in is the only one that comes in. -/
theorem mem_occupied_filled (h1 : 1 ≤ n) (hx : x < 1024) (hxn : x ≠ n) : s ∈ occupied fs' x ↔
    s ∈ occupied fs₁ x ∨ (s.1.Valid ∧ ¬ s.1.IsIndex ∧ s.1.node = x) ∧ s.2 < 16 ∧
      ref fs₁ s.1 = ptrTo e.block ∧ s.2 = e.slot := by
  rw [mem_occupied hx, mem_occupied hx, ← and_or_left, ← and_or_left]
  refine and_congr_right fun ⟨hv, _, hnode⟩ => and_congr_right fun _ => ?_
  rw [hf.refs s.1 hv, if_neg (by rw [hnode]; exact hxn)]
  unfold FileSys.entryNum
  by_cases hj : blockOf (ref fs₁ s.1) = e.block ∧ s.2 = e.slot
  · rw [hj.1, hj.2, hf.mine, entryBytes_num hn]
    constructor
    · intro h
      exact .inr ⟨by rw [← hj.1, ptrTo_blockOf h.1], rfl⟩
    · rintro (h | h)
      · exact ⟨h.1, by omega⟩
      · exact ⟨by rw [h.1]; exact ptrTo_ne_zero _, by omega⟩
  · rw [load_congr fun a h1 h2 => hf.slot hname hj (by omega) (by omega)]
    refine (or_iff_left ?_).symm
    rintro ⟨hr, hs⟩
    exact hj ⟨by rw [hr, blockOf_ptrTo], hs⟩

end

/-- The slot `get_next_entry` hands out comes in, if it is linked. -/
theorem card_occupied_created (h : Shelved counts fs) (hcur : cur < 1024)
    (hg : getNextEntry fs cur = (fs₁, some e)) (hf : Filled fs₁ e n name type fs')
    (hname : name.length ≤ 13) (hn : n < 1024) (h1 : 1 ≤ n) (hx : x < 1024) (hxn : x ≠ n)
    (hd : counts (fs.inodes x).type) :
    (x = cur ∧ ¬ Unlinked fs cur → (occupied fs' x).card = (occupied fs x).card + 1) ∧
      (¬ (x = cur ∧ ¬ Unlinked fs cur) → (occupied fs' x).card = (occupied fs x).card) := by
  have hnext := getNextEntry_next h.owned hcur hg
  have hown := (hnext.extends h.owned).owned
  have hsame : occupied fs₁ x = occupied fs x := by
    have := occupied_search h hcur hx hd
    rwa [hg] at this
  have hmem := fun s => mem_occupied_filled (s := s) hf hname hn h1 hx hxn
  rw [← hsame]
  cases hnext with
  | unlinked _ hfresh _ _ hu =>
    refine ⟨fun hc => absurd hu hc.2, fun _ => ?_⟩
    refine congrArg Finset.card (Finset.ext fun s => ?_)
    rw [hmem s]
    exact or_iff_left fun h => hfresh s.1 h.1.1 h.2.2.1
  | @leaf p _ _ _ hp hl hk _ _ hat _ hu =>
    obtain ⟨hr, hslot, hz, -⟩ := hat.entry
    have hr0 : ref fs₁ p ≠ 0 := by
      rw [hr]
      exact ptrTo_ne_zero _
    by_cases hxc : x = cur
    · subst hxc
      refine ⟨fun _ => ?_, fun hc => absurd ⟨rfl, hu⟩ hc⟩
      have hnew : (p, e.slot) ∉ occupied fs₁ x := by
        intro hs
        obtain ⟨-, -, -, hnum⟩ := (mem_occupied hx).mp hs
        rw [hr, blockOf_ptrTo] at hnum
        exact hnum hz
      rw [← Finset.card_insert_of_notMem hnew]
      refine congrArg Finset.card (Finset.ext fun s => ?_)
      rw [hmem s, Finset.mem_insert, or_comm]
      refine or_congr_left ⟨fun ⟨⟨hv, _, _⟩, _, he, hj⟩ => ?_, ?_⟩
      · exact Prod.ext (hown.unique hp trivial hv trivial hr0 (hr.trans he.symm)).symm hj
      · rintro rfl
        exact ⟨⟨hp, hl, hk⟩, hslot, hr, rfl⟩
    · refine ⟨fun hc => absurd hc.1 hxc, fun _ => ?_⟩
      refine congrArg Finset.card (Finset.ext fun s => ?_)
      rw [hmem s]
      refine or_iff_left fun ⟨⟨hv, _, hnode⟩, _, he, _⟩ => hxc ?_
      rw [← hnode, ← hown.unique hp trivial hv trivial hr0 (hr.trans he.symm)]
      exact hk

/-- `rd_create` keeps the sizes unless its entry is in a block that is not
linked, or the new directory is its own parent. -/
def CreatesOne (fs : FileSys) (path : Str) (type : FileType) (mem : Scratch) : Prop :=
  Succeeds fs path mem → ∀ cur n, findIndex fs (splitPath path mem).1 = .inode cur →
    getFreeInodeNum fs = some n →
    ((fs.inodes cur).type = some .dir → ¬ Unlinked fs cur) ∧ (type = .dir → n ≠ cur)

theorem sized_same (h : Sized fs) (hs : SameRecords fs fs') (ho : ∀ x, x < 1024 →
    (fs.inodes x).type = some .dir → occupied fs' x = occupied fs x) : Sized fs' := by
  intro x hx hd
  have hrec := congrFun hs.1 x
  rw [show (fs'.inodes x).type = (fs.inodes x).type from congrArg Record.type hrec] at hd
  rw [show (fs'.inodes x).size = (fs.inodes x).size from congrArg Record.size hrec, ho x hx hd]
  exact h x hx hd

/-- The sizes count the entries, and the root is a directory. -/
structure Kept (fs : FileSys) : Prop extends Shelved IsDir fs where
  sized : Sized fs
  root : (fs.inodes 0).type = some .dir

theorem Sized.le (h : Sized fs) (hx : x < 1024) (hd : (fs.inodes x).type = some .dir) :
    (fs.inodes x).size ≤ 1067008 := by
  have := card_occupied_le fs x
  rw [h x hx hd]
  omega

section
variable {cs : List Component} (hk : Kept fs)
include hk

/-- The file created is counted exactly when the call creates one entry. -/
theorem filled_sized_iff (hcur : cur < 1024) (hfind : findIndex fs (splitPath path mem).1 = .inode cur)
    (hg : getNextEntry fs cur = (fs₁, some e)) (hget : getFreeInodeNum fs₁ = some n)
    (hf : Filled fs₁ e n name type fs') (hname : name.length ≤ 13)
    (hrec : record fs' = createdRecord fs cur n type mode) (hsucc : Succeeds fs path mem) :
    Sized fs' ↔ CreatesOne fs path type mem := by
  have hsame := getNextEntry_records fs cur
  rw [hg] at hsame
  have hget' : getFreeInodeNum fs = some n := (getFreeInodeNum_congr hsame).symm.trans hget
  have hnew := newInode_of_get hget'
  have hcard := fun x hx hxn hd => card_occupied_created (x := x) hk.toShelved hcur hg hf hname
    hnew.lt hnew.pos hx hxn hd
  have hempty := occupied_new hf hnew.lt
  constructor
  · intro hs _ cur' n' hfind' hn'
    obtain rfl := Found.inode.inj (hfind.symm.trans hfind')
    obtain rfl := Option.some.inj (hget'.symm.trans hn')
    refine ⟨fun hd hu => ?_, fun hdir hc => ?_⟩
    · have hne : cur ≠ n := by
        rintro rfl
        rw [hnew.free] at hd
        cases hd
      obtain ⟨ht, hz⟩ := created_parent hrec hne
      have hle := hk.sized.le hcur hd
      have hsz := hs cur hcur (by rw [ht]; exact hd)
      rw [hz, (hcard cur hcur hne hd).2 fun h => h.2 hu, u32_of_lt (by omega),
        hk.sized cur hcur hd] at hsz
      omega
    · obtain ⟨ht, hz⟩ := created_new hrec
      have hsz := hs n hnew.lt (by rw [ht, hdir])
      rw [hz, if_pos hc, hempty] at hsz
      cases hsz
  · intro hone x hx hd
    obtain ⟨hlink, hself⟩ := hone hsucc cur n hfind hget'
    by_cases hxn : x = n
    · subst hxn
      obtain ⟨ht, hz⟩ := created_new hrec
      rw [ht] at hd
      rw [hz, if_neg (hself (Option.some.inj hd)), hempty]
      rfl
    · by_cases hxc : x = cur
      · subst hxc
        obtain ⟨ht, hz⟩ := created_parent hrec hxn
        rw [ht] at hd
        have hle := hk.sized.le hx hd
        rw [hz, (hcard x hx hxn hd).1 ⟨rfl, hlink hd⟩, u32_of_lt (by omega), hk.sized x hx hd]
        omega
      · obtain ⟨ht, hz⟩ := created_other hrec hxn hxc
        rw [ht] at hd
        rw [hz, (hcard x hx hxn hd).2 fun h => hxc h.1]
        exact hk.sized x hx hd

/-- `rd_create`, and `rd_mkdir` below the root. -/
theorem create_sized_iff (h : rdCreate fs (render cs) type mode mem = some (fs', r)) :
    Shelved IsDir fs' ∧ (fs'.inodes 0).type = some .dir ∧
      (Sized fs' ↔ CreatesOne fs (render cs) type mem) := by
  have hsucc := create_succeeds_iff hk.owned.freeBlocks_lt (render cs) type mode mem
  have hres := rdCreate_result h
  cases hres with
  | refused =>
    refine ⟨hk.toShelved, hk.root, iff_of_true hk.sized fun hs => ?_⟩
    obtain ⟨fs₂, h₂⟩ := hsucc.mpr hs
    rw [h] at h₂
    cases h₂
  | @noEntry cur _ e hc _ _ hg =>
    have hshelved := hk.toShelved.search hc
    have hrec := getNextEntry_records fs cur
    have hsame := fun x hx hd => occupied_search (x := x) hk.toShelved hc hx hd
    rw [hg] at hshelved hrec hsame
    refine ⟨hshelved, (congrArg Record.type (congrFun hrec.1 0)).trans hk.root,
      iff_of_true (sized_same hk.sized hrec hsame) fun hs => ?_⟩
    obtain ⟨fs₂, h₂⟩ := hsucc.mpr hs
    rw [h] at h₂
    cases h₂
  | @filled cur n fs₁ e hc _ hfind hg hn =>
    have hshelved := hk.toShelved.search hc
    have hrec := getNextEntry_records fs cur
    rw [hg] at hshelved hrec
    have hname : (splitPath (render cs) mem).2.length ≤ 13 := splitPath_length_le cs mem
    obtain ⟨hslot, hplain⟩ := (getNextEntry_next hk.owned hc hg).plain hk.owned
    have hf : Filled fs₁ e n _ type (fillEntry fs₁ cur e n (splitPath (render cs) mem).2 type mode) :=
      fillEntry_filled hshelved.owned hslot hname hplain
    have hnew := newInode_of_get hn
    refine ⟨hshelved.fill hf hname hnew.lt hnew.pos, ?_, filled_sized_iff hk hc hfind hg hn hf hname
      ((fillEntry_record ..).trans (createdRecord_congr hrec)) (hsucc.mp ⟨_, h⟩)⟩
    rw [hf.types, if_neg (by have := hnew.pos; omega)]
    exact (congrArg Record.type (congrFun hrec.1 0)).trans hk.root

end

/-! ## Removing a file -/

open Classical in
/-- The entries of `d` that go with the name, as a set. -/
noncomputable def taken (fs : FileSys) (d : Nat) (name : Str) : Finset (Place × Nat) :=
  (occupied fs d).filter (TakenOut fs d name)

theorem mem_taken : s ∈ taken fs d name ↔ s ∈ occupied fs d ∧ TakenOut fs d name s := by
  classical exact Finset.mem_filter

theorem taken_subset : taken fs d name ⊆ occupied fs d := fun _ hs => (mem_taken.mp hs).1

/-- A size of `c` entries less 16 is that of `c - t` when `t` is one. -/
theorem u32Sub_size {c t : Nat} (hc : c ≤ 66688) (ht : t ≤ c) :
    u32Sub (16 * c) 16 = 16 * (c - t) ↔ t = 1 := by
  unfold u32Sub toU32
  omega

/-- `rd_unlink` takes one entry out of the parent, where that is a directory. -/
def RemovesOne (fs : FileSys) (path : Str) (mem : Scratch) : Prop :=
  ∀ k d, findIndex fs path = .inode k → ¬ Refused fs path mem k →
    findIndex fs (splitPath path mem).1 = .inode d → (fs.inodes d).type = some .dir → d ≠ k →
    (taken fs d (splitPath path mem).2).card = 1

/-- The numbers in a block that stays. -/
theorem left_entryNum {fs' : FileSys} (hl : Left fs d name p fs') (hL : ¬ Lost fs d name p)
    (h0 : ref fs p ≠ 0) {j : Nat} (hj : j < 16) :
    fs'.entryNum (blockOf (ref fs p)) j ≠ 0 ↔
      fs.entryNum (blockOf (ref fs p)) j ≠ 0 ∧ ¬ TakenOut fs d name (p, j) := by
  unfold TakenOut
  by_cases hS : Swept fs d name p
  · have hsw := hl.swept hS h0
    cases hname : fs.entryNameIs (blockOf (ref fs p)) j name with
    | true =>
      have hzero : fs'.entryNum (blockOf (ref fs p)) j = 0 := load_zero fun a h1 h2 => by
        rw [hsw a (by omega), show a / 16 = j by omega, if_pos hname]
      exact iff_of_false (fun h => h hzero) fun h => h.2 (.inr ⟨hS, hname⟩)
    | false =>
      have hsame : fs'.entryNum (blockOf (ref fs p)) j = fs.entryNum (blockOf (ref fs p)) j :=
        load_congr fun a h1 h2 => by
          rw [hsw a (by omega), show a / 16 = j by omega, if_neg (by simp [hname])]
      rw [hsame]
      exact (and_iff_left fun h => h.elim hL fun h => by cases hname.symm.trans h.2).symm
  · rw [entryNum_congr (hl.rest hS h0)]
    exact (and_iff_left fun h => h.elim hL fun h => hS h.1).symm

section
variable (h : Shelved counts fs) (hk : k < 1024) (hd : d < 1024) (hz : 0 ∉ name)
include h hk hd

include hz in
theorem occupied_removed (hne : d ≠ k) (hdir : counts (fs.inodes d).type) :
    occupied (removeFile fs k d name) d = occupied fs d \ taken fs d name := by
  ext s
  have hleft : s.1 ∈ leaves d → Left fs d name s.1 (removeFile fs k d name) :=
    removeFile_left h.owned hd hne hz (h.allTerminated hd hdir) hk
  generalize removeFile fs k d name = fs' at hleft ⊢
  rw [Finset.mem_sdiff, mem_taken, not_and, mem_occupied hd, mem_occupied hd]
  by_cases hp : s.1 ∈ leaves d
  · have hl := hleft hp
    rw [← mem_leaves hd]
    constructor
    · rintro ⟨-, hj, h0, hnum⟩
      have hL : ¬ Lost fs d name s.1 := fun hL => h0 (hl.lost hL)
      rw [hl.kept hL] at h0 hnum
      obtain ⟨hnum, ht⟩ := (left_entryNum hl hL h0 hj).mp hnum
      exact ⟨⟨hp, hj, h0, hnum⟩, fun _ => ht⟩
    · rintro ⟨⟨-, hj, h0, hnum⟩, ht⟩
      have ht := ht ⟨hp, hj, h0, hnum⟩
      have hL : ¬ Lost fs d name s.1 := fun hL => ht (.inl hL)
      rw [hl.kept hL]
      exact ⟨hp, hj, h0, (left_entryNum hl hL h0 hj).mpr ⟨hnum, ht⟩⟩
  · rw [mem_leaves hd] at hp
    exact iff_of_false (fun h => hp h.1) fun h => hp h.1.1

theorem occupied_other (hxk : x ≠ k) (hxd : x ≠ d) (hx : x < 1024) :
    occupied (removeFile fs k d name) x = occupied fs x := by
  obtain ⟨S, hr, -⟩ := removeFile_removed h.owned hk hd name
  have hkept : ∀ q, q.Valid → q.node = x → ref (removeFile fs k d name) q = ref fs q :=
    fun q hv hq => hr.kept q hv (by rw [hq]; exact hxk) fun hS => hxd (hq ▸ (hr.node q hS).1)
  refine occupied_congr hx hkept fun q hv _ hq h0 => ?_
  exact hr.blocks q hv (by rw [hq]; exact hxk) (by rw [hq]; exact hxd) h0

end

/-- A path below the root that resolves has an entry in the root. -/
theorem root_occupied (h : Kept fs) {c : Component} {cs : List Component}
    (hfind : findIndex fs (render (c :: cs)) = .inode k) : (occupied fs 0).Nonempty := by
  have hwalk : walk fs 0 ((c :: cs).map (·.bytes)) ≠ .missing := by
    intro hw
    rw [findIndex, myFind_render, hw] at hfind
    cases hfind
  rw [List.map_cons, walk, if_neg (by omega)] at hwalk
  cases hc : findComponent fs 0 c.bytes with
  | none =>
    rw [hc] at hwalk
    exact absurd rfl hwalk
  | some n =>
    obtain ⟨s, hs, -, he⟩ := h.found_entry (by omega) h.root c.ne_nil c.noZero hc
    exact ⟨s, (mem_occupied_entry (by omega) (show IsDir _ from h.root)).mpr
      ⟨((mem_leaves (by omega)).mp (mem_slotsOf.mp hs).1).2.2, n, he⟩⟩

theorem Kept.size_pos (h : Kept fs) (hx : x < 1024) (hd : (fs.inodes x).type = some .dir) :
    0 < (fs.inodes x).size ↔ (occupied fs x).Nonempty := by
  rw [h.sized x hx hd, ← Finset.card_pos]
  omega

section
variable {cs : List Component} (hk : Kept fs) (hfile : findIndex fs (render cs) = .inode k)
variable (hr : ¬ Refused fs (render cs) mem k)
variable (hfind : findIndex fs (splitPath (render cs) mem).1 = .inode d)
include hk hfile hr

theorem not_root : k ≠ 0 := by
  rintro rfl
  cases cs with
  | nil => exact hr (.inl rfl)
  | cons c cs => exact hr (.inr (.inl ⟨hk.root, (hk.size_pos (by omega) hk.root).mpr (root_occupied hk hfile)⟩))

include hfind

/-- The file removed is counted exactly when one entry goes. -/
theorem unlink_sized_iff :
    Shelved IsDir (removeFile fs k d (splitPath (render cs) mem).2) ∧
      ((removeFile fs k d (splitPath (render cs) mem).2).inodes 0).type = some .dir ∧
      (Sized (removeFile fs k d (splitPath (render cs) mem).2) ↔
        RemovesOne fs (render cs) mem) := by
  have hklt := findIndex_lt hfile
  have hdlt := findIndex_lt hfind
  have hz : 0 ∉ (splitPath (render cs) mem).2 := zero_notMem_cstr _
  have hk0 := not_root hk hfile hr
  obtain ⟨hrec, -⟩ := removeFile_record fs k d (splitPath (render cs) mem).2
  have hshelved := hk.toShelved.remove hklt hdlt hz
  have hother : ∀ x, x ≠ k → x ≠ d → x < 1024 →
      occupied (removeFile fs k d (splitPath (render cs) mem).2) x = occupied fs x :=
    fun x => occupied_other hk.toShelved hklt hdlt
  have hparent := occupied_removed hk.toShelved hklt hdlt hz
  have hone : RemovesOne fs (render cs) mem ↔ ((fs.inodes d).type = some .dir → d ≠ k →
      (taken fs d (splitPath (render cs) mem).2).card = 1) := by
    refine ⟨fun h => h k d hfile hr hfind, fun h k' d' hfile' _ hfind' => ?_⟩
    obtain rfl := Found.inode.inj (hfile.symm.trans hfile')
    obtain rfl := Found.inode.inj (hfind.symm.trans hfind')
    exact h
  rw [hone]
  generalize (splitPath (render cs) mem).2 = name at *
  generalize removeFile fs k d name = fs' at *
  have hle : (taken fs d name).card ≤ (occupied fs d).card := Finset.card_le_card taken_subset
  have hkeep : ∀ j, j ≠ k → (fs'.inodes j).type = (fs.inodes j).type := fun j hj => by
    by_cases hjd : j = d
    · rw [hjd] at hj ⊢
      exact (removed_parent hrec hj).1
    · exact (removed_other hrec hj hjd).1
  refine ⟨hshelved, (hkeep 0 hk0.symm).trans hk.root, fun hs hdir hne => ?_, fun h x hx hdir => ?_⟩
  · have hsz := hs d hdlt (by rw [hkeep d hne]; exact hdir)
    rw [(removed_parent hrec hne).2, hparent hne hdir, Finset.card_sdiff_of_subset taken_subset,
      hk.sized d hdlt hdir] at hsz
    exact (u32Sub_size (card_occupied_le fs d) hle).mp hsz
  · have hxk : x ≠ k := by
      rintro rfl
      rw [removed_self hrec] at hdir
      cases hdir
    rw [hkeep x hxk] at hdir
    by_cases hxd : x = d
    · subst hxd
      rw [(removed_parent hrec hxk).2, hparent hxk hdir, Finset.card_sdiff_of_subset taken_subset,
        hk.sized x hx hdir]
      exact (u32Sub_size (card_occupied_le fs x) hle).mpr (h hdir hxk)
    · rw [(removed_other hrec hxk hxd).2, hother x hxk hxd hx]
      exact hk.sized x hx hdir

end

/-! ## Every call -/

/-- The call adds one entry for each file it creates and takes one for each file
it removes. -/
def KeepsSizes (st : State) : Op → Prop
  | .create path type _ mem => CreatesOne st.discos path type mem
  | .mkdir path mem => path ≠ [slash] → CreatesOne st.discos path .dir mem
  | .unlink path mem => RemovesOne st.discos path mem
  | _ => True

theorem occupied_same (hs : SameEntries IsDir fs fs') (hx : x < 1024)
    (hd : (fs.inodes x).type = some .dir) : occupied fs' x = occupied fs x := by
  have hdir : ∀ q : Place, q.node = x → IsDir (fs.inodes q.node).type := fun q hq => by
    rw [hq]
    exact hd
  exact occupied_congr hx (fun q hv hq => hs.refs q hv (hdir q hq))
    fun q hv hl hq h0 => hs.blocks q ⟨hv, hl, hdir q hq, h0⟩

theorem Kept.same (h : Kept fs) (ho : Owned every fs') (hs : SameEntries IsDir fs fs')
    (hsize : ∀ x, (fs.inodes x).type = some .dir → (fs'.inodes x).size = (fs.inodes x).size) :
    Kept fs' := by
  refine ⟨h.toShelved.same ho hs, fun x hx hd => ?_, by rw [hs.types]; exact h.root⟩
  rw [hs.types] at hd
  rw [hsize x hd, occupied_same hs hx hd]
  exact h.sized x hx hd

/-- The calls that create and remove no file. -/
theorem kept_quiet (h : Kept fs) : (∀ k mode, Kept (fs.setInode k { fs.inodes k with access := mode })) ∧
    Kept (makeRoot fs) ∧ ∀ k c, k < 1024 → (fs.inodes k).type ≠ some .dir → ∀ data m,
      Kept (writeStages k data m ⟨fs, c, 0, 0⟩).state.fs := by
  refine ⟨fun k mode => ?_, ?_, fun k c hk hd data m => ?_⟩
  · have ho := owned_of_ref h.owned (fun _ => ref_setInode (k := k) (n := { fs.inodes k with access := mode })
      fun _ => ⟨rfl, rfl, rfl⟩) rfl rfl
    refine h.same ho (sameEntries_chmod IsDir fs k mode) fun x _ => ?_
    by_cases hx : x = k
    · rw [hx, setInode_inodes_self]
    · rw [setInode_inodes_ne _ _ hx]
  · have ho := owned_of_ref h.owned (makeRoot_ref fs) rfl rfl
    refine h.same ho (sameEntries_root IsDir h.root) fun x _ => ?_
    by_cases hx : x = 0
    · rw [hx, makeRoot_inodes_zero]
    · rw [makeRoot_inodes_ne hx]
  · have ho := (writeStages_wrote (w := ⟨fs, c, 0, 0⟩) hk h.owned data m).grows.owned
    refine h.same ho (sameEntries_write h.owned hk hd data m c) fun x hx => ?_
    refine (writeStages_onlySize fs k data m c x).2.2 ?_
    rintro rfl
    exact hd hx

/-- What a call leaves of the entries, whatever it does to the sizes. -/
theorem step_sized_iff (h : Kept st.discos) (hop : WellNamed op) :
    Shelved IsDir (step st op).discos ∧ ((step st op).discos.inodes 0).type = some .dir ∧
      (Sized (step st op).discos ↔ KeepsSizes st op) := by
  have hquiet := kept_quiet h
  have hkept : Kept (step st op).discos → KeepsSizes st op →
      Shelved IsDir (step st op).discos ∧ ((step st op).discos.inodes 0).type = some .dir ∧
        (Sized (step st op).discos ↔ KeepsSizes st op) :=
    fun hk hs => ⟨hk.toShelved, hk.root, iff_of_true hk.sized hs⟩
  have he := step_effect st op
  have hcreates : ∀ {cs type mode mem}, Creates op (render cs) type mode mem →
      (KeepsSizes st op ↔ (op ≠ .mkdir [slash] mem → CreatesOne st.discos (render cs) type mem)) →
      Shelved IsDir (step st op).discos ∧ ((step st op).discos.inodes 0).type = some .dir ∧
        (Sized (step st op).discos ↔ KeepsSizes st op) := fun {cs type mode mem} hc hiff => by
    obtain ⟨hr, e | ⟨-, e⟩⟩ | ⟨hr, ⟨hs, e⟩ | ⟨fs', r, hcreate, e⟩⟩ :=
      creates_cases h.owned.freeBlocks_lt hc
    · exact hkept (e ▸ h) (hiff.mpr fun hn => absurd hr hn)
    · exact hkept (e ▸ hquiet.2.1) (hiff.mpr fun hn => absurd hr hn)
    · exact hkept (e ▸ h) (hiff.mpr fun _ hs' => absurd hs' hs)
    · obtain ⟨h1, h2, h3⟩ := create_sized_iff h hcreate
      rw [e, hiff]
      exact ⟨h1, h2, h3.trans ⟨fun hone _ => hone, fun hone => hone hr⟩⟩
  cases op with
  | create path type mode mem =>
    obtain ⟨cs, rfl⟩ := hop
    refine hcreates .create ⟨fun hone _ => hone, fun hone => hone fun e => ?_⟩
    cases e
  | mkdir path mem =>
    obtain ⟨cs, rfl⟩ := hop
    exact hcreates .mkdir ⟨fun hone hr => hone fun e => hr (by rw [e]),
      fun hone hr => hone fun e => hr (Op.mkdir.inj e).1⟩
  | unlink path mem =>
    obtain ⟨cs, rfl⟩ := hop
    rcases unlink_cases st (render cs) mem with ⟨hsame, hall⟩ | ⟨k, d, hfile, hfind, hr, hstep⟩
    · refine hkept (by rw [hsame]; exact h) ?_
      exact fun k d h1 hr h2 => absurd (hall k d h1 h2) hr
    · rw [hstep]
      exact unlink_sized_iff h hfile hr hfind
  | chmod path mode =>
    refine hkept ?_ trivial
    generalize (step st (.chmod path mode)).discos = fs' at he ⊢
    cases he with
    | idle => exact h
    | chmod => exact hquiet.1 _ _
  | write fd pid data m =>
    refine hkept ?_ trivial
    generalize (step st (.write fd pid data m)).discos = fs' at he ⊢
    cases he with
    | idle => exact h
    | write hk hw =>
      obtain ⟨-, -, -, -, hd, -⟩ := hw
      exact hquiet.2.2 _ _ hk hd _ _
  | «open» | lseek | read | close =>
    refine hkept ?_ trivial
    generalize (step st _).discos = fs' at he ⊢
    cases he
    exact h

/-! ## Runs -/

theorem init_size (behind : Nat → Bytes) (x : Nat) : ((makeRoot (emptyImage behind)).inodes x).size = 0 := by
  by_cases hx : x = 0
  · rw [hx]
    rfl
  · rw [makeRoot_inodes_ne hx]
    rfl

theorem init_kept (behind : Nat → Bytes) (buffer : Bytes) :
    Kept (initFileSys behind buffer).discos := by
  have ho := init_owned behind buffer
  rw [initFileSys_discos] at ho ⊢
  have h0 := ref_init behind
  refine ⟨(catalogued_empty ho h0).toShelved, fun x hx _ => ?_, rfl⟩
  rw [init_size, occupied_empty (fun q _ _ => h0 q) hx]
  rfl

theorem kept_of_run (h : Reachable (fun st op => WellNamed op ∧ KeepsSizes st op) st) :
    Kept st.discos := by
  obtain ⟨behind, buffer, h⟩ := h
  refine h.invariant (I := fun st => Kept st.discos) (init_kept behind buffer)
    fun st op hok hk => ?_
  obtain ⟨hs, hroot, hiff⟩ := step_sized_iff hk hok.1
  exact ⟨hs, hiff.mpr hok.2, hroot⟩

/-- In every run whose calls add and take out one entry each, the size of a
directory is that of its entries and `rd_unlink` refuses the directory exactly
when it holds one; the next call leaves it so exactly when it does the same. -/
theorem sizes_counted (h : Reachable (fun st op => WellNamed op ∧ KeepsSizes st op) st) :
    Sized st.discos ∧
    (∀ path mem k, findIndex st.discos path = .inode k → path ≠ [slash] →
      (st.discos.inodes k).type = some .dir → findIndex st.discos (splitPath path mem).1 ≠ .missing →
      (rdUnlink st.discos path mem = some (st.discos, -1) ↔ (occupied st.discos k).Nonempty)) ∧
    ∀ op, WellNamed op → (Sized (step st op).discos ↔ KeepsSizes st op) := by
  have hk := kept_of_run h
  refine ⟨hk.sized, fun path mem k hfile hroot hdir hparent => ?_, fun op hop =>
    (step_sized_iff hk hop).2.2⟩
  have hlt := findIndex_lt hfile
  rw [unlink_refused (k := ⟨k, hlt⟩) hfile, ← hk.size_pos hlt hdir]
  constructor
  · rintro (hx | hx | hx)
    · exact absurd hx hroot
    · exact hx.2
    · exact absurd hx hparent
  · exact fun hpos => .inr (.inl ⟨hdir, hpos⟩)

/-- A directory of less than 2048 bytes has its entry in a direct block. -/
theorem not_unlinked_of_small (h : (fs.inodes k).size < 2048) : ¬ Unlinked fs k :=
  not_unlinked fun _ => not_doubleSeg (.inl (by omega))

/-- A file in the root, while that is small. -/
theorem createsOne_root {c : Component} (hmem : Ends mem 0) (h : (fs.inodes 0).size < 2048) :
    CreatesOne fs (render [c]) .reg mem := by
  intro _ cur n hfind _
  have hroot : (splitPath (render [c]) mem).1 = [slash] := splitPath_concat_fst [] c hmem
  rw [hroot] at hfind
  obtain rfl : cur = 0 := (Found.inode.inj hfind).symm
  exact ⟨fun _ => not_unlinked_of_small h, fun hd => by cases hd⟩

/-- A fresh file system with `/a` satisfies the sizes. -/
theorem sizes_counted_oneFile :
    Sized oneFile.discos ∧
    (∀ path mem k, findIndex oneFile.discos path = .inode k → path ≠ [slash] →
      (oneFile.discos.inodes k).type = some .dir →
      findIndex oneFile.discos (splitPath path mem).1 ≠ .missing →
      (rdUnlink oneFile.discos path mem = some (oneFile.discos, -1) ↔
        (occupied oneFile.discos k).Nonempty)) ∧
    ∀ op, WellNamed op → (Sized (step oneFile op).discos ↔ KeepsSizes oneFile op) :=
  sizes_counted ⟨_, _, .step .start ⟨⟨[nameA], rfl⟩,
    createsOne_root (ends_replicate 2 0 _) (by decide +kernel)⟩⟩

/-! ## A name entered twice -/

/-- `/a` created once more. -/
def twice : State := step oneFile (.create (render [nameA]) .reg RW ⟨[0, 0], [0, 0]⟩)

theorem twice_reachable : Reachable (fun st op => WellNamed op ∧ KeepsSizes st op) twice := by
  have hends : Ends ⟨[0, 0], [0, 0]⟩ 0 := ends_replicate 2 0 _
  refine ⟨_, _, .step (.step .start ⟨⟨[nameA], rfl⟩, createsOne_root hends ?_⟩)
    ⟨⟨[nameA], rfl⟩, createsOne_root hends ?_⟩⟩
  · decide +kernel
  · decide +kernel

theorem twice_lookup : findIndex twice.discos (render [nameA]) = .inode 1 ∧
    (twice.discos.inodes 1).type = some .reg ∧ (twice.discos.inodes 0).type = some .dir := by
  decide +kernel

theorem twice_taken {j : Nat} (hj : j < 16)
    (h : ref twice.discos (.direct 0 0) ≠ 0 ∧
      twice.discos.entryNum (blockOf (ref twice.discos (.direct 0 0))) j ≠ 0 ∧
      twice.discos.entryNameIs (blockOf (ref twice.discos (.direct 0 0))) j nameA.bytes = true) :
    (.direct 0 0, j) ∈ taken twice.discos 0 nameA.bytes :=
  mem_taken.mpr ⟨(mem_occupied (by omega)).mpr ⟨⟨⟨by omega, by omega⟩, id, rfl⟩, hj, h.1, h.2.1⟩,
    .inr ⟨.inl (direct_mem (by omega)), h.2.2⟩⟩

/-- One call of `rd_unlink` takes both entries, and 16 off the size. -/
theorem one_size_for_two :
    Reachable (fun _ => WellNamed) (step twice (.unlink (render [nameA]) ⟨[0, 0], [0, 0]⟩)) ∧
      ¬ Sized (step twice (.unlink (render [nameA]) ⟨[0, 0], [0, 0]⟩)).discos := by
  obtain ⟨behind, buffer, hr⟩ := twice_reachable
  have hnamed : WellNamed (.unlink (render [nameA]) ⟨[0, 0], [0, 0]⟩) := ⟨[nameA], rfl⟩
  refine ⟨⟨behind, buffer, .step (hr.mono fun _ _ h => h.1) hnamed⟩, fun hs => ?_⟩
  obtain ⟨hfile, hreg, hdir⟩ := twice_lookup
  have hsplit : (splitPath (render [nameA]) ⟨[0, 0], [0, 0]⟩) = ([slash], nameA.bytes) := by decide
  have hone := (step_sized_iff (kept_of_run twice_reachable) hnamed).2.2.mp hs 1 0 hfile ?_ ?_ hdir
    (by omega)
  · rw [hsplit] at hone
    have h0 := twice_taken (j := 0) (by omega) (by decide +kernel)
    have h1 := twice_taken (j := 1) (by omega) (by decide +kernel)
    obtain ⟨s, hs⟩ := Finset.card_eq_one.mp hone
    rw [hs, Finset.mem_singleton] at h0 h1
    cases h0.trans h1.symm
  · rintro (hx | hx | hx)
    · cases hx
    · rw [hreg] at hx
      cases hx.1
    · rw [hsplit] at hx
      cases hx
  · rw [hsplit]
    rfl

end ToyOS.Ramdisk.Sizes
