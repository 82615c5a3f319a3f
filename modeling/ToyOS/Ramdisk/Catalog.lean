import ToyOS.Ramdisk.Unlinking
import ToyOS.Ramdisk.Records

/-! # The entries of a file system

`counts` selects the inodes whose leaf blocks are read as directory entries.
`Shelved` says that these blocks hold slots and nothing else: a slot is blank or
has a name that ends inside its field. `Catalogued` adds that each number is
that of an inode in use, entered nowhere else. The search for an entry, the
filling of one and the removal of a file keep both.
-/
namespace ToyOS.Ramdisk.Catalog
open ToyOS.Lib.CStrings ToyOS.Lib.Words ToyOS.Lib.FirstHit ToyOS.Ramdisk.Image
open ToyOS.Ramdisk.Blocks ToyOS.Ramdisk.Places ToyOS.Ramdisk.Ownership ToyOS.Ramdisk.Growth
open ToyOS.Ramdisk.Paths ToyOS.Ramdisk.Lookup ToyOS.Ramdisk.Directories ToyOS.Ramdisk.Scanning
open ToyOS.Ramdisk.Clearing ToyOS.Ramdisk.Slots ToyOS.Ramdisk.Namespace ToyOS.Ramdisk.Creating
open ToyOS.Ramdisk.Removing ToyOS.Ramdisk.Unlinking ToyOS.Ramdisk.Records ToyOS.Ramdisk.Effects
open ToyOS.Ramdisk.Write ToyOS.Ramdisk.Writing

variable {counts : Option FileType → Prop} {fs fs' : FileSys} {p q : Place} {s s' : Place × Nat}
variable {x n k d cur mode : Nat} {t name : Str} {e : EntryPtr} {type : FileType}

/-- The inodes that are directories. -/
def IsDir (t : Option FileType) : Prop := t = some .dir

/-- A leaf block of an inode that counts. -/
structure EntryBlock (counts : Option FileType → Prop) (fs : FileSys) (p : Place) : Prop where
  valid : p.Valid
  leaf : ¬ p.IsIndex
  counted : counts (fs.inodes p.node).type
  there : ref fs p ≠ 0

/-- A slot of such a block with the number `n`. -/
structure Entry (counts : Option FileType → Prop) (fs : FileSys) (s : Place × Nat) (n : Nat) :
    Prop where
  block : EntryBlock counts fs s.1
  slot_lt : s.2 < 16
  num : fs.entryNum (blockOf (ref fs s.1)) s.2 = n
  ne : n ≠ 0

structure Shelved (counts : Option FileType → Prop) (fs : FileSys) : Prop where
  owned : Owned every fs
  /-- The double level has no leaf blocks. -/
  flat : ∀ k i, k < 1024 → i < 64 → counts (fs.inodes k).type → ref fs (.index k i) = 0
  terminated : ∀ p, EntryBlock counts fs p → Terminated fs (blockOf (ref fs p))
  blank : ∀ p, EntryBlock counts fs p → ∀ j, j < 16 →
    fs.entryNum (blockOf (ref fs p)) j = 0 → fs.dataBlocks (blockOf (ref fs p)) (16 * j) = 0

structure Catalogued (counts : Option FileType → Prop) (fs : FileSys) : Prop
    extends Shelved counts fs where
  names : ∀ s n, Entry counts fs s n → n < 1024 ∧ (fs.inodes n).type ≠ none ∧ n ≠ s.1.node
  unique : ∀ s s' n, Entry counts fs s n → Entry counts fs s' n → s = s'

/-- A file system without blocks. -/
theorem catalogued_empty (ho : Owned every fs) (h0 : ∀ q, ref fs q = 0) : Catalogued counts fs where
  owned := ho
  flat _ _ _ _ _ := h0 _
  terminated p hp := absurd (h0 p) hp.there
  blank p hp := absurd (h0 p) hp.there
  names s _ hs := absurd (h0 s.1) hs.block.there
  unique s _ _ hs := absurd (h0 s.1) hs.block.there

/-! ## Looking up a name -/

theorem EntryBlock.of_slot (hx : x < 1024) (hc : counts (fs.inodes x).type) (hs : s ∈ slots x)
    (h0 : ref fs s.1 ≠ 0) : EntryBlock counts fs s.1 ∧ s.1.node = x ∧ s.2 < 16 := by
  obtain ⟨hp, hj⟩ := mem_slotsOf.mp hs
  obtain ⟨hv, hl, hn⟩ := (mem_leaves hx).mp hp
  exact ⟨⟨hv, hl, by rw [hn]; exact hc, h0⟩, hn, hj⟩

theorem EntryBlock.mem_leaves (h : EntryBlock counts fs p) : p ∈ leaves p.node :=
  (Lookup.mem_leaves (Place.Valid.node_lt h.valid)).mpr ⟨h.valid, h.leaf, rfl⟩

theorem Entry.mem_slots (h : Entry counts fs s n) : s ∈ slots s.1.node :=
  mem_slotsOf.mpr ⟨h.block.mem_leaves, h.slot_lt⟩

/-- An entry that reads as a name has a number. -/
theorem Shelved.entry (h : Shelved counts fs) (hb : EntryBlock counts fs s.1) (hj : s.2 < 16)
    (ht : t ≠ []) (hz : 0 ∉ t) (hr : reading fs t s = some n) : Entry counts fs s n := by
  obtain ⟨-, hname, hnum⟩ := reading_eq_some.mp hr
  refine ⟨hb, hj, hnum, ?_⟩
  rintro rfl
  have hblank := h.blank s.1 hb s.2 hj hnum
  cases t with
  | nil => exact ht rfl
  | cons c t =>
    unfold FileSys.entryNameIs at hname
    rw [strEq, Bool.and_eq_true, beq_iff_eq] at hname
    have hw : fs.window (blockOf (ref fs s.1)) (16 * s.2) =
        fs.dataBlocks (blockOf (ref fs s.1)) (16 * s.2) := by
      simp only [FileSys.window, Nat.div_eq_of_lt (show 16 * s.2 < 256 by omega),
        Nat.mod_eq_of_lt (show 16 * s.2 < 256 by omega), Nat.add_zero]
    rw [hw, hblank] at hname
    exact hz (by simp [← hname.1])

/-- A round of the lookup ends at the first entry with the name. -/
theorem Catalogued.findComponent (h : Catalogued counts fs) (hx : x < 1024)
    (hc : counts (fs.inodes x).type) (ht : t ≠ []) (hz : 0 ∉ t) :
    findComponent fs x t = (slots x).findSome? (reading fs t) := by
  refine findComponent_slots fun s hs hr => ?_
  obtain ⟨h0, -⟩ := reading_eq_some.mp hr
  obtain ⟨hb, hn, hj⟩ := EntryBlock.of_slot hx hc hs h0
  exact (h.names s x (h.entry hb hj ht hz hr)).2.2 hn.symm

/-- What a round finds, by any name at all, is 0 or the number of an entry. -/
theorem Catalogued.found (h : Catalogued counts fs) (hx : x < 1024)
    (hc : counts (fs.inodes x).type) (hf : Paths.findComponent fs x t = some n) :
    n = 0 ∨ n < 1024 ∧ (fs.inodes n).type ≠ none := by
  obtain ⟨s, hs, hr, -⟩ := findComponent_some hf
  obtain ⟨h0, -, hnum⟩ := reading_eq_some.mp hr
  obtain ⟨hb, -, hj⟩ := EntryBlock.of_slot hx hc hs h0
  by_cases hn : n = 0
  · exact .inl hn
  · have := h.names s n ⟨hb, hj, hnum, hn⟩
    exact .inr ⟨this.1, this.2.1⟩

/-- By a name it is the number of an entry. -/
theorem Shelved.found_entry (h : Shelved counts fs) (hx : x < 1024)
    (hc : counts (fs.inodes x).type) (ht : t ≠ []) (hz : 0 ∉ t)
    (hf : Paths.findComponent fs x t = some n) :
    ∃ s ∈ slots x, reading fs t s = some n ∧ Entry counts fs s n := by
  obtain ⟨s, hs, hr, -⟩ := findComponent_some hf
  obtain ⟨h0, -, -⟩ := reading_eq_some.mp hr
  obtain ⟨hb, -, hj⟩ := EntryBlock.of_slot hx hc hs h0
  exact ⟨s, hs, hr, h.entry hb hj ht hz hr⟩

/-! ## Images without a new entry -/

/-- The sixteen bytes of slot `j` at `p` are zero, or what they were. -/
def Held (counts : Option FileType → Prop) (fs fs' : FileSys) (p : Place) (j : Nat) : Prop :=
  (∀ a, 16 * j ≤ a → a < 16 * j + 16 → fs'.dataBlocks (blockOf (ref fs' p)) a = 0) ∨
    EntryBlock counts fs p ∧ ∀ a, 16 * j ≤ a → a < 16 * j + 16 →
      fs'.dataBlocks (blockOf (ref fs' p)) a = fs.dataBlocks (blockOf (ref fs p)) a

/-- An entry was there before. -/
theorem Entry.held (h : Entry counts fs' s n) (hh : Held counts fs fs' s.1 s.2) :
    Entry counts fs s n := by
  have hnum := h.num
  unfold FileSys.entryNum at hnum
  rcases hh with hz | ⟨hb, hs⟩
  · rw [load_zero fun a h1 h2 => hz a (by omega) (by omega)] at hnum
    exact absurd hnum.symm h.ne
  · rw [load_congr fun a h1 h2 => hs a (by omega) (by omega)] at hnum
    exact ⟨hb, h.slot_lt, hnum, h.ne⟩

theorem Shelved.keep (h : Shelved counts fs) (ho : Owned every fs')
    (hflat : ∀ k i, k < 1024 → i < 64 → counts (fs'.inodes k).type → ref fs' (.index k i) = 0)
    (hheld : ∀ p, EntryBlock counts fs' p → ∀ j, j < 16 → Held counts fs fs' p j) :
    Shelved counts fs' where
  owned := ho
  flat := hflat
  terminated p hp j hj := by
    rcases hheld p hp j hj with hz | ⟨hb, hs⟩
    · exact ⟨0, by omega, hz _ (by omega) (by omega)⟩
    · obtain ⟨a, ha, hz⟩ := h.terminated p hb j hj
      exact ⟨a, ha, by rw [hs _ (by omega) (by omega)]; exact hz⟩
  blank p hp j hj hnum := by
    rcases hheld p hp j hj with hz | ⟨hb, hs⟩
    · exact hz _ (by omega) (by omega)
    · unfold FileSys.entryNum at hnum
      rw [load_congr fun a h1 h2 => hs a (by omega) (by omega)] at hnum
      rw [hs _ (by omega) (by omega)]
      exact h.blank p hb j hj hnum

theorem Catalogued.keep (h : Catalogued counts fs) (hs : Shelved counts fs')
    (hheld : ∀ p, EntryBlock counts fs' p → ∀ j, j < 16 → Held counts fs fs' p j)
    (hnames : ∀ s n, Entry counts fs' s n → Entry counts fs s n → (fs'.inodes n).type ≠ none) :
    Catalogued counts fs' where
  toShelved := hs
  names s n hs := by
    have hs₀ := hs.held (hheld s.1 hs.block s.2 hs.slot_lt)
    have := h.names s n hs₀
    exact ⟨this.1, hnames s n hs hs₀, this.2.2⟩
  unique s s' n hs hs' := h.unique s s' n (hs.held (hheld s.1 hs.block s.2 hs.slot_lt))
    (hs'.held (hheld s'.1 hs'.block s'.2 hs'.slot_lt))

/-- Types are the same, and so are pointers and leaf blocks of the inodes that count. -/
structure SameEntries (counts : Option FileType → Prop) (fs fs' : FileSys) : Prop where
  types : ∀ k, (fs'.inodes k).type = (fs.inodes k).type
  refs : ∀ q, q.Valid → counts (fs.inodes q.node).type → ref fs' q = ref fs q
  blocks : ∀ q, EntryBlock counts fs q →
    fs'.dataBlocks (blockOf (ref fs q)) = fs.dataBlocks (blockOf (ref fs q))

theorem SameEntries.block (h : SameEntries counts fs fs') (hp : EntryBlock counts fs' p) :
    EntryBlock counts fs p ∧ ref fs' p = ref fs p := by
  obtain ⟨hv, hl, hc, h0⟩ := hp
  rw [h.types] at hc
  have hr := h.refs p hv hc
  rw [hr] at h0
  exact ⟨⟨hv, hl, hc, h0⟩, hr⟩

theorem SameEntries.held (h : SameEntries counts fs fs') (hp : EntryBlock counts fs' p) (j : Nat) :
    Held counts fs fs' p j := by
  obtain ⟨hp₀, hr⟩ := h.block hp
  rw [Held, hr]
  exact .inr ⟨hp₀, fun a _ _ => congrFun (h.blocks p hp₀) a⟩

theorem Shelved.same (h : Shelved counts fs) (ho : Owned every fs')
    (hs : SameEntries counts fs fs') : Shelved counts fs' := by
  refine h.keep ho (fun k i hk hi hc => ?_) fun p hp j _ => hs.held hp j
  rw [hs.types] at hc
  rw [hs.refs (.index k i) ⟨hk, hi⟩ hc]
  exact h.flat k i hk hi hc

theorem Catalogued.same (h : Catalogued counts fs) (ho : Owned every fs')
    (hs : SameEntries counts fs fs') : Catalogued counts fs' := by
  refine h.keep (h.toShelved.same ho hs) (fun p hp j _ => hs.held hp j) fun s n _ he => ?_
  rw [hs.types]
  exact (h.names s n he).2.1

/-! ## Names -/

/-- The name in slot `s` is `t`. -/
def Named (fs : FileSys) (s : Place × Nat) (t : Str) : Prop :=
  fs.entryNameIs (blockOf (ref fs s.1)) s.2 t = true

theorem Named.unique {u : Str} (ht : 0 ∉ t) (hu : 0 ∉ u) (h : Named fs s t) (h' : Named fs s u) :
    t = u := strEq_unique ht hu h h'

theorem Entry.reading_iff (h : Entry counts fs s n) : reading fs t s = some n ↔ Named fs s t :=
  reading_eq_some.trans ⟨fun hr => hr.2.1, fun hn => ⟨h.block.there, hn, h.num⟩⟩

/-- The entries of an inode have different names. -/
def Distinct (counts : Option FileType → Prop) (fs : FileSys) : Prop :=
  ∀ s s' n n' t, Entry counts fs s n → Entry counts fs s' n' → s.1.node = s'.1.node → t ≠ [] →
    0 ∉ t → Named fs s t → Named fs s' t → s = s'

theorem Entry.named_held (h : Shelved counts fs) (he : Entry counts fs' s n)
    (hh : Held counts fs fs' s.1 s.2) (hz : 0 ∉ t) : Named fs' s t ↔ Named fs s t := by
  have hnum := he.num
  unfold FileSys.entryNum at hnum
  rcases hh with hzero | ⟨hb, hs⟩
  · rw [load_zero fun a h1 h2 => hzero a (by omega) (by omega)] at hnum
    exact absurd hnum.symm he.ne
  · unfold Named
    rw [entryNameIs_congr hz (h.terminated s.1 hb) he.slot_lt fun a h1 h2 => hs a h1 (by omega)]

/-- An entry whose sixteen bytes are the same stays what it is. -/
theorem Entry.carry (he : Entry counts fs s n) (h : Shelved counts fs) (hz : 0 ∉ t)
    (hc : counts (fs'.inodes s.1.node).type) (hr : ref fs' s.1 = ref fs s.1)
    (hb : ∀ a, 16 * s.2 ≤ a → a < 16 * s.2 + 16 →
      fs'.dataBlocks (blockOf (ref fs s.1)) a = fs.dataBlocks (blockOf (ref fs s.1)) a) :
    Entry counts fs' s n ∧ (Named fs' s t ↔ Named fs s t) := by
  have hnum := he.num
  unfold FileSys.entryNum at hnum
  rw [← load_congr fun a h1 h2 => hb a (by omega) (by omega)] at hnum
  refine ⟨⟨⟨he.block.valid, he.block.leaf, hc, ?_⟩, he.slot_lt, ?_, he.ne⟩, ?_⟩
  · rw [hr]
    exact he.block.there
  · rw [hr]
    exact hnum
  · unfold Named
    rw [hr, entryNameIs_congr hz (h.terminated s.1 he.block) he.slot_lt fun a h1 h2 => hb a h1 (by omega)]

theorem Distinct.keep (hd : Distinct counts fs) (h : Shelved counts fs)
    (hheld : ∀ p, EntryBlock counts fs' p → ∀ j, j < 16 → Held counts fs fs' p j) :
    Distinct counts fs' := by
  intro s s' n n' t he he' hnode ht hz hn hn'
  have hh := hheld s.1 he.block s.2 he.slot_lt
  have hh' := hheld s'.1 he'.block s'.2 he'.slot_lt
  exact hd s s' n n' t (he.held hh) (he'.held hh') hnode ht hz ((he.named_held h hh hz).mp hn)
    ((he'.named_held h hh' hz).mp hn')

/-! ## Creating a file -/

theorem getNextEntry_types (ho : Owned every fs) (hk : k < 1024) (j : Nat) :
    ((getNextEntry fs k).1.inodes j).type = (fs.inodes j).type := by
  have hx := (getNextEntry_spec ho hk).extends ho
  by_cases e : j = k
  · rw [e]
    exact hx.type
  · rw [hx.inodes j e]

/-- The search for an entry takes zeroed blocks and leaves the others as they are. -/
theorem search_held (ho : Owned every fs) (hk : k < 1024)
    (hp : EntryBlock counts (getNextEntry fs k).1 p) (j : Nat) :
    Held counts fs (getNextEntry fs k).1 p j := by
  have hx := (getNextEntry_spec ho hk).extends ho
  have htype := getNextEntry_types ho hk
  generalize (getNextEntry fs k).1 = fs' at hx htype hp ⊢
  obtain ⟨hv, hl, hc, h0⟩ := hp
  rw [htype] at hc
  by_cases hz : ref fs p = 0
  · exact .inl fun a _ _ => hx.zero p hv hl hz h0 a
  · rw [Held, hx.keeps p hv fun _ => hz]
    exact .inr ⟨⟨hv, hl, hc, hz⟩, fun a _ _ => congrFun (hx.leaves p hv hl hz) a⟩

theorem Shelved.search (h : Shelved counts fs) (hk : k < 1024) :
    Shelved counts (getNextEntry fs k).1 := by
  have hx := (getNextEntry_spec h.owned hk).extends h.owned
  refine h.keep hx.owned (fun k' i hk' hi hc => ?_) fun p hp j _ => search_held h.owned hk hp j
  rw [getNextEntry_types h.owned hk] at hc
  by_cases e : k' = k
  · subst e
    rw [getNextEntry_index h.owned hk hi]
    exact h.flat k' i hk' hi hc
  · rw [hx.keeps (.index k' i) ⟨hk', hi⟩ fun hn => absurd hn e]
    exact h.flat k' i hk' hi hc

theorem Catalogued.search (h : Catalogued counts fs) (hk : k < 1024) :
    Catalogued counts (getNextEntry fs k).1 := by
  refine h.keep (h.toShelved.search hk) (fun p hp j _ => search_held h.owned hk hp j)
    fun s n _ hs => ?_
  rw [getNextEntry_types h.owned hk]
  exact (h.names s n hs).2.1

/-- The block of the entry found is in the parent, where it is anywhere. -/
theorem entry_node (ho : Owned every fs) (hc : cur < 1024) (hg : getNextEntry fs cur = (fs', some e))
    (hv : s.1.Valid) (h0 : ref fs' s.1 ≠ 0) (hb : blockOf (ref fs' s.1) = e.block) :
    s.1.node = cur := by
  have hnext := getNextEntry_next ho hc hg
  have hown := (hnext.extends ho).owned
  have href : ref fs' s.1 = ptrTo e.block := by rw [← hb, ptrTo_blockOf h0]
  cases hnext with
  | leaf hp _ hk _ _ hat =>
    rw [hown.unique hv trivial hp trivial h0 (href.trans hat.entry.1.symm)]
    exact hk
  | unlinked _ hfresh => exact absurd href (hfresh s.1 hv)

section
variable {m : Bytes} {slot a : Nat} (hname : name.length ≤ 13)
include hname

theorem entryBytes_of_ne (ha : a < 16 * slot ∨ 16 * slot + 16 ≤ a) :
    entryBytes m slot name n a = m a := by
  rw [entryBytes, store_of_lt_or_le _ (by omega), copyStr_of_lt_or_gt _ (by omega)]

theorem entryBytes_end : entryBytes m slot name n (16 * slot + name.length) = 0 := by
  rw [entryBytes, store_of_lt_or_le _ (by omega), copyStr_end]

omit hname in
theorem entryBytes_num (hn : n < 1024) :
    load (entryBytes m slot name n) (16 * slot + 14) 2 = n := by
  rw [entryBytes, load_store_self _ _ (by omega), Nat.mod_eq_of_lt (by omega)]

end

/-- The image once slot `e` has been filled in for inode `n`. -/
structure Filled (fs : FileSys) (e : EntryPtr) (n : Nat) (name : Str) (type : FileType)
    (fs' : FileSys) : Prop where
  types : ∀ k, (fs'.inodes k).type = if k = n then some type else (fs.inodes k).type
  refs : ∀ q, q.Valid → ref fs' q = if q.node = n then 0 else ref fs q
  mine : fs'.dataBlocks e.block = entryBytes (fs.dataBlocks e.block) e.slot name n
  other : ∀ b, b ≠ e.block → fs'.dataBlocks b = fs.dataBlocks b
  owned : Owned every fs'

theorem fillEntry_filled (ho : Owned every fs) (hs : e.slot < 16) (hname : name.length ≤ 13)
    (hb : ∀ q, q.Valid → q.IsIndex → ref fs q ≠ ptrTo e.block) :
    Filled fs e n name type (fillEntry fs cur e n name type mode) := by
  have hfit : 16 * e.slot + name.length < 256 := by omega
  exact ⟨fillEntry_type hfit, fun q hq => fillEntry_ref hfit hb hq, fillEntry_block hfit,
    fun b hne => fillEntry_blocks_ne hfit hne, fillEntry_owned hfit ho hb⟩

section
variable (hf : Filled fs e n name type fs')
include hf

/-- The blocks that count are those of before. -/
theorem Filled.block (hp : EntryBlock counts fs' p) :
    EntryBlock counts fs p ∧ p.node ≠ n ∧ ref fs' p = ref fs p := by
  obtain ⟨hv, hl, hc, h0⟩ := hp
  have hr := hf.refs p hv
  rw [hr] at h0
  split at h0
  · exact absurd rfl h0
  · rename_i hne
    rw [hf.types, if_neg hne] at hc
    exact ⟨⟨hv, hl, hc, h0⟩, hne, by rw [hr, if_neg hne]⟩

/-- Another slot is as it was. -/
theorem Filled.slot (hname : name.length ≤ 13) {b j : Nat} (hj : ¬ (b = e.block ∧ j = e.slot))
    {a : Nat} (h1 : 16 * j ≤ a) (h2 : a < 16 * j + 16) :
    fs'.dataBlocks b a = fs.dataBlocks b a := by
  by_cases hm : b = e.block
  · have hne : j ≠ e.slot := fun h => hj ⟨hm, h⟩
    rw [hm, hf.mine, entryBytes_of_ne hname (by omega)]
  · rw [hf.other _ hm]

/-- The slot filled in has the name, with its terminator inside the name field. -/
theorem Filled.name_self (hname : name.length ≤ 13) (hs : e.slot < 16) :
    fs'.entryNameIs e.block e.slot name = true := by
  unfold FileSys.entryNameIs
  rw [← strEq_copyStr (fs.dataBlocks e.block) (16 * e.slot) name]
  refine strEq_congr fun a h1 h2 => ?_
  simp only [FileSys.window, Nat.div_eq_of_lt (show a < 256 by omega),
    Nat.mod_eq_of_lt (show a < 256 by omega), Nat.add_zero]
  rw [hf.mine, entryBytes, store_of_lt_or_le _ (by omega)]

/-- An entry is the new one or one of before. -/
theorem Filled.entry (hname : name.length ≤ 13) (hn : n < 1024) {m : Nat}
    (hs : Entry counts fs' s m) :
    (blockOf (ref fs s.1) = e.block ∧ s.2 = e.slot ∧ m = n) ∨
      ¬ (blockOf (ref fs s.1) = e.block ∧ s.2 = e.slot) ∧ Entry counts fs s m := by
  obtain ⟨hp, hne, hr⟩ := hf.block hs.block
  have hnum := hs.num
  rw [hr] at hnum
  unfold FileSys.entryNum at hnum
  by_cases hj : blockOf (ref fs s.1) = e.block ∧ s.2 = e.slot
  · rw [hj.1, hj.2, hf.mine, entryBytes_num hn] at hnum
    exact .inl ⟨hj.1, hj.2, hnum.symm⟩
  · rw [load_congr fun a h1 h2 => hf.slot hname hj (by omega) (by omega)] at hnum
    exact .inr ⟨hj, hp, hs.slot_lt, hnum, hs.ne⟩

/-- A new entry, in whatever block. -/
theorem Shelved.fill (h : Shelved counts fs) (hname : name.length ≤ 13) (hn : n < 1024)
    (h1 : 1 ≤ n) : Shelved counts fs' := by
  refine ⟨hf.owned, fun k i hk hi hc => ?_, fun p hp j hj => ?_, fun p hp j hj hnum => ?_⟩
  · rw [hf.refs (.index k i) ⟨hk, hi⟩]
    split
    · rfl
    · rename_i hne
      have hne : k ≠ n := hne
      rw [hf.types, if_neg hne] at hc
      exact h.flat k i hk hi hc
  · obtain ⟨hp', -, hr⟩ := hf.block hp
    rw [hr]
    by_cases hx : blockOf (ref fs p) = e.block ∧ j = e.slot
    · refine ⟨name.length, by omega, ?_⟩
      rw [hx.1, hx.2, hf.mine, entryBytes_end hname]
    · obtain ⟨a, ha, hz⟩ := h.terminated p hp' j hj
      exact ⟨a, ha, by rw [hf.slot hname hx (by omega) (by omega)]; exact hz⟩
  · obtain ⟨hp', -, hr⟩ := hf.block hp
    rw [hr] at hnum ⊢
    unfold FileSys.entryNum at hnum
    by_cases hx : blockOf (ref fs p) = e.block ∧ j = e.slot
    · rw [hx.1, hx.2, hf.mine, entryBytes_num hn] at hnum
      omega
    · rw [load_congr fun a h1 h2 => hf.slot hname hx (by omega) (by omega)] at hnum
      rw [hf.slot hname hx (by omega) (by omega)]
      exact h.blank p hp' j hj hnum

/-- The same for an inode that was free. -/
theorem Catalogued.fill (h : Catalogued counts fs) (hname : name.length ≤ 13) (hn : n < 1024)
    (h1 : 1 ≤ n) (hfree : (fs.inodes n).type = none) : Catalogued counts fs' := by
  refine ⟨h.toShelved.fill hf hname hn h1, fun s m hs => ?_, fun s s' m hs hs' => ?_⟩
  · obtain ⟨-, hne, -⟩ := hf.block hs.block
    rcases hf.entry hname hn hs with ⟨-, -, rfl⟩ | ⟨-, hs₀⟩
    · exact ⟨hn, by rw [hf.types, if_pos rfl]; exact Option.some_ne_none _, hne.symm⟩
    · obtain ⟨hlt, hin, hself⟩ := h.names s m hs₀
      refine ⟨hlt, ?_, hself⟩
      rw [hf.types]
      split
      · exact Option.some_ne_none _
      · exact hin
  · -- the number of the new entry was not in use
    have hfresh : ∀ s, ¬ Entry counts fs s n := fun s hs => (h.names s n hs).2.1 hfree
    obtain ⟨hp, -, -⟩ := hf.block hs.block
    obtain ⟨hp', -, -⟩ := hf.block hs'.block
    rcases hf.entry hname hn hs with ⟨hb₁, hj₁, rfl⟩ | ⟨-, hs₀⟩ <;>
      rcases hf.entry hname hn hs' with ⟨hb₂, hj₂, e₂⟩ | ⟨-, hs₀'⟩
    · have hpp : s.1 = s'.1 := h.owned.unique hp.valid trivial hp'.valid trivial hp.there (by
        rw [← ptrTo_blockOf hp.there, hb₁, ← hb₂, ptrTo_blockOf hp'.there])
      exact Prod.ext hpp (hj₁.trans hj₂.symm)
    · exact absurd hs₀' (hfresh s')
    · subst e₂
      exact absurd hs₀ (hfresh s)
    · exact h.unique s s' m hs₀ hs₀'

/-- The new entry has the name, and the others keep theirs. -/
theorem Filled.named (h : Shelved counts fs) (hname : name.length ≤ 13) (hzn : 0 ∉ name) (hz : 0 ∉ t)
    (hp : EntryBlock counts fs' s.1) (hj : s.2 < 16) :
    (blockOf (ref fs s.1) = e.block ∧ s.2 = e.slot → (Named fs' s t ↔ t = name)) ∧
      (¬ (blockOf (ref fs s.1) = e.block ∧ s.2 = e.slot) → (Named fs' s t ↔ Named fs s t)) := by
  obtain ⟨hp₀, -, hr⟩ := hf.block hp
  unfold Named
  rw [hr]
  constructor
  · rintro ⟨hb, hs⟩
    have hself := hf.name_self hname (hs ▸ hj)
    rw [hb, hs]
    constructor
    · exact fun ht => strEq_unique hz hzn ht hself
    · rintro rfl
      exact hself
  · intro hx
    rw [entryNameIs_congr hz (h.terminated s.1 hp₀) hj fun a h1 h2 => hf.slot hname hx h1 (by omega)]

/-- A name new to the inode whose block it goes to. -/
theorem Distinct.fill (hd : Distinct counts fs) (h : Shelved counts fs) (hname : name.length ≤ 13)
    (hn : n < 1024) (hzn : 0 ∉ name)
    (hnew : name ≠ [] → ∀ (s s' : Place × Nat) (m : Nat), EntryBlock counts fs s.1 →
      blockOf (ref fs s.1) = e.block → Entry counts fs s' m → s.1.node = s'.1.node → ¬ Named fs s' name) : Distinct counts fs' := by
  intro s s' m m' t he he' hnode ht hz hnm hnm'
  obtain ⟨hp, -, -⟩ := hf.block he.block
  obtain ⟨hp', -, -⟩ := hf.block he'.block
  obtain ⟨h1, h2⟩ := hf.named (t := t) h hname hzn hz he.block he.slot_lt
  obtain ⟨h1', h2'⟩ := hf.named (t := t) h hname hzn hz he'.block he'.slot_lt
  rcases hf.entry hname hn he with ⟨hb, hs, -⟩ | ⟨hx, he₀⟩ <;>
    rcases hf.entry hname hn he' with ⟨hb', hs', -⟩ | ⟨hx', he₀'⟩
  · have hpp : s.1 = s'.1 := h.owned.unique hp.valid trivial hp'.valid trivial hp.there (by
      rw [← ptrTo_blockOf hp.there, hb, ← hb', ptrTo_blockOf hp'.there])
    exact Prod.ext hpp (hs.trans hs'.symm)
  · obtain rfl := (h1 ⟨hb, hs⟩).mp hnm
    exact absurd ((h2' hx').mp hnm') (hnew ht s s' m' hp hb he₀' hnode)
  · obtain rfl := (h1' ⟨hb', hs'⟩).mp hnm'
    exact absurd ((h2 hx).mp hnm) (hnew ht s' s m hp' hb' he₀ hnode.symm)
  · exact hd s s' m m' t he₀ he₀' hnode ht hz ((h2 hx).mp hnm) ((h2' hx').mp hnm')

end

/-! ## Removing a file -/

theorem Shelved.allTerminated (h : Shelved counts fs) (hd : d < 1024)
    (hc : counts (fs.inodes d).type) : AllTerminated fs d := by
  intro p hp h0
  obtain ⟨hv, hl, hn⟩ := (Lookup.mem_leaves hd).mp hp
  exact h.terminated p ⟨hv, hl, by rw [hn]; exact hc, h0⟩

/-- A level in which no entry reads as the name does not have it. -/
theorem not_hasName {ps : List Place} (h : (slotsOf ps).findSome? (reading fs name) = none) :
    ∀ q ∈ ps, ¬ HasName fs name q := by
  rintro q hq ⟨h0, hn⟩
  obtain ⟨j, hj, hname⟩ := named_iff.mp hn
  have hr := List.findSome?_eq_none_iff.mp h (q, j) (mem_slotsOf.mpr ⟨hq, hj⟩)
  rw [reading_eq_none.mp hr h0] at hname
  cases hname

/-- The entry a lookup finds is in the level that is swept. -/
theorem Catalogued.found_swept (h : Catalogued counts fs) (hd : d < 1024)
    (hc : counts (fs.inodes d).type) (ht : name ≠ []) (hz : 0 ∉ name)
    (hf : Paths.findComponent fs d name = some k) :
    ∃ s, Entry counts fs s k ∧ s.1.node = d ∧ reading fs name s = some k ∧
      Swept fs d name s.1 := by
  have hentry : ∀ s ∈ slots d, reading fs name s = some k →
      Entry counts fs s k ∧ s.1.node = d := fun s hs hr => by
    obtain ⟨hb, hn, hj⟩ := EntryBlock.of_slot hd hc hs (reading_eq_some.mp hr).1
    exact ⟨h.entry hb hj ht hz hr, hn⟩
  have hmem : ∀ ps : List Place, (∀ p ∈ ps, p ∈ leaves d) → ∀ s ∈ slotsOf ps, s ∈ slots d :=
    fun ps hps s hs => mem_slotsOf.mpr ⟨hps _ (mem_slotsOf.mp hs).1, (mem_slotsOf.mp hs).2⟩
  rw [h.findComponent hd hc ht hz, slots_levels, List.findSome?_append,
    List.findSome?_append] at hf
  cases h1 : (slotsOf (directLeaves d)).findSome? (reading fs name) with
  | some m =>
    rw [h1, Option.some_or] at hf
    rw [Option.some.inj hf] at h1
    obtain ⟨s, hs, hr⟩ := List.exists_of_findSome?_eq_some h1
    obtain ⟨he, hn⟩ := hentry s (hmem _ (fun p => (left_members p).1) s hs) hr
    exact ⟨s, he, hn, hr, .inl (mem_slotsOf.mp hs).1⟩
  | none =>
    rw [h1, Option.none_or] at hf
    cases h2 : (slotsOf (singleLeaves d)).findSome? (reading fs name) with
    | some m =>
      rw [h2, Option.some_or] at hf
      rw [Option.some.inj hf] at h2
      obtain ⟨s, hs, hr⟩ := List.exists_of_findSome?_eq_some h2
      obtain ⟨he, hn⟩ := hentry s (hmem _ (fun p => (left_members p).2) s hs) hr
      exact ⟨s, he, hn, hr, .inr ⟨(mem_slotsOf.mp hs).1, not_hasName h1⟩⟩
    | none =>
      -- the double level has no blocks
      rw [h2, Option.none_or] at hf
      obtain ⟨s, hs, hr⟩ := List.exists_of_findSome?_eq_some hf
      obtain ⟨i, j, hi, hj, e⟩ := mem_doubleLeaves.mp (mem_slotsOf.mp hs).1
      have h0 := (reading_eq_some.mp hr).1
      rw [e, ref_up (p := .dleaf d i j) (r := .index d i) rfl, h.flat d i hd hi hc] at h0
      exact absurd rfl h0

/-- What the slots of the blocks that count hold after a removal: zeros or what
they held, and zeros where the swept level has the name. -/
theorem Shelved.remove_held (h : Shelved counts fs) (hk : k < 1024) (hd : d < 1024) (hz : 0 ∉ name)
    (hp : EntryBlock counts (removeFile fs k d name) p) :
    p.node ≠ k ∧ EntryBlock counts fs p ∧ ref (removeFile fs k d name) p = ref fs p ∧
      ∀ j, j < 16 → Held counts fs (removeFile fs k d name) p j ∧
        (p.node = d → Swept fs d name p →
          fs.entryNameIs (blockOf (ref fs p)) j name = true →
          (removeFile fs k d name).entryNum (blockOf (ref fs p)) j = 0) := by
  obtain ⟨S, hr, -⟩ := removeFile_removed h.owned hk hd name
  have hleft := fun (hc : counts (fs.inodes d).type) (hne : d ≠ k) q =>
    removeFile_left (p := q) h.owned hd hne hz (h.allTerminated hd hc) hk
  generalize removeFile fs k d name = fs' at hr hleft hp ⊢
  obtain ⟨hv, hl, hcount, h0⟩ := hp
  have hnk : p.node ≠ k := fun e => h0 (hr.gone p hv (.inl e))
  have hnS : ¬ S p := fun hS => h0 (hr.gone p hv (.inr hS))
  have href := hr.kept p hv hnk hnS
  rw [href] at h0
  by_cases hnd : p.node = d
  · have hne : d ≠ k := hnd ▸ hnk
    have hc : counts (fs.inodes d).type := by
      rw [hnd, (hr.parent hne).1] at hcount
      exact hcount
    have hmem : p ∈ leaves d := (Lookup.mem_leaves hd).mpr ⟨hv, hl, hnd⟩
    have hp₀ : EntryBlock counts fs p := ⟨hv, hl, by rw [hnd]; exact hc, h0⟩
    have hlf := hleft hc hne p hmem
    refine ⟨hnk, hp₀, href, fun j hj => ?_⟩
    unfold Held
    rw [href]
    by_cases hS : Swept fs d name p
    · have hsw := hlf.swept hS h0
      cases hname : fs.entryNameIs (blockOf (ref fs p)) j name with
      | true =>
        have hzero : ∀ a, 16 * j ≤ a → a < 16 * j + 16 →
            fs'.dataBlocks (blockOf (ref fs p)) a = 0 := fun a h1 h2 => by
          rw [hsw a (by omega), show a / 16 = j by omega, if_pos hname]
        exact ⟨.inl hzero, fun _ _ _ => load_zero fun a h1 h2 => hzero a (by omega) (by omega)⟩
      | false =>
        refine ⟨.inr ⟨hp₀, fun a h1 h2 => ?_⟩, fun _ _ hx => by cases hx⟩
        rw [hsw a (by omega), show a / 16 = j by omega, if_neg (by simp [hname])]
    · exact ⟨.inr ⟨hp₀, fun a _ _ => congrFun (hlf.rest hS h0) a⟩, fun _ hS' _ => absurd hS' hS⟩
  · rw [hr.inodes _ hnk hnd] at hcount
    have hp₀ : EntryBlock counts fs p := ⟨hv, hl, hcount, h0⟩
    refine ⟨hnk, hp₀, href, fun j hj => ⟨.inr ⟨hp₀, fun a _ _ => ?_⟩, fun hx => absurd hx hnd⟩⟩
    rw [href]
    exact congrFun (hr.blocks p hv hnk hnd h0) a

theorem removed_type {S : Place → Prop} (hr : Removed k d S fs fs') {j : Nat} (hj : j ≠ k) :
    (fs'.inodes j).type = (fs.inodes j).type := by
  by_cases hjd : j = d
  · have hne : d ≠ k := hjd ▸ hj
    rw [hjd, (hr.parent hne).1]
  · rw [hr.inodes j hj hjd]

theorem Shelved.remove (h : Shelved counts fs) (hk : k < 1024) (hd : d < 1024) (hz : 0 ∉ name) :
    Shelved counts (removeFile fs k d name) := by
  obtain ⟨S, hr, -⟩ := removeFile_removed h.owned hk hd name
  refine h.keep (hr.owned h.owned) (fun x i hx hi hcx => ?_)
    fun p hp j hj => ((h.remove_held hk hd hz hp).2.2.2 j hj).1
  by_cases hxk : x = k
  · exact hr.gone (.index x i) ⟨hx, hi⟩ (.inl hxk)
  · rw [removed_type hr hxk] at hcx
    by_cases hS : S (.index x i)
    · exact hr.gone _ ⟨hx, hi⟩ (.inr hS)
    · rw [hr.kept (.index x i) ⟨hx, hi⟩ hxk hS]
      exact h.flat x i hx hi hcx

/-- The entries of `d` that go with the name: those of the name in the swept
level, and all of the blocks given back. -/
def TakenOut (fs : FileSys) (d : Nat) (name : Str) (s : Place × Nat) : Prop :=
  Lost fs d name s.1 ∨ Swept fs d name s.1 ∧ Named fs s name

/-- An entry that is taken is no entry afterwards. -/
theorem Shelved.taken_gone (h : Shelved counts fs) (hk : k < 1024) (hd : d < 1024) (hz : 0 ∉ name)
    (he : Entry counts (removeFile fs k d name) s n) (hnode : s.1.node = d) :
    ¬ TakenOut fs d name s := by
  have hp := he.block
  obtain ⟨hnk, hp₀, href, hslot⟩ := h.remove_held hk hd hz hp
  rintro (hL | ⟨hS, hname⟩)
  · have hc : counts (fs.inodes d).type := hnode ▸ hp₀.counted
    have hleft := removeFile_left h.owned hd (hnode ▸ hnk) hz (h.allTerminated hd hc) hk
      (hnode ▸ hp₀.mem_leaves)
    exact hp.there (hleft.lost hL)
  · have hnum := he.num
    rw [href, (hslot s.2 he.slot_lt).2 hnode hS hname] at hnum
    exact he.ne hnum.symm

/-- A file all of whose entries are taken can be removed. -/
theorem Catalogued.remove_all (h : Catalogued counts fs) (hk : k < 1024) (hd : d < 1024)
    (hz : 0 ∉ name) (hall : ∀ s, Entry counts fs s k → s.1.node = d ∧ TakenOut fs d name s) :
    Catalogued counts (removeFile fs k d name) := by
  obtain ⟨S, hr, -⟩ := removeFile_removed h.owned hk hd name
  refine h.keep (h.toShelved.remove hk hd hz)
    (fun p hp j hj => ((h.toShelved.remove_held hk hd hz hp).2.2.2 j hj).1) fun s n hs hs₀ => ?_
  have hnk : n ≠ k := by
    rintro rfl
    obtain ⟨hnode, ht⟩ := hall s hs₀
    exact h.toShelved.taken_gone hk hd hz hs hnode ht
  rw [removed_type hr hnk]
  exact (h.names s n hs₀).2.1

/-- Removing the file a lookup in its directory finds. -/
theorem Catalogued.remove (h : Catalogued counts fs) (hd : d < 1024)
    (hc : counts (fs.inodes d).type) (ht : name ≠ []) (hz : 0 ∉ name)
    (hf : Paths.findComponent fs d name = some k) :
    Catalogued counts (removeFile fs k d name) := by
  obtain ⟨s₀, hs₀, hn₀, hr₀, hS₀⟩ := h.found_swept hd hc ht hz hf
  refine h.remove_all (h.names s₀ k hs₀).1 hd hz fun s hs => ?_
  obtain rfl := h.unique s s₀ k hs hs₀
  exact ⟨hn₀, .inr ⟨hS₀, (reading_eq_some.mp hr₀).2.1⟩⟩

/-! ## Calls that enter and remove nothing -/

theorem sameEntries_chmod (counts : Option FileType → Prop) (fs : FileSys) (k mode : Nat) :
    SameEntries counts fs (fs.setInode k { fs.inodes k with access := mode }) := by
  refine ⟨fun j => ?_, fun q _ _ => ref_setInode fun _ => ⟨rfl, rfl, rfl⟩, fun _ _ => rfl⟩
  by_cases hj : j = k
  · rw [hj, setInode_inodes_self]
  · rw [setInode_inodes_ne _ _ hj]

theorem sameEntries_root (counts : Option FileType → Prop) (h : (fs.inodes 0).type = some .dir) :
    SameEntries counts fs (makeRoot fs) := by
  refine ⟨fun j => ?_, fun q _ _ => makeRoot_ref fs q, fun _ _ => rfl⟩
  by_cases hj : j = 0
  · rw [hj, makeRoot_inodes_zero, h]
  · rw [makeRoot_inodes_ne hj]

/-- Writing to an inode that does not count. -/
theorem sameEntries_write (ho : Owned every fs) (hk : k < 1024) (hc : ¬ counts (fs.inodes k).type)
    (data : Bytes) (m : Int) (c : Nat) :
    SameEntries counts fs (writeStages k data m ⟨fs, c, 0, 0⟩).state.fs := by
  have hg := (writeStages_wrote (w := ⟨fs, c, 0, 0⟩) hk ho data m).grows
  have hr := writeStages_onlySize fs k data m c
  have hnode : ∀ q : Place, counts (fs.inodes q.node).type → q.node ≠ k := by
    rintro q hq rfl
    exact hc hq
  exact ⟨fun j => (hr j).1, fun q hv hq => hg.keeps q hv fun e => absurd e (hnode q hq),
    fun q hq => hg.blocks q hq.valid (hnode q hq.counted) hq.there⟩

end ToyOS.Ramdisk.Catalog
