import ToyOS.Ramdisk.Entering
import ToyOS.Ramdisk.Hierarchy

/-! # A new file is a new leaf

Entered in the directory that the path names, under a name that is new there and
in a block that is linked, a file adds one leaf to the tree of the directories.
-/
namespace ToyOS.Ramdisk.Grafting
open ToyOS.Lib.CStrings ToyOS.Lib.Words ToyOS.Lib.Walks ToyOS.Ramdisk.Image ToyOS.Ramdisk.Blocks
open ToyOS.Ramdisk.Places ToyOS.Ramdisk.Ownership ToyOS.Ramdisk.Growth ToyOS.Ramdisk.Paths
open ToyOS.Ramdisk.Components ToyOS.Ramdisk.Lookup ToyOS.Ramdisk.Directories ToyOS.Ramdisk.Slots
open ToyOS.Ramdisk.Namespace ToyOS.Ramdisk.Creating ToyOS.Ramdisk.Records ToyOS.Ramdisk.Catalog
open ToyOS.Ramdisk.Frames ToyOS.Ramdisk.BlockOwnership ToyOS.Ramdisk.Entering ToyOS.Ramdisk.Hierarchy

variable {fs fs₁ fs' : FileSys} {x d n m mode : Nat} {s : Place × Nat} {e : EntryPtr} {t : Str}
variable {type : FileType} {mem : Scratch} {cs : List Component} {c c' : Component}

/-- A call of `rd_create` that has entered `c` in the directory `d` as inode `n`. -/
structure Enters (fs : FileSys) (d n : Nat) (c : Component) (type : FileType) (mode : Nat)
    (e : EntryPtr) (fs₁ fs' : FileSys) : Prop where
  dir : (fs.inodes d).type = some .dir
  bound : d < 1024
  search : getNextEntry fs d = (fs₁, some e)
  new : NewInode fs₁ n
  filled : Filled fs₁ e n c.bytes type fs'
  records : record fs' = createdRecord fs d n type mode
  fresh : fs'.inodes n = freshInode type mode

theorem enters_of_create (ho : Owned every fs) (hdir : (fs.inodes d).type = some .dir)
    (hfind : findIndex fs (splitPath (render (cs ++ [c])) mem).1 = .inode d)
    (hc : rdCreate fs (render (cs ++ [c])) type mode mem = some (fs', 0)) :
    ∃ n e fs₁, Enters fs d n c type mode e fs₁ fs' := by
  have hres := rdCreate_result hc
  generalize hr : (0 : Int) = r at hres
  cases hres with
  | refused => cases hr
  | noEntry => cases hr
  | @filled cur n fs₁ e hcur _ hfind' hg hn =>
    obtain rfl := Found.inode.inj (hfind.symm.trans hfind')
    have hnext := getNextEntry_next ho hcur hg
    obtain ⟨hslot, hplain⟩ := hnext.plain ho
    have hlen := c.length_le
    have hnew := newInode_of_get hn
    have htype := getNextEntry_types ho hcur d
    have hrec := getNextEntry_records fs d
    rw [hg] at htype hrec
    have hne : n ≠ d := by
      rintro rfl
      rw [hnew.free, hdir] at htype
      cases htype
    rw [splitPath_concat_snd]
    exact ⟨n, e, fs₁, hdir, hcur, hg, hnew,
      fillEntry_filled (hnext.extends ho).owned hslot hlen hplain,
      (fillEntry_record ..).trans (createdRecord_congr hrec), fillEntry_new (by omega) hne⟩

section
variable (h : Sound fs) (hin : Enters fs d n c type mode e fs₁ fs')
include h hin

theorem entered_shelved : Shelved IsDir fs₁ := by
  have h₁ := h.toShelved.search hin.bound
  rwa [hin.search] at h₁

theorem entered_types (j : Nat) : (fs₁.inodes j).type = (fs.inodes j).type := by
  have htype := getNextEntry_types h.owned hin.bound j
  rwa [hin.search] at htype

theorem entered_free : (fs.inodes n).type = none := (entered_types h hin n).symm.trans hin.new.free

theorem entered_ne (hx : (fs.inodes x).type ≠ none) : x ≠ n := by
  rintro rfl
  exact hx (entered_free h hin)

/-- The entries with a name are those of before and the new one, where its block
is linked. -/
theorem entered_entries (hz : 0 ∉ t) : Entry IsDir fs' s m ∧ Named fs' s t ↔
    (Entry IsDir fs s m ∧ Named fs s t) ∨ EntryBlock IsDir fs' s.1 ∧ ref fs₁ s.1 = ptrTo e.block ∧
      s.2 = e.slot ∧ m = n ∧ t = c.bytes := by
  have h₁ := entered_shelved h hin
  have hlen := c.length_le
  have hsearch := search_entries (s := s) (n := m) h.toShelved hin.bound hz
  rw [hin.search] at hsearch
  rw [← hsearch]
  constructor
  · intro hex
    obtain ⟨he, hname⟩ := hex
    obtain ⟨hnew, hold⟩ := hin.filled.named (t := t) h₁ hlen c.noZero hz he.block he.slot_lt
    obtain ⟨hp, -, -⟩ := hin.filled.block he.block
    rcases hin.filled.entry hlen hin.new.lt he with ⟨hb, hj, hm⟩ | ⟨hx, he₁⟩
    · refine .inr ⟨he.block, ?_, hj, hm, (hnew ⟨hb, hj⟩).mp hname⟩
      rw [← hb, ptrTo_blockOf hp.there]
    · exact .inl ⟨he₁, (hold hx).mp hname⟩
  · rintro (⟨he, hname⟩ | ⟨hp, hr, hj, rfl, rfl⟩)
    · have hx := new_slot_free h.owned hin.bound hin.search he
      have hne : s.1.node ≠ n := by
        intro heq
        have hd : (fs₁.inodes n).type = some .dir := heq ▸ he.block.counted
        rw [hin.new.free] at hd
        cases hd
      have hcounted : IsDir (fs'.inodes s.1.node).type := by
        rw [hin.filled.types, if_neg hne]
        exact he.block.counted
      obtain ⟨he', hname'⟩ := he.carry h₁ hz hcounted
        (by rw [hin.filled.refs s.1 he.block.valid, if_neg hne]) fun a h1 h2 => hin.filled.slot hlen hx h1 h2
      exact ⟨he', hname'.mpr hname⟩
    · obtain ⟨-, hne, hr'⟩ := hin.filled.block hp
      have hslot : s.2 < 16 := by
        rw [hj]
        exact ((getNextEntry_next h.owned hin.bound hin.search).plain h.owned).1
      have hb : blockOf (ref fs₁ s.1) = e.block := by rw [hr, blockOf_ptrTo]
      obtain ⟨hnew, -⟩ := hin.filled.named (t := c.bytes) h₁ hlen c.noZero c.noZero hp hslot
      have hpos := hin.new.pos
      refine ⟨⟨hp, hslot, ?_, by omega⟩, (hnew ⟨hb, hj⟩).mpr rfl⟩
      unfold FileSys.entryNum
      rw [hr', hb, hj, hin.filled.mine, entryBytes_num hin.new.lt]

/-- The new entry is one of the directory. -/
theorem entered_node (hp : EntryBlock IsDir fs' s.1) (hr : ref fs₁ s.1 = ptrTo e.block) :
    s.1.node = d := by
  obtain ⟨hp₁, -, -⟩ := hin.filled.block hp
  exact entry_node h.owned hin.bound hin.search hp.valid hp₁.there (by rw [hr, blockOf_ptrTo])

/-- Where the block is linked there is a new entry. -/
theorem entered_linked (hl : ¬ Unlinked fs d) :
    ∃ s : Place × Nat, s.1.node = d ∧ EntryBlock IsDir fs' s.1 ∧ ref fs₁ s.1 = ptrTo e.block ∧
      s.2 = e.slot := by
  cases getNextEntry_next h.owned hin.bound hin.search with
  | unlinked _ _ _ _ hu => exact absurd hu hl
  | @leaf p _ _ _ hp hleaf hk _ _ hat =>
    obtain ⟨hr, -, -, -⟩ := hat.entry
    have hdn : p.node ≠ n := by
      rw [hk]
      exact entered_ne h hin (by rw [hin.dir]; exact Option.some_ne_none _)
    have hcounted : IsDir (fs'.inodes p.node).type := by
      rw [hin.filled.types, if_neg hdn, entered_types h hin, hk]
      exact hin.dir
    refine ⟨(p, e.slot), hk, ⟨hp, hleaf, hcounted, ?_⟩, hr, rfl⟩
    rw [hin.filled.refs p hp, if_neg hdn, hr]
    exact ptrTo_ne_zero _

/-- The order of the entries is kept where the name is new. -/
theorem entered_sound (hl : ¬ Unlinked fs d) (hnone : child fs d c = none)
    (hfind : findIndex fs (splitPath (render (cs ++ [c])) mem).1 = .inode d)
    (hc : rdCreate fs (render (cs ++ [c])) type mode mem = some (fs', 0)) : Sound fs' := by
  have hnew : Chains.NewName fs (render (cs ++ [c])) mem := by
    intro cs' c' d' hpath hfind' hd s hs
    obtain rfl := Found.inode.inj (hfind.symm.trans hfind')
    have hbytes : c'.bytes = c.bytes := by
      rw [← splitPath_concat_snd cs' c' mem, ← hpath, splitPath_concat_snd]
    rw [hbytes]
    cases hr : reading fs c.bytes s with
    | none => rfl
    | some k =>
      obtain ⟨hb, hnode, hj⟩ := EntryBlock.of_slot hin.bound (show IsDir _ from hd) hs (reading_eq_some.mp hr).1
      have he := h.entry hb hj c.ne_nil c.noZero hr
      exact absurd (he.reading_iff.mp hr) ((child_none h hin.bound).mp hnone s k hnode he)
  refine ⟨h.toTree.create (fun _ => hnew) hc, ?_, fun s m he => ?_⟩
  · refine (Sizes.create_sized_iff h.kept hc).2.2.mpr fun _ cur n' hcur hn' => ?_
    obtain rfl := Found.inode.inj (hfind.symm.trans hcur)
    refine ⟨fun _ => hl, ?_⟩
    rintro - rfl
    have hfree := (newInode_of_get hn').free
    rw [hin.dir] at hfree
    cases hfree
  · rcases hin.filled.entry c.length_le hin.new.lt he with ⟨hb, hj, -⟩ | ⟨hx, he₁⟩
    · refine ⟨c, ?_⟩
      exact ((hin.filled.named (entered_shelved h hin) c.length_le c.noZero c.noZero he.block
        he.slot_lt).1 ⟨hb, hj⟩).mpr rfl
    · have hh : EntryBlock IsDir fs₁ s.1 → ∀ j, Held IsDir fs fs₁ s.1 j := by
        have hsearch : EntryBlock IsDir (getNextEntry fs d).1 s.1 → _ := search_held h.owned hin.bound
        rwa [hin.search] at hsearch
      have he₀ := he₁.held (hh he₁.block s.2)
      obtain ⟨c', hn'⟩ := h.spelled s m he₀
      refine ⟨c', ?_⟩
      have hold := (hin.filled.named (entered_shelved h hin) c.length_le c.noZero c'.noZero he.block
        he.slot_lt).2 hx
      exact hold.mpr ((he₁.named_held h.toShelved (hh he₁.block s.2) c'.noZero).mpr hn')

section
variable (h' : Sound fs')
include h'

/-- The children of before, but for the new one. -/
theorem entered_child_ne (hx : x < 1024) (hne : ¬ (x = d ∧ c' = c)) : child fs' x c' = child fs x c' := by
  refine Option.ext fun m => ?_
  rw [child_iff h' hx, child_iff h hx]
  refine exists_congr fun s => and_congr_right fun hs => ?_
  rw [entered_entries h hin c'.noZero]
  refine or_iff_left ?_
  rintro ⟨hp, hr, -, -, hname⟩
  exact hne ⟨hs.symm.trans (entered_node h hin hp hr), Component.ext_bytes hname⟩

theorem entered_child (hl : ¬ Unlinked fs d) : child fs' d c = some n := by
  obtain ⟨s, hs, hp, hr, hj⟩ := entered_linked h hin hl
  refine (child_iff h' hin.bound).mpr ⟨s, hs, ?_⟩
  exact (entered_entries h hin c.noZero).mpr (.inr ⟨hp, hr, hj, rfl, rfl⟩)

omit h in
theorem entered_leaf (c' : Component) : child fs' n c' = none := by
  refine (child_none h' hin.new.lt).mpr fun s m hs he _ => ?_
  obtain ⟨-, hne, -⟩ := hin.filled.block he.block
  exact hne hs

end

/-- The parent keeps its type and its access rights. -/
theorem entered_parent : (fs'.inodes d).type = (fs.inodes d).type ∧
    (fs'.inodes d).access = (fs.inodes d).access := by
  have hrec := congrFun hin.records d
  have hne : d ≠ n := entered_ne h hin (by rw [hin.dir]; exact Option.some_ne_none _)
  unfold createdRecord at hrec
  rw [if_neg hne, if_pos rfl] at hrec
  exact ⟨congrArg Record.type hrec, congrArg Record.access hrec⟩

omit h in
theorem entered_other (hn : x ≠ n) (hd : x ≠ d) : (fs'.inodes x).type = (fs.inodes x).type ∧
    (fs'.inodes x).access = (fs.inodes x).access := by
  have hrec := congrFun hin.records x
  unfold createdRecord at hrec
  rw [if_neg hn, if_neg hd] at hrec
  exact ⟨congrArg Record.type hrec, congrArg Record.access hrec⟩

end

/-- A search for an entry that comes to nothing. -/
theorem search_sound (h : Sound fs) (hd : d < 1024) : Sound (getNextEntry fs d).1 ∧
    ∀ x c, x < 1024 → child (getNextEntry fs d).1 x c = child fs x c := by
  have hrec := getNextEntry_records fs d
  have hname : ∀ {s m t}, 0 ∉ t → (Entry IsDir (getNextEntry fs d).1 s m ∧
      Named (getNextEntry fs d).1 s t ↔ Entry IsDir fs s m ∧ Named fs s t) :=
    fun hz => search_entries h.toShelved hd hz
  have h' : Sound (getNextEntry fs d).1 := by
    refine ⟨h.toTree.search hd, Sizes.sized_same h.sized hrec fun x hx hdir =>
      Sizes.occupied_search h.toShelved hd hx hdir, fun s m he => ?_⟩
    have he₀ := he.held (search_held h.owned hd he.block s.2)
    obtain ⟨c, hn⟩ := h.spelled s m he₀
    exact ⟨c, ((hname c.noZero).mpr ⟨he₀, hn⟩).2⟩
  refine ⟨h', fun x c hx => Option.ext fun m => ?_⟩
  rw [child_iff h' hx, child_iff h hx]
  exact exists_congr fun s => and_congr_right fun _ => hname c.noZero

end ToyOS.Ramdisk.Grafting
