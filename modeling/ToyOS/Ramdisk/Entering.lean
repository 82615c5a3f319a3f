import ToyOS.Ramdisk.Resolving

/-! # Where a new file is found

`rd_create` adds one edge to the tree: from the directory that it cuts out of the
path, under the path's last component. Where the block of the new entry is not
linked, it adds none.
-/
namespace ToyOS.Ramdisk.Entering
open ToyOS.Lib.CStrings ToyOS.Lib.Words ToyOS.Lib.FirstHit ToyOS.Lib.Walks ToyOS.Lib.Runs ToyOS.Ramdisk.Image
open ToyOS.Ramdisk.Blocks ToyOS.Ramdisk.Places ToyOS.Ramdisk.Ownership ToyOS.Ramdisk.Growth
open ToyOS.Ramdisk.Paths ToyOS.Ramdisk.Components ToyOS.Ramdisk.Lookup ToyOS.Ramdisk.Directories
open ToyOS.Ramdisk.Slots ToyOS.Ramdisk.Clearing ToyOS.Ramdisk.Namespace ToyOS.Ramdisk.Creating
open ToyOS.Ramdisk.Records ToyOS.Ramdisk.Descriptors ToyOS.Ramdisk.System ToyOS.Ramdisk.Catalog
open ToyOS.Ramdisk.BlockOwnership
open ToyOS.Ramdisk.Accounting ToyOS.Ramdisk.Resolving

variable {counts : Option FileType → Prop} {fs fs₁ fs' : FileSys} {st : State} {x d n m cur mode : Nat}
variable {s : Place × Nat} {e : EntryPtr} {t : Str} {type : FileType} {mem : Scratch}
variable {cs : List Component} {c c' : Component}

/-! ## Entries after a search and after a new one -/

/-- The search for an entry adds none. -/
theorem search_entries (h : Shelved counts fs) (hc : cur < 1024) (hz : 0 ∉ t) :
    Entry counts (getNextEntry fs cur).1 s n ∧ Named (getNextEntry fs cur).1 s t ↔
      Entry counts fs s n ∧ Named fs s t := by
  have hx := (getNextEntry_spec h.owned hc).extends h.owned
  constructor
  · rintro ⟨he, hn⟩
    have hh := search_held h.owned hc he.block s.2
    exact ⟨he.held hh, (he.named_held h hh hz).mp hn⟩
  · rintro ⟨he, hn⟩
    have hv := he.block.valid
    have hcounted : counts ((getNextEntry fs cur).1.inodes s.1.node).type := by
      rw [getNextEntry_types h.owned hc]
      exact he.block.counted
    obtain ⟨he', hn'⟩ := he.carry h hz hcounted (hx.keeps s.1 hv fun _ => he.block.there)
      fun a _ _ => congrFun (hx.leaves s.1 hv he.block.leaf he.block.there) a
    exact ⟨he', hn'.mpr hn⟩

/-- The slot filled in had no number. -/
theorem new_slot_free (ho : Owned every fs) (hc : cur < 1024) (hg : getNextEntry fs cur = (fs₁, some e))
    (he : Entry counts fs₁ s m) : ¬ (blockOf (ref fs₁ s.1) = e.block ∧ s.2 = e.slot) := by
  rintro ⟨hb, hj⟩
  have hnext := getNextEntry_next ho hc hg
  cases hnext with
  | unlinked _ hfresh =>
    exact hfresh s.1 he.block.valid ((ptrTo_blockOf he.block.there).symm.trans (congrArg ptrTo hb))
  | leaf _ _ _ _ _ hat =>
    obtain ⟨-, -, hz, -⟩ := hat.entry
    have hnum := he.num
    rw [hb, hj, hz] at hnum
    exact he.ne hnum.symm

section
variable (h : Kept fs) (hcur : cur < 1024) (hg : getNextEntry fs cur = (fs₁, some e))
variable (hf : Filled fs₁ e n c.bytes type fs') (hn : NewInode fs₁ n)
include h hcur hg hf hn

/-- The entries with a name are those of before and the new one, where its block
is linked. -/
theorem created_entries (hz : 0 ∉ t) : Entry InUse fs' s m ∧ Named fs' s t ↔
    (Entry InUse fs s m ∧ Named fs s t) ∨
      EntryBlock InUse fs' s.1 ∧ ref fs₁ s.1 = ptrTo e.block ∧ s.2 = e.slot ∧ m = n ∧ t = c.bytes := by
  have h₁ := h.searched hcur hg
  have hlen := c.length_le
  have hsearch : Entry InUse fs₁ s m ∧ Named fs₁ s t ↔ Entry InUse fs s m ∧ Named fs s t := by
    have hs := search_entries (s := s) (n := m) h.toShelved hcur hz
    rwa [hg] at hs
  rw [← hsearch]
  constructor
  · rintro ⟨he, hname⟩
    obtain ⟨hnew, hold⟩ := hf.named (t := t) h₁.toShelved hlen c.noZero hz he.block he.slot_lt
    obtain ⟨hp, -, -⟩ := hf.block he.block
    rcases hf.entry hlen hn.lt he with ⟨hb, hj, hm⟩ | ⟨hx, he₁⟩
    · refine .inr ⟨he.block, ?_, hj, hm, (hnew ⟨hb, hj⟩).mp hname⟩
      rw [← hb]
      exact (ptrTo_blockOf hp.there).symm
    · exact .inl ⟨he₁, (hold hx).mp hname⟩
  · rintro (⟨he, hname⟩ | ⟨hp, hr, hj, rfl, rfl⟩)
    · have hx := new_slot_free h.owned hcur hg he
      have hne : s.1.node ≠ n := fun e => he.block.counted (by rw [e]; exact hn.free)
      have hcounted : InUse (fs'.inodes s.1.node).type := by
        rw [hf.types, if_neg hne]
        exact he.block.counted
      obtain ⟨he', hname'⟩ := he.carry h₁.toShelved hz hcounted
        (by rw [hf.refs s.1 he.block.valid, if_neg hne]) fun a h1 h2 => hf.slot hlen hx h1 h2
      exact ⟨he', hname'.mpr hname⟩
    · obtain ⟨-, hne, hr'⟩ := hf.block hp
      have hslot : s.2 < 16 := by
        rw [hj]
        exact ((getNextEntry_next h.owned hcur hg).plain h.owned).1
      have hb : blockOf (ref fs₁ s.1) = e.block := by rw [hr, blockOf_ptrTo]
      obtain ⟨hnew, -⟩ := hf.named (t := c.bytes) h₁.toShelved hlen c.noZero c.noZero hp hslot
      refine ⟨⟨hp, hslot, ?_, by have := hn.pos; omega⟩, (hnew ⟨hb, hj⟩).mpr rfl⟩
      unfold FileSys.entryNum
      rw [hr', hb, hj, hf.mine, entryBytes_num hn.lt]

/-- The inodes in use of before. -/
theorem created_live (hx : Live fs x) : Live fs' x ∧ x ≠ n := by
  have htype := getNextEntry_types h.owned hcur x
  rw [hg] at htype
  have hxn : x ≠ n := by
    rintro rfl
    exact hx.2 (htype.symm.trans hn.free)
  refine ⟨⟨hx.1, ?_⟩, hxn⟩
  rw [hf.types, if_neg hxn, htype]
  exact hx.2

/-- The edges of before, but for the new one. -/
theorem created_edge_ne (h' : Kept fs') (hx : Live fs x)
    (hne : ¬ (x = cur ∧ ¬ Unlinked fs cur ∧ c' = c)) : edge fs' x c' = edge fs x c' := by
  refine edge_congr h h' hx (created_live h hcur hg hf hn hx).1 fun s hs m => ?_
  rw [created_entries h hcur hg hf hn c'.noZero]
  refine or_iff_left fun ⟨hp, hr, _, _, hname⟩ => hne ⟨?_, fun hu => ?_, Component.ext_bytes hname⟩
  · obtain ⟨hp₁, -, -⟩ := hf.block hp
    rw [← ((mem_leaves hx.1).mp (mem_slotsOf.mp hs).1).2.2]
    exact entry_node h.owned hcur hg hp.valid hp₁.there (by rw [hr, blockOf_ptrTo])
  · cases getNextEntry_next h.owned hcur hg with
    | leaf _ _ _ _ _ _ _ hl => exact hl hu
    | unlinked _ hfresh => exact hfresh s.1 hp.valid hr

/-- The new edge. -/
theorem created_edge (h' : Kept fs') (hc : Live fs cur) (hl : ¬ Unlinked fs cur)
    (hnone : edge fs cur c = none) : edge fs' cur c = some n := by
  obtain ⟨hc', hcn⟩ := created_live h hcur hg hf hn hc
  -- every entry with the name is the new one
  have honly : ∀ s ∈ slots cur, ∀ m, reading fs' c.bytes s = some m → Entry InUse fs' s n := fun s hs m hr => by
    have he := (reading_entry h'.toShelved hc' hs c.ne_nil c.noZero).mp hr
    rcases (created_entries h hcur hg hf hn c.noZero).mp he with hold | ⟨-, -, -, hm, -⟩
    · have hr₀ := (reading_entry h.toShelved hc hs c.ne_nil c.noZero).mpr hold
      rw [edge_eq h hc] at hnone
      rw [List.findSome?_eq_none_iff.mp hnone s hs] at hr₀
      cases hr₀
    · rw [← hm]
      exact he.1
  obtain ⟨s, hs, hr⟩ : ∃ s ∈ slots cur, reading fs' c.bytes s = some n := by
    cases getNextEntry_next h.owned hcur hg with
    | unlinked _ _ _ _ hu => exact absurd hu hl
    | @leaf p _ _ _ hp hleaf hk _ _ hat =>
      obtain ⟨hr, hslot, -, -⟩ := hat.entry
      have hs : (p, e.slot) ∈ slots cur :=
        mem_slotsOf.mpr ⟨(mem_leaves hcur).mpr ⟨hp, hleaf, hk⟩, hslot⟩
      have hblock : EntryBlock InUse fs' p := by
        refine ⟨hp, hleaf, by rw [hk]; exact hc'.2, ?_⟩
        rw [hf.refs p hp, if_neg (by rw [hk]; exact hcn), hr]
        exact ptrTo_ne_zero _
      exact ⟨_, hs, (reading_entry h'.toShelved hc' hs c.ne_nil c.noZero).mpr
        ((created_entries h hcur hg hf hn c.noZero).mpr (.inr ⟨hblock, hr, rfl, rfl, rfl⟩))⟩
  rw [edge_eq h' hc']
  refine findSome?_of_only hs hr fun s' hs' hr' => ?_
  obtain ⟨m, hm⟩ := Option.ne_none_iff_exists'.mp hr'
  exact h'.unique s' s n (honly s' hs' m hm) (honly s hs n hr)

omit h hcur hg in
/-- Nothing lies below the new inode. -/
theorem created_below (c' : Component) : edge fs' n c' = none := by
  cases hfind : edge fs' n c' with
  | none => rfl
  | some m =>
    obtain ⟨s, hs, hr, -⟩ := findComponent_some hfind
    obtain ⟨h0, -, -⟩ := reading_eq_some.mp hr
    obtain ⟨hv, -, hnode⟩ := (mem_leaves hn.lt).mp (mem_slotsOf.mp hs).1
    rw [hf.refs s.1 hv, if_pos hnode] at h0
    exact absurd rfl h0

end

/-! ## The whole call -/

/-- The path `p` leads to an inode that was free and is that of a new empty file;
every other path leads where it did. -/
structure Entered (fs fs' : FileSys) (p : List Component) (type : FileType) (mode : Nat) : Prop where
  fresh : ∃ n, myFindInodeNumber fs' (render p) = .inode n ∧ (fs.inodes n).type = none ∧
    fs'.inodes n = freshInode type mode
  others : ∀ q, q ≠ p → myFindInodeNumber fs' (render q) = myFindInodeNumber fs (render q)

/-- What a call of `rd_create` that returns 0 has done. -/
structure Creation (fs : FileSys) (p : Str) (name : Str) (type : FileType) (mode : Nat) (mem : Scratch)
    (cur n : Nat) (e : EntryPtr) (fs₁ fs' : FileSys) : Prop where
  parent : findIndex fs (splitPath p mem).1 = .inode cur
  search : getNextEntry fs cur = (fs₁, some e)
  new : NewInode fs₁ n
  filled : Filled fs₁ e n name type fs'
  record : n ≠ cur → fs'.inodes n = freshInode type mode

theorem creation_of_create (h : Kept fs)
    (hc : rdCreate fs (render (cs ++ [c])) type mode mem = some (fs', 0)) :
    ∃ cur n e fs₁, Creation fs (render (cs ++ [c])) c.bytes type mode mem cur n e fs₁ fs' := by
  have hres := rdCreate_result hc
  generalize hr : (0 : Int) = r at hres
  cases hres with
  | refused => cases hr
  | noEntry => cases hr
  | @filled cur n fs₁ e hcur _ hfind hg hn =>
    obtain ⟨hslot, hplain⟩ := (getNextEntry_next h.owned hcur hg).plain h.owned
    have hlen := c.length_le
    rw [splitPath_concat_snd]
    exact ⟨cur, n, e, fs₁, hfind, hg, newInode_of_get hn,
      fillEntry_filled (h.searched hcur hg).owned hslot hlen hplain, fillEntry_new (by omega)⟩

theorem entered_iff (h : Kept fs) (hd : myFindInodeNumber fs (render cs) = .inode d)
    (hp : myFindInodeNumber fs (render (cs ++ [c])) = .missing)
    (hc : rdCreate fs (render (cs ++ [c])) type mode mem = some (fs', 0)) :
    Entered fs fs' (cs ++ [c]) type mode ↔
      findIndex fs (splitPath (render (cs ++ [c])) mem).1 = .inode d ∧ ¬ Unlinked fs d := by
  have h' : Kept fs' := h.create (rdCreate_result hc)
  obtain ⟨cur, n, e, fs₁, hcreate⟩ := creation_of_create h hc
  obtain ⟨hfind, hg, hn, hf, hrec⟩ := hcreate
  have hcur := findIndex_lt hfind
  rw [lookup_inode h] at hd
  rw [lookup_missing h, follow_concat, hd, Option.bind_some] at hp
  have hlive := (edges_tree h).reached hd
  have hself : cs ++ [c] ≠ cs := fun e => by simpa using congrArg List.length e
  constructor
  · rintro ⟨⟨m, hm, -, -⟩, hothers⟩
    rw [lookup_inode h', follow_concat_some] at hm
    obtain ⟨y, hy, hedge⟩ := hm
    have hcs := hothers cs hself.symm
    rw [(lookup_inode h').mpr hy, (lookup_inode h).mpr hd] at hcs
    obtain rfl := Found.inode.inj hcs
    -- without the new edge there is none
    by_contra hno
    rw [created_edge_ne h hcur hg hf hn h' hlive fun ⟨hx, hu, _⟩ =>
      hno ⟨by rw [hx]; exact hfind, by rw [hx]; exact hu⟩, hp] at hedge
    cases hedge
  · rintro ⟨hfind', hu⟩
    obtain rfl := Found.inode.inj (hfind.symm.trans hfind')
    obtain ⟨-, hdn⟩ := created_live h hcur hg hf hn hlive
    have hoff : ∀ {q}, ¬ cs ++ [c] <+: q → follow (edge fs') 0 q = follow (edge fs) 0 q :=
      (edges_tree h).follow_off hd fun q y c' hy _ hne =>
        created_edge_ne h hcur hg hf hn h' ((edges_tree h).reached hy) fun ⟨hx, _, hc⟩ => hne ⟨hx, hc⟩
    have hd' : follow (edge fs') 0 cs = some cur := by
      rw [hoff not_concat_prefix, hd]
    have hedge := created_edge h hcur hg hf hn h' hlive hu hp
    refine ⟨⟨n, ?_, ?_, hrec hdn.symm⟩, fun q hq => ?_⟩
    · rw [lookup_inode h', follow_concat, hd', Option.bind_some, hedge]
    · have htype := getNextEntry_types h.owned hcur n
      rw [hg] at htype
      exact htype.symm.trans hn.free
    · rw [lookup_edges h, lookup_edges h']
      by_cases hpre : cs ++ [c] <+: q
      · obtain ⟨rest, rfl⟩ := hpre
        have hrest : rest ≠ [] := by
          rintro rfl
          exact hq (List.append_nil _)
        rw [follow_behind hd, follow_behind hd', hp, hedge, Option.bind_none, Option.bind_some,
          follow_stuck (created_below hf hn) hrest]
      · rw [hoff hpre]

/-- In every run without `rd_write` whose calls of `rd_unlink` go to the parent of
the path, a new path leads to its new file, and no other path elsewhere than
before, exactly when the parent cut out of the path is the path's parent and the
block of its new entry is linked. -/
theorem create_enters_iff
    (h : Reachable (fun st op => WellNamed op ∧ NoWrite op ∧ ParsesParent st op) st)
    (hd : myFindInodeNumber st.discos (render cs) = .inode d)
    (hp : myFindInodeNumber st.discos (render (cs ++ [c])) = .missing)
    (hc : rdCreate st.discos (render (cs ++ [c])) type mode mem = some (fs', 0)) :
    Entered st.discos fs' (cs ++ [c]) type mode ↔
      findIndex st.discos (splitPath (render (cs ++ [c])) mem).1 = .inode d ∧ ¬ Unlinked st.discos d :=
  entered_iff (kept_of_run h) hd hp hc

theorem some_of_result {r : Option (FileSys × Int)} {v : Int} (h : r.map (·.2) = some v) :
    ∃ fs', r = some (fs', v) := by
  cases r with
  | none => cases h
  | some x => exact ⟨x.1, congrArg some (Prod.ext rfl (Option.some.inj h))⟩

theorem oneFile_kept_run : Reachable (fun st op => WellNamed op ∧ NoWrite op ∧ ParsesParent st op) oneFile :=
  ⟨_, _, .step .start ⟨⟨[nameA], rfl⟩, trivial, trivial⟩⟩

theorem create_enters_iff_oneFile :
    ∃ fs', rdCreate oneFile.discos (render ([] ++ [nameAx])) .reg RW ⟨[0, 0, 0], [0, 0, 0]⟩ = some (fs', 0) ∧
      (Entered oneFile.discos fs' ([] ++ [nameAx]) .reg RW ↔
        findIndex oneFile.discos (splitPath (render ([] ++ [nameAx])) ⟨[0, 0, 0], [0, 0, 0]⟩).1 = .inode 0 ∧
          ¬ Unlinked oneFile.discos 0) := by
  obtain ⟨fs', hc⟩ : ∃ fs',
      rdCreate oneFile.discos (render ([] ++ [nameAx])) .reg RW ⟨[0, 0, 0], [0, 0, 0]⟩ = some (fs', 0) :=
    some_of_result (by decide +kernel)
  exact ⟨fs', hc, create_enters_iff oneFile_kept_run (by decide +kernel) (by decide +kernel) hc⟩

/-! ## A parent without an end -/

/-- The directories `/a` and `/ax`. -/
def bothDirs : State :=
  [.mkdir (render [nameA]) ⟨[0, 0], [0, 0]⟩, .mkdir (render [nameAx]) ⟨[0, 0, 0], [0, 0, 0]⟩].foldl step
    (initFileSys (fun _ _ => 0) fun _ => 0)

theorem bothDirs_reachable :
    Reachable (fun st op => WellNamed op ∧ NoWrite op ∧ ParsesParent st op) bothDirs := by
  refine ⟨_, _, Reach.foldl .start _ fun st op hop => ?_⟩
  simp only [List.mem_cons, List.not_mem_nil, or_false] at hop
  rcases hop with rfl | rfl
  · exact ⟨⟨_, rfl⟩, trivial, trivial⟩
  · exact ⟨⟨_, rfl⟩, trivial, trivial⟩

theorem bothDirs_lookup : myFindInodeNumber bothDirs.discos (render [nameA]) = .inode 1 ∧
    (bothDirs.discos.inodes 1).type = some .dir ∧
    myFindInodeNumber bothDirs.discos (render [nameA, nameA]) = .missing ∧
    findIndex bothDirs.discos (splitPath (render [nameA, nameA]) ⟨[0, 0, 120, 0], [0, 0, 0, 0]⟩).1 = .inode 2 ∧
    (rdCreate bothDirs.discos (render [nameA, nameA]) .reg RW
      ⟨[0, 0, 120, 0], [0, 0, 0, 0]⟩).map (·.2) = some 0 := by
  decide +kernel

/-- The new file is entered in `/ax`. -/
theorem entered_elsewhere :
    Reachable (fun st op => WellNamed op ∧ NoWrite op ∧ ParsesParent st op) bothDirs ∧
      myFindInodeNumber bothDirs.discos (render [nameA]) = .inode 1 ∧
      (bothDirs.discos.inodes 1).type = some .dir ∧
      myFindInodeNumber bothDirs.discos (render [nameA, nameA]) = .missing ∧
      ∃ fs', rdCreate bothDirs.discos (render [nameA, nameA]) .reg RW ⟨[0, 0, 120, 0], [0, 0, 0, 0]⟩ =
        some (fs', 0) ∧ ¬ Entered bothDirs.discos fs' [nameA, nameA] .reg RW := by
  obtain ⟨hparent, hdir, hmissing, hfind, hret⟩ := bothDirs_lookup
  obtain ⟨fs', hc⟩ := some_of_result hret
  refine ⟨bothDirs_reachable, hparent, hdir, hmissing, fs', hc, fun hentered => ?_⟩
  have hiff : Entered bothDirs.discos fs' ([nameA] ++ [nameA]) .reg RW ↔ _ :=
    entered_iff (kept_of_run bothDirs_reachable) hparent hmissing hc
  obtain ⟨hfind', -⟩ := hiff.mp hentered
  cases hfind.symm.trans hfind'

end ToyOS.Ramdisk.Entering
