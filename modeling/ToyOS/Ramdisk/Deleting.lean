import ToyOS.Ramdisk.Entering
import ToyOS.Ramdisk.Files
import ToyOS.Ramdisk.FullDirectory
import ToyOS.Ramdisk.Totals

/-! # What a removed file takes with it

`rd_unlink` cuts one edge of the tree. It also gives back blocks of the directory
that hold one entry, whatever its name, once it has come to the name it looks for;
and of two entries with the name it leaves the one in the other level.
-/
namespace ToyOS.Ramdisk.Deleting
open ToyOS.Lib.CStrings ToyOS.Lib.Words ToyOS.Lib.FirstHit ToyOS.Lib.Walks ToyOS.Lib.Runs
open ToyOS.Ramdisk.Image ToyOS.Ramdisk.Blocks ToyOS.Ramdisk.Places ToyOS.Ramdisk.Ownership
open ToyOS.Ramdisk.Paths ToyOS.Ramdisk.Components ToyOS.Ramdisk.Lookup ToyOS.Ramdisk.Directories
open ToyOS.Ramdisk.Clearing ToyOS.Ramdisk.Namespace ToyOS.Ramdisk.Creating ToyOS.Ramdisk.Removing
open ToyOS.Ramdisk.Unlinking ToyOS.Ramdisk.Descriptors ToyOS.Ramdisk.System ToyOS.Ramdisk.Files
open ToyOS.Ramdisk.BlockOwnership ToyOS.Ramdisk.Catalog ToyOS.Ramdisk.Accounting ToyOS.Ramdisk.Resolving
open ToyOS.Ramdisk.Entering ToyOS.Ramdisk.FullDirectory ToyOS.Ramdisk.Totals

variable {fs fs' : FileSys} {st : State} {x d k n m : Nat} {s : Place × Nat} {t : Str} {mem : Scratch}
variable {cs : List Component} {c c' : Component}

/-! ## The entries left -/

section
variable (h : Kept fs) (hk : k < 1024) (hd : d < 1024)
include h hk hd

/-- The entries with a name are those of before, but for those of the file itself
and those that go with the name removed. -/
theorem removed_entries (hz : 0 ∉ t) :
    Entry InUse (removeFile fs k d c.bytes) s m ∧ Named (removeFile fs k d c.bytes) s t ↔
      (Entry InUse fs s m ∧ Named fs s t) ∧ s.1.node ≠ k ∧ ¬ (s.1.node = d ∧ TakenOut fs d c.bytes s) := by
  constructor
  · rintro ⟨he, hname⟩
    obtain ⟨hnk, -, -, hslot⟩ := h.toShelved.remove_held hk hd c.noZero he.block
    have hh := (hslot s.2 he.slot_lt).1
    exact ⟨⟨he.held hh, (he.named_held h.toShelved hh hz).mp hname⟩, hnk,
      fun ⟨hnode, htaken⟩ => h.toShelved.taken_gone hk hd c.noZero he hnode htaken⟩
  · rintro ⟨⟨he, hname⟩, hnk, hleft⟩
    have hv := he.block.valid
    have h0 := he.block.there
    obtain ⟨S, hr, -⟩ := removeFile_removed h.owned hk hd c.bytes
    have hcounted : InUse ((removeFile fs k d c.bytes).inodes s.1.node).type := by
      rw [removed_type hr hnk]
      exact he.block.counted
    by_cases hnd : s.1.node = d
    · have hcd : InUse (fs.inodes d).type := hnd ▸ he.block.counted
      have hl := removeFile_left h.owned hd (hnd ▸ hnk) c.noZero (h.toShelved.allTerminated hd hcd) hk
        (hnd ▸ he.block.mem_leaves)
      have hlost : ¬ Lost fs d c.bytes s.1 := fun hL => hleft ⟨hnd, .inl hL⟩
      obtain ⟨he', hname'⟩ := he.carry h.toShelved hz hcounted (hl.kept hlost) fun a h1 h2 => by
        by_cases hS : Swept fs d c.bytes s.1
        · have hother : ¬ fs.entryNameIs (blockOf (ref fs s.1)) s.2 c.bytes = true :=
            fun hn => hleft ⟨hnd, .inr ⟨hS, hn⟩⟩
          have hslot := he.slot_lt
          rw [hl.swept hS h0 a (by omega), show a / 16 = s.2 by omega, if_neg hother]
        · rw [hl.rest hS h0]
      exact ⟨he', hname'.mpr hname⟩
    · have hnS : ¬ S s.1 := fun hS => hnd (hr.node s.1 hS).1
      obtain ⟨he', hname'⟩ := he.carry h.toShelved hz hcounted (hr.kept s.1 hv hnk hnS) fun a _ _ =>
        congrFun (hr.blocks s.1 hv hnk hnd h0) a
      exact ⟨he', hname'.mpr hname⟩

theorem removed_live (hx : Live fs x) (hxk : x ≠ k) : Live (removeFile fs k d c.bytes) x := by
  obtain ⟨S, hr, -⟩ := removeFile_removed h.owned hk hd c.bytes
  exact ⟨hx.1, by rw [removed_type hr hxk]; exact hx.2⟩

theorem removed_reading (hx : Live fs x) (hxk : x ≠ k) (hs : s ∈ slots x) (c' : Component) :
    reading (removeFile fs k d c.bytes) c'.bytes s = some m ↔
      reading fs c'.bytes s = some m ∧ ¬ (x = d ∧ TakenOut fs d c.bytes s) := by
  have hnode : s.1.node = x := ((mem_leaves hx.1).mp (mem_slotsOf.mp hs).1).2.2
  rw [reading_entry (h.toShelved.remove hk hd c.noZero) (removed_live h hk hd hx hxk) hs c'.ne_nil c'.noZero,
    reading_entry h.toShelved hx hs c'.ne_nil c'.noZero, removed_entries h hk hd c'.noZero, hnode,
    and_iff_right hxk]

/-- The other directories keep their edges. -/
theorem removed_edge_other (hx : Live fs x) (hxk : x ≠ k) (hxd : x ≠ d) (c' : Component) :
    edge (removeFile fs k d c.bytes) x c' = edge fs x c' := by
  have hsame : ∀ s ∈ slots x, reading (removeFile fs k d c.bytes) c'.bytes s = reading fs c'.bytes s :=
    fun s hs => Option.ext fun m => by
      rw [removed_reading h hk hd hx hxk hs]
      exact and_iff_left fun hxd' => hxd hxd'.1
  have hself : ∀ s ∈ slots x, reading fs c'.bytes s ≠ some x := fun s hs hr => by
    obtain ⟨he, -⟩ := (reading_entry h.toShelved hx hs c'.ne_nil c'.noZero).mp hr
    exact (h.names s x he).2.2 ((mem_leaves hx.1).mp (mem_slotsOf.mp hs).1).2.2.symm
  rw [edge_eq h hx, edge, findComponent_slots fun s hs => by rw [hsame s hs]; exact hself s hs]
  exact findSome?_congr hsame

end

/-! ## The edges of the parent -/

/-- All entries with the name are taken, and no block goes that holds what the
lookup of another name finds. -/
structure Spares (fs : FileSys) (d : Nat) (c : Component) : Prop where
  all : ∀ s m, Entry InUse fs s m → s.1.node = d → Named fs s c.bytes → TakenOut fs d c.bytes s
  rest : ∀ c' m s, c' ≠ c → edge fs d c' = some m → Entry InUse fs s m → ¬ Lost fs d c.bytes s.1

section
variable (h : Kept fs) (hd : Live fs d) (hf : edge fs d c = some k)
include h hd hf

theorem parent_ne : Live fs k ∧ d ≠ k := by
  obtain ⟨s, -, hnode, -, he, hk⟩ := edge_entry h hd hf
  refine ⟨hk, ?_⟩
  rw [← hnode]
  exact (h.names s k he).2.2.symm

theorem removed_kept : Kept (removeFile fs k d c.bytes) := h.remove hd.1 hd.2 c.ne_nil c.noZero hf

/-- Some slots of the parent have fallen silent. -/
theorem removed_thinned (c' : Component) :
    Thinned (slots d) (reading fs c'.bytes) (reading (removeFile fs k d c.bytes) c'.bytes) := by
  obtain ⟨hk, hdk⟩ := parent_ne h hd hf
  intro s hs
  cases hr : reading (removeFile fs k d c.bytes) c'.bytes s with
  | none => exact .inr rfl
  | some m => exact .inl ((removed_reading h hk.1 hd.1 hd hdk hs c').mp hr).1.symm

/-- The name is gone when all of its entries are taken. -/
theorem removed_edge_self : edge (removeFile fs k d c.bytes) d c = none ↔
    ∀ s m, Entry InUse fs s m → s.1.node = d → Named fs s c.bytes → TakenOut fs d c.bytes s := by
  obtain ⟨hk, hdk⟩ := parent_ne h hd hf
  rw [edge_eq (removed_kept h hd hf) (removed_live h hk.1 hd.1 hd hdk), List.findSome?_eq_none_iff]
  constructor
  · intro hnone s m he hnode hname
    have hs : s ∈ slots d := hnode ▸ he.mem_slots
    by_contra hleft
    have hr := (removed_reading h hk.1 hd.1 hd hdk hs c).mpr
      ⟨(reading_entry h.toShelved hd hs c.ne_nil c.noZero).mpr ⟨he, hname⟩, fun ht => hleft ht.2⟩
    rw [hnone s hs] at hr
    cases hr
  · intro hall s hs
    cases hr : reading (removeFile fs k d c.bytes) c.bytes s with
    | none => rfl
    | some m =>
      obtain ⟨hr₀, hleft⟩ := (removed_reading h hk.1 hd.1 hd hdk hs c).mp hr
      obtain ⟨he, hname⟩ := (reading_entry h.toShelved hd hs c.ne_nil c.noZero).mp hr₀
      exact absurd ⟨rfl, hall s m he ((mem_leaves hd.1).mp (mem_slotsOf.mp hs).1).2.2 hname⟩ hleft

/-- Another name still leads where it did when its entry's block stays. -/
theorem removed_edge_ne (hne : c' ≠ c) (hm : edge fs d c' = some m) :
    edge (removeFile fs k d c.bytes) d c' = some m ↔
      ∀ s, Entry InUse fs s m → ¬ Lost fs d c.bytes s.1 := by
  obtain ⟨hk, hdk⟩ := parent_ne h hd hf
  have hkept := removed_kept h hd hf
  have hlive := removed_live (c := c) h hk.1 hd.1 hd hdk
  constructor
  · intro hf' s he
    obtain ⟨s', hs', -, hname, he', -⟩ := edge_entry hkept hlive hf'
    obtain ⟨⟨he₀, -⟩, -, hleft⟩ := (removed_entries h hk.1 hd.1 c'.noZero).mp ⟨he', hname⟩
    obtain rfl := h.unique s s' m he he₀
    exact fun hL => hleft ⟨((mem_leaves hd.1).mp (mem_slotsOf.mp hs').1).2.2, .inl hL⟩
  · intro hstay
    rw [edge_eq h hd] at hm
    rw [edge_eq hkept hlive]
    refine (removed_thinned h hd hf c').stays hm fun l₁ s l₂ e hr _ => ?_
    have hs : s ∈ slots d := by rw [e]; simp
    obtain ⟨he, hname⟩ := (reading_entry h.toShelved hd hs c'.ne_nil c'.noZero).mp hr
    have hleft : ¬ (d = d ∧ TakenOut fs d c.bytes s) := by
      rintro ⟨-, hL | ⟨-, hname'⟩⟩
      · exact hstay s he hL
      · exact hne (Component.ext_bytes (hname.unique c'.noZero c.noZero hname'))
    intro hnone
    cases ((removed_reading h hk.1 hd.1 hd hdk hs c').mpr ⟨hr, hleft⟩).symm.trans hnone

end

/-! ## The whole call -/

/-- Inode `m` is what it was, but for 16 bytes of the size and the entries of the
parent `d`. -/
structure Same (fs fs' : FileSys) (d m : Nat) : Prop where
  type : (fs'.inodes m).type = (fs.inodes m).type
  access : (fs'.inodes m).access = (fs.inodes m).access
  size : (fs'.inodes m).size + (if m = d then 16 else 0) = (fs.inodes m).size
  data : m ≠ d → ∀ pos, pos < 1067008 → fileByte fs' m pos = fileByte fs m pos

/-- The path `p` below the directory `d` is gone; every path not below it leads to
the inode it led to, and finds that the same. -/
structure Removes (fs fs' : FileSys) (p : List Component) (d : Nat) : Prop where
  gone : myFindInodeNumber fs' (render p) = .missing
  others : ∀ q m, ¬ p <+: q → myFindInodeNumber fs (render q) = .inode m →
    myFindInodeNumber fs' (render q) = .inode m ∧ Same fs fs' d m

theorem removed_same (h : Kept fs) (hc : Covered fs) (hd : Live fs d) (hf : edge fs d c = some k)
    (hm : m < 1024) (hmk : m ≠ k) : Same fs (removeFile fs k d c.bytes) d m := by
  obtain ⟨hk, hdk⟩ := parent_ne h hd hf
  obtain ⟨S, hr, -⟩ := removeFile_removed h.owned hk.1 hd.1 c.bytes
  obtain ⟨-, hsize⟩ := hc.remove h hd hf
  have hlt := hc.lt hd.1
  generalize removeFile fs k d c.bytes = fs' at hr ⊢
  by_cases hmd : m = d
  · subst hmd
    obtain ⟨htype, haccess, hshrunk⟩ := hr.parent hdk
    refine ⟨htype, haccess, ?_, fun hne => absurd rfl hne⟩
    rw [hshrunk, u32Sub_of_le (by omega) hsize, if_pos rfl]
    omega
  · have hinode := hr.inodes m hmk hmd
    refine ⟨by rw [hinode], by rw [hinode], by rw [hinode, if_neg hmd, Nat.add_zero], fun _ pos hpos => ?_⟩
    have hv : (leafOf m (pos / 256)).Valid := leafOf_valid hm (by omega)
    have hnode : (leafOf m (pos / 256)).node = m := leafOf_node m (pos / 256)
    have href : ref fs' (leafOf m (pos / 256)) = ref fs (leafOf m (pos / 256)) :=
      hr.kept _ hv (by rw [hnode]; exact hmk) fun hS => hmd (hnode.symm.trans (hr.node _ hS).1)
    unfold fileByte
    dsimp only
    rw [href]
    by_cases h0 : ref fs (leafOf m (pos / 256)) = 0
    · rw [if_pos h0, if_pos h0]
    · rw [if_neg h0, if_neg h0, hr.blocks _ hv (by rw [hnode]; exact hmk) (by rw [hnode]; exact hmd) h0]

section
variable (h : Kept fs) (hd : follow (edge fs) 0 cs = some d) (hf : edge fs d c = some k)
include h hd hf

/-- From another directory the file is not taken out. -/
theorem elsewhere_left {d' : Nat} (hd' : d' < 1024) (hne : d' ≠ d) :
    ¬ Removes fs (removeFile fs k d' c.bytes) (cs ++ [c]) d := by
  rintro ⟨hgone, hothers⟩
  have hlive := (edges_tree h).reached hd
  obtain ⟨hk, hdk⟩ := parent_ne h hlive hf
  obtain ⟨hcs, -⟩ := hothers cs d not_concat_prefix ((lookup_inode h).mpr hd)
  have hedge : edge (removeFile fs k d' c.bytes) d c = some k :=
    (removed_edge_other h hk.1 hd' hlive hdk hne.symm c).trans hf
  rw [myFind_render] at hcs hgone
  unfold edge at hedge
  rw [List.map_append, walk_append, hcs, List.map_singleton] at hgone
  dsimp only at hgone
  rw [walk, if_neg (by have := hlive.1; omega), hedge] at hgone
  cases hgone

theorem removes_iff (hc : Covered fs) :
    Removes fs (removeFile fs k d c.bytes) (cs ++ [c]) d ↔ Spares fs d c := by
  have hlive := (edges_tree h).reached hd
  obtain ⟨hk, hdk⟩ := parent_ne h hlive hf
  have h' := removed_kept h hlive hf
  have hp : follow (edge fs) 0 (cs ++ [c]) = some k := follow_concat_some.mpr ⟨d, hd, hf⟩
  constructor
  · rintro ⟨hgone, hothers⟩
    obtain ⟨hcs, -⟩ := hothers cs d not_concat_prefix ((lookup_inode h).mpr hd)
    rw [lookup_inode h'] at hcs
    rw [lookup_missing h', follow_concat, hcs, Option.bind_some] at hgone
    refine ⟨(removed_edge_self h hlive hf).mp hgone, fun c' m s hne hm he => ?_⟩
    obtain ⟨hq, -⟩ := hothers (cs ++ [c']) m (fun hp => hne (concat_prefix_concat hp).symm)
      ((lookup_inode h).mpr (follow_concat_some.mpr ⟨d, hd, hm⟩))
    rw [lookup_inode h', follow_concat, hcs, Option.bind_some] at hq
    exact (removed_edge_ne h hlive hf hne hm).mp hq s he
  · intro hs
    have hoff : ∀ {q}, ¬ cs ++ [c] <+: q →
        follow (edge (removeFile fs k d c.bytes)) 0 q = follow (edge fs) 0 q := by
      refine (edges_tree h).follow_off hd fun q y c' hy hpre hne => ?_
      have hylive := (edges_tree h).reached hy
      have hyk : y ≠ k := by
        rintro rfl
        exact hpre ((edges_tree h).path_unique hp hy ▸ List.prefix_rfl)
      by_cases hyd : y = d
      · subst hyd
        have hcc : c' ≠ c := fun e => hne ⟨rfl, e⟩
        cases hm : edge fs y c' with
        | some m => exact (removed_edge_ne h hlive hf hcc hm).mpr fun s he => hs.rest c' m s hcc hm he
        | none =>
          rw [edge_eq h hlive] at hm
          rw [edge_eq h' (removed_live h hk.1 hlive.1 hlive hyk)]
          exact (removed_thinned h hlive hf c').missing hm
      · exact removed_edge_other h hk.1 hlive.1 hylive hyk hyd c'
    refine ⟨?_, fun q m hpre hq => ?_⟩
    · rw [lookup_missing h', follow_concat, hoff not_concat_prefix, hd, Option.bind_some]
      exact (removed_edge_self h hlive hf).mpr hs.all
    · rw [lookup_inode h] at hq
      rw [lookup_inode h', hoff hpre]
      refine ⟨hq, removed_same h hc hlive hf ((edges_tree h).reached hq).1 ?_⟩
      rintro rfl
      exact hpre ((edges_tree h).path_unique hp hq ▸ List.prefix_rfl)

end

/-- In every run without `rd_write` whose calls of `rd_unlink` go to the parent of
the path, a file removed takes nothing else with it exactly when its name is taken
out of its own directory, which it spares. -/
theorem unlink_removes_iff
    (h : Reachable (fun st op => WellNamed op ∧ NoWrite op ∧ ParsesParent st op) st)
    (hd : myFindInodeNumber st.discos (render cs) = .inode d)
    (hu : rdUnlink st.discos (render (cs ++ [c])) mem = some (fs', 0)) :
    Removes st.discos fs' (cs ++ [c]) d ↔
      findIndex st.discos (splitPath (render (cs ++ [c])) mem).1 = .inode d ∧ Spares st.discos d c := by
  obtain ⟨hk, hc⟩ := covered_of_run h
  have hres := rdUnlink_result hu
  generalize hr : (0 : Int) = r at hres
  cases hres with
  | refused => cases hr
  | @removed k d' _ hd' _ hfile _ hfind =>
    rw [splitPath_concat_snd]
    rw [lookup_inode hk] at hd
    rw [findIndex_inode hk, follow_concat, hd, Option.bind_some] at hfile
    by_cases hdd : d' = d
    · subst hdd
      rw [removes_iff hk hd hfile hc]
      exact (and_iff_right hfind).symm
    · refine iff_of_false (elsewhere_left hk hd hfile hd' hdd) fun ⟨hfind', _⟩ => hdd ?_
      exact Found.inode.inj (hfind.symm.trans hfind')

theorem unlink_removes_iff_oneFile :
    ∃ fs', rdUnlink oneFile.discos (render ([] ++ [nameA])) ⟨[0, 0], [0, 0]⟩ = some (fs', 0) ∧
      (Removes oneFile.discos fs' ([] ++ [nameA]) 0 ↔
        findIndex oneFile.discos (splitPath (render ([] ++ [nameA])) ⟨[0, 0], [0, 0]⟩).1 = .inode 0 ∧
          Spares oneFile.discos 0 nameA) := by
  obtain ⟨fs', hu⟩ : ∃ fs', rdUnlink oneFile.discos (render ([] ++ [nameA])) ⟨[0, 0], [0, 0]⟩ = some (fs', 0) :=
    some_of_result (by decide +kernel)
  exact ⟨fs', hu, unlink_removes_iff oneFile_kept_run (by decide +kernel) hu⟩

/-! ## The seventeenth file -/

/-- Seventeen files in the root, sixteen of them in its first block. -/
def seventeen : State :=
  (((List.finRange 128).take 17).map fun i =>
      Op.create (render [oneByte i]) .reg RW ⟨[0, 0], [0, 0]⟩).foldl step
    (initFileSys (fun _ _ => 0) fun _ => 0)

theorem seventeen_reachable :
    Reachable (fun st op => WellNamed op ∧ NoWrite op ∧ ParsesParent st op) seventeen := by
  refine ⟨_, _, Reach.foldl .start _ fun st op hop => ?_⟩
  obtain ⟨i, -, rfl⟩ := List.mem_map.mp hop
  exact ⟨⟨_, rfl⟩, trivial, trivial⟩

theorem seventeen_lookup : myFindInodeNumber seventeen.discos (render [oneByte 16]) = .inode 17 ∧
    (rdUnlink seventeen.discos (render [oneByte 0]) ⟨[0, 0], [0, 0]⟩).map
      (fun r => (r.2, myFindInodeNumber r.1 (render [oneByte 16]))) = some (0, .missing) := by
  decide +kernel

/-- With the first file goes the block of the last one. -/
theorem last_file_lost :
    Reachable (fun st op => WellNamed op ∧ NoWrite op ∧ ParsesParent st op) seventeen ∧
      ∃ fs', rdUnlink seventeen.discos (render [oneByte 0]) ⟨[0, 0], [0, 0]⟩ = some (fs', 0) ∧
        ¬ Removes seventeen.discos fs' [oneByte 0] 0 := by
  obtain ⟨hbefore, hcall⟩ := seventeen_lookup
  obtain ⟨⟨fs', r⟩, hu, hr⟩ := Option.map_eq_some_iff.mp hcall
  obtain ⟨rfl, hafter⟩ := Prod.mk.inj hr
  refine ⟨seventeen_reachable, fs', hu, fun hrem => ?_⟩
  have hother : ¬ [oneByte 0] <+: [oneByte 16] := fun hp => by
    have e : oneByte 0 = oneByte 16 := by simpa using hp
    cases congrArg Component.bytes e
  obtain ⟨hstill, -⟩ := hrem.others [oneByte 16] 17 hother hbefore
  cases hafter.symm.trans hstill

end ToyOS.Ramdisk.Deleting
