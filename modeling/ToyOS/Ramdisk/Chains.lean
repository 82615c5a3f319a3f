import ToyOS.Ramdisk.Binding
import ToyOS.Ramdisk.Catalog
import ToyOS.Ramdisk.Supply
import ToyOS.Ramdisk.UserLookup

/-! # Chains of directory entries

A path means a chain of entries from the root, every inode but the last a
directory. The lookup never asks for the type, so it agrees with the chains as
long as a path does not go on behind a file whose bytes read as entries.
-/
namespace ToyOS.Ramdisk.Chains
open ToyOS.Lib.CStrings ToyOS.Lib.Words ToyOS.Lib.Runs ToyOS.Ramdisk.Image ToyOS.Ramdisk.Blocks
open ToyOS.Ramdisk.Places ToyOS.Ramdisk.Ownership ToyOS.Ramdisk.Growth ToyOS.Ramdisk.Paths
open ToyOS.Ramdisk.Components ToyOS.Ramdisk.Lookup ToyOS.Ramdisk.Directories ToyOS.Ramdisk.Slots
open ToyOS.Ramdisk.Clearing ToyOS.Ramdisk.Namespace ToyOS.Ramdisk.Creating ToyOS.Ramdisk.Removing
open ToyOS.Ramdisk.Unlinking ToyOS.Ramdisk.Records ToyOS.Ramdisk.Effects ToyOS.Ramdisk.Supply
open ToyOS.Ramdisk.Write ToyOS.Ramdisk.Writing ToyOS.Ramdisk.Descriptors ToyOS.Ramdisk.System
open ToyOS.Ramdisk.BlockOwnership ToyOS.Ramdisk.Catalog ToyOS.Ramdisk.Binding
open ToyOS.Ramdisk.UserLookup

variable {fs fs₁ fs' : FileSys} {st : State} {op : Op} {x k d cur n mode : Nat} {s s' : Place × Nat}
variable {e : EntryPtr} {name path : Str} {type : FileType} {mem : Scratch} {r : Int}
variable {cs cs₁ cs₂ : List Component} {c : Component}

/-- Entries spell the path from inode `x` on and end in inode `k`. -/
inductive Chain (fs : FileSys) : Nat → List Component → Nat → Prop
  | last {k : Nat} (hk : k < 1024) (ha : (fs.inodes k).type ≠ none) : Chain fs k [] k
  | through {x n k : Nat} {c : Component} {cs : List Component} {s : Place × Nat} (hx : x < 1024)
      (hd : (fs.inodes x).type = some .dir) (hs : s ∈ slots x)
      (hr : reading fs c.bytes s = some n) (h : Chain fs n cs k) : Chain fs x (c :: cs) k

/-- Directories hold entries of different names, each of an inode in use. -/
structure Tree (fs : FileSys) : Prop extends Catalogued IsDir fs where
  distinct : Distinct IsDir fs
  root : (fs.inodes 0).type = some .dir

/-- A round of the lookup in a directory. -/
theorem Tree.round (h : Tree fs) (hx : x < 1024) (hd : (fs.inodes x).type = some .dir) :
    Paths.findComponent fs x c.bytes = some n ↔
      ∃ s ∈ slots x, reading fs c.bytes s = some n ∧ Entry IsDir fs s n := by
  refine ⟨h.found_entry hx hd c.ne_nil c.noZero, fun ⟨s, hs, hr, he⟩ => ?_⟩
  cases hf : Paths.findComponent fs x c.bytes with
  | none =>
    rw [h.findComponent hx hd c.ne_nil c.noZero, List.findSome?_eq_none_iff] at hf
    rw [hf s hs] at hr
    cases hr
  | some m =>
    obtain ⟨s', hs', hr', he'⟩ := h.found_entry hx hd c.ne_nil c.noZero hf
    have hnode : ∀ s ∈ slots x, s.1.node = x := fun s hs =>
      ((mem_leaves hx).mp (mem_slotsOf.mp hs).1).2.2
    obtain rfl := h.distinct s s' n m c.bytes he he' ((hnode s hs).trans (hnode s' hs').symm) c.ne_nil
      c.noZero (he.reading_iff.mp hr) (he'.reading_iff.mp hr')
    rw [← hr', hr]

theorem Chain.allocated (h : Chain fs x cs k) : x < 1024 ∧ (fs.inodes x).type ≠ none := by
  cases h with
  | last hk ha => exact ⟨hk, ha⟩
  | through hx hd =>
    rw [hd]
    exact ⟨hx, Option.some_ne_none _⟩

theorem Chain.dir (h : Chain fs x (c :: cs) k) : x < 1024 ∧ (fs.inodes x).type = some .dir := by
  cases h with
  | through hx hd => exact ⟨hx, hd⟩

theorem Tree.search (h : Tree fs) (hc : cur < 1024) : Tree (getNextEntry fs cur).1 := by
  refine ⟨h.toCatalogued.search hc, h.distinct.keep h.toShelved fun p hp j _ =>
    search_held h.owned hc hp j, ?_⟩
  rw [getNextEntry_types h.owned hc]
  exact h.root

/-- The parent `rd_create` finds, where it is a directory, has no entry of the name. -/
def NewName (fs : FileSys) (path : Str) (mem : Scratch) : Prop :=
  ∀ cs c d, path = render (cs ++ [c]) → findIndex fs (splitPath path mem).1 = .inode d →
    (fs.inodes d).type = some .dir → ∀ s ∈ slots d, reading fs c.bytes s = none

/-- What `rd_create` fills in keeps the names of a directory different. -/
theorem distinct_filled (h : Shelved IsDir fs) (hd : Distinct IsDir fs) (hcur : cur < 1024)
    (hfind : findIndex fs (splitPath (render cs) mem).1 = .inode cur)
    (hg : getNextEntry fs cur = (fs₁, some e)) (hn : getFreeInodeNum fs₁ = some n)
    (hnew : NewName fs (render cs) mem) :
    Distinct IsDir (fillEntry fs₁ cur e n (splitPath (render cs) mem).2 type mode) := by
  obtain ⟨h₁, hd₁, hheld⟩ : Shelved IsDir fs₁ ∧ Distinct IsDir fs₁ ∧
      ∀ p, EntryBlock IsDir fs₁ p → ∀ j, Held IsDir fs fs₁ p j := by
    have hheld : ∀ p, EntryBlock IsDir (getNextEntry fs cur).1 p → ∀ j,
        Held IsDir fs (getNextEntry fs cur).1 p j := fun p hp j => search_held h.owned hcur hp j
    have hs := h.search hcur
    rw [hg] at hheld hs
    exact ⟨hs, hd.keep h fun p hp j _ => hheld p hp j, hheld⟩
  obtain ⟨hslot, hplain⟩ := (getNextEntry_next h.owned hcur hg).plain h.owned
  have hname : (splitPath (render cs) mem).2.length ≤ 13 := splitPath_length_le cs mem
  have hz : 0 ∉ (splitPath (render cs) mem).2 := zero_notMem_cstr _
  have hf : Filled fs₁ e n _ type (fillEntry fs₁ cur e n (splitPath (render cs) mem).2 type mode) :=
    fillEntry_filled h₁.owned hslot hname hplain
  refine hd₁.fill hf h₁ hname (newInode_of_get hn).lt hz fun hne s s' m hp hb he hnode hnm => ?_
  have hs' : s'.1.node = cur := hnode.symm.trans (entry_node h.owned hcur hg hp.valid hp.there hb)
  have he₀ := he.held (hheld s'.1 he.block s'.2)
  have hnm₀ := (he.named_held h (hheld s'.1 he.block s'.2) hz).mp hnm
  cases cs using List.reverseRecOn with
  | nil => exact hne (splitPath_root_snd mem)
  | append_singleton cs c =>
    rw [splitPath_concat_snd] at hnm₀
    have hdir : (fs.inodes cur).type = some .dir := hs' ▸ he₀.block.counted
    have hno := hnew cs c cur rfl hfind hdir s' (hs' ▸ he₀.mem_slots)
    rw [he₀.reading_iff.mpr hnm₀] at hno
    cases hno

theorem Tree.create (h : Tree fs) (hnew : Succeeds fs (render cs) mem → NewName fs (render cs) mem)
    (hc : rdCreate fs (render cs) type mode mem = some (fs', r)) : Tree fs' := by
  have hres := rdCreate_result hc
  cases hres with
  | refused => exact h
  | @noEntry cur _ _ hcur _ _ hg =>
    have := h.search hcur
    rwa [hg] at this
  | @filled cur n fs₁ e hcur _ hfind hg hn =>
    have hnew := hnew ((create_succeeds_iff h.owned.freeBlocks_lt _ type mode mem).mp ⟨_, hc⟩)
    have h₁ := h.search hcur
    rw [hg] at h₁
    obtain ⟨hslot, hplain⟩ := (getNextEntry_next h.owned hcur hg).plain h.owned
    have hname : (splitPath (render cs) mem).2.length ≤ 13 := splitPath_length_le cs mem
    have hf : Filled fs₁ e n _ type (fillEntry fs₁ cur e n (splitPath (render cs) mem).2 type mode) :=
      fillEntry_filled h₁.owned hslot hname hplain
    have hin := newInode_of_get hn
    refine ⟨h₁.toCatalogued.fill hf hname hin.lt hin.pos hin.free,
      distinct_filled h.toShelved h.distinct hcur hfind hg hn hnew, ?_⟩
    rw [hf.types, if_neg (by have := hin.pos; omega)]
    exact h₁.root

theorem Tree.remove (h : Tree fs) (hk : k < 1024) (hd : d < 1024) (hz : 0 ∉ name) (h0 : k ≠ 0)
    (hall : ∀ s, Entry IsDir fs s k → s.1.node = d ∧ TakenOut fs d name s) :
    Tree (removeFile fs k d name) := by
  refine ⟨h.toCatalogued.remove_all hk hd hz hall, h.distinct.keep h.toShelved fun p hp j hj =>
    ((h.toShelved.remove_held hk hd hz hp).2.2.2 j hj).1, ?_⟩
  obtain ⟨S, hr, -⟩ := removeFile_removed h.owned hk hd name
  rw [removed_type hr h0.symm]
  exact h.root

theorem Tree.same (h : Tree fs) (ho : Owned every fs') (hs : SameEntries IsDir fs fs') : Tree fs' := by
  refine ⟨h.toCatalogued.same ho hs, h.distinct.keep h.toShelved fun p hp j _ => hs.held hp j, ?_⟩
  rw [hs.types]
  exact h.root

/-! ## Runs -/

theorem init_tree (behind : Nat → Bytes) (buffer : Bytes) :
    Tree (initFileSys behind buffer).discos := by
  have ho := init_owned behind buffer
  rw [initFileSys_discos] at ho ⊢
  have h0 := ref_init behind
  have hc : Catalogued IsDir (makeRoot (emptyImage behind)) := catalogued_empty ho h0
  exact ⟨hc, fun s s' n n' t he => absurd (h0 s.1) he.block.there, rfl⟩

end ToyOS.Ramdisk.Chains
