import ToyOS.Ramdisk.Hierarchy

/-! # A removed file is a leaf cut off

`rd_unlink` takes one leaf from the tree of the directories, and nothing else, as
long as the blocks it gives back hold no other entry.
-/
namespace ToyOS.Ramdisk.Pruning
open ToyOS.Lib.CStrings ToyOS.Lib.Words ToyOS.Lib.Walks ToyOS.Ramdisk.Image ToyOS.Ramdisk.Blocks
open ToyOS.Ramdisk.Places ToyOS.Ramdisk.Ownership ToyOS.Ramdisk.Paths ToyOS.Ramdisk.Components
open ToyOS.Ramdisk.Lookup ToyOS.Ramdisk.Directories ToyOS.Ramdisk.Clearing ToyOS.Ramdisk.Namespace
open ToyOS.Ramdisk.Creating ToyOS.Ramdisk.Removing ToyOS.Ramdisk.Unlinking ToyOS.Ramdisk.Records
open ToyOS.Ramdisk.Catalog ToyOS.Ramdisk.Sizes ToyOS.Ramdisk.Hierarchy

variable {fs : FileSys} {x d k n m : Nat} {s : Place × Nat} {t : Str} {mem : Scratch}
variable {cs : List Component} {c c' : Component}

/-- The blocks of `d` that go with the name hold no entry of another name. -/
def Clean (fs : FileSys) (d : Nat) (c : Component) : Prop :=
  ∀ s m, Entry IsDir fs s m → s.1.node = d → Lost fs d c.bytes s.1 → Named fs s c.bytes

section
variable (h : Sound fs) (hd : d < 1024) (hf : child fs d c = some k)
include h hd hf

theorem pruned_child : (fs.inodes d).type = some .dir ∧ k < 1024 ∧ k ≠ 0 ∧ d ≠ k := by
  obtain ⟨s, hs, he, -⟩ := (child_iff h hd).mp hf
  have hdir : (fs.inodes d).type = some .dir := hs ▸ he.block.counted
  have hnames := h.names s k he
  exact ⟨hdir, hnames.1, he.ne, fun e => hnames.2.2 (e.symm.trans hs.symm)⟩

/-- In the directory the name stands once, and that entry is swept. -/
theorem swept_entry : ∃ s, s.1.node = d ∧ Entry IsDir fs s k ∧ Swept fs d c.bytes s.1 ∧
    ∀ s' m, s'.1.node = d → Entry IsDir fs s' m → Named fs s' c.bytes → s' = s := by
  obtain ⟨hdir, -⟩ := pruned_child h hd hf
  have hround : Paths.findComponent fs d c.bytes = some k := (if_pos hdir).symm.trans hf
  obtain ⟨s, he, hs, hr, hswept⟩ := h.found_swept hd hdir c.ne_nil c.noZero hround
  refine ⟨s, hs, he, hswept, fun s' m hs' he' hn' => ?_⟩
  exact h.distinct s' s m k c.bytes he' he (hs'.trans hs.symm) c.ne_nil c.noZero hn' (he.reading_iff.mp hr)

theorem taken_iff (hc : Clean fs d c) (he : Entry IsDir fs s m) (hs : s.1.node = d) :
    TakenOut fs d c.bytes s ↔ Named fs s c.bytes := by
  constructor
  · rintro (hlost | ⟨-, hn⟩)
    · exact hc s m he hs hlost
    · exact hn
  · intro hn
    obtain ⟨s₀, -, -, hswept, honly⟩ := swept_entry h hd hf
    obtain rfl := honly s m hs he hn
    exact .inr ⟨hswept, hn⟩

section
variable (hc : Clean fs d c) (hleaf : ∀ b, child fs k b = none)
include hc hleaf

/-- The entries with a name are those of before without the one removed. -/
theorem pruned_entries (hz : 0 ∉ t) :
    Entry IsDir (removeFile fs k d c.bytes) s m ∧ Named (removeFile fs k d c.bytes) s t ↔
      (Entry IsDir fs s m ∧ Named fs s t) ∧ ¬ (s.1.node = d ∧ Named fs s c.bytes) := by
  obtain ⟨-, hk, -, hdk⟩ := pruned_child h hd hf
  have htaken := fun (he : Entry IsDir fs s m) => taken_iff h hd hf hc he
  constructor
  · intro hex
    obtain ⟨he, hname⟩ := hex
    obtain ⟨-, -, -, hslot⟩ := h.toShelved.remove_held hk hd c.noZero he.block
    have hh := (hslot s.2 he.slot_lt).1
    refine ⟨⟨he.held hh, (he.named_held h.toShelved hh hz).mp hname⟩, ?_⟩
    rintro ⟨hs, hn⟩
    exact h.toShelved.taken_gone hk hd c.noZero he hs ((htaken (he.held hh) hs).mpr hn)
  · intro hex
    obtain ⟨⟨he, hname⟩, hleft⟩ := hex
    have hnk : s.1.node ≠ k := by
      intro e
      obtain ⟨b, hb⟩ := h.spelled s m he
      exact (child_none h hk).mp (hleaf b) s m e he hb
    have hv := he.block.valid
    have h0 := he.block.there
    obtain ⟨S, hr, -⟩ := removeFile_removed h.owned hk hd c.bytes
    have hcounted : IsDir ((removeFile fs k d c.bytes).inodes s.1.node).type := by
      rw [removed_type hr hnk]
      exact he.block.counted
    by_cases hs : s.1.node = d
    · have hcd : IsDir (fs.inodes d).type := hs ▸ he.block.counted
      have hother : ¬ fs.entryNameIs (blockOf (ref fs s.1)) s.2 c.bytes = true := fun hn => hleft ⟨hs, hn⟩
      have hl := removeFile_left h.owned hd hdk c.noZero (h.toShelved.allTerminated hd hcd) hk
        (hs ▸ he.block.mem_leaves)
      have hlost : ¬ Lost fs d c.bytes s.1 := fun hL => hother (hc s m he hs hL)
      obtain ⟨he', hname'⟩ := he.carry h.toShelved hz hcounted (hl.kept hlost) fun a h1 h2 => by
        by_cases hS : Swept fs d c.bytes s.1
        · have hslot := he.slot_lt
          rw [hl.swept hS h0 a (by omega), show a / 16 = s.2 by omega, if_neg hother]
        · rw [hl.rest hS h0]
      exact ⟨he', hname'.mpr hname⟩
    · have hnS : ¬ S s.1 := fun hS => hs (hr.node s.1 hS).1
      obtain ⟨he', hname'⟩ := he.carry h.toShelved hz hcounted (hr.kept s.1 hv hnk hnS) fun a _ _ =>
        congrFun (hr.blocks s.1 hv hnk hs h0) a
      exact ⟨he', hname'.mpr hname⟩

omit hleaf in
/-- Exactly one entry of the directory goes. -/
theorem taken_card : (taken fs d c.bytes).card = 1 := by
  obtain ⟨hdir, -⟩ := pruned_child h hd hf
  obtain ⟨s, hs, he, hswept, honly⟩ := swept_entry h hd hf
  obtain ⟨s', hs', he', hn'⟩ := (child_iff h hd).mp hf
  have hn : Named fs s c.bytes := honly s' k hs' he' hn' ▸ hn'
  refine Finset.card_eq_one.mpr ⟨s, Finset.ext fun u => ?_⟩
  rw [mem_taken, Finset.mem_singleton, mem_occupied_entry hd (show IsDir _ from hdir)]
  constructor
  · intro hu
    obtain ⟨⟨hu, m, heu⟩, htaken⟩ := hu
    exact honly u m hu heu ((taken_iff h hd hf hc heu hu).mp htaken)
  · rintro rfl
    exact ⟨⟨hs, k, he⟩, (taken_iff h hd hf hc he hs).mpr hn⟩

omit hleaf in
/-- The order of the entries is kept. -/
theorem pruned_sound (hfile : findIndex fs (render (cs ++ [c])) = .inode k)
    (hfind : findIndex fs (splitPath (render (cs ++ [c])) mem).1 = .inode d)
    (hr : ¬ Binding.Refused fs (render (cs ++ [c])) mem k) : Sound (removeFile fs k d c.bytes) := by
  obtain ⟨hdir, hk, hk0, hdk⟩ := pruned_child h hd hf
  refine ⟨h.toTree.remove hk hd c.noZero hk0 fun s he => ?_, ?_, fun s m he => ?_⟩
  · obtain ⟨s', hs', he', hn'⟩ := (child_iff h hd).mp hf
    obtain rfl := h.unique s s' k he he'
    exact ⟨hs', (taken_iff h hd hf hc he hs').mpr hn'⟩
  · have hsized := (unlink_sized_iff h.kept hfile hr hfind).2.2
    rw [splitPath_concat_snd] at hsized
    refine hsized.mpr fun k' d' _ _ hd' _ _ => ?_
    obtain rfl := Found.inode.inj (hfind.symm.trans hd')
    rw [splitPath_concat_snd]
    exact taken_card h hd hf hc
  · obtain ⟨-, -, -, hslot⟩ := h.toShelved.remove_held hk hd c.noZero he.block
    have hh := (hslot s.2 he.slot_lt).1
    obtain ⟨b, hb⟩ := h.spelled s m (he.held hh)
    exact ⟨b, (he.named_held h.toShelved hh b.noZero).mpr hb⟩

section
variable (h' : Sound (removeFile fs k d c.bytes))
include h'

theorem pruned_child_ne (hx : x < 1024) (hne : ¬ (x = d ∧ c' = c)) :
    child (removeFile fs k d c.bytes) x c' = child fs x c' := by
  refine Option.ext fun m => ?_
  rw [child_iff h' hx, child_iff h hx]
  refine exists_congr fun s => and_congr_right fun hs => ?_
  rw [pruned_entries h hd hf hc hleaf c'.noZero]
  refine and_iff_left_of_imp fun hn => ?_
  rintro ⟨hsd, hnc⟩
  exact hne ⟨hs.symm.trans hsd, Component.ext_bytes (hn.2.unique c'.noZero c.noZero hnc)⟩

theorem pruned_child_self : child (removeFile fs k d c.bytes) d c = none := by
  refine (child_none h' hd).mpr fun s m hs he hn => ?_
  obtain ⟨⟨-, hn₀⟩, hleft⟩ := (pruned_entries h hd hf hc hleaf c.noZero).mp ⟨he, hn⟩
  exact hleft ⟨hs, hn₀⟩

end
end
end

/-- The types and the access rights of the other inodes. -/
theorem pruned_record (hx : x ≠ k) : ((removeFile fs k d t).inodes x).type = (fs.inodes x).type ∧
    ((removeFile fs k d t).inodes x).access = (fs.inodes x).access := by
  have hrec := congrFun (removeFile_record fs k d t).1 x
  unfold removedRecord at hrec
  rw [if_neg hx] at hrec
  split at hrec
  · exact ⟨congrArg Record.type hrec, congrArg Record.access hrec⟩
  · exact ⟨congrArg Record.type hrec, congrArg Record.access hrec⟩

end ToyOS.Ramdisk.Pruning
