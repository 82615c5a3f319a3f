import ToyOS.Lib.Walks
import ToyOS.Ramdisk.Exclusive
import ToyOS.Ramdisk.Frames
import ToyOS.Ramdisk.Sizes

/-! # The hierarchy of directories

Files may hold any bytes here, so only directories have children. While the
entries of the directories are in order the inodes hang in a tree, and a path with
nothing but directories above its end resolves along it.
-/
namespace ToyOS.Ramdisk.Hierarchy
open ToyOS.Lib.CStrings ToyOS.Lib.Words ToyOS.Lib.Walks ToyOS.Ramdisk.Image ToyOS.Ramdisk.Blocks
open ToyOS.Ramdisk.Places ToyOS.Ramdisk.Ownership ToyOS.Ramdisk.Growth ToyOS.Ramdisk.Paths
open ToyOS.Ramdisk.Components ToyOS.Ramdisk.Lookup ToyOS.Ramdisk.Directories ToyOS.Ramdisk.Creating
open ToyOS.Ramdisk.Records ToyOS.Ramdisk.Write ToyOS.Ramdisk.Writing ToyOS.Ramdisk.Catalog
open ToyOS.Ramdisk.Sizes ToyOS.Ramdisk.Effects

variable {fs fs' : FileSys} {x y k n : Nat} {s : Place × Nat} {cs : List Component} {c : Component}

/-- The entries of the directories are in order, and each has a name that a path can give. -/
structure Sound (fs : FileSys) : Prop extends Chains.Tree fs where
  sized : Sized fs
  spelled : ∀ s n, Entry IsDir fs s n → ∃ c : Component, Named fs s c.bytes

theorem Sound.kept (h : Sound fs) : Kept fs := ⟨h.toShelved, h.sized, h.root⟩

/-- The inode a directory has under a name. -/
def child (fs : FileSys) (x : Nat) (c : Component) : Option Nat :=
  if (fs.inodes x).type = some .dir then Paths.findComponent fs x c.bytes else none

theorem child_iff (h : Sound fs) (hx : x < 1024) :
    child fs x c = some n ↔ ∃ s, s.1.node = x ∧ Entry IsDir fs s n ∧ Named fs s c.bytes := by
  unfold child
  constructor
  · intro hf
    split at hf
    · rename_i hd
      obtain ⟨s, hs, hr, he⟩ := (h.toTree.round hx hd).mp hf
      exact ⟨s, ((mem_leaves hx).mp (mem_slotsOf.mp hs).1).2.2, he, he.reading_iff.mp hr⟩
    · cases hf
  · intro hex
    obtain ⟨s, rfl, he, hn⟩ := hex
    have hd : (fs.inodes s.1.node).type = some .dir := he.block.counted
    rw [if_pos hd]
    exact (h.toTree.round hx hd).mpr ⟨s, he.mem_slots, he.reading_iff.mpr hn, he⟩

theorem child_none (h : Sound fs) (hx : x < 1024) :
    child fs x c = none ↔ ∀ s n, s.1.node = x → Entry IsDir fs s n → ¬ Named fs s c.bytes := by
  rw [Option.eq_none_iff_forall_ne_some]
  constructor
  · intro hno s n hs he hn
    exact hno n ((child_iff h hx).mpr ⟨s, hs, he, hn⟩)
  · intro hno n hf
    obtain ⟨s, hs, he, hn⟩ := (child_iff h hx).mp hf
    exact hno s n hs he hn

theorem child_of_ne_dir (hd : (fs.inodes x).type ≠ some .dir) : child fs x c = none := if_neg hd

theorem child_tree (h : Sound fs) : Tree (child fs) (fun x => x < 1024) 0 where
  root := by omega
  closed x c n hx hf := by
    obtain ⟨s, -, he, -⟩ := (child_iff h hx).mp hf
    exact (h.names s n he).1
  orphan x c hx hf := by
    obtain ⟨s, -, he, -⟩ := (child_iff h hx).mp hf
    exact he.ne rfl
  single x y c c' k hx hy hf hf' := by
    obtain ⟨s, hs, he, hn⟩ := (child_iff h hx).mp hf
    obtain ⟨s', hs', he', hn'⟩ := (child_iff h hy).mp hf'
    obtain rfl := h.unique s s' k he he'
    exact ⟨hs.symm.trans hs', Component.ext_bytes (hn.unique c.noZero c'.noZero hn')⟩

/-- A directory with nothing in it. -/
theorem childless_iff (h : Sound fs) (hx : x < 1024) (hd : (fs.inodes x).type = some .dir) :
    (∀ c, child fs x c = none) ↔ (fs.inodes x).size = 0 := by
  have hpos := h.kept.size_pos hx hd
  rw [← not_iff_not, ← ne_eq, ← Nat.pos_iff_ne_zero, hpos]
  constructor
  · intro hno
    obtain ⟨c, hc⟩ := not_forall.mp hno
    obtain ⟨n, hn⟩ := Option.ne_none_iff_exists'.mp hc
    obtain ⟨s, hs, he, -⟩ := (child_iff h hx).mp hn
    exact ⟨s, (mem_occupied_entry hx (show IsDir _ from hd)).mpr ⟨hs, n, he⟩⟩
  · intro hne hno
    obtain ⟨s, hs⟩ := hne
    obtain ⟨hs, n, he⟩ := (mem_occupied_entry hx (show IsDir _ from hd)).mp hs
    obtain ⟨c, hn⟩ := h.spelled s n he
    exact (child_none h hx).mp (hno c) s n hs he hn

/-! ## Paths -/

/-- Every inode on the way is a directory. -/
def ThroughDirs (fs : FileSys) (x : Nat) (cs : List Component) : Prop :=
  ∀ ds y, ds <+: cs → ds ≠ cs → follow (child fs) x ds = some y → (fs.inodes y).type = some .dir

theorem throughDirs_cons (h : ThroughDirs fs x (c :: cs)) :
    (fs.inodes x).type = some .dir ∧ ∀ y, child fs x c = some y → ThroughDirs fs y cs := by
  refine ⟨h [] x List.nil_prefix (List.cons_ne_nil c cs).symm rfl, fun y hy ds z hds hne hz => ?_⟩
  refine h (c :: ds) z (List.cons_prefix_cons.mpr ⟨rfl, hds⟩) (fun e => hne (List.cons.inj e).2) ?_
  rw [follow_cons, hy, Option.bind_some, hz]

theorem walk_child (h : Sound fs) (hx : x < 1024) (ht : ThroughDirs fs x cs) :
    walk fs x (cs.map (·.bytes)) = match follow (child fs) x cs with
      | some k => .inode k
      | none => .missing := by
  induction cs generalizing x with
  | nil => rfl
  | cons c cs ih =>
    obtain ⟨hd, htail⟩ := throughDirs_cons ht
    have hround : child fs x c = Paths.findComponent fs x c.bytes := if_pos hd
    rw [List.map_cons, walk, if_neg (by omega), follow_cons, ← hround]
    cases hf : child fs x c with
    | none => rfl
    | some n => exact ih ((child_tree h).closed x c n hx hf) (htail n hf)

theorem lookup_child (h : Sound fs) (ht : ThroughDirs fs 0 cs) :
    myFindInodeNumber fs (render cs) = match follow (child fs) 0 cs with
      | some k => .inode k
      | none => .missing := by
  rw [myFind_render]
  exact walk_child h (child_tree h).root ht

theorem findIndex_child (h : Sound fs) (ht : ThroughDirs fs 0 cs) :
    findIndex fs (render cs) = match follow (child fs) 0 cs with
      | some k => .inode k
      | none => .missing := by
  unfold findIndex
  rw [lookup_child h ht]
  cases hf : follow (child fs) 0 cs with
  | none => rfl
  | some k => exact if_pos ((child_tree h).reached hf)

theorem findIndex_some (h : Sound fs) (ht : ThroughDirs fs 0 cs) (hk : follow (child fs) 0 cs = some k) :
    findIndex fs (render cs) = .inode k := by
  rw [findIndex_child h ht, hk]

theorem findIndex_none (h : Sound fs) (ht : ThroughDirs fs 0 cs) (hk : follow (child fs) 0 cs = none) :
    findIndex fs (render cs) = .missing := by
  rw [findIndex_child h ht, hk]

/-! ## Calls that enter and remove nothing -/

/-- Images with the same children have the same paths. -/
theorem follow_same (h : Sound fs) (hchild : ∀ x c, x < 1024 → child fs' x c = child fs x c)
    (cs : List Component) : follow (child fs') 0 cs = follow (child fs) 0 cs := by
  induction cs using List.reverseRecOn with
  | nil => rfl
  | append_singleton cs c ih =>
    rw [follow_concat, follow_concat, ih]
    cases hy : follow (child fs) 0 cs with
    | none => rfl
    | some y => exact hchild y c ((child_tree h).reached hy)

/-- The same entries hang the inodes in the same tree. -/
theorem child_same (h : Sound fs) (h' : Sound fs')
    (hsame : ∀ s n, Entry IsDir fs' s n ↔ Entry IsDir fs s n)
    (hname : ∀ s n (c : Component), Entry IsDir fs s n → (Named fs' s c.bytes ↔ Named fs s c.bytes))
    (hx : x < 1024) : child fs' x c = child fs x c := by
  refine Option.ext fun n => ?_
  rw [child_iff h' hx, child_iff h hx]
  refine exists_congr fun s => and_congr_right fun _ => ?_
  rw [hsame]
  exact and_congr_right fun he => hname s n c he

theorem sameEntries_carry (h : Sound fs) (hs : SameEntries IsDir fs fs') :
    (∀ s n, Entry IsDir fs' s n ↔ Entry IsDir fs s n) ∧
      ∀ s n (c : Component), Entry IsDir fs s n → (Named fs' s c.bytes ↔ Named fs s c.bytes) := by
  have hcarry : ∀ s n (t : Str), 0 ∉ t → Entry IsDir fs s n →
      Entry IsDir fs' s n ∧ (Named fs' s t ↔ Named fs s t) := fun s n t ht he => by
    refine he.carry h.toShelved ht ?_ (hs.refs s.1 he.block.valid he.block.counted)
      fun a _ _ => congrFun (hs.blocks s.1 he.block) a
    rw [hs.types]
    exact he.block.counted
  refine ⟨fun s n => ⟨fun he => he.held (hs.held he.block s.2), fun he => ?_⟩, fun s n c he => ?_⟩
  · exact (hcarry s n [] List.not_mem_nil he).1
  · exact (hcarry s n c.bytes c.noZero he).2

theorem Sound.same (h : Sound fs) (ho : Owned every fs') (hs : SameEntries IsDir fs fs')
    (hsize : ∀ x, (fs.inodes x).type = some .dir → (fs'.inodes x).size = (fs.inodes x).size) :
    Sound fs' ∧ ∀ x c, x < 1024 → child fs' x c = child fs x c := by
  obtain ⟨hentries, hnames⟩ := sameEntries_carry h hs
  have h' : Sound fs' := by
    refine ⟨h.toTree.same ho hs, (h.kept.same ho hs hsize).sized, fun s n he => ?_⟩
    have he₀ := (hentries s n).mp he
    obtain ⟨c, hn⟩ := h.spelled s n he₀
    exact ⟨c, (hnames s n c he₀).mpr hn⟩
  exact ⟨h', fun x c hx => child_same h h' hentries hnames hx⟩

theorem Sound.chmod (h : Sound fs) (k mode : Nat) :
    Sound (fs.setInode k { fs.inodes k with access := mode }) ∧
      ∀ x c, x < 1024 → child (fs.setInode k { fs.inodes k with access := mode }) x c = child fs x c := by
  have ho := owned_of_ref h.owned (fun _ => ref_setInode (k := k) (n := { fs.inodes k with access := mode })
    fun _ => ⟨rfl, rfl, rfl⟩) rfl rfl
  refine h.same ho (sameEntries_chmod IsDir fs k mode) fun x _ => ?_
  by_cases hx : x = k
  · rw [hx, setInode_inodes_self]
  · rw [setInode_inodes_ne _ _ hx]

/-- Writing to a file that is no directory. -/
theorem Sound.write (h : Sound fs) (hk : k < 1024) (hd : (fs.inodes k).type ≠ some .dir) (data : Bytes)
    (m : Int) (pos : Nat) : Sound (writeStages k data m ⟨fs, pos, 0, 0⟩).state.fs ∧
      ∀ x c, x < 1024 → child (writeStages k data m ⟨fs, pos, 0, 0⟩).state.fs x c = child fs x c := by
  have ho := (writeStages_wrote (w := ⟨fs, pos, 0, 0⟩) hk h.owned data m).grows.owned
  refine h.same ho (sameEntries_write h.owned hk hd data m pos) fun x hx => ?_
  refine (writeStages_onlySize fs k data m pos x).2.2 ?_
  rintro rfl
  exact hd hx

theorem init_sound (behind : Nat → Bytes) (buffer : Bytes) :
    Sound (System.initFileSys behind buffer).discos := by
  refine ⟨Chains.init_tree behind buffer, (Sizes.init_kept behind buffer).sized, fun s n he => ?_⟩
  rw [initFileSys_discos] at he
  exact absurd (ref_init behind s.1) he.block.there

end ToyOS.Ramdisk.Hierarchy
