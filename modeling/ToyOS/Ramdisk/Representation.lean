import ToyOS.Lib.Pathmaps
import ToyOS.Ramdisk.Discipline
import ToyOS.Ramdisk.Grafting
import ToyOS.Ramdisk.Pruning
import ToyOS.Ramdisk.Purpose
import ToyOS.Ramdisk.ReadBack

/-! # Volumes in an image

A state represents a volume when its tree of directories shows the volume's nodes
and its first descriptor table the volume's handles. The operations on paths keep
that: each does to the state what it should do to the volume.
-/
namespace ToyOS.Ramdisk.Representation
open ToyOS.Lib.CStrings ToyOS.Lib.Words ToyOS.Lib.Walks ToyOS.Lib.Pathmaps ToyOS.Ramdisk.Image
open ToyOS.Ramdisk.Blocks ToyOS.Ramdisk.Places ToyOS.Ramdisk.Ownership ToyOS.Ramdisk.Growth
open ToyOS.Ramdisk.Paths ToyOS.Ramdisk.Components ToyOS.Ramdisk.Directories ToyOS.Ramdisk.Slots
open ToyOS.Ramdisk.Namespace ToyOS.Ramdisk.Descriptors ToyOS.Ramdisk.Creating ToyOS.Ramdisk.Removing
open ToyOS.Ramdisk.Records ToyOS.Ramdisk.Supply ToyOS.Ramdisk.Catalog ToyOS.Ramdisk.Frames
open ToyOS.Ramdisk.Files ToyOS.Ramdisk.Contents ToyOS.Ramdisk.Discipline ToyOS.Ramdisk.Opened
open ToyOS.Ramdisk.ReadBack ToyOS.Ramdisk.Binding ToyOS.Ramdisk.Hierarchy ToyOS.Ramdisk.Grafting
open ToyOS.Ramdisk.Pruning ToyOS.Ramdisk.Purpose

variable {fs fs' : FileSys} {st st' : State} {v : Volume} {path p q cs : List Component} {c : Component}
variable {k n d mode : Nat} {b : Node} {type : FileType} {mem : Scratch} {r : Int}

/-- What an inode shows. -/
def Shows (fs : FileSys) (k : Nat) : Node → Prop
  | .dir access => (fs.inodes k).type = some .dir ∧ (fs.inodes k).access = access
  | .file access content => (fs.inodes k).type = some .reg ∧ (fs.inodes k).access = access ∧
      ∃ hk : k < 1024, Contains fs ⟨k, hk⟩ content

/-- What a slot of the first table is for a handle. -/
def Stands (st : State) (i : Nat) : Option Handle → Prop
  | none => ¬ Open st ⟨0, i⟩
  | some h => ∃ k : Fin 1024, st.fileObject ⟨0, i⟩ = ⟨some k, h.flags, h.cursor, i, 1⟩ ∧
      follow (child st.discos) 0 h.path = some k.val

structure Represents (st : State) (v : Volume) : Prop where
  sound : Sound st.discos
  tables : Disciplined st
  tree : Depicts (child st.discos) (Shows st.discos) 0 v.tree
  handles : ∀ i, i < 1024 → Stands st i (v.handles i)

/-! ## What a file shows -/

theorem byteAt_sameFile (h : SameFile fs fs' k) (hk : k < 1024) {pos : Nat} (hpos : pos < 1067008) :
    byteAt fs' k pos = byteAt fs k pos := by
  have hv := leafOf_valid hk (show pos / 256 < 4168 by omega)
  have hr := h.ref _ hv (leafOf_node k _)
  by_cases h0 : ref fs (leafOf k (pos / 256)) = 0
  · rw [byteAt_missing h0, byteAt_missing (hr.trans h0)]
  · rw [byteAt_present h0, byteAt_present (by rw [hr]; exact h0), hr,
      h.bytes _ hv (leafOf_node k _) (leafOf_isLeaf k _) h0]

/-- Nothing a reader sees has changed. -/
theorem shows_same (htype : (fs'.inodes k).type = (fs.inodes k).type)
    (haccess : (fs'.inodes k).access = (fs.inodes k).access)
    (hfile : (fs.inodes k).type = some .reg → SameFile fs fs' k) (h : Shows fs k b) : Shows fs' k b := by
  cases b with
  | dir a => exact ⟨htype.trans h.1, haccess.trans h.2⟩
  | file a content =>
    obtain ⟨hreg, ha, hk, hc⟩ := h
    have hs := hfile hreg
    exact ⟨htype.trans hreg, haccess.trans ha, hk, hs.size.trans hc.size, hc.nonzero, hc.fits,
      fun pos hpos => (byteAt_sameFile hs hk hpos).trans (hc.bytes pos hpos)⟩

theorem Shows.inUse (h : Shows fs k b) : (fs.inodes k).type ≠ none := by
  cases b with
  | dir => rw [h.1]; exact Option.some_ne_none _
  | file => rw [h.1]; exact Option.some_ne_none _

theorem Shows.access (h : Shows fs k b) : (fs.inodes k).access = b.access := by
  cases b with
  | dir => exact h.2
  | file => exact h.2.1

/-- A new file is empty. -/
def freshNode (mode : Nat) : FileType → Node
  | .dir => .dir mode
  | .reg => .file mode []

theorem shows_fresh (hn : n < 1024) (h : fs.inodes n = freshInode type mode) :
    Shows fs n (freshNode mode type) := by
  cases type with
  | dir => exact ⟨by rw [h]; rfl, by rw [h]; rfl⟩
  | reg =>
    refine ⟨by rw [h]; rfl, by rw [h]; rfl, hn, by rw [h]; rfl, List.not_mem_nil, Nat.zero_le _,
      fun pos _ => ?_⟩
    exact byteAt_missing (leafOf_null (fun _ _ => by rw [h]; rfl) (by rw [h]; rfl) (by rw [h]; rfl))

theorem shows_chmod (h : Shows fs k b) :
    Shows (fs.setInode k { fs.inodes k with access := mode }) k (b.chmod mode) := by
  obtain ⟨fs', hfs'⟩ : ∃ fs', fs.setInode k { fs.inodes k with access := mode } = fs' := ⟨_, rfl⟩
  have hr : ∀ q, ref fs' q = ref fs q := fun q => by
    rw [← hfs']
    exact ref_setInode fun _ => ⟨rfl, rfl, rfl⟩
  have hk : fs'.inodes k = { fs.inodes k with access := mode } := by rw [← hfs', setInode_inodes_self]
  have hd : fs'.dataBlocks = fs.dataBlocks := by rw [← hfs', setInode_dataBlocks]
  rw [hfs']
  cases b with
  | dir a => exact ⟨by rw [hk]; exact h.1, by rw [hk]⟩
  | file a content =>
    obtain ⟨hreg, -, hlt, hc⟩ := h
    refine ⟨by rw [hk]; exact hreg, by rw [hk], hlt, ?_, hc.nonzero, hc.fits, fun pos hpos => ?_⟩
    · rw [hk]
      exact hc.size
    · rw [byteAt_of_eq hr hd]
      exact hc.bytes pos hpos

/-! ## Looking up a path -/

section
variable (h : Represents st v)
include h

theorem Represents.follow_none : v.tree p = none ↔ follow (child st.discos) 0 p = none := h.tree.none_iff

theorem Represents.node (hp : v.tree p = some b) :
    ∃ k, follow (child st.discos) 0 p = some k ∧ k < 1024 ∧ Shows st.discos k b := by
  obtain ⟨k, hk, hs⟩ := h.tree.node hp
  exact ⟨k, hk, (child_tree h.sound).reached hk, hs⟩

/-- A node that is a directory for the image is one of the volume. -/
theorem Represents.dir_node (hk : follow (child st.discos) 0 p = some k)
    (hd : (st.discos.inodes k).type = some .dir) : ∃ a, v.tree p = some (.dir a) := by
  obtain ⟨b, hb, hs⟩ := h.tree.present p k hk
  cases b with
  | dir a => exact ⟨a, hb⟩
  | file a content =>
    have hreg := hs.1
    rw [hd] at hreg
    cases hreg

theorem Represents.formed : v.Formed where
  root := h.dir_node rfl h.sound.root
  parent cs c hne := by
    obtain ⟨b, hb⟩ := Option.ne_none_iff_exists'.mp hne
    obtain ⟨k, hk, -⟩ := h.node hb
    obtain ⟨y, hy, hc⟩ := follow_concat_some.mp hk
    refine h.dir_node hy ?_
    by_contra hd
    rw [child_of_ne_dir hd] at hc
    cases hc
  there i hd hi hh := by
    have hs := h.handles i hi
    rw [hh] at hs
    obtain ⟨k, -, hk⟩ := hs
    rw [Ne, h.follow_none, hk]
    exact Option.some_ne_none _

theorem Represents.throughDirs (hp : v.Plain p) : ThroughDirs st.discos 0 p := by
  intro q y hq hne hy
  obtain ⟨b, hb, hs⟩ := h.tree.present q y hy
  cases b with
  | dir a => exact hs.1
  | file a content => exact absurd hb (hp q hq hne a content)

theorem Represents.found (hp : v.Plain p) (hk : follow (child st.discos) 0 p = some k) :
    myFindInodeNumber st.discos (render p) = .inode k ∧ findIndex st.discos (render p) = .inode k := by
  refine ⟨?_, findIndex_some h.sound (h.throughDirs hp) hk⟩
  rw [lookup_child h.sound (h.throughDirs hp), hk]

theorem Represents.missing (hp : v.Plain p) (hno : v.tree p = none) :
    myFindInodeNumber st.discos (render p) = .missing ∧ findIndex st.discos (render p) = .missing := by
  have hk := h.follow_none.mp hno
  refine ⟨?_, findIndex_none h.sound (h.throughDirs hp) hk⟩
  rw [lookup_child h.sound (h.throughDirs hp), hk]

/-- A new image under the same handles. -/
theorem Represents.image {t : List Component → Option Node} (hs : Sound fs')
    (ht : Depicts (child fs') (Shows fs') 0 t)
    (hpaths : ∀ i (hd : Handle), i < 1024 → v.handles i = some hd →
      follow (child fs') 0 hd.path = follow (child st.discos) 0 hd.path) :
    Represents { st with discos := fs' } { v with tree := t } where
  sound := hs
  tables := disciplined_of_tables h.tables rfl
  tree := ht
  handles i hi := by
    have hstands := h.handles i hi
    show Stands _ i (v.handles i)
    cases hh : v.handles i with
    | none =>
      rw [hh] at hstands
      exact hstands
    | some hd =>
      rw [hh] at hstands
      obtain ⟨k, ho, hk⟩ := hstands
      exact ⟨k, ho, (hpaths i hd hi hh).trans hk⟩

/-- An image in which nobody sees a difference. -/
theorem Represents.unseen (hs : Sound fs')
    (hchild : ∀ x c, x < 1024 → child fs' x c = child st.discos x c)
    (hshows : ∀ q k b, follow (child st.discos) 0 q = some k → Shows st.discos k b → Shows fs' k b) :
    Represents { st with discos := fs' } v := by
  have hf := follow_same h.sound hchild
  exact h.image hs (h.tree.congr hf hshows) fun i hd _ _ => hf hd.path

end

/-! ## Creating a file -/

section
variable (h : Represents st v) (hplain : v.Plain (cs ++ [c])) (habsent : v.tree (cs ++ [c]) = none)
variable (hends : Ends mem (joined cs).length)
include h hplain

include habsent in
omit hplain in
/-- The directory a new file goes to has nothing of its name. -/
theorem absent_child (hk : follow (child st.discos) 0 cs = some k) : child st.discos k c = none := by
  have hno := h.follow_none.mp habsent
  rw [follow_concat, hk, Option.bind_some] at hno
  exact hno

omit hplain in
/-- A call that comes to nothing has at most taken blocks for the parent. -/
theorem stopped_represents
    (hfind : ∀ cur, findIndex st.discos (splitPath (render (cs ++ [c])) mem).1 = .inode cur →
      (st.discos.inodes cur).type = some .dir)
    (hc : rdCreate st.discos (render (cs ++ [c])) type mode mem = some (fs', -1)) :
    Represents { st with discos := fs' } v := by
  have hres := rdCreate_result hc
  generalize hr : (-1 : Int) = r at hres
  cases hres with
  | refused => exact h
  | filled => cases hr
  | @noEntry cur fs' e hcur _ hf hg =>
    obtain ⟨hs, hchild⟩ := search_sound h.sound hcur
    have htypes := getNextEntry_types h.sound.owned hcur
    have hrec := (getNextEntry_records st.discos cur).1
    have hx := (getNextEntry_spec h.sound.owned hcur).extends h.sound.owned
    rw [hg] at hs hchild htypes hrec hx
    refine h.unseen hs hchild fun q k b _ hshows => ?_
    refine shows_same (htypes k) (congrArg Record.access (congrFun hrec k)) (fun hreg => ?_) hshows
    refine sameFile_extends hx ?_
    rintro rfl
    rw [hfind k hf] at hreg
    cases hreg

variable (type mode) in
include habsent hends in
/-- `rd_create` enters the file, unless it finds no room for it. -/
theorem create_represents
    (hlinked : ∀ d, findIndex st.discos (render cs) = .inode d → ¬ Unlinked st.discos d) :
    ∃ fs' r, rdCreate st.discos (render (cs ++ [c])) type mode mem = some (fs', r) ∧
      ((r = (v.enter cs c (freshNode mode type)).2.value ∧
          Represents { st with discos := fs' } (v.enter cs c (freshNode mode type)).1) ∨
        (r = -1 ∧ ¬ Succeeds st.discos (render (cs ++ [c])) mem ∧ Represents { st with discos := fs' } v)) := by
  have hparent := splitPath_concat_fst cs c hends
  have hplain' := hplain.parent
  have hw := h.sound.owned.freeBlocks_lt
  cases htree : v.tree cs with
  | none =>
    obtain ⟨-, hmissing⟩ := h.missing hplain' htree
    have hno : ¬ Succeeds st.discos (render (cs ++ [c])) mem := fun hs => by
      obtain ⟨d, hd, -⟩ := hs.finds
      rw [hparent, hmissing] at hd
      cases hd
    have hstop := (Exclusive.create_refused_iff hw (render (cs ++ [c])) type mode mem).mpr
      (.inr (.inr (.inl (by rw [hparent]; exact hmissing))))
    exact ⟨_, _, hstop, .inr ⟨rfl, hno, h⟩⟩
  | some node =>
    cases node with
    | file a content => exact absurd htree (hplain.parent_not_file a content)
    | dir a =>
      obtain ⟨d, hd, hlt, hshows⟩ := h.node htree
      obtain ⟨-, hfind⟩ := h.found hplain' hd
      have hfind' : findIndex st.discos (splitPath (render (cs ++ [c])) mem).1 = .inode d := by
        rw [hparent, hfind]
      have hdef := (Exclusive.create_defined_iff st.discos (render (cs ++ [c])) type mode mem).mpr
        (.inr (.inr (by rw [hfind']; exact fun e => by cases e)))
      obtain ⟨⟨fs', r⟩, hc⟩ := Option.ne_none_iff_exists'.mp hdef
      refine ⟨fs', r, hc, ?_⟩
      rcases create_returns hc with rfl | rfl
      · refine .inr ⟨rfl, fun hs => ?_, stopped_represents h (fun cur hcur => ?_) hc⟩
        · obtain ⟨fs₂, h₂⟩ := (create_succeeds_iff hw (render (cs ++ [c])) type mode mem).mpr hs
          rw [hc] at h₂
          cases h₂
        · obtain rfl := Found.inode.inj (hfind'.symm.trans hcur)
          exact hshows.1
      · left
        obtain ⟨n, e, fs₁, hin⟩ := enters_of_create h.sound.owned hshows.1 hfind' hc
        have hnone := absent_child h habsent hd
        have hl := hlinked d hfind
        have hs' := entered_sound h.sound hin hl hnone hfind' hc
        have henter : v.enter cs c (freshNode mode type) =
            (v.setNode (cs ++ [c]) (some (freshNode mode type)), ⟨0, []⟩) := by
          unfold Volume.enter
          rw [htree, habsent]
        have hoff : ∀ q, ¬ cs ++ [c] <+: q → follow (child fs') 0 q = follow (child st.discos) 0 q :=
          fun q hq => (child_tree h.sound).follow_off hd (fun as y b hy _ hne =>
            entered_child_ne h.sound hin hs' ((child_tree h.sound).reached hy) hne) hq
        have hfit := BlockOwnership.nameFits_render h.sound.owned (cs ++ [c]) mem
        rw [henter]
        refine ⟨rfl, h.image hs' (h.tree.grow hd hoff hnone (entered_child h.sound hin hs' hl)
          (entered_leaf hin hs') (shows_fresh hin.new.lt hin.fresh) fun q j b hq hj => ?_) ?_⟩
        · have hinUse := hj.inUse
          have hjn : j ≠ n := entered_ne h.sound hin hinUse
          by_cases hjd : j = d
          · subst hjd
            obtain ⟨htype, haccess⟩ := entered_parent h.sound hin
            refine shows_same htype haccess (fun hreg => ?_) hj
            rw [hin.dir] at hreg
            cases hreg
          · obtain ⟨htype, haccess⟩ := entered_other hin hjn hjd
            refine shows_same htype haccess (fun _ => ?_) hj
            refine sameFile_create (rdCreate_result hc) h.sound.owned hfit hinUse fun e => ?_
            exact hjd (Found.inode.inj (e.symm.trans hfind'))
        · intro i hd' hi hh
          refine hoff _ fun hpre => ?_
          obtain ⟨rest, hrest⟩ := hpre
          have hthere := h.formed.there i hd' hi hh
          rw [Ne, h.follow_none, ← hrest, follow_behind hd, hnone] at hthere
          exact hthere rfl

end

/-! ## Removing a file -/

section
variable (h : Represents st v)
include h

/-- Below a file there is nothing, below a directory what its size says. -/
theorem parent_iff (hk : follow (child st.discos) 0 p = some k) :
    v.Parent p ↔ (st.discos.inodes k).type = some .dir ∧ 0 < (st.discos.inodes k).size := by
  have hlt := (child_tree h.sound).reached hk
  have hchild : v.Parent p ↔ ¬ ∀ c, child st.discos k c = none := by
    rw [not_forall]
    refine exists_congr fun c => not_congr ?_
    rw [h.follow_none, follow_concat, hk, Option.bind_some]
  rw [hchild]
  by_cases hd : (st.discos.inodes k).type = some .dir
  · rw [childless_iff h.sound hlt hd, ← ne_eq, ← Nat.pos_iff_ne_zero]
    exact (and_iff_right hd).symm
  · exact iff_of_false (fun hno => hno fun c => child_of_ne_dir hd) fun hx => hd hx.1

/-- `rd_unlink` takes the file away. -/
theorem unlink_represents (hplain : v.Plain (cs ++ [c])) (hends : Ends mem (joined cs).length)
    (hopen : ¬ v.Opened (cs ++ [c]))
    (hclean : ∀ d, findIndex st.discos (render cs) = .inode d → Clean st.discos d c) :
    ∃ fs', rdUnlink st.discos (render (cs ++ [c])) mem = some (fs', (v.remove (cs ++ [c])).2.value) ∧
      Represents { st with discos := fs' } (v.remove (cs ++ [c])).1 := by
  have hroot : render (cs ++ [c]) ≠ [slash] := render_ne_root (by simp)
  have hparent := splitPath_concat_fst cs c hends
  unfold rdUnlink
  rw [if_neg hroot]
  cases htree : v.tree (cs ++ [c]) with
  | none =>
    have hrefuse : v.remove (cs ++ [c]) = v.refuse := if_pos (.inl htree)
    rw [(h.missing hplain htree).2, hrefuse]
    exact ⟨_, rfl, h⟩
  | some node =>
    obtain ⟨k, hk, hlt, hshows⟩ := h.node htree
    obtain ⟨d, hd, hc⟩ := follow_concat_some.mp hk
    have hdlt := (child_tree h.sound).reached hd
    obtain ⟨-, hfile⟩ := h.found hplain hk
    obtain ⟨-, hfind⟩ := h.found hplain.parent hd
    rw [hfile]
    dsimp only
    rw [hparent, hfind, splitPath_concat_snd]
    have hiff := parent_iff h hk
    by_cases hbelow : v.Parent (cs ++ [c])
    · have hrefuse : v.remove (cs ++ [c]) = v.refuse := if_pos (.inr (.inl hbelow))
      rw [if_pos (hiff.mp hbelow), hrefuse]
      exact ⟨_, rfl, h⟩
    · have hdir := fun hx => hbelow (hiff.mpr hx)
      have hremove : v.remove (cs ++ [c]) = (v.setNode (cs ++ [c]) none, ⟨0, []⟩) := by
        refine if_neg ?_
        rw [htree]
        simp [hbelow, hopen]
      rw [if_neg hdir, hremove]
      refine ⟨_, rfl, ?_⟩
      have hfind' : findIndex st.discos (splitPath (render (cs ++ [c])) mem).1 = .inode d := by
        rw [hparent, hfind]
      have hr : ¬ Binding.Refused st.discos (render (cs ++ [c])) mem k := by
        rintro (e | e | e)
        · exact hroot e
        · exact hdir e
        · rw [hfind'] at e
          cases e
      have hcl := hclean d hfind
      have hleaf : ∀ b, child st.discos k b = none := fun b => by
        by_contra hb
        refine hbelow ⟨b, fun hno => hb ?_⟩
        rw [h.follow_none, follow_concat, hk, Option.bind_some] at hno
        exact hno
      have hs' := pruned_sound h.sound hdlt hc hcl hfile hfind' hr
      have hoff : ∀ q, ¬ cs ++ [c] <+: q →
          follow (child (removeFile st.discos k d c.bytes)) 0 q = follow (child st.discos) 0 q :=
        fun q hq => (child_tree h.sound).follow_off hd (fun as y b hy _ hne =>
          pruned_child_ne h.sound hdlt hc hcl hleaf hs' ((child_tree h.sound).reached hy) hne) hq
      obtain ⟨hddir, -, -, hdk⟩ := pruned_child h.sound hdlt hc
      obtain ⟨S, hremoved, -⟩ := removeFile_removed h.sound.owned hlt hdlt c.bytes
      refine h.image hs' (h.tree.cut hd hoff hc hleaf
        (pruned_child_self h.sound hdlt hc hcl hleaf hs') fun q j b hq hj hb => ?_) ?_
      · have hjk : j ≠ k := by
          rintro rfl
          exact hq ((child_tree h.sound).path_unique hk hj ▸ List.prefix_rfl)
        have hrecord := @pruned_record st.discos j d k c.bytes hjk
        refine shows_same hrecord.1 hrecord.2 (fun hreg => ?_) hb
        refine sameFile_removed hremoved hjk ?_
        rintro rfl
        rw [hddir] at hreg
        cases hreg
      · intro i hh hi hhandle
        refine hoff _ fun hpre => ?_
        obtain ⟨rest, hrest⟩ := hpre
        have hthere := h.formed.there i hh hi hhandle
        by_cases hnil : rest = []
        · rw [hnil, List.append_nil] at hrest
          exact hopen ⟨i, hh, hi, hhandle, hrest.symm⟩
        · rw [Ne, h.follow_none, ← hrest, follow_behind hd, hc, Option.bind_some,
            follow_stuck hleaf hnil] at hthere
          exact hthere rfl

/-! ## Changing the access rights -/

theorem chmod_represents (mode : Nat) (hplain : v.Plain path) :
    ∃ fs', rdChmod st.discos (render path) mode = some (fs', (v.chmod path mode).2.value) ∧
      Represents { st with discos := fs' } (v.chmod path mode).1 := by
  unfold rdChmod Volume.chmod
  by_cases hroot : path = []
  · rw [if_pos hroot, hroot, if_pos render_nil]
    exact ⟨_, rfl, h⟩
  · rw [if_neg hroot, if_neg (render_ne_root hroot)]
    cases htree : v.tree path with
    | none =>
      rw [(h.missing hplain htree).2]
      exact ⟨_, rfl, h⟩
    | some node =>
      obtain ⟨k, hk, hlt, hshows⟩ := h.node htree
      rw [(h.found hplain hk).2]
      refine ⟨_, rfl, ?_⟩
      obtain ⟨hs', hchild⟩ := h.sound.chmod k mode
      have hf := follow_same h.sound hchild
      refine h.image hs' (h.tree.relabel hf (child_tree h.sound) hk (shows_chmod hshows)
        fun q j b _ hj hb => ?_) fun i hd _ _ => hf hd.path
      have hinode := setInode_inodes_ne st.discos { st.discos.inodes k with access := mode } hj
      refine shows_same (by rw [hinode]) (by rw [hinode]) (fun _ => ?_) hb
      exact ⟨by rw [hinode], fun q _ _ => ref_setInode fun _ => ⟨rfl, rfl, rfl⟩, fun _ _ _ _ _ => rfl⟩

end
end ToyOS.Ramdisk.Representation
