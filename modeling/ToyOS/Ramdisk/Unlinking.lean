import ToyOS.Ramdisk.Lookup
import ToyOS.Ramdisk.Removing

/-! # What rd_unlink leaves of a directory

Every name of the directory ends inside its field here. The level that has the
name is swept: each of its entries with the name is zeroed, and the blocks with
one numbered entry are given back from the first such entry on. The other
levels stay as they are.
-/
namespace ToyOS.Ramdisk.Unlinking
open ToyOS.Lib.CStrings ToyOS.Lib.Words ToyOS.Ramdisk.Image ToyOS.Ramdisk.Blocks
open ToyOS.Ramdisk.Places ToyOS.Ramdisk.Ownership ToyOS.Ramdisk.Release ToyOS.Ramdisk.Directories
open ToyOS.Ramdisk.Scanning ToyOS.Ramdisk.Clearing ToyOS.Ramdisk.Namespace ToyOS.Ramdisk.Removing
open ToyOS.Ramdisk.Lookup

variable {live : Nat → Prop} {fs fs₀ fs₁ : FileSys} {d k : Nat} {name : Str} {p : Place}

/-- The entries of `p` with the name are zeroed. -/
def Swept (fs : FileSys) (d : Nat) (name : Str) (p : Place) : Prop :=
  p ∈ directLeaves d ∨ p ∈ singleLeaves d ∧ ∀ q ∈ directLeaves d, ¬ HasName fs name q

/-- The block of `p` is given back. -/
def Lost (fs : FileSys) (d : Nat) (name : Str) (p : Place) : Prop :=
  (∃ i, i < 8 ∧ p = .direct d i ∧ Dropped fs name (.direct d) i) ∨
    (∀ q ∈ directLeaves d, ¬ HasName fs name q) ∧
      ∃ i, i < 64 ∧ p = .sleaf d i ∧ Dropped fs name (.sleaf d) i

/-- What has become of the block of `p`. -/
structure Left (fs : FileSys) (d : Nat) (name : Str) (p : Place) (fs' : FileSys) : Prop where
  lost : Lost fs d name p → ref fs' p = 0
  kept : ¬ Lost fs d name p → ref fs' p = ref fs p
  swept : Swept fs d name p → ref fs p ≠ 0 → ∀ a, a < 256 →
    fs'.dataBlocks (blockOf (ref fs p)) a =
      if fs.entryNameIs (blockOf (ref fs p)) (a / 16) name = true then 0
      else fs.dataBlocks (blockOf (ref fs p)) a
  rest : ¬ Swept fs d name p → ref fs p ≠ 0 →
    fs'.dataBlocks (blockOf (ref fs p)) = fs.dataBlocks (blockOf (ref fs p))

/-- Every name of the leaf blocks of `d` ends inside its field. -/
def AllTerminated (fs : FileSys) (d : Nat) : Prop :=
  ∀ p ∈ leaves d, ref fs p ≠ 0 → Terminated fs (blockOf (ref fs p))

theorem direct_mem {i : Nat} (hi : i < 8) : Place.direct d i ∈ directLeaves d :=
  mem_directLeaves.mpr ⟨i, hi, rfl⟩

theorem single_mem {i : Nat} (hi : i < 64) : Place.sleaf d i ∈ singleLeaves d :=
  mem_singleLeaves.mpr ⟨i, hi, rfl⟩

theorem hasName_direct (h : ∀ i, i < 8 → ¬ HasName fs name (.direct d i)) :
    ∀ q ∈ directLeaves d, ¬ HasName fs name q := by
  intro q hq
  obtain ⟨i, hi, rfl⟩ := mem_directLeaves.mp hq
  exact h i hi

theorem swept_of_direct (hf : ∃ q ∈ directLeaves d, HasName fs name q) (h : Swept fs d name p) :
    p ∈ directLeaves d := by
  obtain ⟨q, hq, hn⟩ := hf
  exact h.resolve_right fun hs => hs.2 q hq hn

/-- A block without the name is as it was, swept or not. -/
theorem sweep_idle {bytes : Bytes} (h : ¬ HasName fs name p) (h0 : ref fs p ≠ 0) {a : Nat}
    (ha : a < 256) (hb : bytes a = fs.dataBlocks (blockOf (ref fs p)) a) :
    bytes a = if fs.entryNameIs (blockOf (ref fs p)) (a / 16) name = true then 0
      else fs.dataBlocks (blockOf (ref fs p)) a := by
  rw [if_neg fun hn => h ⟨h0, named_iff.mpr ⟨a / 16, by omega, hn⟩⟩]
  exact hb

section
variable (ld : live d) (hd : d < 1024) (hz : 0 ∉ name) (ht : AllTerminated fs₀ d)
include ld hd hz ht

/-- After the scan of the single level, when no direct block has the name. -/
theorem single_left (hdir : ∀ i, i < 8 → ¬ HasName fs₀ name (.direct d i)) {s : Scan}
    (h : Scanned live d fs₀ name (.sleaf d) 64 s) (hp : p ∈ leaves d) :
    Left fs₀ d name p s.fs := by
  obtain ⟨hv, hl, hn⟩ := (mem_leaves hd).mp hp
  have lp : live p.node := hn.symm ▸ ld
  have hlost : Lost fs₀ d name p ↔
      ∃ i, i < 64 ∧ p = .sleaf d i ∧ Dropped fs₀ name (.sleaf d) i := by
    refine ⟨fun hL => ?_, fun hL => .inr ⟨hasName_direct hdir, hL⟩⟩
    rcases hL with ⟨i, hi, -, -, j, hj, hh⟩ | hL
    · exact absurd hh (hdir j (by omega))
    · exact hL.2
  refine ⟨fun hL => h.cleared.gone p hv lp (hlost.mp hL),
    fun hL => h.cleared.kept p hv lp fun hx => hL (hlost.mpr hx), fun hS h0 a ha => ?_,
    fun hS h0 => h.same p hv lp hl h0 fun i hi e => hS (.inr ⟨?_, hasName_direct hdir⟩)⟩
  · rcases hS with hm | ⟨hm, -⟩
    · obtain ⟨i, hi, rfl⟩ := mem_directLeaves.mp hm
      refine sweep_idle (hdir i hi) h0 ha (congrFun (h.same _ hv lp hl h0 fun j _ e => ?_) a)
      cases e
    · obtain ⟨i, hi, rfl⟩ := mem_singleLeaves.mp hm
      exact h.content hz i hi h0 (ht _ hp h0) a ha
  · rw [e]
    exact single_mem hi

variable (ho : Owned live fs₀)
include ho

/-- The call of `clear_entry_in_current_dir`, seen from one leaf place. -/
theorem clearEntry_left (hp : p ∈ leaves d) :
    Left fs₀ d name p (clearEntryInCurrentDir fs₀ d name) := by
  obtain ⟨hv, hl, hn⟩ := (mem_leaves hd).mp hp
  have lp : live p.node := hn.symm ▸ ld
  have hout := clearEntry_outcome ho ld hd name
  generalize clearEntryInCurrentDir fs₀ d name = fs₁ at hout ⊢
  cases hout with
  | absent hdir hs e =>
    subst e
    have hnot : Swept fs₁ d name p → ¬ HasName fs₁ name p := by
      rintro (h | ⟨h, -⟩)
      · exact hasName_direct hdir p h
      · obtain ⟨i, hi, rfl⟩ := mem_singleLeaves.mp h
        exact hs i hi
    refine ⟨fun h => ?_, fun _ => rfl, fun h h0 a ha => sweep_idle (hnot h) h0 ha rfl, fun _ _ => rfl⟩
    rcases h with ⟨i, hi, -, -, j, hj, hh⟩ | ⟨-, i, hi, -, -, j, hj, hh⟩
    · exact absurd hh (hdir j (by omega))
    · exact absurd hh (hs j (by omega))
  | @direct s h hf e =>
    subst e
    obtain ⟨i₀, hi₀, hn₀⟩ := h.found.mp hf
    have hlost : Lost fs₀ d name p ↔
        ∃ i, i < 8 ∧ p = .direct d i ∧ Dropped fs₀ name (.direct d) i := by
      refine or_iff_left fun hx => hx.1 _ (direct_mem hi₀) hn₀
    refine ⟨fun hL => h.cleared.gone p hv lp (hlost.mp hL),
      fun hL => h.cleared.kept p hv lp fun hx => hL (hlost.mpr hx), fun hS h0 a ha => ?_,
      fun hS h0 => h.same p hv lp hl h0 fun i hi e => hS (.inl ?_)⟩
    · obtain ⟨i, hi, rfl⟩ := mem_directLeaves.mp (swept_of_direct ⟨_, direct_mem hi₀, hn₀⟩ hS)
      exact h.content hz i hi h0 (ht _ hp h0) a ha
    · rw [e]
      exact direct_mem hi
  | @single s hdir h0 h hf e =>
    subst e
    exact single_left ld hd hz ht hdir h hp
  | @whole s hdir h0 h hf hdrop hall e =>
    -- the index block goes too, with nothing left below it
    subst e
    have hleft := single_left ld hd hz ht hdir h hp
    have hs : ref s.fs (.single d) = ref fs₀ (.single d) :=
      h.cleared.kept (.single d) hd ld fun hx => by
        obtain ⟨_, _, e, _⟩ := hx
        cases e
    have hr := (giveBack_ref (h.cleared.owned ho ld).priv (p := .single d) hd ld
      (by rw [hs]; exact h0) fun q i hu hq => ?_).2 p hv lp fun e => hl (e ▸ trivial)
    · exact ⟨fun hL => hr.trans (hleft.lost hL), fun hL => hr.trans (hleft.kept hL),
        hleft.swept, hleft.rest⟩
    · have hi : i < 64 := by
        cases q <;> simp only [Place.up, Option.some.injEq, Prod.mk.injEq, reduceCtorEq,
          false_and] at hu
        obtain ⟨_, rfl⟩ := hu
        exact hq.2
      rw [Place.up_inj hu (q := .sleaf d i) rfl]
      exact hall i hi

end

/-! ## The whole removal -/

theorem left_members (p : Place) : (p ∈ directLeaves d → p ∈ leaves d) ∧
    (p ∈ singleLeaves d → p ∈ leaves d) := by
  unfold leaves
  exact ⟨fun h => List.mem_append_left _ h,
    fun h => List.mem_append_right _ (List.mem_append_left _ h)⟩

/-- Two images in which the blocks of `d` say the same. -/
structure Alike (fs fs₁ : FileSys) (d : Nat) (name : Str) : Prop where
  hasName : ∀ q ∈ leaves d, HasName fs₁ name q ↔ HasName fs name q
  lone : ∀ q ∈ leaves d, Lone fs₁ q ↔ Lone fs q

theorem Alike.swept (h : Alike fs fs₁ d name) : Swept fs₁ d name p ↔ Swept fs d name p :=
  or_congr_right (and_congr_right fun _ => forall₂_congr fun q hq =>
    not_congr (h.hasName q ((left_members q).1 hq)))

theorem Alike.dropped (h : Alike fs fs₁ d name) {leaf : Nat → Place} {i : Nat}
    (hm : ∀ j, j ≤ i → leaf j ∈ leaves d) :
    Dropped fs₁ name leaf i ↔ Dropped fs name leaf i :=
  and_congr (h.lone _ (hm i (Nat.le_refl i)))
    (exists_congr fun j => and_congr_right fun hj => h.hasName _ (hm j hj))

theorem Alike.lost (h : Alike fs fs₁ d name) : Lost fs₁ d name p ↔ Lost fs d name p := by
  refine or_congr ?_ (and_congr (forall₂_congr fun q hq => ?_) ?_)
  · refine exists_congr fun i => and_congr_right fun hi => and_congr_right fun _ => ?_
    exact h.dropped fun j hj => (left_members _).1 (direct_mem (by omega))
  · exact not_congr (h.hasName q ((left_members q).1 hq))
  · refine exists_congr fun i => and_congr_right fun hi => and_congr_right fun _ => ?_
    exact h.dropped fun j hj => (left_members _).2 (single_mem (by omega))

section
variable (ho : Owned every fs) (hd : d < 1024) (hne : d ≠ k) (hz : 0 ∉ name)
variable (ht : AllTerminated fs d)
include ho hd hne ht

/-- The blocks of the directory are as they were when those of the file have gone. -/
theorem blocks_left (hF : Freed fs (fun q => q.node = k) fs₁) (hp : p ∈ leaves d) :
    ref fs₁ p = ref fs p ∧ (ref fs p ≠ 0 →
      fs₁.dataBlocks (blockOf (ref fs p)) = fs.dataBlocks (blockOf (ref fs p)) ∧
      ∀ j, j < 16 → ∀ t, 0 ∉ t → fs₁.entryNameIs (blockOf (ref fs p)) j t =
        fs.entryNameIs (blockOf (ref fs p)) j t) := by
  obtain ⟨hv, -, hn⟩ := (mem_leaves hd).mp hp
  have hnk : p.node ≠ k := by
    rw [hn]
    exact hne
  refine ⟨hF.ref_rest ho hv hnk, fun h0 => ?_⟩
  have hb := hF.blocks_rest ho hv hnk h0
  exact ⟨hb, fun j hj t htz => entryNameIs_congr htz (ht p hp h0) hj fun a _ _ => by rw [hb]⟩

include hz

theorem alike_of_freed (hF : Freed fs (fun q => q.node = k) fs₁) : Alike fs fs₁ d name := by
  constructor
  · intro q hq
    obtain ⟨hr, hb⟩ := blocks_left ho hd hne ht hF hq
    unfold HasName
    rw [hr]
    refine and_congr_right fun h0 => ?_
    rw [named_iff, named_iff]
    exact exists_congr fun j => and_congr_right fun hj => by rw [(hb h0).2 j hj name hz]
  · intro q hq
    obtain ⟨hr, hb⟩ := blocks_left ho hd hne ht hF hq
    unfold Lone
    rw [hr]
    exact and_congr_right fun h0 => by rw [numbered_congr (hb h0).1]

/-- The end of `rd_unlink`, seen from one leaf place of the directory. -/
theorem removeFile_left (hk : k < 1024) (hp : p ∈ leaves d) :
    Left fs d name p (removeFile fs k d name) := by
  have hF := myClearInode_freed ho hk
  rw [removeFile_eq]
  generalize myClearInode fs k = fs₁ at hF ⊢
  have hsame := alike_of_freed ho hd hne hz ht hF
  obtain ⟨hr, hb⟩ := blocks_left ho hd hne ht hF hp
  have ht₁ : AllTerminated fs₁ d := by
    intro q hq h0
    obtain ⟨hqr, hqb⟩ := blocks_left ho hd hne ht hF hq
    rw [hqr] at h0 ⊢
    intro j hj
    obtain ⟨a, ha, hza⟩ := ht q hq h0 j hj
    exact ⟨a, ha, by rw [(hqb h0).1]; exact hza⟩
  have h := @clearEntry_left (· ≠ k) fs₁ d name p hne hd hz ht₁ (hF.owned ho) hp
  generalize clearEntryInCurrentDir fs₁ d name = fs₂ at h ⊢
  have hdrop : ref (dropInode fs₂ k d) p = ref fs₂ p := by
    rw [dropInode_ref, if_neg]
    rw [((mem_leaves hd).mp hp).2.2]
    exact hne
  refine ⟨fun hL => ?_, fun hL => ?_, fun hS h0 a ha => ?_, fun hS h0 => ?_⟩
  · rw [hdrop]
    exact h.lost (hsame.lost.mpr hL)
  · rw [hdrop, h.kept fun hL' => hL (hsame.lost.mp hL'), hr]
  · have := h.swept (hsame.swept.mpr hS) (by rw [hr]; exact h0) a ha
    rw [hr, (hb h0).1, (hb h0).2 (a / 16) (by omega) name hz] at this
    exact this
  · have := h.rest (fun hS' => hS (hsame.swept.mp hS')) (by rw [hr]; exact h0)
    rw [hr, (hb h0).1] at this
    exact this

end
end ToyOS.Ramdisk.Unlinking
