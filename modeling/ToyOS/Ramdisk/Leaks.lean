import ToyOS.Ramdisk.FreeCount

/-! # Blocks nobody can give back

A marked block is lost when no live inode refers to it. That happens in three
ways: `get_next_entry` takes an index block it does not link, or a directory
that is a free inode by now grows, or `rd_write` grows a file that has been
removed since it was opened. In every run without them nothing is lost.
-/
namespace ToyOS.Ramdisk.Leaks
open ToyOS.Lib.Bits ToyOS.Lib.Loop ToyOS.Lib.Runs ToyOS.Lib.Words ToyOS.Lib.CStrings
open ToyOS.Lib.Ownership
open ToyOS.Ramdisk.Image ToyOS.Ramdisk.Blocks ToyOS.Ramdisk.Places ToyOS.Ramdisk.Ownership
open ToyOS.Ramdisk.Growth ToyOS.Ramdisk.Paths ToyOS.Ramdisk.Slots ToyOS.Ramdisk.Components
open ToyOS.Ramdisk.Namespace ToyOS.Ramdisk.Creating ToyOS.Ramdisk.Removing ToyOS.Ramdisk.Descriptors
open ToyOS.Ramdisk.Write ToyOS.Ramdisk.System ToyOS.Ramdisk.Writing ToyOS.Ramdisk.Effects
open ToyOS.Ramdisk.BlockOwnership

variable {st : State} {op : Op} {fs fs' : FileSys} {k c : Nat}

/-- A place of an inode that is in use. -/
def Live (fs : FileSys) (p : Place) : Prop := (fs.inodes p.node).type ≠ none

/-- Every marked block is referred to from an inode in use. -/
def NoLeak (fs : FileSys) : Prop := (holding every fs).Tight (Live fs)

theorem noLeak_of_tight (h : (holding every fs').Tight (Live fs))
    (ht : ∀ p b, (holding every fs').holds p b → Live fs p → Live fs' p) : NoLeak fs' :=
  fun b hb => by
    obtain ⟨p, hL, hp⟩ := h b hb
    exact ⟨p, ht p b hp hL, hp⟩

/-- A free inode has no blocks. -/
theorem NoLeak.ref_free (h : NoLeak fs) (ho : Owned every fs) {p : Place} (hp : p.Valid)
    (hfree : (fs.inodes p.node).type = none) : ref fs p = 0 := by
  by_contra h0
  obtain ⟨q, hL, hq, _, e⟩ := h _ (ho.marked hp trivial h0)
  rw [ptrTo_blockOf h0] at e
  exact hL (ho.unique hp trivial hq trivial h0 e.symm ▸ hfree)

theorem Keeps.type_eq {fs fs' : FileSys} (h : Keeps k fs fs') (k' : Nat) :
    (fs'.inodes k').type = (fs.inodes k').type := by
  by_cases e : k' = k
  · rw [e]; exact h.type
  · rw [h.inodes k' e]

/-- Blocks linked to an inode in use are not lost. -/
theorem Linked.noLeak (hl : Linked k fs fs') (hk : Keeps k fs fs') (hne : (fs.inodes k).type ≠ none)
    (h : NoLeak fs) : NoLeak fs' :=
  noLeak_of_tight (hl (Live fs) (fun p hp => by rw [Live, hp]; exact hne) h) fun p _ _ hL => by
    rw [Live, Keeps.type_eq hk]; exact hL

/-- Nor is anything when no block is taken. -/
theorem Keeps.noLeak (hk : Keeps k fs fs') (hmap : fs'.bitmap = fs.bitmap) (h : NoLeak fs) :
    NoLeak fs' := fun b hb => by
  simp only [holding, hmap] at hb
  obtain ⟨p, hL, hp, lp, e⟩ := h b hb
  refine ⟨p, by rw [Live, Keeps.type_eq hk]; exact hL, hp, lp, ?_⟩
  rw [hk.keeps p hp fun _ => by rw [e]; exact ptrTo_ne_zero b]; exact e

theorem getFreeInodeNum_spec {n : Nat} (h : getFreeInodeNum fs = some n) :
    1 ≤ n ∧ n < 1024 ∧ (fs.inodes n).type = none := by
  unfold getFreeInodeNum at h
  split at h
  · cases h
  · obtain ⟨h1, h2, h3, _⟩ := firstIdx_eq_some.mp h
    exact ⟨h1, by omega, by simpa using h3⟩

/-- The new inode was free and held nothing. -/
theorem fillEntry_noLeak {cur n mode : Nat} {e : Directories.EntryPtr} {name : Str}
    {type : FileType} (hfit : 16 * e.slot + name.length < 256)
    (hb : ∀ q, q.Valid → q.IsIndex → ref fs q ≠ ptrTo e.block) (ho : Owned every fs)
    (hfree : (fs.inodes n).type = none) (h : NoLeak fs) :
    NoLeak (fillEntry fs cur e n name type mode) := fun b hb' => by
  simp only [holding, fillEntry_bitmap hfit] at hb'
  obtain ⟨p, hL, hp, lp, e'⟩ := h b hb'
  have hn : p.node ≠ n := fun hn => ptrTo_ne_zero b
    (e'.symm.trans (h.ref_free ho hp (hn ▸ hfree)))
  refine ⟨p, ?_, hp, lp, ?_⟩
  · rw [Live, fillEntry_type hfit, if_neg hn]; exact hL
  · rw [fillEntry_ref hfit hb hp, if_neg hn]; exact e'

/-! ## The step lemma -/

/-- The parent of a new entry is in use, and the search for the entry takes no
index block it does not link; or it ends at full blocks. -/
def SearchLinks (fs : FileSys) (cur : Nat) : Prop :=
  Blocked fs cur ∨ (fs.inodes cur).type ≠ none ∧ ¬ (Unlinked fs cur ∧ need fs cur ≤ fs.freeBlocks)

/-- The file written is in use, or the write ends before it takes a block. -/
def WriteLinks (fs : FileSys) (k c : Nat) : Prop :=
  (fs.inodes k).type ≠ none ∨ fs.freeBlocks = 0 ∨
    8 ≤ c / 256 ∧ ((fs.inodes k).size / 256 < 8 ∨ 4168 ≤ (fs.inodes k).size / 256)

/-- The call stays clear of the three defects, and of names that run out of their block. -/
def KeepsLinks (st : State) : Op → Prop
  | .create path _ _ mem | .mkdir path mem => NameFits st.discos path mem ∧
      ∀ cur, findIndex st.discos (splitPath path mem).1 = .inode cur → SearchLinks st.discos cur
  | .write fd pid _ _ => ∀ k c, Writes st fd pid k c → WriteLinks st.discos k c
  | _ => True

theorem NextEntry.noLeak {e : Option Directories.EntryPtr} (h : NextEntry fs k fs' e)
    (ho : Owned every fs) (hs : SearchLinks fs k) (hn : NoLeak fs) : NoLeak fs' := by
  have hx := h.extends ho
  rcases hs with hb | ⟨hne, hu⟩
  · cases h with
    | blocked => exact hn
    | leaf _ _ _ _ _ _ hb' => exact absurd hb hb'
    | unlinked _ _ _ hb' => exact absurd hb hb'
    | short _ hb' => exact absurd hb hb'
  · refine Linked.noLeak ?_ hx.toKeeps hne hn
    cases h with
    | blocked => exact .refl
    | leaf hp _ hk hx₁ hlink h =>
      subst hk
      exact hlink.trans (h.extends hx₁.owned hp).2
    | unlinked _ _ _ _ hu' hneed => exact absurd ⟨hu', by omega⟩ hu
    | short _ _ _ hlink =>
      by_cases hu' : Unlinked fs k
      · have : ¬ need fs k ≤ fs.freeBlocks := fun h => hu ⟨hu', h⟩
        exact hlink (.inr (by omega))
      · exact hlink (.inl hu')

theorem CreateResult.noLeak {path : Str} {type : FileType} {mode : Nat} {mem : Scratch} {r : Int}
    (h : CreateResult fs path type mode mem fs' r) (ho : Owned every fs)
    (hfit : NameFits fs path mem)
    (hs : ∀ cur, findIndex fs (splitPath path mem).1 = .inode cur → SearchLinks fs cur)
    (hn : NoLeak fs) : NoLeak fs' := by
  cases h with
  | refused => exact hn
  | noEntry hc _ hfind hg => exact NextEntry.noLeak (getNextEntry_next ho hc hg) ho (hs _ hfind) hn
  | filled hc _ hfind hg hfree =>
    have hne := getNextEntry_next ho hc hg
    exact fillEntry_noLeak (hfit _ _ hfind (by rw [hg])) (hne.plain ho).2 (hne.extends ho).owned
      (getFreeInodeNum_spec hfree).2.2 (NextEntry.noLeak hne ho (hs _ hfind) hn)

theorem Removed.noLeak {d : Nat} {S : Place → Prop} (h : Removed k d S fs fs') (hn : NoLeak fs) :
    NoLeak fs' := by
  refine noLeak_of_tight (h.released.tight hn) fun p b hp hL => ?_
  have hk : p.node ≠ k := fun e =>
    ptrTo_ne_zero b (hp.2.2.symm.trans (h.gone p hp.1 (.inl e)))
  rw [Live]
  by_cases hd : p.node = d
  · rw [Live, hd] at hL
    rw [hd] at hk ⊢
    rw [(h.parent hk).1]; exact hL
  · rw [h.inodes _ hk hd]; exact hL

/-- Past the direct blocks and outside the range of the other two stages
`rd_write` does nothing. -/
theorem writeStages_out {data : Bytes} {n : Int} (hc : 8 ≤ c / 256)
    (hs : (fs.inodes k).size / 256 < 8 ∨ 4168 ≤ (fs.inodes k).size / 256) :
    (writeStages k data n ⟨fs, c, 0, 0⟩).state.fs = fs := by
  have h0 : 8 - c / 256 = 0 := by omega
  have h1 : writeDirect k data n ⟨fs, c, 0, 0⟩ = .next ⟨fs, c, 0, 0⟩ := by
    unfold writeDirect; dsimp only; rw [h0]; rfl
  have h2 : writeSingle k data n ⟨fs, c, 0, 0⟩ = .next ⟨fs, c, 0, 0⟩ := by
    unfold writeSingle; dsimp only; rw [if_neg (by omega)]
  have h3 : writeDouble k data n ⟨fs, c, 0, 0⟩ =
      .next ⟨fs, c, 0, (fs.inodes k).size / 256⟩ := by
    unfold writeDouble; dsimp only; rw [if_neg (by omega)]
  unfold writeStages
  rw [h1, Flow.bind_next, h2, Flow.bind_next, h3, Flow.bind_next]
  split <;> rfl

theorem effect_noLeak (h : Effect st op fs') (ho : Owned every st.discos) (hok : KeepsLinks st op)
    (hn : NoLeak st.discos) : NoLeak fs' := by
  cases h with
  | idle => exact hn
  | create h => exact CreateResult.noLeak h ho hok.1 hok.2 hn
  | mkdir h => exact CreateResult.noLeak h ho hok.1 hok.2 hn
  | root =>
    intro b hb
    obtain ⟨p, hL, hp, lp, e⟩ := hn b hb
    refine ⟨p, ?_, hp, lp, by rw [makeRoot_ref]; exact e⟩
    rw [Live]
    by_cases h0 : p.node = 0
    · rw [h0]; simp [makeRoot]
    · rw [makeRoot, setInode_inodes_ne _ _ h0]; exact hL
  | unlink h =>
    cases h with
    | refused => exact hn
    | removed hk hd =>
      obtain ⟨S, hr, _⟩ := removeFile_removed ho hk hd _
      exact Removed.noLeak hr hn
  | @chmod _ _ k =>
    intro b hb
    obtain ⟨p, hL, hp, lp, e⟩ := hn b hb
    refine ⟨p, ?_, hp, lp, ?_⟩
    · rw [Live]
      by_cases hk : p.node = k
      · rw [hk]; rw [Live, hk] at hL; simpa using hL
      · rw [setInode_inodes_ne _ _ hk]; exact hL
    · rw [← e]; exact ref_setInode fun _ => ⟨rfl, rfl, rfl⟩
  | @write _ _ data n k c hk hw =>
    have hg := (writeStages_wrote (w := ⟨st.discos, c, 0, 0⟩) hk ho data n).grows
    rcases hok _ _ hw with hne | h0 | ⟨hc, hs⟩
    · exact Linked.noLeak hg.tight hg.toKeeps hne hn
    · exact Keeps.noLeak hg.toKeeps (hg.idle h0) hn
    · rw [writeStages_out hc hs]; exact hn

theorem init_noLeak (behind : Nat → Bytes) (buffer : Bytes) :
    NoLeak (initFileSys behind buffer).discos := by
  rw [initFileSys_discos]
  intro b hb
  have : bit (emptyImage behind).bitmap b = false := Nat.zero_testBit _
  exact absurd (hb.symm.trans this) (by simp)

theorem noLeak_reachable (h : Reachable KeepsLinks st) : Owned every st.discos ∧ NoLeak st.discos := by
  obtain ⟨behind, buffer, h⟩ := h
  refine h.invariant (I := fun st => Owned every st.discos ∧ NoLeak st.discos)
    ⟨init_owned behind buffer, init_noLeak behind buffer⟩ fun st op hop hi => ?_
  have he := step_effect st op
  refine ⟨he.owned hi.1 ?_, effect_noLeak he hi.1 hop hi.2⟩
  cases op with
  | create | mkdir => exact hop.1
  | _ => trivial

/-- Every marked block belongs to an inode in use, and a call that removes that
inode gives the block back. -/
theorem marked_blocks_reclaimable (h : Reachable KeepsLinks st) {b : Nat}
    (hb : bit st.discos.bitmap b = true) :
    ∃ p : Place, p.Valid ∧ ref st.discos p = ptrTo b ∧ (st.discos.inodes p.node).type ≠ none ∧
      ∀ path mem fs', findIndex st.discos path = .inode p.node →
        rdUnlink st.discos path mem = some (fs', 0) → bit fs'.bitmap b = false := by
  obtain ⟨ho, hn⟩ := noLeak_reachable h
  obtain ⟨p, hL, hp, _, e⟩ := hn b hb
  refine ⟨p, hp, e, hL, fun path mem fs' hfile hr => ?_⟩
  cases rdUnlink_result hr with
  | removed hk hd _ hfile' =>
    obtain rfl := Found.inode.inj (hfile.symm.trans hfile')
    obtain ⟨S, hr, _⟩ := removeFile_removed ho hk hd (splitPath path mem).2
    rw [Bool.eq_false_iff]
    exact fun hbit => ((hr.bits b).mp hbit).2 p hp (.inl rfl) e

theorem keepsLinks_oneFile (behind : Nat → Bytes) (buffer : Bytes) :
    KeepsLinks (initFileSys behind buffer) (.create (render [nameA]) .reg RW ⟨[0, 0], [0, 0]⟩) := by
  refine ⟨nameFits_render (init_owned _ _) [nameA] _, fun cur hcur => ?_⟩
  have h0 : findIndex (initFileSys behind buffer).discos
      (splitPath (render [nameA]) ⟨[0, 0], [0, 0]⟩).1 = .inode 0 := by
    rw [show (splitPath (render [nameA]) ⟨[0, 0], [0, 0]⟩).1 = [slash] from by decide]
    simp [findIndex, myFindInodeNumber]
  obtain rfl := Found.inode.inj (h0.symm.trans hcur)
  refine .inr ⟨by rw [initFileSys_discos]; simp [makeRoot], fun h => ?_⟩
  refine not_unlinked (fun seg => not_doubleSeg (.inl ?_)) h.1
  rw [initFileSys_discos]
  simp [makeRoot, emptyImage, Inode.zero]

theorem marked_blocks_reclaimable_oneFile : ∃ p : Place, p.Valid ∧
    ref oneFile.discos p = ptrTo 0 ∧ (oneFile.discos.inodes p.node).type ≠ none ∧
      ∀ path mem fs', findIndex oneFile.discos path = .inode p.node →
        rdUnlink oneFile.discos path mem = some (fs', 0) → bit fs'.bitmap 0 = false :=
  @marked_blocks_reclaimable oneFile ⟨_, _, .step .start (keepsLinks_oneFile _ _)⟩
    0 (by decide +kernel)

/-- The file `/a` is created, opened and removed, and then written through the
descriptor, which still points to its inode. -/
def staleWrite : State :=
  step (step (step oneFile (.open (render [nameA]) RW 5)) (.unlink (render [nameA]) ⟨[0, 0], [0, 0]⟩))
    (.write 0 5 (fun i => if i = 0 then 65 else 0) 1)

/-- Block 0 is marked, and only an inode without a type refers to it. -/
theorem staleWrite_leaks : Reachable (fun _ _ => True) staleWrite ∧
    bit staleWrite.discos.bitmap 0 = true ∧
    ∀ p : Place, p.Valid → ref staleWrite.discos p = ptrTo 0 →
      (staleWrite.discos.inodes p.node).type = none := by
  have hreach : Reachable (fun _ => WellNamed) staleWrite :=
    ⟨_, _, .step (.step (.step (.step .start ⟨[nameA], rfl⟩) ⟨[nameA], rfl⟩) ⟨[nameA], rfl⟩)
      trivial⟩
  have hmine : ref staleWrite.discos (.direct 1 0) = ptrTo 0 := by decide +kernel
  refine ⟨?_, by decide +kernel, fun p hp e => ?_⟩
  · obtain ⟨_, _, h⟩ := hreach
    exact ⟨_, _, h.mono fun _ _ _ => trivial⟩
  · have hp' : p = .direct 1 0 := (wellNamed_owned hreach).unique hp trivial
      ⟨by decide, by decide⟩ trivial (by rw [e]; exact ptrTo_ne_zero 0) (e.trans hmine.symm)
    rw [hp']
    decide +kernel

end ToyOS.Ramdisk.Leaks
