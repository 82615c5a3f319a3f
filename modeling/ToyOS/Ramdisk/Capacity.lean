import ToyOS.Ramdisk.Entering
import ToyOS.Ramdisk.FullDirectory
import ToyOS.Ramdisk.Isolation
import ToyOS.Ramdisk.Refinement
import ToyOS.Ramdisk.Totals

/-! # As long as nothing is removed

In a file system in which files and directories have only been created the
entries of a directory lie where its size says, so that the search for a free
one never ends at a full block, and three blocks for each inode in use are more
than enough. So `rd_create` fails only where the parent is missing or the last
inode is taken, and 1023 files can be created.
-/
namespace ToyOS.Ramdisk.Capacity
open ToyOS.Lib.Loop ToyOS.Lib.CStrings ToyOS.Lib.Words ToyOS.Lib.Bits ToyOS.Lib.Runs
open ToyOS.Ramdisk.Image ToyOS.Ramdisk.Blocks ToyOS.Ramdisk.Places ToyOS.Ramdisk.Allocation
open ToyOS.Ramdisk.Ownership ToyOS.Ramdisk.Growth ToyOS.Ramdisk.Paths ToyOS.Ramdisk.Components
open ToyOS.Ramdisk.Directories ToyOS.Ramdisk.Slots ToyOS.Ramdisk.Namespace ToyOS.Ramdisk.Creating
open ToyOS.Ramdisk.Records ToyOS.Ramdisk.Descriptors ToyOS.Ramdisk.System ToyOS.Ramdisk.Effects
open ToyOS.Ramdisk.Catalog ToyOS.Ramdisk.BlockOwnership ToyOS.Ramdisk.Supply ToyOS.Ramdisk.Accounting
open ToyOS.Ramdisk.Cursors (getFreeInodeNum_congr)
open ToyOS.Ramdisk.Totals ToyOS.Ramdisk.Resolving ToyOS.Ramdisk.Entering
open ToyOS.Ramdisk.Isolation (value)
open ToyOS.Ramdisk.Purpose ToyOS.Ramdisk.Representation ToyOS.Ramdisk.Refinement

variable {fs fs₁ fs' : FileSys} {st : State} {op : Op} {k s j n cur mode : Nat} {e : EntryPtr}
variable {name path : Str} {type : FileType} {mem : Scratch} {r : Int} {cs : List Component}

/-! ## The slots of a directory in order -/

/-- The place of the block at position `s`, on the direct or the single-indirect level. -/
def spot (k s : Nat) : Place := if s < 8 then .direct k s else .sleaf k (s - 8)

theorem spot_valid (hk : k < 1024) (hs : s < 72) : (spot k s).Valid ∧ ¬ (spot k s).IsIndex := by
  unfold spot
  split
  · exact ⟨⟨hk, by omega⟩, id⟩
  · exact ⟨⟨hk, by omega⟩, id⟩

theorem spot_node (k s : Nat) : (spot k s).node = k := by
  unfold spot
  split <;> rfl

theorem spot_inj {s' : Nat} (h : spot k s = spot k s') : s = s' := by
  unfold spot at h
  split at h
  · split at h
    · exact (Place.direct.inj h).2
    · cases h
  · split at h
    · cases h
    · have := (Place.sleaf.inj h).2
      omega

/-- Behind the size of an inode there are no entries. -/
def Behind (fs : FileSys) : Prop := ∀ k s j, k < 1024 → s < 72 → j < 16 →
  (fs.inodes k).size ≤ 16 * (16 * s + j) → ref fs (spot k s) ≠ 0 →
    fs.entryNum (blockOf (ref fs (spot k s))) j = 0

/-- An entry before the one returned has a number. -/
def Least (fs : FileSys) (o : Option EntryPtr) : Prop :=
  ∀ e, o = some e → ∀ j, j < e.slot → fs.entryNum e.block j ≠ 0

theorem least_first (fs : FileSys) (b : Nat) : Least fs (some ⟨b, 0⟩) := by
  intro e he j hj
  obtain rfl := Option.some.inj he
  exact absurd hj (Nat.not_lt_zero j)

theorem getNextDirEntry_least (fs : FileSys) (b : Nat) : Least fs (getNextDirEntry fs b) := by
  intro e he j hj
  obtain ⟨i, hi, rfl⟩ := Option.map_eq_some_iff.mp he
  obtain ⟨-, -, -, hmin⟩ := firstIdx_eq_some.mp hi
  simpa using hmin j (Nat.zero_le j) hj

theorem single_least (fs : FileSys) (b i : Nat) :
    Least (getNextDirEntrySingle fs b i).1 (getNextDirEntrySingle fs b i).2 := by
  unfold getNextDirEntrySingle
  dsimp only
  split
  · cases takeBlock fs with
    | none => exact fun _ h => by cases h
    | some r => exact least_first _ _
  · exact getNextDirEntry_least _ _

theorem double_least (fs : FileSys) (k seg : Nat) :
    Least (nextEntryDouble fs k seg).1 (nextEntryDouble fs k seg).2 := by
  unfold nextEntryDouble
  split
  · cases ensureBlock fs (.doubleIndirect k) with
    | none => exact fun _ h => by cases h
    | some fs₁ =>
      dsimp only
      unfold getNextDirEntryDouble
      dsimp only
      split
      · cases takeBlock fs₁ with
        | none => exact fun _ h => by cases h
        | some r => exact single_least r.1 r.2 _
      · exact single_least _ _ _
  · exact fun _ h => by cases h

theorem nextEntrySingle_least (fs : FileSys) (k seg : Nat) :
    Least (nextEntrySingle fs k seg).1 (nextEntrySingle fs k seg).2 := by
  unfold nextEntrySingle
  split
  · cases ensureBlock fs (.singleIndirect k) with
    | none => exact fun _ h => by cases h
    | some fs₁ =>
      have hleast := single_least fs₁ (blockOf (fs₁.ptrAt (.singleIndirect k))) (seg - 8)
      dsimp only
      split
      · next he => rwa [he] at hleast
      · exact double_least _ _ _
  · exact double_least _ _ _

theorem getNextEntry_least (fs : FileSys) (k : Nat) : Least (getNextEntry fs k).1 (getNextEntry fs k).2 := by
  have hloop := forFrom_ends (fun _ _ => True) (R := Least) (f := nextEntryDirect k)
    (a := (fs.inodes k).size / 256) (n := 8 - (fs.inodes k).size / 256) (s := fs) trivial
    fun i t _ _ _ => by
      unfold nextEntryDirect
      dsimp only
      split
      · cases takeBlock t with
        | none => exact fun _ h => by cases h
        | some r => exact least_first _ _
      · have hleast := getNextDirEntry_least t (blockOf (t.ptrAt (.pointers k i)))
        split
        · next he => rwa [he] at hleast
        · trivial
  unfold getNextEntry
  dsimp only
  split
  · next he => rwa [he] at hloop
  · exact nextEntrySingle_least _ _ _

/-- The entry found is in the first block from the size on, if that is not full. -/
theorem first_spot (ho : Owned every fs) (hk : k < 1024) (hs : (fs.inodes k).size / 256 < 72)
    (hn : ¬ Full fs (spot k ((fs.inodes k).size / 256))) (hfree : 2 ≤ fs.freeBlocks)
    (hg : getNextEntry fs k = (fs₁, some e)) :
    ref fs₁ (spot k ((fs.inodes k).size / 256)) = ptrTo e.block := by
  unfold getNextEntry at hg
  dsimp only at hg
  generalize (fs.inodes k).size / 256 = seg at hs hn hg ⊢
  by_cases h8 : seg < 8
  · have hends := nextEntryDirect_ends ho hk h8
    unfold spot at hn ⊢
    rw [if_pos h8] at hn ⊢
    obtain ⟨m, hm⟩ : ∃ m, 8 - seg = m + 1 := ⟨7 - seg, by omega⟩
    rw [hm, forFrom] at hg
    cases hb : nextEntryDirect k seg fs with
    | next t =>
      rw [hb] at hends
      exact absurd hends.2 hn
    | ret t o =>
      rw [hb] at hends hg
      obtain ⟨rfl, rfl⟩ := Prod.mk.inj hg
      exact hends.1.entry.1
  · unfold spot at hn ⊢
    rw [if_neg h8] at hn ⊢
    rw [show 8 - seg = 0 by omega, forFrom] at hg
    have hin : 8 ≤ seg ∧ seg < 72 := ⟨by omega, hs⟩
    unfold nextEntrySingle at hg
    dsimp only at hg
    rw [if_pos hin] at hg
    cases he : ensureBlock fs (.singleIndirect k) with
    | none =>
      rw [he] at hg
      cases (Prod.mk.inj hg).2
    | some fs₂ =>
      have hroot : Rooted fs (.single k) := fun _ _ h => by cases h
      have hup : (Place.sleaf k (seg - 8)).up = some (.single k, seg - 8) := rfl
      obtain ⟨ho₂, h0, hfull, hfree₂⟩ : Owned every fs₂ ∧ ref fs₂ (.single k) ≠ 0 ∧
          ¬ Full fs₂ (.sleaf k (seg - 8)) ∧ fs₂.freeBlocks ≠ 0 := by
        rcases ensureBlock_cases (p := .single k) ho hk trivial hroot he with ⟨hne, rfl⟩ | ⟨b, a⟩
        · exact ⟨ho, hne, hn, by omega⟩
        · refine ⟨a.owned ho hk trivial, by rw [a.self]; exact ptrTo_ne_zero b, fun hf => hf.1 ?_, ?_⟩
          · rw [ref_up (r := .single k) rfl, a.self, under, if_neg (ptrTo_ne_zero b)]
            exact load_zero fun x _ _ => a.zero x
          · have := a.free
            omega
      have hat := getNextDirEntrySingle_atLeaf (p := .sleaf k (seg - 8)) ho₂ ⟨hk, by omega⟩ hup h0
      rw [he] at hg
      dsimp only at hg
      rw [show fs₂.ptrAt (.singleIndirect k) = ref fs₂ (.single k) from rfl] at hg
      generalize getNextDirEntrySingle fs₂ (blockOf (ref fs₂ (.single k))) (seg - 8) = r at hat hg
      obtain ⟨fs₃, _ | e'⟩ := r
      · rcases hat.none.2 with hf | ⟨-, hz⟩
        · exact absurd hf hfull
        · exact absurd hz hfree₂
      · obtain ⟨rfl, he'⟩ := Prod.mk.inj hg
        obtain rfl := Option.some.inj he'
        exact hat.entry.1

/-- A search adds blocks without entries. -/
theorem Behind.extends (h : Behind fs) (hx : Extends cur fs fs₁) : Behind fs₁ := by
  intro k s j hk hs hj hsize href
  obtain ⟨hv, hl⟩ := spot_valid hk hs
  have hsame : (fs₁.inodes k).size = (fs.inodes k).size := by
    by_cases hkc : k = cur
    · rw [hkc, hx.size]
    · rw [hx.inodes k hkc]
  by_cases h0 : ref fs (spot k s) = 0
  · exact load_zero fun a _ _ => hx.zero _ hv hl h0 href a
  · have hkeep : ref fs₁ (spot k s) = ref fs (spot k s) := hx.keeps _ hv fun _ => h0
    unfold FileSys.entryNum
    rw [hkeep, hx.leaves _ hv hl h0]
    exact h k s j hk hs hj (hsame ▸ hsize) h0

/-! ## What creating keeps -/

structure Grown (fs : FileSys) : Prop where
  kept : Kept fs
  covered : Covered fs
  word : Word fs
  aligned : ∀ k, k < 1024 → 16 ∣ (fs.inodes k).size
  behind : Behind fs
  blocks : 7931 ≤ avail fs + 3 * (1023 - fs.freeInodes)

theorem Grown.avail_ge (h : Grown fs) : 3 ≤ avail fs := by
  have := h.blocks
  omega

theorem Grown.position (h : Grown fs) (hk : k < 1024) : (fs.inodes k).size / 256 < 72 := by
  have := h.covered.lt hk
  omega

/-- The entry at the position the size gives is free. -/
theorem Grown.not_full (h : Grown fs) (hk : k < 1024) : ¬ Full fs (spot k ((fs.inodes k).size / 256)) := by
  intro hf
  have hdvd := h.aligned k hk
  have hj : (fs.inodes k).size / 16 % 16 < 16 := Nat.mod_lt _ (by decide)
  exact hf.2 _ hj (h.behind k _ _ hk (h.position hk) hj (by omega) hf.1)

theorem Grown.finds (h : Grown fs) (hk : k < 1024) :
    Target fs k (spot k ((fs.inodes k).size / 256)) ∧ Finds fs k := by
  have hn := h.not_full hk
  have hs := h.position hk
  have ht : Target fs k (spot k ((fs.inodes k).size / 256)) := by
    unfold spot at hn ⊢
    split
    · next h8 =>
      rw [if_pos h8] at hn
      exact .direct (Nat.le_refl _) h8 (fun j h1 h2 => by omega) hn
    · next h8 =>
      rw [if_neg h8] at hn
      exact .single (by omega) hs hn
  have := missing_le fs (spot k ((fs.inodes k).size / 256))
  have := h.avail_ge
  exact ⟨ht, _, ht, .inl (by omega)⟩

theorem Grown.inodeFree (h : Grown fs) (h0 : fs.freeInodes ≠ 0) : InodeFree fs := by
  rw [h.kept.counted] at h0
  obtain ⟨k, hk⟩ := Finset.card_ne_zero.mp h0
  obtain ⟨hlt, hnone⟩ := mem_unused.mp hk
  refine ⟨k, ?_, hlt, hnone⟩
  rcases Nat.eq_zero_or_pos k with rfl | hpos
  · rw [h.kept.root] at hnone
    cases hnone
  · exact hpos

theorem Grown.succeeds_iff (h : Grown fs) (path : Str) (mem : Scratch) :
    Succeeds fs path mem ↔ fs.freeInodes ≠ 0 ∧ ∃ d, findIndex fs (splitPath path mem).1 = .inode d := by
  constructor
  · rintro ⟨hi, -, -, d, hd, -⟩
    exact ⟨hi, d, hd⟩
  · rintro ⟨hi, d, hd⟩
    have ha := h.avail_ge
    have hblocks : fs.freeBlocks ≠ 0 := by
      unfold avail at ha
      omega
    exact ⟨hi, hblocks, h.inodeFree hi, d, hd, (h.finds (findIndex_lt hd)).2⟩

/-- A failing call changes nothing. -/
theorem Grown.fails (h : Grown fs) (hn : ¬ Succeeds fs path mem) :
    rdCreate fs path type mode mem = some (fs, -1) ∨ rdCreate fs path type mode mem = none := by
  rw [h.succeeds_iff] at hn
  unfold rdCreate
  by_cases hi : fs.freeInodes = 0
  · exact .inl (if_pos hi)
  · rw [if_neg hi]
    by_cases hb : fs.freeBlocks = 0
    · exact .inl (if_pos hb)
    · rw [if_neg hb]
      dsimp only
      cases hf : findIndex fs (splitPath path mem).1 with
      | inode d => exact absurd ⟨hi, d, hf⟩ hn
      | missing => exact .inl rfl
      | outside => exact .inr rfl

theorem Grown.size_of_fill (h : Grown fs) (hrec : record fs' = createdRecord fs cur n type mode)
    (hk : k < 1024) (hkn : k ≠ n) :
    (fs'.inodes k).size = (fs.inodes k).size + if k = cur then 16 else 0 := by
  by_cases hkc : k = cur
  · subst hkc
    have hlt := h.covered.lt hk
    rw [(created_parent hrec hkn).2, if_pos rfl, u32_of_lt (by omega)]
  · rw [(created_other hrec hkn hkc).2, if_neg hkc, Nat.add_zero]

/-- The new entry lies where the size of its directory said. -/
theorem Grown.behind_of_fill (h : Grown fs) (hcur : cur < 1024) (hg : getNextEntry fs cur = (fs₁, some e))
    (hf : Filled fs₁ e n name type fs') (hname : name.length ≤ 13)
    (hrec : record fs' = createdRecord fs cur n type mode) : Behind fs' := by
  have hspent := h.avail_ge
  have hfree : 2 ≤ fs.freeBlocks := by
    unfold avail at hspent
    omega
  have hspot := first_spot h.kept.owned hcur (h.position hcur) (h.not_full hcur) hfree hg
  have hx : Extends cur fs fs₁ := by
    have hnext := getNextEntry_next h.kept.owned hcur hg
    exact hnext.extends h.kept.owned
  have hleast := getNextEntry_least fs cur
  rw [hg] at hleast
  have hbehind := h.behind.extends hx
  have hslot : (fs.inodes cur).size / 256 * 16 + e.slot ≤ (fs.inodes cur).size / 16 := by
    have hdvd := h.aligned cur hcur
    have hj : (fs.inodes cur).size / 16 % 16 < 16 := Nat.mod_lt _ (by decide)
    have hzero := hbehind cur _ _ hcur (h.position hcur) hj (by rw [hx.size]; omega)
      (by rw [hspot]; exact ptrTo_ne_zero _)
    rw [hspot, blockOf_ptrTo] at hzero
    by_contra hlt
    exact hleast e rfl _ (by omega) hzero
  intro k s j hk hs hj hsize href
  obtain ⟨hv, hl⟩ := spot_valid hk hs
  have hrefs := hf.refs (spot k s) hv
  rw [spot_node] at hrefs
  by_cases hkn : k = n
  · rw [hrefs, if_pos hkn] at href
    exact absurd rfl href
  · rw [if_neg hkn] at hrefs
    rw [hrefs] at href ⊢
    have hgrow := h.size_of_fill hrec hk hkn
    have hsize₁ : (fs₁.inodes k).size = (fs.inodes k).size := by
      by_cases hkc : k = cur
      · rw [hkc, hx.size]
      · rw [hx.inodes k hkc]
    have hold := hbehind k s j hk hs hj (by omega) href
    by_cases hhere : blockOf (ref fs₁ (spot k s)) = e.block ∧ j = e.slot
    · -- then the position is before the new size
      obtain ⟨hb, rfl⟩ := hhere
      have hsame : spot k s = spot cur ((fs.inodes cur).size / 256) := by
        refine hx.owned.unique hv trivial (spot_valid hcur (h.position hcur)).1 trivial href ?_
        rw [hspot, ← hb, ptrTo_blockOf href]
      have hkc : k = cur := by
        have := congrArg Place.node hsame
        rwa [spot_node, spot_node] at this
      subst hkc
      have hsp := spot_inj hsame
      rw [if_pos rfl] at hgrow
      omega
    · unfold FileSys.entryNum at hold ⊢
      rw [← hold]
      exact load_congr fun a h1 h2 => hf.slot hname hhere (by omega) (by omega)

theorem Grown.filled (h : Grown fs) (hc : CreateResult fs (render cs) type mode mem fs' 0) : Grown fs' := by
  have hkept := h.kept.create hc
  have hcovered := h.covered.create h.kept hc
  have hword := word_create hc h.word
  generalize hr : (0 : Int) = r at hc
  cases hc with
  | refused => cases hr
  | noEntry => cases hr
  | @filled cur n fs₁ e hcur _ _ hg hn =>
    obtain ⟨hslot, hplain⟩ := (getNextEntry_next h.kept.owned hcur hg).plain h.kept.owned
    have hname : (splitPath (render cs) mem).2.length ≤ 13 := splitPath_length_le cs mem
    have hfit : 16 * e.slot + (splitPath (render cs) mem).2.length < 256 := by omega
    have hsame := getNextEntry_records fs cur
    rw [hg] at hsame
    have hget : getFreeInodeNum fs = some n := (getFreeInodeNum_congr hsame).symm.trans hn
    have hnew := newInode_of_get hget
    have hf : Filled fs₁ e n _ type (fillEntry fs₁ cur e n (splitPath (render cs) mem).2 type mode) :=
      fillEntry_filled (h.kept.searched hcur hg).owned hslot hname hplain
    have hrec : record (fillEntry fs₁ cur e n (splitPath (render cs) mem).2 type mode) =
        createdRecord fs cur n type mode := (fillEntry_record ..).trans (createdRecord_congr hsame)
    refine ⟨hkept, hcovered, hword, fun k hk => ?_, h.behind_of_fill hcur hg hf hname hrec, ?_⟩
    · by_cases hkn : k = n
      · rw [hkn, (created_new hrec).2]
        split
        · exact Nat.dvd_refl 16
        · exact Nat.dvd_zero 16
      · rw [h.size_of_fill hrec hk hkn]
        refine Nat.dvd_add (h.aligned k hk) ?_
        split
        · exact Nat.dvd_refl 16
        · exact Nat.dvd_zero 16
    · have hspent : avail fs ≤ avail fs₁ + 3 := by
        have hs := search h.word cur
        rw [hg] at hs
        dsimp only at hs
        have ha := h.avail_ge
        generalize ho : some e = o at hs
        cases hs with
        | blocked => cases ho
        | @found p _ _ _ _ hs =>
          have := hs.left
          have := missing_le fs p
          omega
        | @other p _ _ _ hlt =>
          have := missing_le fs p
          omega
        | short => cases ho
      have hkeep : avail (fillEntry fs₁ cur e n (splitPath (render cs) mem).2 type mode) = avail fs₁ := by
        unfold avail clearBits
        rw [fillEntry_bitmap hfit, fillEntry_freeBlocks hfit]
      have hcount := hnew.counted
      have hbound := h.covered.bounded
      have hblocks := h.blocks
      rw [hkeep, fillEntry_free, hsame.2, u32Sub_of_le (by omega) (by omega)]
      have hne := h.kept.freeInodes_ne
      omega

/-! ## Runs without `rd_unlink` and `rd_write` -/

/-- A call that takes nothing out of the file system and writes no file. -/
def NothingLost : Op → Prop
  | .unlink _ _ | .write _ _ _ _ => False
  | _ => True

theorem Grown.chmod (h : Grown fs) (k mode : Nat) :
    Grown (fs.setInode k { fs.inodes k with access := mode }) := by
  have hsize : ∀ x, ((fs.setInode k { fs.inodes k with access := mode }).inodes x).size =
      (fs.inodes x).size := fun x => by
    by_cases hx : x = k
    · rw [hx, setInode_inodes_self]
    · rw [setInode_inodes_ne _ _ hx]
  have href : ∀ q, ref (fs.setInode k { fs.inodes k with access := mode }) q = ref fs q :=
    fun q => ref_setInode fun _ => ⟨rfl, rfl, rfl⟩
  refine ⟨h.kept.chmod k mode, h.covered.chmod k mode, h.word, fun x hx => ?_,
    fun x s j hx hs hj hle h0 => ?_, h.blocks⟩
  · rw [hsize]
    exact h.aligned x hx
  · rw [href] at h0 ⊢
    rw [hsize] at hle
    exact h.behind x s j hx hs hj hle h0

/-- The outcome of `rd_create` in such a state. -/
theorem Grown.create_cases (h : Grown fs) (cs : List Component) (type : FileType) (mode : Nat)
    (mem : Scratch) :
    (¬ Succeeds fs (render cs) mem ∧ (rdCreate fs (render cs) type mode mem = some (fs, -1) ∨
        rdCreate fs (render cs) type mode mem = none)) ∨
      ∃ fs', rdCreate fs (render cs) type mode mem = some (fs', 0) ∧ Grown fs' := by
  by_cases hs : Succeeds fs (render cs) mem
  · obtain ⟨fs', hc⟩ := (create_succeeds_iff h.word (render cs) type mode mem).mpr hs
    exact .inr ⟨fs', hc, h.filled (rdCreate_result hc)⟩
  · exact .inl ⟨hs, h.fails hs⟩

theorem step_grown (h : Grown st.discos) (hop : WellNamed op) (hl : NothingLost op) :
    Grown (step st op).discos := by
  cases op with
  | create path type mode mem =>
    obtain ⟨cs, rfl⟩ := hop
    rcases h.create_cases cs type mode mem with ⟨-, hc | hc⟩ | ⟨fs', hc, hg⟩
    · rw [step_discos_create hc]
      exact h
    · unfold step call onImage
      dsimp only
      rw [hc]
      exact h
    · rw [step_discos_create hc]
      exact hg
  | mkdir path mem =>
    obtain ⟨cs, rfl⟩ := hop
    by_cases hroot : render cs = [slash]
    · rw [hroot]
      unfold step call onImage rdMkdir
      dsimp only
      rw [if_pos rfl, if_neg h.kept.freeInodes_ne]
      exact h
    · rcases h.create_cases cs .dir 1 mem with ⟨-, hc | hc⟩ | ⟨fs', hc, hg⟩
      · rw [step_discos_mkdir hroot hc]
        exact h
      · unfold step call onImage
        dsimp only
        rw [rdMkdir_eq _ hroot, hc]
        exact h
      · rw [step_discos_mkdir hroot hc]
        exact hg
  | chmod path mode =>
    have he := step_effect st (.chmod path mode)
    generalize (step st (.chmod path mode)).discos = fs' at he ⊢
    cases he with
    | idle => exact h
    | chmod => exact h.chmod _ _
  | «open» path flags pid =>
    have he := step_effect st (.open path flags pid)
    generalize (step st (.open path flags pid)).discos = fs' at he ⊢
    cases he
    exact h
  | lseek fd offset pid =>
    have he := step_effect st (.lseek fd offset pid)
    generalize (step st (.lseek fd offset pid)).discos = fs' at he ⊢
    cases he
    exact h
  | read fd addr n pid =>
    have he := step_effect st (.read fd addr n pid)
    generalize (step st (.read fd addr n pid)).discos = fs' at he ⊢
    cases he
    exact h
  | close fd pid =>
    have he := step_effect st (.close fd pid)
    generalize (step st (.close fd pid)).discos = fs' at he ⊢
    cases he
    exact h
  | unlink => exact hl.elim
  | write => exact hl.elim

theorem init_grown (behind : Nat → Bytes) (buffer : Bytes) : Grown (initFileSys behind buffer).discos := by
  have hkept := init_kept behind buffer
  have hcovered := init_covered behind buffer
  rw [initFileSys_discos] at hkept hcovered ⊢
  have hfree : (makeRoot (emptyImage behind)).freeBlocks = 7931 := rfl
  refine ⟨hkept, hcovered, by unfold Word; omega, fun k _ => ?_, fun k s j _ _ _ _ h0 => ?_, ?_⟩
  · rw [Sizes.init_size]
    exact Nat.dvd_zero 16
  · exact absurd (ref_init behind _) h0
  · have hclear : clearBits (makeRoot (emptyImage behind)) = 7931 := clearBits_emptyImage behind
    unfold avail
    omega

theorem operation_named (e : Env) (a : Call) : WellNamed (operation e a) := by
  cases a <;> first | exact ⟨_, rfl⟩ | trivial

/-- A call of `rd_create` for a new file in the directory `cs`. -/
def makes (cs : List Component) (mode : Nat) (mem : Scratch) (c : Component) : Op :=
  .create (render (cs ++ [c])) .reg mode mem

def answer (st : State) (op : Op) : State × Option Int := (step st op, value st op)

section
variable {v : Volume} {c : Component} {names : List Component} {a : Nat}

/-- One more file in the directory, as long as an inode is left. -/
theorem answer_makes (hg : Grown st.discos) (h : Represents st v) (hdir : v.tree cs = some (.dir a))
    (hends : Ends mem (joined cs).length) (hnew : v.tree (cs ++ [c]) = none) (h0 : st.discos.freeInodes ≠ 0)
    (mode : Nat) : (answer st (makes cs mode mem c)).2 = some 0 ∧
      Grown (answer st (makes cs mode mem c)).1.discos ∧
      Represents (answer st (makes cs mode mem c)).1 (v.enter cs c (.file mode [])).1 ∧
      (answer st (makes cs mode mem c)).1.discos.freeInodes + 1 = st.discos.freeInodes := by
  have hthere : v.tree cs ≠ none := by
    rw [hdir]
    exact fun e => by cases e
  have hplain : v.Plain (cs ++ [c]) := by
    intro q hq hne access d he
    rcases List.prefix_concat_iff.mp hq with rfl | hq
    · exact hne rfl
    · by_cases hqc : q = cs
      · rw [hqc, hdir] at he
        cases he
      · exact h.formed.plain hthere q hq hqc access d he
  obtain ⟨d, hd, -, -⟩ := h.node hdir
  obtain ⟨-, hfind⟩ := h.found hplain.parent hd
  have hparent : findIndex st.discos (splitPath (render (cs ++ [c])) mem).1 = .inode d := by
    rw [splitPath_concat_fst cs c hends, hfind]
  have hsucc : Succeeds st.discos (render (cs ++ [c])) mem := (hg.succeeds_iff _ _).mpr ⟨h0, d, hparent⟩
  have hlinked : ∀ k, findIndex st.discos (render cs) = .inode k → ¬ Unlinked st.discos k := fun k hk => by
    have hlt := findIndex_lt hk
    refine not_unlinked fun _ => not_doubleSeg ?_
    have hnot := hg.not_full hlt
    have h72 := hg.position hlt
    unfold spot at hnot
    split at hnot
    · exact .inl ‹_›
    · exact .inr ⟨h72, hnot⟩
  obtain ⟨fs₂, r, hc, hout⟩ := create_represents mode .reg h hplain hnew hends hlinked
  have hent : (v.enter cs c (.file mode [])).2.value = 0 := by
    unfold Volume.enter
    rw [hdir, hnew]
  rcases hout with ⟨hr, hrep⟩ | ⟨-, hno, -⟩
  · rw [show freshNode mode .reg = .file mode [] from rfl] at hr hrep
    rw [hent] at hr
    subst hr
    have hcall : call st (makes cs mode mem c) = some ({ st with discos := fs₂ }, 0) :=
      image_call rfl hc
    have hstep : step st (makes cs mode mem c) = { st with discos := fs₂ } := by
      unfold step
      rw [hcall]
      rfl
    unfold answer value
    rw [hstep, hcall]
    refine ⟨rfl, hg.filled (rdCreate_result hc), hrep, ?_⟩
    rcases Records.CreateResult.records (rdCreate_result hc) with ⟨-, e⟩ | ⟨-, -, -, -, -, -, hfree⟩
    · cases e
    · have := hg.kept.freeInodes_ne
      have := hg.covered.bounded
      show fs₂.freeInodes + 1 = st.discos.freeInodes
      rw [hfree, u32Sub_of_le (by omega) (by omega)]
      omega
  · exact absurd hsucc hno

/-- The files of the list one after the other, on the code and on the volume. -/
theorem makes_all (hg : Grown st.discos) (h : Represents st v) (hdir : v.tree cs = some (.dir a))
    (hends : Ends mem (joined cs).length) (hnew : ∀ c ∈ names, v.tree (cs ++ [c]) = none) (hnodup : names.Nodup)
    (hlen : names.length ≤ st.discos.freeInodes) :
    (runOutputs answer st (names.map (makes cs mode mem))).2 = List.replicate names.length (some 0) ∧
      Represents (runOutputs answer st (names.map (makes cs mode mem))).1
        (names.foldl (fun v c => (v.enter cs c (.file mode [])).1) v) ∧
      (runOutputs answer st (names.map (makes cs mode mem))).1.discos.freeInodes + names.length =
        st.discos.freeInodes := by
  induction names generalizing st v with
  | nil => exact ⟨rfl, h, rfl⟩
  | cons c names ih =>
    have hc := hnew c List.mem_cons_self
    rw [List.length_cons] at hlen
    obtain ⟨hans, hg', h', hfree⟩ := answer_makes hg h hdir hends hc (by omega) mode
    have hent : (v.enter cs c (.file mode [])).1 = v.setNode (cs ++ [c]) (some (.file mode [])) := by
      unfold Volume.enter
      rw [hdir, hc]
    have hother : ∀ q, q ≠ cs ++ [c] → (v.enter cs c (.file mode [])).1.tree q = v.tree q := fun q hq => by
      rw [hent]
      exact Function.update_of_ne hq _ _
    have hself : cs ≠ cs ++ [c] := fun e => by simpa using congrArg List.length e
    obtain ⟨hno, hnodup⟩ := List.nodup_cons.mp hnodup
    obtain ⟨houts, hrep, hleft⟩ := ih hg' h' (by rw [hother _ hself]; exact hdir)
      (fun c' hc' => by
        rw [hother _ fun e => hno (by rwa [← (List.singleton_inj.mp (List.append_cancel_left e))])]
        exact hnew c' (List.mem_cons_of_mem _ hc'))
      hnodup (by omega)
    rw [List.map_cons, runOutputs]
    refine ⟨?_, hrep, ?_⟩
    · rw [houts, hans, List.length_cons, List.replicate_succ]
    · rw [List.length_cons]
      dsimp only
      omega

/-- Any directory takes as many new files as there are inodes left. -/
theorem directory_fills {behind : Nat → Bytes} {buffer : Bytes}
    (h : Reach (fun s x => Proper s.1 s.2 x.1 x.2 ∧ NothingLost (operation x.1 x.2)) sideBySide
      (initFileSys behind buffer, Volume.empty) (st, v))
    (hdir : v.tree cs = some (.dir a)) (hends : Ends mem (joined cs).length)
    (hnew : ∀ c ∈ names, v.tree (cs ++ [c]) = none) (hnodup : names.Nodup)
    (hlen : names.length ≤ st.discos.freeInodes) (mode : Nat) :
    (runOutputs answer st (names.map (makes cs mode mem))).2 = List.replicate names.length (some 0) ∧
      Represents (runOutputs answer st (names.map (makes cs mode mem))).1
        (names.foldl (fun v c => (v.enter cs c (.file mode [])).1) v) ∧
      (runOutputs answer st (names.map (makes cs mode mem))).1.discos.freeInodes + names.length =
        st.discos.freeInodes := by
  obtain ⟨hrep, hg⟩ := h.invariant (I := fun s => Represents s.1 s.2 ∧ Grown s.1.discos)
    ⟨init_represents behind buffer, init_grown behind buffer⟩
    fun s x hok hs => ⟨sideBySide_represents hs.1 hok.1, step_grown hs.2 (operation_named x.1 x.2) hok.2⟩
  exact makes_all hg hrep hdir hends hnew hnodup hlen

/-- The two files `/a` and `/ax` in a fresh file system. -/
theorem directory_fills_fresh :
    let fresh : State := initFileSys (fun _ _ => 0) fun _ => 0
    let two : List Op := [nameA, nameAx].map (makes [] RW ⟨[0, 0, 0], [0, 0, 0]⟩)
    (runOutputs answer fresh two).2 = List.replicate 2 (some 0) ∧
      Represents (runOutputs answer fresh two).1
        ([nameA, nameAx].foldl (fun v c => (v.enter [] c (.file RW [])).1) Volume.empty) ∧
      (runOutputs answer fresh two).1.discos.freeInodes + 2 = fresh.discos.freeInodes :=
  directory_fills .start (rfl : Volume.empty.tree [] = some (.dir 0)) (ends_replicate 3 0 _)
    (fun c _ => Function.update_of_ne (List.cons_ne_nil c []) (some (.dir 0)) _) (by decide) (by decide +kernel) RW

end

end ToyOS.Ramdisk.Capacity
