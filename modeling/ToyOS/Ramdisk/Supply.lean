import ToyOS.Ramdisk.Records
import ToyOS.Ramdisk.Slots

/-! # The blocks a search for an entry needs

`get_next_entry` looks at one leaf place and takes a block for every pointer
that is missing on the way to it. `avail` counts the blocks that can be had,
`missing` those that are needed. Nothing is assumed about the image, except
that `free_blocks` is a machine word.
-/
namespace ToyOS.Ramdisk.Supply
open ToyOS.Lib.Loop ToyOS.Lib.Words ToyOS.Lib.Bits ToyOS.Lib.CStrings ToyOS.Lib.Runs
open ToyOS.Ramdisk.Image ToyOS.Ramdisk.Blocks ToyOS.Ramdisk.Places ToyOS.Ramdisk.Allocation
open ToyOS.Ramdisk.Ownership ToyOS.Ramdisk.Directories ToyOS.Ramdisk.Slots ToyOS.Ramdisk.Namespace
open ToyOS.Ramdisk.Paths ToyOS.Ramdisk.Creating ToyOS.Ramdisk.Removing ToyOS.Ramdisk.Descriptors
open ToyOS.Ramdisk.Writing ToyOS.Ramdisk.System ToyOS.Ramdisk.Effects ToyOS.Ramdisk.Rules
open ToyOS.Ramdisk.Records

variable {fs fs₁ fs' : FileSys} {k n seg b i : Nat} {p r : Place} {s : PtrSlot} {st : State}

/-! ## Taking a block -/

/-- `free_blocks` is an `unsigned int`. -/
def Word (fs : FileSys) : Prop := fs.freeBlocks < 2 ^ 32

/-- The blocks that can be had: both the counter and the bitmap have to allow them. -/
def avail (fs : FileSys) : Nat := min fs.freeBlocks (clearBits fs)

/-- `n` of them have been taken. -/
structure Spent (fs fs' : FileSys) (n : Nat) : Prop where
  word : Word fs'
  left : avail fs' + n = avail fs
  same : n = 0 → fs' = fs

theorem Spent.refl (hw : Word fs) : Spent fs fs 0 := ⟨hw, rfl, fun _ => rfl⟩

theorem Spent.trans {m : Nat} (h : Spent fs fs₁ n) (h' : Spent fs₁ fs' m) : Spent fs fs' (n + m) := by
  refine ⟨h'.word, ?_, fun h0 => ?_⟩
  · have := h.left
    have := h'.left
    omega
  · rw [h'.same (by omega), h.same (by omega)]

/-- A block spent is missed. -/
theorem Spent.ne (h : Spent fs fs' n) (hn : n ≠ 0) : fs' ≠ fs := by
  rintro rfl
  have := h.left
  omega

theorem avail_setPtr (fs : FileSys) (s : PtrSlot) (v : Nat) : avail (fs.setPtr s v) = avail fs := by
  unfold avail clearBits
  rw [setPtr_freeBlocks, setPtr_bitmap]

theorem Spent.setPtr (h : Spent fs fs₁ (n + 1)) (s : PtrSlot) (v : Nat) :
    Spent fs (fs₁.setPtr s v) (n + 1) := by
  refine ⟨?_, by rw [avail_setPtr]; exact h.left, fun h0 => by omega⟩
  rw [Word, setPtr_freeBlocks]
  exact h.word

theorem spent_of_take (hw : Word fs) (h : takeBlock fs = some (fs₁, b)) : Spent fs fs₁ 1 := by
  obtain ⟨rfl, hf, hlt, hclear⟩ := takeBlock_some h
  have hcount := clearCount_set (v := bit (allocateDataBlock fs b).bitmap) hlt hclear fun c => by
    rw [allocate_bitmap, setBitmap_of_lt _ hlt, bit_setBit]
  have hfree : (allocateDataBlock fs b).freeBlocks = fs.freeBlocks - 1 := by
    rw [allocate_freeBlocks, u32Sub_of_le hw (by omega)]
  refine ⟨?_, ?_, fun h0 => by omega⟩
  · unfold Word at *
    omega
  · unfold avail clearBits
    omega

theorem takeBlock_eq_none : takeBlock fs = none ↔ avail fs = 0 := by
  unfold avail clearBits
  constructor
  · intro h
    by_cases hf : fs.freeBlocks = 0
    · omega
    · have := takeBlock_none h hf
      omega
  · intro h
    cases ht : takeBlock fs with
    | none => rfl
    | some x =>
      obtain ⟨-, hf, hlt, hclear⟩ := takeBlock_some (b := x.2) ht
      have hpos := clearCount_set (v := fun c => bit fs.bitmap c || decide (c = x.2)) hlt hclear
        fun _ => rfl
      omega

theorem exists_take (h : avail fs ≠ 0) : ∃ fs₁ b, takeBlock fs = some (fs₁, b) := by
  cases ht : takeBlock fs with
  | none => exact absurd (takeBlock_eq_none.mp ht) h
  | some x => exact ⟨x.1, x.2, rfl⟩

/-- The block an empty slot of an inode gets reads as NULL pointers. -/
theorem ensure_empty (hw : Word fs) (h0 : fs.ptrAt s = 0) (ha : avail fs ≠ 0)
    (hs : ∀ b i, s ≠ .indexBlock b i) :
    ∃ fs₁, ensureBlock fs s = some fs₁ ∧ Spent fs fs₁ 1 ∧ fs₁.ptrAt s ≠ 0 ∧
      ∀ i, fs₁.ptrAt (.indexBlock (blockOf (fs₁.ptrAt s)) i) = 0 := by
  obtain ⟨fs₂, b, ht⟩ := exists_take ha
  obtain ⟨hfs, -, hlt, -⟩ := takeBlock_some ht
  have hself : (fs₂.setPtr s (ptrTo b)).ptrAt s = ptrTo b :=
    ptrAt_setPtr_self _ _ (by unfold ptrTo; omega)
  refine ⟨fs₂.setPtr s (ptrTo b), ?_, (spent_of_take hw ht).setPtr _ _, ?_, fun i => ?_⟩
  · rw [ensureBlock, if_pos h0, ht]
    rfl
  · rw [hself]
    exact ptrTo_ne_zero b
  · rw [hself, blockOf_ptrTo, ptrAt_setPtr_ne _ _ fun e => hs _ _ e.symm, hfs]
    exact allocate_ptrAt_self fs b i

theorem ensure_none (h0 : fs.ptrAt s = 0) (ha : avail fs = 0) : ensureBlock fs s = none := by
  rw [ensureBlock, if_pos h0, takeBlock_eq_none.mpr ha]
  rfl

theorem ensure_there (h0 : fs.ptrAt s ≠ 0) : ensureBlock fs s = some fs := if_neg h0

/-! ## At one leaf place -/

/-- 1 for a pointer that is NULL. -/
def absent (fs : FileSys) (p : Place) : Nat := if ref fs p = 0 then 1 else 0

/-- The blocks a place needs before an entry can be put there. -/
def missing (fs : FileSys) : Place → Nat
  | .direct k i => absent fs (.direct k i)
  | .single k => absent fs (.single k)
  | .double k => absent fs (.double k)
  | .sleaf k i => absent fs (.single k) + absent fs (.sleaf k i)
  | .index k i => absent fs (.double k) + absent fs (.index k i)
  | .dleaf k i j => absent fs (.double k) + absent fs (.index k i) + absent fs (.dleaf k i j)

/-- What a search comes to at place `p`. -/
inductive AtPlace (fs : FileSys) (p : Place) : FileSys → Option EntryPtr → Prop
  | full (h : Full fs p) : AtPlace fs p fs none
  | found {fs' : FileSys} {e : EntryPtr} (h : ¬ Full fs p) (hle : missing fs p ≤ avail fs)
      (hs : Spent fs fs' (missing fs p)) : AtPlace fs p fs' (some e)
  | short {fs' : FileSys} (hlt : avail fs < missing fs p) (hs : Spent fs fs' (avail fs)) :
      AtPlace fs p fs' none

theorem absent_null (h : ref fs p = 0) : absent fs p = 1 := if_pos h
theorem absent_there (h : ref fs p ≠ 0) : absent fs p = 0 := if_neg h

theorem missing_le (fs : FileSys) (p : Place) : missing fs p ≤ 3 := by
  have h : ∀ q, absent fs q ≤ 1 := fun q => by
    unfold absent
    split <;> omega
  cases p with
  | direct k i => have := h (.direct k i); rw [missing]; omega
  | single k => have := h (.single k); rw [missing]; omega
  | double k => have := h (.double k); rw [missing]; omega
  | sleaf k i => have := h (.single k); have := h (.sleaf k i); rw [missing]; omega
  | index k i => have := h (.double k); have := h (.index k i); rw [missing]; omega
  | dleaf k i j =>
    have := h (.double k); have := h (.index k i); have := h (.dleaf k i j); rw [missing]; omega

theorem not_full_null (h : ref fs p = 0) : ¬ Full fs p := fun hf => hf.1 h

/-- A block that is there has an entry to offer or is full. -/
theorem atPlace_there (hw : Word fs) (h0 : ref fs p ≠ 0) (hm : missing fs p = 0) :
    AtPlace fs p fs (getNextDirEntry fs (blockOf (ref fs p))) := by
  unfold getNextDirEntry
  cases hf : firstIdx (fun j => fs.entryNum (blockOf (ref fs p)) j == 0) 0 16 with
  | none =>
    refine .full ⟨h0, fun j hj => ?_⟩
    simpa using firstIdx_eq_none.mp hf j (by omega) (by omega)
  | some j =>
    obtain ⟨-, hj, hz, -⟩ := firstIdx_eq_some.mp hf
    refine .found (fun hfull => hfull.2 j (by omega) (by simpa using hz)) (by omega) ?_
    rw [hm]
    exact .refl hw

/-- A leaf block that is not there, with `m` blocks already taken on the way. -/
theorem single_null {m : Nat} (hs : Spent fs fs₁ m) (h0 : fs₁.ptrAt (.indexBlock b i) = 0)
    (hn : ref fs p = 0) (hm : missing fs p = m + 1) :
    AtPlace fs p (getNextDirEntrySingle fs₁ b i).1 (getNextDirEntrySingle fs₁ b i).2 := by
  have hleft := hs.left
  unfold getNextDirEntrySingle
  dsimp only
  rw [if_pos h0]
  by_cases ha : avail fs₁ = 0
  · rw [takeBlock_eq_none.mpr ha]
    refine .short (by omega) ?_
    rwa [show avail fs = m by omega]
  · obtain ⟨fs₂, c, ht⟩ := exists_take ha
    rw [ht]
    refine .found (not_full_null hn) (by omega) ?_
    rw [hm]
    exact (hs.trans (spent_of_take hs.word ht)).setPtr (.indexBlock b i) (ptrTo c)

/-- An index block that is not there, with `m` blocks already taken. -/
theorem double_null {m : Nat} (hs : Spent fs fs₁ m)
    (h0 : fs₁.ptrAt (.indexBlock b (seg / 64)) = 0) (hn : ref fs p = 0)
    (hm : missing fs p = m + 2) :
    AtPlace fs p (getNextDirEntryDouble fs₁ b seg).1 (getNextDirEntryDouble fs₁ b seg).2 := by
  have hleft := hs.left
  unfold getNextDirEntryDouble
  dsimp only
  rw [if_pos h0]
  by_cases ha : avail fs₁ = 0
  · rw [takeBlock_eq_none.mpr ha]
    refine .short (by omega) ?_
    rwa [show avail fs = m by omega]
  · obtain ⟨fs₂, c, ht⟩ := exists_take ha
    rw [ht]
    obtain ⟨hfs, -⟩ := takeBlock_some ht
    refine single_null (hs.trans (spent_of_take hs.word ht)) ?_ hn (by omega)
    rw [hfs]
    exact allocate_ptrAt_self fs₁ c _

theorem single_atPlace (hw : Word fs) (hu : p.up = some (r, i)) (h0 : ref fs r ≠ 0)
    (hm : missing fs p = absent fs p) :
    AtPlace fs p (getNextDirEntrySingle fs (blockOf (ref fs r)) i).1
      (getNextDirEntrySingle fs (blockOf (ref fs r)) i).2 := by
  have hptr : fs.ptrAt (.indexBlock (blockOf (ref fs r)) i) = ref fs p := by
    rw [ref_up hu, under, if_neg h0]
  by_cases hz : ref fs p = 0
  · exact single_null (.refl hw) (hptr.trans hz) hz (hm.trans (absent_null hz))
  · unfold getNextDirEntrySingle
    dsimp only
    rw [hptr, if_neg hz]
    exact atPlace_there hw hz (hm.trans (absent_there hz))

theorem direct_ends (hw : Word fs) (k i : Nat) :
    (nextEntryDirect k i fs).Ends (fun fs' => fs' = fs ∧ Full fs (.direct k i))
      fun fs' e => AtPlace fs (.direct k i) fs' e ∧ ¬ Full fs (.direct k i) := by
  unfold nextEntryDirect
  dsimp only
  by_cases hz : fs.ptrAt (.pointers k i) = 0
  · have hz' : ref fs (.direct k i) = 0 := hz
    have hm : missing fs (.direct k i) = 1 := absent_null hz'
    rw [if_pos hz]
    by_cases ha : avail fs = 0
    · rw [takeBlock_eq_none.mpr ha]
      refine ⟨.short (by omega) ?_, not_full_null hz'⟩
      rw [ha]
      exact .refl hw
    · obtain ⟨fs₁, b, ht⟩ := exists_take ha
      rw [ht]
      refine ⟨.found (not_full_null hz') (by omega) ?_, not_full_null hz'⟩
      rw [hm]
      exact (spent_of_take hw ht).setPtr (n := 0) _ _
  · have hz' : ref fs (.direct k i) ≠ 0 := hz
    have h := atPlace_there hw hz' (absent_there hz')
    rw [if_neg hz]
    rw [show blockOf (fs.ptrAt (.pointers k i)) = blockOf (ref fs (.direct k i)) from rfl]
    generalize getNextDirEntry fs (blockOf (ref fs (.direct k i))) = e at h ⊢
    have hmiss : missing fs (.direct k i) = 0 := absent_there hz'
    cases h with
    | full h => exact ⟨rfl, h⟩
    | found h hle hs => exact ⟨.found h hle hs, h⟩
    | short hlt => omega

theorem double_atPlace (hw : Word fs) (h72 : 72 ≤ seg) (h4168 : seg < 4168) :
    AtPlace fs (.dleaf k ((seg - 72) / 64) ((seg - 72) % 64)) (nextEntryDouble fs k seg).1
      (nextEntryDouble fs k seg).2 := by
  have hup : (Place.index k ((seg - 72) / 64)).up = some (.double k, (seg - 72) / 64) := rfl
  have hup' : (Place.dleaf k ((seg - 72) / 64) ((seg - 72) % 64)).up =
    some (.index k ((seg - 72) / 64), (seg - 72) % 64) := rfl
  have hnull : ref fs (.index k ((seg - 72) / 64)) = 0 →
      ref fs (.dleaf k ((seg - 72) / 64) ((seg - 72) % 64)) = 0 := fun h => by
    rw [ref_up hup', h]
    rfl
  unfold nextEntryDouble
  rw [if_pos ⟨h72, h4168⟩]
  by_cases hd : ref fs (.double k) = 0
  · have hi : ref fs (.index k ((seg - 72) / 64)) = 0 := by
      rw [ref_up hup, hd]
      rfl
    have hm : missing fs (.dleaf k ((seg - 72) / 64) ((seg - 72) % 64)) = 3 := by
      rw [missing]
      rw [absent_null hd, absent_null hi, absent_null (hnull hi)]
    by_cases ha : avail fs = 0
    · rw [ensure_none (s := .doubleIndirect k) hd ha]
      refine .short (by omega) ?_
      rw [ha]
      exact .refl hw
    · obtain ⟨fs₁, he, hs, -, hz⟩ :=
        ensure_empty hw (s := .doubleIndirect k) hd ha fun _ _ h => by cases h
      rw [he]
      exact double_null hs (hz _) (hnull hi) hm
  · rw [ensure_there (s := .doubleIndirect k) hd]
    have hptr : fs.ptrAt (.indexBlock (blockOf (ref fs (.double k))) ((seg - 72) / 64)) =
        ref fs (.index k ((seg - 72) / 64)) := by rw [ref_up hup, under, if_neg hd]
    dsimp only
    rw [show fs.ptrAt (.doubleIndirect k) = ref fs (.double k) from rfl]
    by_cases h0 : ref fs (.index k ((seg - 72) / 64)) = 0
    · refine double_null (.refl hw) (hptr.trans h0) (hnull h0) ?_
      rw [missing]
      rw [absent_there hd, absent_null h0, absent_null (hnull h0)]
    · unfold getNextDirEntryDouble
      dsimp only
      rw [hptr, if_neg h0]
      refine single_atPlace hw hup' h0 ?_
      rw [missing]
      rw [absent_there hd, absent_there h0]
      omega

/-! ## The whole search -/

/-- The place the search is for. -/
inductive Target (fs : FileSys) (k : Nat) : Place → Prop
  | direct {i : Nat} (h0 : (fs.inodes k).size / 256 ≤ i) (hi : i < 8)
      (hfull : ∀ j, (fs.inodes k).size / 256 ≤ j → j < i → Full fs (.direct k j))
      (hn : ¬ Full fs (.direct k i)) : Target fs k (.direct k i)
  | single (h8 : 8 ≤ (fs.inodes k).size / 256) (h72 : (fs.inodes k).size / 256 < 72)
      (hn : ¬ Full fs (.sleaf k ((fs.inodes k).size / 256 - 8))) :
      Target fs k (.sleaf k ((fs.inodes k).size / 256 - 8))
  | double {seg : Nat} (hs : DoubleSeg fs k seg)
      (hn : ¬ Full fs (.dleaf k ((seg - 72) / 64) ((seg - 72) % 64))) :
      Target fs k (.dleaf k ((seg - 72) / 64) ((seg - 72) % 64))

/-- A single level that runs out of blocks is followed by the double one, which
may have an entry to offer in a block that is there. -/
def Fallback (fs : FileSys) (k : Nat) : Prop :=
  8 ≤ (fs.inodes k).size / 256 ∧ (fs.inodes k).size / 256 < 72 ∧
    ∃ fs₁, ensureBlock fs (.singleIndirect k) = some fs₁ ∧
      ref fs₁ (.dleaf k 0 0) ≠ 0 ∧ ¬ Full fs₁ (.dleaf k 0 0)

/-- How a search ends. -/
inductive Search (fs : FileSys) (k : Nat) : FileSys → Option EntryPtr → Prop
  | blocked (h : Blocked fs k) : Search fs k fs none
  | found {p : Place} {fs' : FileSys} {e : EntryPtr} (ht : Target fs k p)
      (hle : missing fs p ≤ avail fs) (hs : Spent fs fs' (missing fs p)) : Search fs k fs' (some e)
  | other {p : Place} {fs' : FileSys} {e : EntryPtr} (ht : Target fs k p)
      (hlt : avail fs < missing fs p) (hs : Spent fs fs' (avail fs)) (hf : Fallback fs k) :
      Search fs k fs' (some e)
  | short {p : Place} {fs' : FileSys} (ht : Target fs k p) (hlt : avail fs < missing fs p)
      (hs : Spent fs fs' (avail fs)) (hf : ¬ Fallback fs k) : Search fs k fs' none

theorem Target.unique {q : Place} (h : Target fs k p) (h' : Target fs k q) : p = q := by
  have hd : ∀ {seg}, DoubleSeg fs k seg → 8 ≤ (fs.inodes k).size / 256 := fun hs => by
    unfold DoubleSeg at hs
    omega
  have hsd : ∀ {seg}, DoubleSeg fs k seg → (fs.inodes k).size / 256 < 72 →
      Full fs (.sleaf k ((fs.inodes k).size / 256 - 8)) := fun hs h72 => by
    rcases hs with ⟨-, -, -, hf⟩ | ⟨rfl, h, -⟩
    · exact hf
    · omega
  cases h with
  | @direct i h0 hi hfull hn =>
    cases h' with
    | @direct j h0' hj hfull' hn' =>
      rcases Nat.lt_trichotomy i j with hlt | rfl | hlt
      · exact absurd (hfull' i h0 hlt) hn
      · rfl
      · exact absurd (hfull j h0' hlt) hn'
    | single h8 => omega
    | double hs =>
      have := hd hs
      omega
  | single h8 h72 hn =>
    cases h' with
    | direct => omega
    | single => rfl
    | double hs => exact absurd (hsd hs h72) hn
  | double hs =>
    cases h' with
    | direct =>
      have := hd hs
      omega
    | single h8 h72 hn => exact absurd (hsd hs h72) hn
    | double hs' => rw [hs.unique hs']

theorem Target.not_full (h : Target fs k p) : ¬ Full fs p := by
  cases h with
  | direct _ _ _ hn | single _ _ hn | double _ hn => exact hn

theorem Target.not_blocked (h : Target fs k p) : ¬ Blocked fs k := by
  rintro (⟨h8, hall⟩ | ⟨seg, hs, hf⟩ | hbig)
  · cases h with
    | direct h0 hi _ hn => exact hn (hall _ h0 hi)
    | single => omega
    | double hs =>
      unfold DoubleSeg at hs
      omega
  · cases h with
    | direct =>
      unfold DoubleSeg at hs
      omega
    | single h8 h72 hn =>
      rcases hs with ⟨-, -, -, hs⟩ | ⟨rfl, h, -⟩
      · exact hn hs
      · omega
    | double hs' hn =>
      rw [hs.unique hs'] at hf
      exact hn hf
  · cases h with
    | direct => omega
    | single => omega
    | double hs =>
      unfold DoubleSeg at hs
      omega

/-- A place that needs a block has no block. -/
theorem ref_of_missing_dleaf {j : Nat} (h : missing fs (.dleaf k i j) ≠ 0) :
    ref fs (.dleaf k i j) = 0 := by
  by_contra h0
  have hi : ref fs (.index k i) ≠ 0 := rooted_of_ref_ne h0 _ _ rfl
  have hd : ref fs (.double k) ≠ 0 := rooted_of_ref_ne hi _ _ rfl
  rw [missing, absent_there hd, absent_there hi, absent_there h0] at h
  exact h rfl

theorem single_none (fs : FileSys) (b i : Nat) (h : (getNextDirEntrySingle fs b i).2 = none) :
    (getNextDirEntrySingle fs b i).1 = fs := by
  unfold getNextDirEntrySingle at h ⊢
  dsimp only at h ⊢
  split at h
  · rename_i h0
    split at h
    · rw [if_pos h0]
    · cases h
  · rename_i h0
    rw [if_neg h0]

/-- A search that comes to the double level with `seg`. -/
theorem search_double (hw : Word fs) (hs : DoubleSeg fs k seg) :
    Search fs k (nextEntryDouble fs k seg).1 (nextEntryDouble fs k seg).2 := by
  have h := double_atPlace (k := k) hw hs.range.1 hs.range.2
  generalize nextEntryDouble fs k seg = r at h ⊢
  obtain ⟨fs', e⟩ := r
  cases h with
  | full h => exact .blocked (.inr (.inl ⟨seg, hs, h⟩))
  | found h hle hsp => exact .found (.double hs h) hle hsp
  | short hlt hsp =>
    have h0 : ref fs (.dleaf k ((seg - 72) / 64) ((seg - 72) % 64)) = 0 :=
      ref_of_missing_dleaf (by omega)
    refine .short (.double hs (not_full_null h0)) hlt hsp ?_
    rintro ⟨h8, h72, fs₁, he, h1, -⟩
    rcases hs with ⟨rfl, -, -, hf⟩ | ⟨rfl, h, -⟩
    · have hr : ref fs (.single k) ≠ 0 := rooted_of_ref_ne hf.1 _ _ rfl
      rw [ensure_there (s := .singleIndirect k) hr] at he
      obtain rfl := Option.some.inj he
      exact h1 h0
    · omega

theorem search_single (hw : Word fs) (h8 : 8 ≤ (fs.inodes k).size / 256)
    (h72 : (fs.inodes k).size / 256 < 72) :
    Search fs k (nextEntrySingle fs k ((fs.inodes k).size / 256)).1
      (nextEntrySingle fs k ((fs.inodes k).size / 256)).2 := by
  obtain ⟨i, hi⟩ : ∃ i, (fs.inodes k).size / 256 - 8 = i := ⟨_, rfl⟩
  have hup : (Place.sleaf k i).up = some (.single k, i) := rfl
  have htarget : ¬ Full fs (.sleaf k i) → Target fs k (.sleaf k i) := fun hn => by
    rw [← hi] at hn ⊢
    exact .single h8 h72 hn
  unfold nextEntrySingle
  rw [if_pos ⟨h8, h72⟩, hi]
  by_cases hnone : ref fs (.single k) = 0 ∧ avail fs = 0
  · have hz : ref fs (.sleaf k i) = 0 := by
      rw [ref_up hup, hnone.1]
      rfl
    have he := ensure_none (s := .singleIndirect k) hnone.1 hnone.2
    rw [he]
    refine .short (htarget (not_full_null hz)) ?_ ?_ ?_
    · rw [hnone.2, missing, absent_null hz]
      omega
    · rw [hnone.2]
      exact .refl hw
    · rintro ⟨-, -, fs₁, he', -⟩
      rw [he] at he'
      cases he'
  -- with its index block there, the search comes to the leaf
  obtain ⟨fs₁, he, hat⟩ : ∃ fs₁, ensureBlock fs (.singleIndirect k) = some fs₁ ∧
      AtPlace fs (.sleaf k i)
        (getNextDirEntrySingle fs₁ (blockOf (fs₁.ptrAt (.singleIndirect k))) i).1
        (getNextDirEntrySingle fs₁ (blockOf (fs₁.ptrAt (.singleIndirect k))) i).2 := by
    by_cases hr : ref fs (.single k) = 0
    · have hz : ref fs (.sleaf k i) = 0 := by
        rw [ref_up hup, hr]
        rfl
      obtain ⟨fs₁, he, hs, -, hzero⟩ :=
        ensure_empty hw (s := .singleIndirect k) hr (fun h => hnone ⟨hr, h⟩) fun _ _ h => by cases h
      refine ⟨fs₁, he, single_null hs (hzero i) hz ?_⟩
      rw [missing, absent_null hr, absent_null hz]
    · refine ⟨fs, ensure_there (s := .singleIndirect k) hr, single_atPlace hw hup hr ?_⟩
      rw [missing, absent_there hr, Nat.zero_add]
  have hsame := single_none fs₁ (blockOf (fs₁.ptrAt (.singleIndirect k))) i
  rw [he]
  dsimp only
  generalize getNextDirEntrySingle fs₁ (blockOf (fs₁.ptrAt (.singleIndirect k))) i = r at hat hsame ⊢
  obtain ⟨fs₂, e⟩ := r
  dsimp only at hat hsame
  cases hat with
  | found h hle hs => exact .found (htarget h) hle hs
  | full h => exact search_double hw (.inl ⟨rfl, h8, h72, by rw [hi]; exact h⟩)
  | short hlt hs =>
    obtain rfl : fs₂ = fs₁ := hsame rfl
    have hz : ref fs (.sleaf k i) = 0 := by
      by_contra hz
      have hr : ref fs (.single k) ≠ 0 := rooted_of_ref_ne hz _ _ rfl
      rw [missing, absent_there hr, absent_there hz] at hlt
      omega
    have ht := htarget (not_full_null hz)
    have hleft := hs.left
    have hd := double_atPlace (k := k) hs.word (Nat.le_refl 72) (by omega : 72 < 4168)
    have hfall : ref fs₂ (.dleaf k 0 0) ≠ 0 ∧ ¬ Full fs₂ (.dleaf k 0 0) ↔ Fallback fs k := by
      constructor
      · intro h
        exact ⟨h8, h72, fs₂, he, h⟩
      · rintro ⟨-, -, fs₃, he', h⟩
        obtain rfl := Option.some.inj (he.symm.trans he')
        exact h
    dsimp only
    generalize nextEntryDouble fs₂ k 72 = r at hd ⊢
    obtain ⟨fs₃, e⟩ := r
    simp only [Nat.sub_self, Nat.zero_div, Nat.zero_mod] at hd
    cases hd with
    | full h => exact .short ht hlt hs fun hf => (hfall.mpr hf).2 h
    | found h hle hs' =>
      have h0 : missing fs₂ (.dleaf k 0 0) = 0 := by omega
      obtain rfl : fs₃ = fs₂ := hs'.same h0
      refine .other ht hlt hs (hfall.mp ⟨fun hz => ?_, h⟩)
      rw [missing, absent_null hz] at h0
      omega
    | short hlt' hs' =>
      have h0 : ref fs₂ (.dleaf k 0 0) = 0 := ref_of_missing_dleaf (by omega)
      obtain rfl : fs₃ = fs₂ := hs'.same (by omega)
      exact .short ht hlt hs fun hf => (hfall.mpr hf).1 h0

/-- What `get_next_entry` does, in any state at all. -/
theorem search (hw : Word fs) (k : Nat) : Search fs k (getNextEntry fs k).1 (getNextEntry fs k).2 := by
  have hloop := forFrom_ends (a := (fs.inodes k).size / 256) (n := 8 - (fs.inodes k).size / 256)
    (f := nextEntryDirect k) (R := fun fs' e => ∃ i, Target fs k (.direct k i) ∧ AtPlace fs (.direct k i) fs' e ∧
      (fs.inodes k).size / 256 < 8)
    (fun i fs' => fs' = fs ∧ ∀ j, (fs.inodes k).size / 256 ≤ j → j < i → Full fs (.direct k j))
    ⟨rfl, by omega⟩ fun i t hi hn h => by
      obtain ⟨rfl, hall⟩ := h
      refine (direct_ends hw k i).mono (fun fs' h => ⟨h.1, fun j h1 h2 => ?_⟩)
        fun fs' e h => ⟨i, .direct hi (by omega) hall h.2, h.1, by omega⟩
      by_cases e : j = i
      · exact e ▸ h.2
      · exact hall j h1 (by omega)
  unfold getNextEntry
  dsimp only
  generalize forFrom (nextEntryDirect k) ((fs.inodes k).size / 256)
    (8 - (fs.inodes k).size / 256) fs = fl at hloop ⊢
  cases fl with
  | ret fs' e =>
    obtain ⟨i, ht, hat, h8⟩ := hloop
    cases hat with
    | full h => exact absurd h ht.not_full
    | found h hle hs => exact .found ht hle hs
    | short hlt hs => exact .short ht hlt hs fun hf => absurd hf.1 (by omega)
  | next fs' =>
    obtain ⟨rfl, hfull⟩ := hloop
    dsimp only
    by_cases h8 : (fs'.inodes k).size / 256 < 8
    · rw [nextEntrySingle, if_neg (by omega), nextEntryDouble_out (by omega)]
      exact .blocked (.inl ⟨h8, fun i h1 h2 => hfull i h1 (by omega)⟩)
    · by_cases h72 : (fs'.inodes k).size / 256 < 72
      · exact search_single hw (by omega) h72
      · rw [nextEntrySingle, if_neg (by omega)]
        by_cases h4168 : (fs'.inodes k).size / 256 < 4168
        · exact search_double hw (.inr ⟨rfl, by omega, h4168⟩)
        · rw [nextEntryDouble_out (by omega)]
          exact .blocked (.inr (.inr (by omega)))

/-! ## The counter stays a machine word -/

theorem word_kept : KeptByTaking Word where
  take _ _ _ _ ht := by
    obtain ⟨rfl, _⟩ := takeBlock_some ht
    exact u32Sub_lt _ _
  setPtr _ _ _ h := by rw [Word, setPtr_freeBlocks]; exact h

theorem strcpyAt_freeBlocks (fs : FileSys) (b a : Nat) (s : Str) :
    (fs.strcpyAt b a s).freeBlocks = fs.freeBlocks := by
  induction s generalizing fs a with
  | nil => rfl
  | cons c s ih => rw [FileSys.strcpyAt, ih]; rfl

theorem word_fillEntry {cur mode : Nat} {e : EntryPtr} {name : Str} {type : FileType} (h : Word fs) :
    Word (fillEntry fs cur e n name type mode) := by
  have e : (fillEntry fs cur e n name type mode).freeBlocks =
      ((allocateInode fs n).strcpyAt e.block (16 * e.slot) name).freeBlocks := rfl
  rw [Word, e, strcpyAt_freeBlocks]
  exact h

theorem word_clearing : KeptByClearing Word where
  setBlock _ _ _ h := h
  unlink _ _ _ h := by rw [Word, setPtr_freeBlocks]; exact h

theorem word_create {path : Str} {type : FileType} {mode : Nat} {mem : Scratch} {r : Int}
    (h : CreateResult fs path type mode mem fs' r) (hw : Word fs) : Word fs' := by
  cases h with
  | refused => exact hw
  | @noEntry cur _ _ _ _ _ hg =>
    have := word_kept.getNextEntry hw cur
    rw [hg] at this
    exact this
  | @filled cur _ _ _ _ _ _ hg =>
    have := word_kept.getNextEntry hw cur
    rw [hg] at this
    exact word_fillEntry this

theorem word_write (data : Bytes) : Kept k data fun w => Word w.fs where
  ensure _ _ _ h he := word_kept.ensureBlock h he
  put _ _ _ h _ := h

theorem word_removeFile (hw : Word fs) (k d : Nat) (filename : Str) :
    Word (removeFile fs k d filename) := by
  have h := word_clearing.clearEntry (keptByFreeing (fun _ _ _ => u32_lt _) hw k) d filename
  rw [removeFile_eq, Word]
  generalize clearEntryInCurrentDir (myClearInode fs k) d filename = fs₁ at h ⊢
  exact h

theorem word_reachable {ok : State → Op → Prop} (h : Reachable ok st) : Word st.discos := by
  obtain ⟨behind, buffer, h⟩ := h
  refine h.invariant (I := fun st => Word st.discos) ?_ fun st op _ hw => ?_
  · rw [initFileSys_discos]
    show 7931 < 2 ^ 32
    omega
  · have he := step_effect st op
    generalize (step st op).discos = fs' at he ⊢
    cases he with
    | idle => exact hw
    | create h => exact word_create h hw
    | mkdir h => exact word_create h hw
    | root => exact hw
    | unlink h =>
      cases h with
      | refused => exact hw
      | removed => exact word_removeFile hw _ _ _
    | chmod => exact hw
    | write => exact (word_write _).writeStages (fun _ _ h => h) hw

/-! ## When a file is created -/

/-- An inode other than the root is free. -/
def InodeFree (fs : FileSys) : Prop := ∃ n, 1 ≤ n ∧ n < 1024 ∧ (fs.inodes n).type = none

theorem getFreeInodeNum_isSome (h : fs.freeInodes ≠ 0) :
    (∃ n, getFreeInodeNum fs = some n) ↔ InodeFree fs := by
  unfold getFreeInodeNum InodeFree
  rw [if_neg h]
  constructor
  · rintro ⟨n, hn⟩
    obtain ⟨h1, h2, h3, _⟩ := firstIdx_eq_some.mp hn
    exact ⟨n, h1, by omega, by simpa using h3⟩
  · rintro ⟨n, h1, h2, h3⟩
    cases hf : firstIdx (fun i => (fs.inodes i).type == none) 1 1023 with
    | some m => exact ⟨m, rfl⟩
    | none =>
      have := firstIdx_eq_none.mp hf n h1 (by omega)
      simp [h3] at this

/-- The search for an entry leaves the free inodes alone. -/
theorem freeInode_after (h : fs.freeInodes ≠ 0) :
    (∃ n, getFreeInodeNum (getNextEntry fs k).1 = some n) ↔ InodeFree fs := by
  obtain ⟨hrec, hfree⟩ := getNextEntry_records fs k
  have htype : ∀ n, ((getNextEntry fs k).1.inodes n).type = (fs.inodes n).type := fun n =>
    congrArg Record.type (congrFun hrec n)
  rw [getFreeInodeNum_isSome (by rw [hfree]; exact h)]
  unfold InodeFree
  simp only [htype]

/-- The search for an entry of `k` comes to one. -/
def Finds (fs : FileSys) (k : Nat) : Prop :=
  ∃ p, Target fs k p ∧ (missing fs p ≤ avail fs ∨ Fallback fs k)

theorem search_isSome (hw : Word fs) (k : Nat) :
    (getNextEntry fs k).2.isSome = true ↔ Finds fs k := by
  have h := search hw k
  generalize getNextEntry fs k = r at h ⊢
  obtain ⟨fs', e⟩ := r
  cases h with
  | blocked hb => exact iff_of_false (by simp) fun ⟨_, ht, _⟩ => ht.not_blocked hb
  | @found p _ _ ht hle => exact iff_of_true rfl ⟨p, ht, .inl hle⟩
  | @other p _ _ ht _ _ hf => exact iff_of_true rfl ⟨p, ht, .inr hf⟩
  | @short p _ ht hlt _ hf =>
    refine iff_of_false (by simp) ?_
    rintro ⟨q, ht', hle | hf'⟩
    · obtain rfl := ht.unique ht'
      omega
    · exact hf hf'

/-- `rd_create` has an inode to give and the parent it cuts out of the path has
an entry. -/
structure Succeeds (fs : FileSys) (path : Str) (mem : Scratch) : Prop where
  inodes : fs.freeInodes ≠ 0
  blocks : fs.freeBlocks ≠ 0
  free : InodeFree fs
  finds : ∃ d, findIndex fs (splitPath path mem).1 = .inode d ∧ Finds fs d

theorem create_succeeds_iff (hw : Word fs) (path : Str) (type : FileType) (mode : Nat)
    (mem : Scratch) :
    (∃ fs', rdCreate fs path type mode mem = some (fs', 0)) ↔ Succeeds fs path mem := by
  unfold rdCreate
  by_cases hf : fs.freeInodes = 0
  · rw [if_pos hf]
    exact iff_of_false (by simp) fun h => h.inodes hf
  rw [if_neg hf]
  by_cases hb : fs.freeBlocks = 0
  · rw [if_pos hb]
    exact iff_of_false (by simp) fun h => h.blocks hb
  rw [if_neg hb]
  dsimp only
  cases hfind : findIndex fs (splitPath path mem).1 with
  | outside | missing =>
    refine iff_of_false (by simp) fun h => ?_
    obtain ⟨d, hd, -⟩ := h.finds
    rw [hfind] at hd
    cases hd
  | inode d =>
    have hsome := search_isSome hw d
    have hfree := freeInode_after (k := d) hf
    have hiff : Succeeds fs path mem ↔
        (getNextEntry fs d).2.isSome = true ∧ ∃ n, getFreeInodeNum (getNextEntry fs d).1 = some n := by
      rw [hsome, hfree]
      constructor
      · rintro ⟨-, -, hi, d', hd', hfinds⟩
        obtain rfl := Found.inode.inj (hfind.symm.trans hd')
        exact ⟨hfinds, hi⟩
      · exact fun ⟨hfinds, hi⟩ => ⟨hf, hb, hi, d, hfind, hfinds⟩
    rw [hiff]
    dsimp only
    generalize getNextEntry fs d = g
    obtain ⟨fs₁, e⟩ := g
    cases e with
    | none => simp
    | some e =>
      cases hn : getFreeInodeNum fs₁ with
      | none => simp [hn]
      | some n => simp [hn]

theorem create_returns {path : Str} {type : FileType} {mode : Nat} {mem : Scratch} {r : Int}
    (h : rdCreate fs path type mode mem = some (fs', r)) : r = -1 ∨ r = 0 := by
  cases rdCreate_result h with
  | refused | noEntry => exact .inl rfl
  | filled => exact .inr rfl

/-- Except for the root, `rd_mkdir` is `rd_create`. -/
theorem rdMkdir_eq (fs : FileSys) {path : Str} (hp : path ≠ [slash]) (mem : Scratch) :
    rdMkdir fs path mem = rdCreate fs path .dir 1 mem := by
  unfold rdMkdir
  rw [if_neg hp]
  cases hc : rdCreate fs path .dir 1 mem with
  | none => rfl
  | some x =>
    obtain ⟨fs', r⟩ := x
    rcases create_returns hc with rfl | rfl
    · rfl
    · rfl

/-! ## The calls that create files -/

section
variable {st : State} {op : Op}

theorem step_discos_create {path : Str} {type : FileType} {mode : Nat} {mem : Scratch} {r : Int}
    (h : rdCreate st.discos path type mode mem = some (fs', r)) :
    (step st (.create path type mode mem)).discos = fs' := by
  simp only [step, call, onImage, h, Option.map_some, Option.elim_some]

theorem step_discos_mkdir {path : Str} {mem : Scratch} {r : Int} (hroot : path ≠ [slash])
    (h : rdCreate st.discos path .dir 1 mem = some (fs', r)) :
    (step st (.mkdir path mem)).discos = fs' := by
  simp only [step, call, onImage, rdMkdir, if_neg hroot, h, Option.map_some, Option.elim_some]

theorem step_discos_root {mem : Scratch} (h : st.discos.freeInodes = 1024) :
    (step st (.mkdir [slash] mem)).discos = makeRoot st.discos := by
  simp only [step, call, onImage, rdMkdir, if_true, if_pos h, Option.map_some, Option.elim_some]
  rfl

/-- The ways such a call ends. -/
theorem creates_cases (hw : Word st.discos) {path : Str} {type : FileType} {mode : Nat}
    {mem : Scratch} (hop : Creates op path type mode mem) :
    (op = .mkdir [slash] mem ∧ ((step st op).discos = st.discos ∨
        st.discos.freeInodes = 1024 ∧ (step st op).discos = makeRoot st.discos)) ∨
      (op ≠ .mkdir [slash] mem ∧ ((¬ Succeeds st.discos path mem ∧ (step st op).discos = st.discos) ∨
        ∃ fs' r, rdCreate st.discos path type mode mem = some (fs', r) ∧
          (step st op).discos = fs')) := by
  have hsucc := create_succeeds_iff hw path type mode mem
  have hnone : rdCreate st.discos path type mode mem = none → ¬ Succeeds st.discos path mem := by
    intro hc hs
    obtain ⟨fs', h⟩ := hsucc.mpr hs
    rw [hc] at h
    cases h
  cases hop with
  | create =>
    refine .inr ⟨fun e => (by cases e), ?_⟩
    cases hc : rdCreate st.discos path type mode mem with
    | none => exact .inl ⟨hnone hc, by simp only [step, call, onImage, hc, Option.map_none, Option.elim_none]⟩
    | some x => exact .inr ⟨x.1, x.2, rfl, step_discos_create hc⟩
  | mkdir =>
    by_cases hroot : path = [slash]
    · subst hroot
      refine .inl ⟨rfl, ?_⟩
      by_cases hf : st.discos.freeInodes = 1024
      · exact .inr ⟨hf, step_discos_root hf⟩
      · refine .inl ?_
        simp only [step, call, onImage, rdMkdir, if_true, if_neg hf, Option.map_some,
          Option.elim_some]
    · refine .inr ⟨fun e => hroot (Op.mkdir.inj e).1, ?_⟩
      cases hc : rdCreate st.discos path .dir 1 mem with
      | none =>
        refine .inl ⟨hnone hc, ?_⟩
        simp only [step, call, onImage, rdMkdir, if_neg hroot, hc, Option.map_none, Option.elim_none]
      | some x => exact .inr ⟨x.1, x.2, rfl, step_discos_mkdir hroot hc⟩

end

end ToyOS.Ramdisk.Supply
