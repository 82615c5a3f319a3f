import ToyOS.Ramdisk.Atomicity
import ToyOS.Ramdisk.Frames
import ToyOS.Ramdisk.Tables

/-! # What happens to a regular file

Name operations work on whatever inode the parent path leads to. Where that is
a regular file, a search for an entry adds blocks to it, and a new or removed
entry changes its size.
-/
namespace ToyOS.Ramdisk.Integrity
open ToyOS.Lib.Loop ToyOS.Lib.CStrings ToyOS.Lib.Runs ToyOS.Ramdisk.Image ToyOS.Ramdisk.Blocks
open ToyOS.Ramdisk.Places ToyOS.Ramdisk.Ownership ToyOS.Ramdisk.Growth ToyOS.Ramdisk.Paths
open ToyOS.Ramdisk.Components ToyOS.Ramdisk.Directories ToyOS.Ramdisk.Slots ToyOS.Ramdisk.Namespace
open ToyOS.Ramdisk.Creating ToyOS.Ramdisk.Removing ToyOS.Ramdisk.Descriptors ToyOS.Ramdisk.System
open ToyOS.Ramdisk.Effects ToyOS.Ramdisk.BlockOwnership ToyOS.Ramdisk.Records ToyOS.Ramdisk.Supply
open ToyOS.Ramdisk.FullDirectory ToyOS.Ramdisk.Atomicity ToyOS.Ramdisk.Frames ToyOS.Ramdisk.Tables

variable {fs fs' fs₁ : FileSys} {k f seg i b : Nat} {p : Place} {path : Str} {mem : Scratch}
variable {type : FileType} {mode : Nat} {st : State} {op : Op} {e : Option EntryPtr}

/-! ## Which searches add a block to the inode -/

/-- The place needs an index block of the double level that is there: it is
taken, but not linked. -/
def Unlinks (fs : FileSys) : Place → Prop
  | .dleaf k i _ => ref fs (.double k) ≠ 0 ∧ ref fs (.index k i) = 0
  | _ => False

theorem getNextEntry_double (hs : DoubleSeg fs k seg) :
    getNextEntry fs k = nextEntryDouble fs k seg := by
  have h8 : ¬ (fs.inodes k).size / 256 < 8 := by
    unfold DoubleSeg at hs
    omega
  have hdirect : forFrom (nextEntryDirect k) ((fs.inodes k).size / 256)
      (8 - (fs.inodes k).size / 256) fs = .next fs := by
    rw [show 8 - (fs.inodes k).size / 256 = 0 by omega]
    rfl
  unfold getNextEntry
  dsimp only
  rw [hdirect]
  dsimp only
  rcases hs with ⟨rfl, h8, h72, hfull⟩ | ⟨rfl, h72, -⟩
  · have hr : ref fs (.single k) ≠ 0 := rooted_of_ref_ne hfull.1 _ _ rfl
    have hptr : fs.ptrAt (.indexBlock (blockOf (ref fs (.single k)))
        ((fs.inodes k).size / 256 - 8)) = ref fs (.sleaf k ((fs.inodes k).size / 256 - 8)) := by
      rw [ref_up (p := .sleaf k _) (r := .single k) rfl, under, if_neg hr]
    have hnone : getNextDirEntry fs
        (blockOf (ref fs (.sleaf k ((fs.inodes k).size / 256 - 8)))) = none := by
      unfold getNextDirEntry
      rw [Option.map_eq_none_iff, firstIdx_eq_none]
      intro j _ hj
      simpa using hfull.2 j (by omega)
    unfold nextEntrySingle
    rw [if_pos ⟨h8, h72⟩, ensure_there (s := .singleIndirect k) hr]
    dsimp only
    unfold getNextDirEntrySingle
    dsimp only
    rw [show fs.ptrAt (.singleIndirect k) = ref fs (.single k) from rfl, hptr, if_neg hfull.1, hnone]
  · rw [nextEntrySingle, if_neg (by omega)]

theorem doubleEntry_extends {j : Nat} (h : DoubleEntry fs k i j fs' e) (ho : Owned every fs)
    (hv : (Place.dleaf k i j).Valid) : Extends k fs fs' := by
  cases h with
  | leaf _ h => exact (h.extends ho hv).1
  | unlinked _ hx => exact hx
  | short _ hx => exact hx

/-- The inode has a pointer it did not have. -/
def GainsPointer (fs fs' : FileSys) (k : Nat) : Prop :=
  ∃ q, q.Valid ∧ q.node = k ∧ ref fs q = 0 ∧ ref fs' q ≠ 0

theorem gains_of_attach {fs₂ : FileSys} (a : Attach every p b fs fs₁) (hp : p.Valid)
    (hx : Extends p.node fs₁ fs₂) : GainsPointer fs fs₂ p.node := by
  refine ⟨p, hp, rfl, a.empty, ?_⟩
  have h0 : ref fs₁ p ≠ 0 := by
    rw [a.self]
    exact ptrTo_ne_zero b
  rwa [hx.keeps p hp fun _ => h0]

theorem gains_of_atLeaf (ho : Owned every fs) (hp : p.Valid) (h0 : ref fs p = 0)
    (hfree : fs.freeBlocks ≠ 0) (h : AtLeaf fs p fs' e) : GainsPointer fs fs' p.node := by
  cases h with
  | found hne => exact absurd h0 hne
  | fresh a => exact gains_of_attach a hp (.refl (a.owned ho hp trivial))
  | noBlock _ hf => exact absurd hf hfree
  | full hf => exact absurd h0 hf.1

/-- A missing root of a level is attached when a block is free. -/
theorem attach_root (ho : Owned every fs) (hp : p.Valid) (hu : p.up = none) (h0 : ref fs p = 0)
    (hfree : fs.freeBlocks ≠ 0) :
    ∃ fs₁ b, ensureBlock fs (slotOf fs p) = some fs₁ ∧ Attach every p b fs fs₁ := by
  have hr : Rooted fs p := fun r i h => by rw [hu] at h; cases h
  cases he : ensureBlock fs (slotOf fs p) with
  | none => exact absurd (ensureBlock_none ho hr he).2 hfree
  | some fs₁ =>
    rcases ensureBlock_cases ho hp trivial hr he with ⟨hne, -⟩ | ⟨b, a⟩
    · exact absurd h0 hne
    · exact ⟨fs₁, b, rfl, a⟩

section
variable (ho : Owned every fs) (hk : k < 1024) (hfree : fs.freeBlocks ≠ 0)
include ho hk hfree

theorem double_gains (hs : DoubleSeg fs k seg)
    (hm : missing fs (.dleaf k ((seg - 72) / 64) ((seg - 72) % 64)) ≠ 0)
    (hu : ¬ Unlinks fs (.dleaf k ((seg - 72) / 64) ((seg - 72) % 64))) :
    GainsPointer fs (nextEntryDouble fs k seg).1 k := by
  have hrange := hs.range
  have hv : (Place.dleaf k ((seg - 72) / 64) ((seg - 72) % 64)).Valid :=
    ⟨hk, by omega, Nat.mod_lt _ (by omega)⟩
  have hup : (Place.index k ((seg - 72) / 64)).up = some (.double k, (seg - 72) / 64) := rfl
  unfold nextEntryDouble
  rw [if_pos hrange]
  by_cases hd : ref fs (.double k) = 0
  · obtain ⟨fs₁, b, he, a⟩ := attach_root (p := .double k) ho hk rfl hd hfree
    have he : ensureBlock fs (.doubleIndirect k) = some fs₁ := he
    have hx₁ := a.extends ho (p := .double k) hk
    rw [he]
    dsimp only
    rw [show fs₁.ptrAt (.doubleIndirect k) = ptrTo b from a.self, blockOf_ptrTo]
    refine gains_of_attach (p := .double k) a hk ?_
    obtain ⟨fs', b', e, hx, -⟩ | ⟨fs', e, hx, -⟩ :=
      getNextDirEntryDouble_missing (k := k) hx₁.owned (c := b) (seg - 72)
        (ToyOS.Lib.Words.load_zero fun x _ _ => a.zero x)
    · rw [e]
      exact hx
    · rw [e]
      exact hx
  · have hi : ref fs (.index k ((seg - 72) / 64)) ≠ 0 := fun h => hu ⟨hd, h⟩
    have hptr : fs.ptrAt (.indexBlock (blockOf (ref fs (.double k))) ((seg - 72) / 64)) =
        ref fs (.index k ((seg - 72) / 64)) := by rw [ref_up hup, under, if_neg hd]
    have hat := getNextDirEntrySingle_atLeaf ho hv rfl hi
    rw [ensure_there (s := .doubleIndirect k) hd]
    dsimp only
    rw [show fs.ptrAt (.doubleIndirect k) = ref fs (.double k) from rfl]
    unfold getNextDirEntryDouble
    dsimp only
    rw [hptr, if_neg hi]
    refine gains_of_atLeaf (p := .dleaf k _ _) ho hv (ref_of_missing_dleaf hm) hfree hat

theorem single_gains (h8 : 8 ≤ (fs.inodes k).size / 256) (h72 : (fs.inodes k).size / 256 < 72)
    (hm : missing fs (.sleaf k ((fs.inodes k).size / 256 - 8)) ≠ 0) :
    GainsPointer fs (nextEntrySingle fs k ((fs.inodes k).size / 256)).1 k := by
  obtain ⟨i, hi⟩ : ∃ i, (fs.inodes k).size / 256 - 8 = i := ⟨_, rfl⟩
  rw [hi] at hm
  have hv : (Place.sleaf k i).Valid := ⟨hk, by omega⟩
  have hup : (Place.sleaf k i).up = some (.single k, i) := rfl
  unfold nextEntrySingle
  rw [if_pos ⟨h8, h72⟩, hi]
  -- what follows a linked index block only adds to it
  have hrest : ∀ fs₁ : FileSys, Owned every fs₁ → ref fs₁ (.single k) ≠ 0 →
      ∀ r, getNextDirEntrySingle fs₁ (blockOf (ref fs₁ (.single k))) i = r →
        AtLeaf fs₁ (.sleaf k i) r.1 r.2 ∧ Extends k fs₁ r.1 ∧
          Extends k fs₁ (nextEntryDouble r.1 k 72).1 := by
    intro fs₁ ho₁ hne r hr
    subst hr
    have hat := getNextDirEntrySingle_atLeaf ho₁ hv hup hne
    have hx := (hat.extends ho₁ hv).1
    exact ⟨hat, hx, hx.trans (doubleEntry_extends (nextEntryDouble_spec hx.owned hk (Nat.le_refl 72)
      (by omega)) hx.owned ⟨hk, by omega, by omega⟩)⟩
  by_cases hr : ref fs (.single k) = 0
  · obtain ⟨fs₁, b, he, a⟩ := attach_root (p := .single k) ho hk rfl hr hfree
    have he : ensureBlock fs (.singleIndirect k) = some fs₁ := he
    have hne : ref fs₁ (.single k) ≠ 0 := by
      rw [a.self]
      exact ptrTo_ne_zero b
    have hx := hrest fs₁ (a.owned ho (p := .single k) hk trivial) hne _ rfl
    rw [he]
    refine gains_of_attach (p := .single k) a hk ?_
    rw [show ref fs₁ (.single k) = fs₁.ptrAt (.singleIndirect k) from rfl] at hx
    dsimp only
    generalize getNextDirEntrySingle fs₁ (blockOf (fs₁.ptrAt (.singleIndirect k))) i = r at hx ⊢
    obtain ⟨fs₂, _ | e⟩ := r
    · exact hx.2.2
    · exact hx.2.1
  · have hz : ref fs (.sleaf k i) = 0 := by
      by_contra hz
      rw [missing, absent_there hr, absent_there hz] at hm
      exact hm rfl
    rw [ensure_there (s := .singleIndirect k) hr]
    dsimp only
    rw [show fs.ptrAt (.singleIndirect k) = ref fs (.single k) from rfl]
    have hat := (hrest fs ho hr _ rfl).1
    generalize getNextDirEntrySingle fs (blockOf (ref fs (.single k))) i = r at hat ⊢
    obtain ⟨fs₂, e⟩ := r
    dsimp only at hat
    cases hat with
    | found hne => exact absurd hz hne
    | fresh a => exact gains_of_attach (p := .sleaf k i) a hv (.refl (a.owned ho hv trivial))
    | noBlock _ hf => exact absurd hf hfree
    | full hf => exact absurd hz hf.1

/-- A search that needs a block links one, unless it is for a missing index
block of the double level. -/
theorem search_gains (ht : Target fs k p) (hm : missing fs p ≠ 0) (hu : ¬ Unlinks fs p) :
    GainsPointer fs (getNextEntry fs k).1 k := by
  cases ht with
  | double hs hn =>
    rw [getNextEntry_double hs]
    exact double_gains ho hk hfree hs hm hu
  | single h8 h72 hn =>
    have hdirect : forFrom (nextEntryDirect k) ((fs.inodes k).size / 256)
        (8 - (fs.inodes k).size / 256) fs = .next fs := by
      rw [show 8 - (fs.inodes k).size / 256 = 0 by omega]
      rfl
    unfold getNextEntry
    dsimp only
    rw [hdirect]
    exact single_gains ho hk hfree h8 h72 hm
  | @direct i h0 hi hfull hn =>
    have ht : Target fs k (.direct k i) := .direct h0 hi hfull hn
    have hz : ref fs (.direct k i) = 0 := by
      by_contra hz
      rw [missing, absent_there hz] at hm
      exact hm rfl
    have hloop := forFrom_ends (a := (fs.inodes k).size / 256) (n := 8 - (fs.inodes k).size / 256)
      (f := nextEntryDirect k) (R := fun fs' e => AtLeaf fs (.direct k i) fs' e)
      (fun j fs' => fs' = fs ∧ ∀ j', (fs.inodes k).size / 256 ≤ j' → j' < j →
        Full fs (.direct k j')) ⟨rfl, by omega⟩ fun j t hj hlt h => by
        obtain ⟨rfl, hall⟩ := h
        refine (nextEntryDirect_ends ho hk (by omega)).mono (fun fs' h => ⟨h.1, fun j' h1 h2 => ?_⟩)
          fun fs' e h => ?_
        · by_cases e : j' = j
          · exact e ▸ h.2
          · exact hall j' h1 (by omega)
        · have hj' : Target t k (.direct k j) := .direct hj (by omega) hall h.2
          rw [← hj'.unique ht]
          exact h.1
    unfold getNextEntry
    dsimp only
    generalize forFrom (nextEntryDirect k) ((fs.inodes k).size / 256)
      (8 - (fs.inodes k).size / 256) fs = fl at hloop ⊢
    cases fl with
    | ret fs' e => exact gains_of_atLeaf (p := .direct k i) ho ⟨hk, hi⟩ hz hfree hloop
    | next fs' => exact absurd (hloop.2 i h0 (by omega)) hn

end

/-- Any other search leaves the pointers of the inode alone. -/
theorem search_keeps (ho : Owned every fs) (ht : Target fs k p)
    (h : missing fs p = 0 ∨ Unlinks fs p) {q : Place} (hq : q.Valid) :
    ref (getNextEntry fs k).1 q = ref fs q := by
  rcases h with hm | hu
  · have hs := search ho.freeBlocks_lt k
    generalize getNextEntry fs k = r at hs ⊢
    obtain ⟨fs', e⟩ := r
    cases hs with
    | blocked hb => exact absurd hb ht.not_blocked
    | found ht' _ hs =>
      obtain rfl := ht.unique ht'
      rw [hs.same hm]
    | other ht' hlt | short ht' hlt =>
      obtain rfl := ht.unique ht'
      omega
  · cases ht with
    | direct | single => exact hu.elim
    | @double seg hs hn =>
      have hup : (Place.index k ((seg - 72) / 64)).up = some (.double k, (seg - 72) / 64) := rfl
      rw [getNextEntry_double hs, nextEntryDouble, if_pos hs.range,
        ensure_there (s := .doubleIndirect k) hu.1]
      dsimp only
      rw [show fs.ptrAt (.doubleIndirect k) = ref fs (.double k) from rfl]
      have hptr : fs.ptrAt (.indexBlock (blockOf (ref fs (.double k))) ((seg - 72) / 64)) = 0 := by
        rw [← hu.2, ref_up hup, under, if_neg hu.1]
      obtain ⟨fs', b', e, -, -, -, -, hr⟩ | ⟨fs', e, -, -, -, hr⟩ :=
        getNextDirEntryDouble_missing (k := k) ho (seg - 72) hptr
      · rw [e]
        exact hr q hq
      · rw [e]
        exact hr q hq

/-! ## Creating a file below a regular file -/

theorem avail_owned (ho : Owned every fs) : avail fs = fs.freeBlocks := by
  unfold avail
  exact min_eq_left ho.counted

theorem missing_of_unlinks (h : Unlinks fs p) : missing fs p = 2 := by
  cases p with
  | dleaf k i j =>
    have hz : ref fs (.dleaf k i j) = 0 := by
      rw [ref_up (p := .dleaf k i j) (r := .index k i) rfl, h.2]
      rfl
    rw [missing, absent_there h.1, absent_null h.2, absent_null hz]
  | _ => exact h.elim

/-- Nothing makes up for a missing index block. -/
theorem not_fallback_of_unlinks (ht : Target fs k p) (hu : Unlinks fs p) : ¬ Fallback fs k := by
  rintro ⟨h8, h72, fs₁, he, h1, -⟩
  cases ht with
  | direct | single => exact hu.elim
  | double hs =>
    rcases hs with ⟨rfl, -, -, hf⟩ | ⟨rfl, h, -⟩
    · have hr : ref fs (.single k) ≠ 0 := rooted_of_ref_ne hf.1 _ _ rfl
      rw [ensure_there (s := .singleIndirect k) hr] at he
      obtain rfl := Option.some.inj he
      refine h1 ?_
      rw [ref_up (p := .dleaf k 0 0) (r := .index k 0) rfl, hu.2]
      rfl
    · omega

/-- `rd_create` below `f` gives up before the search, or the search leaves the
pointers of `f` alone and no entry is filled in. -/
def Quiet (fs : FileSys) (f : Nat) : Prop :=
  fs.freeInodes = 0 ∨ fs.freeBlocks = 0 ∨ Blocked fs f ∨
    ∃ p, Target fs f p ∧ (missing fs p = 0 ∧ ¬ InodeFree fs ∨
      Unlinks fs p ∧ (fs.freeBlocks = 1 ∨ ¬ InodeFree fs))

theorem u32_add_ne (x : Nat) : u32 (x + 16) ≠ x := by
  unfold u32
  omega

theorem u32Sub_ne (x : Nat) : u32Sub x 16 ≠ x := by
  unfold u32Sub toU32
  omega

/-- The search below `f` from the counters on. -/
theorem search_quiet (ho : Owned every fs) (hf : f < 1024) (hi : fs.freeInodes ≠ 0)
    (hb : fs.freeBlocks ≠ 0) :
    ((∀ q, q.Valid → q.node = f → ref (getNextEntry fs f).1 q = ref fs q) ∧
      ¬ (Finds fs f ∧ InodeFree fs)) ↔ Quiet fs f := by
  have hav := avail_owned ho
  have hs := search ho.freeBlocks_lt f
  unfold Quiet
  simp only [hi, hb, false_or]
  by_cases hblocked : Blocked fs f
  · refine iff_of_true ⟨fun q hq _ => ?_, fun h => ?_⟩ (.inl hblocked)
    · generalize getNextEntry fs f = r at hs ⊢
      obtain ⟨fs', e⟩ := r
      cases hs with
      | blocked => rfl
      | found ht | other ht | short ht => exact absurd hblocked ht.not_blocked
    · obtain ⟨⟨p, ht, -⟩, -⟩ := h
      exact ht.not_blocked hblocked
  rw [or_iff_right hblocked]
  obtain ⟨p, ht⟩ : ∃ p, Target fs f p := by
    generalize (getNextEntry fs f).1 = fs', (getNextEntry fs f).2 = e at hs
    cases hs with
    | blocked h => exact absurd h hblocked
    | found ht | other ht | short ht => exact ⟨_, ht⟩
  by_cases hkeep : missing fs p = 0 ∨ Unlinks fs p
  · rw [and_iff_right fun q hq _ => search_keeps ho ht hkeep hq]
    constructor
    · intro hno
      refine ⟨p, ht, ?_⟩
      rcases hkeep with hm | hu
      · exact .inl ⟨hm, fun hfree => hno ⟨⟨p, ht, .inl (by omega)⟩, hfree⟩⟩
      · have hm := missing_of_unlinks hu
        refine .inr ⟨hu, ?_⟩
        by_cases h1 : fs.freeBlocks = 1
        · exact .inl h1
        · exact .inr fun hfree => hno ⟨⟨p, ht, .inl (by omega)⟩, hfree⟩
    · rintro ⟨q, hq, h⟩ ⟨⟨r, hr, hfinds⟩, hfree⟩
      obtain rfl := ht.unique hq
      obtain rfl := ht.unique hr
      rcases h with ⟨-, hno⟩ | ⟨hu, h1 | hno⟩
      · exact hno hfree
      · have hm := missing_of_unlinks hu
        rcases hfinds with hle | hfall
        · omega
        · exact not_fallback_of_unlinks ht hu hfall
      · exact hno hfree
  · rw [not_or] at hkeep
    refine iff_of_false (fun h => ?_) ?_
    · obtain ⟨q, hq, hn, h0, h1⟩ := search_gains ho hf hb ht hkeep.1 hkeep.2
      rw [h.1 q hq hn] at h1
      exact h1 h0
    · rintro ⟨q, hq, h⟩
      obtain rfl := ht.unique hq
      rcases h with ⟨hm, -⟩ | ⟨hu, -⟩
      · exact hkeep.1 hm
      · exact hkeep.2 hu

theorem sameFile_search (hx : Extends f fs fs') :
    SameFile fs fs' f ↔ ∀ q, q.Valid → q.node = f → ref fs' q = ref fs q :=
  ⟨fun h => h.ref, fun h => ⟨hx.size, h, fun q hq _ hl h0 => hx.leaves q hq hl h0⟩⟩

theorem create_same_iff {r : Int} (ho : Owned every fs) (hf : f < 1024)
    (htype : (fs.inodes f).type ≠ none) (hfit : NameFits fs path mem)
    (hc : rdCreate fs path type mode mem = some (fs', r)) :
    SameFile fs fs' f ↔ (findIndex fs (splitPath path mem).1 = .inode f → Quiet fs f) := by
  by_cases hp : findIndex fs (splitPath path mem).1 = .inode f
  swap
  · exact iff_of_true (sameFile_create (rdCreate_result hc) ho hfit htype hp) fun h => absurd h hp
  unfold rdCreate at hc
  by_cases hi : fs.freeInodes = 0
  · rw [if_pos hi] at hc
    rw [← (Prod.mk.inj (Option.some.inj hc)).1]
    exact iff_of_true .refl fun _ => .inl hi
  by_cases hb : fs.freeBlocks = 0
  · rw [if_neg hi, if_pos hb] at hc
    rw [← (Prod.mk.inj (Option.some.inj hc)).1]
    exact iff_of_true .refl fun _ => .inr (.inl hb)
  rw [if_neg hi, if_neg hb] at hc
  dsimp only at hc
  rw [hp] at hc
  dsimp only at hc
  rw [← search_quiet ho hf hi hb, ← search_isSome ho.freeBlocks_lt f,
    ← freeInode_after (k := f) hi]
  have hrec := getNextEntry_records fs f
  have hnext : NextEntry fs f (getNextEntry fs f).1 (getNextEntry fs f).2 :=
    getNextEntry_next ho hf rfl
  have hx := hnext.extends ho
  clear hnext
  generalize getNextEntry fs f = g at hc hrec hx ⊢
  obtain ⟨fs₁, e⟩ := g
  have hsame := sameFile_search hx
  cases e with
  | none =>
    obtain ⟨rfl, -⟩ := Prod.mk.inj (Option.some.inj hc)
    simpa [hp] using hsame
  | some e =>
    dsimp only at hc
    cases hn : getFreeInodeNum fs₁ with
    | none =>
      rw [hn] at hc
      obtain ⟨rfl, -⟩ := Prod.mk.inj (Option.some.inj hc)
      simpa [hp, hn] using hsame
    | some n =>
      rw [hn] at hc
      obtain ⟨rfl, -⟩ := Prod.mk.inj (Option.some.inj hc)
      refine iff_of_false (fun h => ?_) fun h => (h hp).2 ⟨rfl, n, rfl⟩
      have hfn : f ≠ n := by
        rintro rfl
        have hfree := (newInode_of_get hn).free
        rw [show (fs₁.inodes f).type = (fs.inodes f).type from
          congrArg Record.type (congrFun hrec.1 f)] at hfree
        exact htype hfree
      have hrecord := congrFun (fillEntry_record fs₁ f e n (splitPath path mem).2 type mode) f
      rw [createdRecord, if_neg hfn, if_pos rfl] at hrecord
      have hsize := (congrArg Record.size hrecord).symm.trans h.size
      rw [← hx.size] at hsize
      exact u32_add_ne _ hsize

/-! ## The law -/

/-- `rd_create` on the path changes `f`, or enters a file below `f` elsewhere. -/
def HarmsByCreating (fs : FileSys) (path : Str) (mem : Scratch) (f : Nat) : Prop :=
  (findIndex fs (splitPath path mem).1 = .inode f ∧ ¬ Quiet fs f) ∨
    ∃ cs c, path = render (cs ++ [c]) ∧ findIndex fs (render cs) = .inode f ∧ Succeeds fs path mem

/-- The calls that change the regular file `f`, or create a file below it. -/
def Harms (st : State) (f : Nat) : Op → Prop
  | .create path _ _ mem => HarmsByCreating st.discos path mem f
  | .mkdir path mem => path ≠ [slash] ∧ HarmsByCreating st.discos path mem f
  | .unlink path mem => path ≠ [slash] ∧ (∃ k, findIndex st.discos path = .inode k ∧
      ¬ ((st.discos.inodes k).type = some .dir ∧ 0 < (st.discos.inodes k).size)) ∧
        findIndex st.discos (splitPath path mem).1 = .inode f
  | _ => False

/-- The call leaves `f` as it is, and where it creates a path whose parent is `f`
it returns -1. -/
def Spares (st : State) (op : Op) (f : Nat) : Prop :=
  SameFile st.discos (step st op).discos f ∧
    ∀ path type mode mem cs c, Creates op path type mode mem → path = render (cs ++ [c]) →
      findIndex st.discos (render cs) = .inode f → ∀ st' r, call st op = some (st', r) → r = -1

/-- The calls the law is about. -/
def Spared (st : State) (f : Nat) : Op → Prop
  | .write _ _ _ _ => False
  | .unlink path _ => findIndex st.discos path ≠ .inode f
  | _ => True

theorem create_spares_iff (ho : Owned every fs) (hf : f < 1024)
    (htype : (fs.inodes f).type ≠ none) (hfit : NameFits fs path mem) :
    ((∀ fs' r, rdCreate fs path type mode mem = some (fs', r) → SameFile fs fs' f) ∧
      ∀ cs c, path = render (cs ++ [c]) → findIndex fs (render cs) = .inode f →
        ∀ fs' r, rdCreate fs path type mode mem = some (fs', r) → r = -1) ↔
      ¬ HarmsByCreating fs path mem f := by
  have hsucc := create_succeeds_iff ho.freeBlocks_lt path type mode mem
  unfold HarmsByCreating
  rw [not_or, not_and_not_right]
  refine and_congr ?_ ?_
  · constructor
    · intro h hp
      cases hc : rdCreate fs path type mode mem with
      | some x => exact (create_same_iff ho hf htype hfit hc).mp (h x.1 x.2 hc) hp
      | none =>
        unfold rdCreate at hc
        split at hc
        · rename_i hi
          exact .inl hi
        · split at hc
          · rename_i hb
            exact .inr (.inl hb)
          · dsimp only at hc
            rw [hp] at hc
            dsimp only at hc
            split at hc
            · cases hc
            · split at hc <;> cases hc
    · intro h fs' r hc
      exact (create_same_iff ho hf htype hfit hc).mpr h
  · constructor
    · rintro h ⟨cs, c, hpath, hd, hs⟩
      obtain ⟨fs', hc⟩ := hsucc.mpr hs
      have := h cs c hpath hd fs' 0 hc
      omega
    · intro h cs c hpath hd fs' r hc
      rcases create_returns hc with hr | rfl
      · exact hr
      · exact absurd ⟨cs, c, hpath, hd, hsucc.mp ⟨fs', hc⟩⟩ h

theorem creates_spares_iff {r : Option (FileSys × Int)} (ho : Owned every st.discos) (hf : f < 1024)
    (htype : (st.discos.inodes f).type ≠ none) (hfit : NameFits st.discos path mem)
    (hop : Creates op path type mode mem) (hc : call st op = onImage st r)
    (hr : r = rdCreate st.discos path type mode mem) :
    Spares st op f ↔ ¬ HarmsByCreating st.discos path mem f := by
  rw [← create_spares_iff ho hf htype hfit]
  refine and_congr ((step_onImage (P := fun fs' => SameFile st.discos fs' f) hc .refl).trans
    (by rw [hr])) ?_
  rw [← hr]
  have hunique : ∀ {path' type' mode' mem'}, Creates op path' type' mode' mem' → path' = path := by
    intro path' type' mode' mem' h
    cases hop with
    | create => cases h; rfl
    | mkdir => cases h; rfl
  constructor
  · intro h cs c hpath hd fs' v hv
    exact h path type mode mem cs c hop hpath hd _ v (by rw [hc]; exact onImage_eq.mpr ⟨fs', hv, rfl⟩)
  · intro h path' type' mode' mem' cs c hop' hpath hd st' v hv
    rw [hc] at hv
    obtain ⟨fs', hv, -⟩ := onImage_eq.mp hv
    exact h cs c (hunique hop' ▸ hpath) hd fs' v hv

/-- A call other than one that creates a file makes no promise about a return value. -/
theorem spares_iff_same (h : ∀ path type mode mem, ¬ Creates op path type mode mem) :
    Spares st op f ↔ SameFile st.discos (step st op).discos f :=
  and_iff_left fun path type mode mem _ _ hop => absurd hop (h path type mode mem)

theorem unlink_spares_iff (ho : Owned every st.discos) (hfile : findIndex st.discos path ≠ .inode f) :
    SameFile st.discos (step st (.unlink path mem)).discos f ↔ ¬ Harms st f (.unlink path mem) := by
  have hstep := step_onImage (P := fun fs' => SameFile st.discos fs' f)
    (rfl : call st (.unlink path mem) = onImage st (rdUnlink st.discos path mem)) .refl
  refine hstep.trans ?_
  constructor
  · rintro h ⟨hroot, ⟨k, hk, hdir⟩, hd⟩
    have hr : rdUnlink st.discos path mem =
        some (removeFile st.discos k f (splitPath path mem).2, 0) := by
      unfold rdUnlink
      rw [if_neg hroot, hk]
      dsimp only
      rw [if_neg hdir, hd]
    have hsize := (h _ _ hr).size
    have hne : f ≠ k := fun e => hfile (e ▸ hk)
    have hrecord := congrFun (removeFile_record st.discos k f (splitPath path mem).2).1 f
    rw [removedRecord, if_neg hne, if_pos rfl] at hrecord
    exact u32Sub_ne _ ((congrArg Record.size hrecord).symm.trans hsize)
  · intro h fs' v hv
    have hres := rdUnlink_result hv
    cases hres with
    | refused => exact .refl
    | removed hk hd hroot hf hdir hp =>
      exact sameFile_unlink (rdUnlink_result hv) ho hfile fun e => h ⟨hroot, ⟨_, hf, hdir⟩, e⟩

theorem same_of_idle (h : ∀ fs', Effect st op fs' → fs' = st.discos) :
    SameFile st.discos (step st op).discos f := by
  rw [h _ (step_effect st op)]
  exact .refl

/-- In every run on paths with components of 1 to 13 bytes, a call spares a
regular file exactly when it does not work on it as a directory. -/
theorem file_spared_iff (h : Reachable (fun _ => WellNamed) st) (hf : f < 1024)
    (htype : (st.discos.inodes f).type = some .reg) (hop : WellNamed op) (hs : Spared st f op) :
    Spares st op f ↔ ¬ Harms st f op := by
  have ho := wellNamed_owned h
  have hlive : (st.discos.inodes f).type ≠ none := by
    rw [htype]
    exact Option.some_ne_none _
  have hfits := wellNamed_fits hop ho
  cases op with
  | create path type mode mem => exact creates_spares_iff ho hf hlive hfits .create rfl rfl
  | mkdir path mem =>
    by_cases hp : path = [slash]
    · subst hp
      refine iff_of_true ⟨?_, ?_⟩ fun h => h.1 rfl
      · refine (step_onImage (P := fun fs' => SameFile st.discos fs' f) rfl .refl).mpr fun fs' v hv => ?_
        unfold rdMkdir at hv
        rw [if_pos rfl] at hv
        split at hv
        · obtain ⟨rfl, -⟩ := Prod.mk.inj (Option.some.inj hv)
          refine ⟨?_, fun q _ _ => makeRoot_ref st.discos q, fun _ _ _ _ _ => rfl⟩
          by_cases h0 : f = 0
          · subst h0
            rw [setInode_inodes_self]
          · rw [setInode_inodes_ne _ _ h0]
        · obtain ⟨rfl, -⟩ := Prod.mk.inj (Option.some.inj hv)
          exact .refl
      · rintro path type mode mem cs c hop hpath -
        cases hop
        exact absurd hpath.symm (render_ne_root (by simp))
    · exact (creates_spares_iff ho hf hlive hfits .mkdir rfl (rdMkdir_eq _ hp mem)).trans
        (not_congr (and_iff_right hp).symm)
  | unlink path mem =>
    exact (spares_iff_same fun _ _ _ _ h => by cases h).trans (unlink_spares_iff ho hs)
  | write => exact hs.elim
  | chmod path mode =>
    refine iff_of_true ((spares_iff_same fun _ _ _ _ h => by cases h).mpr ?_) id
    refine (step_onImage (P := fun fs' => SameFile st.discos fs' f) rfl .refl).mpr fun fs' v hv => ?_
    unfold rdChmod at hv
    split at hv
    · obtain ⟨rfl, -⟩ := Prod.mk.inj (Option.some.inj hv)
      exact .refl
    · split at hv
      · cases hv
      · obtain ⟨rfl, -⟩ := Prod.mk.inj (Option.some.inj hv)
        exact .refl
      · rename_i k hk
        obtain ⟨rfl, -⟩ := Prod.mk.inj (Option.some.inj hv)
        refine ⟨?_, fun q _ _ => ref_setInode fun _ => ⟨rfl, rfl, rfl⟩, fun _ _ _ _ _ => rfl⟩
        by_cases hk : f = k
        · subst hk
          rw [setInode_inodes_self]
        · rw [setInode_inodes_ne _ _ hk]
  | «open» | lseek | read | close =>
    refine iff_of_true ((spares_iff_same fun _ _ _ _ h => by cases h).mpr ?_) id
    exact same_of_idle fun fs' h => by cases h; rfl

/-- Closing a descriptor spares `/a`. -/
theorem file_spared_iff_oneFile :
    Spares oneFile (.close 0 5) 1 ↔ ¬ Harms oneFile 1 (.close 0 5) :=
  file_spared_iff ⟨_, _, .step .start ⟨[nameA], rfl⟩⟩ (by decide) (by decide +kernel) trivial trivial

/-- `rd_create("/a/a")` succeeds below the regular file `/a`, which is 16 bytes
long then. -/
theorem file_below_file : Reachable (fun _ => WellNamed) oneFile ∧
    findIndex oneFile.discos (render [nameA]) = .inode 1 ∧
    (oneFile.discos.inodes 1).type = some .reg ∧ (oneFile.discos.inodes 1).size = 0 ∧
    WellNamed (.create (render [nameA, nameA]) .reg RW zeroed) ∧
    ∃ st', call oneFile (.create (render [nameA, nameA]) .reg RW zeroed) = some (st', 0) ∧
      (st'.discos.inodes 1).size = 16 := by
  refine ⟨⟨_, _, .step .start ⟨[nameA], rfl⟩⟩, by decide +kernel, by decide +kernel,
    by decide +kernel, ⟨[nameA, nameA], rfl⟩, ?_⟩
  have hvalues : (call oneFile (.create (render [nameA, nameA]) .reg RW zeroed)).map
      (fun r => (r.2, (r.1.discos.inodes 1).size)) = some (0, 16) := by decide +kernel
  obtain ⟨⟨st', r⟩, hc, he⟩ := Option.map_eq_some_iff.mp hvalues
  obtain ⟨rfl, hsize⟩ := Prod.mk.inj he
  exact ⟨st', hc, hsize⟩

end ToyOS.Ramdisk.Integrity
