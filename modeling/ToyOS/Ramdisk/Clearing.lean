import ToyOS.Ramdisk.Scanning

/-! # Clearing a name in a directory

`Cleared S` is what may happen to the image meanwhile: the places in `S`, all of
directory `d`, have let go of their blocks, and blocks of `d` have changed.
`Scanned` adds what is known after `n` blocks of a level.
-/
namespace ToyOS.Ramdisk.Clearing
open ToyOS.Lib.Loop ToyOS.Lib.Words ToyOS.Lib.Bits ToyOS.Lib.Ownership ToyOS.Lib.CStrings
open ToyOS.Ramdisk.Image ToyOS.Ramdisk.Blocks ToyOS.Ramdisk.Places ToyOS.Ramdisk.Allocation
open ToyOS.Ramdisk.Ownership ToyOS.Ramdisk.Directories ToyOS.Ramdisk.Scanning

variable {live : Nat → Prop} {fs₀ fs : FileSys} {S T : Place → Prop} {p q : Place} {d : Nat}

structure Cleared (live : Nat → Prop) (d : Nat) (S : Place → Prop) (fs₀ fs : FileSys) : Prop where
  node : ∀ q, S q → q.node = d
  gone : ∀ q, q.Valid → live q.node → S q → ref fs q = 0
  kept : ∀ q, q.Valid → live q.node → ¬ S q → ref fs q = ref fs₀ q
  bits : ∀ c, bit fs.bitmap c = true ↔
    bit fs₀.bitmap c = true ∧ ∀ q, q.Valid → S q → ref fs₀ q ≠ ptrTo c
  blocks : ∀ q, q.Valid → live q.node → q.node ≠ d → ref fs₀ q ≠ 0 →
    fs.dataBlocks (blockOf (ref fs₀ q)) = fs₀.dataBlocks (blockOf (ref fs₀ q))
  inodes : ∀ k, k ≠ d → fs.inodes k = fs₀.inodes k
  type : (fs.inodes d).type = (fs₀.inodes d).type
  size : (fs.inodes d).size = (fs₀.inodes d).size
  access : (fs.inodes d).access = (fs₀.inodes d).access
  freeBlocks : fs.freeBlocks = fs₀.freeBlocks
  freeInodes : fs.freeInodes = fs₀.freeInodes

theorem Cleared.refl : Cleared live d (fun _ => False) fs₀ fs₀ :=
  ⟨fun _ h => h.elim, fun _ _ _ h => h.elim, fun _ _ _ _ => rfl, fun c => by simp,
    fun _ _ _ _ _ => rfl, fun _ _ => rfl, rfl, rfl, rfl, rfl, rfl⟩

theorem Cleared.congr (h : Cleared live d S fs₀ fs) (hST : ∀ q, S q ↔ T q) :
    Cleared live d T fs₀ fs := by
  rwa [funext fun q => propext (hST q)] at h

/-- A place with a pointer has the one it had. -/
theorem Cleared.ref_eq (h : Cleared live d S fs₀ fs) (hq : q.Valid) (lq : live q.node)
    (h0 : ref fs q ≠ 0) : ref fs q = ref fs₀ q :=
  h.kept q hq lq fun hS => h0 (h.gone q hq lq hS)

/-- The pointers after a place with nothing below it is emptied. -/
theorem giveBack_ref (hpriv : Private live fs) (hp : p.Valid) (lp : live p.node)
    (h0 : ref fs p ≠ 0) (hchild : ∀ q i, q.up = some (p, i) → q.Valid → ref fs q = 0) :
    ref (giveBack fs (slotOf fs p)) p = 0 ∧
      ∀ q, q.Valid → live q.node → q ≠ p → ref (giveBack fs (slotOf fs p)) q = ref fs q := by
  obtain ⟨fs₁, h₁, hfs₁⟩ : ∃ fs₁ : FileSys, (∀ q, ref fs₁ q = ref fs q) ∧
      giveBack fs (slotOf fs p) = fs₁.setPtr (slotOf fs₁ p) 0 := by
    refine ⟨_, fun q => @ref_of_eq fs { fs with
      bitmap := clearBitmap fs.bitmap (blockOf (fs.ptrAt (slotOf fs p))) } rfl rfl q, ?_⟩
    cases p <;> rfl
  have hpriv₁ : Private live fs₁ := by
    intro q r hq lq hr lr hq0 he
    rw [h₁] at hq0 he
    exact hpriv q r hq lq hr lr hq0 (he.trans (h₁ r))
  have hr₁ : Rooted fs₁ p := rooted_of_ref_ne (by rw [h₁]; exact h0)
  have hself := ref_setPtr_self hpriv₁ hr₁ hp lp (v := 0) (by omega)
  rw [hfs₁]
  refine ⟨hself, fun q hq lq hne => ?_⟩
  rw [ref_setPtr_ne hpriv₁ hr₁ hp lp (fun r i hu hr => ?_) hq lq hne, h₁]
  rw [ref_up hu, hself, under, if_pos rfl, h₁, hchild r i hu hr]

theorem giveBack_dataBlocks {c : Nat}
    (hc : ∀ r i, p.up = some (r, i) → c ≠ blockOf (ref fs r)) :
    (giveBack fs (slotOf fs p)).dataBlocks c = fs.dataBlocks c := by
  cases hu : p.up with
  | none => cases p <;> simp only [Place.up, reduceCtorEq] at hu <;> rfl
  | some ri =>
    rw [giveBack, slotOf_up hu]
    exact setBlock_dataBlocks_ne _ _ (hc ri.1 ri.2 hu)

theorem Cleared.released (h : Cleared live d S fs₀ fs) (ld : live d) :
    Holding.Released S (holding live fs₀) (holding live fs) := by
  refine ⟨fun p b => ⟨fun ⟨hp, lp, e⟩ => ?_, fun ⟨⟨hp, lp, e⟩, hn⟩ => ?_⟩, fun b => ?_⟩
  · have h0 : ref fs p ≠ 0 := by rw [e]; exact ptrTo_ne_zero b
    exact ⟨⟨hp, lp, by rw [← h.ref_eq hp lp h0]; exact e⟩, fun hS => h0 (h.gone p hp lp hS)⟩
  · exact ⟨hp, lp, by rw [h.kept p hp lp hn]; exact e⟩
  · refine (h.bits b).trans (and_congr_right fun _ => ?_)
    constructor
    · rintro hx ⟨p, hS, hp, _, e⟩; exact hx p hp hS e
    · exact fun hx p hp hS e => hx ⟨p, hS, hp, (h.node p hS).symm ▸ ld, e⟩

section
variable (ho : Owned live fs₀)
include ho

theorem Cleared.owned (h : Cleared live d S fs₀ fs) (ld : live d) : Owned live fs where
  sound := (h.released ld).sound ho.sound
  inRange {p} hp lp := by
    by_cases h0 : ref fs p = 0
    · omega
    · rw [h.ref_eq hp lp h0]; exact ho.inRange hp lp
  counted := by
    have h1 := ho.counted
    have h2 : clearBits fs₀ ≤ clearBits fs := clearCount_mono fun c hc => ((h.bits c).mp hc).1
    rw [h.freeBlocks]; omega

/-- Entries change in a block of the directory that is no index block. -/
theorem Cleared.setBlock (h : Cleared live d S fs₀ fs) (ld : live d) (hp : p.Valid)
    (hd : p.node = d) (hl : ¬ p.IsIndex) (h0 : ref fs p ≠ 0) (bytes : Bytes) :
    Cleared live d S fs₀ (fs.setBlock (blockOf (ref fs p)) bytes) := by
  have hown := h.owned ho ld
  have hr : ∀ q, q.Valid → live q.node →
      ref (fs.setBlock (blockOf (ref fs p)) bytes) q = ref fs q := by
    intro q hq lq
    refine ref_setBlock fun r hi hv hn e => hl ?_
    rw [ptrTo_blockOf h0] at e
    have := hown.unique hp (hd.symm ▸ ld) (hv hq) (hn.symm ▸ lq) h0 e.symm
    rw [this]; exact hi
  refine ⟨h.node, fun q hq lq hS => by rw [hr q hq lq]; exact h.gone q hq lq hS,
    fun q hq lq hS => by rw [hr q hq lq]; exact h.kept q hq lq hS, h.bits,
    fun q hq lq hn hq0 => ?_, h.inodes, h.type, h.size, h.access, h.freeBlocks, h.freeInodes⟩
  have he : ref fs q = ref fs₀ q := h.kept q hq lq fun hS => hn (h.node q hS)
  have hne : blockOf (ref fs₀ q) ≠ blockOf (ref fs p) := fun e => hn <| by
    have hpq : ref fs p = ref fs q := by
      rw [← ptrTo_blockOf h0, ← e, ptrTo_blockOf hq0, he]
    rw [← hown.unique hp (hd.symm ▸ ld) hq lq h0 hpq, hd]
  rw [setBlock_dataBlocks_ne _ _ hne]
  exact h.blocks q hq lq hn hq0

/-- One more block given back; nothing hangs below its place. -/
theorem Cleared.giveBack (h : Cleared live d S fs₀ fs) (ld : live d) (hp : p.Valid)
    (hd : p.node = d) (h0 : ref fs p ≠ 0)
    (hchild : ∀ q i, q.up = some (p, i) → q.Valid → ref fs q = 0) :
    Cleared live d (fun q => S q ∨ q = p) fs₀ (giveBack fs (slotOf fs p)) := by
  subst hd
  have hown := h.owned ho ld
  have hrep := h.ref_eq hp ld h0
  have hptr : fs.ptrAt (slotOf fs p) = ref fs p := (ref_eq_ptrAt (rooted_of_ref_ne h0)).symm
  have hlt := hown.blockOf_lt hp ld
  have hr := giveBack_ref hown.priv hp ld h0 hchild
  refine ⟨fun q hS => hS.elim (h.node q) fun e => e ▸ rfl, fun q hq lq hS => ?_,
    fun q hq lq hS => ?_, fun c => ?_, fun q hq lq hn hq0 => ?_, fun k hk => ?_, ?_, ?_, ?_, ?_, ?_⟩
  · by_cases e : q = p
    · rw [e]; exact hr.1
    · rw [hr.2 q hq lq e]; exact h.gone q hq lq (hS.resolve_right e)
  · rw [hr.2 q hq lq fun e => hS (.inr e)]
    exact h.kept q hq lq fun hS' => hS (.inl hS')
  · rw [Scanning.giveBack, setPtr_bitmap, hptr, clearBitmap_of_lt _ hlt, bit_clearBit,
      Bool.and_eq_true, h.bits, and_assoc]
    refine and_congr_right fun _ => ⟨fun hx q hq hS e => ?_, fun hx => ⟨fun q hq hS => ?_, ?_⟩⟩
    · rcases hS with hS | rfl
      · exact hx.1 q hq hS e
      · simp [hrep, e] at hx
    · exact hx q hq (.inl hS)
    · simp only [Bool.not_eq_true', decide_eq_false_iff_not]
      rintro rfl
      exact hx p hp (.inr rfl) (by rw [ptrTo_blockOf h0, hrep])
  · have he : ref fs q = ref fs₀ q := h.kept q hq lq fun hS => hn (h.node q hS)
    rw [giveBack_dataBlocks fun r i hu e => hn ?_]
    · exact h.blocks q hq lq hn hq0
    · have hr0 := rooted_of_ref_ne h0 r i hu
      have hqr : ref fs q = ref fs r := by
        rw [he, ← ptrTo_blockOf hq0, e, ptrTo_blockOf hr0]
      rw [hown.unique hq lq (Place.up_valid hu hp) (up_live ld hu) (by rw [he]; exact hq0) hqr,
        Place.up_node hu]
  · rw [Scanning.giveBack, setPtr_inodes_ne _ _ _ _ hk]; exact h.inodes k hk
  · rw [Scanning.giveBack, setPtr_type]; exact h.type
  · rw [Scanning.giveBack, setPtr_size]; exact h.size
  · rw [Scanning.giveBack, setPtr_access]; exact h.access
  · rw [Scanning.giveBack, setPtr_freeBlocks]; exact h.freeBlocks
  · rw [Scanning.giveBack, setPtr_freeInodes]; exact h.freeInodes

end

/-! ## One level -/

/-- The block at `p` has an entry with the name. -/
def HasName (fs : FileSys) (filename : Str) (p : Place) : Prop :=
  ref fs p ≠ 0 ∧ named fs (blockOf (ref fs p)) filename 16 = true

/-- The block at `p` has exactly one numbered entry. -/
def Lone (fs : FileSys) (p : Place) : Prop :=
  ref fs p ≠ 0 ∧ numbered fs (blockOf (ref fs p)) = 1

/-- Block `i` of the level is given back: it has one numbered entry, and it or an
earlier block has the name. -/
def Dropped (fs : FileSys) (filename : Str) (leaf : Nat → Place) (i : Nat) : Prop :=
  Lone fs (leaf i) ∧ ∃ j, j ≤ i ∧ HasName fs filename (leaf j)

/-- Every name in the block ends inside its field. -/
def Terminated (fs : FileSys) (b : Nat) : Prop :=
  ∀ j, j < 16 → ∃ a, a < 14 ∧ fs.dataBlocks b (16 * j + a) = 0

/-- The `n` leaf places of one level of directory `d`. -/
structure Level (fs : FileSys) (d : Nat) (n : Nat) (leaf : Nat → Place) : Prop where
  valid : ∀ i, i < n → (leaf i).Valid
  node : ∀ i, (leaf i).node = d
  isLeaf : ∀ i, ¬ (leaf i).IsIndex
  inj : ∀ i j, leaf i = leaf j → i = j
  rooted : ∀ i, Rooted fs (leaf i)

theorem directLevel (fs : FileSys) {d : Nat} (hd : d < 1024) : Level fs d 8 (.direct d) where
  valid _ hi := ⟨hd, hi⟩
  node _ := rfl
  isLeaf _ := id
  inj _ _ e := by injection e
  rooted _ _ _ h := by cases h

theorem singleLevel {fs : FileSys} {d : Nat} (hd : d < 1024) (h0 : ref fs (.single d) ≠ 0) :
    Level fs d 64 (.sleaf d) where
  valid _ hi := ⟨hd, hi⟩
  node _ := rfl
  isLeaf _ := id
  inj _ _ e := by injection e
  rooted _ _ _ h := by cases h; exact h0

theorem entryNum_congr {fs fs' : FileSys} {b : Nat} (h : fs'.dataBlocks b = fs.dataBlocks b)
    (j : Nat) : fs'.entryNum b j = fs.entryNum b j := by
  unfold FileSys.entryNum; rw [h]

theorem numbered_congr {fs fs' : FileSys} {b : Nat} (h : fs'.dataBlocks b = fs.dataBlocks b) :
    numbered fs' b = numbered fs b := by
  simp only [numbered, entryNum_congr h]

/-- With its names terminated, what a block says does not depend on the next one. -/
theorem entryNameIs_congr {fs fs' : FileSys} {b b' j : Nat} {s : Str} (hs : 0 ∉ s)
    (ht : Terminated fs b) (hj : j < 16) (h : ∀ a, 16 * j ≤ a → a < 16 * j + 14 →
      fs'.dataBlocks b' a = fs.dataBlocks b a) :
    fs'.entryNameIs b' j s = fs.entryNameIs b j s := by
  obtain ⟨z, hz, h0⟩ := ht j hj
  have hw : ∀ (f : FileSys) b a, a < 256 → f.window b a = f.dataBlocks b a := fun f b a ha => by
    simp only [FileSys.window, Nat.div_eq_of_lt ha, Nat.mod_eq_of_lt ha, Nat.add_zero]
  refine (strEq_congr_of_zero (z := z) hs ?_ fun a ha => ?_).symm
  · rw [hw _ _ _ (by omega)]; exact h0
  · rw [hw _ _ _ (by omega), hw _ _ _ (by omega)]; exact (h _ (by omega) (by omega)).symm

/-- After `n` blocks of the level. -/
structure Scanned (live : Nat → Prop) (d : Nat) (fs₀ : FileSys) (filename : Str)
    (leaf : Nat → Place) (n : Nat) (s : Scan) : Prop where
  cleared : Cleared live d (fun q => ∃ i, i < n ∧ q = leaf i ∧ Dropped fs₀ filename leaf i) fs₀ s.fs
  found : s.findEntry = true ↔ ∃ i, i < n ∧ HasName fs₀ filename (leaf i)
  idle : s.findEntry = false → s.fs = fs₀
  same : ∀ q, q.Valid → live q.node → ¬ q.IsIndex → ref fs₀ q ≠ 0 → (∀ i, i < n → q ≠ leaf i) →
    s.fs.dataBlocks (blockOf (ref fs₀ q)) = fs₀.dataBlocks (blockOf (ref fs₀ q))
  content : 0 ∉ filename → ∀ i, i < n → ref fs₀ (leaf i) ≠ 0 →
    Terminated fs₀ (blockOf (ref fs₀ (leaf i))) → ∀ a, a < 256 →
    s.fs.dataBlocks (blockOf (ref fs₀ (leaf i))) a =
      if fs₀.entryNameIs (blockOf (ref fs₀ (leaf i))) (a / 16) filename = true then 0
      else fs₀.dataBlocks (blockOf (ref fs₀ (leaf i))) a
  present : s.nonEmptyBlocks = ((Finset.range n).filter fun i => ref fs₀ (leaf i) ≠ 0).card
  last : s.lastEntry = true ↔ ∃ i, i < n ∧ Dropped fs₀ filename leaf i

theorem Scanned.start {filename : Str} {leaf : Nat → Place} (e : Nat) :
    Scanned live d fs₀ filename leaf 0 ⟨fs₀, false, e, 0, false⟩ where
  cleared := Cleared.refl.congr fun q => by simp
  found := by simp
  idle _ := rfl
  same _ _ _ _ _ _ := rfl
  content _ i hi := absurd hi (by omega)
  present := rfl
  last := by simp

theorem filter_range_succ (p : Nat → Prop) [DecidablePred p] (n : Nat) :
    ((Finset.range (n + 1)).filter p).card =
      ((Finset.range n).filter p).card + if p n then 1 else 0 := by
  rw [Finset.range_add_one, Finset.filter_insert]
  split
  · rw [Finset.card_insert_of_notMem (by simp)]
  · rfl

theorem exists_lt_succ {p : Nat → Prop} {n : Nat} :
    (∃ i, i < n + 1 ∧ p i) ↔ (∃ i, i < n ∧ p i) ∨ p n := by
  simp only [Nat.lt_succ_iff_lt_or_eq, or_and_right, exists_or, exists_eq_left]

section
variable {N n : Nat} {filename : Str} {leaf : Nat → Place} {s : Scan}
variable (ld : live d) (hl : Level fs₀ d N leaf)
include ld hl

/-- The block looked at next is as it was. -/
theorem Scanned.next_ref (h : Scanned live d fs₀ filename leaf n s) (hn : n < N) :
    ref s.fs (leaf n) = ref fs₀ (leaf n) :=
  h.cleared.kept _ (hl.valid n hn) ((hl.node n).symm ▸ ld) fun ⟨i, hi, e, _⟩ => by
    have := hl.inj n i e; omega

theorem Scanned.next_slot (h : Scanned live d fs₀ filename leaf n s) (hn : n < N) :
    Rooted s.fs (leaf n) ∧ slotOf s.fs (leaf n) = slotOf fs₀ (leaf n) := by
  have hup : ∀ r i, (leaf n).up = some (r, i) → ref s.fs r = ref fs₀ r := fun r i hu =>
    h.cleared.kept r (Place.up_valid hu (hl.valid n hn))
      (up_live ((hl.node n).symm ▸ ld) hu) fun ⟨j, _, e, _⟩ => hl.isLeaf j (e ▸ Place.up_isIndex hu)
  refine ⟨fun r i hu => by rw [hup r i hu]; exact hl.rooted n r i hu, ?_⟩
  cases hu : (leaf n).up with
  | none => cases hp : leaf n <;> simp only [hp, Place.up, reduceCtorEq] at hu <;> rfl
  | some ri => rw [slotOf_up hu, slotOf_up hu, hup ri.1 ri.2 hu]

theorem Scanned.step_absent (h : Scanned live d fs₀ filename leaf n s) (hn : n < N)
    (h0 : ref fs₀ (leaf n) = 0) :
    Scanned live d fs₀ filename leaf (n + 1) (scanBlock filename (slotOf fs₀ (leaf n)) s) := by
  have hslot := h.next_slot ld hl hn
  rw [scanBlock_absent (by rw [← hslot.2, ← ref_eq_ptrAt hslot.1, h.next_ref ld hl hn, h0])]
  have hd : ¬ Dropped fs₀ filename leaf n := fun hd => hd.1.1 h0
  have hh : ¬ HasName fs₀ filename (leaf n) := fun hh => hh.1 h0
  refine ⟨h.cleared.congr fun q => ?_, ?_, h.idle, fun q hq lq hi hq0 hne => ?_,
    fun hz i hi hi0 ht a ha => ?_, ?_, ?_⟩
  · rw [exists_lt_succ, or_iff_left fun hx => hd hx.2]
  · rw [exists_lt_succ, or_iff_left hh]; exact h.found
  · exact h.same q hq lq hi hq0 fun i hi => hne i (by omega)
  · refine h.content hz i ?_ hi0 ht a ha
    exact lt_of_le_of_ne (by omega) fun e => hi0 (e ▸ h0)
  · rw [filter_range_succ, if_neg (by simpa using h0)]; exact h.present
  · rw [exists_lt_succ, or_iff_left hd]; exact h.last

variable (ho : Owned live fs₀)
include ho

theorem Scanned.step_present (h : Scanned live d fs₀ filename leaf n s) (hn : n < N)
    (h0 : ref fs₀ (leaf n) ≠ 0) :
    Scanned live d fs₀ filename leaf (n + 1) (scanBlock filename (slotOf fs₀ (leaf n)) s) := by
  have hslot := h.next_slot ld hl hn
  have href := h.next_ref ld hl hn
  have hv := hl.valid n hn
  have lv : live (leaf n).node := (hl.node n).symm ▸ ld
  have hptr : s.fs.ptrAt (slotOf fs₀ (leaf n)) = ref fs₀ (leaf n) := by
    rw [← hslot.2, ← ref_eq_ptrAt hslot.1, href]
  obtain ⟨b, hb⟩ : ∃ b, blockOf (ref fs₀ (leaf n)) = b := ⟨_, rfl⟩
  have hblock : s.fs.dataBlocks b = fs₀.dataBlocks b := by
    rw [← hb]
    exact h.same _ hv lv (hl.isLeaf n) h0 fun i hi e => by have := hl.inj n i e; omega
  -- the flag after this block
  have hfound : (s.findEntry || named s.fs b filename 16) = true ↔
      ∃ i, i < n + 1 ∧ HasName fs₀ filename (leaf i) := by
    rw [exists_lt_succ, ← h.found, Bool.or_eq_true]
    cases hf : s.findEntry with
    | true => simp
    | false => simp [h.idle hf, HasName, h0, hb]
  have hdrop : ((s.findEntry || named s.fs b filename 16) = true ∧ numbered s.fs b = 1) ↔
      Dropped fs₀ filename leaf n := by
    rw [hfound, numbered_congr hblock, Dropped, Lone, hb]
    simp only [Nat.lt_succ_iff, ne_eq, h0, not_false_eq_true, true_and]
    exact And.comm
  -- the block with the name cleared
  have hc₁ : Cleared live d (fun q => ∃ i, i < n ∧ q = leaf i ∧ Dropped fs₀ filename leaf i) fs₀
      (clearTo s.fs b filename 16) := by
    have := h.cleared.setBlock ho ld hv (hl.node n) (hl.isLeaf n) (by rw [href]; exact h0)
    rw [href, hb] at this
    exact this _
  have hother : ∀ q, q.Valid → live q.node → ref fs₀ q ≠ 0 → q ≠ leaf n →
      (clearTo s.fs b filename 16).dataBlocks (blockOf (ref fs₀ q)) =
        s.fs.dataBlocks (blockOf (ref fs₀ q)) := fun q hq lq hq0 hne => by
    refine setBlock_dataBlocks_ne _ _ fun e => hne (ho.unique hq lq hv lv hq0 ?_)
    rw [← ptrTo_blockOf hq0, e, ← hb, ptrTo_blockOf h0]
  have hmine : 0 ∉ filename → Terminated fs₀ b → ∀ a, a < 256 →
      (clearTo s.fs b filename 16).dataBlocks b a =
        if fs₀.entryNameIs b (a / 16) filename = true then 0 else fs₀.dataBlocks b a := by
    intro hz ht a ha
    rw [clearTo, setBlock_dataBlocks_self, hblock,
      entryNameIs_congr hz ht (by omega) fun a _ _ => by rw [hblock]]
    simp [show a < 16 * 16 by omega]
  have hpresent : s.nonEmptyBlocks + 1 =
      ((Finset.range (n + 1)).filter fun i => ref fs₀ (leaf i) ≠ 0).card := by
    rw [filter_range_succ, if_pos h0, h.present]
  -- giving a leaf block back changes no leaf block
  have hleaf : ∀ q, q.Valid → live q.node → ¬ q.IsIndex → ref fs₀ q ≠ 0 →
      (giveBack (clearTo s.fs b filename 16) (slotOf fs₀ (leaf n))).dataBlocks
        (blockOf (ref fs₀ q)) = (clearTo s.fs b filename 16).dataBlocks (blockOf (ref fs₀ q)) := by
    intro q hq lq hi hq0
    cases hu : (leaf n).up with
    | none =>
      cases hp : leaf n <;> simp only [hp, Place.up, reduceCtorEq] at hu <;> rfl
    | some ri =>
      have hr0 := hl.rooted n ri.1 ri.2 hu
      rw [giveBack, slotOf_up hu]
      refine setBlock_dataBlocks_ne _ _ fun e => hi ?_
      have : q = ri.1 := ho.unique hq lq (Place.up_valid hu hv) (up_live lv hu) hq0 (by
        rw [← ptrTo_blockOf hq0, e, ptrTo_blockOf hr0])
      exact this ▸ Place.up_isIndex hu
  rw [scanBlock_present (by rw [hptr]; exact h0) (by rw [hptr, hb])]
  dsimp only
  split
  · rename_i hcond
    have hD := hdrop.mp hcond
    have hr₁ : ref (clearTo s.fs b filename 16) (leaf n) = ref fs₀ (leaf n) :=
      hc₁.kept _ hv lv fun hx => by
        obtain ⟨i, hi, e, -⟩ := hx
        have := hl.inj n i e
        omega
    have hs₁ : slotOf (clearTo s.fs b filename 16) (leaf n) = slotOf fs₀ (leaf n) := by
      cases hu : (leaf n).up with
      | none => cases hp : leaf n <;> simp only [hp, Place.up, reduceCtorEq] at hu <;> rfl
      | some ri =>
        rw [slotOf_up hu, slotOf_up hu, hc₁.kept ri.1 (Place.up_valid hu hv) (up_live lv hu)
          fun hx => by
            obtain ⟨j, -, e, -⟩ := hx
            exact hl.isLeaf j (e ▸ Place.up_isIndex hu)]
    have hc₂ := hc₁.giveBack ho ld hv (hl.node n) (by rw [hr₁]; exact h0) fun q i hu _ =>
      absurd (Place.up_isIndex hu) (hl.isLeaf n)
    rw [hs₁] at hc₂
    refine ⟨hc₂.congr fun q => ?_, hfound, fun hf => Bool.noConfusion (hcond.1.symm.trans hf),
      fun q hq lq hi hq0 hne => ?_, fun hz i hi hi0 ht a ha => ?_, hpresent, ?_⟩
    · rw [exists_lt_succ, and_iff_left hD]
    · rw [hleaf q hq lq hi hq0, hother q hq lq hq0 (hne n (by omega))]
      exact h.same q hq lq hi hq0 fun i hi => hne i (by omega)
    · rw [hleaf _ (hl.valid i (by omega)) ((hl.node i).symm ▸ ld) (hl.isLeaf i) hi0]
      by_cases e : i = n
      · subst e; rw [hb] at ht ⊢; exact hmine hz ht a ha
      · rw [hother _ (hl.valid i (by omega)) ((hl.node i).symm ▸ ld) hi0 fun e' => e (hl.inj _ _ e')]
        exact h.content hz i (by omega) hi0 ht a ha
    · simp only [true_iff]
      exact ⟨n, by omega, hD⟩
  · rename_i hcond
    have hD : ¬ Dropped fs₀ filename leaf n := fun hD => hcond (hdrop.mpr hD)
    refine ⟨hc₁.congr fun q => ?_, hfound, fun hf => ?_, fun q hq lq hi hq0 hne => ?_,
      fun hz i hi hi0 ht a ha => ?_, hpresent, ?_⟩
    · rw [exists_lt_succ, or_iff_left fun hx => hD hx.2]
    · rw [Bool.or_eq_false_iff] at hf
      rw [clearTo_of_not_named, h.idle hf.1]
      intro j hj
      have := hf.2
      simp only [named, List.any_eq_false, List.mem_range] at this
      simpa using this j hj
    · rw [hother q hq lq hq0 (hne n (by omega))]
      exact h.same q hq lq hi hq0 fun i hi => hne i (by omega)
    · by_cases e : i = n
      · subst e; rw [hb] at ht ⊢; exact hmine hz ht a ha
      · rw [hother _ (hl.valid i (by omega)) ((hl.node i).symm ▸ ld) hi0 fun e' => e (hl.inj _ _ e')]
        exact h.content hz i (by omega) hi0 ht a ha
    · rw [exists_lt_succ, or_iff_left hD]; exact h.last

/-- The loop over a level. -/
theorem scanLevel (filename : Str) (e : Nat) (slot : Nat → PtrSlot) (hslot : ∀ i, slot i = slotOf fs₀ (leaf i)) :
    Scanned live d fs₀ filename leaf N
      (loop (fun i => scanBlock filename (slot i)) 0 N ⟨fs₀, false, e, 0, false⟩) := by
  have := loop_inv (a := 0) (n := N) (fun n s => Scanned live d fs₀ filename leaf n s)
    (f := fun i => scanBlock filename (slot i)) (.start e) fun i s _ hi h => ?_
  · rwa [Nat.zero_add] at this
  · rw [hslot i]
    by_cases h0 : ref fs₀ (leaf i) = 0
    · exact h.step_absent ld hl (by omega) h0
    · exact h.step_present ld hl ho (by omega) h0

end
/-! ## The whole call -/

/-- How the search for the name ends: it is in neither level, or the level that
has it was scanned, in the second case with the index block given back or not. -/
inductive Outcome (live : Nat → Prop) (d : Nat) (fs₀ : FileSys) (filename : Str) (fs : FileSys) :
    Prop
  | absent (hd : ∀ i, i < 8 → ¬ HasName fs₀ filename (.direct d i))
      (hs : ∀ i, i < 64 → ¬ HasName fs₀ filename (.sleaf d i)) (e : fs = fs₀)
  | direct {s : Scan} (h : Scanned live d fs₀ filename (.direct d) 8 s)
      (hf : s.findEntry = true) (e : fs = s.fs)
  | single {s : Scan} (hd : ∀ i, i < 8 → ¬ HasName fs₀ filename (.direct d i))
      (h0 : ref fs₀ (.single d) ≠ 0) (h : Scanned live d fs₀ filename (.sleaf d) 64 s)
      (hf : s.findEntry = true) (e : fs = s.fs)
  | whole {s : Scan} (hd : ∀ i, i < 8 → ¬ HasName fs₀ filename (.direct d i))
      (h0 : ref fs₀ (.single d) ≠ 0) (h : Scanned live d fs₀ filename (.sleaf d) 64 s)
      (hf : s.findEntry = true) (hdrop : ∃ i, i < 64 ∧ Dropped fs₀ filename (.sleaf d) i)
      (hall : ∀ i, i < 64 → ref s.fs (.sleaf d i) = 0)
      (e : fs = giveBack s.fs (slotOf s.fs (.single d)))

/-- Some block of the directory is given back. -/
def GivesBack (fs : FileSys) (d : Nat) (filename : Str) : Prop :=
  (∃ i, i < 8 ∧ Dropped fs filename (.direct d) i) ∨
    ((∀ i, i < 8 → ¬ HasName fs filename (.direct d i)) ∧
      ∃ i, i < 64 ∧ Dropped fs filename (.sleaf d) i)

section
variable {filename : Str} (ho : Owned live fs₀) (ld : live d)
include ho ld

omit ho in
/-- A level with one block, of which one is given back, has none left. -/
theorem Scanned.all_gone {s : Scan} (hd : d < 1024) (h : Scanned live d fs₀ filename (.sleaf d) 64 s)
    (h1 : s.nonEmptyBlocks = 1) {i : Nat} (hi : i < 64) (hD : Dropped fs₀ filename (.sleaf d) i)
    {j : Nat} (hj : j < 64) : ref s.fs (.sleaf d j) = 0 := by
  have honly : ref fs₀ (.sleaf d j) ≠ 0 → j = i := fun hj0 => by
    by_contra e
    have hsub : ({i, j} : Finset Nat) ⊆
        (Finset.range 64).filter fun i => ref fs₀ (.sleaf d i) ≠ 0 := by
      intro x hx
      simp only [Finset.mem_insert, Finset.mem_singleton] at hx
      rcases hx with rfl | rfl
      · simp [hi, hD.1.1]
      · simp [hj, hj0]
    have := Finset.card_le_card hsub
    rw [Finset.card_pair (Ne.symm e), ← h.present, h1] at this
    omega
  by_contra hj0
  have := honly (by rw [← h.cleared.ref_eq (q := .sleaf d j) ⟨hd, hj⟩ ld hj0]; exact hj0)
  subst this
  exact hj0 (h.cleared.gone _ ⟨hd, hj⟩ ld ⟨j, hj, rfl, hD⟩)

theorem clearEntrySingle_outcome (hd : d < 1024) {s : Scan} (hs : s.fs = fs₀)
    (hf : s.findEntry = false) (hdir : ∀ i, i < 8 → ¬ HasName fs₀ filename (.direct d i)) :
    Outcome live d fs₀ filename (clearEntrySingle filename d s).fs := by
  obtain ⟨_, _, e, nb, l⟩ := s
  dsimp only at hs hf
  subst hs hf
  rename_i fs₀
  unfold clearEntrySingle
  dsimp only
  split
  · rename_i h0
    refine .absent hdir (fun i _ hh => hh.1 ?_) rfl
    rw [ref_up (r := .single d) (i := i) rfl, show ref fs₀ (.single d) = 0 from h0]; rfl
  · rename_i h0
    have h2 := scanLevel ld (singleLevel hd h0) ho filename e
      (.indexBlock (blockOf (fs₀.ptrAt (.singleIndirect d)))) fun _ => rfl
    generalize loop (fun i => scanBlock filename (.indexBlock (blockOf (fs₀.ptrAt
      (.singleIndirect d))) i)) 0 64 ⟨fs₀, false, e, 0, false⟩ = s₂ at h2 ⊢
    cases hf₂ : s₂.findEntry with
    | false =>
      refine .absent hdir (fun i hi hh => ?_) ?_
      · have := h2.found.mpr ⟨i, hi, hh⟩
        simp [hf₂] at this
      · rw [if_neg fun h => Bool.noConfusion h.1]
        exact h2.idle hf₂
    | true =>
      split
      · rename_i hlast
        obtain ⟨i, hi, hD⟩ := h2.last.mp hlast.2.2
        exact .whole hdir h0 h2 hf₂ ⟨i, hi, hD⟩
          (fun j hj => h2.all_gone ld hd hlast.2.1 hi hD hj) rfl
      · exact .single hdir h0 h2 hf₂ rfl

theorem clearEntry_outcome (hd : d < 1024) (filename : Str) :
    Outcome live d fs₀ filename (clearEntryInCurrentDir fs₀ d filename) := by
  have h1 := scanLevel ld (directLevel fs₀ hd) ho filename 0 (.pointers d) fun _ => rfl
  unfold clearEntryInCurrentDir
  dsimp only
  generalize loop (fun i => scanBlock filename (.pointers d i)) 0 8 ⟨fs₀, false, 0, 0, false⟩ = s
    at h1 ⊢
  split
  · rename_i hf
    exact .direct h1 hf rfl
  · rename_i hf
    refine clearEntrySingle_outcome ho ld hd (h1.idle (by simpa using hf)) (by simpa using hf)
      fun i hi hh => hf (h1.found.mpr ⟨i, hi, hh⟩)

/-- Whatever is given back is let go, and nothing else. -/
theorem Outcome.cleared (hd : d < 1024) (h : Outcome live d fs₀ filename fs) :
    ∃ S, Cleared live d S fs₀ fs ∧ (¬ GivesBack fs₀ d filename → ∀ q, ¬ S q) := by
  cases h with
  | absent _ _ e => subst e; exact ⟨_, .refl, fun _ _ => id⟩
  | direct h _ e =>
    subst e
    exact ⟨_, h.cleared, fun hn q ⟨i, hi, _, hD⟩ => hn (.inl ⟨i, hi, hD⟩)⟩
  | single hdir _ h _ e =>
    subst e
    exact ⟨_, h.cleared, fun hn q ⟨i, hi, _, hD⟩ => hn (.inr ⟨hdir, i, hi, hD⟩)⟩
  | @whole s hdir h0 h _ hdrop hall e =>
    subst e
    have hs : ref s.fs (.single d) = ref fs₀ (.single d) :=
      h.cleared.kept (.single d) hd ld fun ⟨_, _, e, _⟩ => by cases e
    refine ⟨_, h.cleared.giveBack ho ld (p := .single d) hd rfl (by rw [hs]; exact h0)
      fun q i hu hq => ?_, fun hn => absurd (.inr ⟨hdir, hdrop⟩) hn⟩
    have hi : i < 64 := by
      cases q <;> simp only [Place.up, Option.some.injEq, Prod.mk.injEq, reduceCtorEq,
        false_and] at hu
      obtain ⟨_, rfl⟩ := hu
      exact hq.2
    rw [Place.up_inj hu (q := .sleaf d i) rfl]
    exact hall i hi

end

/-! ## A directory of zeros -/

theorem clear_zero {b : Nat} (hb : ∀ a, fs.dataBlocks b a = 0) (filename : Str) :
    clearTo fs b filename 16 = fs ∧ numbered fs b = 0 := by
  constructor
  · have e : (fun a => if a < 16 * 16 ∧ fs.entryNameIs b (a / 16) filename = true then 0
        else fs.dataBlocks b a) = fs.dataBlocks b := funext fun a => by simp [hb a]
    rw [clearTo, e, setBlock_self]
  · rw [numbered, Finset.card_eq_zero, Finset.filter_eq_empty_iff]
    intro j _
    have : fs.entryNum b j = 0 := load_zero fun a _ _ => hb a
    simp [this]

theorem clearEntrySingle_zero {filename : Str} {s : Scan} (h : s.fs = fs)
    (hs : ref fs (.single d) ≠ 0 → ∀ a, fs.dataBlocks (blockOf (ref fs (.single d))) a = 0) :
    (clearEntrySingle filename d s).fs = fs := by
  obtain ⟨_, f, e, nb, l⟩ := s
  dsimp only at h
  subst h
  rename_i fs
  unfold clearEntrySingle
  dsimp only
  split
  · rfl
  · rename_i h0
    have h2 := loop_inv (a := 0) (n := 64) (s := (⟨fs, f, e, 0, false⟩ : Scan))
      (fun _ s => s.fs = fs ∧ s.nonEmptyBlocks = 0)
      (f := fun i => scanBlock filename
        (.indexBlock (blockOf (fs.ptrAt (.singleIndirect d))) i)) ⟨rfl, rfl⟩ fun i s _ _ h => by
          rw [scanBlock_absent (by rw [h.1]; exact load_zero fun a _ _ => hs h0 a)]; exact h
    generalize loop (fun i => scanBlock filename (.indexBlock (blockOf (fs.ptrAt
      (.singleIndirect d))) i)) 0 64 ⟨fs, f, e, 0, false⟩ = s₂ at h2 ⊢
    rw [if_neg fun hx => by rw [h2.2] at hx; exact absurd hx.2.1 (by omega)]
    exact h2.1

/-- Nothing is given back when every block of the directory is zero, and the
image stays as it is. -/
theorem clearEntry_zero {filename : Str}
    (hdir : ∀ i, i < 8 → ref fs (.direct d i) ≠ 0 →
      ∀ a, fs.dataBlocks (blockOf (ref fs (.direct d i))) a = 0)
    (hs : ref fs (.single d) ≠ 0 → ∀ a, fs.dataBlocks (blockOf (ref fs (.single d))) a = 0) :
    clearEntryInCurrentDir fs d filename = fs := by
  have h1 := loop_inv (a := 0) (n := 8) (s := (⟨fs, false, 0, 0, false⟩ : Scan))
    (fun _ s => s.fs = fs) (f := fun i => scanBlock filename (.pointers d i)) rfl
    fun i s _ hi hfs => ?_
  · unfold clearEntryInCurrentDir
    dsimp only
    generalize loop (fun i => scanBlock filename (.pointers d i)) 0 8 ⟨fs, false, 0, 0, false⟩ = s
      at h1 ⊢
    split
    · exact h1
    · exact clearEntrySingle_zero h1 hs
  · by_cases h0 : s.fs.ptrAt (.pointers d i) = 0
    · rw [scanBlock_absent h0]; exact hfs
    · rw [hfs] at h0
      obtain ⟨hz, hn⟩ := clear_zero (hdir i (by omega) h0) filename
      rw [scanBlock_present (by rw [hfs]; exact h0) rfl, hfs]
      dsimp only
      rw [show fs.ptrAt (.pointers d i) = ref fs (.direct d i) from rfl, hn,
        if_neg fun hx => absurd hx.2 (by omega), hz]

end ToyOS.Ramdisk.Clearing
