import ToyOS.Lib.Overlay
import ToyOS.Ramdisk.Files
import ToyOS.Ramdisk.Ranges
import ToyOS.Ramdisk.Writing

/-! # Where rd_write puts its bytes

With room for the file and no zero byte in the buffer, each pass of the byte
loops stores one byte. `Stored loc t` says that `t` bytes have been stored, the
`i`-th at position `loc i`.
-/
namespace ToyOS.Ramdisk.Storing
open ToyOS.Lib.Loop ToyOS.Lib.Words ToyOS.Lib.Overlay
open ToyOS.Ramdisk.Image ToyOS.Ramdisk.Blocks ToyOS.Ramdisk.Places ToyOS.Ramdisk.Ownership
open ToyOS.Ramdisk.Growth ToyOS.Ramdisk.Write ToyOS.Ramdisk.Files ToyOS.Ramdisk.Ranges
open ToyOS.Ramdisk.Writing

/-- `t` bytes of `data` have been stored since image `fs₀` and cursor `c₀`, and
there is room for what is missing of the first `M` blocks. -/
structure Stored (M k : Nat) (loc : Nat → Nat) (data : Bytes) (fs₀ : FileSys) (c₀ t : Nat)
    (w : Writer) : Prop where
  owned : Owned every w.fs
  roomy : Roomy M k w.fs
  written : w.written = t
  size : (w.fs.inodes k).size = (fs₀.inodes k).size + t
  cursor : w.cursor = c₀ + t
  bytes : ∀ pos, pos < 1067008 → byteAt w.fs k pos = overlay loc data (byteAt fs₀ k) t pos

variable {M k n t m o c c₀ : Nat} {loc : Nat → Nat} {data : Bytes} {fs₀ : FileSys} {w : Writer}

/-- A write of `n` bytes, none of them zero, to the positions `loc`: either
there is room for their blocks, or nothing is known about room (`M = 0`). -/
structure Feasible (M k n : Nat) (loc : Nat → Nat) (data : Bytes) (fs₀ : FileSys) (c₀ : Nat) :
    Prop where
  node : k < 1024
  nonzero : ∀ i, i < n → data i ≠ 0
  size : (fs₀.inodes k).size + n < 2 ^ 32
  cursor : c₀ + n < 2 ^ 32
  blocks : M = 0 ∨ ∀ t, t < n → loc t / 256 < M

/-- A place on the way to the next position is filled, or nothing is known about
room. -/
theorem Stored.ensure (h : Stored M k loc data fs₀ c₀ t w) (hf : Feasible M k n loc data fs₀ c₀)
    (ht : t < n) {p : Place} (hp : p.Valid) (hn : p.node = k) (hr : Rooted w.fs p)
    (hb : firstBlock p ≤ loc t / 256) :
    (∃ fs', ensureBlock w.fs (slotOf w.fs p) = some fs' ∧
      Stored M k loc data fs₀ c₀ t { w with fs := fs' }) ∨
    (ensureBlock w.fs (slotOf w.fs p) = none ∧ M = 0) := by
  subst hn
  have stored : ∀ fs', Extends p.node w.fs fs' → Roomy M p.node fs' →
      Stored M p.node loc data fs₀ c₀ t { w with fs := fs' } := fun fs' hx hroom =>
    ⟨hx.owned, hroom, h.written, hx.size.trans h.size, h.cursor, fun pos hpos =>
      (byteAt_extends hx hf.node hpos).trans (h.bytes pos hpos)⟩
  rcases hf.blocks with rfl | hM
  · cases he : ensureBlock w.fs (slotOf w.fs p) with
    | none => exact .inr ⟨rfl, rfl⟩
    | some fs' =>
      rcases ensureBlock_cases h.owned hp trivial hr he with ⟨_, rfl⟩ | ⟨b, a⟩
      · exact .inl ⟨_, rfl, h⟩
      · exact .inl ⟨fs', rfl, stored fs' (a.extends h.owned hp) (roomy_zero _ _)⟩
  · obtain ⟨fs', he, hx, hroom⟩ :=
      ensureBlock_roomy h.owned h.roomy hp hr (hb.trans_lt (hM t ht))
    exact .inl ⟨fs', he, stored fs' hx hroom⟩

theorem Stored.seg (h : Stored M k loc data fs₀ c₀ t w) (s : Nat) :
    Stored M k loc data fs₀ c₀ t { w with seg := s } :=
  ⟨h.owned, h.roomy, h.written, h.size, h.cursor, h.bytes⟩

/-- One byte. -/
theorem Stored.put (h : Stored M k loc data fs₀ c₀ t w) (hf : Feasible M k n loc data fs₀ c₀) (ht : t < n)
    (hm : m < 4168) (h0 : ref w.fs (leafOf k m) ≠ 0) {j : Nat} (hj : j < 256)
    (hloc : loc t = 256 * m + j) :
    Stored M k loc data fs₀ c₀ (t + 1) (putByte k data (blockOf (ref w.fs (leafOf k m))) j w) := by
  have hsize := hf.size
  have hcursor := hf.cursor
  have hg := putByte_wrote h.owned (leafOf_valid hf.node hm) (leafOf_isLeaf k m)
    (leafOf_node k m) h0 data j
  have hr : ∀ q, q.Valid → q.node = k →
      ref (putByte k data (blockOf (ref w.fs (leafOf k m))) j w).fs q = ref w.fs q := by
    intro q hq _
    refine (ref_setSize _ k _ q).trans (ref_setBlock fun r hi hr _ e => ?_)
    have hv := leafOf_valid (k := k) hf.node hm
    rw [ptrTo_blockOf h0] at e
    have := h.owned.unique (hr hq) trivial hv trivial (by rw [e]; exact h0) e
    exact leafOf_isLeaf k m (this ▸ hi)
  refine ⟨hg.grows.owned, roomy_of_ref h.roomy hf.node hr rfl, ?_, ?_, ?_, fun pos hpos => ?_⟩
  · simp only [putByte, h.written]
  · simp only [putByte, setInode_inodes_self, setBlock_inodes]
    rw [h.size, u32_of_lt (by omega)]
    omega
  · simp only [putByte]
    rw [h.cursor, u32_of_lt (by omega)]
    omega
  · have hb : byteAt (putByte k data (blockOf (ref w.fs (leafOf k m))) j w).fs k pos =
        Function.update (byteAt w.fs k) (256 * m + j) (data w.written) pos :=
      (byteAt_of_eq (fun q => ref_setSize _ k _ q) rfl).trans
        (byteAt_store h.owned hf.node hm h0 hj _ hpos)
    rw [hb, overlay, hloc, h.written]
    by_cases e : pos = 256 * m + j
    · rw [e, Function.update_self, Function.update_self]
    · rw [Function.update_of_ne e, Function.update_of_ne e]
      exact h.bytes pos hpos

/-! ## The loops -/

/-- What a loop ends with: it falls through with `t` of the `n` bytes stored,
or `rd_write` returns, with all of them stored or for want of room. -/
def Ending (M k : Nat) (loc : Nat → Nat) (data : Bytes) (fs₀ : FileSys) (c₀ n t : Nat)
    (fl : Flow Writer Int) : Prop :=
  fl.Ends (fun w => t < n ∧ Stored M k loc data fs₀ c₀ t w) fun w r =>
    (r = (n : Int) ∧ Stored M k loc data fs₀ c₀ n w) ∨
      (r = -1 ∧ M = 0 ∧ ∃ t, t < n ∧ Stored M k loc data fs₀ c₀ t w)

/-- The byte loop of one block. -/
theorem Stored.writeBytes (h : Stored M k loc data fs₀ c₀ t w) (hf : Feasible M k n loc data fs₀ c₀)
    (ht : t < n) (hm : m < 4168) (h0 : ref w.fs (leafOf k m) ≠ 0) (ho : o < 256)
    (hloc : ∀ j, j < 256 - o → t + j < n → loc (t + j) = 256 * m + (o + j)) :
    Ending M k loc data fs₀ c₀ n (t + (256 - o))
      (forFrom (writeByte k data n (blockOf (ref w.fs (leafOf k m)))) o (256 - o) w) := by
  have hp := leafOf_valid (k := k) hf.node hm
  refine (forFrom_ends (a := o) (s := w) (fun j w' => t + (j - o) < n ∧ Stored M k loc data fs₀ c₀ (t + (j - o)) w' ∧
    ref w'.fs (leafOf k m) = ref w.fs (leafOf k m)) ⟨by omega, by simpa using h, rfl⟩
    fun j w' hj hlt hw => ?_).mono (fun w' hw => ?_) fun _ _ => id
  · obtain ⟨htj, hs, e⟩ := hw
    have h0' : ref w'.fs (leafOf k m) ≠ 0 := by rw [e]; exact h0
    have hput := hs.put hf htj hm h0' (j := j) (by omega)
      ((hloc (j - o) (by omega) htj).trans (by omega))
    have hkeep := (putByte_wrote hs.owned hp (leafOf_isLeaf k m) (leafOf_node k m)
      h0' data j).grows.keeps _ hp fun _ => h0'
    rw [e] at hput hkeep
    unfold writeByte
    rw [hs.written, if_pos (hf.nonzero _ htj)]
    dsimp only
    have hwr := hput.written
    split
    · rename_i hn
      have hn' : t + (j - o) + 1 = n := by omega
      exact .inl ⟨by omega, hn' ▸ hput⟩
    · rename_i hn
      have : t + (j + 1 - o) = t + (j - o) + 1 := by omega
      exact ⟨by omega, this ▸ hput, hkeep⟩
  · obtain ⟨htn, hs, _⟩ := hw
    rw [show o + (256 - o) - o = 256 - o by omega] at htn hs
    exact ⟨htn, hs⟩

theorem Stored.writeBlock (h : Stored M k loc data fs₀ c₀ t w) (hf : Feasible M k n loc data fs₀ c₀)
    (ht : t < n) (hm : m < 4168) (hr : Rooted w.fs (leafOf k m)) (ho : o < 256)
    (hloc : ∀ j, j < 256 - o → t + j < n → loc (t + j) = 256 * m + (o + j)) :
    Ending M k loc data fs₀ c₀ n (t + (256 - o))
      (writeBlock k data n (slotOf w.fs (leafOf k m)) o w) := by
  have hp := leafOf_valid (k := k) hf.node hm
  have hb : firstBlock (leafOf k m) ≤ loc t / 256 := by
    have := hloc 0 (by omega) ht
    rw [Nat.add_zero] at this
    rw [firstBlock_leafOf, this]
    omega
  unfold Write.writeBlock
  rcases h.ensure hf ht hp (leafOf_node k m) hr hb with ⟨fs', he, hs⟩ | ⟨he, hM⟩
  · rw [he]
    obtain ⟨-, h0, hslot, hr', -⟩ := ensureBlock_grows h.owned hp hr he
    dsimp only
    rw [← hslot, ← ref_eq_ptrAt hr']
    exact hs.writeBytes hf ht hm h0 ho hloc
  · rw [he]
    exact .inr ⟨rfl, hM, t, ht, h⟩

/-- The loop over blocks `m`, …, `m + c - 1`; `slot` is where they are found, as
long as the index block they hang on stays in place. -/
theorem Stored.writeBlocks (h : Stored M k loc data fs₀ c₀ t w) (hf : Feasible M k n loc data fs₀ c₀)
    (ht : t < n) (hm : m + c ≤ 4168) (ho : o < 256) (hv : Visits loc n t m o c)
    (slot : Nat → PtrSlot) (a : Nat)
    (hslot : ∀ i w', i < c → Wrote k w w' →
      Rooted w'.fs (leafOf k (m + i)) ∧ slot (a + i) = slotOf w'.fs (leafOf k (m + i))) :
    Ending M k loc data fs₀ c₀ n (t + c * (256 - o))
      (forFrom (fun i => Write.writeBlock k data n (slot i) o) a c w) := by
  refine (forFrom_ends (a := a) (s := w) (fun i w' => Wrote k w w' ∧ t + (i - a) * (256 - o) < n ∧
    Stored M k loc data fs₀ c₀ (t + (i - a) * (256 - o)) w') ⟨.refl h.owned, by simpa using ht,
      by simpa using h⟩ fun i w' hi hlt hw => ?_).mono (fun w' hw => ?_) fun _ _ hw => hw
  · obtain ⟨hwr, htn, hs⟩ := hw
    have hi' : a + (i - a) = i := by omega
    obtain ⟨hr, hsl⟩ := hslot (i - a) w' (by omega) hwr
    rw [hi'] at hsl
    rw [hsl]
    have hblock := hs.writeBlock hf htn (m := m + (i - a)) (by omega) hr ho
      fun j hj hlt' => hv (i - a) j (by omega) hj hlt'
    have hp := leafOf_valid (k := k) hf.node (show m + (i - a) < 4168 by omega)
    have hgrow := writeBlock_wrote (n := n) hs.owned hp (leafOf_isLeaf k _)
      (leafOf_node k _) hr data o
    have he : t + (i + 1 - a) * (256 - o) = t + (i - a) * (256 - o) + (256 - o) := by
      rw [show i + 1 - a = (i - a) + 1 by omega, Nat.add_mul]; omega
    refine (Flow.Ends.and hblock hgrow).mono (fun w'' h' => ?_) fun w'' r h' => h'.1
    rw [he]
    exact ⟨hwr.trans h'.2, h'.1⟩
  · rw [show a + c - a = c by omega] at hw
    exact hw.2

/-! ## The stages -/

theorem Stored.writeDirect (h : Stored M k loc data fs₀ c₀ t w) (hf : Feasible M k n loc data fs₀ c₀)
    (ht : t < n) (hq : w.cursor / 256 ≤ 4168)
    (hv : Visits loc n t (w.cursor / 256) (w.cursor % 256) (8 - w.cursor / 256)) :
    Ending M k loc data fs₀ c₀ n (t + (8 - w.cursor / 256) * (256 - w.cursor % 256))
      (writeDirect k data n w) := by
  refine h.writeBlocks hf ht (by omega) (by omega) hv _ _ fun i w' hi _ => ?_
  rw [leafOf_direct (by omega)]
  exact ⟨fun _ _ hu => (by cases hu), rfl⟩

theorem Stored.writeSingle (h : Stored M k loc data fs₀ c₀ t w) (hf : Feasible M k n loc data fs₀ c₀)
    (ht : t < n) (h8 : 8 ≤ (w.fs.inodes k).size / 256) (h72 : (w.fs.inodes k).size / 256 < 72)
    (hv : Visits loc n t ((w.fs.inodes k).size / 256) ((w.fs.inodes k).size % 256)
      (72 - (w.fs.inodes k).size / 256)) :
    Ending M k loc data fs₀ c₀ n
      (t + (72 - (w.fs.inodes k).size / 256) * (256 - (w.fs.inodes k).size % 256))
      (writeSingle k data n w) := by
  have hr : Rooted w.fs (.single k) := fun _ _ hu => by cases hu
  have hb : firstBlock (.single k) ≤ loc t / 256 := by
    have := hv.head (by omega) (by omega) ht
    show 8 ≤ _
    omega
  unfold Write.writeSingle
  rw [if_pos ⟨h8, h72⟩, show PtrSlot.singleIndirect k = slotOf w.fs (.single k) from rfl]
  rcases h.ensure hf ht (p := .single k) hf.node rfl hr hb with ⟨fs', he, hs⟩ | ⟨he, hM⟩
  · rw [he]
    obtain ⟨-, h0, -, -, -⟩ := ensureBlock_grows (p := .single k) h.owned hf.node hr he
    generalize (w.fs.inodes k).size / 256 = q at *
    have hc : 64 - (q - 8) = 72 - q := by omega
    dsimp only
    rw [hc]
    refine hs.writeBlocks hf ht (by omega) (by omega) hv _ _ fun i w' hi hwr => ?_
    have hm : q + i = 8 + (q - 8 + i) := by omega
    rw [hm, leafOf_single (by omega)]
    exact hwr.slot (q := .sleaf k (q - 8 + i)) (r := .single k) rfl hf.node h0
  · rw [he]
    exact .inr ⟨rfl, hM, t, ht, h⟩

/-- One index block of the double-indirect part, from its block `s` on. -/
theorem Stored.writeIndex (h : Stored M k loc data fs₀ c₀ t w) (hf : Feasible M k n loc data fs₀ c₀)
    (ht : t < n) (h0 : ref w.fs (.double k) ≠ 0) (ho : o < 256) {i : Nat} (hi : i < 64)
    (hseg : w.seg / 64 < 64)
    (hv : Visits loc n t (72 + 64 * i + w.seg / 64) o (64 - w.seg / 64)) :
    Ending M k loc data fs₀ c₀ n (t + (64 - w.seg / 64) * (256 - o))
      (writeIndex k data n (blockOf (ref w.fs (.double k))) o i w) := by
  have hup : (Place.index k i).up = some (.double k, i) := rfl
  have hr0 := (Wrote.refl (k := k) h.owned).slot hup hf.node h0
  have hp : (Place.index k i).Valid := ⟨hf.node, hi⟩
  have hb : firstBlock (.index k i) ≤ loc t / 256 := by
    have := hv.head (by omega) ho ht
    show 72 + 64 * i ≤ _
    omega
  unfold Write.writeIndex
  rw [hr0.2]
  rcases h.ensure hf ht hp rfl hr0.1 hb with ⟨fs', he, hs⟩ | ⟨he, hM⟩
  · rw [he]
    obtain ⟨-, h0', hslot, hr, -⟩ := ensureBlock_grows h.owned hp hr0.1 he
    dsimp only
    rw [← hslot, ← ref_eq_ptrAt hr]
    refine (hs.seg (w.seg / 64)).writeBlocks hf ht (by omega) ho hv _ _ fun j w' hj hwr => ?_
    rw [Nat.add_assoc, leafOf_double (by omega)]
    exact hwr.slot (q := .dleaf k i (w.seg / 64 + j)) (r := .index k i) rfl hp h0'
  · rw [he]
    exact .inr ⟨rfl, hM, t, ht, h⟩

theorem writeIndex_seg (b o i : Nat) (w : Writer) (n : Int) :
    (writeIndex k data n b o i w).Ends (fun w' => w'.seg = w.seg / 64) fun _ _ => True := by
  unfold writeIndex
  split
  · trivial
  · rename_i fs' _
    have hk : Kept k data fun w' => w'.seg = w.seg / 64 := ⟨fun _ _ _ h _ => h, fun _ _ _ h _ => h⟩
    exact (hk.writeBlocks (w := { w with fs := fs', seg := w.seg / 64 }) rfl _ _ _ _).mono
      (fun _ h => h) fun _ _ _ => trivial

/-- The loop over the index blocks, from block `a` of the first one on. -/
theorem Stored.writeIndexes (h : Stored M k loc data fs₀ c₀ t w)
    (hf : Feasible M k n loc data fs₀ c₀) (ht : t < n) (h0 : ref w.fs (.double k) ≠ 0)
    (ho : o < 256) {a : Nat} (ha : w.seg / 64 = a) (ha64 : a < 64)
    (hv : Visits loc n t (72 + a) o (4096 - a)) :
    Ending M k loc data fs₀ c₀ n (t + (4096 - a) * (256 - o))
      (forFrom (Write.writeIndex k data n (blockOf (ref w.fs (.double k))) o) 0 64 w) := by
  -- before pass `i` the loop has run through the blocks below `64 * i`
  refine (forFrom_ends (a := 0) (n := 64) (s := w) (fun i w' =>
    (w'.seg / 64 = if i = 0 then a else 0) ∧ ref w'.fs (.double k) = ref w.fs (.double k) ∧
      ∃ d, d = 64 * i - a ∧ t + d * (256 - o) < n ∧
        Stored M k loc data fs₀ c₀ (t + d * (256 - o)) w')
    ⟨by simpa using ha, rfl, 0, by omega, by simpa using ht, by simpa using h⟩
    fun i w' _ hi hw => ?_).mono (fun w' hw => ?_) fun _ _ hw => hw
  · obtain ⟨hseg, hd, d, hd', htn, hs'⟩ := hw
    have h0' : ref w'.fs (.double k) ≠ 0 := by rw [hd]; exact h0
    have hblock : 72 + a + d = 72 + 64 * i + w'.seg / 64 := by
      rw [hseg]
      split
      · subst i; omega
      · omega
    have hsum : d + (64 - w'.seg / 64) = 64 * (i + 1) - a := by
      rw [hseg]
      split
      · subst i; omega
      · omega
    have hvi := hv.from (d := d) (e := 64 - w'.seg / 64) (by omega)
    rw [hblock] at hvi
    have hwi := hs'.writeIndex hf htn h0' ho (i := i) (by omega) (by rw [hseg]; split <;> omega) hvi
    have hgrow := writeIndex_wrote (n := n) hf.node hs'.owned (i := i) (by omega)
      h0' data o
    rw [← hd]
    refine ((Flow.Ends.and hwi hgrow).and (writeIndex_seg _ o i w' n)).mono (fun w'' h' => ?_)
      fun w'' r h' => h'.1.1
    obtain ⟨⟨⟨htn', hs''⟩, hg⟩, hsg⟩ := h'
    refine ⟨?_, ?_, d + (64 - w'.seg / 64), hsum, ?_, ?_⟩
    · rw [hsg, hseg, if_neg (Nat.succ_ne_zero i)]
      split <;> omega
    · rw [hg.grows.keeps (.double k) hf.node fun _ => h0', hd]
    · rw [Nat.add_mul, ← Nat.add_assoc]; exact htn'
    · rw [Nat.add_mul, ← Nat.add_assoc]; exact hs''
  · obtain ⟨-, -, d, hd', htn, hs'⟩ := hw
    have : d = 4096 - a := by omega
    subst this
    exact ⟨htn, hs'⟩

/-- The double-indirect stage begins in block `(q - 72) / 64` of the first index
block, where the size points to block `q` of the file. -/
theorem Stored.writeDouble (h : Stored M k loc data fs₀ c₀ t w)
    (hf : Feasible M k n loc data fs₀ c₀) (ht : t < n) {q : Nat}
    (hq : (w.fs.inodes k).size / 256 = q) (h72 : 72 ≤ q) (h4168 : q < 4168)
    (hv : Visits loc n t (72 + (q - 72) / 64) ((w.fs.inodes k).size % 256)
      (4096 - (q - 72) / 64)) :
    Ending M k loc data fs₀ c₀ n
      (t + (4096 - (q - 72) / 64) * (256 - (w.fs.inodes k).size % 256))
      (writeDouble k data n w) := by
  have hr : Rooted w.fs (.double k) := fun _ _ hu => by cases hu
  have hb : firstBlock (.double k) ≤ loc t / 256 := by
    have := hv.head (by omega) (by omega) ht
    show 72 ≤ _
    omega
  unfold Write.writeDouble
  rw [hq, if_pos ⟨h72, h4168⟩, show PtrSlot.doubleIndirect k = slotOf w.fs (.double k) from rfl]
  rcases h.ensure hf ht (p := .double k) hf.node rfl hr hb with ⟨fs', he, hs⟩ | ⟨he, hM⟩
  · rw [he]
    obtain ⟨-, h0, -, -, -⟩ := ensureBlock_grows (p := .double k) h.owned hf.node hr he
    have ho : (w.fs.inodes k).size % 256 < 256 := Nat.mod_lt _ (by omega)
    generalize (w.fs.inodes k).size % 256 = o at *
    exact (hs.seg (q - 8 - 64)).writeIndexes hf ht h0 ho (by show (q - 8 - 64) / 64 = _; omega)
      (by omega) hv
  · rw [he]
    exact .inr ⟨rfl, hM, t, ht, h.seg q⟩

/-! ## The whole call -/

/-- A seamless write at the end of the file stores its bytes one after the other. -/
theorem writeStages_seamless (hf : Feasible M k n (c + ·) data fs₀ c) (hn : 0 < n)
    (hc : (fs₀.inodes k).size = c) (hmax : c + n ≤ 1067008) (hs : Seamless c n)
    (ho : Owned every fs₀) (hroom : Roomy M k fs₀) :
    (∃ w', writeStages k data n ⟨fs₀, c, 0, 0⟩ = .ret w' n ∧
      Stored M k (c + ·) data fs₀ c n w') ∨
    (M = 0 ∧ ∃ w', writeStages k data n ⟨fs₀, c, 0, 0⟩ = .ret w' (-1)) := by
  have h0 : Stored M k (c + ·) data fs₀ c 0 ⟨fs₀, c, 0, 0⟩ :=
    ⟨ho, hroom, rfl, rfl, rfl, fun _ _ => rfl⟩
  have hends : (writeStages k data n ⟨fs₀, c, 0, 0⟩).Ends (fun _ => False)
      fun w' r => (r = (n : Int) ∧ Stored M k (c + ·) data fs₀ c n w') ∨
        (r = -1 ∧ M = 0 ∧ ∃ t, t < n ∧ Stored M k (c + ·) data fs₀ c t w') := by
    unfold writeStages
    -- after the direct blocks: at block 8, or still at the start
    refine Flow.Ends.bind (M := fun _ => False) (Flow.Ends.bind
      (M := fun w => ∃ t, t < n ∧ Stored M k (c + ·) data fs₀ c t w ∧ (t = 0 ∨ c + t = 18432) ∧
        18432 ≤ c + t) (Flow.Ends.bind
      (M := fun w => ∃ t, t < n ∧ Stored M k (c + ·) data fs₀ c t w ∧ (t = 0 ∨ c + t = 2048) ∧
        2048 ≤ c + t) ?_ ?_) ?_) fun _ h => h.elim
    · have hm : c + 0 = 256 * (c / 256) + c % 256 := by omega
      have hcase : c / 256 < 8 → c % 256 = 0 ∨ 8 - c / 256 ≤ 1 ∨ n ≤ 0 + (256 - c % 256) := by
        unfold Seamless at hs; omega
      have hv : Visits (c + ·) n 0 (c / 256) (c % 256) (8 - c / 256) := by
        by_cases h8 : c / 256 < 8
        · exact visits_seamless hm (by omega) (hcase h8)
        · exact fun i j hi => by omega
      refine (h0.writeDirect hf hn (by show c / 256 ≤ 4168; omega) hv).mono (fun w hw => ?_)
        fun _ _ h => h
      refine ⟨_, hw.1, hw.2, ?_⟩
      have ht := hw.1
      dsimp only at ht ⊢
      by_cases h8 : c / 256 < 8
      · have := seamless_end hm (by omega) (by omega) (hcase h8) ht
        omega
      · rw [show 8 - c / 256 = 0 by omega] at ht ⊢
        omega
    · rintro w ⟨t, ht, hst, h2048, hge⟩
      have hsize := hst.size
      rw [hc] at hsize
      by_cases h72 : (c + t) / 256 < 72
      · have hm : c + t = 256 * ((c + t) / 256) + (c + t) % 256 := by omega
        have hcase : (c + t) % 256 = 0 ∨ 72 - (c + t) / 256 ≤ 1 ∨ n ≤ t + (256 - (c + t) % 256) := by
          unfold Seamless at hs
          rcases h2048 with rfl | h2048
          · simp only [Nat.add_zero] at h72 hge ⊢; omega
          · rw [h2048]; omega
        have hw := hst.writeSingle hf ht (by omega) (by rw [hsize]; exact h72)
          (by rw [hsize]; exact visits_seamless hm (by omega) hcase)
        rw [hsize] at hw
        refine hw.mono (fun w' hw' => ⟨_, hw'.1, hw'.2, ?_⟩) fun _ _ h => h
        have := seamless_end hm (by omega) (by omega) hcase hw'.1
        omega
      · unfold Write.writeSingle
        rw [hsize, if_neg (by omega)]
        exact ⟨t, ht, hst, by omega, by omega⟩
    · rintro w ⟨t, ht, hst, h18432, hge⟩
      have hsize := hst.size
      rw [hc] at hsize
      have hq : (c + t) / 256 = 72 := by
        unfold Seamless at hs
        rcases h18432 with rfl | h
        · simp only [Nat.add_zero] at hge ⊢; omega
        · rw [h]
      have hm : c + t = 256 * 72 + (c + t) % 256 := by omega
      have hcase : (c + t) % 256 = 0 ∨ 4096 ≤ 1 ∨ n ≤ t + (256 - (c + t) % 256) := by
        unfold Seamless at hs
        rcases h18432 with rfl | h
        · simp only [Nat.add_zero] at hge hq ⊢; omega
        · rw [h]; omega
      have hw := hst.writeDouble hf ht (q := 72) (by rw [hsize, hq]) (Nat.le_refl _) (by omega)
        (by rw [hsize]; exact visits_seamless hm (by omega) hcase)
      rw [hsize] at hw
      refine hw.mono (fun w' hw' => ?_) fun _ _ h => h
      have := seamless_end hm (by omega) (by omega) hcase hw'.1
      have := hw'.1
      omega
  cases h : writeStages k data n ⟨fs₀, c, 0, 0⟩ with
  | next s => rw [h] at hends; exact hends.elim
  | ret s r =>
    rw [h] at hends
    rcases hends with ⟨rfl, hst⟩ | ⟨rfl, hM, -⟩
    · exact .inl ⟨s, rfl, hst⟩
    · exact .inr ⟨hM, s, rfl⟩

theorem Ending.state {fl : Flow Writer Int} (h : Ending M k loc data fs₀ c₀ n t fl) :
    ∃ t, t ≤ n ∧ Stored M k loc data fs₀ c₀ t fl.state := by
  cases fl with
  | next w => exact ⟨t, h.1.le, h.2⟩
  | ret w r =>
    rcases h with ⟨-, h⟩ | ⟨-, -, t', ht, h⟩
    · exact ⟨n, Nat.le_refl _, h⟩
    · exact ⟨t', ht.le, h⟩

/-- Any other write at the end of the file stays in the stage it begins in, and
skips the first bytes of the blocks it goes on to. -/
theorem writeStages_skips
    (hf : Feasible M k n (stageLoc (startBlock (c / 256)) (c % 256)) data fs₀ c) (hn : 0 < n)
    (hc : (fs₀.inodes k).size = c) (hmax : c < 1067008)
    (hs : 72 ≤ c / 256 ∨ (c % 256 ≠ 0 ∧ c / 256 ≠ 7 ∧ c / 256 ≠ 71))
    (ho : Owned every fs₀) (hroom : Roomy M k fs₀) :
    ∃ t, t ≤ n ∧ Stored M k (stageLoc (startBlock (c / 256)) (c % 256)) data fs₀ c t
      (writeStages k data n ⟨fs₀, c, 0, 0⟩).state := by
  have h0 : Stored M k (stageLoc (startBlock (c / 256)) (c % 256)) data fs₀ c 0 ⟨fs₀, c, 0, 0⟩ :=
    ⟨ho, hroom, rfl, rfl, rfl, fun _ _ => rfl⟩
  have hsize : ∀ {t w}, Stored M k (stageLoc (startBlock (c / 256)) (c % 256)) data fs₀ c t w →
      (w.fs.inodes k).size = c + t := fun h => by rw [h.size, hc]
  -- the stages that are not entered
  have single : ∀ w t, Stored M k (stageLoc (startBlock (c / 256)) (c % 256)) data fs₀ c t w →
      ((c + t) / 256 < 8 ∨ 72 ≤ (c + t) / 256) → writeSingle k data n w = .next w := by
    intro w t h hq
    unfold Write.writeSingle
    rw [hsize h, if_neg (by omega)]
  have double : ∀ w t, Stored M k (stageLoc (startBlock (c / 256)) (c % 256)) data fs₀ c t w →
      (c + t) / 256 < 72 → ∃ s, writeDouble k data n w = .next { w with seg := s } := by
    intro w t h hq
    unfold Write.writeDouble
    rw [hsize h, if_neg (by omega)]
    exact ⟨_, rfl⟩
  have last : ∀ fl : Flow Writer Int, (fl.bind fun w => if 4168 ≤ w.seg then Flow.ret w w.written
      else .ret w 0).state = fl.state := by
    intro fl
    cases fl with
    | next w =>
      simp only [Flow.bind_next, Flow.state_next]
      split <;> rfl
    | ret w r => rfl
  unfold Write.writeStages
  rw [last]
  have hstart : c / 256 < 72 → startBlock (c / 256) = c / 256 := fun h => if_pos h
  by_cases h8 : c / 256 < 8
  · have hd := h0.writeDirect hf hn (by show c / 256 ≤ 4168; omega)
      (by show Visits _ n 0 (c / 256) (c % 256) _; rw [hstart (by omega)]; exact visits_stageLoc)
    dsimp only at hd
    cases hfl : Write.writeDirect k data n ⟨fs₀, c, 0, 0⟩ with
    | ret w r =>
      rw [hfl] at hd
      exact Ending.state hd
    | next w =>
      rw [hfl] at hd
      obtain ⟨htn, hst⟩ := hd
      have hlt : c + (0 + (8 - c / 256) * (256 - c % 256)) < 2048 := by
        have : (8 - c / 256) * (256 - c % 256) + (8 - c / 256) * (c % 256) =
            (8 - c / 256) * 256 := by rw [← Nat.mul_add]; congr 1; omega
        have : 2 * (c % 256) ≤ (8 - c / 256) * (c % 256) := Nat.mul_le_mul_right _ (by omega)
        omega
      obtain ⟨s, hs'⟩ := double w _ hst (by omega)
      rw [Flow.bind_next, single w _ hst (by omega), Flow.bind_next, hs']
      exact ⟨_, htn.le, hst.seg s⟩
  · have hd : Write.writeDirect k data n ⟨fs₀, c, 0, 0⟩ = .next ⟨fs₀, c, 0, 0⟩ := by
      unfold Write.writeDirect
      dsimp only
      rw [show 8 - c / 256 = 0 by omega]
      rfl
    rw [hd, Flow.bind_next]
    by_cases h72 : c / 256 < 72
    · have hw := h0.writeSingle hf hn (by rw [hc]; omega) (by rw [hc]; exact h72)
        (by rw [hc, hstart h72]; exact visits_stageLoc)
      rw [hc] at hw
      cases hfl : Write.writeSingle k data n ⟨fs₀, c, 0, 0⟩ with
      | ret w r =>
        rw [hfl] at hw
        exact Ending.state hw
      | next w =>
        rw [hfl] at hw
        obtain ⟨htn, hst⟩ := hw
        have hlt : c + (0 + (72 - c / 256) * (256 - c % 256)) < 18432 := by
          have : (72 - c / 256) * (256 - c % 256) + (72 - c / 256) * (c % 256) =
              (72 - c / 256) * 256 := by rw [← Nat.mul_add]; congr 1; omega
          have : 2 * (c % 256) ≤ (72 - c / 256) * (c % 256) := Nat.mul_le_mul_right _ (by omega)
          omega
        obtain ⟨s, hs'⟩ := double w _ hst (by omega)
        rw [Flow.bind_next, hs']
        exact ⟨_, htn.le, hst.seg s⟩
    · rw [single _ 0 h0 (by omega), Flow.bind_next]
      have hw := h0.writeDouble hf hn (q := c / 256) (by rw [hc]) (by omega) (by omega)
        (by
          rw [hc, show 72 + (c / 256 - 72) / 64 = startBlock (c / 256) from (if_neg h72).symm]
          exact visits_stageLoc)
      exact hw.state

end ToyOS.Ramdisk.Storing
