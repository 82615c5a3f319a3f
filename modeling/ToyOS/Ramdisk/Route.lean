import ToyOS.Lib.Provision
import ToyOS.Ramdisk.Counting
import ToyOS.Ramdisk.Storing

/-! # The way of a write

`rd_write` comes to the pointers of a file in a fixed order: the direct ones from
the cursor on, then those of the single level and those of the double level, each
from where the size points to by then. `route` lists them with the bytes of their
blocks that are offered to the buffer, `stored` is how many of these are used, and
a write ends the way a walk along the route does that has `free_blocks` as its
provisions.
-/
namespace ToyOS.Ramdisk.Route
open ToyOS.Lib.Loop ToyOS.Lib.Words ToyOS.Lib.Overlay ToyOS.Lib.Provision
open ToyOS.Ramdisk.Image ToyOS.Ramdisk.Blocks ToyOS.Ramdisk.Places ToyOS.Ramdisk.Ownership
open ToyOS.Ramdisk.Growth ToyOS.Ramdisk.Write ToyOS.Ramdisk.Files ToyOS.Ramdisk.Writing
open ToyOS.Ramdisk.Counting
open ToyOS.Ramdisk.Supply (absent)

/-! ## The bytes stored -/

/-- The bytes stored after `m` positions have been visited: from a zero byte of the
buffer on, none. -/
def stored (data : Bytes) : Nat → Nat
  | 0 => 0
  | m + 1 => if data (stored data m) ≠ 0 then stored data m + 1 else stored data m

variable {data : Bytes} {m m' : Nat} {n : Int}

theorem stored_succ_ge (data : Bytes) (m : Nat) : stored data m ≤ stored data (m + 1) := by
  rw [stored]
  split <;> omega

theorem stored_mono (h : m ≤ m') : stored data m ≤ stored data m' := by
  induction m', h using Nat.le_induction with
  | base => exact Nat.le_refl _
  | succ m' _ ih => exact ih.trans (stored_succ_ge data m')

theorem stored_eq_zero : stored data m = 0 ↔ m = 0 ∨ data 0 = 0 := by
  induction m with
  | zero => exact iff_of_true rfl (.inl rfl)
  | succ m ih =>
    rw [stored]
    by_cases h : data 0 = 0
    · have hz : stored data m = 0 := ih.mpr (.inr h)
      rw [hz, if_neg (not_not.mpr h)]
      exact iff_of_true rfl (.inr h)
    · refine iff_of_false (fun e => ?_) fun e => e.elim (Nat.succ_ne_zero m) h
      by_cases hne : data (stored data m) ≠ 0
      · rw [if_pos hne] at e
        omega
      · rw [if_neg hne] at e
        rw [e] at hne
        exact hne h

theorem stored_nonzero (h : ∀ i, i < m → data i ≠ 0) : stored data m = m := by
  induction m with
  | zero => rfl
  | succ m ih => rw [stored, ih fun i hi => h i (by omega), if_pos (h m (by omega))]

/-- The first zero byte of the buffer ends the storing. -/
theorem stored_of_zero {z : Nat} (h : ∀ i, i < z → data i ≠ 0) (h0 : data z = 0) (m : Nat) :
    stored data m = min m z := by
  induction m with
  | zero => exact (Nat.zero_min z).symm
  | succ m ih =>
    rw [stored, ih]
    by_cases hm : m < z
    · rw [min_eq_left hm.le, if_pos (h m hm), min_eq_left hm]
    · rw [min_eq_right (not_lt.mp hm), if_neg (not_not.mpr h0), min_eq_right (by omega)]

/-- The count is met. -/
def Met (data : Bytes) (n : Int) (m : Nat) : Prop := 0 < n ∧ n ≤ stored data m

instance (data : Bytes) (n : Int) : DecidablePred (Met data n) :=
  fun m => inferInstanceAs (Decidable (0 < n ∧ n ≤ stored data m))

theorem Met.mono (h : Met data n m) (hle : m ≤ m') : Met data n m' :=
  ⟨h.1, h.2.trans (Int.ofNat_le.mpr (stored_mono hle))⟩

theorem not_met_zero (data : Bytes) (n : Int) : ¬ Met data n 0 := fun h => by
  have h1 := h.1
  have h2 : n ≤ ((0 : Nat) : Int) := h.2
  omega

/-! ## The pointers on the way -/

section
variable (need : Place → Nat) (k : Nat)

/-- The leaf pointers `lo`, …, `lo + c - 1` of a level; in every block the bytes from
`o` on are offered. -/
def leafStops (leaf : Nat → Place) (o lo c : Nat) : List Stop :=
  (List.range' lo c).flatMap fun i => [⟨need (leaf i), 256 - o⟩]

def directStops (cursor : Nat) : List Stop :=
  leafStops need (.direct k) (cursor % 256) (cursor / 256) (8 - cursor / 256)

def singleStops (size : Nat) : List Stop :=
  if 8 ≤ size / 256 ∧ size / 256 < 72 then
    ⟨need (.single k), 0⟩ ::
      leafStops need (.sleaf k) (size % 256) (size / 256 - 8) (64 - (size / 256 - 8))
  else []

/-- An index block of the double level, from its pointer `a` on. -/
def indexStops (o i a : Nat) : List Stop :=
  ⟨need (.index k i), 0⟩ :: leafStops need (.dleaf k i) o a (64 - a)

/-- Only the first index block is entered at a later pointer than its first. -/
def indexStart (seg i : Nat) : Nat := if i = 0 then (seg - 72) / 64 else 0

def doubleStops (size : Nat) : List Stop :=
  if 72 ≤ size / 256 ∧ size / 256 < 4168 then
    ⟨need (.double k), 0⟩ ::
      (List.range' 0 64).flatMap fun i => indexStops need k (size % 256) i (indexStart (size / 256) i)
  else []

/-- The size when the single level is come to, from size `s` and cursor `c` on. -/
def sizeAtSingle (s c : Nat) (data : Bytes) : Nat :=
  u32 (s + stored data (rooms (directStops need k c)))

/-- The size when the double level is come to. -/
def sizeAtDouble (s c : Nat) (data : Bytes) : Nat :=
  u32 (s + stored data (rooms (directStops need k c) +
    rooms (singleStops need k (sizeAtSingle need k s c data))))

def routeFrom (s c : Nat) (data : Bytes) : List Stop :=
  directStops need k c ++ singleStops need k (sizeAtSingle need k s c data) ++
    doubleStops need k (sizeAtDouble need k s c data)

end

/-- The route of a write to inode `k` from cursor `c` on: a pointer that is NULL
needs a block. -/
def route (fs : FileSys) (k c : Nat) (data : Bytes) : List Stop :=
  routeFrom (absent fs) k (fs.inodes k).size c data

/-! ## The writer on its way -/

/-- Where a place comes in the order of the pointers, an index block before the
blocks below it. -/
def order : Place → Nat
  | .direct _ i => 3 * i + 2
  | .single _ => 24
  | .sleaf _ i => 3 * (8 + i) + 2
  | .double _ => 216
  | .index _ i => 3 * (72 + 64 * i) + 1
  | .dleaf _ i j => 3 * (72 + 64 * i + j) + 2

theorem order_leafOf (k m : Nat) : order (leafOf k m) = 3 * m + 2 := by
  unfold leafOf
  split
  · rfl
  · split
    · show 3 * (8 + (m - 8)) + 2 = 3 * m + 2
      omega
    · show 3 * (72 + 64 * ((m - 72) / 64) + (m - 72) % 64) + 2 = 3 * m + 2
      omega

/-- The writer with `a` blocks left and `t` bytes stored, all of them before position
`top`: from `x` on the pointers are still as in the image `fs` it began with. -/
structure Walked (k : Nat) (data : Bytes) (fs : FileSys) (c x top a t : Nat) (w : Writer) : Prop where
  owned : Owned every w.fs
  free : w.fs.freeBlocks = a
  spent : a ≤ fs.freeBlocks
  written : w.written = t
  moved : Moved k (fs.inodes k).size c w
  ahead : ∀ q, q.Valid → q.node = k → x ≤ order q → ref w.fs q = ref fs q
  idle : t = 0 → a = fs.freeBlocks → w.fs = fs
  placed : ∃ loc : Nat → Nat, (∀ i j, i < j → j < t → loc i < loc j) ∧ (∀ i, i < t → loc i < top) ∧
    ∀ pos, pos < 1067008 → byteAt w.fs k pos = overlay loc data (byteAt fs k) t pos

variable {k c x x' top top' a t o j : Nat} {fs : FileSys} {w : Writer} {p : Place}

theorem walked_start (ho : Owned every fs) (hs : (fs.inodes k).size < 2 ^ 32) (hc : c < 2 ^ 32) :
    Walked k data fs c 0 0 fs.freeBlocks 0 ⟨fs, c, 0, 0⟩ where
  owned := ho
  free := rfl
  spent := Nat.le_refl _
  written := rfl
  moved := moved_start hs hc
  ahead _ _ _ _ := rfl
  idle _ _ := rfl
  placed := ⟨id, fun _ _ h _ => h, fun i h => absurd h (Nat.not_lt_zero i), fun _ _ => rfl⟩

theorem Walked.mono (h : Walked k data fs c x top a t w) (hx : x ≤ x') (htop : top ≤ top') :
    Walked k data fs c x' top' a t w := by
  obtain ⟨loc, hinc, hlt, hbytes⟩ := h.placed
  exact ⟨h.owned, h.free, h.spent, h.written, h.moved,
    fun q hq hn hxq => h.ahead q hq hn (hx.trans hxq), h.idle, loc, hinc,
    fun i hi => (hlt i hi).trans_le htop, hbytes⟩

theorem Walked.seg (h : Walked k data fs c x top a t w) (s : Nat) :
    Walked k data fs c x top a t { w with seg := s } :=
  ⟨h.owned, h.free, h.spent, h.written, h.moved, h.ahead, h.idle, h.placed⟩

/-- A byte is stored behind those before it. -/
theorem Walked.put (h : Walked k data fs c x (256 * m + j) a t w) (hk : k < 1024) (hm : m < 4168)
    (h0 : ref w.fs (leafOf k m) ≠ 0) (hj : j < 256) (hne : data t ≠ 0) :
    Walked k data fs c x (256 * m + (j + 1)) a (t + 1)
      (putByte k data (blockOf (ref w.fs (leafOf k m))) j w) := by
  have hp := leafOf_valid hk hm
  have hg := putByte_wrote h.owned hp (leafOf_isLeaf k m) (leafOf_node k m) h0 data j
  have hr : ∀ q, q.Valid → ref (putByte k data (blockOf (ref w.fs (leafOf k m))) j w).fs q =
      ref w.fs q := by
    intro q hq
    refine (ref_setSize _ k _ q).trans (ref_setBlock fun r hi hv _ e => ?_)
    rw [ptrTo_blockOf h0] at e
    have := h.owned.unique (hv hq) trivial hp trivial (by rw [e]; exact h0) e
    exact leafOf_isLeaf k m (this ▸ hi)
  obtain ⟨loc, hinc, hlt, hbytes⟩ := h.placed
  have hne' : data w.written ≠ 0 := by rw [h.written]; exact hne
  refine ⟨hg.grows.owned, h.free, h.spent, ?_, (moved_kept k _ c data).put w _ j h.moved hne',
    fun q hq hn hx => (hr q hq).trans (h.ahead q hq hn hx), fun e => by omega,
    Function.update loc t (256 * m + j), fun i i' hi hi' => ?_, fun i hi => ?_, fun pos hpos => ?_⟩
  · simp only [putByte, h.written]
  · rw [Function.update_of_ne (by omega)]
    by_cases e : i' = t
    · rw [e, Function.update_self]
      exact hlt i (by omega)
    · rw [Function.update_of_ne e]
      exact hinc i i' hi (by omega)
  · by_cases e : i = t
    · rw [e, Function.update_self]
      omega
    · rw [Function.update_of_ne e]
      have := hlt i (by omega)
      omega
  · have hb : byteAt (putByte k data (blockOf (ref w.fs (leafOf k m))) j w).fs k pos =
        Function.update (byteAt w.fs k) (256 * m + j) (data w.written) pos :=
      (byteAt_of_eq (fun q => ref_setSize _ k _ q) rfl).trans
        (byteAt_store h.owned hk hm h0 hj _ hpos)
    have hsame : overlay (Function.update loc t (256 * m + j)) data (byteAt fs k) t =
        overlay loc data (byteAt fs k) t :=
      overlay_congr fun i hi => Function.update_of_ne (by omega) _ _
    rw [hb, overlay, hsame, Function.update_self, h.written]
    by_cases e : pos = 256 * m + j
    · rw [e, Function.update_self, Function.update_self]
    · rw [Function.update_of_ne e, Function.update_of_ne e]
      exact hbytes pos hpos

/-- A pointer still to come: there is no block for it, or it is set. -/
theorem Walked.ensure (h : Walked k data fs c x top a t w) (hp : p.Valid) (hn : p.node = k)
    (hr : Rooted w.fs p) (hx : x ≤ order p) :
    (a < absent fs p ∧ ensureBlock w.fs (slotOf w.fs p) = none) ∨
      (absent fs p ≤ a ∧ ∃ fs', ensureBlock w.fs (slotOf w.fs p) = some fs' ∧
        Walked k data fs c (order p + 1) top (a - absent fs p) t { w with fs := fs' }) := by
  subst hn
  have hsame := h.ahead p hp rfl hx
  have hptr : ref w.fs p = w.fs.ptrAt (slotOf w.fs p) := ref_eq_ptrAt hr
  by_cases h0 : ref fs p = 0
  · rw [Supply.absent_null h0]
    have hz : w.fs.ptrAt (slotOf w.fs p) = 0 := by rw [← hptr, hsame, h0]
    by_cases ha : a = 0
    · refine .inl ⟨by omega, Supply.ensure_none hz ?_⟩
      have := h.free
      unfold Supply.avail
      omega
    · cases he : ensureBlock w.fs (slotOf w.fs p) with
      | none =>
        exfalso
        have hav : Supply.avail w.fs ≠ 0 := by
          have hc := h.owned.counted
          have hf := h.free
          unfold Supply.avail
          omega
        obtain ⟨fs₁, b, ht⟩ := Supply.exists_take hav
        rw [ensureBlock, if_pos hz, ht] at he
        cases he
      | some fs' =>
        refine .inr ⟨by omega, fs', rfl, ?_⟩
        rcases ensureBlock_cases h.owned hp trivial hr he with ⟨hne, -⟩ | ⟨b, A⟩
        · exact absurd (hsame.trans h0) hne
        · have hx' := A.extends h.owned hp
          have hf := A.free
          have hfree := h.free
          obtain ⟨loc, hinc, hlt, hbytes⟩ := h.placed
          refine ⟨hx'.owned, by dsimp only; omega, by have := h.spent; omega, h.written,
            (moved_kept p.node _ c data).ensure w _ fs' h.moved he, fun q hq hnq hxq => ?_,
            fun _ e => by have := h.spent; omega, loc, hinc, hlt, fun pos hpos => ?_⟩
          · have hqp : q ≠ p := fun e => by
              rw [e] at hxq
              omega
            exact (A.other q hq trivial hqp).trans (h.ahead q hq hnq (by omega))
          · exact (byteAt_extends hx' hp.node_lt hpos).trans (hbytes pos hpos)
  · rw [Supply.absent_there h0]
    have hz : w.fs.ptrAt (slotOf w.fs p) ≠ 0 := by rw [← hptr, hsame]; exact h0
    exact .inr ⟨Nat.zero_le a, w.fs, Supply.ensure_there hz, h.mono (by omega) (Nat.le_refl top)⟩

/-! ## The passes -/

section
variable (k : Nat) (data : Bytes) (n : Int) (fs : FileSys) (c : Nat)

/-- The writer goes on: every place with order below `x` may be behind it. -/
def Goes (x a m : Nat) (w : Writer) : Prop :=
  ¬ Met data n m ∧ Walked k data fs c x (256 * (x / 3)) a (stored data m) w

/-- The writer at the end, wherever that is. -/
def Stands (a t : Nat) (w : Writer) : Prop := Walked k data fs c 12504 1067008 a t w

/-- `rd_write` returns with the count. -/
def Meets (a _m : Nat) (w : Writer) (r : Int) : Prop := r = n ∧ Stands k data fs c a n.toNat w

/-- `rd_write` returns for want of a block. -/
def RunsOut (a m : Nat) (w : Writer) (r : Int) : Prop := r = -1 ∧ Stands k data fs c a (stored data m) w

end

theorem Goes.mono (h : Goes k data n fs c x a m w) (hx : x ≤ x') : Goes k data n fs c x' a m w :=
  ⟨h.1, h.2.mono hx (by omega)⟩

theorem Walked.stands (h : Walked k data fs c x top a t w) (hx : x ≤ 12504) (htop : top ≤ 1067008) :
    Stands k data fs c a t w := h.mono hx htop

/-- The byte loop of one block. -/
theorem Walked.writeBytes {r : Nat} (h : Walked k data fs c x (256 * m) a (stored data r) w)
    (hnot : ¬ Met data n r) (hk : k < 1024) (hm : m < 4168) (h0 : ref w.fs (leafOf k m) ≠ 0)
    (ho : o ≤ 256) :
    (forFrom (writeByte k data n (blockOf (ref w.fs (leafOf k m)))) o (256 - o) w).Ends
      (fun w' => ¬ Met data n (r + (256 - o)) ∧
        Walked k data fs c x (256 * (m + 1)) a (stored data (r + (256 - o))) w')
      fun w' v => Met data n (r + (256 - o)) ∧ v = n ∧
        Walked k data fs c x (256 * (m + 1)) a n.toNat w' := by
  have hp := leafOf_valid hk hm
  -- before pass `j` the positions below `j` of the block have been visited
  refine (forFrom_ends (a := o) (n := 256 - o) (s := w) (fun j w' => ¬ Met data n (r + (j - o)) ∧
    Walked k data fs c x (256 * m + j) a (stored data (r + (j - o))) w' ∧
    ref w'.fs (leafOf k m) = ref w.fs (leafOf k m)) ⟨by simpa using hnot, ?_, rfl⟩
    fun j w' hj hlt hw => ?_).mono (fun w' hw => ?_) fun _ _ => id
  · rw [Nat.sub_self, Nat.add_zero]
    exact h.mono (Nat.le_refl x) (by omega)
  · obtain ⟨hno, hw', e⟩ := hw
    have hj' : r + (j + 1 - o) = r + (j - o) + 1 := by omega
    have h0' : ref w'.fs (leafOf k m) ≠ 0 := by rw [e]; exact h0
    have hwr := hw'.written
    unfold writeByte
    by_cases hz : data (stored data (r + (j - o))) = 0
    · have hsame : stored data (r + (j + 1 - o)) = stored data (r + (j - o)) := by
        rw [hj', stored, if_neg (not_not.mpr hz)]
      rw [hwr, if_neg (not_not.mpr hz)]
      refine ⟨?_, ?_, e⟩
      · unfold Met at hno ⊢
        rwa [hsame]
      · rw [hsame]
        exact hw'.mono (Nat.le_refl x) (by omega)
    · have hnext : stored data (r + (j + 1 - o)) = stored data (r + (j - o)) + 1 := by
        rw [hj', stored, if_pos hz]
      have hput := hw'.put hk hm h0' (show j < 256 by omega) hz
      have hkeep := (putByte_wrote hw'.owned hp (leafOf_isLeaf k m) (leafOf_node k m) h0'
        data j).grows.keeps _ hp fun _ => h0'
      rw [e] at hput hkeep
      have hwr' := hput.written
      rw [hwr, if_pos hz]
      dsimp only
      rw [← hnext] at hput hwr'
      by_cases hn : (stored data (r + (j + 1 - o)) : Int) = n
      · rw [hwr', if_pos hn]
        have hmet : Met data n (r + (j + 1 - o)) := ⟨by omega, by omega⟩
        refine ⟨hmet.mono (by omega), hn, ?_⟩
        rw [← hn, Int.toNat_natCast]
        exact hput.mono (Nat.le_refl x) (by omega)
      · rw [hwr', if_neg hn]
        refine ⟨fun hmet => ?_, hput, hkeep⟩
        obtain ⟨hpos, hle⟩ := hmet
        exact hno ⟨hpos, by omega⟩
  · obtain ⟨hno, hw', -⟩ := hw
    rw [show o + (256 - o) - o = 256 - o by omega] at hno hw'
    exact ⟨hno, hw'.mono (Nat.le_refl x) (by omega)⟩

/-- One leaf pointer. -/
theorem Goes.writeBlock (h : Goes k data n fs c x a m w) (hk : k < 1024) {b : Nat} (hb : b < 4168)
    (hr : Rooted w.fs (leafOf k b)) (ho : o ≤ 256) (hx : x ≤ 3 * b + 2) :
    Follows (Goes k data n fs c (3 * (b + 1))) (Meets k data n fs c) (RunsOut k data fs c)
      (walk (Met data n) a m [⟨absent fs (leafOf k b), 256 - o⟩])
      (writeBlock k data n (slotOf w.fs (leafOf k b)) o w) := by
  have hp := leafOf_valid hk hb
  have hord := order_leafOf k b
  obtain ⟨hnot, hw⟩ := h
  unfold Write.writeBlock
  rcases hw.ensure hp (leafOf_node k b) hr (by omega) with ⟨hlt, he⟩ | ⟨hle, fs', he, hw'⟩
  · rw [he, walk_short hlt]
    exact .inr ⟨rfl, rfl, hw.stands (by omega) (by omega)⟩
  · rw [he]
    obtain ⟨-, h0, hslot, hr', -⟩ := ensureBlock_grows hw.owned hp hr he
    dsimp only
    rw [← hslot, ← ref_eq_ptrAt hr']
    have hbytes := (hw'.mono (Nat.le_refl _) (show 256 * (x / 3) ≤ 256 * b by omega)).writeBytes
      (n := n) hnot hk hb h0 ho
    have htop : 256 * (3 * (b + 1) / 3) = 256 * (b + 1) := by omega
    generalize forFrom _ _ _ _ = fl at hbytes ⊢
    cases fl with
    | next w'' =>
      obtain ⟨hno, hw''⟩ := hbytes
      rw [walk_on hle hno]
      refine ⟨rfl, hno, ?_⟩
      rw [htop]
      exact hw''.mono (by omega) (Nat.le_refl _)
    | ret w'' v =>
      obtain ⟨hmet, hv, hw''⟩ := hbytes
      rw [walk_enough hle hmet]
      exact .inl ⟨rfl, hv, hw''.stands (by omega) (by omega)⟩

/-- The leaf pointers from the `lo`-th on of a level that begins with block `b`; `slot`
is where they are found as long as the index block they hang on stays in place. -/
theorem Goes.writeBlocks (h : Goes k data n fs c x a m w) (hk : k < 1024) (b : Nat)
    (leaf : Nat → Place) (slot : Nat → PtrSlot) (o lo cnt : Nat) (ho : o ≤ 256)
    (hx : x ≤ 3 * (b + lo) + 2)
    (hleaf : ∀ i, lo ≤ i → i < lo + cnt → leaf i = leafOf k (b + i) ∧ b + i < 4168)
    (hslot : ∀ i w', lo ≤ i → i < lo + cnt → Wrote k w w' →
      Rooted w'.fs (leaf i) ∧ slot i = slotOf w'.fs (leaf i)) :
    Follows (fun a m w' => Goes k data n fs c (max x (3 * (b + (lo + cnt)))) a m w' ∧ Wrote k w w')
      (Meets k data n fs c) (RunsOut k data fs c)
      (walk (Met data n) a m (leafStops (absent fs) leaf o lo cnt))
      (forFrom (fun i => Write.writeBlock k data n (slot i) o) lo cnt w) := by
  refine follows_forFrom (I := fun i a m w' =>
    Goes k data n fs c (max x (3 * (b + i))) a m w' ∧ Wrote k w w')
    (fun i a m w' hlo hi h => ?_) ⟨h.mono (Nat.le_max_left _ _), .refl h.2.owned⟩
  obtain ⟨hgoes, hwrote⟩ := h
  obtain ⟨hr, hs⟩ := hslot i w' hlo hi hwrote
  obtain ⟨he, hb⟩ := hleaf i hlo hi
  have hvalid := leafOf_valid hk hb
  rw [he] at hr hs
  rw [he, hs]
  have hblock := hgoes.writeBlock hk hb hr ho (by omega)
  have hgrow := writeBlock_wrote (n := n) hgoes.2.owned hvalid (leafOf_isLeaf k _)
    (leafOf_node k _) hr data o
  refine (hblock.and (hgrow.mono (fun w'' h' => hwrote.trans h') fun _ _ _ => trivial)).mono
    fun a' m' w'' h' => ⟨h'.1.mono (by omega), h'.2⟩

/-! ## The levels -/

theorem Goes.writeDirect (h : Goes k data n fs c 0 a m w) (hk : k < 1024) :
    Follows (Goes k data n fs c 24) (Meets k data n fs c) (RunsOut k data fs c)
      (walk (Met data n) a m (directStops (absent fs) k w.cursor)) (writeDirect k data n w) := by
  unfold Write.writeDirect directStops
  dsimp only
  by_cases h8 : w.cursor / 256 < 8
  · refine (h.writeBlocks hk 0 (.direct k) (.pointers k) (w.cursor % 256) (w.cursor / 256)
      (8 - w.cursor / 256) (by omega) (by omega) (fun i _ hi => ?_) fun i w' _ hi _ =>
        ⟨fun _ _ hu => (by cases hu), rfl⟩).mono fun a' m' w' h' => h'.1.mono (by omega)
    rw [Nat.zero_add, leafOf_direct (by omega)]
    exact ⟨rfl, by omega⟩
  · rw [show 8 - w.cursor / 256 = 0 by omega]
    exact ⟨rfl, h.mono (by omega)⟩

theorem Goes.writeSingle (h : Goes k data n fs c 24 a m w) (hk : k < 1024) :
    Follows (Goes k data n fs c 216) (Meets k data n fs c) (RunsOut k data fs c)
      (walk (Met data n) a m (singleStops (absent fs) k (w.fs.inodes k).size))
      (writeSingle k data n w) := by
  unfold Write.writeSingle singleStops
  dsimp only
  by_cases hin : 8 ≤ (w.fs.inodes k).size / 256 ∧ (w.fs.inodes k).size / 256 < 72
  · have hr : Rooted w.fs (.single k) := fun _ _ hu => by cases hu
    rw [if_pos hin, if_pos hin, show PtrSlot.singleIndirect k = slotOf w.fs (.single k) from rfl]
    obtain ⟨hlt, he⟩ | ⟨hle, fs', he, hw'⟩ :=
      h.2.ensure (p := .single k) hk rfl hr (Nat.le_refl _)
    · rw [he, walk_short hlt]
      exact .inr ⟨rfl, rfl, h.2.stands (by omega) (by omega)⟩
    · obtain ⟨-, h0, -⟩ := ensureBlock_grows (p := .single k) h.2.owned hk hr he
      rw [he, walk_on hle h.1]
      dsimp only
      have hgoes : Goes k data n fs c 25 (a - absent fs (.single k)) m { w with fs := fs' } :=
        ⟨h.1, hw'⟩
      refine (hgoes.writeBlocks hk 8 (.sleaf k)
        (.indexBlock (blockOf (fs'.ptrAt (.singleIndirect k)))) _ ((w.fs.inodes k).size / 256 - 8)
        (64 - ((w.fs.inodes k).size / 256 - 8)) (by omega) (by omega) (fun i _ hi => ?_)
        fun i w' _ _ hwr => ?_).mono fun a' m' w' h' => h'.1.mono (by omega)
      · rw [leafOf_single (by omega)]
        exact ⟨rfl, by omega⟩
      · exact hwr.slot (q := .sleaf k i) (r := .single k) rfl hk h0
  · rw [if_neg hin, if_neg hin]
    exact ⟨rfl, h.mono (by omega)⟩

/-- One index block of the double level, from its pointer `w.seg / 64` on. -/
theorem Goes.writeIndex (h : Goes k data n fs c x a m w) (hk : k < 1024) {i : Nat} (hi : i < 64)
    (ho : o ≤ 256) (h0 : ref w.fs (.double k) ≠ 0) (hx : x ≤ 3 * (72 + 64 * i) + 1)
    (hseg : w.seg / 64 < 64) :
    Follows (Goes k data n fs c (3 * (72 + 64 * (i + 1)))) (Meets k data n fs c) (RunsOut k data fs c)
      (walk (Met data n) a m (indexStops (absent fs) k o i (w.seg / 64)))
      (writeIndex k data n (blockOf (ref w.fs (.double k))) o i w) := by
  have hr := (Wrote.refl (k := k) h.2.owned).slot (q := .index k i) rfl hk h0
  have hp : (Place.index k i).Valid := ⟨hk, hi⟩
  unfold Write.writeIndex indexStops
  rw [hr.2]
  rcases h.2.ensure hp rfl hr.1 hx with ⟨hlt, he⟩ | ⟨hle, fs', he, hw'⟩
  · rw [he, walk_short hlt]
    exact .inr ⟨rfl, rfl, h.2.stands (by omega) (by omega)⟩
  · obtain ⟨-, h0', hslot, hr', -⟩ := ensureBlock_grows h.2.owned hp hr.1 he
    rw [he, walk_on hle h.1]
    dsimp only
    rw [← hslot, ← ref_eq_ptrAt hr']
    have hgoes : Goes k data n fs c (3 * (72 + 64 * i) + 2) (a - absent fs (.index k i)) m
        { w with fs := fs', seg := w.seg / 64 } := ⟨h.1, (hw'.seg _).mono (Nat.le_refl _) (by omega)⟩
    refine (hgoes.writeBlocks hk (72 + 64 * i) (.dleaf k i)
      (.indexBlock (blockOf (ref fs' (.index k i)))) o (w.seg / 64) (64 - w.seg / 64) ho (by omega)
      (fun j _ hj => ?_) fun j w' _ _ hwr => ?_).mono fun a' m' w' h' => h'.1.mono (by omega)
    · rw [leafOf_double (by omega)]
      exact ⟨rfl, by omega⟩
    · exact hwr.slot (q := .dleaf k i j) (r := .index k i) rfl hp h0'

theorem Goes.writeDouble (h : Goes k data n fs c 216 a m w) (hk : k < 1024) :
    Follows (Goes k data n fs c 12504) (Meets k data n fs c) (RunsOut k data fs c)
      (walk (Met data n) a m (doubleStops (absent fs) k (w.fs.inodes k).size))
      (writeDouble k data n w) := by
  unfold Write.writeDouble doubleStops
  dsimp only
  by_cases hin : 72 ≤ (w.fs.inodes k).size / 256 ∧ (w.fs.inodes k).size / 256 < 4168
  · have hr : Rooted w.fs (.double k) := fun _ _ hu => by cases hu
    have ho : (w.fs.inodes k).size % 256 ≤ 256 := by omega
    rw [if_pos hin, if_pos hin, show PtrSlot.doubleIndirect k = slotOf w.fs (.double k) from rfl]
    obtain ⟨hlt, he⟩ | ⟨hle, fs', he, hw'⟩ :=
      h.2.ensure (p := .double k) hk rfl hr (Nat.le_refl _)
    · rw [he, walk_short hlt]
      exact .inr ⟨rfl, rfl, (h.2.seg _).stands (by omega) (by omega)⟩
    · obtain ⟨-, h0, -⟩ := ensureBlock_grows (p := .double k) h.2.owned hk hr he
      rw [he, walk_on hle h.1]
      dsimp only
      generalize (w.fs.inodes k).size / 256 = q at hin ⊢
      generalize (w.fs.inodes k).size % 256 = o at ho ⊢
      -- before pass `i` the index blocks below `i` have been run through
      refine (follows_forFrom (I := fun i a m w' =>
        Goes k data n fs c (max 217 (3 * (72 + 64 * i))) a m w' ∧
          ref w'.fs (.double k) = ref fs' (.double k) ∧ w'.seg / 64 = indexStart q i)
        (fun i a' m' w' _ hi h' => ?_) ⟨⟨h.1, (hw'.seg _).mono (Nat.le_max_left _ _) (by omega)⟩, rfl,
          ?_⟩).mono fun a' m' w' h' => h'.1.mono (by omega)
      · obtain ⟨hgoes, hd, hseg⟩ := h'
        have h0' : ref w'.fs (.double k) ≠ 0 := by rw [hd]; exact h0
        have hstart : indexStart q i < 64 := by
          unfold indexStart
          split <;> omega
        have hwi := hgoes.writeIndex hk (show i < 64 by omega) ho h0' (by omega) (by omega)
        have hgrow := writeIndex_wrote (n := n) hk hgoes.2.owned (i := i) (by omega) h0' data o
        have hptr : fs'.ptrAt (slotOf w.fs (.double k)) = ref w'.fs (.double k) := hd.symm
        rw [hseg] at hwi
        rw [hptr]
        refine ((hwi.and (hgrow.mono (fun _ h => h) fun _ _ _ => trivial)).and
          (Storing.writeIndex_seg _ o i w' n)).mono fun a'' m'' w'' hw'' => ?_
        obtain ⟨⟨hg, hwr⟩, hs⟩ := hw''
        have hnext : indexStart q (i + 1) = 0 := if_neg (Nat.succ_ne_zero i)
        refine ⟨hg.mono (by omega), ?_, by omega⟩
        rw [hwr.grows.keeps (.double k) hk fun _ => h0', hd]
      · show (q - 8 - 64) / 64 = indexStart q 0
        rw [indexStart, if_pos rfl]
        omega
  · rw [if_neg hin, if_neg hin]
    exact ⟨rfl, h.1, (h.2.mono (by omega) (by omega)).seg _⟩

/-- `seg` tells afterwards whether the file had outgrown the double level. -/
theorem writeDouble_seg (w : Writer) : (writeDouble k data n w).Ends
    (fun w' => 4168 ≤ w'.seg ↔ 4168 ≤ (w.fs.inodes k).size / 256) fun _ _ => True := by
  unfold writeDouble
  dsimp only
  split
  · rename_i hin
    split
    · trivial
    · rename_i fs' _
      refine (forFrom_ends (a := 0) (n := 64) (s := { w with fs := fs', seg := _ })
        (fun _ w' => w'.seg < 4168) ?_ fun i w' _ _ hw => ?_).mono (fun w' hw => ?_) fun _ _ h => h
      · dsimp only
        omega
      · exact (Storing.writeIndex_seg _ _ i w' n).mono (fun w'' h => by omega) fun _ _ h => h
      · exact iff_of_false (by omega) (by omega)
  · exact Iff.rfl

/-! ## The whole call -/

/-- What the call leaves and returns, by the way the walk ends. -/
inductive Outcome (k : Nat) (data : Bytes) (n : Int) (fs : FileSys) (c : Nat) (p : Progress)
    (w : Writer) (r : Int) : Prop
  | meets (he : p.ending = .enough) (h : Meets k data n fs c p.left p.room w r)
  | runsOut (he : p.ending = .short) (h : RunsOut k data fs c p.left p.room w r)
  | through (he : p.ending = .through)
      (hr : r = if 4168 ≤ sizeAtDouble (absent fs) k (fs.inodes k).size c data / 256
        then (stored data p.room : Int) else 0)
      (h : Stands k data fs c p.left (stored data p.room) w)

theorem Goes.size (h : Goes k data n fs c x a m w) :
    (w.fs.inodes k).size = u32 ((fs.inodes k).size + stored data m) := by
  rw [h.2.moved.1, h.2.written]

/-- A write ends the way the walk along its route does. -/
theorem writeStages_outcome (ho : Owned every fs) (hk : k < 1024) (hs : (fs.inodes k).size < 2 ^ 32)
    (hc : c < 2 ^ 32) (data : Bytes) (n : Int) :
    ∃ w r, writeStages k data n ⟨fs, c, 0, 0⟩ = .ret w r ∧
      Outcome k data n fs c (walk (Met data n) fs.freeBlocks 0 (route fs k c data)) w r := by
  have hstart : Goes k data n fs c 0 fs.freeBlocks 0 ⟨fs, c, 0, 0⟩ :=
    ⟨not_met_zero data n, walked_start ho hs hc⟩
  have hsingle : Follows (Goes k data n fs c 216) (Meets k data n fs c) (RunsOut k data fs c)
      (walk (Met data n) fs.freeBlocks 0 (directStops (absent fs) k c ++
        singleStops (absent fs) k (sizeAtSingle (absent fs) k (fs.inodes k).size c data)))
      ((writeDirect k data n ⟨fs, c, 0, 0⟩).bind (writeSingle k data n)) := by
    refine (hstart.writeDirect hk).room.bind fun a m w h => ?_
    obtain ⟨hgoes, hm⟩ := h
    have hsize : (w.fs.inodes k).size = sizeAtSingle (absent fs) k (fs.inodes k).size c data := by
      rw [hgoes.size, hm, Nat.zero_add, sizeAtSingle]
    rw [← hsize]
    exact hgoes.writeSingle hk
  have hends : Follows (fun a m w => Goes k data n fs c 12504 a m w ∧ (4168 ≤ w.seg ↔
        4168 ≤ sizeAtDouble (absent fs) k (fs.inodes k).size c data / 256))
      (Meets k data n fs c) (RunsOut k data fs c)
      (walk (Met data n) fs.freeBlocks 0 (route fs k c data))
      (((writeDirect k data n ⟨fs, c, 0, 0⟩).bind (writeSingle k data n)).bind
        (writeDouble k data n)) := by
    refine hsingle.room.bind fun a m w h => ?_
    obtain ⟨hgoes, hm⟩ := h
    have hsize : (w.fs.inodes k).size = sizeAtDouble (absent fs) k (fs.inodes k).size c data := by
      rw [hgoes.size, hm, Nat.zero_add, rooms_append, sizeAtDouble]
    rw [← hsize]
    exact (hgoes.writeDouble hk).and (writeDouble_seg w)
  unfold writeStages
  generalize ((writeDirect k data n ⟨fs, c, 0, 0⟩).bind (writeSingle k data n)).bind
    (writeDouble k data n) = fl at hends ⊢
  cases fl with
  | next w =>
    obtain ⟨hthrough, hgoes, hseg⟩ := hends
    have hstands := hgoes.2.stands (Nat.le_refl _) (by omega)
    have hwritten := hgoes.2.written
    rw [Flow.bind_next]
    by_cases h4168 : 4168 ≤ w.seg
    · rw [if_pos h4168]
      refine ⟨w, _, rfl, .through hthrough ?_ hstands⟩
      rw [if_pos (hseg.mp h4168), hwritten]
    · rw [if_neg h4168]
      refine ⟨w, 0, rfl, .through hthrough ?_ hstands⟩
      rw [if_neg fun h => h4168 (hseg.mpr h)]
  | ret w r =>
    rw [Flow.bind_ret]
    rcases hends with ⟨he, h⟩ | ⟨he, h⟩
    · exact ⟨w, r, rfl, .meets he h⟩
    · exact ⟨w, r, rfl, .runsOut he h⟩

end ToyOS.Ramdisk.Route
