import Mathlib.Data.Nat.ModEq
import ToyOS.Ramdisk.Growth
import ToyOS.Ramdisk.Write

/-! # What rd_write does for any buffer

Whatever the caller's memory holds and wherever the call stops, `rd_write` only
grows the file: `Wrote` says so, and that size and cursor have both moved on by
the number of bytes stored.
-/
namespace ToyOS.Ramdisk.Writing
open ToyOS.Lib.Loop ToyOS.Lib.Words ToyOS.Lib.Bits
open ToyOS.Ramdisk.Image ToyOS.Ramdisk.Blocks ToyOS.Ramdisk.Places ToyOS.Ramdisk.Ownership
open ToyOS.Ramdisk.Growth ToyOS.Ramdisk.Write

variable {k : Nat} {data : Bytes} {n : Int} {w w' w'' : Writer} {p : Place}
variable {I N R : Writer → Prop}

/-! ## What allocations and stores keep -/

/-- `N` holds of the writer while `rd_write` goes on and `R` once it returns. -/
structure Carried (k : Nat) (data : Bytes) (n : Int) (N R : Writer → Prop) : Prop where
  ensure : ∀ w slot fs', N w → ensureBlock w.fs slot = some fs' → N { w with fs := fs' }
  put : ∀ w b j, N w → data w.written ≠ 0 → ((w.written + 1 : Nat) : Int) ≠ n →
    N (putByte k data b j w)
  done : ∀ w b j, N w → data w.written ≠ 0 → ((w.written + 1 : Nat) : Int) = n →
    R (putByte k data b j w)
  quit : ∀ w, N w → R w

theorem Carried.writeBlock (h : Carried k data n N R) (hw : N w) (slot : PtrSlot) (offset : Nat) :
    (writeBlock k data n slot offset w).Ends N fun w' _ => R w' := by
  unfold Write.writeBlock
  split
  · exact h.quit w hw
  · rename_i fs' he
    refine forFrom_ends (fun _ => N) (h.ensure w slot fs' hw he) fun j t _ _ ht => ?_
    unfold writeByte
    dsimp only
    split
    · rename_i h0
      split
      · rename_i hn
        exact h.done t _ j ht h0 hn
      · rename_i hn
        exact h.put t _ j ht h0 hn
    · exact ht

theorem Carried.writeBlocks (h : Carried k data n N R) (hw : N w) (slot : Nat → PtrSlot)
    (offset a m : Nat) : (forFrom (fun i => Write.writeBlock k data n (slot i) offset) a m w).Ends N
      fun w' _ => R w' :=
  forFrom_ends (fun _ => N) hw fun _ _ _ _ ht => h.writeBlock ht _ _

theorem Carried.writeSingle (h : Carried k data n N R) (hw : N w) :
    (writeSingle k data n w).Ends N fun w' _ => R w' := by
  unfold Write.writeSingle
  dsimp only
  split
  · split
    · exact h.quit w hw
    · rename_i fs' he
      exact h.writeBlocks (h.ensure w _ fs' hw he) _ _ _ _
  · exact hw

section
variable (h : Carried k data n N R) (hseg : ∀ w s, N w → N { w with seg := s })
include h hseg

theorem Carried.writeIndex (hw : N w) (b offset i : Nat) :
    (writeIndex k data n b offset i w).Ends N fun w' _ => R w' := by
  unfold Write.writeIndex
  split
  · exact h.quit w hw
  · rename_i fs' he
    exact h.writeBlocks (hseg _ _ (h.ensure w _ fs' hw he)) _ _ _ _

theorem Carried.writeDouble (hw : N w) : (writeDouble k data n w).Ends N fun w' _ => R w' := by
  unfold Write.writeDouble
  dsimp only
  split
  · split
    · exact h.quit _ (hseg w _ hw)
    · rename_i fs' he
      exact forFrom_ends (fun _ => N) (hseg _ _ (h.ensure w _ fs' hw he)) fun i t _ _ ht =>
        h.writeIndex hseg ht _ _ _
  · exact hseg w _ hw

/-- The end of `rd_write` once the direct blocks are done. -/
theorem Carried.afterDirect {fl : Flow Writer Int} (hfl : fl.Ends N fun w' _ => R w') :
    R (((fl.bind (Write.writeSingle k data n)).bind (Write.writeDouble k data n)).bind fun w =>
      if 4168 ≤ w.seg then Flow.ret w (w.written : Int) else .ret w 0).state := by
  refine Flow.Ends.state (N := R) (Flow.Ends.bind (M := N) (Flow.Ends.bind (M := N)
    (Flow.Ends.bind (M := N) hfl fun w hw => h.writeSingle hw) fun w hw => h.writeDouble hseg hw)
    fun w hw => ?_)
  split <;> exact h.quit w hw

theorem Carried.writeStages (hw : N w) : R (writeStages k data n w).state :=
  h.afterDirect hseg (h.writeBlocks hw _ _ _ _)

end

/-- A property of the writer that allocations and stores keep. -/
structure Kept (k : Nat) (data : Bytes) (I : Writer → Prop) : Prop where
  ensure : ∀ w slot fs', I w → ensureBlock w.fs slot = some fs' → I { w with fs := fs' }
  put : ∀ w b j, I w → data w.written ≠ 0 → I (putByte k data b j w)

theorem Kept.carried (h : Kept k data I) (n : Int) : Carried k data n I I where
  ensure := h.ensure
  put w b j hw h0 _ := h.put w b j hw h0
  done w b j hw h0 _ := h.put w b j hw h0
  quit _ := id

theorem Kept.writeBlock (h : Kept k data I) (hw : I w) (slot : PtrSlot) (offset : Nat) :
    (writeBlock k data n slot offset w).Ends I fun w' _ => I w' :=
  (h.carried n).writeBlock hw slot offset

theorem Kept.writeBlocks (h : Kept k data I) (hw : I w) (slot : Nat → PtrSlot) (offset a m : Nat) :
    (forFrom (fun i => Write.writeBlock k data n (slot i) offset) a m w).Ends I fun w' _ => I w' :=
  (h.carried n).writeBlocks hw slot offset a m

theorem Kept.afterDirect (h : Kept k data I) (hseg : ∀ w s, I w → I { w with seg := s })
    {fl : Flow Writer Int} (hfl : fl.Ends I fun w' _ => I w') :
    I (((fl.bind (Write.writeSingle k data n)).bind (Write.writeDouble k data n)).bind fun w =>
      if 4168 ≤ w.seg then Flow.ret w (w.written : Int) else .ret w 0).state :=
  (h.carried n).afterDirect hseg hfl

theorem Kept.writeStages (h : Kept k data I) (hseg : ∀ w s, I w → I { w with seg := s })
    (hw : I w) : I (writeStages k data n w).state :=
  (h.carried n).writeStages hseg hw

/-! ## What the file gains -/

/-- `w'` is `w` some passes later, in a write to inode `k`. -/
structure Wrote (k : Nat) (w w' : Writer) : Prop where
  grows : Grows k w.fs w'.fs
  size : (w'.fs.inodes k).size + w.written ≡ (w.fs.inodes k).size + w'.written [MOD 2 ^ 32]
  cursor : w'.cursor + w.written ≡ w.cursor + w'.written [MOD 2 ^ 32]
  written : w.written ≤ w'.written

theorem Wrote.refl (ho : Owned every w.fs) : Wrote k w w := ⟨.refl ho, rfl, rfl, Nat.le_refl _⟩

theorem Wrote.trans (h : Wrote k w w') (h' : Wrote k w' w'') : Wrote k w w'' := by
  refine ⟨h.grows.trans h'.grows, ?_, ?_, h.written.trans h'.written⟩
  · have := h.size; have := h'.size
    simp only [Nat.ModEq] at *; omega
  · have := h.cursor; have := h'.cursor
    simp only [Nat.ModEq] at *; omega

/-- A change of the image that leaves the counters alone. -/
theorem Wrote.of_grows {fs' : FileSys} (h : Grows k w.fs fs')
    (hs : (fs'.inodes k).size = (w.fs.inodes k).size) (seg : Nat) :
    Wrote k w { w with fs := fs', seg := seg } :=
  ⟨h, by rw [hs], rfl, Nat.le_refl _⟩

theorem u32_modEq (x : Nat) : u32 x ≡ x [MOD 2 ^ 32] := by
  unfold u32; exact Nat.mod_modEq x _

theorem putByte_wrote (ho : Owned every w.fs) (hp : p.Valid) (hl : ¬ p.IsIndex) (hk : p.node = k)
    (h0 : ref w.fs p ≠ 0) (data : Bytes) (j : Nat) :
    Wrote k w (putByte k data (blockOf (ref w.fs p)) j w) := by
  subst hk
  have h1 := grows_leaf ho (Function.update (w.fs.dataBlocks (blockOf (ref w.fs p))) j
    (data w.written)) hp hl h0
  refine ⟨h1.trans (grows_size h1.owned _), ?_, ?_, Nat.le_succ _⟩
  · have := u32_modEq ((w.fs.inodes p.node).size + 1)
    simp only [putByte, setInode_inodes_self, setBlock_inodes, Nat.ModEq] at *; omega
  · have := u32_modEq (w.cursor + 1)
    simp only [putByte, Nat.ModEq] at *; omega

theorem writeByte_wrote (ho : Owned every w.fs) (hp : p.Valid) (hl : ¬ p.IsIndex)
    (hk : p.node = k) (h0 : ref w.fs p ≠ 0) (j : Nat) :
    (writeByte k data n (blockOf (ref w.fs p)) j w).Ends (Wrote k w) fun w' _ => Wrote k w w' := by
  unfold writeByte
  dsimp only
  split
  · split
    · exact putByte_wrote ho hp hl hk h0 data j
    · exact putByte_wrote ho hp hl hk h0 data j
  · exact .refl ho

theorem writeBlock_wrote (ho : Owned every w.fs) (hp : p.Valid) (hl : ¬ p.IsIndex)
    (hk : p.node = k) (hr : Rooted w.fs p) (data : Bytes) (offset : Nat) :
    (writeBlock k data n (slotOf w.fs p) offset w).Ends (Wrote k w) fun w' _ => Wrote k w w' := by
  unfold writeBlock
  split
  · exact .refl ho
  · rename_i fs' he
    obtain ⟨hg, h0, hs, hr', hsize⟩ := ensureBlock_grows ho hp hr he
    subst hk
    have hw : Wrote p.node w { w with fs := fs' } := .of_grows hg hsize w.seg
    rw [← hs, ← ref_eq_ptrAt hr']
    refine forFrom_ends (fun _ w' => Wrote p.node w w' ∧ ref w'.fs p = ref fs' p) ⟨hw, rfl⟩
      (fun j w' _ _ h => ?_) |>.mono (fun w' h => h.1) fun w' _ h => h
    obtain ⟨h, e⟩ := h
    have h0' : ref w'.fs p ≠ 0 := by rw [e]; exact h0
    rw [← e]
    refine (writeByte_wrote h.grows.owned hp hl rfl h0' j).mono
      (fun w'' h' => ⟨h.trans h', ?_⟩) fun w'' _ h' => h.trans h'
    exact h'.grows.keeps p hp fun _ => h0'

/-- The loop over the leaf blocks below one index block, or over the direct blocks. -/
theorem writeBlocks_wrote (ho : Owned every w.fs) (leaf : Nat → Place) {slot : Nat → PtrSlot}
    {offset lo m : Nat}
    (hleaf : ∀ i, lo ≤ i → i < lo + m → (leaf i).Valid ∧ ¬ (leaf i).IsIndex ∧ (leaf i).node = k)
    (hslot : ∀ i w', lo ≤ i → i < lo + m → Wrote k w w' →
      Rooted w'.fs (leaf i) ∧ slot i = slotOf w'.fs (leaf i)) :
    (forFrom (fun i => writeBlock k data n (slot i) offset) lo m w).Ends
      (Wrote k w) fun w' _ => Wrote k w w' := by
  refine forFrom_ends (fun _ w' => Wrote k w w') (.refl ho) fun i w' hlo hi h => ?_
  obtain ⟨hp, hl, hk⟩ := hleaf i hlo hi
  obtain ⟨hr, hs⟩ := hslot i w' hlo hi h
  rw [hs]
  exact (writeBlock_wrote h.grows.owned hp hl hk hr data offset).mono (fun _ h' => h.trans h')
    fun _ _ h' => h.trans h'

/-- Below an index block that is there, every slot is where it was. -/
theorem Wrote.slot (h : Wrote k w w') {q r : Place} {i : Nat} (hu : q.up = some (r, i))
    (hr : r.Valid) (h0 : ref w.fs r ≠ 0) :
    Rooted w'.fs q ∧ PtrSlot.indexBlock (blockOf (ref w.fs r)) i = slotOf w'.fs q := by
  have e := h.grows.keeps r hr fun _ => h0
  refine ⟨fun r' i' hu' => ?_, by rw [slotOf_up hu, e]⟩
  rw [hu] at hu'
  obtain ⟨rfl, rfl⟩ := Prod.mk.inj (Option.some.inj hu')
  rw [e]; exact h0

variable (hk : k < 1024)
include hk

theorem writeDirect_wrote (ho : Owned every w.fs) :
    (writeDirect k data n w).Ends (Wrote k w) fun w' _ => Wrote k w w' := by
  refine writeBlocks_wrote ho (fun i => .direct k i)
    (fun i _ hi => ⟨⟨hk, by omega⟩, id, rfl⟩) fun i w' _ _ _ => ⟨fun r i h => ?_, rfl⟩
  cases h

theorem writeSingle_wrote (ho : Owned every w.fs) :
    (writeSingle k data n w).Ends (Wrote k w) fun w' _ => Wrote k w w' := by
  unfold writeSingle
  dsimp only
  split
  · split
    · exact .refl ho
    · rename_i hseg fs' he
      obtain ⟨hg, h0, -, hr, hsize⟩ :=
        ensureBlock_grows (p := .single k) ho hk (fun _ _ h => by cases h) he
      have hw : Wrote k w { w with fs := fs' } := .of_grows hg hsize w.seg
      refine (writeBlocks_wrote hg.owned (fun i => .sleaf k i)
        (fun i _ hi => ⟨⟨hk, by omega⟩, id, rfl⟩) fun i w' _ _ h => ?_).mono
        (fun _ h => hw.trans h) fun _ _ h => hw.trans h
      exact h.slot (q := .sleaf k i) (r := .single k) rfl hk h0
  · exact .refl ho

theorem writeIndex_wrote (ho : Owned every w.fs) {i : Nat} (hi : i < 64)
    (h0 : ref w.fs (.double k) ≠ 0) (data : Bytes) (offset : Nat) :
    (writeIndex k data n (blockOf (ref w.fs (.double k))) offset i w).Ends
      (Wrote k w) fun w' _ => Wrote k w w' := by
  unfold writeIndex
  split
  · exact .refl ho
  · rename_i fs' he
    have hup : (Place.index k i).up = some (.double k, i) := rfl
    have hr0 := (Wrote.refl (k := k) ho).slot hup hk h0
    obtain ⟨hg, h0', hs, hr, hsize⟩ := ensureBlock_grows (p := .index k i) ho ⟨hk, hi⟩ hr0.1
      (by rw [← hr0.2]; exact he)
    have hw : Wrote k w { w with fs := fs', seg := w.seg / 64 } := .of_grows hg hsize _
    rw [hr0.2, ← hs, ← ref_eq_ptrAt hr]
    refine (writeBlocks_wrote (w := { w with fs := fs', seg := w.seg / 64 }) hg.owned
      (fun j => .dleaf k i j)
      (fun j _ hj => ⟨⟨hk, hi, by omega⟩, id, rfl⟩) fun j w' _ _ h => ?_).mono
      (fun _ h => hw.trans h) fun _ _ h => hw.trans h
    exact h.slot (q := .dleaf k i j) (r := .index k i) rfl ⟨hk, hi⟩ h0'

theorem writeDouble_wrote (ho : Owned every w.fs) :
    (writeDouble k data n w).Ends (Wrote k w) fun w' _ => Wrote k w w' := by
  unfold writeDouble
  dsimp only
  split
  · split
    · exact .of_grows (.refl ho) rfl _
    · rename_i hseg fs' he
      obtain ⟨hg, h0, -, hr, hsize⟩ :=
        ensureBlock_grows (p := .double k) ho hk (fun _ _ h => by cases h) he
      refine forFrom_ends (fun _ w' => Wrote k w w' ∧ ref w'.fs (.double k) = ref fs' (.double k))
        ⟨.of_grows hg hsize _, rfl⟩ (fun i w' _ hi h => ?_) |>.mono (fun _ h => h.1)
        fun _ _ h => h
      have h0' : ref w'.fs (.double k) ≠ 0 := by rw [h.2]; exact h0
      have hd : fs'.ptrAt (.doubleIndirect k) = ref w'.fs (.double k) := by rw [h.2]; rfl
      rw [hd]
      refine (writeIndex_wrote hk h.1.grows.owned (by omega) h0' _ _).mono
        (fun _ h' => ⟨h.1.trans h', ?_⟩) fun _ _ h' => h.1.trans h'
      rw [h'.grows.keeps (.double k) hk fun _ => h0', h.2]
  · exact .of_grows (.refl ho) rfl _

/-- Wherever `rd_write` stops, the file has only grown. -/
theorem writeStages_wrote (ho : Owned every w.fs) (data : Bytes) (n : Int) :
    Wrote k w (writeStages k data n w).state := by
  refine Flow.Ends.state (N := Wrote k w) ?_
  refine Flow.Ends.bind (M := Wrote k w) (Flow.Ends.bind (M := Wrote k w)
    ((writeDirect_wrote hk ho).bind fun w₁ h₁ => ?_) fun w₂ h₂ => ?_) fun w₃ h₃ => ?_
  · exact (writeSingle_wrote hk h₁.grows.owned).mono (fun _ h => h₁.trans h)
      fun _ _ h => h₁.trans h
  · exact (writeDouble_wrote hk h₂.grows.owned).mono (fun _ h => h₂.trans h)
      fun _ _ h => h₂.trans h
  · split <;> exact h₃

end ToyOS.Ramdisk.Writing
