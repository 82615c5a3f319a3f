import Mathlib.Data.Finset.Union
import Mathlib.Data.Finset.Prod
import Mathlib.Data.Finset.Card
import ToyOS.Ramdisk.Growth

/-! # A file as its bytes

Position `pos` of a file is offset `pos % 256` of its `pos / 256`-th block:
eight direct blocks, sixty-four below the single-indirect block, and 64 × 64
below the double-indirect one. `Roomy` says that every place of a file that is
still empty can be filled.
-/
namespace ToyOS.Ramdisk.Files
open ToyOS.Lib.Words ToyOS.Lib.Bits
open ToyOS.Ramdisk.Image ToyOS.Ramdisk.Blocks ToyOS.Ramdisk.Places ToyOS.Ramdisk.Allocation
open ToyOS.Ramdisk.Ownership ToyOS.Ramdisk.Growth

variable {fs fs' : FileSys} {k m pos b : Nat} {p q : Place}

/-- The place of the `m`-th block of inode `k`. -/
def leafOf (k m : Nat) : Place :=
  if m < 8 then .direct k m
  else if m < 72 then .sleaf k (m - 8)
  else .dleaf k ((m - 72) / 64) ((m - 72) % 64)

theorem leafOf_direct (h : m < 8) : leafOf k m = .direct k m := if_pos h

theorem leafOf_single {i : Nat} (h : i < 64) : leafOf k (8 + i) = .sleaf k i := by
  rw [leafOf, if_neg (by omega), if_pos (by omega), Nat.add_sub_cancel_left]

theorem leafOf_double {i j : Nat} (h : j < 64) : leafOf k (72 + 64 * i + j) = .dleaf k i j := by
  rw [leafOf, if_neg (by omega), if_neg (by omega), show (72 + 64 * i + j - 72) / 64 = i by omega,
    show (72 + 64 * i + j - 72) % 64 = j by omega]

theorem leafOf_valid (hk : k < 1024) (hm : m < 4168) : (leafOf k m).Valid := by
  unfold leafOf
  split
  · exact ⟨hk, by assumption⟩
  · split
    · exact ⟨hk, by omega⟩
    · exact ⟨hk, by omega, by omega⟩

theorem leafOf_isLeaf (k m : Nat) : ¬ (leafOf k m).IsIndex := by
  unfold leafOf
  split
  · exact id
  · split <;> exact id

theorem leafOf_node (k m : Nat) : (leafOf k m).node = k := by
  unfold leafOf
  split
  · rfl
  · split <;> rfl

theorem leafOf_inj {m' : Nat} (h : leafOf k m = leafOf k m') : m = m' := by
  unfold leafOf at h
  split at h <;> split at h <;> (try split at h) <;> (try split at h) <;>
    simp only [Place.direct.injEq, Place.sleaf.injEq, Place.dleaf.injEq, reduceCtorEq] at h <;>
    omega

/-! ## Bytes -/

/-- The byte at a position of a file; `none` where the block is missing. -/
def fileByte (fs : FileSys) (k pos : Nat) : Option UInt8 :=
  let p := ref fs (leafOf k (pos / 256))
  if p = 0 then none else some (fs.dataBlocks (blockOf p) (pos % 256))

/-- The byte at a position, read as 0 where the block is missing. -/
def byteAt (fs : FileSys) (k pos : Nat) : UInt8 := (fileByte fs k pos).getD 0

theorem byteAt_missing (h : ref fs (leafOf k (pos / 256)) = 0) : byteAt fs k pos = 0 := by
  simp [byteAt, fileByte, h]

theorem byteAt_present (h : ref fs (leafOf k (pos / 256)) ≠ 0) :
    byteAt fs k pos = fs.dataBlocks (blockOf (ref fs (leafOf k (pos / 256)))) (pos % 256) := by
  simp [byteAt, fileByte, h]

theorem fileByte_of_byteAt {c : UInt8} (h : byteAt fs k pos = c) (hc : c ≠ 0) :
    fileByte fs k pos = some c := by
  subst h
  cases hf : fileByte fs k pos with
  | none => exact absurd (by simp [byteAt, hf]) hc
  | some b => simp [byteAt, hf]

/-- New blocks are zero, so they change no byte. -/
theorem byteAt_extends (h : Extends k fs fs') (hk : k < 1024) (hpos : pos < 1067008) :
    byteAt fs' k pos = byteAt fs k pos := by
  have hv := leafOf_valid hk (show pos / 256 < 4168 by omega)
  have hl := leafOf_isLeaf k (pos / 256)
  by_cases h0 : ref fs (leafOf k (pos / 256)) = 0
  · rw [byteAt_missing h0]
    by_cases h1 : ref fs' (leafOf k (pos / 256)) = 0
    · exact byteAt_missing h1
    · rw [byteAt_present h1]
      exact h.zero _ hv hl h0 h1 _
  · have e := h.keeps _ hv fun _ => h0
    rw [byteAt_present h0, byteAt_present (by rw [e]; exact h0), e, h.leaves _ hv hl h0]

theorem byteAt_of_eq (hr : ∀ q, ref fs' q = ref fs q) (hd : fs'.dataBlocks = fs.dataBlocks) :
    byteAt fs' k pos = byteAt fs k pos := by
  unfold byteAt fileByte
  simp only [hr, hd]

/-- One byte stored in the `m`-th block. -/
theorem byteAt_store (ho : Owned every fs) (hk : k < 1024) (hm : m < 4168)
    (h0 : ref fs (leafOf k m) ≠ 0) {j : Nat} (hj : j < 256) (c : UInt8) (hpos : pos < 1067008) :
    byteAt (fs.setBlock (blockOf (ref fs (leafOf k m)))
      (Function.update (fs.dataBlocks (blockOf (ref fs (leafOf k m)))) j c)) k pos =
      Function.update (byteAt fs k) (256 * m + j) c pos := by
  have hv := leafOf_valid hk hm
  have hv' := leafOf_valid hk (show pos / 256 < 4168 by omega)
  have hkeep := (grows_leaf ho (Function.update
    (fs.dataBlocks (blockOf (ref fs (leafOf k m)))) j c) hv (leafOf_isLeaf k m) h0).keeps
  have href : ∀ q, q.Valid → ref (fs.setBlock (blockOf (ref fs (leafOf k m)))
      (Function.update (fs.dataBlocks (blockOf (ref fs (leafOf k m)))) j c)) q = ref fs q := by
    refine fun q hq => ref_setBlock fun r hi hr _ e => ?_
    rw [ptrTo_blockOf h0] at e
    have := ho.unique (hr hq) trivial hv trivial (by rw [e]; exact h0) e
    exact leafOf_isLeaf k m (this ▸ hi)
  by_cases hp : ref fs (leafOf k (pos / 256)) = 0
  · have hne : pos ≠ 256 * m + j := by
      rintro rfl
      rw [show (256 * m + j) / 256 = m by omega] at hp
      exact h0 hp
    rw [byteAt_missing ((href _ hv').trans hp), Function.update_of_ne hne, byteAt_missing hp]
  · rw [byteAt_present (by rw [href _ hv']; exact hp), href _ hv']
    by_cases e : pos / 256 = m
    · rw [e, setBlock_dataBlocks_self]
      by_cases ej : pos % 256 = j
      · rw [ej, Function.update_self, show pos = 256 * m + j by omega, Function.update_self]
      · rw [Function.update_of_ne ej, Function.update_of_ne (by omega), byteAt_present hp, e]
    · rw [setBlock_dataBlocks_ne, Function.update_of_ne (by omega), byteAt_present hp]
      intro eb
      have he : ref fs (leafOf k (pos / 256)) = ref fs (leafOf k m) := by
        rw [← ptrTo_blockOf hp, eb, ptrTo_blockOf h0]
      exact e (leafOf_inj (ho.unique hv' trivial hv trivial hp he))

/-! ## Room for the blocks of a file -/

/-- The first block of a file that is reached through a place. -/
def firstBlock : Place → Nat
  | .direct _ i => i
  | .single _ => 8
  | .sleaf _ i => 8 + i
  | .double _ => 72
  | .index _ i => 72 + 64 * i
  | .dleaf _ i j => 72 + 64 * i + j

theorem firstBlock_leafOf (k m : Nat) : firstBlock (leafOf k m) = m := by
  unfold leafOf
  split
  · rfl
  · split
    · show 8 + (m - 8) = m
      omega
    · show 72 + 64 * ((m - 72) / 64) + (m - 72) % 64 = m
      omega

/-- The number of blocks that the first `M` blocks of a file take with their
index blocks. -/
def blocksFor (M : Nat) : Nat :=
  M + (if 8 < M then 1 else 0) + (if 72 < M then 1 else 0) + (M - 72 + 63) / 64

/-- The places of the first `M` blocks of inode `k` and of their index blocks. -/
@[irreducible] def placesBelow (M k : Nat) : Finset Place :=
  (Finset.range M).image (leafOf k) ∪
    (Finset.range (if 8 < M then 1 else 0)).image (fun _ => Place.single k) ∪
    (Finset.range (if 72 < M then 1 else 0)).image (fun _ => Place.double k) ∪
    (Finset.range ((M - 72 + 63) / 64)).image (.index k)

variable {M : Nat}

theorem mem_placesBelow_iff : p ∈ placesBelow M k ↔ (∃ m < M, leafOf k m = p) ∨
    (8 < M ∧ .single k = p) ∨ (72 < M ∧ .double k = p) ∨
      ∃ i < (M - 72 + 63) / 64, .index k i = p := by
  have hone : ∀ c : Prop, [Decidable c] → ((∃ i, i < if c then 1 else 0) ↔ c) := by
    intro c _
    split
    · exact iff_of_true ⟨0, Nat.one_pos⟩ (by assumption)
    · simpa
  unfold placesBelow
  simp only [Finset.mem_union, Finset.mem_image, Finset.mem_range, or_assoc, exists_and_right, hone]

theorem mem_placesBelow (hp : p.Valid) (h : firstBlock p < M) : p ∈ placesBelow M p.node := by
  rw [mem_placesBelow_iff]
  cases p with
  | direct k i => exact .inl ⟨i, h, leafOf_direct hp.2⟩
  | single k => exact .inr (.inl ⟨h, rfl⟩)
  | sleaf k i => exact .inl ⟨8 + i, h, leafOf_single hp.2⟩
  | double k => exact .inr (.inr (.inl ⟨h, rfl⟩))
  | index k i =>
    simp only [firstBlock] at h
    exact .inr (.inr (.inr ⟨i, by omega, rfl⟩))
  | dleaf k i j => exact .inl ⟨72 + 64 * i + j, h, leafOf_double hp.2.2⟩

theorem of_mem_placesBelow (hk : k < 1024) (hM : M ≤ 4168) (h : p ∈ placesBelow M k) :
    p.Valid ∧ p.node = k := by
  rcases mem_placesBelow_iff.mp h with ⟨m, hm, rfl⟩ | ⟨_, rfl⟩ | ⟨_, rfl⟩ | ⟨i, hi, rfl⟩
  · exact ⟨leafOf_valid hk (by omega), leafOf_node k m⟩
  · exact ⟨hk, rfl⟩
  · exact ⟨hk, rfl⟩
  · exact ⟨⟨hk, by omega⟩, rfl⟩

theorem card_placesBelow (M k : Nat) : (placesBelow M k).card ≤ blocksFor M := by
  have hle : ∀ (n : Nat) (g : Nat → Place), ((Finset.range n).image g).card ≤ n := fun n g => by
    simpa using Finset.card_image_le (s := Finset.range n) (f := g)
  unfold placesBelow blocksFor
  refine (Finset.card_union_le _ _).trans (Nat.add_le_add ?_ (hle _ _))
  refine (Finset.card_union_le _ _).trans (Nat.add_le_add ?_ (hle _ _))
  exact (Finset.card_union_le _ _).trans (Nat.add_le_add (hle _ _) (hle _ _))

/-- The places among these that are empty. -/
def missing (M : Nat) (fs : FileSys) (k : Nat) : Nat :=
  ((placesBelow M k).filter (ref fs · = 0)).card

theorem missing_le (M : Nat) (fs : FileSys) (k : Nat) : missing M fs k ≤ blocksFor M :=
  (Finset.card_filter_le _ _).trans (card_placesBelow M k)

/-- There is a block for every place that the first `M` blocks of inode `k`
still lack. -/
structure Roomy (M k : Nat) (fs : FileSys) : Prop where
  bound : M ≤ 4168
  room : missing M fs k ≤ fs.freeBlocks

/-- No room is needed for nothing. -/
theorem roomy_zero (k : Nat) (fs : FileSys) : Roomy 0 k fs :=
  ⟨Nat.zero_le _, (missing_le 0 fs k).trans (Nat.zero_le _)⟩

theorem roomy_of_ref (h : Roomy M k fs) (hk : k < 1024)
    (hr : ∀ q, q.Valid → q.node = k → ref fs' q = ref fs q)
    (hf : fs'.freeBlocks = fs.freeBlocks) : Roomy M k fs' := by
  refine ⟨h.bound, ?_⟩
  have := h.room
  unfold missing at *
  rw [hf, Finset.filter_congr fun q hq => by
    obtain ⟨hv, hn⟩ := of_mem_placesBelow hk h.bound hq
    rw [hr q hv hn]]
  exact this

theorem Attach.roomy (a : Attach every p b fs fs') (hp : p.Valid) (h : Roomy M p.node fs)
    (hlt : firstBlock p < M) : Roomy M p.node fs' := by
  have hlt : missing M fs' p.node < missing M fs p.node := by
    refine Finset.card_lt_card (Finset.ssubset_iff_of_subset (fun q hq => ?_) |>.mpr
      ⟨p, Finset.mem_filter.mpr ⟨mem_placesBelow hp hlt, a.empty⟩, fun hm => ?_⟩)
    · obtain ⟨hq, h0⟩ := Finset.mem_filter.mp hq
      by_cases e : q = p
      · rw [e, a.self] at h0
        exact absurd h0 (ptrTo_ne_zero b)
      · rw [a.other q (of_mem_placesBelow hp.node_lt h.bound hq).1 trivial e] at h0
        exact Finset.mem_filter.mpr ⟨hq, h0⟩
    · have := (Finset.mem_filter.mp hm).2
      rw [a.self] at this
      exact ptrTo_ne_zero b this
  have := a.free
  have := h.room
  exact ⟨h.bound, by omega⟩

/-- With room for it, a place is filled. -/
theorem ensureBlock_roomy (ho : Owned every fs) (h : Roomy M p.node fs) (hp : p.Valid)
    (hr : Rooted fs p) (hlt : firstBlock p < M) :
    ∃ fs', ensureBlock fs (slotOf fs p) = some fs' ∧ Extends p.node fs fs' ∧
      Roomy M p.node fs' := by
  cases he : ensureBlock fs (slotOf fs p) with
  | some fs' =>
    rcases ensureBlock_cases ho hp trivial hr he with ⟨_, rfl⟩ | ⟨b, a⟩
    · exact ⟨_, rfl, .refl ho, h⟩
    · exact ⟨fs', rfl, a.extends ho hp, Attach.roomy a hp h hlt⟩
  | none =>
    exfalso
    unfold ensureBlock at he
    split at he
    · rename_i h0
      have hpos : 0 < missing M fs p.node := Finset.card_pos.mpr
        ⟨p, Finset.mem_filter.mpr ⟨mem_placesBelow hp hlt, (ref_eq_ptrAt hr).trans h0⟩⟩
      have hroom := h.room
      have hc := ho.counted
      have := takeBlock_none (Option.map_eq_none_iff.mp he) (by omega)
      rw [clearBits, this] at hc
      omega
    · cases he

end ToyOS.Ramdisk.Files
