import ToyOS.Heap.Clients

/-! # Which block a request gets

`malloc` computes the size of the block it looks for in 32-bit arithmetic. Here
the request is any `size_t`: up to 2^32 - 16 the sum does not wrap around and
the lowest block with room is taken; beyond, every free block looks large enough.
-/
namespace ToyOS.Heap.Requests
open ToyOS.Lib.Words ToyOS.Lib.Tiles ToyOS.Lib.Runs
open ToyOS.Heap.Memory ToyOS.Heap.Layout ToyOS.Heap.Blocks ToyOS.Heap.Allocation ToyOS.Heap.Clients

variable {B : Buffer} {st : State} {m m' : Bytes} {p q size : Nat} {t u : Tile} {ts xs ys : List Tile}

/-- `size` rounded up to a multiple of 8, and 8 bytes for the header. -/
def needed (size : Nat) : Nat := (size + 7) / 8 * 8 + 8

/-- A free block with room for a request. -/
def Candidate (B : Buffer) (m : Bytes) (size : Nat) (b : Nat × Tile) : Prop :=
  b ∈ blocks B m ∧ Fits (needed size) b.2

/-- What first fit makes of a request: `m'` and `p` are memory and pointer after it. -/
structure FirstFit (B : Buffer) (m : Bytes) (size : Nat) (m' : Bytes) (p : Nat) : Prop where
  refused : (p = 0 ∧ m' = m) ↔ size = 0 ∨ ∀ b, ¬ Candidate B m size b
  served : size ≠ 0 → (∃ b, Candidate B m size b) → ∃ b, Candidate B m size b ∧
    (∀ c, Candidate B m size c → b.1 ≤ c.1) ∧ p = b.1 + 8 ∧
      ∃ t, (b.1, t) ∈ blocks B m' ∧ t.used = true ∧ size + 8 ≤ t.size

/-- `malloc` returns, and what it does is first fit. -/
def ServesFirstFit (B : Buffer) (m : Bytes) (size : Nat) : Prop :=
  ∃ m' p, malloc B m size = some (m', p) ∧ FirstFit B m size m' p

theorem candidate_iff (h : Laid B m ts) {b : Nat × Tile} :
    Candidate B m size b ↔ b ∈ placed B.baseptr ts ∧ Fits (needed size) b.2 := by
  rw [Candidate, blocks_eq h]

/-- A call that changed nothing, for a request that no block has room for. -/
theorem firstFit_refused (h : size = 0 ∨ ∀ b, ¬ Candidate B m size b) : FirstFit B m size m 0 := by
  refine ⟨iff_of_true ⟨rfl, rfl⟩ h, fun h0 hex => ?_⟩
  obtain ⟨b, hb⟩ := hex
  exact absurd hb (h.resolve_left h0 b)

/-- What lies before the block behind `xs` is in `xs`. -/
theorem mem_of_before {a : Nat} (h : (q, u) ∈ placed a (xs ++ ys)) (hq : q < a + total xs) : u ∈ xs := by
  rw [placed_append, List.mem_append] at h
  rcases h with h | h
  · exact mem_of_placed h
  · have := (placed_bounds h).1
    omega

/-- The block a request was given, once it is cut to size. -/
theorem cut_placed (a : Nat) (xs ys : List Tile) {n : Nat} (hn : n ≤ t.size) :
    ∃ v : Tile, (a + total xs, v) ∈ placed a (xs ++ (cut n t ++ ys)) ∧ v.used = true ∧ n ≤ v.size := by
  obtain ⟨k, hk, hnk⟩ := cut_used n t (a + total xs)
  have hmem : (a + total xs, ⟨k, true⟩) ∈ usedAt a (xs ++ (cut n t ++ ys)) := by
    rw [usedAt_append, usedAt_append, hk]
    simp
  exact ⟨_, (mem_usedAt.mp hmem).1, rfl, hnk hn⟩

theorem Taken.firstFit {n : Nat} (h : Tidy B m ts) (ht : Taken B m m' ts xs t ys n)
    (h0 : size ≠ 0) (hn : n = needed size) : FirstFit B m size m' (B.baseptr + total xs + 8) := by
  subst hn
  have hat : (B.baseptr + total xs, t) ∈ placed B.baseptr ts := by
    rw [ht.list]
    exact placed_of_split _ _ _ _
  have hcand : Candidate B m size (B.baseptr + total xs, t) := (candidate_iff h.toLaid).mpr ⟨hat, ht.fits⟩
  refine ⟨iff_of_false (fun e => absurd e.1 (by omega)) (not_or.mpr ⟨h0, fun hno => hno _ hcand⟩),
    fun _ _ => ⟨_, hcand, fun c hc => ?_, rfl, ?_⟩⟩
  · obtain ⟨hmem, hfit⟩ := (candidate_iff h.toLaid).mp hc
    rw [ht.list] at hmem
    by_contra hlt
    exact ht.first c.2 (mem_of_before (show (c.1, c.2) ∈ _ from hmem) (by omega)) hfit
  · obtain ⟨v, hv, hused, hle⟩ := cut_placed B.baseptr xs ys ht.fits.2
    rw [blocks_eq ht.tidy.toLaid]
    unfold needed at hle
    exact ⟨v, hv, hused, by omega⟩

/-- A request whose block size does not wrap around. -/
theorem serves_of_lt (h : Tidy B m ts) (hs : size < 2 ^ 32 - 15) : ServesFirstFit B m size := by
  by_cases h0 : size = 0
  · exact ⟨m, 0, by rw [malloc, if_pos h0], firstFit_refused (.inl h0)⟩
  · have hn : blockSizeFor size = needed size := by
      rw [blockSizeFor_eq hs, needed, Nat.mul_comm]
    rcases malloc_spec h (Nat.pos_of_ne_zero h0) hs with ⟨hm, hno⟩ | ⟨m', xs, t, ys, hm, ht⟩
    · refine ⟨m, 0, hm, firstFit_refused (.inr fun b hb => ?_)⟩
      obtain ⟨hmem, hfit⟩ := (candidate_iff h.toLaid).mp hb
      exact hno b.2 (mem_of_placed (show (b.1, b.2) ∈ _ from hmem)) (hn ▸ hfit)
    · exact ⟨m', _, hm, Taken.firstFit h ht h0 hn⟩

/-- The last sixteen sizes: the block looked for is no larger than a header. -/
theorem blockSizeFor_wraps (h : 2 ^ 32 - 15 ≤ size) (hs : size < 2 ^ 32) : blockSizeFor size ≤ 8 := by
  have hround : u32 (size + 7) >>> 3 <<< 3 = 8 * (u32 (size + 7) / 8) := by
    rw [Nat.shiftRight_eq_div_pow, Nat.shiftLeft_eq]
    omega
  rw [blockSizeFor, hround]
  unfold u32 DSIZE
  omega

theorem no_candidate (h : Laid B m ts) (hs : 2 ^ 32 - 15 ≤ size) (b : Nat × Tile) :
    ¬ Candidate B m size b := fun hb => by
  obtain ⟨hmem, -, hfit⟩ := (candidate_iff h).mp hb
  have hle := (placed_bounds (show (b.1, b.2) ∈ _ from hmem)).2
  have hge := (placed_bounds (show (b.1, b.2) ∈ _ from hmem)).1
  have hfills := h.fills
  simp only [DEFAULT_MEM_SIZE, DSIZE] at hfills
  unfold needed at hfit
  omega

/-- Such a request is first fit only where there is nothing to take. -/
theorem serves_of_wraps (h : Tidy B m ts) (hwrap : 2 ^ 32 - 15 ≤ size) (hs : size < 2 ^ 32) :
    ServesFirstFit B m size ↔ ∀ t ∈ ts, t.used = true := by
  have hsmall := blockSizeFor_wraps hwrap hs
  have hnone := no_candidate h.toLaid hwrap
  have hfits : ∀ t ∈ ts, t.used = false → Fits (blockSizeFor size) t := fun t ht hu =>
    ⟨hu, hsmall.trans (by have := h.size_ge t ht; omega)⟩
  rcases malloc_finds h (show 0 < size by omega) with ⟨hm, hno⟩ | ⟨xs, t, ys, hlist, -, ht, hm⟩
  · refine iff_of_true ⟨m, 0, hm, firstFit_refused (.inr hnone)⟩ fun t ht => ?_
    rw [← Bool.not_eq_false]
    exact fun hu => hno t ht (hfits t ht hu)
  · refine iff_of_false (fun hserves => ?_) fun hall => ?_
    · obtain ⟨m', p, hp, hfirst⟩ := hserves
      obtain ⟨-, rfl⟩ := Prod.mk.inj (Option.some.inj (hm.symm.trans hp))
      have := (hfirst.refused.mpr (.inr hnone)).1
      omega
    · have := hall t (by rw [hlist]; simp)
      rw [ht.1] at this
      cases this

/-- `malloc` is first fit exactly for the requests up to 2^32 - 16, and for all
of them once no block is free. -/
theorem firstFit_iff (h : Reachable B st) (hs : size < 2 ^ 32) :
    ServesFirstFit B st.mem size ↔
      size ≤ 2 ^ 32 - 16 ∨ ∀ b ∈ blocks B st.mem, b.2.used = true := by
  obtain ⟨ts, hserved⟩ := reachable_served h
  have htidy := hserved.tidy
  have hall : (∀ b ∈ blocks B st.mem, b.2.used = true) ↔ ∀ t ∈ ts, t.used = true := by
    rw [blocks_eq htidy.toLaid]
    constructor
    · intro hb t ht
      obtain ⟨xs, ys, rfl⟩ := List.append_of_mem ht
      exact hb _ (placed_of_split _ _ _ _)
    · exact fun ht b hb => ht b.2 (mem_of_placed (show (b.1, b.2) ∈ _ from hb))
  rw [hall]
  by_cases hlt : size ≤ 2 ^ 32 - 16
  · exact iff_of_true (serves_of_lt htidy (by omega)) (.inl hlt)
  · rw [serves_of_wraps htidy (by omega) hs]
    exact ⟨.inr, fun hor => hor.resolve_left hlt⟩

theorem firstFit_iff_oneLive : ServesFirstFit lowBuffer oneLive.mem 40 ↔
    40 ≤ 2 ^ 32 - 16 ∨ ∀ b ∈ blocks lowBuffer oneLive.mem, b.2.used = true :=
  firstFit_iff oneLive_reachable (by decide)

/-- On a fresh heap the largest request is given a block of 8 bytes. -/
theorem largest_request_served : Reachable lowBuffer ⟨initHeap lowBuffer fun _ => 0, []⟩ ∧
    (∀ b, ¬ Candidate lowBuffer (initHeap lowBuffer fun _ => 0) (2 ^ 32 - 1) b) ∧
      (malloc lowBuffer (initHeap lowBuffer fun _ => 0) (2 ^ 32 - 1)).map (·.2) = some 4112 ∧
      ¬ ServesFirstFit lowBuffer (initHeap lowBuffer fun _ => 0) (2 ^ 32 - 1) := by
  have hserved := initHeap_tidy lowBuffer fun _ => 0
  refine ⟨⟨_, .start⟩, no_candidate hserved.toLaid (by decide), by decide +kernel, fun hserves => ?_⟩
  have hall := (serves_of_wraps hserved (by decide) (by decide)).mp hserves
  exact absurd (hall _ List.mem_cons_self) (by decide)

end ToyOS.Heap.Requests
