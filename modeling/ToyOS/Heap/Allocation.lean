import ToyOS.Heap.Blocks

/-! # What malloc and free return

`malloc` takes the first free block that is large enough, `free` gives a block
back and leaves no two free blocks side by side.
-/
namespace ToyOS.Heap.Allocation
open ToyOS.Lib.Words ToyOS.Lib.Tiles ToyOS.Heap.Memory ToyOS.Heap.Layout ToyOS.Heap.Blocks

variable {B : Buffer} {m m' : Bytes} {p n size fuel : Nat} {t : Tile} {ts xs ys : List Tile}

/-- A heap in order: the blocks `ts`, no two free ones side by side. -/
structure Tidy (B : Buffer) (m : Bytes) (ts : List Tile) : Prop extends Laid B m ts where
  coalesced : Coalesced ts

theorem Tidy.positive (h : Tidy B m ts) : ∀ t ∈ ts, 0 < t.size := fun t ht => by
  have := h.size_ge t ht
  omega

/-- `init_heap` leaves one free block. -/
theorem initHeap_tidy (B : Buffer) (m : Bytes) :
    Tidy B (initHeap B m) [⟨DEFAULT_MEM_SIZE - DSIZE, false⟩] := by
  have hbase : B.baseptr = B.addr + 8 := rfl
  have hfits := B.fits
  have hmem : DEFAULT_MEM_SIZE = 2 ^ 20 := rfl
  have hd : DSIZE = 8 := rfl
  have hw : WSIZE = 4 := rfl
  unfold initHeap
  refine ⟨⟨⟨?_, getW_putW_self _ _ (by decide), trivial⟩, ?_, rfl, ?_⟩, List.isChain_singleton _⟩
  · rw [getW_putW_of_disjoint _ _ (by omega), getW_putW_self _ _ (by decide)]
    rfl
  · rw [lastPtr_congr (m := putLast B m B.baseptr) fun x h1 h2 => by
        rw [putW_other _ _ (by omega), putW_other _ _ (by omega)], lastPtr_putLast _ (by omega)]
    rfl
  · intro t ht
    obtain rfl := List.mem_singleton.mp ht
    exact ⟨by decide, by decide⟩

/-! ## Allocating -/

/-- A free block with room for `n` bytes. -/
def Fits (n : Nat) (t : Tile) : Prop := t.used = false ∧ n ≤ t.size

theorem At.fits_iff (h : At B m xs t ys p) :
    ¬ (getAlloc m p ≠ 0 ∨ getSize m p < n) ↔ Fits n t := by
  rw [h.getSize, not_or, not_not, h.getAlloc_eq_zero, not_lt]
  rfl

/-- The loop of `malloc` comes to the first block that fits, or to NULL. -/
theorem firstFit_spec (h : At B m xs t ys p) (hf : ys.length + 2 ≤ fuel) :
    (∃ zs u vs, t :: ys = zs ++ u :: vs ∧ (∀ z ∈ zs, ¬ Fits n z) ∧ Fits n u ∧
        firstFit B m n fuel p = some (p + total zs)) ∨
      ((∀ z ∈ t :: ys, ¬ Fits n z) ∧ firstFit B m n fuel p = some 0) := by
  induction ys generalizing xs t p fuel with
  | nil =>
    obtain ⟨fuel, rfl⟩ : ∃ k, fuel = k + 2 := ⟨fuel - 2, by simp at hf; omega⟩
    have hp := h.pos.2
    rw [firstFit, if_neg (by omega)]
    by_cases hfit : Fits n t
    · rw [if_neg ((At.fits_iff h).mpr hfit)]
      exact .inl ⟨[], t, [], rfl, by simp, hfit, by simp⟩
    · rw [if_pos (not_not.mp fun hno => hfit ((At.fits_iff h).mp hno)), h.next, if_pos rfl, firstFit,
        if_pos rfl]
      exact .inr ⟨by simpa using hfit, rfl⟩
  | cons y ys ih =>
    obtain ⟨fuel, rfl⟩ : ∃ k, fuel = k + 1 := ⟨fuel - 1, by omega⟩
    have hp := h.pos.2
    rw [firstFit, if_neg (by omega)]
    by_cases hfit : Fits n t
    · rw [if_neg ((At.fits_iff h).mpr hfit)]
      exact .inl ⟨[], t, y :: ys, rfl, by simp, hfit, by simp⟩
    · rw [if_pos (not_not.mp fun hno => hfit ((At.fits_iff h).mp hno)), h.next, if_neg (by simp)]
      obtain ⟨zs, u, vs, hlist, hzs, hu, hr⟩ | ⟨hno, hr⟩ :=
        ih (h.succ rfl) (Nat.le_of_succ_le_succ (by simpa only [List.length_cons] using hf))
      · refine .inl ⟨t :: zs, u, vs, by rw [hlist]; rfl, ?_, hu, ?_⟩
        · exact List.forall_mem_cons.mpr ⟨hfit, hzs⟩
        · rw [hr, total_cons, Nat.add_assoc]
      · exact .inr ⟨List.forall_mem_cons.mpr ⟨hfit, hno⟩, hr⟩

theorem Laid.length_lt (h : Laid B m ts) : ts.length + 1 ≤ DEFAULT_MEM_SIZE := by
  have := length_le_total h.size_ge
  have := h.fills
  simp only [DEFAULT_MEM_SIZE, DSIZE] at *
  omega

/-- The block size of a request that does not wrap around. -/
theorem blockSizeFor_eq (h : size < 2 ^ 32 - 15) : blockSizeFor size = 8 * ((size + 7) / 8) + 8 := by
  have h1 : u32 (size + 7) = size + 7 := Nat.mod_eq_of_lt (by omega)
  rw [blockSizeFor, h1, Nat.shiftRight_eq_div_pow, Nat.shiftLeft_eq, u32, DSIZE,
    Nat.mod_eq_of_lt (by omega)]
  omega

/-- A block of `ts` taken by `malloc` for `n` bytes, header included: the first
one that fits. -/
structure Taken (B : Buffer) (m m' : Bytes) (ts xs : List Tile) (t : Tile) (ys : List Tile)
    (n : Nat) : Prop where
  list : ts = xs ++ t :: ys
  first : ∀ x ∈ xs, ¬ Fits n x
  fits : Fits n t
  tidy : Tidy B m' (xs ++ (cut n t ++ ys))
  kept : PayloadsKept B m m' (xs ++ (cut n t ++ ys))

theorem coalesced_cut (h : Coalesced (xs ++ t :: ys)) (ht : t.used = false) (n : Nat) :
    Coalesced (xs ++ (cut n t ++ ys)) := by
  unfold cut
  split
  · exact h.use rfl
  · exact h.cut ht rfl

/-- Whatever the request, `malloc` takes the first block that fits the size it computed. -/
theorem malloc_finds (h : Tidy B m ts) (h0 : 0 < size) :
    (malloc B m size = some (m, 0) ∧ ∀ t ∈ ts, ¬ Fits (blockSizeFor size) t) ∨
      ∃ xs t ys, ts = xs ++ t :: ys ∧ (∀ x ∈ xs, ¬ Fits (blockSizeFor size) x) ∧
        Fits (blockSizeFor size) t ∧ malloc B m size =
          some (place B m (B.baseptr + total xs) (blockSizeFor size), B.baseptr + total xs + 8) := by
  generalize hb : blockSizeFor size = n
  unfold malloc
  rw [if_neg (by omega), hb]
  cases ts with
  | nil => exact absurd rfl h.ne_nil
  | cons t ts =>
    have hat : At B m [] t ts B.baseptr := ⟨h.toLaid, rfl⟩
    have hlen := Laid.length_lt h.toLaid
    rw [List.length_cons] at hlen
    rcases firstFit_spec (n := n) hat hlen with ⟨zs, u, vs, hlist, hzs, hu, hr⟩ | ⟨hno, hr⟩
    · right
      rw [hr, Option.map_some, if_neg (by have := hat.pos; omega)]
      exact ⟨zs, u, vs, hlist, hzs, hu, rfl⟩
    · left
      rw [hr, Option.map_some, if_pos rfl]
      exact ⟨rfl, hno⟩

theorem malloc_spec (h : Tidy B m ts) (h0 : 0 < size) (hs : size < 2 ^ 32 - 15) :
    (malloc B m size = some (m, 0) ∧ ∀ t ∈ ts, ¬ Fits (blockSizeFor size) t) ∨
      ∃ m' xs t ys, malloc B m size = some (m', B.baseptr + total xs + 8) ∧
        Taken B m m' ts xs t ys (blockSizeFor size) := by
  have hn := blockSizeFor_eq hs
  rcases malloc_finds h h0 with hno | ⟨xs, t, ys, hlist, hxs, ht, hr⟩
  · exact .inl hno
  · right
    have hat : At B m xs t ys (B.baseptr + total xs) := ⟨hlist ▸ h.toLaid, rfl⟩
    obtain ⟨hlaid, hkept⟩ := place_laid hat (by omega) (by omega) ht.2
    exact ⟨_, xs, t, ys, hr, hlist, hxs, ht, ⟨hlaid, coalesced_cut (hlist ▸ h.coalesced) ht.1 _⟩, hkept⟩

/-! ## Giving back -/

/-- The first half of `free`. -/
theorem freeNext_spec (h : At B m xs t ys p) (hc : Coalesced (t :: ys)) :
    ∃ f zs, At B (freeNext B m p) xs f zs p ∧ f.used = false ∧ Coalesced (f :: zs) ∧
      PayloadsKept B m (freeNext B m p) (xs ++ f :: zs) ∧
      usedAt (p + f.size) zs = usedAt (p + t.size) ys := by
  have hp := h.pos.2
  have hmark := retag h false
  rw [word_free] at hmark
  unfold freeNext
  dsimp only
  rw [h.next, h.getSize]
  cases ys with
  | nil =>
    rw [if_pos rfl, if_neg (by simp)]
    exact ⟨⟨t.size, false⟩, [], ⟨hmark.1, h.here⟩, rfl, List.isChain_singleton _, hmark.2, rfl⟩
  | cons y zs =>
    have hy := h.succ rfl
    rw [if_neg (List.cons_ne_nil y zs)]
    cases hu : y.used with
    | false =>
      rw [if_pos ⟨by omega, hy.getAlloc_eq_zero.mpr hu⟩]
      obtain ⟨hlaid, hkept⟩ := combine_laid h hu
      refine ⟨⟨t.size + y.size, false⟩, zs, ⟨hlaid, h.here⟩, rfl, ?_, hkept, ?_⟩
      · exact coalesced_cons hc.tail.tail (hc.tail.next hu)
      · rw [usedAt_cons, hu, if_neg (by decide), Nat.add_assoc]
    | true =>
      have halloc : getAlloc m (p + t.size) ≠ 0 := by
        rw [Ne, hy.getAlloc_eq_zero, hu]
        decide
      rw [if_neg fun hn => halloc hn.2]
      refine ⟨⟨t.size, false⟩, y :: zs, ⟨hmark.1, h.here⟩, rfl, ?_, hmark.2, rfl⟩
      exact coalesced_cons hc.tail (.inr ⟨y, zs, rfl, hu⟩)

/-- The second half of `free`. -/
theorem freePrev_spec (h : At B m xs t ys p) (ht : t.used = false) (hxs : Coalesced xs)
    (hc : Coalesced (t :: ys)) :
    ∃ ts, Tidy B (freePrev B m p) ts ∧ PayloadsKept B m (freePrev B m p) ts ∧
      usedAt B.baseptr ts = usedAt B.baseptr xs ++ usedAt (p + t.size) ys := by
  have hhere := h.here
  have hused : usedAt p (t :: ys) = usedAt (p + t.size) ys := by
    rw [usedAt_cons, ht, if_neg (by decide)]
  unfold freePrev
  dsimp only
  rcases xs.eq_nil_or_concat with rfl | ⟨ws, w, hlast⟩
  · rw [h.before_first rfl, if_neg (by simp)]
    refine ⟨t :: ys, ⟨h.laid, hc⟩, fun _ _ _ _ _ _ => rfl, ?_⟩
    rw [usedAt_nil, List.nil_append, ← hused, hhere]
    rfl
  · rw [List.concat_eq_append] at hlast
    obtain ⟨hprev, hw⟩ := h.before hlast
    have hpos := hw.pos.2
    have hend : B.baseptr + total ws + w.size = p := by
      rw [hhere, hlast]
      simp only [total_append, total_cons, total_nil]
      omega
    rw [hprev]
    cases hwu : w.used with
    | false =>
      rw [if_pos ⟨by omega, hw.getAlloc_eq_zero.mpr hwu⟩]
      obtain ⟨hlaid, hkept⟩ := combine_laid hw ht
      rw [hend] at hlaid hkept
      refine ⟨_, ⟨hlaid, ?_⟩, hkept, ?_⟩
      · obtain ⟨hws, -, hlink⟩ := coalesced_append.mp (hlast ▸ hxs)
        refine coalesced_append.mpr ⟨hws, coalesced_cons hc.tail (hc.next ht), fun x hx y _ => ?_⟩
        rcases hlink x hx w rfl with hx | hw'
        · exact .inl hx
        · rw [hwu] at hw'
          cases hw'
      · rw [hlast, usedAt_append, usedAt_append, usedAt_cons, usedAt_cons, hwu, if_neg Bool.false_ne_true,
          if_neg Bool.false_ne_true, usedAt_nil, List.append_nil]
        dsimp only
        rw [← Nat.add_assoc, hend]
    | true =>
      have halloc : getAlloc m (B.baseptr + total ws) ≠ 0 := by
        rw [Ne, hw.getAlloc_eq_zero, hwu]
        decide
      rw [if_neg fun hn => halloc hn.2]
      refine ⟨xs ++ t :: ys, ⟨h.laid, ?_⟩, fun _ _ _ _ _ _ => rfl, ?_⟩
      · refine coalesced_append.mpr ⟨hxs, hc, fun x hx y _ => ?_⟩
        rw [hlast, List.getLast?_concat] at hx
        obtain rfl := Option.some.inj hx
        exact .inl hwu
      · rw [usedAt_append, ← hhere, hused]

/-- A block in use given back: the blocks in use are the others. -/
theorem free_spec (h : Tidy B m ts) (hp : (p, t) ∈ usedAt B.baseptr ts) :
    ∃ ts', Tidy B (free B m (p + 8)) ts' ∧ PayloadsKept B m (free B m (p + 8)) ts' ∧
      usedAt B.baseptr ts' = (usedAt B.baseptr ts).filter (·.1 ≠ p) := by
  obtain ⟨hmem, hu⟩ := mem_usedAt.mp hp
  obtain ⟨xs, ys, rfl, hat⟩ := laid_at h.toLaid hmem
  obtain ⟨hxs, hys, -⟩ := coalesced_append.mp h.coalesced
  obtain ⟨f, zs, hf, hfree, hc, hkept, hused⟩ := freeNext_spec hat hys
  obtain ⟨ts', htidy, hkept', hused'⟩ := freePrev_spec hf hfree hxs hc
  have hstep : free B m (p + 8) = freePrev B (freeNext B m p) p := by
    rw [free, if_neg (by omega), DSIZE, Nat.add_sub_cancel]
  rw [hstep]
  refine ⟨ts', htidy, ?_, ?_⟩
  · intro q v hq x h1 h2
    rw [hkept' q v hq x h1 h2]
    refine hkept q v ?_ x h1 h2
    rw [hused'] at hq
    rw [usedAt_append, ← hat.here, usedAt_cons, hfree, if_neg (by decide)]
    exact hq
  · have hhere := hat.here
    have hsize := hat.sized.1
    rw [hused', hused, usedAt_append, ← hhere, usedAt_cons, if_pos hu, List.filter_append,
      List.filter_cons_of_neg (by simp)]
    congr 1
    · refine (List.filter_eq_self.mpr fun x hx => ?_).symm
      have hb := placed_bounds (mem_usedAt.mp (show (x.1, x.2) ∈ _ from hx)).1
      have := h.size_ge x.2 (List.mem_append_left _ (mem_of_placed (mem_usedAt.mp (show (x.1, x.2) ∈ _ from hx)).1))
      simp only [decide_eq_true_eq]
      omega
    · refine (List.filter_eq_self.mpr fun x hx => ?_).symm
      have hb := placed_bounds (mem_usedAt.mp (show (x.1, x.2) ∈ _ from hx)).1
      simp only [decide_eq_true_eq]
      omega

end ToyOS.Heap.Allocation
