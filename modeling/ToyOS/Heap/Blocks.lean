import ToyOS.Heap.Layout

/-! # What malloc and free do to the blocks

Splitting and combining replace some blocks in the middle of the heap by others
of the same total size (`splice`): the blocks before keep their headers, the
first one behind gets a new link back, and `LASTPTR` moves where there is none.
-/
namespace ToyOS.Heap.Blocks
open ToyOS.Lib.Words ToyOS.Lib.Tiles ToyOS.Heap.Memory ToyOS.Heap.Layout

variable {B : Buffer} {m m₁ m' : Bytes} {a p q x n : Nat} {t u z : Tile} {ts xs ys os ws : List Tile}

/-! ## Stores -/

theorem putW_other (m : Bytes) (v : Nat) (h : x < p ∨ p + 4 ≤ x) : putW m p v x = m x :=
  store_of_lt_or_le m h

theorem lastPtr_congr (h : ∀ x, B.addr ≤ x → x < B.addr + 4 → m' x = m x) :
    lastPtr B m' = lastPtr B m :=
  getW_congr fun x h1 h2 => by
    simp only [Buffer.baseptr, Nat.add_sub_cancel] at h1 h2
    exact h x h1 h2

theorem lastPtr_putLast (m : Bytes) {v : Nat} (hv : v < 2 ^ 32) : lastPtr B (putLast B m v) = v :=
  getW_putW_self m _ hv

theorem putLast_other (m : Bytes) (v : Nat) (h : x < B.addr ∨ B.addr + 4 ≤ x) :
    putLast B m v x = m x :=
  putW_other m v (by simp only [Buffer.baseptr, Nat.add_sub_cancel]; exact h)

/-- The link back of the first block, or `LASTPTR`. -/
theorem linkNext_cases (m : Bytes) (e n last : Nat) (ys : List Tile) :
    (ys = [] ∧ linkNext B m (if ys = [] then 0 else e) n last = putLast B m last) ∨
      (ys ≠ [] ∧ (e ≠ 0 → linkNext B m (if ys = [] then 0 else e) n last = putW m (e + 4) n)) := by
  by_cases hys : ys = []
  · exact .inl ⟨hys, by rw [if_pos hys, linkNext, if_neg (by simp)]⟩
  · exact .inr ⟨hys, fun he => by rw [if_neg hys, linkNext, if_pos he]; rfl⟩

/-- A new link back in front of the blocks behind. -/
theorem headers_relink {back : Nat} (h : Headers m a back ys) (hs : ∀ t ∈ ys, 16 ≤ t.size)
    (hn : n < 2 ^ 32) (hys : ys ≠ []) : Headers (putW m (a + 4) n) a n ys := by
  cases ys with
  | nil => exact absurd rfl hys
  | cons y zs =>
    have hy := hs y List.mem_cons_self
    obtain ⟨hw, -, hrest⟩ := h
    refine ⟨?_, getW_putW_self m _ hn, ?_⟩
    · rw [getW_putW_of_disjoint m n (by omega), hw]
    · exact hrest.congr_range (fun t ht => hs t (List.mem_cons_of_mem _ ht))
        fun x hx _ => putW_other m n (by omega)

/-- Blocks in the middle replaced by others of the same total size, up to the
link to the blocks behind. -/
structure Spliced (B : Buffer) (m m₁ : Bytes) (xs os ws : List Tile) (z : Tile) (ys : List Tile)
    (p e : Nat) : Prop where
  laid : Laid B m (xs ++ (os ++ ys))
  here : p = B.baseptr + total xs
  stop : e = p + total os
  old : os ≠ []
  length : total ws + z.size = total os
  sized : ∀ t ∈ ws ++ [z], 16 ≤ t.size ∧ 8 ∣ t.size
  low : ∀ x, x < p → m₁ x = m x
  high : ∀ x, e ≤ x → m₁ x = m x
  headers : Headers m₁ p (lastSize 0 xs) (ws ++ [z])
  payloads : ∀ q t, (q, t) ∈ usedAt p (ws ++ [z]) → ∀ x, q + 8 ≤ x → x < q + t.size → m₁ x = m x

section
variable {e : Nat} (h : Spliced B m m₁ xs os ws z ys p e)
include h

theorem Spliced.bounds : B.addr + 8 ≤ p ∧ p + 16 ≤ e ∧ e + total ys = B.addr + 2 ^ 20 ∧ e ≤ 2 ^ 32 := by
  have hfills := h.laid.fills
  have := h.here
  have := h.stop
  have := h.length
  have := (h.sized z (by simp)).1
  have := B.fits
  simp only [total_append, Buffer.baseptr, DEFAULT_MEM_SIZE, DSIZE] at *
  omega

/-- The memory once the link is stored. -/
def linked (B : Buffer) (m₁ : Bytes) (z : Tile) (ws ys : List Tile) (p e : Nat) : Bytes :=
  linkNext B m₁ (if ys = [] then 0 else e) z.size (p + total ws)

/-- The link is stored in `LASTPTR` or in the second word behind `e`. -/
theorem Spliced.linked_other (hx : B.addr + 4 ≤ x) (he : x < e + 4 ∨ e + 8 ≤ x) :
    linked B m₁ z ws ys p e x = m₁ x := by
  obtain ⟨hp, hpe, -, -⟩ := h.bounds
  rcases linkNext_cases m₁ e z.size (p + total ws) ys (B := B) with ⟨-, hl⟩ | ⟨-, hl⟩
  · rw [linked, hl]
    exact putLast_other m₁ _ (by omega)
  · rw [linked, hl (by omega)]
    exact putW_other m₁ _ (by omega)

theorem Spliced.headers_behind : Headers (linked B m₁ z ws ys p e) e z.size ys := by
  obtain ⟨hp, hpe, htot, he⟩ := h.bounds
  have hold := h.laid.headers
  rw [headers_append, headers_append, ← h.here, ← h.stop] at hold
  have hsize : ∀ t ∈ ys, 16 ≤ t.size := fun t ht => h.laid.size_ge t (by simp [ht])
  have hys := hold.2.2.congr_range hsize fun x hx _ => h.high x hx
  rcases linkNext_cases m₁ e z.size (p + total ws) ys (B := B) with ⟨rfl, -⟩ | ⟨hne, hl⟩
  · trivial
  · rw [linked, hl (by omega)]
    have hz := h.length
    have := h.stop
    exact headers_relink hys hsize (by omega) hne

theorem Spliced.last : lastPtr B (linked B m₁ z ws ys p e) =
    B.baseptr + total (xs ++ (ws ++ [z] ++ ys)).dropLast := by
  obtain ⟨hp, hpe, -, he⟩ := h.bounds
  have hhere := h.here
  have hstop := h.stop
  have hlen := h.length
  have hz := (h.sized z (by simp)).1
  rcases linkNext_cases m₁ e z.size (p + total ws) ys (B := B) with ⟨rfl, hl⟩ | ⟨hne, hl⟩
  · rw [linked, hl, lastPtr_putLast _ (by omega), List.append_nil, ← List.append_assoc,
      List.dropLast_concat, total_append]
    omega
  · rw [linked, hl (by omega)]
    have hkeep : lastPtr B (putW m₁ (e + 4) z.size) = lastPtr B m := lastPtr_congr fun x h1 h2 => by
      rw [putW_other _ _ (by omega), h.low x (by omega)]
    have hold : (xs ++ (os ++ ys)).dropLast = xs ++ (os ++ ys.dropLast) := by
      rw [← List.append_assoc, List.dropLast_append_of_ne_nil hne, List.append_assoc]
    have hnew : (xs ++ (ws ++ [z] ++ ys)).dropLast = xs ++ (ws ++ [z] ++ ys.dropLast) := by
      rw [← List.append_assoc, List.dropLast_append_of_ne_nil hne, List.append_assoc]
    rw [hkeep, h.laid.last, hold, hnew]
    simp only [total_append, total_cons, total_nil]
    omega

theorem Spliced.laid_linked :
    Laid B (linked B m₁ z ws ys p e) (xs ++ (ws ++ [z] ++ ys)) := by
  obtain ⟨hp, hpe, -, he⟩ := h.bounds
  have hhere := h.here
  have hstop := h.stop
  have hlen := h.length
  have hbase : B.baseptr = B.addr + 8 := rfl
  constructor
  · rw [headers_append, headers_append, ← hhere]
    have hold := (headers_append.mp h.laid.headers).1
    refine ⟨?_, ?_, ?_⟩
    · exact hold.congr_range (fun t ht => h.laid.size_ge t (by simp [ht])) fun x h1 h2 => by
        rw [h.linked_other (by omega) (by omega), h.low x (by omega)]
    · refine h.headers.congr_range (fun t ht => (h.sized t ht).1) fun x h1 h2 => ?_
      simp only [total_append, total_cons, total_nil] at h2
      exact h.linked_other (by omega) (by omega)
    · have hend : p + total (ws ++ [z]) = e := by
        simp only [total_append, total_cons, total_nil]
        omega
      rw [hend, lastSize_concat]
      exact h.headers_behind
  · exact h.last
  · rw [← h.laid.fills]
    simp only [total_append, total_cons, total_nil]
    omega
  · intro t ht
    rw [List.mem_append, List.mem_append] at ht
    rcases ht with ht | ht | ht
    · exact h.laid.sized t (by simp [ht])
    · exact h.sized t ht
    · exact h.laid.sized t (by simp [ht])

theorem Spliced.kept : PayloadsKept B m (linked B m₁ z ws ys p e) (xs ++ (ws ++ [z] ++ ys)) := by
  obtain ⟨hp, hpe, -, he⟩ := h.bounds
  have hhere := h.here
  have hstop := h.stop
  have hlen := h.length
  have hbase : B.baseptr = B.addr + 8 := rfl
  intro q t hq x h1 h2
  have hend : p + total (ws ++ [z]) = e := by
    simp only [total_append, total_cons, total_nil]
    omega
  rw [usedAt_append, usedAt_append, ← hhere, hend, List.mem_append, List.mem_append] at hq
  rcases hq with hq | hq | hq
  · have := placed_bounds (mem_usedAt.mp hq).1
    rw [h.linked_other (by omega) (by omega), h.low x (by omega)]
  · have := placed_bounds (mem_usedAt.mp hq).1
    rw [h.linked_other (by omega) (by omega), h.payloads q t hq x h1 h2]
  · have := placed_bounds (mem_usedAt.mp hq).1
    rw [h.linked_other (by omega) (by omega), h.high x (by omega)]

end

/-! ## One block marked -/

theorem word_free (n : Nat) : word ⟨n, false⟩ = n := rfl

theorem word_used (n : Nat) : word ⟨n, true⟩ = n + 1 := rfl

theorem retag (h : At B m xs t ys p) (b : Bool) :
    Laid B (putW m p (word ⟨t.size, b⟩)) (xs ++ ⟨t.size, b⟩ :: ys) ∧
      PayloadsKept B m (putW m p (word ⟨t.size, b⟩)) (xs ++ ⟨t.size, b⟩ :: ys) := by
  obtain ⟨hxs, hw, hback, hys⟩ := h.headers
  have hpos := h.pos.1
  have hhere := h.here
  have hbase : B.baseptr = B.addr + 8 := rfl
  have hsize := h.sized
  have hword : word ⟨t.size, b⟩ < 2 ^ 32 := by
    have := h.size_lt
    have := h.ends
    have := B.fits
    cases b <;> simp only [word_free, word_used] <;> omega
  refine ⟨⟨?_, ?_, ?_, ?_⟩, ?_⟩
  · rw [headers_append, ← hhere]
    refine ⟨hxs.congr_range (fun t ht => h.laid.size_ge t (by simp [ht])) fun x _ hx =>
        putW_other m _ (by omega), getW_putW_self m p hword, ?_, ?_⟩
    · rw [getW_putW_of_disjoint m _ (by omega), hback]
    · exact hys.congr_range (fun t ht => h.laid.size_ge t (by simp [ht])) fun x hx _ =>
        putW_other m _ (by omega)
  · rw [lastPtr_congr fun x _ hx => putW_other m _ (by omega), h.laid.last]
    by_cases hne : ys = []
    · subst hne
      rw [List.dropLast_concat, List.dropLast_concat]
    · rw [List.dropLast_append_of_ne_nil (by simp), List.dropLast_append_of_ne_nil (by simp),
        List.dropLast_cons_of_ne_nil hne, List.dropLast_cons_of_ne_nil hne]
      simp only [total_append, total_cons]
  · rw [← h.laid.fills]
    simp only [total_append, total_cons]
  · intro u hu
    rw [List.mem_append, List.mem_cons] at hu
    rcases hu with hu | rfl | hu
    · exact h.laid.sized u (by simp [hu])
    · exact hsize
    · exact h.laid.sized u (by simp [hu])
  · intro q u hq x h1 h2
    have hq := placed_disjoint (mem_usedAt.mp hq).1 (placed_of_split B.baseptr xs ⟨t.size, b⟩ ys)
    rw [← hhere] at hq
    refine putW_other m _ ?_
    rcases hq with ⟨rfl, rfl⟩ | hq | hq
    · omega
    · omega
    · dsimp only at hq
      omega

/-! ## Two blocks combined -/

/-- Two blocks, the second one free, become one free block. -/
theorem combine_laid (h : At B m xs t (u :: ys) p) (hu : u.used = false) :
    Laid B (combine B m p (p + t.size)) (xs ++ ⟨t.size + u.size, false⟩ :: ys) ∧
      PayloadsKept B m (combine B m p (p + t.size)) (xs ++ ⟨t.size + u.size, false⟩ :: ys) := by
  obtain ⟨hxs, hw, hback, hys⟩ := h.headers
  have hsucc := h.succ rfl
  have hsize := h.sized
  have husize := hsucc.sized
  have hpos : B.addr + 8 ≤ p := h.pos.1
  have hends := h.ends
  have hfits := B.fits
  rw [total_cons] at hends
  have hsum : u32 (getSize m p + getW m (p + t.size)) = t.size + u.size := by
    rw [h.getSize, hsucc.headers.2.1, word, hu, u32]
    have : DEFAULT_MEM_SIZE = 2 ^ 20 := rfl
    exact Nat.mod_eq_of_lt (by simp only [Bool.false_eq_true, if_false]; omega)
  have hs : Spliced B m (putW m p (t.size + u.size)) xs [t, u] [] ⟨t.size + u.size, false⟩ ys p
      (p + t.size + u.size) := by
    refine ⟨by simpa using h.laid, h.here, by simp [Nat.add_assoc], by simp, by simp, ?_, ?_, ?_, ?_, ?_⟩
    · intro v hv
      obtain rfl := List.mem_singleton.mp hv
      exact ⟨by dsimp only; omega, Nat.dvd_add hsize.2 husize.2⟩
    · exact fun x hx => putW_other m _ (by omega)
    · exact fun x hx => putW_other m _ (by omega)
    · refine ⟨getW_putW_self m p ?_, ?_, trivial⟩
      · have : DEFAULT_MEM_SIZE = 2 ^ 20 := rfl
        omega
      · rw [getW_putW_of_disjoint m _ (by omega), hback]
    · intro q v hq
      simp [usedAt] at hq
  have hc : combine B m p (p + t.size) =
      linked B (putW m p (t.size + u.size)) ⟨t.size + u.size, false⟩ [] ys p (p + t.size + u.size) := by
    rw [combine, hsum, hsucc.next]
    rfl
  rw [hc]
  exact ⟨by simpa using hs.laid_linked, by simpa using hs.kept⟩

/-! ## A block allocated -/

/-- What becomes of a free block when `n` bytes of it are allocated. -/
def cut (n : Nat) (t : Tile) : List Tile :=
  if t.size - n ≤ DSIZE then [⟨t.size, true⟩] else [⟨n, true⟩, ⟨t.size - n, false⟩]

theorem place_laid (h : At B m xs t ys p) (hn : 16 ≤ n) (h8 : 8 ∣ n) (hle : n ≤ t.size) :
    Laid B (place B m p n) (xs ++ (cut n t ++ ys)) ∧
      PayloadsKept B m (place B m p n) (xs ++ (cut n t ++ ys)) := by
  obtain ⟨hxs, hw, hback, hys⟩ := h.headers
  have hsize := h.sized
  have hends := h.ends
  have hfits := B.fits
  have hmem : DEFAULT_MEM_SIZE = 2 ^ 20 := rfl
  unfold place cut
  dsimp only
  rw [h.getSize]
  by_cases hsmall : t.size - n ≤ DSIZE
  · rw [if_pos hsmall, if_pos hsmall, pack_one hsize.2]
    exact retag h true
  · rw [if_neg hsmall, if_neg hsmall, pack_one h8, h.next]
    have hd : DSIZE = 8 := rfl
    have hs : Spliced B m (putW (putW (putW m p (n + 1)) (p + n) (t.size - n)) (p + n + WSIZE) n) xs [t]
        [⟨n, true⟩] ⟨t.size - n, false⟩ ys p (p + t.size) := by
      refine ⟨by simpa using h.laid, h.here, by simp, by simp, ?_, ?_, ?_, ?_, ?_, ?_⟩
      · simp only [total_cons, total_nil]
        omega
      · intro v hv
        rw [List.mem_append, List.mem_singleton, List.mem_singleton] at hv
        rcases hv with rfl | rfl
        · exact ⟨hn, h8⟩
        · exact ⟨by dsimp only; omega, Nat.dvd_sub hsize.2 h8⟩
      · exact fun x hx => by
          rw [putW_other _ _ (by omega), putW_other _ _ (by omega), putW_other _ _ (by omega)]
      · exact fun x hx => by
          rw [putW_other _ _ (by simp only [WSIZE]; omega), putW_other _ _ (by omega),
            putW_other _ _ (by omega)]
      · refine ⟨?_, ?_, ?_, ?_, trivial⟩
        · rw [getW_putW_of_disjoint _ _ (by omega), getW_putW_of_disjoint _ _ (by omega),
            getW_putW_self _ _ (by omega)]
          rfl
        · rw [getW_putW_of_disjoint _ _ (by omega), getW_putW_of_disjoint _ _ (by omega),
            getW_putW_of_disjoint _ _ (by omega), hback]
        · rw [getW_putW_of_disjoint _ _ (by simp only [WSIZE]; omega), getW_putW_self _ _ (by omega)]
          rfl
        · exact getW_putW_self _ _ (by omega)
      · intro q v hq x h1 h2
        have hv : (q, v) = (p, ⟨n, true⟩) := by simpa [usedAt] using hq
        obtain ⟨rfl, rfl⟩ := Prod.mk.inj hv
        dsimp only at h2
        rw [putW_other _ _ (by omega), putW_other _ _ (by omega), putW_other _ _ (by omega)]
    have hlinked : linkNext B (putW (putW (putW m p (n + 1)) (p + n) (t.size - n)) (p + n + WSIZE) n)
        (if ys = [] then 0 else p + t.size) (t.size - n) (p + n) =
        linked B (putW (putW (putW m p (n + 1)) (p + n) (t.size - n)) (p + n + WSIZE) n)
          ⟨t.size - n, false⟩ [⟨n, true⟩] ys p (p + t.size) := rfl
    rw [hlinked]
    exact ⟨hs.laid_linked, hs.kept⟩

end ToyOS.Heap.Blocks
