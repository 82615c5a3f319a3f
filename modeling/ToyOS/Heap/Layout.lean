import ToyOS.Lib.Tiles
import ToyOS.Heap.Memory

/-! # The blocks as tiles

`Laid` says that memory holds the headers of a list of tiles, which fill the
buffer behind `LASTPTR`. Each store of the allocator is a change of that list,
and none touches the payload of a block that is in use after it.
-/
namespace ToyOS.Heap.Layout
open ToyOS.Lib.Words ToyOS.Lib.Tiles ToyOS.Heap.Memory

variable {B : Buffer} {m m' : Bytes} {a p q back x n : Nat} {t u : Tile} {ts xs ys : List Tile}

/-! ## Headers -/

/-- The first word of a block. -/
def word (t : Tile) : Nat := t.size + if t.used then 1 else 0

/-- The headers of the blocks `ts` from address `a` on, with a block of size
`back` before them. -/
def Headers (m : Bytes) : Nat → Nat → List Tile → Prop
  | _, _, [] => True
  | a, back, t :: ts => getW m a = word t ∧ getW m (a + 4) = back ∧ Headers m (a + t.size) t.size ts

/-- The size of the last block, or `back` if there is none. -/
def lastSize (back : Nat) : List Tile → Nat
  | [] => back
  | t :: ts => lastSize t.size ts

theorem lastSize_concat (back : Nat) (xs : List Tile) (t : Tile) : lastSize back (xs ++ [t]) = t.size := by
  induction xs generalizing back with
  | nil => rfl
  | cons x xs ih => exact ih x.size

theorem headers_append : Headers m a back (xs ++ ys) ↔
    Headers m a back xs ∧ Headers m (a + total xs) (lastSize back xs) ys := by
  induction xs generalizing a back with
  | nil => simp [Headers, lastSize]
  | cons x xs ih =>
    rw [List.cons_append, Headers, Headers, ih, total_cons, lastSize, Nat.add_assoc]
    tauto

/-- Headers read only the eight bytes in front of each block. -/
theorem Headers.congr (h : Headers m a back ts)
    (hm : ∀ q t, (q, t) ∈ placed a ts → ∀ x, q ≤ x → x < q + 8 → m' x = m x) :
    Headers m' a back ts := by
  induction ts generalizing a back with
  | nil => trivial
  | cons t ts ih =>
    obtain ⟨hw, hp, hrest⟩ := h
    have hfront := hm a t List.mem_cons_self
    refine ⟨?_, ?_, ih hrest fun q u hq => hm q u (List.mem_cons_of_mem _ hq)⟩
    · rw [← hw]
      exact getW_congr fun x h1 h2 => hfront x h1 (by omega)
    · rw [← hp]
      exact getW_congr fun x h1 h2 => hfront x (by omega) (by omega)

/-- Headers of blocks with room for one read nothing outside the range. -/
theorem Headers.congr_range (h : Headers m a back ts) (hs : ∀ t ∈ ts, 16 ≤ t.size)
    (hm : ∀ x, a ≤ x → x < a + total ts → m' x = m x) : Headers m' a back ts :=
  h.congr fun q t hq x h1 h2 => by
    have := placed_bounds hq
    have := hs t (mem_of_placed hq)
    exact hm x (by omega) (by omega)

/-! ## The heap -/

/-- The blocks `ts` fill the buffer from offset 8 on. -/
structure Laid (B : Buffer) (m : Bytes) (ts : List Tile) : Prop where
  headers : Headers m B.baseptr 0 ts
  last : lastPtr B m = B.baseptr + total ts.dropLast
  fills : total ts = DEFAULT_MEM_SIZE - DSIZE
  sized : ∀ t ∈ ts, 16 ≤ t.size ∧ 8 ∣ t.size

theorem Laid.ne_nil (h : Laid B m ts) : ts ≠ [] := by
  rintro rfl
  exact absurd h.fills (by decide)

theorem Laid.size_ge (h : Laid B m ts) : ∀ t ∈ ts, 16 ≤ t.size := fun t ht => (h.sized t ht).1

/-- The payloads of the blocks in use are those of `m`. -/
def PayloadsKept (B : Buffer) (m m' : Bytes) (ts : List Tile) : Prop :=
  ∀ q t, (q, t) ∈ usedAt B.baseptr ts → ∀ x, q + 8 ≤ x → x < q + t.size → m' x = m x

/-- A cut around block `t` at `p`. -/
structure At (B : Buffer) (m : Bytes) (xs : List Tile) (t : Tile) (ys : List Tile) (p : Nat) :
    Prop where
  laid : Laid B m (xs ++ t :: ys)
  here : p = B.baseptr + total xs

theorem laid_at (h : Laid B m ts) (hp : (p, t) ∈ placed B.baseptr ts) :
    ∃ xs ys, ts = xs ++ t :: ys ∧ At B m xs t ys p := by
  obtain ⟨xs, ys, rfl, hx⟩ := placed_split hp
  exact ⟨xs, ys, rfl, h, hx⟩

section
variable (h : At B m xs t ys p)
include h

theorem At.headers : Headers m B.baseptr 0 xs ∧ getW m p = word t ∧
    getW m (p + 4) = lastSize 0 xs ∧ Headers m (p + t.size) t.size ys := by
  have hh := headers_append.mp h.laid.headers
  rw [← h.here] at hh
  exact hh

theorem At.sized : 16 ≤ t.size ∧ 8 ∣ t.size := h.laid.sized t (by simp)

theorem At.ends : p + t.size + total ys = B.addr + DEFAULT_MEM_SIZE := by
  have htot := h.laid.fills
  have := h.here
  simp only [total_append, total_cons, Buffer.baseptr, DEFAULT_MEM_SIZE, DSIZE] at *
  omega

theorem At.pos : B.baseptr ≤ p ∧ 0 < p := by
  have := h.here
  have := B.pos
  simp only [Buffer.baseptr] at *
  omega

theorem At.size_lt : t.size < 2 ^ 32 ∧ p + t.size ≤ 2 ^ 32 := by
  have := h.ends
  have := B.fits
  have := h.pos
  omega

theorem At.getSize : getSize m p = t.size := by
  obtain ⟨k, hk⟩ := h.sized.2
  rw [Memory.getSize, and_size (getW_lt m p), h.headers.2.1, word]
  split <;> omega

theorem At.getAlloc : getAlloc m p = if t.used then 1 else 0 := by
  obtain ⟨k, hk⟩ := h.sized.2
  rw [Memory.getAlloc, Nat.and_one_is_mod, h.headers.2.1, word]
  split <;> omega

theorem At.getAlloc_eq_zero : Memory.getAlloc m p = 0 ↔ t.used = false := by
  rw [h.getAlloc]
  cases t.used <;> simp

/-- The block after this one, or NULL behind the last. -/
theorem At.next : nextBlkp B m p = if ys = [] then 0 else p + t.size := by
  have hlast := h.laid.last
  rw [nextBlkp, h.getSize]
  have hiff : p < lastPtr B m ↔ ys ≠ [] := by
    rw [hlast, h.here]
    cases ys with
    | nil => simp
    | cons y ys =>
      have := h.sized.1
      rw [List.dropLast_append_of_ne_nil (by simp), List.dropLast_cons_of_ne_nil (by simp)]
      simp only [total_append, total_cons]
      exact iff_of_true (by omega) (by simp)
  by_cases hys : ys = []
  · rw [if_neg fun hlt => hiff.mp hlt hys, if_pos hys]
  · rw [if_pos (hiff.mpr hys), if_neg hys]

theorem At.before_first (hx : xs = []) : prevBlkp B m p = 0 := by
  subst hx
  rw [prevBlkp, if_neg]
  have := h.here
  rw [total_nil] at this
  omega

theorem At.before {ws : List Tile} {w : Tile} (hx : xs = ws ++ [w]) :
    prevBlkp B m p = B.baseptr + total ws ∧ At B m ws w (t :: ys) (B.baseptr + total ws) := by
  subst hx
  have hw : 16 ≤ w.size := h.laid.size_ge w (by simp)
  have hp := h.here
  have hback := h.headers.2.2.1
  rw [lastSize_concat] at hback
  simp only [total_append, total_cons, total_nil] at hp
  refine ⟨?_, by simpa using h.laid, rfl⟩
  rw [prevBlkp, if_pos (by omega), WSIZE, hback]
  omega

theorem At.succ {y : Tile} {zs : List Tile} (hy : ys = y :: zs) : At B m (xs ++ [t]) y zs (p + t.size) := by
  subst hy
  refine ⟨by simpa using h.laid, ?_⟩
  have := h.here
  simp only [total_append, total_cons, total_nil]
  omega

end

end ToyOS.Heap.Layout
