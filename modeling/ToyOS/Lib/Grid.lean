import Mathlib.Algebra.Order.Group.Nat
import ToyOS.Lib.Tiles

/-! # Requests of one size

Where all tiles in use are to have one size `c`, cut from the front of a free
tile, every tile but the last is a multiple of `c` long: the free ones never
become too small to be used, and the range holds as many tiles as go into it.
-/
namespace ToyOS.Lib.Grid
open ToyOS.Lib.Tiles

variable {a c e k o q : Nat} {b : Nat × Tile} {t u : Tile} {bs ts us xs ys : List Tile}
variable {rest : List (Nat × Tile)}

/-- A tile in use is `c` long, the last one perhaps a little more. -/
structure Even (c : Nat) (ts : List Tile) : Prop where
  multiple : ∀ t ∈ ts.dropLast, c ∣ t.size
  used : ∀ t ∈ ts, t.used = true → c ≤ t.size ∧ t.size < 2 * c

theorem eq_of_dvd (h : c ∣ k) (h1 : c ≤ k) (h2 : k < 2 * c) : k = c := by
  obtain ⟨j, rfl⟩ := h
  obtain rfl : j = 1 := by
    have hlow : 0 < j := Nat.pos_of_ne_zero fun e => by
      subst e
      omega
    have hhigh : j < 2 := Nat.lt_of_mul_lt_mul_left (a := c) (by omega)
    omega
  exact Nat.mul_one c

theorem Even.tail (h : Even c (t :: ts)) : Even c ts := by
  refine ⟨fun u hu => h.multiple u ?_, fun u hu => h.used u (List.mem_cons_of_mem _ hu)⟩
  cases ts with
  | nil => cases hu
  | cons v vs => exact List.mem_cons_of_mem _ hu

theorem even_single (h : t.used = true → c ≤ t.size ∧ t.size < 2 * c) : Even c [t] :=
  ⟨fun _ hu => (by cases hu), fun u hu hused => by
    obtain rfl := List.mem_singleton.mp hu
    exact h hused⟩

theorem dvd_total (h : ∀ t ∈ ts, c ∣ t.size) : c ∣ total ts := by
  induction ts with
  | nil => exact Nat.dvd_zero c
  | cons t ts ih =>
    exact Nat.dvd_add (h t List.mem_cons_self) (ih fun u hu => h u (List.mem_cons_of_mem _ hu))

/-! ## How many fit -/

theorem used_le (hc : 0 < c) (h : ∀ t ∈ ts, t.used = true → c ≤ t.size) :
    ts.countP Tile.used ≤ total ts / c := by
  have hle : ts.countP Tile.used * c ≤ total ts := by
    induction ts with
    | nil => simp
    | cons t ts ih =>
      have htail := ih fun u hu => h u (List.mem_cons_of_mem _ hu)
      rw [total_cons]
      cases ht : t.used with
      | true =>
        have := h t List.mem_cons_self ht
        rw [List.countP_cons_of_pos ht, Nat.succ_mul]
        omega
      | false =>
        rw [List.countP_cons_of_neg (by simp [ht])]
        omega
  exact (Nat.le_div_iff_mul_le hc).mpr hle

/-- No free tile will do for a further one exactly when as many are in use as go
into the range. -/
theorem full_iff (hc : 0 < c) (h : Even c ts) :
    (∀ t ∈ ts, t.used = false → t.size < c) ↔ ts.countP Tile.used = total ts / c := by
  induction ts with
  | nil => simp
  | cons t ts ih =>
    have htail := ih h.tail
    have hle := used_le hc fun u hu => fun hused => (h.used u (List.mem_cons_of_mem t hu) hused).1
    rw [List.forall_mem_cons, htail, total_cons]
    cases ts with
    | nil =>
      cases ht : t.used with
      | true =>
        obtain ⟨h1, h2⟩ := h.used t List.mem_cons_self ht
        have hdiv : t.size / c = 1 := by
          rw [Nat.div_eq_iff hc]
          omega
        simp [ht, hdiv]
      | false => simp [ht, hc.ne', eq_comm]
    | cons u us =>
      have hdvd := h.multiple t List.mem_cons_self
      cases ht : t.used with
      | true =>
        obtain ⟨h1, h2⟩ := h.used t List.mem_cons_self ht
        rw [eq_of_dvd hdvd h1 h2, List.countP_cons_of_pos ht, Nat.add_div_left _ hc, Nat.succ_inj]
        exact and_iff_right fun hf => by cases hf
      | false =>
        obtain ⟨j, hj⟩ := hdvd
        rw [List.countP_cons_of_neg (show ¬ t.used = true by rw [ht]; decide), hj, Nat.mul_add_div hc]
        -- a free tile of any length would have done
        rcases Nat.eq_zero_or_pos j with rfl | hpos
        · rw [Nat.mul_zero, Nat.zero_add]
          exact and_iff_right fun _ => hc
        · have hbig : c ≤ c * j := Nat.le_mul_of_pos_right c hpos
          refine iff_of_false (fun hx => ?_) (by omega)
          have := hx.1 rfl
          omega

/-! ## In terms of the tiles in use -/

/-- A tile in use lies on the grid, and fills its place unless it ends at `e`. -/
structure OnGrid (c o e : Nat) (b : Nat × Tile) : Prop where
  start : c ∣ b.1 - o
  low : c ≤ b.2.size
  high : b.2.size < 2 * c
  exact : b.1 + b.2.size < e → b.2.size = c

theorem Even.onGrid (h : Even c ts) (hb : b ∈ usedAt a ts) : OnGrid c a (a + total ts) b := by
  obtain ⟨q, t⟩ := b
  obtain ⟨hplaced, hused⟩ := mem_usedAt.mp hb
  obtain ⟨xs, ys, rfl, rfl⟩ := placed_split hplaced
  obtain ⟨h1, h2⟩ := h.used t (by simp) hused
  refine ⟨?_, h1, h2, fun hlt => ?_⟩
  · rw [Nat.add_sub_cancel_left]
    refine dvd_total fun u hu => h.multiple u ?_
    rw [List.dropLast_append_of_ne_nil (List.cons_ne_nil t ys)]
    exact List.mem_append_left _ hu
  · refine eq_of_dvd (h.multiple t ?_) h1 h2
    cases ys with
    | nil =>
      rw [total_append, total_cons, total_nil] at hlt
      dsimp only at hlt
      omega
    | cons y ys => simp [List.dropLast_append_of_ne_nil]

/-- A free tile ends where the next one in use starts, so its length is a multiple too. -/
theorem even_of_onGrid (hpos : ∀ t ∈ ts, 0 < t.size) (hco : Coalesced ts) (ho : o ≤ a) (ha : c ∣ a - o)
    (h : ∀ b ∈ usedAt a ts, OnGrid c o (a + total ts) b) : Even c ts := by
  induction ts generalizing a with
  | nil => exact ⟨fun _ hu => (by cases hu), fun _ hu => (by cases hu)⟩
  | cons t ts ih =>
    have hhead : t.used = true → OnGrid c o (a + total (t :: ts)) (a, t) := fun ht => by
      refine h _ ?_
      rw [usedAt_cons, if_pos ht]
      exact List.mem_cons_self
    have hrest : ∀ b ∈ usedAt (a + t.size) ts, OnGrid c o (a + t.size + total ts) b := fun b hb => by
      rw [Nat.add_assoc, ← total_cons]
      refine h b ?_
      rw [usedAt_cons]
      split
      · exact List.mem_cons_of_mem _ hb
      · exact hb
    cases ts with
    | nil => exact even_single fun ht => ⟨(hhead ht).low, (hhead ht).high⟩
    | cons u us =>
      have hu : 0 < u.size := hpos u (by simp)
      have hdvd : c ∣ t.size := by
        cases ht : t.used with
        | true =>
          have hsize := (hhead ht).exact (by rw [total_cons, total_cons]; dsimp only; omega)
          exact ⟨1, by rw [Nat.mul_one]; exact hsize⟩
        | false =>
          obtain hnil | ⟨v, vs, hv, hused⟩ := hco.next ht
          · cases hnil
          · obtain ⟨rfl, rfl⟩ := List.cons.inj hv
            have hnext := (hrest (a + t.size, u) (by
              rw [usedAt_cons, if_pos hused]
              exact List.mem_cons_self)).start
            rw [show a + t.size - o = (a - o) + t.size by omega] at hnext
            exact (Nat.dvd_add_right ha).mp hnext
      have htail := ih (fun v hv => hpos v (List.mem_cons_of_mem _ hv)) hco.tail (by omega)
        (by rw [show a + t.size - o = (a - o) + t.size by omega]; exact Nat.dvd_add ha hdvd) hrest
      refine ⟨fun v hv => ?_, fun v hv hused => ?_⟩
      · rcases List.mem_cons.mp hv with rfl | hv
        · exact hdvd
        · exact htail.multiple v hv
      · rcases List.mem_cons.mp hv with rfl | hv
        · exact ⟨(hhead hused).low, (hhead hused).high⟩
        · exact htail.used v hv hused

/-- With fewer tiles in use nothing else changes. -/
theorem Even.fewer (a : Nat) (h : Even c us) (hpos : ∀ t ∈ ts, 0 < t.size) (hco : Coalesced ts)
    (htot : total ts = total us) (hsub : ∀ b ∈ usedAt a ts, b ∈ usedAt a us) : Even c ts := by
  refine even_of_onGrid hpos hco (Nat.le_refl a) (by simp) fun b hb => ?_
  rw [htot]
  exact h.onGrid (hsub b hb)

theorem usedAt_sorted (a : Nat) (hpos : ∀ t ∈ ts, 0 < t.size) : (usedAt a ts).Pairwise (·.1 < ·.1) := by
  induction ts generalizing a with
  | nil => exact .nil
  | cons t ts ih =>
    have htail := ih (a + t.size) fun u hu => hpos u (List.mem_cons_of_mem _ hu)
    rw [usedAt_cons]
    split
    · refine List.pairwise_cons.mpr ⟨fun b hb => ?_, htail⟩
      have := (placed_bounds (mem_usedAt.mp hb).1).1
      have := hpos t List.mem_cons_self
      dsimp only
      omega
    · exact htail

/-- Cuts with the same tiles in use, in whatever order these are met, are equal. -/
theorem eq_of_same_used (hts : ∀ t ∈ ts, 0 < t.size) (hus : ∀ t ∈ us, 0 < t.size) (ct : Coalesced ts)
    (cu : Coalesced us) (htot : total ts = total us) (h : ∀ b, b ∈ usedAt a ts ↔ b ∈ usedAt a us) : ts = us := by
  have hasymm : ∀ {b c : Nat × Tile}, b.1 < c.1 → b ≠ c := fun hlt e => by
    rw [e] at hlt
    exact absurd hlt (Nat.lt_irrefl _)
  have hst := usedAt_sorted a hts
  have hsu := usedAt_sorted a hus
  have hperm := (List.perm_ext_iff_of_nodup (hst.imp hasymm) (hsu.imp hasymm)).mpr h
  refine eq_of_usedAt hts hus ct cu htot (hperm.eq_of_pairwise (fun b c _ _ h1 h2 => ?_) hst hsu)
  omega

/-- Tiles in use at the front stay at the front. -/
theorem prefix_of_usedAt (hbs : ∀ b ∈ bs, b.used = true) (hpos : ∀ t ∈ ts, 0 < t.size)
    (h : usedAt a ts = usedAt a bs ++ rest) : ∃ us, ts = bs ++ us ∧ usedAt (a + total bs) us = rest := by
  induction bs generalizing a ts with
  | nil => exact ⟨ts, rfl, h⟩
  | cons b bs ih =>
    rw [usedAt_cons a b, if_pos (hbs b List.mem_cons_self), List.cons_append] at h
    cases ts with
    | nil => cases h
    | cons t ts =>
      rw [usedAt_cons] at h
      split at h
      · obtain ⟨hb, h⟩ := List.cons.inj h
        obtain rfl : t = b := (Prod.mk.inj hb).2
        obtain ⟨us, rfl, hus⟩ := ih (fun v hv => hbs v (List.mem_cons_of_mem _ hv))
          (fun v hv => hpos v (List.mem_cons_of_mem _ hv)) h
        exact ⟨us, rfl, by rw [total_cons, ← Nat.add_assoc]; exact hus⟩
      · have hmem : (a, b) ∈ usedAt (a + t.size) ts := by
          rw [h]
          exact List.mem_cons_self
        have hbounds := (placed_bounds (mem_usedAt.mp hmem).1).1
        have := hpos t List.mem_cons_self
        omega

end ToyOS.Lib.Grid
