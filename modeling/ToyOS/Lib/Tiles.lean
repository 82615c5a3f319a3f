import Mathlib.Data.List.Chain

/-! # A range cut into tiles

A range of addresses is cut into tiles, each in use or free. A cut is coalesced
when no two free tiles lie next to each other; the tiles in use and the length
of the range then determine it.
-/
namespace ToyOS.Lib.Tiles

structure Tile where
  size : Nat
  used : Bool
deriving DecidableEq

def total : List Tile → Nat
  | [] => 0
  | t :: ts => t.size + total ts

/-- The tiles with their addresses, the first one at `a`. -/
def placed : Nat → List Tile → List (Nat × Tile)
  | _, [] => []
  | a, t :: ts => (a, t) :: placed (a + t.size) ts

/-- The tiles in use, with their addresses. -/
def usedAt (a : Nat) (ts : List Tile) : List (Nat × Tile) := (placed a ts).filter (·.2.used)

variable {a q r : Nat} {t u : Tile} {ts us xs ys : List Tile}

@[simp] theorem total_nil : total [] = 0 := rfl
@[simp] theorem total_cons : total (t :: ts) = t.size + total ts := rfl

@[simp] theorem total_append (xs ys : List Tile) : total (xs ++ ys) = total xs + total ys := by
  induction xs with
  | nil => simp
  | cons x xs ih => simp [ih, Nat.add_assoc]

@[simp] theorem placed_nil (a : Nat) : placed a [] = [] := rfl
@[simp] theorem placed_cons (a : Nat) (t : Tile) (ts : List Tile) :
    placed a (t :: ts) = (a, t) :: placed (a + t.size) ts := rfl

theorem placed_append (a : Nat) (xs ys : List Tile) :
    placed a (xs ++ ys) = placed a xs ++ placed (a + total xs) ys := by
  induction xs generalizing a with
  | nil => rfl
  | cons x xs ih => simp [ih, Nat.add_assoc]

/-- A tile lies inside the range. -/
theorem placed_bounds (h : (q, t) ∈ placed a ts) : a ≤ q ∧ q + t.size ≤ a + total ts := by
  induction ts generalizing a with
  | nil => cases h
  | cons u us ih =>
    rw [placed_cons, List.mem_cons] at h
    rw [total_cons]
    rcases h with h | h
    · obtain ⟨rfl, rfl⟩ := Prod.mk.inj h
      omega
    · have := ih h
      omega

theorem mem_of_placed (h : (q, t) ∈ placed a ts) : t ∈ ts := by
  induction ts generalizing a with
  | nil => cases h
  | cons u us ih =>
    rw [placed_cons, List.mem_cons] at h
    rcases h with h | h
    · rw [(Prod.mk.inj h).2]
      exact List.mem_cons_self
    · exact List.mem_cons_of_mem _ (ih h)

/-- A tile and its address cut the list in two. -/
theorem placed_split (h : (q, t) ∈ placed a ts) :
    ∃ xs ys, ts = xs ++ t :: ys ∧ q = a + total xs := by
  induction ts generalizing a with
  | nil => cases h
  | cons u us ih =>
    rw [placed_cons, List.mem_cons] at h
    rcases h with h | h
    · obtain ⟨rfl, rfl⟩ := Prod.mk.inj h
      exact ⟨[], us, rfl, rfl⟩
    · obtain ⟨xs, ys, rfl, rfl⟩ := ih h
      exact ⟨u :: xs, ys, rfl, by rw [total_cons]; omega⟩

theorem placed_of_split (a : Nat) (xs : List Tile) (t : Tile) (ys : List Tile) :
    (a + total xs, t) ∈ placed a (xs ++ t :: ys) := by
  simp [placed_append]

/-- Two tiles are the same one or do not overlap. -/
theorem placed_disjoint (ht : (q, t) ∈ placed a ts) (hu : (r, u) ∈ placed a ts) :
    (q = r ∧ t = u) ∨ q + t.size ≤ r ∨ r + u.size ≤ q := by
  induction ts generalizing a with
  | nil => cases ht
  | cons v vs ih =>
    rw [placed_cons, List.mem_cons] at ht hu
    rcases ht with ht | ht
    · obtain ⟨rfl, rfl⟩ := Prod.mk.inj ht
      rcases hu with hu | hu
      · obtain ⟨rfl, rfl⟩ := Prod.mk.inj hu
        exact .inl ⟨rfl, rfl⟩
      · have := placed_bounds hu
        omega
    · rcases hu with hu | hu
      · obtain ⟨rfl, rfl⟩ := Prod.mk.inj hu
        have := placed_bounds ht
        omega
      · exact ih ht hu

/-- Each tile starts where the one before it ends. -/
theorem placed_adjacent (a : Nat) (ts : List Tile) :
    (placed a ts).IsChain fun b c => c.1 = b.1 + b.2.size := by
  induction ts generalizing a with
  | nil => exact List.isChain_nil
  | cons t ts ih =>
    refine List.isChain_cons.mpr ⟨fun y hy => ?_, ih (a + t.size)⟩
    cases ts with
    | nil => cases hy
    | cons u us =>
      obtain rfl := Option.some.inj hy
      rfl

/-- What holds of neighbours holds of them where they are placed. -/
theorem placed_chain {R : Tile → Tile → Prop} (h : ts.IsChain R) (a : Nat) :
    (placed a ts).IsChain fun b c => R b.2 c.2 := by
  induction ts generalizing a with
  | nil => exact List.isChain_nil
  | cons t ts ih =>
    refine List.isChain_cons.mpr ⟨fun y hy => ?_, ih h.tail (a + t.size)⟩
    cases ts with
    | nil => cases hy
    | cons u us =>
      obtain rfl := Option.some.inj hy
      exact (List.isChain_cons_cons.mp h).1

theorem placed_getLast? (a : Nat) (xs : List Tile) (t : Tile) :
    (placed a (xs ++ [t])).getLast? = some (a + total xs, t) := by
  rw [placed_append]
  simp

/-! ## Tiles in use -/

theorem mem_usedAt : (q, t) ∈ usedAt a ts ↔ (q, t) ∈ placed a ts ∧ t.used = true := by
  simp [usedAt]

@[simp] theorem usedAt_nil (a : Nat) : usedAt a [] = [] := rfl

theorem usedAt_cons (a : Nat) (t : Tile) (ts : List Tile) :
    usedAt a (t :: ts) = if t.used then (a, t) :: usedAt (a + t.size) ts else usedAt (a + t.size) ts := by
  cases h : t.used <;> simp [usedAt, h]

theorem usedAt_append (a : Nat) (xs ys : List Tile) :
    usedAt a (xs ++ ys) = usedAt a xs ++ usedAt (a + total xs) ys := by
  simp [usedAt, placed_append]

/-! ## Coalesced cuts -/

/-- No two free tiles lie next to each other. -/
def Coalesced (ts : List Tile) : Prop := ts.IsChain fun t u => t.used = true ∨ u.used = true

theorem Coalesced.tail (h : Coalesced (t :: ts)) : Coalesced ts := List.IsChain.tail h

/-- The first tile in use behind a free tile starts where that one ends. -/
theorem Coalesced.next (h : Coalesced (t :: ts)) (ht : t.used = false) :
    ts = [] ∨ ∃ u us, ts = u :: us ∧ u.used = true := by
  cases ts with
  | nil => exact .inl rfl
  | cons u us =>
    rcases (List.isChain_cons_cons.mp h).1 with h | h
    · rw [ht] at h; cases h
    · exact .inr ⟨u, us, rfl, h⟩

theorem coalesced_append : Coalesced (xs ++ ys) ↔ Coalesced xs ∧ Coalesced ys ∧
    ∀ x ∈ xs.getLast?, ∀ y ∈ ys.head?, x.used = true ∨ y.used = true := List.isChain_append

/-- A tile may be taken into use. -/
theorem Coalesced.use (h : Coalesced (xs ++ t :: ys)) (hu : u.used = true) :
    Coalesced (xs ++ u :: ys) := by
  obtain ⟨hxs, hys, -⟩ := coalesced_append.mp h
  refine coalesced_append.mpr ⟨hxs, List.isChain_cons.mpr ⟨fun y _ => .inl hu, hys.tail⟩, ?_⟩
  intro x _ y hy
  obtain rfl := Option.some.inj hy
  exact .inr hu

/-- A free tile may be cut into one in use and one that is free. -/
theorem Coalesced.cut {v : Tile} (h : Coalesced (xs ++ t :: ys)) (ht : t.used = false)
    (hu : u.used = true) : Coalesced (xs ++ u :: v :: ys) := by
  obtain ⟨hxs, hys, -⟩ := coalesced_append.mp h
  refine coalesced_append.mpr ⟨hxs, ?_, ?_⟩
  · refine List.isChain_cons_cons.mpr ⟨.inl hu, List.isChain_cons.mpr ⟨?_, hys.tail⟩⟩
    intro y hy
    rcases hys.next ht with rfl | ⟨w, ws, rfl, hw⟩
    · cases hy
    · obtain rfl := Option.some.inj hy
      exact .inr hw
  · intro x _ y hy
    obtain rfl := Option.some.inj hy
    exact .inr hu

/-- Any tile may stand in front of nothing or of a tile in use. -/
theorem coalesced_cons (h : Coalesced ts)
    (hfront : ts = [] ∨ ∃ u us, ts = u :: us ∧ u.used = true) : Coalesced (t :: ts) := by
  refine List.isChain_cons.mpr ⟨fun y hy => ?_, h⟩
  rcases hfront with rfl | ⟨u, us, rfl, hu⟩
  · cases hy
  · obtain rfl := Option.some.inj hy
    exact .inr hu

/-- `length` tiles of at least `n` each. -/
theorem length_le_total {n : Nat} (hs : ∀ t ∈ ts, n ≤ t.size) : n * ts.length ≤ total ts := by
  induction ts with
  | nil => simp
  | cons t ts ih =>
    have := hs t List.mem_cons_self
    have := ih fun u hu => hs u (List.mem_cons_of_mem _ hu)
    rw [List.length_cons, total_cons, Nat.mul_succ]
    omega

theorem total_pos (hpos : ∀ t ∈ ts, 0 < t.size) (hne : ts ≠ []) : 0 < total ts := by
  cases ts with
  | nil => exact absurd rfl hne
  | cons t ts =>
    have := hpos t List.mem_cons_self
    rw [total_cons]
    omega

/-- A free tile at the front of one cut, while the other begins with one in use. -/
theorem used_front_ne (hpos : 0 < u.size) (ht : t.used = true) (hu : u.used = false) :
    usedAt a (t :: ts) ≠ usedAt a (u :: us) := by
  intro e
  rw [usedAt_cons, if_pos ht, usedAt_cons, hu, if_neg (by decide)] at e
  have hmem : (a, t) ∈ usedAt (a + u.size) us := by rw [← e]; exact List.mem_cons_self
  have := (placed_bounds (mem_usedAt.mp hmem).1).1
  omega

/-- The canonical form: coalesced cuts of ranges of one length with the same
tiles in use are equal. -/
theorem eq_of_usedAt (hts : ∀ t ∈ ts, 0 < t.size) (hus : ∀ t ∈ us, 0 < t.size)
    (ct : Coalesced ts) (cu : Coalesced us) (htot : total ts = total us)
    (hused : usedAt a ts = usedAt a us) : ts = us := by
  induction ts generalizing a us with
  | nil =>
    by_contra hne
    have := total_pos hus (Ne.symm hne)
    rw [total_nil] at htot
    omega
  | cons t ts ih =>
    cases us with
    | nil =>
      have := total_pos hts (List.cons_ne_nil t ts)
      rw [total_nil] at htot
      omega
    | cons u us =>
      have htp := hts t List.mem_cons_self
      have hup := hus u List.mem_cons_self
      have hts' : ∀ t ∈ ts, 0 < t.size := fun v hv => hts v (List.mem_cons_of_mem _ hv)
      have hus' : ∀ t ∈ us, 0 < t.size := fun v hv => hus v (List.mem_cons_of_mem _ hv)
      cases ht : t.used with
      | true =>
        cases hu : u.used with
        | false => exact absurd hused (used_front_ne hup ht hu)
        | true =>
          rw [usedAt_cons, if_pos ht, usedAt_cons, if_pos hu] at hused
          obtain ⟨he, hrest⟩ := List.cons.inj hused
          obtain rfl := (Prod.mk.inj he).2
          rw [ih hts' hus' ct.tail cu.tail (by simpa using htot) hrest]
      | false =>
        cases hu : u.used with
        | true => exact absurd hused.symm (used_front_ne htp hu ht)
        | false =>
          rw [usedAt_cons, ht, if_neg (by decide), usedAt_cons, hu, if_neg (by decide)] at hused
          have hsize : t.size = u.size := by
            rcases ct.next ht with rfl | ⟨v, vs, rfl, hv⟩
            · rcases cu.next hu with rfl | ⟨w, ws, rfl, hw⟩
              · simpa using htot
              · rw [usedAt_nil, usedAt_cons, if_pos hw] at hused
                cases hused
            · rcases cu.next hu with rfl | ⟨w, ws, rfl, hw⟩
              · rw [usedAt_nil, usedAt_cons, if_pos hv] at hused
                cases hused
              · rw [usedAt_cons, if_pos hv, usedAt_cons, if_pos hw] at hused
                have := (Prod.mk.inj (List.cons.inj hused).1).1
                omega
          have htu : t = u := by
            obtain ⟨n, b⟩ := t
            obtain ⟨n', b'⟩ := u
            dsimp only at hsize ht hu
            rw [hsize, ht, hu]
          subst htu
          rw [ih hts' hus' ct.tail cu.tail (by simpa using htot) hused]

/-- Without a tile in use the range is one tile. -/
theorem eq_singleton (hts : ∀ t ∈ ts, 0 < t.size) (ct : Coalesced ts) (hpos : 0 < total ts)
    (hused : usedAt a ts = []) : ts = [⟨total ts, false⟩] := by
  refine eq_of_usedAt (a := a) hts (fun t ht => ?_) ct (List.isChain_singleton _) (by simp) ?_
  · rw [List.mem_singleton.mp ht]
    exact hpos
  · rw [hused]
    simp [usedAt]

end ToyOS.Lib.Tiles
