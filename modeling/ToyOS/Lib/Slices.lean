import Mathlib.Data.List.Basic

/-! # A list read in rows

A list cut into rows of `s` elements, and of each of the rows from the `b`-th on
what lies behind the first `o` elements. Without an offset, or with one row, that
is a stretch of the list.
-/
namespace ToyOS.Lib.Slices

universe u
variable {α : Type u} {s o b n i : Nat} {d : List α}

/-- The rest of row `m`. -/
def row (s o : Nat) (d : List α) (m : Nat) : List α := (d.drop (s * m + o)).take (s - o)

/-- The rests of `n` rows, one behind the other. -/
def slices (s o : Nat) (d : List α) (b n : Nat) : List α := ((List.range' b n).map (row s o d)).flatten

theorem slices_zero : slices s o d b 0 = [] := rfl

theorem slices_succ : slices s o d b (n + 1) = row s o d b ++ slices s o d (b + 1) n := by
  unfold slices
  rw [List.range'_succ, List.map_cons, List.flatten_cons]

theorem length_row : (row s o d b).length = min (s - o) (d.length - (s * b + o)) := by
  rw [row, List.length_take, List.length_drop]

theorem length_row_le : (row s o d b).length ≤ s - o := by
  rw [length_row]
  exact Nat.min_le_left _ _

theorem length_slices_le : (slices s o d b n).length ≤ n * (s - o) := by
  induction n generalizing b with
  | zero => exact Nat.zero_le _
  | succ n ih =>
    have hrow := length_row_le (s := s) (o := o) (d := d) (b := b)
    rw [slices_succ, List.length_append, Nat.add_mul, Nat.one_mul, Nat.add_comm]
    exact Nat.add_le_add ih hrow

/-- There is nothing behind the end. -/
theorem slices_beyond (h : d.length ≤ s * b + o) : slices s o d b n = [] := by
  induction n generalizing b with
  | zero => rfl
  | succ n ih =>
    have hrow : row s o d b = [] := by
      rw [row, List.drop_eq_nil_of_le h, List.take_nil]
    rw [slices_succ, hrow, ih (by rw [Nat.mul_add]; omega)]
    rfl

/-- The `i`-th element lies as far behind the offset of its row as `i` says. -/
theorem getElem?_slices (ho : o < s) : (slices s o d b n)[i]? =
    if i / (s - o) < n then d[s * (b + i / (s - o)) + (o + i % (s - o))]? else none := by
  induction n generalizing b i with
  | zero => rw [slices_zero, if_neg (Nat.not_lt_zero _), List.getElem?_nil]
  | succ n ih =>
    have hw : 0 < s - o := by omega
    rw [slices_succ, List.getElem?_append]
    by_cases hi : i < s - o
    · have hrow : (row s o d b)[i]? = d[s * b + (o + i)]? := by
        rw [row, List.getElem?_take_of_lt hi, List.getElem?_drop, Nat.add_assoc]
      rw [Nat.div_eq_of_lt hi, Nat.mod_eq_of_lt hi, if_pos (Nat.succ_pos n), Nat.add_zero b, ← hrow]
      split
      · rfl
      · -- a row that is too short is the last one
        rename_i hlen
        have hshort := length_row (s := s) (o := o) (d := d) (b := b)
        rw [slices_beyond (by rw [Nat.mul_add]; omega), List.getElem?_nil,
          List.getElem?_eq_none (Nat.le_of_not_lt hlen)]
    · have hdiv : i / (s - o) = (i - (s - o)) / (s - o) + 1 :=
        Nat.div_eq_sub_div hw (Nat.le_of_not_lt hi)
      have hmod : i % (s - o) = (i - (s - o)) % (s - o) := Nat.mod_eq_sub_mod (Nat.le_of_not_lt hi)
      have hlen := length_row_le (s := s) (o := o) (d := d) (b := b)
      rw [if_neg (by omega)]
      by_cases hfull : (row s o d b).length = s - o
      · rw [hfull, ih, hdiv, hmod, Nat.add_right_comm b 1]
        exact if_congr Nat.add_lt_add_iff_right.symm rfl rfl
      · have hshort := length_row (s := s) (o := o) (d := d) (b := b)
        have hend : d.length ≤ s * (b + 1) := by rw [Nat.mul_add]; omega
        have hle : s * (b + 1) ≤ s * (b + i / (s - o)) :=
          Nat.mul_le_mul_left s (Nat.add_le_add_left (Nat.div_pos (Nat.le_of_not_lt hi) hw) b)
        have hnone : d[s * (b + i / (s - o)) + (o + i % (s - o))]? = none :=
          List.getElem?_eq_none (by omega)
        rw [slices_beyond (by omega), List.getElem?_nil, hnone, ite_self]

/-- Rows without an offset, or a single one. -/
theorem slices_run (h : o = 0 ∨ n ≤ 1) : slices s o d b n = (d.drop (s * b + o)).take (s * n - o) := by
  rcases h with rfl | h
  · induction n generalizing b with
    | zero => rfl
    | succ n ih =>
      rw [slices_succ, ih, row, Nat.add_zero, Nat.add_zero, Nat.sub_zero, Nat.sub_zero,
        Nat.sub_zero, Nat.mul_add s n, Nat.mul_one, Nat.add_comm (s * n), List.take_add, List.drop_drop,
        Nat.mul_add, Nat.mul_one]
  · rcases Nat.le_one_iff_eq_zero_or_eq_one.mp h with rfl | rfl
    · rw [Nat.mul_zero, Nat.zero_sub, List.take_zero]
      rfl
    · rw [slices_succ, slices_zero, List.append_nil, row, Nat.mul_one]

/-- What lies in the first row. -/
theorem take_slices {m : Nat} (hn : 0 < n) (hm : o + m ≤ s) (hd : s * b + o + m ≤ d.length) :
    (slices s o d b n).take m = (d.drop (s * b + o)).take m := by
  obtain ⟨n, rfl⟩ := Nat.exists_eq_succ_of_ne_zero (Nat.pos_iff_ne_zero.mp hn)
  have hlen := length_row (s := s) (o := o) (d := d) (b := b)
  rw [Nat.succ_eq_add_one, slices_succ, List.take_append_of_le_length (by omega), row, List.take_take,
    Nat.min_eq_left (by omega)]

end ToyOS.Lib.Slices
