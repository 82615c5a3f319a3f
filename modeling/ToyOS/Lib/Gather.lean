import Mathlib.Data.List.Basic

/-! # Gathering values from chunks, up to a limit

`gather n` appends chunk after chunk and stops as soon as `n` values are there.
A limit that is not ahead of the values already gathered is never met, except
where it is met before anything is appended.
-/
namespace ToyOS.Lib.Gather

universe u
variable {α : Type u} {n : Int} {l m : List α} {c : α} {ms ms' : List (List α)}

/-- Append `m`, but stop at length `n` if that is still ahead. -/
def upTo (n : Int) (l m : List α) : List α :=
  if (l.length : Int) < n then l ++ m.take (n - l.length).toNat else l ++ m

def gather (n : Int) : List (List α) → List α → List α
  | [], l => l
  | m :: ms, l =>
    if ((upTo n l m).length : Int) = n then upTo n l m else gather n ms (upTo n l m)

@[simp] theorem upTo_nil : upTo n l [] = l := by
  simp [upTo]

/-- The limit is met by the first value. -/
theorem upTo_cons_met (h : (l.length : Int) + 1 = n) : upTo n l (c :: m) = l ++ [c] := by
  rw [upTo, if_pos (by omega), show (n - l.length).toNat = 1 by omega]
  simp

theorem upTo_cons (h : (l.length : Int) + 1 ≠ n) : upTo n l (c :: m) = upTo n (l ++ [c]) m := by
  unfold upTo
  by_cases hlt : (l.length : Int) < n
  · rw [if_pos hlt, if_pos (by simp; omega),
      show (n - l.length).toNat = (n - (l ++ [c]).length).toNat + 1 by simp; omega]
    simp
  · rw [if_neg hlt, if_neg (by simp; omega)]
    simp

theorem length_upTo_le (h : (l.length : Int) < n) : ((upTo n l m).length : Int) ≤ n := by
  rw [upTo, if_pos h, List.length_append, List.length_take]
  omega

/-- While the limit is ahead, gathering is taking from all the chunks. -/
theorem gather_of_lt (h : (l.length : Int) < n) : gather n ms l = upTo n l ms.flatten := by
  induction ms generalizing l with
  | nil => simp [gather]
  | cons m ms ih =>
    have hle := length_upTo_le (m := m) h
    rw [gather, List.flatten_cons]
    split
    · rename_i hn
      rw [upTo, if_pos h, List.length_append, List.length_take] at hn
      rw [upTo, upTo, if_pos h, if_pos h, List.take_append_of_le_length (by omega)]
    · rename_i hn
      rw [ih (by omega)]
      have hm : m.length < (n - l.length).toNat := by
        rw [upTo, if_pos h, List.length_append, List.length_take] at hn
        omega
      have e : upTo n l m = l ++ m := by
        rw [upTo, if_pos h, List.take_of_length_le (by omega)]
      rw [e, upTo, upTo, if_pos h, if_pos (by simp; omega), List.take_append,
        List.take_of_length_le (l := m) (by omega), List.append_assoc]
      congr 3
      simp
      omega

/-- A limit that has been passed is never met. -/
theorem gather_of_gt (h : n < (l.length : Int)) : gather n ms l = l ++ ms.flatten := by
  induction ms generalizing l with
  | nil => simp [gather]
  | cons m ms ih =>
    have e : upTo n l m = l ++ m := by rw [upTo, if_neg (by omega)]
    rw [gather, e, if_neg (by simp; omega), ih (by simp; omega)]
    simp

theorem length_gather_le (h : (l.length : Int) < n) : ((gather n ms l).length : Int) ≤ n := by
  rw [gather_of_lt h]
  exact length_upTo_le h

/-- Gathering from two lists of chunks, one after the other. -/
theorem gather_append (h : (l.length : Int) < n) :
    gather n (ms ++ ms') l =
      if ((gather n ms l).length : Int) = n then gather n ms l
      else gather n ms' (gather n ms l) := by
  induction ms generalizing l with
  | nil =>
    rw [List.nil_append, gather, if_neg (by omega)]
  | cons m ms ih =>
    have hle := length_upTo_le (m := m) h
    rw [List.cons_append, gather, gather]
    by_cases hn : ((upTo n l m).length : Int) = n
    · rw [if_pos hn, if_pos hn, if_pos hn]
    · rw [if_neg hn, if_neg hn]
      exact ih (by omega)

/-- At most everything is gathered. -/
theorem length_gather_le_flatten (n : Int) (ms : List (List α)) (l : List α) :
    (gather n ms l).length ≤ l.length + ms.flatten.length := by
  induction ms generalizing l with
  | nil => simp [gather]
  | cons m ms ih =>
    have hle : (upTo n l m).length ≤ l.length + m.length := by
      unfold upTo
      split
      · rw [List.length_append, List.length_take]
        omega
      · simp
    rw [gather, List.flatten_cons, List.length_append]
    split
    · omega
    · have := ih (l := upTo n l m)
      omega

end ToyOS.Lib.Gather
