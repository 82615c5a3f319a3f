import Mathlib.Logic.Function.Basic
import Mathlib.Data.List.Basic

/-! # A list kept in a ring

A bounded list stored in an array of `cap` cells, from `head` on and around the
end. One cell is always left over, so that an empty and a full ring differ.
-/
namespace ToyOS.Lib.Ring

universe u
variable {α : Type u} {cells : Nat → α} {cap head tail : Nat} {l : List α} {x : α}

theorem wrap {a : Nat} (h : a < 2 * cap) : a % cap = if a < cap then a else a - cap := by
  split
  · exact Nat.mod_eq_of_lt (by omega)
  · rw [Nat.mod_eq_sub_mod (by omega)]
    exact Nat.mod_eq_of_lt (by omega)

/-- The cells from `head` to `tail` hold the list `l`. -/
structure Holds (cells : Nat → α) (cap head tail : Nat) (l : List α) : Prop where
  room : l.length < cap
  head_lt : head < cap
  tail_eq : tail = (head + l.length) % cap
  stored : ∀ i (h : i < l.length), cells ((head + i) % cap) = l[i]

theorem holds_nil (cells : Nat → α) (h : head < cap) : Holds cells cap head head [] :=
  ⟨by simp only [List.length_nil]; omega, h, (Nat.mod_eq_of_lt h).symm,
    fun i hi => absurd hi (Nat.not_lt_zero i)⟩

section
variable (h : Holds cells cap head tail l)
include h

theorem Holds.tail_lt : tail < cap := by
  have := h.head_lt
  rw [h.tail_eq]
  exact Nat.mod_lt _ (by omega)

theorem Holds.tail_cases : tail = if head + l.length < cap then head + l.length
    else head + l.length - cap := by
  have := h.room
  have := h.head_lt
  rw [h.tail_eq]
  exact wrap (by omega)

theorem Holds.empty_iff : head = tail ↔ l = [] := by
  have hroom := h.room
  have hhead := h.head_lt
  have htail := h.tail_cases
  rw [← List.length_eq_zero_iff]
  split at htail <;> omega

theorem Holds.full_iff : (tail + 1) % cap = head ↔ l.length + 1 = cap := by
  have hroom := h.room
  have hhead := h.head_lt
  have hlt := h.tail_lt
  have htail := h.tail_cases
  rw [wrap (by omega)]
  split <;> split at htail <;> omega

theorem Holds.apart {i : Nat} (hi : i < l.length) : (head + i) % cap ≠ tail := by
  have hroom := h.room
  have hhead := h.head_lt
  have htail := h.tail_cases
  rw [wrap (by omega)]
  split <;> split at htail <;> omega

/-- The cell behind the last value is not part of the list. -/
theorem Holds.store (x : α) : Holds (Function.update cells tail x) cap head tail l := by
  refine ⟨h.room, h.head_lt, h.tail_eq, fun i hi => ?_⟩
  rw [Function.update_of_ne (h.apart hi)]
  exact h.stored i hi

/-- What that cell holds joins the list. -/
theorem Holds.advance (hroom : l.length + 1 < cap) (hx : cells tail = x) :
    Holds cells cap head ((tail + 1) % cap) (l ++ [x]) := by
  refine ⟨by simpa using hroom, h.head_lt, ?_, fun i hi => ?_⟩
  · rw [List.length_append, List.length_singleton, h.tail_eq, Nat.mod_add_mod, Nat.add_assoc]
  · rw [List.length_append, List.length_singleton] at hi
    by_cases hlast : i = l.length
    · subst hlast
      rw [← h.tail_eq, hx, List.getElem_append_right (Nat.le_refl _)]
      simp
    · rw [List.getElem_append_left (by omega)]
      exact h.stored i (by omega)

/-- A value stored behind the last one. -/
theorem Holds.push (hroom : l.length + 1 < cap) (x : α) :
    Holds (Function.update cells tail x) cap head ((tail + 1) % cap) (l ++ [x]) :=
  (h.store x).advance hroom (Function.update_self tail x cells)

end

/-- The first value taken out. -/
theorem Holds.pop (h : Holds cells cap head tail (x :: l)) :
    cells head = x ∧ Holds cells cap ((head + 1) % cap) tail l := by
  have hroom := h.room
  have hhead := h.head_lt
  rw [List.length_cons] at hroom
  constructor
  · have := h.stored 0 (by simp)
    rwa [Nat.add_zero, Nat.mod_eq_of_lt hhead] at this
  · refine ⟨by omega, Nat.mod_lt _ (by omega), ?_, fun i hi => ?_⟩
    · rw [h.tail_eq, List.length_cons, Nat.mod_add_mod]
      exact congrArg (· % cap) (by omega)
    · have := h.stored (i + 1) (by simpa using hi)
      rw [Nat.mod_add_mod, show head + 1 + i = head + (i + 1) by omega, this]
      rfl

end ToyOS.Lib.Ring
