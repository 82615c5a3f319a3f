import Mathlib.Logic.Function.Basic

/-! # Values stored one after the other

`overlay loc v base t` is the memory `base` after the stores of `v 0`, `v 1`,
… `v (t - 1)` at the addresses `loc 0`, `loc 1`, … `loc (t - 1)`, in that order.
-/
namespace ToyOS.Lib.Overlay

universe u
variable {β : Type u} {loc loc' : Nat → Nat} {v : Nat → β} {base : Nat → β} {t a : Nat}

def overlay (loc : Nat → Nat) (v : Nat → β) (base : Nat → β) : Nat → Nat → β
  | 0 => base
  | t + 1 => Function.update (overlay loc v base t) (loc t) (v t)

theorem overlay_congr (h : ∀ i, i < t → loc i = loc' i) :
    overlay loc v base t = overlay loc' v base t := by
  induction t with
  | zero => rfl
  | succ t ih =>
    rw [overlay, overlay, ih fun i hi => h i (by omega), h t (by omega)]

theorem overlay_base {base' : Nat → β} (h : base a = base' a) :
    overlay loc v base t a = overlay loc v base' t a := by
  induction t with
  | zero => exact h
  | succ t ih =>
    rw [overlay, overlay]
    by_cases e : a = loc t
    · rw [e, Function.update_self, Function.update_self]
    · rw [Function.update_of_ne e, Function.update_of_ne e, ih]

/-- An address no store goes to. -/
theorem overlay_of_ne (h : ∀ i, i < t → loc i ≠ a) : overlay loc v base t a = base a := by
  induction t with
  | zero => rfl
  | succ t ih =>
    rw [overlay, Function.update_of_ne fun e => h t (by omega) e.symm]
    exact ih fun i hi => h i (by omega)

/-- Stores at consecutive addresses from `c` on. -/
theorem overlay_run {c : Nat} (h : ∀ i, i < t → loc i = c + i) (a : Nat) :
    overlay loc v base t a = if c ≤ a ∧ a < c + t then v (a - c) else base a := by
  induction t with
  | zero => rw [if_neg (by omega)]; rfl
  | succ t ih =>
    rw [overlay, h t (by omega)]
    by_cases e : a = c + t
    · rw [e, Function.update_self, if_pos (by omega), Nat.add_sub_cancel_left]
    · rw [Function.update_of_ne e, ih fun i hi => h i (by omega)]
      by_cases hr : c ≤ a ∧ a < c + t
      · rw [if_pos hr, if_pos (by omega)]
      · rw [if_neg hr, if_neg (by omega)]

end ToyOS.Lib.Overlay
