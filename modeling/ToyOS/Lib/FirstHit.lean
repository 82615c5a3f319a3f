import Mathlib.Data.List.Basic
import ToyOS.Lib.Loop

/-! # The first hit of a search along a list

`List.findSome?` stops at the first element that answers. The rules say what
becomes of its answer when the elements answer differently: when nothing but one
silent element changes, and when some elements fall silent.
-/
namespace ToyOS.Lib.FirstHit
open ToyOS.Lib.Loop

universe u v w
variable {α : Type u} {β : Type v} {γ : Type w} {l : List α} {f g : α → Option β} {a : α} {b : β}

/-- A counted search is a search along the list of its indices. -/
theorem firstSome_eq_findSome? (f : Nat → Option β) (lo n : Nat) :
    firstSome f lo n = (List.range' lo n).findSome? f := by
  induction n generalizing lo with
  | zero => rfl
  | succ n ih =>
    rw [firstSome, List.range'_succ, List.findSome?_cons, ih]
    cases f lo with
    | some a => rfl
    | none => rfl

theorem findSome?_flatMap (l : List α) (h : α → List γ) (f : γ → Option β) :
    (l.flatMap h).findSome? f = l.findSome? fun a => (h a).findSome? f := by
  induction l with
  | nil => rfl
  | cons a l ih =>
    rw [List.flatMap_cons, List.findSome?_append, List.findSome?_cons, ih]
    cases (h a).findSome? f with
    | none => rfl
    | some b => rfl

theorem findSome?_congr (h : ∀ a ∈ l, f a = g a) : l.findSome? f = l.findSome? g := by
  induction l with
  | nil => rfl
  | cons a l ih =>
    rw [List.findSome?_cons, List.findSome?_cons, h a (by simp), ih fun b hb => h b (by simp [hb])]

/-- Where only one element answers, the search ends there. -/
theorem findSome?_of_only (ha : a ∈ l) (hf : f a = some b) (h : ∀ c ∈ l, f c ≠ none → c = a) :
    l.findSome? f = some b := by
  induction l with
  | nil => cases ha
  | cons c l ih =>
    rw [List.findSome?_cons]
    cases hc : f c with
    | some d =>
      have e := h c (by simp) (by simp [hc])
      rw [e, hf] at hc
      exact hc.symm
    | none =>
      rcases List.mem_cons.mp ha with e | ha
      · rw [e, hc] at hf
        cases hf
      · exact ih ha fun d hd => h d (by simp [hd])

/-- Some elements have fallen silent. -/
def Thinned (l : List α) (f g : α → Option β) : Prop := ∀ a ∈ l, g a = f a ∨ g a = none

theorem Thinned.missing (h : Thinned l f g) (hf : l.findSome? f = none) : l.findSome? g = none := by
  rw [List.findSome?_eq_none_iff] at hf ⊢
  intro a ha
  rcases h a ha with e | e
  · rw [e]
    exact hf a ha
  · exact e

/-- When the first hit stays, so does the answer. -/
theorem Thinned.stays (h : Thinned l f g) (hf : l.findSome? f = some b)
    (hkeep : ∀ l₁ a l₂, l = l₁ ++ a :: l₂ → f a = some b → (∀ c ∈ l₁, f c = none) → g a ≠ none) :
    l.findSome? g = some b := by
  rw [List.findSome?_eq_some_iff] at hf ⊢
  obtain ⟨l₁, a, l₂, e, ha, hbefore⟩ := hf
  have hstay := hkeep l₁ a l₂ e ha hbefore
  refine ⟨l₁, a, l₂, e, ?_, fun c hc => ?_⟩
  · rw [(h a (by simp [e])).resolve_right hstay]
    exact ha
  · rcases h c (by simp [e, hc]) with e' | e'
    · rw [e']
      exact hbefore c hc
    · exact e'

end ToyOS.Lib.FirstHit
