import Mathlib.Logic.Function.Basic

/-! # Counted loops

A `for` loop whose body may leave the whole function early. `Flow` is what a
statement leaves behind, `forFrom` iterates a body that may return, `loop` one
that may not, and `firstSome` is the search that stops at the first hit. Each
comes with the rule its users need: an invariant rule for the two loops, and a
description of the first hit for the search.
-/
namespace ToyOS.Lib.Loop

universe u v w
variable {σ : Type u} {ρ : Type v} {α : Type w}

/-- How a statement ends: control falls through, or the function returns. -/
inductive Flow (σ : Type u) (ρ : Type v) where
  | next (s : σ)
  | ret (s : σ) (r : ρ)

namespace Flow

/-- Run `f` after a statement that falls through. -/
def bind : Flow σ ρ → (σ → Flow σ ρ) → Flow σ ρ
  | .next s, f => f s
  | .ret s r, _ => .ret s r

/-- The state a statement leaves, whichever way it ends. -/
def state : Flow σ ρ → σ
  | .next s => s
  | .ret s _ => s

/-- A postcondition with one clause for each way of ending. -/
def Ends (N : σ → Prop) (R : σ → ρ → Prop) : Flow σ ρ → Prop
  | .next s => N s
  | .ret s r => R s r

@[simp] theorem bind_next (s : σ) (f : σ → Flow σ ρ) : (Flow.next s).bind f = f s := rfl
@[simp] theorem bind_ret (s : σ) (r : ρ) (f : σ → Flow σ ρ) :
    (Flow.ret s r).bind f = .ret s r := rfl
@[simp] theorem state_next (s : σ) : (Flow.next s : Flow σ ρ).state = s := rfl
@[simp] theorem state_ret (s : σ) (r : ρ) : (Flow.ret s r).state = s := rfl
@[simp] theorem ends_next {N : σ → Prop} {R : σ → ρ → Prop} {s : σ} :
    (Flow.next s).Ends N R ↔ N s := Iff.rfl
@[simp] theorem ends_ret {N : σ → Prop} {R : σ → ρ → Prop} {s : σ} {r : ρ} :
    (Flow.ret s r).Ends N R ↔ R s r := Iff.rfl

theorem Ends.mono {N N' : σ → Prop} {R R' : σ → ρ → Prop} {fl : Flow σ ρ} (h : fl.Ends N R)
    (hN : ∀ s, N s → N' s) (hR : ∀ s r, R s r → R' s r) : fl.Ends N' R' := by
  cases fl with
  | next s => exact hN s h
  | ret s r => exact hR s r h

/-- Sequencing: the fall-through states of the first part feed the second. -/
theorem Ends.bind {M N : σ → Prop} {R : σ → ρ → Prop} {fl : Flow σ ρ} {f : σ → Flow σ ρ}
    (h : fl.Ends M R) (hf : ∀ s, M s → (f s).Ends N R) : (fl.bind f).Ends N R := by
  cases fl with
  | next s => exact hf s h
  | ret s r => exact h

theorem Ends.and {N N' : σ → Prop} {R R' : σ → ρ → Prop} {fl : Flow σ ρ}
    (h : fl.Ends N R) (h' : fl.Ends N' R') :
    fl.Ends (fun s => N s ∧ N' s) fun s r => R s r ∧ R' s r := by
  cases fl with
  | next s => exact ⟨h, h'⟩
  | ret s r => exact ⟨h, h'⟩

theorem Ends.state {N : σ → Prop} {fl : Flow σ ρ} (h : fl.Ends N fun s _ => N s) :
    N fl.state := by
  cases fl with
  | next s => exact h
  | ret s r => exact h

end Flow

/-- `for (i = lo; i < lo + n; i++) body`, where `body` may return. -/
def forFrom (body : Nat → σ → Flow σ ρ) : Nat → Nat → σ → Flow σ ρ
  | _, 0, s => .next s
  | i, n + 1, s => (body i s).bind (forFrom body (i + 1) n)

/-- The invariant rule: `I i` holds before pass `i`, and every return meets `R`. -/
theorem forFrom_ends (I : Nat → σ → Prop) {R : σ → ρ → Prop} {f : Nat → σ → Flow σ ρ}
    {a n : Nat} {s : σ} (h0 : I a s)
    (step : ∀ i t, a ≤ i → i < a + n → I i t → (f i t).Ends (I (i + 1)) R) :
    (forFrom f a n s).Ends (I (a + n)) R := by
  induction n generalizing a s with
  | zero => exact h0
  | succ n ih =>
    refine (step a s (Nat.le_refl _) (by omega) h0).bind fun t ht => ?_
    have := ih ht fun i u hi hn => step i u (by omega) (by omega)
    rwa [show a + (n + 1) = a + 1 + n by omega]

/-- The two statements do the same, and fall through only where `I` holds. -/
def Flow.Agree (I : σ → Prop) (fl fl' : Flow σ ρ) : Prop := fl = fl' ∧ fl.Ends I fun _ _ => True

theorem Flow.Agree.bind {I J : σ → Prop} {fl fl' : Flow σ ρ} {f f' : σ → Flow σ ρ} (h : fl.Agree I fl')
    (hf : ∀ s, I s → (f s).Agree J (f' s)) : (fl.bind f).Agree J (fl'.bind f') := by
  obtain ⟨rfl, hends⟩ := h
  cases fl with
  | next s => exact hf s hends
  | ret s r => exact ⟨rfl, trivial⟩

theorem forFrom_agree {I : σ → Prop} {f f' : Nat → σ → Flow σ ρ} {a n : Nat} {s : σ} (h : I s)
    (step : ∀ i t, I t → (f i t).Agree I (f' i t)) : (forFrom f a n s).Agree I (forFrom f' a n s) := by
  induction n generalizing a s with
  | zero => exact ⟨rfl, h⟩
  | succ n ih => exact (step a s h).bind fun t ht => ih ht

/-- Where no pass adds more than `c` to a measure. -/
theorem forFrom_atMost (μ : σ → Nat) (c : Nat) {f : Nat → σ → Flow σ ρ} {a n : Nat} {s : σ}
    (step : ∀ i t, (f i t).Ends (fun t' => μ t' ≤ μ t + c) fun t' _ => μ t' ≤ μ t + c) :
    (forFrom f a n s).Ends (fun t => μ t ≤ μ s + n * c) fun t _ => μ t ≤ μ s + n * c := by
  induction n generalizing a s with
  | zero => exact Nat.le_add_right _ _
  | succ n ih =>
    rw [Nat.succ_mul]
    refine Flow.Ends.bind ((step a s).mono (fun t h => h) fun t _ h => ?_) fun t ht => ?_
    · exact Nat.le_trans h (by omega)
    · exact (ih (a := a + 1) (s := t)).mono (fun t' h => by omega) fun t' _ h => by omega

/-- `for (i = lo; i < lo + n; i++) body`, where `body` never returns. -/
def loop (body : Nat → σ → σ) : Nat → Nat → σ → σ
  | _, 0, s => s
  | i, n + 1, s => loop body (i + 1) n (body i s)

theorem loop_inv (I : Nat → σ → Prop) {f : Nat → σ → σ} {a n : Nat} {s : σ} (h0 : I a s)
    (step : ∀ i t, a ≤ i → i < a + n → I i t → I (i + 1) (f i t)) :
    I (a + n) (loop f a n s) := by
  induction n generalizing a s with
  | zero => exact h0
  | succ n ih =>
    have := ih (step a s (Nat.le_refl _) (by omega) h0)
      fun i u hi hn => step i u (by omega) (by omega)
    rwa [show a + (n + 1) = a + 1 + n by omega]

/-- Two loops whose passes keep a relation. -/
theorem loop_related {τ : Type v} {R : σ → τ → Prop} {f : Nat → σ → σ} {g : Nat → τ → τ} {a n : Nat}
    {s : σ} {t : τ} (h : R s t) (step : ∀ i s t, R s t → R (f i s) (g i t)) :
    R (loop f a n s) (loop g a n t) := by
  induction n generalizing a s t with
  | zero => exact h
  | succ n ih => exact ih (step a s t h)

/-- The first hit of `f` among `lo, …, lo + n - 1`. -/
def firstSome (f : Nat → Option α) : Nat → Nat → Option α
  | _, 0 => none
  | i, n + 1 => match f i with
    | some a => some a
    | none => firstSome f (i + 1) n

theorem firstSome_eq_none {f : Nat → Option α} {lo n : Nat} :
    firstSome f lo n = none ↔ ∀ i, lo ≤ i → i < lo + n → f i = none := by
  induction n generalizing lo with
  | zero => simp [firstSome]; omega
  | succ n ih =>
    simp only [firstSome]
    cases hf : f lo with
    | some a =>
      simp only [reduceCtorEq, false_iff, not_forall]
      exact ⟨lo, Nat.le_refl _, by omega, by simp [hf]⟩
    | none =>
      simp only [ih]
      constructor
      · intro h i hi hn
        rcases Nat.eq_or_lt_of_le hi with rfl | hlt
        · exact hf
        · exact h i hlt (by omega)
      · intro h i hi hn; exact h i (by omega) (by omega)

theorem firstSome_eq_some {f : Nat → Option α} {lo n : Nat} {a : α} :
    firstSome f lo n = some a ↔
      ∃ i, lo ≤ i ∧ i < lo + n ∧ f i = some a ∧ ∀ j, lo ≤ j → j < i → f j = none := by
  induction n generalizing lo with
  | zero => simp [firstSome]; omega
  | succ n ih =>
    simp only [firstSome]
    cases hf : f lo with
    | some b =>
      constructor
      · intro h; exact ⟨lo, Nat.le_refl _, by omega, hf.trans h, by omega⟩
      · rintro ⟨i, hi, hn, ha, hb⟩
        rcases Nat.eq_or_lt_of_le hi with rfl | hlt
        · exact hf.symm.trans ha
        · have := hb lo (Nat.le_refl _) hlt; simp [hf] at this
    | none =>
      simp only [ih]
      constructor
      · rintro ⟨i, hi, hn, ha, hb⟩
        refine ⟨i, by omega, by omega, ha, fun j hj hji => ?_⟩
        rcases Nat.eq_or_lt_of_le hj with rfl | hlt
        · exact hf
        · exact hb j hlt hji
      · rintro ⟨i, hi, hn, ha, hb⟩
        rcases Nat.eq_or_lt_of_le hi with rfl | hlt
        · simp [hf] at ha
        · exact ⟨i, hlt, by omega, ha, fun j hj hji => hb j (by omega) hji⟩

/-- The least index in `lo, …, lo + n - 1` that satisfies `p`. -/
def firstIdx (p : Nat → Bool) (lo n : Nat) : Option Nat :=
  firstSome (fun i => if p i then some i else none) lo n

theorem firstIdx_eq_some {p : Nat → Bool} {lo n i : Nat} :
    firstIdx p lo n = some i ↔
      lo ≤ i ∧ i < lo + n ∧ p i = true ∧ ∀ j, lo ≤ j → j < i → p j = false := by
  simp only [firstIdx, firstSome_eq_some, Option.ite_none_right_eq_some, Option.some.injEq,
    ite_eq_right_iff, reduceCtorEq, imp_false, Bool.not_eq_true]
  constructor
  · rintro ⟨k, h1, h2, ⟨h3, rfl⟩, h4⟩; exact ⟨h1, h2, h3, h4⟩
  · rintro ⟨h1, h2, h3, h4⟩; exact ⟨i, h1, h2, ⟨h3, rfl⟩, h4⟩

theorem firstIdx_eq_none {p : Nat → Bool} {lo n : Nat} :
    firstIdx p lo n = none ↔ ∀ i, lo ≤ i → i < lo + n → p i = false := by
  simp [firstIdx, firstSome_eq_none]

end ToyOS.Lib.Loop
