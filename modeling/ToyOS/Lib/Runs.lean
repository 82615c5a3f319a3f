import Mathlib.Logic.Function.Basic

/-! # Runs of a deterministic step function

`Reach ok step s₀` are the states of the runs from `s₀` whose every step is
allowed by `ok` in the state it is made from. An invariant is proved once, as
two small goals, by `Reach.invariant`.
-/
namespace ToyOS.Lib.Runs

universe u v w
variable {σ : Type u} {α : Type v}

inductive Reach (ok : σ → α → Prop) (step : σ → α → σ) (s₀ : σ) : σ → Prop
  | start : Reach ok step s₀ s₀
  | step {s : σ} {a : α} : Reach ok step s₀ s → ok s a → Reach ok step s₀ (step s a)

theorem Reach.invariant {ok : σ → α → Prop} {step : σ → α → σ} {s₀ s : σ} {I : σ → Prop}
    (h : Reach ok step s₀ s) (h0 : I s₀) (hstep : ∀ s a, ok s a → I s → I (step s a)) : I s := by
  induction h with
  | start => exact h0
  | step _ ha ih => exact hstep _ _ ha ih

/-- The same with what is known of all reachable states at hand. -/
theorem Reach.invariant_along {ok : σ → α → Prop} {step : σ → α → σ} {s₀ s : σ} {I : σ → Prop}
    (h : Reach ok step s₀ s) (h0 : I s₀)
    (hstep : ∀ s a, Reach ok step s₀ s → ok s a → I s → I (step s a)) : I s := by
  induction h with
  | start => exact h0
  | step hs ha ih => exact hstep _ _ hs ha ih

theorem Reach.mono {ok ok' : σ → α → Prop} {step : σ → α → σ} {s₀ s : σ}
    (h : Reach ok step s₀ s) (hok : ∀ s a, ok s a → ok' s a) : Reach ok' step s₀ s := by
  induction h with
  | start => exact .start
  | step _ ha ih => exact .step ih (hok _ _ ha)

theorem Reach.trans {ok : σ → α → Prop} {step : σ → α → σ} {s₀ s s' : σ} (h : Reach ok step s₀ s)
    (h' : Reach ok step s s') : Reach ok step s₀ s' := by
  induction h' with
  | start => exact h
  | step _ ha ih => exact .step ih ha

/-- A list of calls, each allowed where it is made, ends in a reachable state. -/
theorem Reach.foldl {ok : σ → α → Prop} {step : σ → α → σ} {s₀ s : σ}
    (h : Reach ok step s₀ s) (as : List α) (hok : ∀ s, ∀ a ∈ as, ok s a) :
    Reach ok step s₀ (as.foldl step s) := by
  induction as generalizing s with
  | nil => exact h
  | cons a as ih =>
    exact ih (.step h (hok s a (by simp))) fun s b hb => hok s b (by simp [hb])

/-! ## One run with and without some of its actions -/

section
variable {β : Type w} (step : σ → α → σ)

/-- Every action of the list is allowed where it is made. -/
def Along (ok : σ → α → Prop) : σ → List α → Prop
  | _, [] => True
  | s, a :: as => ok s a ∧ Along ok (step s a) as

/-- What a run shows of the actions in `mine`. -/
def outputs (out : σ → α → β) (mine : α → Bool) : σ → List α → List β
  | _, [] => []
  | s, a :: as =>
    if mine a then out s a :: outputs out mine (step s a) as else outputs out mine (step s a) as

variable {step} {s : σ} {as : List α}

theorem Along.mono {ok ok' : σ → α → Prop} (h : Along step ok s as)
    (hok : ∀ s a, ok s a → ok' s a) : Along step ok' s as := by
  induction as generalizing s with
  | nil => trivial
  | cons a as ih => exact ⟨hok s a h.1, ih h.2⟩

/-- Actions that do nothing can be left out of a run. -/
theorem outputs_filter {out : σ → α → β} {mine keep : α → Bool}
    (hmine : ∀ a, mine a = true → keep a = true)
    (h : Along step (fun s a => keep a = false → step s a = s) s as) :
    outputs step out mine s (as.filter keep) = outputs step out mine s as := by
  induction as generalizing s with
  | nil => rfl
  | cons a as ih =>
    have htail := ih h.2
    cases hk : keep a with
    | true =>
      rw [List.filter_cons_of_pos hk, outputs, outputs, htail]
    | false =>
      have hno : mine a = false := by
        cases hm : mine a with
        | false => rfl
        | true => rw [hmine a hm] at hk; cases hk
      rw [h.1 hk] at htail
      rw [List.filter_cons_of_neg (by simp [hk]), outputs, hno, h.1 hk]
      exact htail

end

/-! ## Two machines side by side -/

section
variable {τ : Type w} {β : Type v}

/-- The last state and the outputs of a run. -/
def runOutputs (f : σ → α → σ × β) : σ → List α → σ × List β
  | s, [] => (s, [])
  | s, a :: as => ((runOutputs f (f s a).1 as).1, (f s a).2 :: (runOutputs f (f s a).1 as).2)

/-- Machines whose single actions give related states and equal outputs do so
over whole runs. -/
theorem runOutputs_simulated {f : σ → α → σ × β} {g : τ → α → τ × β} {R : σ → τ → Prop}
    (hstep : ∀ s t a, R s t → R (f s a).1 (g t a).1 ∧ (f s a).2 = (g t a).2) {s : σ} {t : τ}
    (h : R s t) (as : List α) :
    R (runOutputs f s as).1 (runOutputs g t as).1 ∧ (runOutputs f s as).2 = (runOutputs g t as).2 := by
  induction as generalizing s t with
  | nil => exact ⟨h, rfl⟩
  | cons a as ih =>
    obtain ⟨hr, hout⟩ := hstep s t a h
    obtain ⟨hrun, houts⟩ := ih hr
    exact ⟨hrun, by rw [runOutputs, runOutputs, hout, houts]⟩

end

end ToyOS.Lib.Runs
