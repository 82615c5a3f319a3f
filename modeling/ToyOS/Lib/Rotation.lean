import Mathlib.Data.List.Basic

/-! # Turns from a line

A line of waiting items and one that is being served. Newcomers join at the
back. The one that is served either goes back to the end of the line or leaves;
then the first in line is served, or nobody. Between two turns of one item
everybody who stood in line before it came back is served, once each and in order.
-/
namespace ToyOS.Lib.Rotation

universe u
variable {α : Type u}

structure Line (α : Type u) where
  waiting : List α
  running : Option α

inductive Move (α : Type u) where
  | enter (x : α)
  | giveUp
  | leave

/-- The first of a list is served. -/
def next (l : List α) : Line α := ⟨l.tail, l.head?⟩

/-- The line once the one that was served has gone to its end. -/
def Line.requeued (s : Line α) : List α := s.waiting ++ s.running.toList

def Line.step (s : Line α) : Move α → Line α
  | .enter x => { s with waiting := s.waiting ++ [x] }
  | .giveUp => next s.requeued
  | .leave => next s.waiting

/-- Who is served at each change, `none` for nobody. -/
def turns : Line α → List (Move α) → List (Option α)
  | _, [] => []
  | s, .enter x :: ms => turns (s.step (.enter x)) ms
  | s, .giveUp :: ms => s.requeued.head? :: turns (s.step .giveUp) ms
  | s, .leave :: ms => s.waiting.head? :: turns (s.step .leave) ms

variable {s : Line α} {t : α} {ms ms' : List (Move α)} {mid : List (Option α)} {xs ys : List α}

theorem turns_append (s : Line α) (ms ms' : List (Move α)) :
    turns s (ms ++ ms') = turns s ms ++ turns (ms.foldl Line.step s) ms' := by
  induction ms generalizing s with
  | nil => rfl
  | cons m ms ih =>
    cases m with
    | enter x => exact ih _
    | giveUp => exact congrArg _ (ih _)
    | leave => exact congrArg _ (ih _)

theorem foldl_enter (s : Line α) (xs : List α) :
    (xs.map Move.enter).foldl Line.step s = ⟨s.waiting ++ xs, s.running⟩ := by
  induction xs generalizing s with
  | nil => rw [List.append_nil]; rfl
  | cons x xs ih => rw [List.map_cons, List.foldl_cons, ih, Line.step, List.append_assoc, List.singleton_append]

theorem turns_enter (s : Line α) (xs : List α) : turns s (xs.map Move.enter) = [] := by
  induction xs generalizing s with
  | nil => rfl
  | cons x xs ih => exact ih _

/-- The newcomers before the first other move. -/
theorem enter_prefix {rest rest' : List (Move α)}
    (h : xs.map Move.enter ++ rest = ys.map Move.enter ++ .giveUp :: rest') :
    ∃ zs, ys = xs ++ zs ∧ rest = zs.map Move.enter ++ .giveUp :: rest' := by
  induction xs generalizing ys with
  | nil => exact ⟨ys, rfl, h⟩
  | cons x xs ih =>
    cases ys with
    | nil => cases (List.cons.inj h).1
    | cons y ys =>
      obtain ⟨hxy, htail⟩ := List.cons.inj h
      obtain ⟨zs, rfl, hrest⟩ := ih htail
      obtain rfl := Move.enter.inj hxy
      exact ⟨zs, rfl, hrest⟩

/-- One change, with `t` in line: either `t` is served or the one before it. -/
theorem turns_next (hno : some t ∉ mid) (hx : t ∉ xs)
    (h : (xs ++ t :: ys).head? :: turns (next (xs ++ t :: ys)) ms = mid ++ [some t]) :
    (xs = [] ∧ mid = []) ∨ ∃ x xs' mid', xs = x :: xs' ∧ mid = some x :: mid' ∧
      turns ⟨xs' ++ t :: ys, some x⟩ ms = mid' ++ [some t] := by
  cases xs with
  | nil =>
    cases mid with
    | nil => exact .inl ⟨rfl, rfl⟩
    | cons o mid =>
      have ho : some t = o := (List.cons.inj h).1
      exact absurd (ho ▸ List.mem_cons_self) hno
  | cons x xs =>
    cases mid with
    | nil =>
      have ht : some x = some t := (List.cons.inj h).1
      exact absurd (Option.some.inj ht ▸ List.mem_cons_self) hx
    | cons o mid =>
      obtain ⟨rfl, hrest⟩ := List.cons.inj h
      exact .inr ⟨x, xs, mid, rfl, rfl, hrest⟩

/-- Those that stand before `t` are served before it. -/
theorem turns_ahead (hx : t ∉ xs) (hs : s.waiting = xs ++ t :: ys)
    (h : turns s ms = mid ++ [some t]) (hno : some t ∉ mid) : mid = xs.map some := by
  induction ms generalizing s xs ys mid with
  | nil => simp [turns] at h
  | cons m ms ih =>
    have hchange : ∀ zs, (xs ++ t :: zs).head? :: turns (next (xs ++ t :: zs)) ms = mid ++ [some t] →
        mid = xs.map some := by
      intro zs hz
      rcases turns_next hno hx hz with ⟨rfl, rfl⟩ | ⟨x, xs', mid', rfl, rfl, hrest⟩
      · rfl
      · rw [List.map_cons, ih (fun e => hx (List.mem_cons_of_mem _ e)) rfl hrest
          fun e => hno (List.mem_cons_of_mem _ e)]
    cases m with
    | enter x =>
      have hline : (s.step (.enter x)).waiting = xs ++ t :: (ys ++ [x]) := by
        rw [Line.step, hs, List.append_assoc, List.cons_append]
      exact ih hx hline h hno
    | giveUp =>
      refine hchange (ys ++ s.running.toList) ?_
      rw [← h, turns, Line.step, Line.requeued, hs, List.append_assoc, List.cons_append]
    | leave =>
      refine hchange ys ?_
      rw [← h, turns, Line.step, hs]

/-- One that is gone and does not come back is not served. -/
theorem turns_gone (hw : t ∉ s.waiting) (hr : s.running ≠ some t) (hno : Move.enter t ∉ ms) :
    some t ∉ turns s ms := by
  induction ms generalizing s with
  | nil => exact List.not_mem_nil
  | cons m ms ih =>
    rw [List.mem_cons, not_or] at hno
    obtain ⟨hm, hms⟩ := hno
    have hchange : ∀ l : List α, t ∉ l → some t ∉ l.head? :: turns (next l) ms := by
      intro l hl
      have hhead : l.head? ≠ some t := fun e => hl (List.mem_of_mem_head? (by rw [e]; rfl))
      rw [List.mem_cons, not_or]
      exact ⟨fun e => hhead e.symm, ih (fun e => hl (List.mem_of_mem_tail e)) hhead hms⟩
    cases m with
    | enter x =>
      refine ih (s := s.step (.enter x)) (fun e => ?_) hr hms
      rcases List.mem_append.mp e with e | e
      · exact hw e
      · exact hm (by rw [List.mem_singleton.mp e])
    | giveUp =>
      refine hchange _ fun e => ?_
      rcases List.mem_append.mp e with e | e
      · exact hw e
      · exact hr (Option.mem_toList.mp e)
    | leave => exact hchange _ hw

/-- Between two turns of `t`: it gave up its turn, and those in line then were served. -/
theorem turns_between (hr : s.running = some t) (hw : t ∉ s.waiting) (henter : Move.enter t ∉ ms)
    (h : turns s ms = mid ++ [some t]) (hno : some t ∉ mid) :
    ∃ xs rest, ms = xs.map .enter ++ .giveUp :: rest ∧ mid = (s.waiting ++ xs).map some := by
  induction ms generalizing s with
  | nil => simp [turns] at h
  | cons m ms ih =>
    obtain ⟨hm, hms⟩ : Move.enter t ≠ m ∧ Move.enter t ∉ ms := by rwa [List.mem_cons, not_or] at henter
    cases m with
    | enter x =>
      have hw' : t ∉ (s.step (.enter x)).waiting := fun e => by
        rcases List.mem_append.mp e with e | e
        · exact hw e
        · exact hm (by rw [List.mem_singleton.mp e])
      obtain ⟨xs, rest, rfl, hmid⟩ := ih (s := s.step (.enter x)) hr hw' hms h
      refine ⟨x :: xs, rest, rfl, ?_⟩
      rw [hmid, Line.step, List.append_assoc, List.singleton_append]
    | giveUp =>
      refine ⟨[], ms, rfl, ?_⟩
      rw [List.append_nil]
      have hlast : s.requeued = s.waiting ++ t :: [] := by rw [Line.requeued, hr]; rfl
      have hturns : turns ⟨s.requeued, none⟩ (.giveUp :: ms) = mid ++ [some t] := by
        rw [← h, turns, turns, Line.step, Line.step, Line.requeued, Option.toList_none, List.append_nil]
      exact turns_ahead hw hlast hturns hno
    | leave =>
      have hgone : some t ∉ turns ⟨s.waiting, none⟩ (.leave :: ms) :=
        turns_gone hw (fun e => by cases e) henter
      refine absurd ?_ hgone
      have hsame : turns ⟨s.waiting, none⟩ (.leave :: ms) = turns s (.leave :: ms) := rfl
      rw [hsame, h]
      simp

end ToyOS.Lib.Rotation
