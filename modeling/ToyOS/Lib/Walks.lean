import Mathlib.Data.List.Induction
import Mathlib.Data.List.Infix

/-! # Walks along labelled edges

`next x a` is the node that the edge `a` leads to from `x`. In a tree every node
is entered by one edge, so one list of labels leads to it, and a change of one
edge is seen by the walks that go along it only.
-/
namespace ToyOS.Lib.Walks

variable {ν α : Type*} {next next' : ν → α → Option ν} {P : ν → Prop} {r v x y k : ν} {a b : α}
variable {as bs cs ds rest : List α}

/-- The node a list of labels leads to. -/
def follow (next : ν → α → Option ν) (x : ν) (as : List α) : Option ν := as.foldlM next x

@[simp] theorem follow_nil : follow next x [] = some x := rfl

theorem follow_cons : follow next x (a :: as) = (next x a).bind fun y => follow next y as :=
  List.foldlM_cons

theorem follow_append : follow next x (as ++ bs) = (follow next x as).bind fun y => follow next y bs :=
  List.foldlM_append

theorem follow_concat : follow next x (as ++ [a]) = (follow next x as).bind fun y => next y a := by
  rw [follow_append]
  refine congrArg (Option.bind _) (funext fun y => ?_)
  rw [follow_cons]
  exact Option.bind_fun_some _

theorem follow_concat_some :
    follow next x (as ++ [a]) = some k ↔ ∃ y, follow next x as = some y ∧ next y a = some k := by
  rw [follow_concat, Option.bind_eq_some_iff]

theorem not_concat_prefix : ¬ as ++ [a] <+: as := fun hp => by
  have hle := hp.length_le
  rw [List.length_append, List.length_singleton] at hle
  omega

theorem concat_prefix_concat (hp : as ++ [a] <+: as ++ [b]) : a = b := by
  have e := hp.eq_of_length (by rw [List.length_append, List.length_append]; rfl)
  exact List.singleton_inj.mp (List.append_cancel_left e)

/-- Beyond a node without edges there is nothing. -/
theorem follow_stuck (hx : ∀ a, next x a = none) (hne : as ≠ []) : follow next x as = none := by
  cases as with
  | nil => exact absurd rfl hne
  | cons a as => rw [follow_cons, hx, Option.bind_none]

/-- Among the nodes with `P` none but `r` is without an edge that enters it, and
no node has two. -/
structure Tree (next : ν → α → Option ν) (P : ν → Prop) (r : ν) : Prop where
  root : P r
  closed : ∀ x a y, P x → next x a = some y → P y
  orphan : ∀ x a, P x → next x a ≠ some r
  single : ∀ x y a b k, P x → P y → next x a = some k → next y b = some k → x = y ∧ a = b

section
variable (h : Tree next P r)
include h

theorem Tree.reached (hk : follow next r as = some k) : P k := by
  induction as using List.reverseRecOn generalizing k with
  | nil => exact Option.some.inj hk ▸ h.root
  | append_singleton as a ih =>
    obtain ⟨y, hy, ha⟩ := follow_concat_some.mp hk
    exact h.closed y a k (ih hy) ha

/-- One list of labels leads to a node. -/
theorem Tree.path_unique (hk : follow next r as = some k) (hk' : follow next r bs = some k) :
    as = bs := by
  induction as using List.reverseRecOn generalizing bs k with
  | nil =>
    obtain rfl : r = k := Option.some.inj hk
    cases bs using List.reverseRecOn with
    | nil => rfl
    | append_singleton bs b =>
      obtain ⟨y, hy, hb⟩ := follow_concat_some.mp hk'
      exact absurd hb (h.orphan y b (h.reached hy))
  | append_singleton as a ih =>
    obtain ⟨x, hx, ha⟩ := follow_concat_some.mp hk
    cases bs using List.reverseRecOn with
    | nil =>
      obtain rfl : r = k := Option.some.inj hk'
      exact absurd ha (h.orphan x a (h.reached hx))
    | append_singleton bs b =>
      obtain ⟨y, hy, hb⟩ := follow_concat_some.mp hk'
      obtain ⟨rfl, rfl⟩ := h.single x y a b k (h.reached hx) (h.reached hy) ha hb
      rw [ih hx hy]

/-- Other edges, but not behind the edge `a` of the node `cs` leads to: the walks
that do not go along this edge are as they were. -/
theorem Tree.follow_off (hv : follow next r cs = some v)
    (hsame : ∀ as y b, follow next r as = some y → ¬ cs ++ [a] <+: as → ¬ (y = v ∧ b = a) →
      next' y b = next y b) (hpre : ¬ cs ++ [a] <+: as) : follow next' r as = follow next r as := by
  induction as using List.reverseRecOn with
  | nil => rfl
  | append_singleton as b ih =>
    have hpre' : ¬ cs ++ [a] <+: as := fun hp => hpre (hp.trans (List.prefix_append as [b]))
    rw [follow_concat, follow_concat, ih hpre']
    cases hy : follow next r as with
    | none => rfl
    | some y =>
      refine hsame as y b hy hpre' fun ⟨hyv, hba⟩ => hpre ?_
      rw [hyv] at hy
      rw [h.path_unique hy hv, hba]

end

/-- What lies behind an edge. -/
theorem follow_behind (hv : follow next r cs = some v) :
    follow next r (cs ++ [a] ++ rest) = (next v a).bind fun y => follow next y rest := by
  rw [follow_append, follow_concat, hv, Option.bind_some]

end ToyOS.Lib.Walks
