import Mathlib.Logic.Function.Basic
import ToyOS.Lib.Walks

/-! # Trees as maps from paths

Seen from its root, a tree of labelled edges is a map from lists of labels to what
its nodes show. A new leaf adds one path to the map, a leaf that goes takes one
away, and a node that changes is seen at its own path only.
-/
namespace ToyOS.Lib.Pathmaps
open ToyOS.Lib.Walks

variable {ν α β : Type*} {next next' : ν → α → Option ν} {P : ν → Prop} {shows shows' : ν → β → Prop}
variable {r v k : ν} {m : List α → Option β} {a : α} {p q cs : List α} {b : β}

/-- `m` has at each path what the node there shows, and nothing where no node is. -/
structure Depicts (next : ν → α → Option ν) (shows : ν → β → Prop) (r : ν) (m : List α → Option β) :
    Prop where
  absent : ∀ p, follow next r p = none → m p = none
  present : ∀ p k, follow next r p = some k → ∃ b, m p = some b ∧ shows k b

theorem Depicts.none_iff (h : Depicts next shows r m) : m p = none ↔ follow next r p = none := by
  refine ⟨fun hm => ?_, h.absent p⟩
  cases hf : follow next r p with
  | none => rfl
  | some k =>
    obtain ⟨b, hb, -⟩ := h.present p k hf
    rw [hm] at hb
    cases hb

theorem Depicts.node (h : Depicts next shows r m) (hm : m p = some b) :
    ∃ k, follow next r p = some k ∧ shows k b := by
  cases hf : follow next r p with
  | none =>
    rw [h.absent p hf] at hm
    cases hm
  | some k =>
    obtain ⟨b', hb, hs⟩ := h.present p k hf
    obtain rfl := Option.some.inj (hm.symm.trans hb)
    exact ⟨k, rfl, hs⟩

/-- The root alone. -/
theorem depicts_root [DecidableEq α] (hr : ∀ a, next r a = none) (hs : shows r b) :
    Depicts next shows r (Function.update (fun _ => none) [] (some b)) := by
  constructor
  · intro p hp
    refine Function.update_of_ne ?_ _ _
    rintro rfl
    cases hp
  · intro p k hk
    cases p with
    | nil =>
      obtain rfl : r = k := Option.some.inj hk
      exact ⟨b, Function.update_self .., hs⟩
    | cons a p =>
      rw [follow_stuck hr (List.cons_ne_nil a p)] at hk
      cases hk

section
variable (h : Depicts next shows r m)
include h

theorem Depicts.congr (hf : ∀ p, follow next' r p = follow next r p)
    (hs : ∀ p k b, follow next r p = some k → shows k b → shows' k b) : Depicts next' shows' r m := by
  refine ⟨fun p hp => h.absent p ((hf p).symm.trans hp), fun p k hk => ?_⟩
  rw [hf] at hk
  obtain ⟨b, hb, hk'⟩ := h.present p k hk
  exact ⟨b, hb, hs p k b hk hk'⟩

variable [DecidableEq α]

/-- One node shows something else. -/
theorem Depicts.relabel (hf : ∀ p, follow next' r p = follow next r p) (ht : Tree next P r)
    (hp : follow next r p = some k) (hself : shows' k b)
    (hs : ∀ q j b, follow next r q = some j → j ≠ k → shows j b → shows' j b) :
    Depicts next' shows' r (Function.update m p (some b)) := by
  constructor
  · intro q hq
    rw [hf] at hq
    have hne : q ≠ p := by
      rintro rfl
      rw [hp] at hq
      cases hq
    rw [Function.update_of_ne hne]
    exact h.absent q hq
  · intro q j hq
    rw [hf] at hq
    by_cases hqp : q = p
    · subst hqp
      obtain rfl := Option.some.inj (hp.symm.trans hq)
      exact ⟨b, Function.update_self .., hself⟩
    · obtain ⟨b', hb, hj⟩ := h.present q j hq
      refine ⟨b', by rw [Function.update_of_ne hqp, hb], hs q j b' hq ?_ hj⟩
      rintro rfl
      exact hqp (ht.path_unique hq hp)

section
variable (hv : follow next r cs = some v)
variable (hoff : ∀ q, ¬ cs ++ [a] <+: q → follow next' r q = follow next r q)
include hv hoff

/-- A leaf at the end of a new edge. -/
theorem Depicts.grow (hnone : next v a = none) (hedge : next' v a = some k)
    (hleaf : ∀ c, next' k c = none) (hself : shows' k b)
    (hs : ∀ q j b, follow next r q = some j → shows j b → shows' j b) :
    Depicts next' shows' r (Function.update m (cs ++ [a]) (some b)) := by
  have hv' : follow next' r cs = some v := by rw [hoff cs not_concat_prefix, hv]
  -- behind the new edge there is the leaf and nothing else
  have hbehind : ∀ rest, follow next' r (cs ++ [a] ++ rest) = if rest = [] then some k else none := by
    intro rest
    rw [follow_behind hv', hedge, Option.bind_some]
    split
    · rename_i hrest
      rw [hrest, follow_nil]
    · rename_i hrest
      exact follow_stuck hleaf hrest
  have hbefore : ∀ rest, follow next r (cs ++ [a] ++ rest) = none := by
    intro rest
    rw [follow_behind hv, hnone, Option.bind_none]
  constructor
  · intro q hq
    by_cases hpre : cs ++ [a] <+: q
    · obtain ⟨rest, rfl⟩ := hpre
      rw [hbehind] at hq
      split at hq
      · cases hq
      · rename_i hrest
        rw [Function.update_of_ne (by simpa using hrest)]
        exact h.absent _ (hbefore rest)
    · rw [Function.update_of_ne (by rintro rfl; exact hpre List.prefix_rfl)]
      exact h.absent q ((hoff q hpre).symm.trans hq)
  · intro q j hq
    by_cases hpre : cs ++ [a] <+: q
    · obtain ⟨rest, rfl⟩ := hpre
      rw [hbehind] at hq
      split at hq
      · rename_i hrest
        obtain rfl := Option.some.inj hq
        rw [hrest, List.append_nil]
        exact ⟨b, Function.update_self .., hself⟩
      · cases hq
    · rw [hoff q hpre] at hq
      obtain ⟨b', hb, hj⟩ := h.present q j hq
      rw [Function.update_of_ne (by rintro rfl; exact hpre List.prefix_rfl)]
      exact ⟨b', hb, hs q j b' hq hj⟩

/-- A leaf whose edge goes. -/
theorem Depicts.cut (hedge : next v a = some k) (hleaf : ∀ c, next k c = none)
    (hgone : next' v a = none)
    (hs : ∀ q j b, ¬ cs ++ [a] <+: q → follow next r q = some j → shows j b → shows' j b) :
    Depicts next' shows' r (Function.update m (cs ++ [a]) none) := by
  have hv' : follow next' r cs = some v := by rw [hoff cs not_concat_prefix, hv]
  constructor
  · intro q hq
    by_cases hpre : cs ++ [a] <+: q
    · obtain ⟨rest, rfl⟩ := hpre
      by_cases hrest : rest = []
      · rw [hrest, List.append_nil, Function.update_self]
      · rw [Function.update_of_ne (by simpa using hrest)]
        refine h.absent _ ?_
        rw [follow_behind hv, hedge, Option.bind_some]
        exact follow_stuck hleaf hrest
    · rw [Function.update_of_ne (by rintro rfl; exact hpre List.prefix_rfl)]
      exact h.absent q ((hoff q hpre).symm.trans hq)
  · intro q j hq
    have hpre : ¬ cs ++ [a] <+: q := by
      rintro ⟨rest, rfl⟩
      rw [follow_behind hv', hgone, Option.bind_none] at hq
      cases hq
    rw [hoff q hpre] at hq
    obtain ⟨b', hb, hj⟩ := h.present q j hq
    rw [Function.update_of_ne (by rintro rfl; exact hpre List.prefix_rfl)]
    exact ⟨b', hb, hs q j b' hpre hq hj⟩

end
end

end ToyOS.Lib.Pathmaps
