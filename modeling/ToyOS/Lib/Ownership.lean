import Mathlib.Logic.Function.Basic

/-! # Who holds which block

Places hold blocks and a map marks the blocks in use. `Sound` is what makes the
blocks private to their places: what is held is marked, and no block is held
from two places. `Tight` is the converse of the first half: what is marked is
held, so nothing leaks. Blocks change hands in three ways: `Attached` (a place
takes an unmarked block), `Released` (places let go and their blocks are
unmarked) and `Forgotten` (places let go, the marks stay).
-/
namespace ToyOS.Lib.Ownership

universe u v
variable {P : Type u} {B : Type v}

structure Holding (P : Type u) (B : Type v) where
  holds : P → B → Prop
  used : B → Prop

namespace Holding

structure Sound (h : Holding P B) : Prop where
  marked : ∀ {p b}, h.holds p b → h.used b
  unique : ∀ {p q b}, h.holds p b → h.holds q b → p = q

/-- Every marked block is held by a place that satisfies `live`. -/
def Tight (live : P → Prop) (h : Holding P B) : Prop :=
  ∀ b, h.used b → ∃ p, live p ∧ h.holds p b

/-- `h'` is `h` after the place `p` took the block `b`. -/
structure Attached (p : P) (b : B) (h h' : Holding P B) : Prop where
  holds : ∀ q c, h'.holds q c ↔ h.holds q c ∨ (q = p ∧ c = b)
  used : ∀ c, h'.used c ↔ h.used c ∨ c = b

theorem Attached.sound {p : P} {b : B} {h h' : Holding P B} (a : Attached p b h h')
    (hs : h.Sound) (hb : ¬ h.used b) : h'.Sound := by
  refine ⟨fun {q c} hq => (a.used c).mpr ?_, fun {q r c} hq hr => ?_⟩
  · exact ((a.holds q c).mp hq).imp hs.marked And.right
  · rcases (a.holds q c).mp hq with hq | ⟨rfl, rfl⟩ <;>
      rcases (a.holds r c).mp hr with hr | ⟨rfl, hc⟩
    · exact hs.unique hq hr
    · exact absurd (hc ▸ hs.marked hq) hb
    · exact absurd (hs.marked hr) hb
    · rfl

theorem Attached.tight {live : P → Prop} {p : P} {b : B} {h h' : Holding P B}
    (a : Attached p b h h') (ht : h.Tight live) (hp : live p) : h'.Tight live := by
  intro c hc
  rcases (a.used c).mp hc with hc | rfl
  · obtain ⟨q, hq, hqc⟩ := ht c hc
    exact ⟨q, hq, (a.holds q c).mpr (.inl hqc)⟩
  · exact ⟨p, hp, (a.holds p c).mpr (.inr ⟨rfl, rfl⟩)⟩

/-- `h'` is `h` after the places in `S` let go of their blocks, which become
unmarked. -/
structure Released (S : P → Prop) (h h' : Holding P B) : Prop where
  holds : ∀ p b, h'.holds p b ↔ h.holds p b ∧ ¬ S p
  used : ∀ b, h'.used b ↔ h.used b ∧ ¬ ∃ p, S p ∧ h.holds p b

theorem Released.sound {S : P → Prop} {h h' : Holding P B} (r : Released S h h') (hs : h.Sound) :
    h'.Sound := by
  refine ⟨fun {p b} hp => (r.used b).mpr ?_, fun {p q b} hp hq => ?_⟩
  · obtain ⟨hb, hS⟩ := (r.holds p b).mp hp
    refine ⟨hs.marked hb, ?_⟩
    rintro ⟨q, hq, hqb⟩
    exact hS (hs.unique hqb hb ▸ hq)
  · exact hs.unique ((r.holds p b).mp hp).1 ((r.holds q b).mp hq).1

theorem Released.tight {live : P → Prop} {S : P → Prop} {h h' : Holding P B}
    (r : Released S h h') (ht : h.Tight live) : h'.Tight live := by
  intro b hb
  obtain ⟨hu, hn⟩ := (r.used b).mp hb
  obtain ⟨p, hp, hpb⟩ := ht b hu
  exact ⟨p, hp, (r.holds p b).mpr ⟨hpb, fun hS => hn ⟨p, hS, hpb⟩⟩⟩

/-- Letting go in two steps. -/
theorem Released.trans {S T : P → Prop} {h h' h'' : Holding P B} (r : Released S h h')
    (r' : Released T h' h'') : Released (fun p => S p ∨ T p) h h'' := by
  refine ⟨fun p b => ?_, fun b => ?_⟩
  · rw [r'.holds, r.holds, not_or]; exact and_assoc
  · rw [r'.used, r.used]
    constructor
    · rintro ⟨⟨hu, hS⟩, hT⟩
      refine ⟨hu, ?_⟩
      rintro ⟨p, hp, hb⟩
      by_cases h1 : S p
      · exact hS ⟨p, h1, hb⟩
      · exact hT ⟨p, hp.resolve_left h1, (r.holds p b).mpr ⟨hb, h1⟩⟩
    · rintro ⟨hu, hn⟩
      refine ⟨⟨hu, fun ⟨p, hp, hb⟩ => hn ⟨p, .inl hp, hb⟩⟩, ?_⟩
      rintro ⟨p, hp, hb⟩
      exact hn ⟨p, .inr hp, ((r.holds p b).mp hb).1⟩

/-- `h'` is `h` after some places let go; no block became unmarked. -/
structure Forgotten (h h' : Holding P B) : Prop where
  holds : ∀ {p b}, h'.holds p b → h.holds p b
  used : ∀ {b}, h.used b → h'.used b

theorem Forgotten.sound {h h' : Holding P B} (f : Forgotten h h') (hs : h.Sound) : h'.Sound :=
  ⟨fun hp => f.used (hs.marked (f.holds hp)), fun hp hq => hs.unique (f.holds hp) (f.holds hq)⟩

end Holding
end ToyOS.Lib.Ownership
