import ToyOS.Heap.Clients

/-! # Freeing in any order

The blocks in use determine the heap, so it does not matter in which order
others were given back.
-/
namespace ToyOS.Heap.Freeing
open ToyOS.Lib.Words ToyOS.Lib.Tiles ToyOS.Heap.Memory ToyOS.Heap.Layout ToyOS.Heap.Allocation
open ToyOS.Heap.Clients

variable {B : Buffer} {st : State} {m : Bytes} {ts us : List Tile} {ps qs : List Nat}

/-- Pointers freed one after the other. -/
theorem freeAll_served (h : Served B st ts) (hnodup : ps.Nodup)
    (hlive : ∀ p ∈ ps, p ∈ st.live.map (·.1)) :
    ∃ st' us, st'.mem = ps.foldl (free B) st.mem ∧ Served B st' us ∧
      usedAt B.baseptr us = (usedAt B.baseptr ts).filter (·.1 + 8 ∉ ps) := by
  induction ps generalizing st ts with
  | nil => exact ⟨st, ts, rfl, h, by simp⟩
  | cons p ps ih =>
    obtain ⟨hp, hnodup⟩ := List.nodup_cons.mp hnodup
    obtain ⟨ts', h', -, hused⟩ := h.free (.inr (hlive p List.mem_cons_self))
    have hlive' : ∀ q ∈ ps, q ∈ (step B st (.free p)).live.map (·.1) := fun q hq => by
      obtain ⟨x, hx, rfl⟩ := List.mem_map.mp (hlive q (List.mem_cons_of_mem _ hq))
      refine List.mem_map.mpr ⟨x, List.mem_filter.mpr ⟨hx, ?_⟩, rfl⟩
      simp only [decide_eq_true_eq]
      exact fun e => hp (e ▸ hq)
    obtain ⟨st', us, hmem, hs, hu⟩ := ih h' hnodup hlive'
    refine ⟨st', us, hmem, hs, ?_⟩
    rw [hu, hused, List.filter_filter]
    refine List.filter_congr fun x _ => ?_
    simp only [List.mem_cons, not_or, ← Bool.decide_and]
    exact decide_eq_decide.mpr and_comm

/-- Two heaps in order with the same blocks in use have the same blocks. -/
theorem blocks_eq_of_used {m' : Bytes} (h : Tidy B m ts) (h' : Tidy B m' us)
    (hused : usedAt B.baseptr ts = usedAt B.baseptr us) : blocks B m = blocks B m' := by
  rw [blocks_eq h.toLaid, blocks_eq h'.toLaid]
  rw [eq_of_usedAt h.positive h'.positive h.coalesced h'.coalesced (h.fills.trans h'.fills.symm) hused]

/-- Live pointers freed in any two orders leave the same blocks; all of them
freed leave the block of `init_heap`. -/
theorem freeing_confluent (h : Reachable B st) :
    (∀ ps qs : List Nat, ps.Nodup → (∀ p ∈ ps, p ∈ st.live.map (·.1)) → ps.Perm qs →
      blocks B (ps.foldl (free B) st.mem) = blocks B (qs.foldl (free B) st.mem)) ∧
    ∀ ps : List Nat, ps.Perm (st.live.map (·.1)) →
      blocks B (ps.foldl (free B) st.mem) =
        [(B.baseptr, ⟨DEFAULT_MEM_SIZE - DSIZE, false⟩)] ∧
      lastPtr B (ps.foldl (free B) st.mem) = B.baseptr := by
  obtain ⟨ts, hs⟩ := reachable_served h
  refine ⟨fun ps qs hnodup hlive hperm => ?_, fun ps hperm => ?_⟩
  · obtain ⟨s₁, us₁, e₁, h₁, hu₁⟩ := freeAll_served hs hnodup hlive
    obtain ⟨s₂, us₂, e₂, h₂, hu₂⟩ := freeAll_served hs (hperm.nodup_iff.mp hnodup)
      fun q hq => hlive q (hperm.mem_iff.mpr hq)
    rw [← e₁, ← e₂]
    refine blocks_eq_of_used h₁.tidy h₂.tidy ?_
    rw [hu₁, hu₂]
    exact List.filter_congr fun x _ => by simp only [hperm.mem_iff]
  · obtain ⟨s₁, us, e₁, h₁, hu⟩ := freeAll_served hs (hperm.nodup_iff.mpr hs.nodup)
      fun p hp => hperm.mem_iff.mp hp
    have hnone : usedAt B.baseptr us = [] := by
      rw [hu, List.filter_eq_nil_iff]
      intro x hx
      obtain ⟨s, hlive⟩ := hs.live x.1 x.2 hx
      simp only [decide_eq_true_eq, not_not]
      exact hperm.mem_iff.mpr (List.mem_map.mpr ⟨_, hlive, rfl⟩)
    have hfills := h₁.tidy.fills
    have hone := eq_singleton h₁.tidy.positive h₁.tidy.coalesced (hfills ▸ by decide) hnone
    rw [hfills] at hone
    rw [← e₁, blocks_eq h₁.tidy.toLaid, h₁.tidy.last, hone]
    exact ⟨rfl, rfl⟩

theorem freeing_confluent_oneLive :
    (∀ ps qs : List Nat, ps.Nodup → (∀ p ∈ ps, p ∈ oneLive.live.map (·.1)) → ps.Perm qs →
      blocks lowBuffer (ps.foldl (free lowBuffer) oneLive.mem) =
        blocks lowBuffer (qs.foldl (free lowBuffer) oneLive.mem)) ∧
    ∀ ps : List Nat, ps.Perm (oneLive.live.map (·.1)) →
      blocks lowBuffer (ps.foldl (free lowBuffer) oneLive.mem) =
        [(lowBuffer.baseptr, ⟨DEFAULT_MEM_SIZE - DSIZE, false⟩)] ∧
      lastPtr lowBuffer (ps.foldl (free lowBuffer) oneLive.mem) = lowBuffer.baseptr :=
  freeing_confluent oneLive_reachable

end ToyOS.Heap.Freeing
