import ToyOS.Lib.FirstHit
import ToyOS.Ramdisk.Components
import ToyOS.Ramdisk.Places

/-! # What a lookup finds

A round of `my_find_inode_number` goes through the leaf places of an inode in a
fixed order, the three levels one after the other, and through the sixteen
entries of each block. `slots` lists the entries in that order; the round ends
at the first one that reads as the name and has another number than the inode.
-/
namespace ToyOS.Ramdisk.Lookup
open ToyOS.Lib.Loop ToyOS.Lib.FirstHit ToyOS.Lib.CStrings
open ToyOS.Ramdisk.Image ToyOS.Ramdisk.Places ToyOS.Ramdisk.Paths ToyOS.Ramdisk.Components

variable {fs : FileSys} {x n : Nat} {t : Str} {p : Place} {e : Place × Nat}

/-! ## The order of the search -/

def directLeaves (x : Nat) : List Place := (List.range' 0 8).map (.direct x)

def singleLeaves (x : Nat) : List Place := (List.range' 0 64).map (.sleaf x)

def doubleLeaves (x : Nat) : List Place :=
  (List.range' 0 64).flatMap fun i => (List.range' 0 64).map (.dleaf x i)

/-- The leaf places of inode `x`. -/
def leaves (x : Nat) : List Place := directLeaves x ++ (singleLeaves x ++ doubleLeaves x)

/-- The entries of the blocks at these places, there or not. -/
def slotsOf (ps : List Place) : List (Place × Nat) :=
  ps.flatMap fun p => (List.range' 0 16).map fun j => (p, j)

def slots (x : Nat) : List (Place × Nat) := slotsOf (leaves x)

theorem mem_directLeaves : p ∈ directLeaves x ↔ ∃ i, i < 8 ∧ p = .direct x i := by
  simp [directLeaves, eq_comm]

theorem mem_singleLeaves : p ∈ singleLeaves x ↔ ∃ i, i < 64 ∧ p = .sleaf x i := by
  simp [singleLeaves, eq_comm]

theorem mem_doubleLeaves :
    p ∈ doubleLeaves x ↔ ∃ i j, i < 64 ∧ j < 64 ∧ p = .dleaf x i j := by
  simp only [doubleLeaves, List.mem_flatMap, List.mem_range'_1, List.mem_map]
  constructor
  · rintro ⟨i, hi, j, hj, rfl⟩
    exact ⟨i, j, by omega, by omega, rfl⟩
  · rintro ⟨i, j, hi, hj, rfl⟩
    exact ⟨i, by omega, j, by omega, rfl⟩

theorem mem_leaves (hx : x < 1024) : p ∈ leaves x ↔ p.Valid ∧ ¬ p.IsIndex ∧ p.node = x := by
  simp only [leaves, List.mem_append, mem_directLeaves, mem_singleLeaves, mem_doubleLeaves]
  constructor
  · rintro (⟨i, hi, rfl⟩ | ⟨i, hi, rfl⟩ | ⟨i, j, hi, hj, rfl⟩)
    · exact ⟨⟨hx, hi⟩, id, rfl⟩
    · exact ⟨⟨hx, hi⟩, id, rfl⟩
    · exact ⟨⟨hx, hi, hj⟩, id, rfl⟩
  · rintro ⟨hv, hl, rfl⟩
    cases p with
    | direct k i => exact .inl ⟨i, hv.2, rfl⟩
    | sleaf k i => exact .inr (.inl ⟨i, hv.2, rfl⟩)
    | dleaf k i j => exact .inr (.inr ⟨i, j, hv.2.1, hv.2.2, rfl⟩)
    | single | double | index => exact absurd trivial hl

theorem mem_slotsOf {ps : List Place} : e ∈ slotsOf ps ↔ e.1 ∈ ps ∧ e.2 < 16 := by
  obtain ⟨p, j⟩ := e
  simp only [slotsOf, List.mem_flatMap, List.mem_map, List.mem_range'_1]
  constructor
  · rintro ⟨q, hq, i, hi, h⟩
    obtain ⟨rfl, rfl⟩ := Prod.mk.inj h
    exact ⟨hq, by omega⟩
  · rintro ⟨hp, hj⟩
    exact ⟨p, hp, j, ⟨Nat.zero_le j, by omega⟩, rfl⟩

theorem slots_levels (x : Nat) : slots x =
    slotsOf (directLeaves x) ++ (slotsOf (singleLeaves x) ++ slotsOf (doubleLeaves x)) := by
  simp only [slots, leaves, slotsOf, List.flatMap_append]

/-! ## One round -/

/-- The number in an entry that reads as the name `t`. -/
def reading (fs : FileSys) (t : Str) (e : Place × Nat) : Option Nat :=
  if ref fs e.1 ≠ 0 ∧ fs.entryNameIs (blockOf (ref fs e.1)) e.2 t = true then
    some (fs.entryNum (blockOf (ref fs e.1)) e.2)
  else none

theorem reading_eq_some : reading fs t e = some n ↔
    ref fs e.1 ≠ 0 ∧ fs.entryNameIs (blockOf (ref fs e.1)) e.2 t = true ∧
      fs.entryNum (blockOf (ref fs e.1)) e.2 = n := by
  unfold reading
  rw [Option.ite_none_right_eq_some, Option.some.injEq, and_assoc]

theorem reading_eq_none : reading fs t e = none ↔
    (ref fs e.1 ≠ 0 → fs.entryNameIs (blockOf (ref fs e.1)) e.2 t = false) := by
  unfold reading
  rw [ite_eq_right_iff]
  constructor
  · intro h h0
    cases hn : fs.entryNameIs (blockOf (ref fs e.1)) e.2 t with
    | false => rfl
    | true => cases h ⟨h0, hn⟩
  · rintro h ⟨h0, hn⟩
    rw [h h0] at hn
    cases hn

theorem newNumber_eq (fs : FileSys) (x : Nat) (t : Str) (p : Place) :
    newNumber fs x t (ref fs p) =
      ((List.range' 0 16).findSome? fun j => reading fs t (p, j)).filter (· != x) := by
  unfold newNumber
  split
  · rename_i h0
    rw [List.findSome?_eq_none_iff.mpr fun j _ => reading_eq_none.mpr fun h => absurd h0 h]
    rfl
  · rename_i h0
    rw [searchBlock, firstSome_eq_findSome?]
    congr 1
    refine findSome?_congr fun j _ => ?_
    unfold reading
    rw [if_congr (and_iff_right h0) rfl rfl]

theorem findInIndex_leaves {r : Place} (h0 : ref fs r ≠ 0) (leaf : Nat → Place)
    (hl : ∀ i, (leaf i).up = some (r, i)) :
    findInIndex fs x t (blockOf (ref fs r)) =
      ((List.range' 0 64).map leaf).findSome? fun p => newNumber fs x t (ref fs p) := by
  rw [findInIndex, firstSome_eq_findSome?, List.findSome?_map]
  refine findSome?_congr fun i _ => ?_
  rw [Function.comp_apply, ref_up (hl i), under, if_neg h0]

/-- A level with no index block has no leaf blocks. -/
theorem noLeaves {r : Place} (h0 : ref fs r = 0) (leaf : Nat → Place)
    (hl : ∀ i, (leaf i).up = some (r, i)) :
    ((List.range' 0 64).map leaf).findSome? (fun p => newNumber fs x t (ref fs p)) = none := by
  rw [List.findSome?_eq_none_iff]
  intro p hp
  obtain ⟨i, -, rfl⟩ := List.mem_map.mp hp
  rw [ref_up (hl i), under, if_pos h0]
  rfl

theorem findComponent_leaves (fs : FileSys) (x : Nat) (t : Str) :
    findComponent fs x t = (leaves x).findSome? fun p => newNumber fs x t (ref fs p) := by
  have hdirect : findDirect fs x t =
      (directLeaves x).findSome? fun p => newNumber fs x t (ref fs p) := by
    rw [findDirect, firstSome_eq_findSome?, directLeaves, List.findSome?_map]
    rfl
  have hsingle : findSingle fs x t =
      (singleLeaves x).findSome? fun p => newNumber fs x t (ref fs p) := by
    unfold findSingle singleLeaves
    dsimp only
    split
    · rename_i h0
      exact (noLeaves (r := .single x) h0 (.sleaf x) fun _ => rfl).symm
    · rename_i h0
      exact findInIndex_leaves (r := .single x) h0 (.sleaf x) fun _ => rfl
  have hdouble : findDouble fs x t =
      (doubleLeaves x).findSome? fun p => newNumber fs x t (ref fs p) := by
    unfold findDouble doubleLeaves
    dsimp only
    rw [findSome?_flatMap]
    split
    · rename_i h0
      have h0 : ref fs (.double x) = 0 := h0
      rw [List.findSome?_eq_none_iff.mpr fun i _ => ?_]
      refine noLeaves (r := .index x i) ?_ (.dleaf x i) fun _ => rfl
      rw [ref_up (r := .double x) rfl, under, if_pos h0]
    · rename_i h0
      have h0 : ref fs (.double x) ≠ 0 := h0
      rw [firstSome_eq_findSome?]
      refine findSome?_congr fun i _ => ?_
      have hi : fs.ptrAt (.indexBlock (blockOf (fs.ptrAt (.doubleIndirect x))) i) =
          ref fs (.index x i) := by
        rw [ref_up (r := .double x) (i := i) rfl, under, if_neg h0]
        rfl
      rw [hi]
      split
      · rename_i h1
        exact (noLeaves h1 (.dleaf x i) fun _ => rfl).symm
      · rename_i h1
        exact findInIndex_leaves h1 (.dleaf x i) fun _ => rfl
  rw [findComponent, hdirect, hsingle, hdouble, leaves, List.findSome?_append,
    List.findSome?_append]

/-- A round that succeeds ends at an entry with the name. -/
theorem findComponent_some (h : findComponent fs x t = some n) :
    ∃ e ∈ slots x, reading fs t e = some n ∧ n ≠ x := by
  rw [findComponent_leaves] at h
  obtain ⟨p, hp, hn⟩ := List.exists_of_findSome?_eq_some h
  rw [newNumber_eq, Option.filter_eq_some_iff] at hn
  obtain ⟨hn, hne⟩ := hn
  obtain ⟨j, hj, hr⟩ := List.exists_of_findSome?_eq_some hn
  rw [List.mem_range'_1] at hj
  exact ⟨(p, j), mem_slotsOf.mpr ⟨hp, by omega⟩, hr, by simpa using hne⟩

/-- Where no entry with the name has the number of the inode itself, the first
one with the name is found. -/
theorem findComponent_slots (h : ∀ e ∈ slots x, reading fs t e ≠ some x) :
    findComponent fs x t = (slots x).findSome? (reading fs t) := by
  rw [findComponent_leaves, slots, slotsOf, findSome?_flatMap]
  refine findSome?_congr fun p hp => ?_
  rw [newNumber_eq, List.findSome?_map]
  show Option.filter _ ((List.range' 0 16).findSome? fun j => reading fs t (p, j)) =
    (List.range' 0 16).findSome? fun j => reading fs t (p, j)
  cases hf : (List.range' 0 16).findSome? fun j => reading fs t (p, j) with
  | none => rfl
  | some n =>
    obtain ⟨j, hj, hr⟩ := List.exists_of_findSome?_eq_some hf
    rw [List.mem_range'_1] at hj
    have hne : n ≠ x := by
      rintro rfl
      exact h (p, j) (mem_slotsOf.mpr ⟨hp, by omega⟩) hr
    rw [Option.filter_some, if_pos (by simpa using hne)]

/-! ## The rounds of one path -/

theorem walk_append (fs : FileSys) (x : Nat) (ts us : List Str) :
    walk fs x (ts ++ us) = match walk fs x ts with
      | .inode k => walk fs k us
      | r => r := by
  induction ts generalizing x with
  | nil => rfl
  | cons t ts ih =>
    rw [List.cons_append, walk, walk]
    split
    · rfl
    · cases findComponent fs x t with
      | none => rfl
      | some n => exact ih n

theorem walk_concat {ts : List Str} {k : Nat} (h : walk fs x (ts ++ [t]) = .inode k) :
    ∃ d, walk fs x ts = .inode d ∧ d < 1024 ∧ findComponent fs d t = some k := by
  rw [walk_append] at h
  cases hd : walk fs x ts with
  | missing => rw [hd] at h; cases h
  | outside => rw [hd] at h; cases h
  | inode d =>
    rw [hd] at h
    dsimp only at h
    rw [walk] at h
    split at h
    · cases h
    · rename_i hlt
      cases hf : findComponent fs d t with
      | none => rw [hf] at h; cases h
      | some n =>
        rw [hf] at h
        cases h
        exact ⟨d, rfl, by omega, hf⟩

/-- A path resolves in its parent. -/
theorem findIndex_concat {cs : List Component} {c : Component} {k : Nat}
    (h : findIndex fs (render (cs ++ [c])) = .inode k) :
    ∃ d, findIndex fs (render cs) = .inode d ∧ d < 1024 ∧
      findComponent fs d c.bytes = some k := by
  unfold findIndex at h ⊢
  rw [myFind_render, List.map_append, List.map_singleton] at h
  rw [myFind_render]
  cases hw : walk fs 0 (cs.map (·.bytes) ++ [c.bytes]) with
  | missing => rw [hw] at h; cases h
  | outside => rw [hw] at h; cases h
  | inode k' =>
    rw [hw] at h
    dsimp only at h
    split at h
    · cases h
      obtain ⟨d, hd, hlt, hf⟩ := walk_concat hw
      refine ⟨d, ?_, hlt, hf⟩
      rw [hd]
      dsimp only
      rw [if_pos hlt]
    · cases h

end ToyOS.Ramdisk.Lookup
