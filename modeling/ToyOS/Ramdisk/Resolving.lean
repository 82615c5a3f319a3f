import ToyOS.Lib.Walks
import ToyOS.Ramdisk.Accounting

/-! # Paths in a tree of entries

While inodes and entries account for each other the inodes in use are a tree,
whose edges are the rounds of the lookup.
-/
namespace ToyOS.Ramdisk.Resolving
open ToyOS.Lib.CStrings ToyOS.Lib.FirstHit ToyOS.Lib.Walks ToyOS.Ramdisk.Image ToyOS.Ramdisk.Blocks
open ToyOS.Ramdisk.Places ToyOS.Ramdisk.Paths ToyOS.Ramdisk.Components ToyOS.Ramdisk.Lookup
open ToyOS.Ramdisk.Creating ToyOS.Ramdisk.Catalog ToyOS.Ramdisk.Accounting

variable {fs fs' : FileSys} {x k n : Nat} {s : Place × Nat} {t : Str} {cs : List Component} {c : Component}

/-- The round of the lookup for one component. -/
def edge (fs : FileSys) (x : Nat) (c : Component) : Option Nat := Paths.findComponent fs x c.bytes

/-- An inode in use. -/
def Live (fs : FileSys) (x : Nat) : Prop := x < 1024 ∧ InUse (fs.inodes x).type

/-- A round that finds something comes to an inode in use. -/
theorem edge_entry (h : Kept fs) (hx : Live fs x) (hf : edge fs x c = some n) :
    ∃ s ∈ slots x, s.1.node = x ∧ Named fs s c.bytes ∧ Entry InUse fs s n ∧ Live fs n := by
  obtain ⟨s, hs, hr, he⟩ := h.found_entry hx.1 hx.2 c.ne_nil c.noZero hf
  obtain ⟨hn, hin, -⟩ := h.names s n he
  exact ⟨s, hs, ((mem_leaves hx.1).mp (mem_slotsOf.mp hs).1).2.2, he.reading_iff.mp hr, he, hn, hin⟩

theorem edges_tree (h : Kept fs) : Tree (edge fs) (Live fs) 0 where
  root := ⟨by omega, h.root_inUse⟩
  closed x c n hx hf := by
    obtain ⟨-, -, -, -, -, hn⟩ := edge_entry h hx hf
    exact hn
  orphan x c hx hf := by
    obtain ⟨s, -, -, -, he, -⟩ := edge_entry h hx hf
    exact he.ne rfl
  single x y c c' k hx hy hf hf' := by
    obtain ⟨s, -, hs, hname, he, -⟩ := edge_entry h hx hf
    obtain ⟨s', -, hs', hname', he', -⟩ := edge_entry h hy hf'
    obtain rfl := h.unique s s' k he he'
    exact ⟨hs.symm.trans hs', Component.ext_bytes (hname.unique c.noZero c'.noZero hname')⟩

/-- The lookup from an inode in use is a walk along the edges. -/
theorem walk_edges (h : Kept fs) (hx : Live fs x) : walk fs x (cs.map (·.bytes)) =
    match follow (edge fs) x cs with
    | some k => .inode k
    | none => .missing := by
  induction cs generalizing x with
  | nil => rfl
  | cons c cs ih =>
    rw [List.map_cons, walk, if_neg (by have := hx.1; omega), follow_cons]
    cases hf : edge fs x c with
    | none =>
      unfold edge at hf
      rw [hf]
      rfl
    | some n =>
      have hn := ih ((edges_tree h).closed x c n hx hf)
      unfold edge at hf
      rw [hf]
      exact hn

theorem lookup_edges (h : Kept fs) (cs : List Component) : myFindInodeNumber fs (render cs) =
    match follow (edge fs) 0 cs with
    | some k => .inode k
    | none => .missing := by
  rw [myFind_render]
  exact walk_edges h (edges_tree h).root

theorem lookup_inode (h : Kept fs) :
    myFindInodeNumber fs (render cs) = .inode k ↔ follow (edge fs) 0 cs = some k := by
  rw [lookup_edges h]
  cases follow (edge fs) 0 cs with
  | none => exact iff_of_false (fun e => by cases e) fun e => by cases e
  | some n => rw [Found.inode.injEq, Option.some.injEq]

theorem lookup_missing (h : Kept fs) :
    myFindInodeNumber fs (render cs) = .missing ↔ follow (edge fs) 0 cs = none := by
  rw [lookup_edges h]
  cases follow (edge fs) 0 cs with
  | none => exact iff_of_true rfl rfl
  | some n => exact iff_of_false (fun e => by cases e) fun e => by cases e

theorem findIndex_inode (h : Kept fs) :
    findIndex fs (render cs) = .inode k ↔ follow (edge fs) 0 cs = some k := by
  rw [← lookup_inode h]
  constructor
  · intro hf
    unfold findIndex at hf
    split at hf
    · rename_i e
      split at hf
      · rw [e]
        exact hf
      · cases hf
    · rename_i hno
      exact absurd hf (hno k)
  · intro hf
    unfold findIndex
    rw [hf]
    exact if_pos ((edges_tree h).reached ((lookup_inode h).mp hf)).1

/-! ## Rounds over the same entries -/

/-- What a slot of an inode in use reads as. -/
theorem reading_entry (h : Shelved InUse fs) (hx : Live fs x) (hs : s ∈ slots x) (ht : t ≠ [])
    (hz : 0 ∉ t) : reading fs t s = some n ↔ Entry InUse fs s n ∧ Named fs s t := by
  constructor
  · intro hr
    obtain ⟨hb, -, hj⟩ := EntryBlock.of_slot hx.1 hx.2 hs (reading_eq_some.mp hr).1
    exact ⟨h.entry hb hj ht hz hr, (reading_eq_some.mp hr).2.1⟩
  · exact fun ⟨he, hn⟩ => he.reading_iff.mpr hn

theorem edge_eq (h : Kept fs) (hx : Live fs x) :
    edge fs x c = (slots x).findSome? (reading fs c.bytes) :=
  h.findComponent hx.1 hx.2 c.ne_nil c.noZero

/-- Two images with the same entries of a name have the same round. -/
theorem edge_congr (h : Kept fs) (h' : Kept fs') (hx : Live fs x) (hx' : Live fs' x)
    (hsame : ∀ s ∈ slots x, ∀ n, Entry InUse fs' s n ∧ Named fs' s c.bytes ↔
      Entry InUse fs s n ∧ Named fs s c.bytes) : edge fs' x c = edge fs x c := by
  rw [edge_eq h' hx', edge_eq h hx]
  refine findSome?_congr fun s hs => Option.ext fun n => ?_
  rw [reading_entry h'.toShelved hx' hs c.ne_nil c.noZero, reading_entry h.toShelved hx hs c.ne_nil c.noZero]
  exact hsame s hs n

end ToyOS.Ramdisk.Resolving
