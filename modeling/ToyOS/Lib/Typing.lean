import Mathlib.Data.List.Basic
import Mathlib.Order.Basic

/-! # Text on a roll of paper

Characters are typed into rows of `w` cells; a full row and a character that breaks
the line begin the next one. The roll is as long as it needs to be, and a page of it
is what a display of `h` rows has room for.
-/
namespace ToyOS.Lib.Typing

variable {α : Type*}

structure Paper (α : Type*) where
  done : List (List α)
  row : List α

namespace Paper

def empty : Paper α := ⟨[], []⟩

def rows (p : Paper α) : List (List α) := p.done ++ [p.row]

def feed (p : Paper α) : Paper α := ⟨p.done ++ [p.row], []⟩

/-- A character that does not break the line. -/
def put (w : Nat) (p : Paper α) (a : α) : Paper α :=
  if (p.row ++ [a]).length = w then feed ⟨p.done, p.row ++ [a]⟩ else ⟨p.done, p.row ++ [a]⟩

def type (w : Nat) (breaks : α → Bool) (p : Paper α) (a : α) : Paper α :=
  if breaks a then p.feed else p.put w a

def typed (w : Nat) (breaks : α → Bool) (p : Paper α) (text : List α) : Paper α :=
  text.foldl (type w breaks) p

/-- What cell `c` of row `r` of the page in hand holds, when a page has `h` rows. -/
def cell (h : Nat) (p : Paper α) (r c : Nat) : Option α := p.rows[h * (p.done.length / h) + r]?.bind (·[c]?)

variable {w h r c : Nat} {breaks : α → Bool} {p : Paper α} {a : α} {text : List α}

@[simp] theorem typed_nil : typed w breaks p [] = p := rfl

theorem put_flatten (p : Paper α) (a : α) : (p.put w a).rows.flatten = p.rows.flatten ++ [a] := by
  unfold put
  split
  · simp [feed, rows]
  · simp [rows]

theorem typed_flatten (p : Paper α) (text : List α) :
    (typed w breaks p text).rows.flatten = p.rows.flatten ++ text.filter (! breaks ·) := by
  induction text generalizing p with
  | nil => simp
  | cons a text ih =>
    have hrec := ih (p.type w breaks a)
    unfold typed type at hrec ⊢
    rw [List.foldl_cons, hrec]
    by_cases hb : breaks a = true
    · rw [if_pos hb, List.filter_cons_of_neg (by simp [hb])]
      simp [feed, rows]
    · rw [if_neg hb, put_flatten, List.filter_cons_of_pos (by simp [hb]), List.append_assoc]
      rfl

/-! ## Rows are short -/

/-- No row has more cells than there are, and the last one has a free cell. -/
structure Fits (w : Nat) (p : Paper α) : Prop where
  done : ∀ row ∈ p.done, row.length ≤ w
  row : p.row.length < w

theorem fits_empty (hw : 0 < w) : Fits w (empty : Paper α) := ⟨fun _ h => (List.not_mem_nil h).elim, hw⟩

theorem Fits.feed (h : Fits w p) : Fits w p.feed := by
  refine ⟨fun row hrow => ?_, Nat.zero_lt_of_lt h.row⟩
  rcases List.mem_append.mp hrow with hrow | hrow
  · exact h.done row hrow
  · rw [List.mem_singleton.mp hrow]
    exact Nat.le_of_lt h.row

theorem Fits.put (h : Fits w p) (a : α) : Fits w (p.put w a) := by
  have hrow := h.row
  have hlen : (p.row ++ [a]).length = p.row.length + 1 := List.length_append
  unfold Paper.put
  split
  · rename_i hfull
    refine ⟨fun row hmem => ?_, Nat.zero_lt_of_lt hrow⟩
    rcases List.mem_append.mp hmem with hmem | hmem
    · exact h.done row hmem
    · rw [List.mem_singleton.mp hmem]
      exact Nat.le_of_eq hfull
  · exact ⟨h.done, by dsimp only; omega⟩

theorem Fits.type (h : Fits w p) (a : α) : Fits w (p.type w breaks a) := by
  unfold Paper.type
  split
  · exact h.feed
  · exact h.put a

theorem Fits.typed (h : Fits w p) (text : List α) : Fits w (Paper.typed w breaks p text) := by
  induction text generalizing p with
  | nil => exact h
  | cons a text ih => exact ih (h.type a)

/-! ## The page in hand -/

theorem cell_of_page (hr : h * (p.done.length / h) + r = p.done.length) : p.cell h r c = p.row[c]? := by
  unfold cell rows
  rw [hr, List.getElem?_concat_length]
  rfl

theorem cell_of_lt {n : Nat} (hr : h * (p.done.length / h) + r = n) (hn : n < p.done.length) :
    p.cell h r c = p.done[n]?.bind (·[c]?) := by
  unfold cell rows
  rw [hr, List.getElem?_append_left hn]

theorem cell_of_gt (hr : p.done.length < h * (p.done.length / h) + r) : p.cell h r c = none := by
  unfold cell rows
  rw [List.getElem?_eq_none (by rw [List.length_append, List.length_singleton]; omega)]
  rfl

/-- While the page is not full, the next row changes no cell of it. -/
theorem cell_feed (hfull : p.done.length / h = (p.done.length + 1) / h) : p.feed.cell h r c = p.cell h r c := by
  have hlen : (p.done ++ [p.row]).length = p.done.length + 1 := List.length_append
  unfold cell rows feed
  dsimp only
  rw [hlen, ← hfull]
  generalize h * (p.done.length / h) + r = n
  by_cases hn : n < p.done.length + 1
  · rw [List.getElem?_append_left (by omega)]
  · rw [List.getElem?_append_right (by omega), List.getElem?_eq_none (l := p.done ++ [p.row]) (by omega)]
    cases n - (p.done ++ [p.row]).length with
    | zero => rfl
    | succ m => rfl

/-- A new page is blank. -/
theorem cell_feed_full (hfull : h * ((p.done.length + 1) / h) = p.done.length + 1) :
    p.feed.cell h r c = none := by
  have hlen : p.feed.done.length = p.done.length + 1 := List.length_append
  by_cases hr : r = 0
  · rw [cell_of_page (by rw [hlen]; omega)]
    rfl
  · exact cell_of_gt (by rw [hlen]; omega)

/-- A character goes to the first free cell of the last row. -/
theorem cell_concat (a : α) :
    cell h ⟨p.done, p.row ++ [a]⟩ r c =
      if r = p.done.length % h ∧ c = p.row.length then some a else p.cell h r c := by
  obtain ⟨q, hq⟩ : ∃ q : Paper α, q = ⟨p.done, p.row ++ [a]⟩ := ⟨_, rfl⟩
  have hdone : q.done = p.done := by rw [hq]
  have hdiv := Nat.div_add_mod p.done.length h
  rw [← hq]
  by_cases hrow : r = p.done.length % h
  · have hp : h * (p.done.length / h) + r = p.done.length := by omega
    have hqrow : q.row = p.row ++ [a] := by rw [hq]
    rw [cell_of_page hp, cell_of_page (by rw [hdone, hp]), hqrow, List.getElem?_append]
    by_cases hlt : c < p.row.length
    · rw [if_pos hlt, if_neg (by omega)]
    · rw [if_neg hlt]
      by_cases hc : c = p.row.length
      · rw [if_pos ⟨hrow, hc⟩, hc, Nat.sub_self]
        rfl
      · rw [if_neg (by omega), List.getElem?_eq_none (l := p.row) (by omega), List.getElem?_eq_none]
        rw [List.length_singleton]
        omega
  · rw [if_neg fun hx => hrow hx.1]
    have hne : h * (p.done.length / h) + r ≠ p.done.length := by omega
    rcases Nat.lt_or_gt_of_ne hne with hlt | hgt
    · rw [cell_of_lt rfl hlt, cell_of_lt rfl (by rw [hdone]; exact hlt), hdone]
    · rw [cell_of_gt hgt, cell_of_gt (by rw [hdone]; exact hgt)]

end Paper
/-! ## Several writers -/

end ToyOS.Lib.Typing
