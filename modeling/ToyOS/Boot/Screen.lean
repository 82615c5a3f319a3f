import ToyOS.Lib.CStrings
import ToyOS.Lib.Loop
import ToyOS.Lib.Typing
import ToyOS.Lib.Words

/-! # The screen

`print.c` over the memory of the machine. Everything printed since `cls` is typed on
a roll of paper 80 cells wide; video memory shows the page of 24 rows in hand, and
nothing else in memory is touched.
-/
namespace ToyOS.Boot.Screen
open ToyOS.Lib.CStrings ToyOS.Lib.Loop ToyOS.Lib.Words ToyOS.Lib.Typing

def COLUMNS : Nat := 80
def LINES : Nat := 24
def ATTRIBUTE : UInt8 := 7
def VIDEO : Nat := 0xB8000

/-- Memory and the static variables. -/
structure Console where
  mem : Bytes
  xpos : Nat
  ypos : Nat
  video : Nat

def cls (con : Console) : Console where
  mem := loop (fun i mem => Function.update mem (VIDEO + i) 0) 0 (COLUMNS * LINES * 2) con.mem
  xpos := 0
  ypos := 0
  video := VIDEO

def newline (con : Console) : Console :=
  let con := { con with xpos := 0, ypos := con.ypos + 1 }
  if LINES ≤ con.ypos then { cls con with ypos := 0 } else con

/-- `'\n'` and `'\r'`. -/
def isBreak (ch : UInt8) : Bool := ch == 10 || ch == 13

def putChar (con : Console) (ch : UInt8) : Console :=
  if isBreak ch then newline con
  else
    let at' := con.video + (con.xpos + con.ypos * COLUMNS) * 2
    let mem := Function.update (Function.update con.mem at' ch) (at' + 1) ATTRIBUTE
    let con := { con with mem := mem, xpos := con.xpos + 1 }
    if COLUMNS ≤ con.xpos then newline con else con

def print (con : Console) (str : Str) : Console := str.foldl putChar con

def println (con : Console) (str : Str) : Console := newline (print con str)

/-! ## What is on the screen -/

/-- The bytes of video memory. -/
def InVideo (a : Nat) : Prop := VIDEO ≤ a ∧ a < VIDEO + COLUMNS * LINES * 2

/-- A character in its colour, or an empty cell. -/
def shown : Option UInt8 → UInt8 × UInt8
  | none => (0, 0)
  | some ch => (ch, ATTRIBUTE)

def cellAddr (r c : Nat) : Nat := VIDEO + (c + r * COLUMNS) * 2

/-- The screen has the page of the paper in hand; `mem` is what memory held outside
video memory when the paper was new. -/
structure Drawn (mem : Bytes) (con : Console) (p : Paper UInt8) : Prop where
  video : con.video = VIDEO
  ypos : con.ypos = p.done.length % LINES
  cells : ∀ r c, r < LINES → c < COLUMNS →
    (con.mem (cellAddr r c), con.mem (cellAddr r c + 1)) = shown (p.cell LINES r c)
  frame : ∀ a, ¬ InVideo a → con.mem a = mem a

/-- And the next character goes to the first free cell of the last row. -/
structure Shows (mem : Bytes) (con : Console) (p : Paper UInt8) : Prop extends Drawn mem con p where
  fits : p.Fits COLUMNS
  xpos : con.xpos = p.row.length

instance (a : Nat) : Decidable (InVideo a) := inferInstanceAs (Decidable (_ ∧ _))

variable {mem : Bytes} {con : Console} {p : Paper UInt8} {r c r' c' : Nat}

theorem cellAddr_bounds (hr : r < LINES) (hc : c < COLUMNS) :
    VIDEO ≤ cellAddr r c ∧ cellAddr r c + 1 < VIDEO + COLUMNS * LINES * 2 := by
  unfold cellAddr LINES COLUMNS at *
  omega

theorem cellAddr_inj (hc : c < COLUMNS) (hc' : c' < COLUMNS) (h : cellAddr r c = cellAddr r' c') :
    r = r' ∧ c = c' := by
  unfold cellAddr COLUMNS at *
  omega

theorem cellAddr_even (r c : Nat) : cellAddr r c % 2 = 0 := by
  unfold cellAddr VIDEO
  omega

theorem cls_mem (con : Console) (a : Nat) :
    (cls con).mem a = if InVideo a then 0 else con.mem a := by
  have h := loop_inv (fun i mem => ∀ a, mem a = if VIDEO ≤ a ∧ a < VIDEO + i then 0 else con.mem a)
    (f := fun i mem => Function.update mem (VIDEO + i) 0) (a := 0) (n := COLUMNS * LINES * 2) (s := con.mem)
    (fun a => by rw [if_neg (by omega)]) fun i m _ _ hm a => by
      by_cases ha : a = VIDEO + i
      · rw [ha, Function.update_self, if_pos (by omega)]
      · rw [Function.update_of_ne ha, hm]
        by_cases hin : VIDEO ≤ a ∧ a < VIDEO + i
        · rw [if_pos hin, if_pos (by omega)]
        · rw [if_neg hin, if_neg (by omega)]
  rw [Nat.zero_add] at h
  unfold cls
  dsimp only
  rw [h a]
  by_cases ha : InVideo a
  · have hin : VIDEO ≤ a ∧ a < VIDEO + COLUMNS * LINES * 2 := ha
    rw [if_pos ha, if_pos hin]
  · have hout : ¬ (VIDEO ≤ a ∧ a < VIDEO + COLUMNS * LINES * 2) := ha
    rw [if_neg ha, if_neg hout]

theorem cell_empty (r c : Nat) : (Paper.empty : Paper UInt8).cell LINES r c = none := by
  by_cases h0 : r = 0
  · rw [Paper.cell_of_page (by rw [h0]; rfl)]
    rfl
  · refine Paper.cell_of_gt (Nat.lt_of_lt_of_le (Nat.pos_of_ne_zero h0) ?_)
    exact Nat.le_add_left ..

/-- A blank screen. -/
theorem cls_cells (con : Console) (hr : r < LINES) (hc : c < COLUMNS) :
    ((cls con).mem (cellAddr r c), (cls con).mem (cellAddr r c + 1)) = shown none := by
  obtain ⟨hlo, hhi⟩ := cellAddr_bounds hr hc
  have h0 : InVideo (cellAddr r c) := ⟨hlo, by omega⟩
  have h1 : InVideo (cellAddr r c + 1) := ⟨by omega, hhi⟩
  rw [cls_mem, cls_mem, if_pos h0, if_pos h1]
  rfl

/-- Whatever was on the screen. -/
theorem cls_shows (con : Console) : Shows con.mem (cls con) Paper.empty where
  video := rfl
  ypos := rfl
  cells r c hr hc := by rw [cls_cells con hr hc, cell_empty]
  frame a ha := by rw [cls_mem, if_neg ha]
  fits := Paper.fits_empty (by decide)
  xpos := rfl

/-- A page that is full makes room for the next. -/
theorem newline_shows (h : Drawn mem con p) (hf : p.feed.Fits COLUMNS) : Shows mem (newline con) p.feed := by
  have hlen : p.feed.done.length = p.done.length + 1 := List.length_append
  have hypos := h.ypos
  unfold newline
  dsimp only
  unfold LINES at *
  split
  · have hfull : 24 * ((p.done.length + 1) / 24) = p.done.length + 1 := by omega
    constructor
    · constructor
      · rfl
      · dsimp only
        rw [hlen, LINES]
        omega
      · intro r c hr hc
        dsimp only
        rw [cls_cells _ hr hc, LINES, Paper.cell_feed_full hfull]
      · intro a ha
        dsimp only
        rw [cls_mem, if_neg ha]
        exact h.frame a ha
    · exact hf
    · rfl
  · have hroom : p.done.length / 24 = (p.done.length + 1) / 24 := by omega
    constructor
    · constructor
      · exact h.video
      · dsimp only
        rw [hlen, LINES]
        omega
      · intro r c hr hc
        rw [LINES, Paper.cell_feed hroom]
        exact h.cells r c hr hc
      · exact h.frame
    · exact hf
    · rfl

/-- A character in its cell. -/
theorem drawn_concat (h : Shows mem con p) {ch : UInt8} {mem' : Bytes}
    (hmem : mem' = Function.update (Function.update con.mem (cellAddr con.ypos con.xpos) ch)
      (cellAddr con.ypos con.xpos + 1) ATTRIBUTE) :
    Drawn mem { con with mem := mem', xpos := con.xpos + 1 } ⟨p.done, p.row ++ [ch]⟩ := by
  subst hmem
  have hypos := h.ypos
  have hy : con.ypos < LINES := by
    rw [hypos]
    exact Nat.mod_lt _ (by decide)
  have hx : con.xpos < COLUMNS := by
    rw [h.xpos]
    exact h.fits.row
  constructor
  · exact h.video
  · exact hypos
  · intro r c hr hc
    have heven := cellAddr_even r c
    have heven' := cellAddr_even con.ypos con.xpos
    dsimp only
    rw [Paper.cell_concat, ← hypos, ← h.xpos]
    by_cases hcell : r = con.ypos ∧ c = con.xpos
    · obtain ⟨rfl, rfl⟩ := hcell
      rw [if_pos ⟨rfl, rfl⟩, Function.update_self, Function.update_of_ne (Nat.ne_of_lt (Nat.lt_succ_self _)),
        Function.update_self]
      rfl
    · have hne : cellAddr r c ≠ cellAddr con.ypos con.xpos := fun e => hcell (cellAddr_inj hc hx e)
      rw [if_neg hcell, Function.update_of_ne (by omega), Function.update_of_ne hne,
        Function.update_of_ne (by omega), Function.update_of_ne (by omega)]
      exact h.cells r c hr hc
  · intro a ha
    obtain ⟨hlo, hhi⟩ := cellAddr_bounds hy hx
    dsimp only
    rw [Function.update_of_ne, Function.update_of_ne]
    · exact h.frame a ha
    · rintro rfl
      exact ha ⟨hlo, by omega⟩
    · rintro rfl
      exact ha ⟨by omega, hhi⟩

/-- One character more on the paper, and on the screen. -/
theorem putChar_shows (h : Shows mem con p) (ch : UInt8) :
    Shows mem (putChar con ch) (p.type COLUMNS isBreak ch) := by
  have hf : Paper.Fits COLUMNS (p.type COLUMNS isBreak ch) := h.fits.type ch
  unfold putChar Paper.type at *
  split
  · rename_i hb
    rw [if_pos hb] at hf
    exact newline_shows h.toDrawn hf
  · rename_i hb
    rw [if_neg hb] at hf
    have hd := @drawn_concat _ _ _ h ch _ rfl
    have hlen : (p.row ++ [ch]).length = con.xpos + 1 := by
      rw [h.xpos, List.length_append, List.length_singleton]
    have hat : con.video + (con.xpos + con.ypos * COLUMNS) * 2 = cellAddr con.ypos con.xpos := by
      rw [h.video]
      rfl
    unfold Paper.put at *
    dsimp only
    rw [hat]
    have hrow := h.fits.row
    have hx := h.xpos
    split
    · rename_i hfull
      rw [if_pos (by omega)] at hf ⊢
      exact newline_shows hd hf
    · rename_i hroom
      rw [if_neg (by omega)] at hf ⊢
      exact ⟨hd, hf, hlen.symm⟩

theorem print_shows (h : Shows mem con p) (str : Str) :
    Shows mem (print con str) (p.typed COLUMNS isBreak str) := by
  induction str generalizing con p with
  | nil => exact h
  | cons ch str ih => exact ih (putChar_shows h ch)

theorem print_append (con : Console) (str str' : Str) : print con (str ++ str') = print (print con str) str' :=
  List.foldl_append

/-- After `cls` and any text, video memory shows the page in hand of that text on
rows of 80 cells, no character of it is lost or moved on the paper, and memory
outside is what it was. -/
theorem screen_shows (con : Console) (text : Str) :
    Shows con.mem (print (cls con) text) (Paper.empty.typed COLUMNS isBreak text) ∧
      (Paper.empty.typed COLUMNS isBreak text).rows.flatten = text.filter (! isBreak ·) :=
  ⟨print_shows (cls_shows con) text, Paper.typed_flatten Paper.empty text⟩

end ToyOS.Boot.Screen
