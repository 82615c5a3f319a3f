import ToyOS.Ramdisk.Paths

/-! # Absolute paths by their components

A `Component` is a name that fits a directory entry. `render` writes a list of
them as the absolute path the operations take, and the lemmas say what the
parser and the lookup make of it.
-/
namespace ToyOS.Ramdisk.Components
open ToyOS.Lib.CStrings ToyOS.Ramdisk.Image ToyOS.Ramdisk.Paths

/-- A file name of 1 to 13 bytes. -/
structure Component where
  bytes : Str
  length_pos : 0 < bytes.length
  length_le : bytes.length ≤ 13
  noZero : 0 ∉ bytes
  noSlash : slash ∉ bytes

variable {fs : FileSys} {c : Component} {cs : List Component}

theorem Component.ne_nil (c : Component) : c.bytes ≠ [] := List.ne_nil_of_length_pos c.length_pos

theorem Component.ext_bytes {c c' : Component} (h : c.bytes = c'.bytes) : c = c' := by
  cases c; cases c'; cases h; rfl

def joined (cs : List Component) : Str := cs.flatMap fun c => slash :: c.bytes

/-- The absolute path with these components; the root has none. -/
def render (cs : List Component) : Str := if cs = [] then [slash] else joined cs

@[simp] theorem render_nil : render [] = [slash] := rfl

theorem render_of_ne (h : cs ≠ []) : render cs = joined cs := if_neg h

theorem render_concat (cs : List Component) (c : Component) :
    render (cs ++ [c]) = joined cs ++ slash :: c.bytes := by
  simp [render, joined]

theorem joined_cons_drop (c : Component) (cs : List Component) :
    (joined (c :: cs)).drop 1 = List.intercalate [slash] ((c :: cs).map (·.bytes)) := by
  induction cs generalizing c with
  | nil => simp [joined, List.intercalate]
  | cons d cs ih =>
    have := ih d
    simp only [joined, List.flatMap_cons, List.cons_append, List.drop_succ_cons, List.drop_zero,
      List.map_cons] at this ⊢
    rw [List.intercalate_cons_cons, ← this]
    simp

theorem splitOn_joined (h : cs ≠ []) :
    ((joined cs).drop 1).splitOn slash = cs.map (·.bytes) := by
  cases cs with
  | nil => exact absurd rfl h
  | cons c cs =>
    rw [joined_cons_drop]
    refine List.splitOn_intercalate slash (fun l hl => ?_) (by simp)
    obtain ⟨d, _, rfl⟩ := List.mem_map.mp hl
    exact d.noSlash

theorem render_ne_root (h : cs ≠ []) : render cs ≠ [slash] := by
  cases cs with
  | nil => exact absurd rfl h
  | cons c cs =>
    intro e
    have hlen := congrArg List.length e
    have := c.length_pos
    simp only [render_of_ne h, joined, List.flatMap_cons, List.cons_append, List.length_cons,
      List.length_append, List.length_nil] at hlen
    omega

/-- The lookup of a path is the walk over its components. -/
theorem myFind_render (fs : FileSys) (cs : List Component) :
    myFindInodeNumber fs (render cs) = walk fs 0 (cs.map (·.bytes)) := by
  by_cases h : cs = []
  · subst h; simp [myFindInodeNumber, walk]
  · rw [myFindInodeNumber, if_neg (render_ne_root h), render_of_ne h, splitOn_joined h]

/-! ## Splitting off the last component -/

theorem lastSlash_of_notMem {path : Str} {n m : Nat} (hn : ∀ i, m ≤ i → i < n →
    path[i]? ≠ some slash) (hm : m ≤ n) : lastSlash path n = lastSlash path m := by
  induction n with
  | zero => rw [show m = 0 by omega]
  | succ n ih =>
    by_cases e : m = n + 1
    · rw [e]
    · rw [lastSlash, if_neg (hn n (by omega) (by omega)),
        ih (fun i h1 h2 => hn i h1 (by omega)) (by omega)]

theorem lastSlash_append {pre name : Str} (h : slash ∉ name) :
    lastSlash (pre ++ slash :: name) (pre ++ slash :: name).length = some pre.length := by
  rw [lastSlash_of_notMem (m := pre.length + 1), lastSlash, if_pos (by simp)]
  · intro i hi hlt e
    rw [List.getElem?_append_right (by omega)] at e
    obtain ⟨j, hj⟩ : ∃ j, i - pre.length = j + 1 := ⟨i - pre.length - 1, by omega⟩
    rw [hj, List.getElem?_cons_succ] at e
    exact h (List.mem_of_getElem? e)
  · simp

/-- The text before the last slash, as the parent's path. -/
def parentOf (pre : Str) : Str := if pre = [] then [slash] else pre

theorem parentOf_joined (cs : List Component) : parentOf (joined cs) = render cs := by
  cases cs with
  | nil => rfl
  | cons d cs => simp [parentOf, render, joined]

/-- The text behind the last slash is the name, however long. -/
theorem splitPath_name {name : Str} (h0 : 0 ∉ name) (hslash : slash ∉ name) (pre : Str)
    (mem : Scratch) : (splitPath (pre ++ slash :: name) mem).2 = name := by
  have hl : (pre ++ slash :: name).drop (pre.length + 1) = name := by
    rw [← List.drop_drop, List.drop_left]; rfl
  rw [splitPath]
  unfold parseAbsolutePath
  rw [lastSlash_append hslash]
  cases h : pre.length with
  | zero =>
    rw [h] at hl
    simp only [hl, cstr_strcpy h0]
  | succ n =>
    rw [h] at hl
    simp only [hl, cstr_strcpy h0]

theorem splitPath_append_snd (pre : Str) (c : Component) (mem : Scratch) :
    (splitPath (pre ++ slash :: c.bytes) mem).2 = c.bytes := splitPath_name c.noZero c.noSlash pre mem

theorem splitPath_concat_snd (cs : List Component) (c : Component) (mem : Scratch) :
    (splitPath (render (cs ++ [c])) mem).2 = c.bytes := by
  rw [render_concat, splitPath_append_snd]

theorem splitPath_root_snd (mem : Scratch) : (splitPath (render []) mem).2 = [] := by
  have : (splitPath (render []) mem).2 = cstr (strcpy (clearStr mem.filename) []) := by
    simp [splitPath, parseAbsolutePath, lastSlash]
  rw [this, cstr_strcpy (by simp)]

/-- Whatever the scratch memory holds, the name fits an entry. -/
theorem splitPath_length_le (cs : List Component) (mem : Scratch) :
    (splitPath (render cs) mem).2.length ≤ 13 := by
  cases cs using List.reverseRecOn with
  | nil => rw [splitPath_root_snd]; simp
  | append_singleton cs c => rw [splitPath_concat_snd]; exact c.length_le

/-- The buffer for the parent, once cleared, has a zero where the parent of
length `n` ends; `strncpy` does not store one. -/
def Ends (mem : Scratch) (n : Nat) : Prop := ((clearStr mem.currentDir)[n]?).getD 0 = 0

theorem zero_notMem_joined (cs : List Component) : 0 ∉ joined cs := by
  intro h
  obtain ⟨c, _, hc⟩ := List.mem_flatMap.mp h
  rcases List.mem_cons.mp hc with e | hc
  · exact absurd e (by decide)
  · exact c.noZero hc

theorem zero_notMem_render (cs : List Component) : 0 ∉ render cs := by
  by_cases h : cs = []
  · rw [h, render_nil]
    decide
  · rw [render_of_ne h]
    exact zero_notMem_joined cs

theorem splitPath_append_fst {mem : Scratch} {pre : Str} (h0 : 0 ∉ pre) (c : Component)
    (h : Ends mem pre.length) : (splitPath (pre ++ slash :: c.bytes) mem).1 = parentOf pre := by
  rw [splitPath]
  unfold parseAbsolutePath
  rw [lastSlash_append c.noSlash]
  cases hn : pre.length with
  | zero =>
    obtain rfl := List.eq_nil_of_length_eq_zero hn
    exact cstr_strcpy (by decide) _
  | succ n =>
    have hpre : pre ≠ [] := by rintro rfl; cases hn
    have htake : (pre ++ slash :: c.bytes).take (n + 1) = pre := by rw [← hn, List.take_left]
    have hfill : n + 1 - (pre ++ slash :: c.bytes).length = 0 := by simp; omega
    simp only [strncpy, htake, hfill, List.replicate_zero, List.append_nil, parentOf, if_neg hpre]
    rw [Ends, hn] at h
    cases hd : (clearStr mem.currentDir).drop (n + 1) with
    | nil => rw [List.append_nil, cstr_of_notMem h0]
    | cons b rest =>
      have hb : (clearStr mem.currentDir)[n + 1]? = some b := by
        rw [← List.head?_drop, hd]; rfl
      rw [hb] at h
      dsimp only [Option.getD_some] at h
      subst h
      exact cstr_append_zero h0 rest

theorem splitPath_concat_fst {mem : Scratch} (cs : List Component) (c : Component)
    (h : Ends mem (joined cs).length) : (splitPath (render (cs ++ [c])) mem).1 = render cs := by
  rw [render_concat, splitPath_append_fst (zero_notMem_joined cs) c h, parentOf_joined]

/-- Zeroed memory will do. -/
theorem ends_replicate (m n : Nat) (f : List UInt8) : Ends ⟨List.replicate m 0, f⟩ n := by
  have : clearStr (List.replicate m 0) = List.replicate m 0 := by
    cases m <;> simp [clearStr, cstr, List.replicate_succ]
  rw [Ends, this]
  by_cases h : n < m <;> simp [h]

end ToyOS.Ramdisk.Components
