import ToyOS.Lib.Words

/-! # Stacks that grow downwards in memory

A stack is a memory and a pointer to the item pushed last. Items are numbers of
a few bytes each. `Holds m p l` is what a stack with pointer `p` shows from its
top on; a push keeps what lies above it, a pop takes the first item, and a memory
that agrees above the pointer holds the same.
-/
namespace ToyOS.Lib.Stacks
open ToyOS.Lib.Words

structure Stack where
  mem : Bytes
  ptr : Nat

/-- An item: its width in bytes and its value. -/
abbrev Item := Nat × Nat

/-- The pointer goes down first, then the item is written. -/
def push (w v : Nat) (s : Stack) : Stack := ⟨store s.mem (s.ptr - w) w v, s.ptr - w⟩

/-- The item is read, then the pointer goes up. -/
def pop (w : Nat) (s : Stack) : Nat × Stack := (load s.mem s.ptr w, ⟨s.mem, s.ptr + w⟩)

/-- The items are pushed from first to last. -/
def pushAll (s : Stack) (l : List Item) : Stack := l.foldl (fun s i => push i.1 i.2 s) s

def span : List Item → Nat
  | [] => 0
  | i :: l => i.1 + span l

/-- From address `p` up lie the items `l`. -/
def Holds (m : Bytes) : Nat → List Item → Prop
  | _, [] => True
  | p, i :: l => load m p i.1 = i.2 ∧ Holds m (p + i.1) l

variable {m m' : Bytes} {s : Stack} {p w v x : Nat} {i : Item} {l k : List Item}

@[simp] theorem span_append : span (k ++ l) = span k + span l := by
  induction k with
  | nil => exact (Nat.zero_add _).symm
  | cons i k ih => rw [List.cons_append, span, span, ih, Nat.add_assoc]

@[simp] theorem span_reverse : span l.reverse = span l := by
  induction l with
  | nil => rfl
  | cons i l ih =>
    rw [List.reverse_cons, span_append, ih, span, span, span]
    omega

theorem Holds.congr (h : Holds m p l) (hm : ∀ x, p ≤ x → x < p + span l → m' x = m x) :
    Holds m' p l := by
  induction l generalizing p with
  | nil => trivial
  | cons i l ih =>
    simp only [span] at hm
    refine ⟨?_, ih h.2 fun x h1 h2 => hm x (by omega) (by omega)⟩
    rw [← h.1]
    exact load_congr fun x h1 h2 => hm x h1 (by omega)

theorem push_other (hx : x < s.ptr - w ∨ s.ptr ≤ x) (hw : w ≤ s.ptr) : (push w v s).mem x = s.mem x :=
  store_of_lt_or_le _ (by omega)

theorem Holds.push (h : Holds s.mem s.ptr l) (hw : w ≤ s.ptr) (hv : v < 256 ^ w) :
    Holds (push w v s).mem (push w v s).ptr ((w, v) :: l) := by
  refine ⟨load_store_self _ _ hv, ?_⟩
  have hback : s.ptr - w + w = s.ptr := Nat.sub_add_cancel hw
  simp only [Stacks.push, hback]
  exact h.congr fun x h1 _ => push_other (v := v) (.inr h1) hw

theorem Holds.pop (h : Holds m p (i :: l)) :
    pop i.1 ⟨m, p⟩ = (i.2, ⟨m, p + i.1⟩) ∧ Holds m (p + i.1) l :=
  ⟨by rw [Stacks.pop, h.1], h.2⟩

theorem pushAll_ptr (s : Stack) (l : List Item) : (pushAll s l).ptr = s.ptr - span l := by
  induction l generalizing s with
  | nil => rfl
  | cons i l ih =>
    rw [pushAll, List.foldl_cons, ← pushAll, ih, span]
    exact Nat.sub_sub _ _ _

/-- Pushing writes between the new pointer and the old one. -/
theorem pushAll_other (hx : x < s.ptr - span l ∨ s.ptr ≤ x) (hl : span l ≤ s.ptr) :
    (pushAll s l).mem x = s.mem x := by
  induction l generalizing s with
  | nil => rfl
  | cons i l ih =>
    simp only [span] at hx hl
    have hptr : (Stacks.push i.1 i.2 s).ptr = s.ptr - i.1 := rfl
    rw [pushAll, List.foldl_cons, ← pushAll, ih (by omega) (by omega)]
    exact push_other (by omega) (by omega)

/-- After pushing `l`, its items lie on the stack, the last one on top. -/
theorem pushAll_holds (hk : Holds s.mem s.ptr k) (hl : span l ≤ s.ptr) (hv : ∀ i ∈ l, i.2 < 256 ^ i.1) :
    Holds (pushAll s l).mem (pushAll s l).ptr (l.reverse ++ k) := by
  induction l generalizing s k with
  | nil => exact hk
  | cons i l ih =>
    simp only [span] at hl
    have hptr : (Stacks.push i.1 i.2 s).ptr = s.ptr - i.1 := rfl
    rw [pushAll, List.foldl_cons, ← pushAll, List.reverse_cons, List.append_assoc]
    exact ih (hk.push (by omega) (hv i List.mem_cons_self)) (by omega)
      fun j hj => hv j (List.mem_cons_of_mem _ hj)

end ToyOS.Lib.Stacks
