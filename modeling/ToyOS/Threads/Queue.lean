import Mathlib.Algebra.Order.Ring.Nat
import ToyOS.Lib.Ring
import ToyOS.Lib.Runs

/-! # The queue of the thread system

`queue.c`: pointers in a ring of `size` cells. The `println` of the two tests
is left out. A pointer is a number, NULL is 0.
-/
namespace ToyOS.Threads.Queue
open ToyOS.Lib.Ring ToyOS.Lib.Runs

/-- Arithmetic of `unsigned int`. -/
def u32 (n : Nat) : Nat := n % 2 ^ 32

structure FifoQueue where
  elements : Nat → Nat
  size : Nat
  head : Nat
  tail : Nat

def queueIsFull (q : FifoQueue) : Nat := if u32 (q.tail + 1) % q.size = q.head then 1 else 0

def queueIsEmpty (q : FifoQueue) : Nat := if q.head = q.tail then 1 else 0

def queueAdd (q : FifoQueue) (element : Nat) : FifoQueue × Nat :=
  if queueIsFull q ≠ 0 then (q, 0)
  else ({ q with elements := Function.update q.elements q.tail element,
                 tail := u32 (q.tail + 1) % q.size }, 1)

def queuePoll (q : FifoQueue) : FifoQueue × Nat :=
  if queueIsEmpty q ≠ 0 then (q, 0)
  else ({ q with head := u32 (q.head + 1) % q.size }, q.elements q.head)

/-- The fields `init_queue` sets; `elements` is what the memory of the ring holds. -/
def newQueue (elements : Nat → Nat) (size : Nat) : FifoQueue := ⟨elements, u32 (size + 1), 0, 0⟩

/-- `memory` is the ring, or `none` when one of the two calls of `malloc` returns NULL. -/
def initQueue (memory : Option (Nat → Nat)) (size : Nat) : Option FifoQueue :=
  memory.map fun elements => newQueue elements size

/-! ## A bounded list -/

/-- What the queue is for: a list of at most `n` elements. -/
def listAdd (n : Nat) (l : List Nat) (element : Nat) : List Nat × Nat :=
  if l.length < n then (l ++ [element], 1) else (l, 0)

def listPoll : List Nat → List Nat × Nat
  | [] => ([], 0)
  | x :: l => (l, x)

variable {q : FifoQueue} {n : Nat} {l : List Nat}

/-- The queue holds the list `l`, at most `n` elements. -/
structure Represents (q : FifoQueue) (n : Nat) (l : List Nat) : Prop where
  size : q.size = n + 1
  word : n + 1 < 2 ^ 32
  ring : Holds q.elements (n + 1) q.head q.tail l

theorem u32_succ {a : Nat} (h : a + 1 < 2 ^ 32) : u32 (a + 1) = a + 1 := Nat.mod_eq_of_lt h

theorem newQueue_represents (elements : Nat → Nat) (h : n + 1 < 2 ^ 32) :
    Represents (newQueue elements n) n [] :=
  ⟨u32_succ h, h, holds_nil elements (Nat.succ_pos n)⟩

section
variable (h : Represents q n l)
include h

theorem Represents.full : queueIsFull q = if l.length = n then 1 else 0 := by
  have hlt := h.ring.tail_lt
  have hword := h.word
  unfold queueIsFull
  rw [u32_succ (by omega), h.size]
  exact if_congr (h.ring.full_iff.trans (by omega)) rfl rfl

theorem Represents.empty : queueIsEmpty q = if l.length = 0 then 1 else 0 := by
  unfold queueIsEmpty
  exact if_congr (h.ring.empty_iff.trans List.length_eq_zero_iff.symm) rfl rfl

theorem Represents.length_le : l.length ≤ n := Nat.le_of_lt_succ h.ring.room

theorem Represents.store (x : Nat) :
    Represents { q with elements := Function.update q.elements q.tail x } n l :=
  ⟨h.size, h.word, h.ring.store x⟩

/-- `tail` moves on past a cell that holds `x`. -/
theorem Represents.advance {x : Nat} (hroom : l.length < n) (hx : q.elements q.tail = x) :
    Represents { q with tail := u32 (q.tail + 1) % q.size } n (l ++ [x]) := by
  have htail := h.ring.tail_lt
  have hword := h.word
  refine ⟨h.size, hword, ?_⟩
  dsimp only
  rw [u32_succ (by omega), h.size]
  exact h.ring.advance (by omega) hx

/-- `queue_add` does what the list does, with the same return value. -/
theorem Represents.add (x : Nat) :
    Represents (queueAdd q x).1 n (listAdd n l x).1 ∧ (queueAdd q x).2 = (listAdd n l x).2 := by
  have hle := h.length_le
  unfold queueAdd listAdd
  rw [h.full]
  by_cases hfull : l.length = n
  · rw [if_pos hfull, if_pos (by decide), if_neg (by omega)]
    exact ⟨h, rfl⟩
  · rw [if_neg hfull, if_neg (by decide), if_pos (by omega)]
    exact ⟨(h.store x).advance (by omega) (Function.update_self q.tail x q.elements), rfl⟩

end

/-- `head` moves on past the first element. -/
theorem Represents.behead {x : Nat} (h : Represents q n (x :: l)) : q.elements q.head = x ∧
    Represents { q with head := u32 (q.head + 1) % q.size } n l := by
  have hhead := h.ring.head_lt
  have hword := h.word
  obtain ⟨hx, hring⟩ := h.ring.pop
  refine ⟨hx, h.size, hword, ?_⟩
  dsimp only
  rw [u32_succ (by omega), h.size]
  exact hring

/-- So does `queue_poll`. -/
theorem Represents.poll (h : Represents q n l) :
    Represents (queuePoll q).1 n (listPoll l).1 ∧ (queuePoll q).2 = (listPoll l).2 := by
  unfold queuePoll
  rw [h.empty]
  cases l with
  | nil =>
    rw [if_pos (by simp)]
    exact ⟨h, rfl⟩
  | cons x l =>
    rw [if_neg (by simp)]
    exact ⟨h.behead.2, h.behead.1⟩

/-! ## Whole runs -/

inductive Op where
  | add (element : Nat)
  | poll

/-- One call on the queue, with its return value. -/
def call (q : FifoQueue) : Op → FifoQueue × Nat
  | .add x => queueAdd q x
  | .poll => queuePoll q

def listCall (n : Nat) (l : List Nat) : Op → List Nat × Nat
  | .add x => listAdd n l x
  | .poll => listPoll l

theorem Represents.call (h : Represents q n l) (op : Op) :
    Represents (call q op).1 n (listCall n l op).1 ∧ (Queue.call q op).2 = (listCall n l op).2 := by
  cases op with
  | add x => exact h.add x
  | poll => exact h.poll

/-- The ring buffer is a bounded FIFO: over every sequence of calls it returns
what the list returns, and the two tests answer by the length of the list. -/
theorem queue_fifo {memory : Option (Nat → Nat)} (hinit : initQueue memory n = some q)
    (hword : 4 * (n + 1) < 2 ^ 32) (ops : List Op) :
    (runOutputs call q ops).2 = (runOutputs (listCall n) [] ops).2 ∧
      queueIsFull (runOutputs call q ops).1 =
        (if (runOutputs (listCall n) [] ops).1.length = n then 1 else 0) ∧
      queueIsEmpty (runOutputs call q ops).1 =
        if (runOutputs (listCall n) [] ops).1.length = 0 then 1 else 0 := by
  obtain ⟨elements, -, rfl⟩ := Option.map_eq_some_iff.mp hinit
  obtain ⟨hrep, hout⟩ := runOutputs_simulated (R := fun q l => Represents q n l)
    (fun q l op h => h.call op) (newQueue_represents elements (by omega)) ops
  exact ⟨hout, hrep.full, hrep.empty⟩

/-- A queue of two cells in use, and one add too many. -/
theorem queue_fifo_two : (runOutputs call (newQueue (fun _ => 0) 2) [.add 7, .add 8, .add 9, .poll]).2 =
      (runOutputs (listCall 2) [] [.add 7, .add 8, .add 9, .poll]).2 ∧
    queueIsFull (runOutputs call (newQueue (fun _ => 0) 2) [.add 7, .add 8, .add 9, .poll]).1 =
      (if (runOutputs (listCall 2) [] [.add 7, .add 8, .add 9, .poll]).1.length = 2 then 1 else 0) ∧
    queueIsEmpty (runOutputs call (newQueue (fun _ => 0) 2) [.add 7, .add 8, .add 9, .poll]).1 =
      if (runOutputs (listCall 2) [] [.add 7, .add 8, .add 9, .poll]).1.length = 0 then 1 else 0 :=
  queue_fifo (show initQueue (some fun _ => 0) 2 = some _ from rfl) (by decide) [.add 7, .add 8, .add 9, .poll]

example : (runOutputs call (newQueue (fun _ => 0) 2) [.add 7, .add 8, .add 9, .poll]).2 = [1, 1, 0, 7] := by
  decide

end ToyOS.Threads.Queue
