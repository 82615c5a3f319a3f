import Mathlib.Data.Finset.Card
import ToyOS.Boot.MemoryMap
import ToyOS.Threads.StackBlocks

/-! # The whole of `init`

`init` clears the screen, reports on the memory, sets up heap and scheduler and
creates three threads, which print and finish; then it waits until none is left.
The timer may fire between any two calls of `put_char`. Whatever the order, all
lines of all threads appear, those of one thread in order, before the last one of
`init`; and from any point on the threads can be run to that end.
-/
namespace ToyOS.Boot.Startup
open ToyOS.Threads ToyOS.Heap ToyOS.Lib.Loop ToyOS.Lib.Words ToyOS.Lib.CStrings ToyOS.Lib.Runs ToyOS.Lib.Typing
open ToyOS.Heap.Memory ToyOS.Boot.Screen ToyOS.Boot.MemoryMap
open ToyOS.Threads.Scheduler ToyOS.Threads.Bookkeeping ToyOS.Threads.StackBlocks
open ToyOS.Threads.RoundRobin (Switches emitted main_resumed)

/-! ## The threads -/

/-- What a thread prints that runs `jobs` jobs; `delay` prints nothing. -/
def threadRun (number : String) (jobs : Nat) : Str :=
  (List.replicate jobs (text ("Thread<" ++ number ++ "> is running...  ") ++ [10])).flatten ++
    text ("Thread<" ++ number ++ "> finished.") ++ [10]

def thread1Run : Str := threadRun "0001" 2
def thread2Run : Str := threadRun "0002" 4
def thread3Run : Str := threadRun "0003" 6

/-- A function of type `void (*)(void)`: where it is, and what it prints. -/
structure Function where
  entry : Nat
  output : Str

/-- Where the linker has put the functions. -/
structure Kernel extends Machine where
  thread1 : Nat
  thread2 : Nat
  thread3 : Nat

/-- The scheduler, the screen, and what the thread in each slot has still to print. -/
structure State where
  sched : System × List Event
  con : Console
  left : Nat → Str

variable (K : Kernel)

/-- `thread_create` and the report on it. -/
def spawn (f : Function) (st : State) : Option State :=
  (threadCreate K.toMachine st.sched.1 f.entry).map fun r =>
    let sched := (r.1, r.2.2 ++ st.sched.2)
    let tid := r.2.1
    if tid ≠ 0 then
      ⟨sched, putChar (print st.con (text "Thread ")) (UInt8.ofNat (tid + 48)),
        Function.update st.left tid f.output⟩
    else ⟨sched, print st.con (text "Failed to create new thread."), st.left⟩

def N : Nat := 3

/-- `init` up to `sti`. The ports that `init_pic` and `init_pit` write are no part of the state. -/
def init (stack : Bytes) (con : Console) (addr fuel : Nat) (mem : Bytes) (pool : Nat → Tcb)
    (elements : Nat → Nat) : Option State :=
  (greet stack con addr fuel).bind fun con =>
    let sched := initThread K.buffer ⟨initHeap K.buffer mem, []⟩ pool elements (N * 2)
    (spawn K ⟨K.thread1, thread1Run⟩ ⟨(sched, []), con, fun _ => []⟩).bind fun st =>
      (spawn K ⟨K.thread2, thread2Run⟩ st).bind (spawn K ⟨K.thread3, thread3Run⟩)

inductive Op where
  /-- A switch, by `yield` or by the timer, the end of a thread, or a store of its own. -/
  | sched (op : Scheduler.Op)
  /-- The running thread prints its next character. -/
  | putChar

def step (st : State) : Op → State
  | .sched op => { st with sched := Scheduler.step K.toMachine st.sched op }
  | .putChar =>
    match st.left st.sched.1.currentTid with
    | [] => st
    | ch :: rest =>
      { st with con := putChar st.con ch, left := Function.update st.left st.sched.1.currentTid rest }

/-- Threads create no threads, and return to `finish` when they have printed everything. -/
def Allowed (st : State) : Op → Prop
  | .sched op => Scheduler.Allowed K.toMachine st.sched op ∧ (∀ f, op ≠ .create f) ∧
    (op = .finish → st.left st.sched.1.currentTid = [])
  | .putChar => st.sched.1.currentTid ≠ 0

/-- What each slot prints in the end. -/
def output : Nat → Str
  | 1 => thread1Run
  | 2 => thread2Run
  | 3 => thread3Run
  | _ => []

/-- What `init` has printed when the threads start. -/
def opening (es : List MmapEntry) : Str :=
  title ++ [10] ++ report es ++ (text "Thread " ++ [49] ++ (text "Thread " ++ [50] ++ (text "Thread " ++ [51])))

variable {K} {M : Machine} {B : Buffer} {base : List (Nat × Nat)} {s : System} {σ : System × List Event}
variable {st st' : State} {log : List Event} {op : Scheduler.Op} {j k : Nat} {mem : Bytes} {f : Function}

/-! ## Slots at a switch -/

variable {p : Paper UInt8} {es : List MmapEntry} {stack : Bytes} {con : Console} {addr fuel : Nat}

/-- The slots in use. -/
def inUse (st : State) : Finset Nat :=
  (Finset.range (N * 2)).filter fun j => 1 ≤ j ∧ (st.sched.1.threadPool j).state ≠ .empty

/-- The main thread is about to be resumed. -/
def Ends (K : Kernel) (st : State) : Prop := ∃ st' op, Reach (Allowed K) (step K) st st' ∧
  Allowed K st' (.sched op) ∧ Switches op ∧ .resume 0 ∈ emitted K.toMachine st'.sched.1 op

end ToyOS.Boot.Startup
