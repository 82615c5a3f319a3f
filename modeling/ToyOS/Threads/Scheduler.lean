import ToyOS.Lib.Loop
import ToyOS.Heap.Clients
import ToyOS.Threads.Queue

/-! # The thread system

`thread.c` and `context.s` over the heap and the queue. Every call runs to its
end: a switch is one step from the `stash` or `finish` of one thread to the
`start` or `resume` of the next. The steps write a log of what happened to the
threads, newest entry first.
-/
namespace ToyOS.Threads.Scheduler
open ToyOS.Heap ToyOS.Lib.Words ToyOS.Lib.Loop ToyOS.Heap.Memory ToyOS.Threads.Queue

def STACK_SIZE : Nat := 4096

/-- `sizeof(TCB)` and `sizeof(FIFO_Queue)`. -/
def TCB_SIZE : Nat := 16
def QUEUE_SIZE : Nat := 32

inductive ThreadState where
  | empty
  | new
  | ready
  | running
deriving DecidableEq

structure Tcb where
  TID : Nat
  state : ThreadState
  stack : Nat
  esp : Nat

/-- Where the linker has put the heap's buffer and the function `finish`. -/
structure Machine where
  buffer : Buffer
  finish : Nat

/-- The global variables and the heap. `ptrCurrentEsp` is the slot whose `esp` the
pointer leads to; `ptr_main_thread_esp` is that of slot 0 throughout. -/
structure System where
  heap : Clients.State
  threadPool : Nat → Tcb
  poolSize : Nat
  readyQueue : FifoQueue
  currentTid : Nat
  ptrCurrentEsp : Nat

/-- A `TCB*` is kept as a number: 0 is NULL, `i + 1` is `thread_pool + i`. -/
def tcbPtr (i : Nat) : Nat := i + 1

def slotOf (p : Nat) : Nat := p - 1

/-- What happened to a slot, or what `queue_add` returned. -/
inductive Event where
  | created (i : Nat)
  | stashed (i : Nat)
  | start (i : Nat)
  | resume (i : Nat)
  | added (r : Nat)
deriving DecidableEq

def System.setThread (s : System) (i : Nat) (t : Tcb) : System :=
  { s with threadPool := Function.update s.threadPool i t }

/-- `init_thread` when its allocations succeed. `pool` and `elements` are what
the memory of the pool and of the ring holds. -/
def initThread (B : Buffer) (heap : Clients.State) (pool : Nat → Tcb) (elements : Nat → Nat)
    (size : Nat) : System where
  heap :=
    let heap := Clients.step B heap (.malloc (size * TCB_SIZE))
    let heap := Clients.step B heap (.malloc QUEUE_SIZE)
    Clients.step B heap (.malloc ((size + 1) * 4))
  threadPool i := if 1 ≤ i ∧ i < size then { pool i with TID := i, state := .empty } else pool i
  poolSize := size
  readyQueue := newQueue elements size
  currentTid := 0
  ptrCurrentEsp := 0

variable (M : Machine)

/-- `thread_create` with the thread id it returns. -/
def threadCreate (s : System) (f : Nat) : Option (System × Nat × List Event) :=
  match firstIdx (fun i => (s.threadPool i).state == .empty) 1 (s.poolSize - 1) with
  | none => some (s, 0, [])
  | some i => (malloc M.buffer s.heap.mem STACK_SIZE).map fun r =>
    let s := { s with heap := Clients.step M.buffer s.heap (.malloc STACK_SIZE) }
    if r.2 = 0 then (s, 0, [])
    else
      let stack := r.2
      let top := stack + STACK_SIZE - 4
      let mem := putW (putW s.heap.mem top M.finish) (top - 4) f
      let s := { s with heap := { s.heap with mem := mem } }
      let s := s.setThread i { s.threadPool i with state := .new, stack := stack, esp := top - 4 }
      let (q, added) := queueAdd s.readyQueue (tcbPtr i)
      ({ s with readyQueue := q }, i, [.added added, .created i])

/-- The first half of `schedule`: the thread that ran goes to the back of the queue. -/
def requeue (s : System) : System × List Event :=
  if s.currentTid ≠ 0 then
    let s := s.setThread s.currentTid { s.threadPool s.currentTid with state := .ready }
    let (q, added) := queueAdd s.readyQueue (tcbPtr s.currentTid)
    ({ s with readyQueue := q }, [.added added])
  else (s, [])

/-- The second half: the thread at the front of the queue runs, or the main thread. -/
def dispatch (s : System) : System × List Event :=
  let (q, thread) := queuePoll s.readyQueue
  let s := { s with readyQueue := q }
  if thread = 0 then ({ s with currentTid := 0, ptrCurrentEsp := 0 }, [.resume 0])
  else
    let i := slotOf thread
    let state := (s.threadPool i).state
    let s := s.setThread i { s.threadPool i with state := .running }
    let s := { s with currentTid := (s.threadPool i).TID, ptrCurrentEsp := i }
    (s, if state = .new then [.start i] else [.resume i])

def schedule (s : System) : System × List Event :=
  let r := dispatch (requeue s).1
  (r.1, r.2 ++ (requeue s).2)

/-- `stash` with the stack pointer it saves, and the switch it ends in. -/
def stash (s : System) (esp : Nat) : System × List Event :=
  let i := s.ptrCurrentEsp
  let r := schedule (s.setThread i { s.threadPool i with esp := esp })
  (r.1, r.2 ++ [.stashed i])

def finish (s : System) : System × List Event :=
  let t := s.threadPool s.currentTid
  let s := s.setThread s.currentTid { t with state := .empty }
  let s := { s with heap := Clients.step M.buffer s.heap (.free t.stack), currentTid := 0 }
  schedule s

/-! ## Runs -/

/-- `switch` is a call of `yield` or a timer interrupt; `store` is a store of the
code that runs. -/
inductive Op where
  | create (f : Nat)
  | switch (esp : Nat)
  | finish
  | store (addr : Nat) (v : UInt8)

/-- The system after a step, with what the step adds to the log. -/
def call (s : System) : Op → Option (System × List Event)
  | .create f => (threadCreate M s f).map fun r => (r.1, r.2.2)
  | .switch esp => some (stash s esp)
  | .finish => some (finish M s)
  | .store addr v => some ({ s with heap := Clients.step M.buffer s.heap (.write addr v) }, [])

def step (s : System × List Event) (op : Op) : System × List Event :=
  (call M s.1 op).elim s fun r => (r.1, r.2 ++ s.2)

/-- Only a thread of the pool returns into `finish`; code stores into live
payloads and outside the heap. -/
def Allowed (s : System × List Event) : Op → Prop
  | .create _ | .switch _ => True
  | .finish => s.1.currentTid ≠ 0
  | .store addr v => Clients.Allowed M.buffer s.1.heap (.write addr v)

/-- A `malloc` that returns memory. -/
def Gets (B : Buffer) (heap : Clients.State) (size : Nat) : Prop :=
  ∃ r, malloc B heap.mem size = some r ∧ r.2 ≠ 0

/-- The three allocations of `init_thread` succeed, at their full size. -/
structure Allocated (B : Buffer) (heap : Clients.State) (size : Nat) : Prop where
  word : size * TCB_SIZE < 2 ^ 32
  pool : Gets B heap (size * TCB_SIZE)
  queue : Gets B (Clients.step B heap (.malloc (size * TCB_SIZE))) QUEUE_SIZE
  ring : Gets B (Clients.step B (Clients.step B heap (.malloc (size * TCB_SIZE)))
    (.malloc QUEUE_SIZE)) ((size + 1) * 4)

/-- The systems, with their logs, of the runs after `init_thread(n)` on a heap in use. -/
def Reachable (n : Nat) (base : List (Nat × Nat)) (s : System × List Event) : Prop :=
  ∃ heap pool elements, Clients.Reachable M.buffer heap ∧ Allocated M.buffer heap n ∧
    base = (initThread M.buffer heap pool elements n).heap.live ∧
    Lib.Runs.Reach (Allowed M) (step M) (initThread M.buffer heap pool elements n, []) s

end ToyOS.Threads.Scheduler
