import ToyOS.Threads.Bookkeeping

/-! # The thread system, statement by statement

`thread.c`, `queue.c` and `context.s` with a timer that may fire between any two
statements while interrupts are on. A position is the statement that is next; a
statement of the code of a thread is `code` throughout. `malloc` and `free` are
one statement each, and so is `stash`, which disables interrupts first.
-/
namespace ToyOS.Threads.Preemption
open ToyOS.Threads.Queue ToyOS.Lib.Runs
open ToyOS.Threads.Scheduler (ThreadState STACK_SIZE TCB_SIZE tcbPtr slotOf)
open ToyOS.Threads.Bookkeeping (Slot contents)

/-! ## The machine -/

/-- A stack pointer: the slot whose stack it points into, 0 for the boot stack of
the main thread, and the distance from the lowest byte. -/
structure StackPtr where
  slot : Nat
  offset : Nat
deriving DecidableEq

structure Tcb where
  TID : Nat
  state : ThreadState
  stack : Nat
  esp : StackPtr

/-- Which function has called `add`. -/
inductive Caller where
  | create
  | schedule

/-- The next statement, with the local variables it needs. `f` is the argument of
`thread_create`, `i` the slot at hand, `x` what `poll` has read, `state` the local
variable of `schedule`. -/
inductive Pos where
  | code
  -- `thread_create`
  | scan (f i : Nat)
  | allocate (f i : Nat)
  | setNew (f i stack : Nat)
  | setStack (f i stack : Nat)
  | pushFinish (f i : Nat)
  | setEsp (f i : Nat)
  | pushEntry (f i : Nat)
  -- `queue_add`
  | addTest (caller : Caller) (i : Nat)
  | addStore (caller : Caller) (i : Nat)
  | addTail (caller : Caller) (i : Nat)
  -- `finish`
  | setEmpty
  | free
  | clearTid
  -- `trap` and `schedule`
  | trap
  | testTid
  | setReady
  | pollTest
  | pollTake
  | pollHead (x : Nat)
  | testThread (x : Nat)
  | mainTid
  | mainPtr
  | readState (i : Nat)
  | setRunning (i : Nat) (state : ThreadState)
  | setTid (i : Nat) (state : ThreadState)
  | setPtr (i : Nat) (state : ThreadState)
  | choose (state : ThreadState)
  | start
  | resume
  -- the processor has popped what is no frame of the kind it expects
  | lost

/-- What a stack pointer may lead to: what `thread_create` has pushed, or the
registers of a `stash`, which goes on at `back`. -/
inductive Frame where
  | finish
  | entry (f : Nat)
  | context (back : Pos)
  | garbage

/-- What happens to the thread of a slot. `saved` is a store of its `esp` by
`thread_create` or by a `stash` that it has made itself. -/
inductive Event where
  | created (i : Nat)
  | freed (i : Nat)
  | queued (i : Nat)
  | dispatched (i : Nat)
  | saved (i : Nat) (esp : StackPtr)
deriving DecidableEq

/-- The memory and the processor. `stack` is the slot whose stack `%esp` points
into, `self` the thread that was started or resumed last, 0 for the main thread.
`log` has the newest entry first. -/
structure State where
  threadPool : Nat → Tcb
  poolSize : Nat
  readyQueue : FifoQueue
  currentTid : Nat
  ptrCurrentEsp : Nat
  frames : StackPtr → Frame
  interrupts : Bool
  stack : Nat
  pos : Pos
  self : Nat
  log : List Event

def State.goto (s : State) (p : Pos) : State := { s with pos := p }

def State.setThread (s : State) (i : Nat) (t : Tcb) : State :=
  { s with threadPool := Function.update s.threadPool i t }

def State.push (s : State) (p : StackPtr) (f : Frame) : State :=
  { s with frames := Function.update s.frames p f }

def State.note (s : State) (e : Event) : State := { s with log := e :: s.log }

/-- The main thread after `init_thread(n)`. `pool`, `elements` and `frames` are what
the memory holds; the boot code has interrupts off. -/
def initState (n : Nat) (pool : Nat → Tcb) (elements : Nat → Nat) (frames : StackPtr → Frame) : State where
  threadPool i := if 1 ≤ i ∧ i < n then { pool i with TID := i, state := .empty } else pool i
  poolSize := n
  readyQueue := newQueue elements n
  currentTid := 0
  ptrCurrentEsp := 0
  frames := frames
  interrupts := false
  stack := 0
  pos := .code
  self := 0
  log := []

/-! ## One statement -/

/-- Where `add` returns to. -/
def Caller.back : Caller → Pos
  | .create => .code
  | .schedule => .pollTest

/-- The two words `thread_create` puts on top of a new stack. -/
def finishWord (i : Nat) : StackPtr := ⟨i, STACK_SIZE - 4⟩
def entryWord (i : Nat) : StackPtr := ⟨i, STACK_SIZE - 8⟩

/-- `start` and `resume` up to their `ret`: the stack pointer of the thread is loaded,
the frame is popped and interrupts are on. -/
def load (s : State) : State :=
  let esp := (s.threadPool s.ptrCurrentEsp).esp
  { s with stack := esp.slot, self := esp.slot, interrupts := true,
           frames := Function.update s.frames esp .garbage,
           log := .dispatched s.ptrCurrentEsp :: s.log }

/-- The frame that `start` and `resume` pop. -/
def top (s : State) : Frame := s.frames (s.threadPool s.ptrCurrentEsp).esp

def start (s : State) : State :=
  match top s with
  | .entry _ => (load s).goto .code
  | _ => (load s).goto .lost

def resume (s : State) : State :=
  match top s with
  | .context back => (load s).goto back
  | _ => (load s).goto .lost

/-- `movl (%eax), %esp` and the call of `schedule`, which overwrites what lies below
the stack pointer of the main thread. -/
def trap (s : State) : State :=
  let esp := (s.threadPool 0).esp
  { s with stack := esp.slot, pos := .testTid,
           frames := fun p => if p.slot = esp.slot ∧ p.offset < esp.offset then .garbage
             else s.frames p }

/-- One statement. The code of a thread and `malloc` are the business of `Op`. -/
def exec (s : State) : Pos → State
  | .code | .allocate _ _ | .lost => s
  | .scan f i =>
    if i < s.poolSize then
      if (s.threadPool i).state = .empty then s.goto (.allocate f i) else s.goto (.scan f (i + 1))
    else if i = s.poolSize then s.goto .code else s.goto (.allocate f i)
  | .setNew f i stack =>
    ((s.setThread i { s.threadPool i with state := .new }).note (.created i)).goto (.setStack f i stack)
  | .setStack f i stack =>
    (s.setThread i { s.threadPool i with stack := stack }).goto (.pushFinish f i)
  | .pushFinish f i => (s.push (finishWord i) .finish).goto (.setEsp f i)
  | .setEsp f i =>
    ((s.setThread i { s.threadPool i with esp := entryWord i }).note (.saved i (entryWord i))).goto
      (.pushEntry f i)
  | .pushEntry f i => (s.push (entryWord i) (.entry f)).goto (.addTest .create i)
  | .addTest c i =>
    if queueIsFull s.readyQueue ≠ 0 then s.goto c.back else s.goto (.addStore c i)
  | .addStore c i =>
    let q := s.readyQueue
    { s with readyQueue := { q with elements := Function.update q.elements q.tail (tcbPtr i) },
             pos := .addTail c i }
  | .addTail c i =>
    let q := s.readyQueue
    { s with readyQueue := { q with tail := u32 (q.tail + 1) % q.size },
             log := .queued i :: s.log, pos := c.back }
  | .setEmpty =>
    (s.setThread s.currentTid { s.threadPool s.currentTid with state := .empty }).goto .free
  | .free => (s.note (.freed s.currentTid)).goto .clearTid
  | .clearTid => { s with currentTid := 0, pos := .trap }
  | .trap => trap s
  | .testTid => if s.currentTid ≠ 0 then s.goto .setReady else s.goto .pollTest
  | .setReady =>
    (s.setThread s.currentTid { s.threadPool s.currentTid with state := .ready }).goto
      (.addTest .schedule s.currentTid)
  | .pollTest =>
    if queueIsEmpty s.readyQueue ≠ 0 then s.goto (.testThread 0) else s.goto .pollTake
  | .pollTake => s.goto (.pollHead (s.readyQueue.elements s.readyQueue.head))
  | .pollHead x =>
    let q := s.readyQueue
    { s with readyQueue := { q with head := u32 (q.head + 1) % q.size }, pos := .testThread x }
  | .testThread x => if x = 0 then s.goto .mainTid else s.goto (.readState (slotOf x))
  | .mainTid => { s with currentTid := 0, pos := .mainPtr }
  | .mainPtr => { s with ptrCurrentEsp := 0, pos := .resume }
  | .readState i => s.goto (.setRunning i (s.threadPool i).state)
  | .setRunning i state =>
    (s.setThread i { s.threadPool i with state := .running }).goto (.setTid i state)
  | .setTid i state => { s with currentTid := (s.threadPool i).TID, pos := .setPtr i state }
  | .setPtr i state => { s with ptrCurrentEsp := i, pos := .choose state }
  | .choose state => if state = .new then s.goto .start else s.goto .resume
  | .start => start s
  | .resume => resume s

def next (s : State) : State := exec s s.pos

/-- `stash` with the offset of the stack pointer it saves. -/
def stash (s : State) (offset : Nat) : State :=
  let esp : StackPtr := ⟨s.stack, offset⟩
  let t := s.threadPool s.ptrCurrentEsp
  { s with frames := Function.update s.frames esp (.context s.pos), interrupts := false, pos := .trap,
           threadPool := Function.update s.threadPool s.ptrCurrentEsp { t with esp := esp },
           log := .saved s.self esp :: s.log }

/-! ## Runs -/

/-- `next` is a statement of the system, `malloc` the answer of the allocator, and
`timer` an interrupt. The others are what the code of a thread does; a thread that
returns does `finish`. -/
inductive Op where
  | next
  | malloc (stack : Nat)
  | timer (offset : Nat)
  | create (f : Nat)
  | yield (offset : Nat)
  | finish
  | sti
  | cli

/-- A step that only the code of a thread makes. -/
def atCode (s s' : State) : State :=
  match s.pos with
  | .code => s'
  | _ => s

/-- An operation that is not for the statement at hand changes nothing. -/
def step (s : State) : Op → State
  | .next => next s
  | .malloc stack =>
    match s.pos with
    | .allocate f i => if stack = 0 then s.goto .code else s.goto (.setNew f i stack)
    | _ => s
  | .timer offset =>
    match s.pos with
    | .lost => s
    | _ => stash s offset
  | .create f => atCode s (s.goto (.scan f 1))
  | .yield offset => atCode s (stash s offset)
  | .finish => atCode s (s.goto .setEmpty)
  | .sti => atCode s { s with interrupts := true }
  | .cli => atCode s { s with interrupts := false }

/-- The timer waits for interrupts, and stacks grow downwards: what runs on the boot
stack beside the main thread lies below what the main thread has saved. Only a
thread of the pool returns into `finish`. -/
def Allowed (s : State) : Op → Prop
  | .timer offset => s.interrupts = true ∧
      (s.self ≠ 0 → s.stack = 0 → offset < (s.threadPool 0).esp.offset)
  | .finish => s.self ≠ 0
  | .next | .malloc _ | .create _ | .yield _ | .sti | .cli => True

/-! ## What a clean exit is -/

/-- The thread of slot `i` has had its stack freed, and no other has the slot yet. -/
def Retired (i : Nat) : List Event → Prop
  | [] => False
  | .created j :: log => j ≠ i ∧ Retired i log
  | .freed j :: log => j = i ∨ Retired i log
  | .queued _ :: log | .dispatched _ :: log | .saved _ _ :: log => Retired i log

/-- The stack pointer stored last for the thread of slot `i`. -/
def lastSaved (i : Nat) : List Event → Option StackPtr
  | [] => none
  | .saved j esp :: log => if j = i then some esp else lastSaved i log
  | .created _ :: log | .freed _ :: log | .queued _ :: log | .dispatched _ :: log => lastSaved i log

/-- What must have happened before an entry of the log. -/
def Follows (log : List Event) : Event → Prop
  | .queued i | .dispatched i => ¬ Retired i log
  | .created _ | .freed _ | .saved _ _ => True

def Orderly : List Event → Prop
  | [] => True
  | e :: log => Follows log e ∧ Orderly log

/-- Threads whose stacks were freed are not queued or dispatched, have empty slots, and
each ready thread has the stack pointer that it or `thread_create` has stored. So
does the main thread while another one runs. -/
structure ExitsClean (s : State) : Prop where
  orderly : Orderly s.log
  empty : ∀ i, Slot s.poolSize i → Retired i s.log → (s.threadPool i).state = .empty
  gone : ∀ i, Slot s.poolSize i → Retired i s.log → tcbPtr i ∉ contents s.readyQueue
  saved : ∀ i, Slot s.poolSize i →
    (s.threadPool i).state = .ready ∨ tcbPtr i ∈ contents s.readyQueue →
      lastSaved i s.log = some (s.threadPool i).esp
  main : s.self ≠ 0 → lastSaved 0 s.log = some (s.threadPool 0).esp

/-- The statements before which the timer does harm: those of `thread_create` between
finding a slot and marking it and between the two halves of its `add`, those of
`finish` between marking the slot and giving it up, and those of `schedule` from
where `ptr_current_esp` leads to the next thread. -/
def Critical : Pos → Prop
  | .allocate _ _ | .setNew _ _ _ | .addTail .create _ | .free | .clearTid | .choose _ | .start
  | .resume => True
  | _ => False

/-- No timer fires at a critical statement. -/
def Spared (s : State) : Op → Prop
  | .timer _ => ¬ Critical s.pos
  | _ => True

/-- The states of the runs after `init_thread(n)`, whose allocations succeed at their
full size, with each step as `ok` has it. -/
def Reachable (ok : State → Op → Prop) (n : Nat) (s : State) : Prop :=
  ∃ pool elements frames, 1 ≤ n ∧ n * TCB_SIZE < 2 ^ 32 ∧
    Reach ok step (initState n pool elements frames) s

end ToyOS.Threads.Preemption
