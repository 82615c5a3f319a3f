import ToyOS.Heap.Untouched
import ToyOS.Threads.RoundRobin
import ToyOS.Threads.Registers

/-! # Contexts across switches

The thread system with the registers and the stacks in memory. What runs may
change registers, store where it may, create threads, give up the processor, be
interrupted, or end. Whoever goes on after a switch finds its registers and its
whole stack as it left them, however many threads ran in between.

The calls run to their end, as in the scheduler. `schedule` runs on the stack of
the main thread, beneath what that has saved; what it leaves there, and in the
registers that `start` does not set, is a parameter of the step.
-/
namespace ToyOS.Threads.Contexts
open ToyOS.Lib.Words ToyOS.Lib.Loop ToyOS.Lib.Runs ToyOS.Lib.Stacks ToyOS.Heap.Memory ToyOS.Heap.Clients
  ToyOS.Heap.Untouched ToyOS.Threads.Queue ToyOS.Threads.Scheduler ToyOS.Threads.Bookkeeping
  ToyOS.Threads.Registers
open ToyOS.Heap

/-- `stack` of `boot.s`, on which the main thread runs, and the address behind the
`call stash` of `timer`. The stack lies outside the heap. -/
structure Setting extends Machine where
  boot : Nat
  apart : boot + STACK_SIZE ≤ buffer.addr ∨ buffer.addr + DEFAULT_MEM_SIZE ≤ boot
  finish_lt : finish < 2 ^ 32
  timerBack : UInt32

/-- What happened to a slot. A thread that stops is noted with its stack, registers and
memory, and one that goes on with the registers and the memory it finds. -/
inductive Event where
  | created (i stack : Nat) (f : UInt32)
  | slept (i stack : Nat) (c : Cpu) (m : Bytes)
  | interrupted (i stack : Nat) (c : Cpu) (m : Bytes)
  | woke (i : Nat) (c : Cpu) (m : Bytes)

structure State where
  sched : System × List Scheduler.Event
  cpu : Cpu
  log : List Event

/-- What `schedule` leaves behind. -/
structure Leftover where
  cpu : Cpu
  below : Bytes

inductive Op where
  | code (c : Cpu)
  | store (addr : Nat) (v : UInt8)
  | create (f : UInt32)
  | yield (left : Leftover)
  | interrupt (left : Leftover)
  | finish (left : Leftover)

variable (K : Setting)

/-- The low end of the stack of slot `i`. -/
def stackOf (s : System) (i : Nat) : Nat := if i = 0 then K.boot else (s.threadPool i).stack

def setMem (s : System) (m : Bytes) : System := { s with heap := { s.heap with mem := m } }

/-- The main thread's stack beneath its saved frame, where `schedule` has run. -/
def scribble (below : Bytes) (s : System) : System :=
  setMem s fun x => if K.boot ≤ x ∧ x < (s.threadPool 0).esp then below x else s.heap.mem x

/-- The end of a switch: `schedule` has chosen, and goes to `start` or to `resume`. -/
def goOn (r : System × List Scheduler.Event) (left : Leftover) (schedLog : List Scheduler.Event)
    (log : List Event) : State :=
  let s := scribble K left.below r.1
  let stack : Stack := ⟨s.heap.mem, (s.threadPool s.ptrCurrentEsp).esp⟩
  let c := match r.2.head? with
    | some (.start _) => start stack left.cpu
    | _ => resume stack
  ⟨(s, r.2 ++ schedLog), c, .woke s.ptrCurrentEsp c s.heap.mem :: log⟩

/-- `stash`, called with registers `c` and memory `m`. -/
def switch (s : State) (c : Cpu) (m : Bytes) (e : Event) (left : Leftover) : State :=
  let frame := Registers.stash c m
  goOn K (Scheduler.stash (setMem s.sched.1 frame.mem) frame.ptr) left s.sched.2 (e :: s.log)

def step (s : State) : Op → State
  | .code c => { s with cpu := c }
  | .store addr v => { s with sched := Scheduler.step K.toMachine s.sched (.store addr v) }
  | .create f =>
    (threadCreate K.toMachine s.sched.1 f.toNat).elim s fun r =>
      { s with
        sched := (r.1, r.2.2 ++ s.sched.2)
        log := if r.2.1 = 0 then s.log else .created r.2.1 (r.1.threadPool r.2.1).stack f :: s.log }
  | .yield left =>
    let m := s.sched.1.heap.mem
    switch K s s.cpu m (.slept s.sched.1.currentTid (stackOf K s.sched.1 s.sched.1.currentTid) s.cpu m) left
  | .interrupt left =>
    let m := s.sched.1.heap.mem
    let r := timer K.timerBack s.cpu m
    switch K s r.1 r.2
      (.interrupted s.sched.1.currentTid (stackOf K s.sched.1 s.sched.1.currentTid) s.cpu m) left
  | .finish left => goOn K (Scheduler.finish K.toMachine s.sched.1) left s.sched.2 s.log

/-- A slot that waits: the main thread while another runs, and every thread in the queue. -/
def Asleep (s : System) (i : Nat) : Prop :=
  if i = 0 then s.currentTid ≠ 0 else Slot s.poolSize i ∧ Waiting (s.threadPool i)

/-- The stack pointer is in the stack of what runs, with room for `n` bytes. -/
def Room (s : State) (n : Nat) : Prop :=
  stackOf K s.sched.1 s.sched.1.currentTid + n ≤ s.cpu.esp ∧
    s.cpu.esp ≤ stackOf K s.sched.1 s.sched.1.currentTid + STACK_SIZE

/-- Code stores neither into the three allocations of the thread system, which are the first
of `base`, nor into the used part of a waiting thread's stack. -/
def Allowed (base : List (Nat × Nat)) (s : State) : Op → Prop
  | .code _ | .create _ => True
  | .store addr v => Clients.Allowed K.buffer s.sched.1.heap (.write addr v) ∧
    (∀ a ∈ base.take 3, addr < a.1 ∨ a.1 + a.2 ≤ addr) ∧
    ∀ i, Asleep s.sched.1 i →
      addr < (s.sched.1.threadPool i).esp ∨ stackOf K s.sched.1 i + STACK_SIZE ≤ addr
  | .yield _ => Room K s FRAME_SIZE
  | .interrupt _ => s.cpu.interruptible ∧ Room K s (FRAME_SIZE + INTERRUPT_SIZE)
  | .finish _ => s.sched.1.currentTid ≠ 0

/-- States between calls, from any registers once `init_thread` has its memory. -/
def Reachable (n : Nat) (base : List (Nat × Nat)) (s : State) : Prop :=
  ∃ heap pool elements cpu, Clients.Reachable K.buffer heap ∧ Allocated K.buffer heap n ∧
    base = (initThread K.buffer heap pool elements n).heap.live ∧
    Reach (Allowed K base) (step K) ⟨(initThread K.buffer heap pool elements n, []), cpu, []⟩ s

/-! ## What the log says -/

def about : Event → Nat
  | .created i _ _ | .slept i _ _ _ | .interrupted i _ _ _ | .woke i _ _ => i

def latest (i : Nat) (log : List Event) : Option Event := log.find? fun e => about e == i

/-- What a thread that goes on finds, by what last happened to it. A new one begins at its
function, above which lies the address of `finish`. One that called `stash` returns with its
registers. One that was interrupted is in `timer`, whose `iret` takes it back; `al` is lost. -/
def Finds (c : Cpu) (m : Bytes) : Event → Prop
  | .created _ stack f => c.interruptible ∧ c.eip = f ∧ c.esp + 4 = stack + STACK_SIZE ∧
    getW m c.esp = K.finish
  | .slept _ stack c₀ m₀ => c = sti c₀ ∧ ∀ x, c₀.esp ≤ x → x < stack + STACK_SIZE → m x = m₀ x
  | .interrupted _ stack c₀ m₀ => c.eip = K.timerBack ∧ iret m c = setAl c₀ ∧
    ∀ x, c₀.esp ≤ x → x < stack + STACK_SIZE → m x = m₀ x
  | .woke _ _ _ => False

def Orderly : List Event → Prop
  | [] => True
  | e :: log => (∀ i c m, e = .woke i c m → ∃ e', latest i log = some e' ∧ Finds K c m e') ∧ Orderly log

/-! ## What lies on the stack of a slot that waits -/

variable {K : Setting} {base : List (Nat × Nat)} {s s' : System} {st : State} {log : List Event}
variable {slog more : List Scheduler.Event} {left : Leftover} {e : Event} {t t' : Tcb} {c c' c₀ : Cpu}
variable {m m' m₀ : Bytes} {i j lo p x n : Nat}

/-- The frame of `c₀`, and above it what the stack held in `m₀`. -/
structure Parked (lo esp : Nat) (m : Bytes) (c₀ : Cpu) (m₀ : Bytes) : Prop where
  depth : esp + FRAME_SIZE = c₀.esp
  low : lo ≤ esp
  high : c₀.esp ≤ lo + STACK_SIZE
  frame : Holds m esp (frame c₀).reverse
  rest : ∀ x, c₀.esp ≤ x → x < lo + STACK_SIZE → m x = m₀ x

/-- What memory holds for a slot that waits, by what last happened to it. -/
def Rests (K : Setting) (i : Nat) (t : Tcb) (lo : Nat) (m : Bytes) : Event → Prop
  | .created _ stack f => (i ≠ 0 ∧ t.state = .new) ∧ stack = lo ∧ t.esp + 8 = lo + STACK_SIZE ∧
    Holds m t.esp [(4, f.toNat), (4, K.finish)]
  | .slept _ stack c₀ m₀ => (i = 0 ∨ t.state ≠ .new) ∧ stack = lo ∧ Parked lo t.esp m c₀ m₀
  | .interrupted _ stack c₀ m₀ => (i = 0 ∨ t.state ≠ .new) ∧ stack = lo ∧
    c₀.esp ≤ lo + STACK_SIZE ∧ INTERRUPT_SIZE ≤ c₀.esp ∧
    Parked lo t.esp m (timer K.timerBack c₀ m₀).1 (timer K.timerBack c₀ m₀).2
  | .woke _ _ _ => False

theorem Parked.congr {esp : Nat} (h : Parked lo esp m c₀ m₀)
    (hm : ∀ x, esp ≤ x → x < lo + STACK_SIZE → m' x = m x) : Parked lo esp m' c₀ m₀ := by
  have hdepth := h.depth
  have hhigh := h.high
  refine ⟨hdepth, h.low, hhigh, h.frame.congr fun x h1 h2 => ?_, fun x h1 h2 => ?_⟩
  · rw [span_reverse, span_frame] at h2
    exact hm x h1 (by omega)
  · rw [hm x (by omega) h2]
    exact h.rest x h1 h2

/-- `stash` parks its caller. -/
theorem stash_parked (hlow : lo + FRAME_SIZE ≤ c.esp) (hhigh : c.esp ≤ lo + STACK_SIZE) :
    Parked lo (c.esp - FRAME_SIZE) (Registers.stash c m).mem c m := by
  have hholds := stash_holds (m := m) (show FRAME_SIZE ≤ c.esp by omega)
  rw [stash_ptr] at hholds
  exact ⟨by omega, by omega, hhigh, hholds, fun x h1 _ => stash_other (.inr h1) (by omega)⟩

theorem Rests.congr (h : Rests K i t lo m e) (hm : ∀ x, t.esp ≤ x → x < lo + STACK_SIZE → m' x = m x)
    (hesp : t'.esp = t.esp) (hnew : i ≠ 0 → (t'.state = .new ↔ t.state = .new)) :
    Rests K i t' lo m' e := by
  have hnot : i = 0 ∨ t.state ≠ .new → i = 0 ∨ t'.state ≠ .new := fun hs => by
    by_cases h0 : i = 0
    · exact .inl h0
    · exact .inr (mt (hnew h0).mp (hs.resolve_left h0))
  cases e with
  | created k stack f =>
    obtain ⟨hs, hlo, htop, hh⟩ := h
    refine ⟨⟨hs.1, (hnew hs.1).mpr hs.2⟩, hlo, by rw [hesp, htop], ?_⟩
    rw [hesp]
    exact hh.congr fun x h1 h2 => hm x h1 (by simp only [span] at h2; omega)
  | slept k stack c m₀ => exact ⟨hnot h.1, h.2.1, hesp ▸ h.2.2.congr hm⟩
  | interrupted k stack c m₀ =>
    obtain ⟨hs, hlo, h1, h2, hp⟩ := h
    exact ⟨hnot hs, hlo, h1, h2, hesp ▸ hp.congr hm⟩
  | woke k c m => exact h.elim

/-- The stack pointer kept for the slot is in its stack. -/
theorem Rests.bounds (h : Rests K i t lo m e) : lo ≤ t.esp ∧ t.esp ≤ lo + STACK_SIZE := by
  have hpark : ∀ {c₀ m₀}, Parked lo t.esp m c₀ m₀ → lo ≤ t.esp ∧ t.esp ≤ lo + STACK_SIZE := fun hp => by
    have := hp.depth
    have := hp.high
    exact ⟨hp.low, by omega⟩
  cases e with
  | created k stack f =>
    obtain ⟨-, -, htop, -⟩ := h
    unfold STACK_SIZE at htop ⊢
    omega
  | slept k stack c m₀ => exact hpark h.2.2
  | interrupted k stack c m₀ => exact hpark h.2.2.2.2
  | woke k c m => exact h.elim

theorem sti_interruptible (c : Cpu) : (sti c).interruptible := by
  have hset : (c.eflags ||| 0x200) &&& 0x200 = 0x200 := by
    refine UInt32.toBitVec_inj.mp (BitVec.eq_of_getElem_eq fun i hi => ?_)
    simpa using fun h => Or.inr h
  exact hset

/-- What a slot finds that starts or resumes. -/
theorem Rests.finds (h : Rests K i t lo m e) (c : Cpu) :
    Finds K (if i ≠ 0 ∧ t.state = .new then start ⟨m, t.esp⟩ c else resume ⟨m, t.esp⟩) m e := by
  have hres : i = 0 ∨ t.state ≠ .new → ¬ (i ≠ 0 ∧ t.state = .new) := by tauto
  cases e with
  | created k stack f =>
    obtain ⟨hs, rfl, htop, hh⟩ := h
    rw [if_pos hs, start_holds hh]
    refine ⟨sti_interruptible _, rfl, ?_, hh.2.1⟩
    show t.esp + 4 + 4 = _
    omega
  | slept k stack c₀ m₀ =>
    obtain ⟨hs, rfl, hp⟩ := h
    rw [if_neg (hres hs), resume_frame hp.frame hp.depth]
    exact ⟨rfl, hp.rest⟩
  | interrupted k stack c₀ m₀ =>
    obtain ⟨hs, rfl, hhigh, hlow, hp⟩ := h
    have hesp := timer_esp K.timerBack c₀ m₀
    rw [if_neg (hres hs), resume_frame hp.frame hp.depth]
    refine ⟨rfl, iret_timer hlow fun x h1 h2 => hp.rest x (by omega) (by omega), fun x h1 h2 => ?_⟩
    rw [hp.rest x (by omega) h2]
    exact timer_other (.inr h1) hlow
  | woke k c m => exact h.elim

/-! ## Stacks do not overlap -/

theorem asleep_zero : Asleep s 0 ↔ s.currentTid ≠ 0 := iff_of_eq (if_pos rfl)

theorem asleep_slot (h0 : i ≠ 0) : Asleep s i ↔ Slot s.poolSize i ∧ Waiting (s.threadPool i) :=
  iff_of_eq (if_neg h0)

/-- A slot with a stack: the main thread's, and those in use. -/
def InUse (s : System) (i : Nat) : Prop := i = 0 ∨ Slot s.poolSize i ∧ (s.threadPool i).state ≠ .empty

theorem stackOf_zero (K : Setting) (s : System) : stackOf K s 0 = K.boot := if_pos rfl

theorem stackOf_slot (K : Setting) (s : System) (hi : Slot n i) : stackOf K s i = (s.threadPool i).stack :=
  if_neg (Nat.ne_of_gt hi.1)

/-- A stack is a live allocation, or it lies outside the heap. -/
theorem stack_place (h : Stacks K.buffer base s.heap s.threadPool s.poolSize) (hi : InUse s i)
    (hx : stackOf K s i ≤ x) (hx' : x < stackOf K s i + STACK_SIZE) :
    Outside K.buffer x ∨ ∃ p k, (p, k) ∈ s.heap.live ∧ p ≤ x ∧ x < p + k := by
  have hboot := K.apart
  rcases hi with rfl | ⟨hi, hne⟩
  · rw [stackOf_zero] at hx hx'
    unfold Outside
    exact .inl (by omega)
  · rw [stackOf_slot K s hi] at hx hx'
    exact .inr ⟨_, _, (h.own i hi hne).1, hx, hx'⟩

theorem stacks_apart (h : Stacks K.buffer base s.heap s.threadPool s.poolSize) (hi : InUse s i)
    (hj : InUse s j) (hij : i ≠ j) :
    stackOf K s i + STACK_SIZE ≤ stackOf K s j ∨ stackOf K s j + STACK_SIZE ≤ stackOf K s i := by
  obtain ⟨ts, hs⟩ := h.served
  have hap := hs.apart
  have hboot : DEFAULT_MEM_SIZE = 2 ^ 20 := rfl
  have hout := K.apart
  rcases hi with rfl | ⟨hi, hie⟩ <;> rcases hj with rfl | ⟨hj, hje⟩
  · exact absurd rfl hij
  · have := hap.inside _ _ (h.own j hj hje).1
    rw [stackOf_zero, stackOf_slot K s hj]
    omega
  · have := hap.inside _ _ (h.own i hi hie).1
    rw [stackOf_zero, stackOf_slot K s hi]
    omega
  · rw [stackOf_slot K s hi, stackOf_slot K s hj]
    have : Std.Symm fun x y : Nat × Nat => x.1 + x.2 ≤ y.1 ∨ y.1 + y.2 ≤ x.1 := ⟨fun _ _ h => h.symm⟩
    refine hap.pairwise.forall (h.own i hi hie).1 (h.own j hj hje).1 fun he => ?_
    exact hij (h.apart i j hi hj hie hje (Prod.mk.inj he).1)

/-- Memory may change outside the heap and in stacks in use. -/
theorem kept_setMem (h : Kept K.buffer base (s, slog)) (hi : InUse s i)
    (hm : ∀ x, m x ≠ s.heap.mem x → stackOf K s i ≤ x ∧ x < stackOf K s i + STACK_SIZE) :
    Kept K.buffer base (setMem s m, slog) := by
  obtain ⟨ts, hs⟩ : ∃ ts, Served K.buffer s.heap ts := h.memory.served
  have hs' : Served K.buffer { s.heap with mem := m } ts := hs.stores fun x hx => by
    obtain ⟨h1, h2⟩ := hm x hx
    exact (stack_place h.memory hi h1 h2).symm
  exact ⟨h.queued, Stacks.heap h.memory ⟨ts, hs'⟩ rfl, h.logged, h.current, h.esp, h.main⟩

/-! ## Whom `schedule` picks -/

/-- A slot that `schedule` may pick: the main thread, those in the queue, and the caller. -/
def Eligible (s : System) (i : Nat) : Prop :=
  i = 0 ∨ Slot s.poolSize i ∧ (Waiting (s.threadPool i) ∨ s.currentTid = i)

/-- `schedule` in state `s` goes on with slot `i`, and changes nothing that a slot in the
queue has on its stack. -/
structure Picks (s s' : System) (i : Nat) (e : Option Scheduler.Event) : Prop where
  eligible : Eligible s i
  current : s'.currentTid = i
  event : e = some (if i ≠ 0 ∧ (s.threadPool i).state = .new then .start i else .resume i)
  heap : s'.heap = s.heap
  size : s'.poolSize = s.poolSize
  tcb : ∀ j, (s'.threadPool j).esp = (s.threadPool j).esp ∧
    (s'.threadPool j).stack = (s.threadPool j).stack
  waiting : ∀ j, Slot s.poolSize j → Waiting (s'.threadPool j) → j ≠ i ∧ Eligible s j ∧
    ((s'.threadPool j).state = .new ↔ (s.threadPool j).state = .new)

/-- The caller goes to the back of the queue as it is. -/
theorem requeue_same (s : System) : (requeue s).1.heap = s.heap ∧ (requeue s).1.poolSize = s.poolSize ∧
    ∀ j, (requeue s).1.threadPool j = s.threadPool j ∨
      s.currentTid = j ∧ (requeue s).1.threadPool j = { s.threadPool j with state := .ready } := by
  by_cases hc : s.currentTid = 0
  · rw [requeue, if_neg (not_not.mpr hc)]
    exact ⟨rfl, rfl, fun _ => .inl rfl⟩
  · rw [requeue_eq hc]
    refine ⟨rfl, rfl, fun j => ?_⟩
    by_cases hj : j = s.currentTid
    · subst hj
      exact .inr ⟨rfl, Function.update_self ..⟩
    · exact .inl (Function.update_of_ne hj ..)

theorem Eligible.requeue (hi : i = 0 ∨ Slot s.poolSize i ∧ Waiting ((requeue s).1.threadPool i)) :
    Eligible s i := by
  rcases hi with h0 | ⟨hi, hw⟩
  · exact .inl h0
  · rcases (requeue_same s).2.2 i with he | ⟨hc, -⟩
    · exact .inr ⟨hi, .inl (he ▸ hw)⟩
    · exact .inr ⟨hi, .inr hc⟩

/-- The caller was running, so that its slot is no new one before nor after. -/
theorem requeue_new (h : Stopped K.buffer base s slog) (hi : Slot s.poolSize i) :
    ((requeue s).1.threadPool i).state = .new ↔ (s.threadPool i).state = .new := by
  obtain ⟨l, hq⟩ := h.queued
  rcases (requeue_same s).2.2 i with he | ⟨hc, he⟩
  · rw [he]
  · rw [he, (hq.running i hi).mpr hc]
    exact iff_of_false ThreadState.noConfusion ThreadState.noConfusion

theorem schedule_picks (h : Stopped K.buffer base s slog) :
    ∃ i, Picks s (schedule s).1 i (schedule s).2.head? := by
  obtain ⟨hheap, hsize, hsame⟩ := requeue_same s
  obtain ⟨l, hq⟩ := (requeue_idle h).queued
  have htcb : ∀ j, ((requeue s).1.threadPool j).esp = (s.threadPool j).esp ∧
      ((requeue s).1.threadPool j).stack = (s.threadPool j).stack := fun j => by
    rcases hsame j with he | ⟨-, he⟩ <;> rw [he] <;> exact ⟨rfl, rfl⟩
  unfold schedule
  cases l with
  | nil =>
    refine ⟨0, .inl rfl, ?_, ?_, ?_, ?_, ?_, ?_⟩ <;> rw [dispatch_nil hq]
    · rw [if_neg (fun hn => hn.1 rfl)]
      rfl
    · exact hheap
    · exact hsize
    · exact htcb
    · intro j hj hw
      exact ⟨Nat.ne_of_gt hj.1, .requeue (.inr ⟨hj, hw⟩), requeue_new h hj⟩
  | cons p l =>
    obtain ⟨i, hi, rfl, hw, -, -⟩ := hq.pop
    rw [hsize] at hi
    have h0 : i ≠ 0 := Nat.ne_of_gt hi.1
    have hnew := requeue_new h hi
    refine ⟨i, .requeue (.inr ⟨hi, hw⟩), ?_, ?_, ?_, ?_, ?_, ?_⟩ <;> rw [dispatch_cons hq (hsize.symm ▸ hi)]
    · by_cases hn : (s.threadPool i).state = .new
      · rw [if_pos (hnew.mpr hn), if_pos (And.intro h0 hn)]
        rfl
      · rw [if_neg (mt hnew.mp hn), if_neg (mt And.right hn)]
        rfl
    · exact hheap
    · exact hsize
    · intro j
      by_cases hj : j = i
      · subst hj
        dsimp only
        rw [Function.update_self]
        exact htcb j
      · dsimp only
        rw [Function.update_of_ne hj]
        exact htcb j
    · intro j hj hwj
      have hji : j ≠ i := fun e => by
        subst e
        dsimp only at hwj
        rw [Function.update_self] at hwj
        exact not_waiting_running rfl hwj
      dsimp only at hwj ⊢
      rw [Function.update_of_ne hji] at hwj ⊢
      exact ⟨hji, .requeue (.inr ⟨hj, hwj⟩), requeue_new h hj⟩

/-! ## A switch -/

/-- What slot `i` needs is on its stack, by what the log says of it. -/
def Resting (K : Setting) (s : System) (log : List Event) (i : Nat) : Prop :=
  ∃ e, latest i log = some e ∧ Rests K i (s.threadPool i) (stackOf K s i) s.heap.mem e

theorem Resting.bounds (h : Resting K s log i) :
    stackOf K s i ≤ (s.threadPool i).esp ∧ (s.threadPool i).esp ≤ stackOf K s i + STACK_SIZE := by
  obtain ⟨e, -, hr⟩ := h
  exact hr.bounds

/-- Between two steps. -/
structure Intact (K : Setting) (base : List (Nat × Nat)) (st : State) : Prop where
  kept : Kept K.buffer base st.sched
  rests : ∀ i, Asleep st.sched.1 i → Resting K st.sched.1 st.log i
  orderly : Orderly K st.log

theorem latest_other (h : about e ≠ i) : latest i (e :: log) = latest i log :=
  List.find?_cons_of_neg (by simpa using h)

theorem latest_self (e : Event) : latest (about e) (e :: log) = some e :=
  List.find?_cons_of_pos (by simp)

theorem Eligible.inUse (h : Stopped K.buffer base s slog) (hi : Eligible s i) : InUse s i := by
  obtain ⟨l, hq⟩ := h.queued
  rcases hi with h0 | ⟨hi, hw | hc⟩
  · exact .inl h0
  · exact .inr ⟨hi, fun he => not_waiting_empty he hw⟩
  · exact .inr ⟨hi, by rw [(hq.running i hi).mpr hc]; decide⟩

/-- The stacks of a slot that may go on, and of the main thread, in one memory. -/
theorem Resting.scribble (h : Stopped K.buffer base s slog) (hi : Eligible s i) (hr : Resting K s log i)
    (hx : (s.threadPool i).esp ≤ x) (hx' : x < stackOf K s i + STACK_SIZE)
    (hmain : Resting K s log 0) : ¬ (K.boot ≤ x ∧ x < (s.threadPool 0).esp) := by
  by_cases h0 : i = 0
  · subst h0
    omega
  · have hapart := stacks_apart h.memory (hi.inUse h) (.inl rfl) h0
    have hbounds := hr.bounds
    have hbounds' := hmain.bounds
    rw [stackOf_zero] at hapart hbounds'
    omega

/-- The processor that goes on with slot `i`, whose stack pointer is `esp`. -/
def cpuOf (new : Bool) (m : Bytes) (esp : Nat) (left : Leftover) : Cpu :=
  if new then start ⟨m, esp⟩ left.cpu else resume ⟨m, esp⟩

theorem goOn_eq {r : System × List Scheduler.Event} {new : Bool} (hptr : r.1.ptrCurrentEsp = i)
    (hev : r.2.head? = some (if new then .start i else .resume i)) :
    goOn K r left slog log =
      let s := scribble K left.below r.1
      let c := cpuOf new s.heap.mem (r.1.threadPool i).esp left
      ⟨(s, r.2 ++ slog), c, .woke i c s.heap.mem :: log⟩ := by
  subst hptr
  unfold goOn cpuOf
  cases new <;> rw [hev] <;> rfl

/-- From a state in which every slot that may go on rests, the next one goes on with what it
has on its stack, and the others rest on. -/
theorem goOn_intact (h : Stopped K.buffer base s (more ++ slog)) (hr : ∀ i, Eligible s i → Resting K s log i)
    (ho : Orderly K log) (left : Leftover) :
    Intact K base (goOn K ((schedule s).1, (schedule s).2 ++ more) left slog log) := by
  obtain ⟨i, hp⟩ := schedule_picks h
  have hk := schedule_kept h
  have hptr : (schedule s).1.ptrCurrentEsp = i := hk.esp.trans hp.current
  have hesp := fun j => (hp.tcb j).1
  have hmain := hr 0 (.inl rfl)
  have hmainlow := hmain.bounds
  rw [stackOf_zero] at hmainlow
  have hhead : ((schedule s).2 ++ more).head? =
      some (if decide (i ≠ 0 ∧ (s.threadPool i).state = .new) then .start i else .resume i) := by
    rw [List.head?_append, hp.event]
    simp only [decide_eq_true_eq]
    rfl
  rw [goOn_eq (r := ((schedule s).1, (schedule s).2 ++ more)) hptr hhead]
  dsimp only
  generalize hs' : scribble K left.below (schedule s).1 = s'
  have hpool : s'.threadPool = (schedule s).1.threadPool := hs' ▸ rfl
  have hstack : ∀ j, stackOf K s' j = stackOf K s j := fun j => by
    unfold stackOf
    rw [hpool, (hp.tcb j).2]
  have hmem : ∀ j, Eligible s j → ∀ x, (s.threadPool j).esp ≤ x → x < stackOf K s j + STACK_SIZE →
      s'.heap.mem x = s.heap.mem x := fun j hj x h1 h2 => by
    rw [← hs', ← hp.heap]
    exact if_neg (hesp 0 ▸ Resting.scribble h hj (hr j hj) h1 h2 hmain)
  refine ⟨?_, fun j hj => ?_, fun k c m he => ?_, ho⟩
  · rw [List.append_assoc, ← hs']
    refine kept_setMem hk (i := 0) (.inl rfl) fun x hx => ?_
    rw [stackOf_zero]
    by_contra hout
    refine hx (if_neg fun hin => hout ?_)
    have := hesp 0
    omega
  · -- the ones that wait now could have been picked as well
    have hwas : j ≠ i ∧ Eligible s j ∧
        (j ≠ 0 → ((s'.threadPool j).state = .new ↔ (s.threadPool j).state = .new)) := by
      by_cases h0 : j = 0
      · subst h0
        have hc : s'.currentTid ≠ 0 := asleep_zero.mp hj
        have hi : s'.currentTid = i := by rw [← hs']; exact hp.current
        exact ⟨fun e => hc (hi.trans e.symm), .inl rfl, fun hn => absurd rfl hn⟩
      · obtain ⟨hslot, hw⟩ := (asleep_slot h0).mp hj
        have hsize : s'.poolSize = s.poolSize := by rw [← hs']; exact hp.size
        rw [hpool] at hw ⊢
        obtain ⟨hne, hel, hnew⟩ := hp.waiting j (hsize ▸ hslot) hw
        exact ⟨hne, hel, fun _ => hnew⟩
    obtain ⟨hne, hel, hnew⟩ := hwas
    obtain ⟨e, hlatest, hrests⟩ := hr j hel
    refine ⟨e, (latest_other (Ne.symm hne)).trans hlatest, ?_⟩
    rw [hstack j]
    exact hrests.congr (hmem j hel) (by rw [hpool]; exact hesp j) hnew
  · cases he
    obtain ⟨e, hlatest, hrests⟩ := hr i hp.eligible
    refine ⟨e, hlatest, ?_⟩
    have hfinds := (hrests.congr (hmem i hp.eligible) rfl fun _ => Iff.rfl).finds left.cpu
    unfold cpuOf
    simp only [decide_eq_true_eq]
    rw [hesp i]
    exact hfinds

/-! ## A new thread -/

/-- Slot `i` was free, and holds a thread that begins at `f` and returns into `finish`. -/
structure Created (M : Machine) (s s' : System) (f i : Nat) : Prop where
  slot : Slot s.poolSize i
  free : (s.threadPool i).state = .empty
  state : (s'.threadPool i).state = .new
  top : (s'.threadPool i).esp + 8 = (s'.threadPool i).stack + STACK_SIZE
  words : Holds s'.heap.mem (s'.threadPool i).esp [(4, f), (4, M.finish)]
  others : ∀ j, j ≠ i → s'.threadPool j = s.threadPool j

/-- The two words that `thread_create` puts on the stack. -/
theorem holds_entry {f g top : Nat} (hf : f < 2 ^ 32) (hg : g < 2 ^ 32) (htop : 4 ≤ top) :
    Holds (putW (putW m top g) (top - 4) f) (top - 4) [(4, f), (4, g)] := by
  refine ⟨load_store_self _ _ hf, ?_, trivial⟩
  rw [Nat.sub_add_cancel htop]
  exact (load_store_of_disjoint _ (by omega)).trans (load_store_self _ _ hg)

/-- `thread_create` either fails or fills a free slot; it writes neither outside the heap
nor into what was allocated. -/
theorem threadCreate_spec {M : Machine} (h : Kept M.buffer base (s, slog)) {f : Nat}
    {r : System × Nat × List Scheduler.Event} (hr : threadCreate M s f = some r) (hf : f < 2 ^ 32)
    (hg : M.finish < 2 ^ 32) :
    r.1.currentTid = s.currentTid ∧ r.1.poolSize = s.poolSize ∧
      (∀ x, (Outside M.buffer x ∨ ∃ p k, (p, k) ∈ s.heap.live ∧ p ≤ x ∧ x < p + k) →
        r.1.heap.mem x = s.heap.mem x) ∧
      ((r.2.1 = 0 ∧ r.1.threadPool = s.threadPool) ∨ Created M s r.1 f r.2.1) := by
  obtain ⟨ts, hs⟩ : ∃ ts, Served M.buffer s.heap ts := h.memory.served
  unfold threadCreate at hr
  split at hr
  · obtain rfl := Option.some.inj hr
    exact ⟨rfl, rfl, fun _ _ => rfl, .inl ⟨rfl, rfl⟩⟩
  · next i hfree =>
    obtain ⟨h1, h2, he, -⟩ := firstIdx_eq_some.mp hfree
    have hslot : Slot s.poolSize i := ⟨h1, by omega⟩
    obtain ⟨a, ha, rfl⟩ := Option.map_eq_some_iff.mp hr
    obtain ⟨-, ts', hs', -⟩ := hs.malloc (by decide : STACK_SIZE < 2 ^ 32 - 15)
    have hleave : ∀ x, (Outside M.buffer x ∨ ∃ p k, (p, k) ∈ s.heap.live ∧ p ≤ x ∧ x < p + k) →
        (Clients.step M.buffer s.heap (.malloc STACK_SIZE)).mem x = s.heap.mem x := fun x hx => by
      refine step_leaves hs (by decide : STACK_SIZE ≤ 2 ^ 20)
        (fun _ _ e => by cases e) (hx.imp_right fun hlive => ?_)
      obtain ⟨p, k, hp, hx⟩ := hlive
      refine ⟨p, k, ?_, hx⟩
      rw [Clients.step, ha]
      dsimp only [Option.elim_some]
      split
      · exact hp
      · exact List.mem_cons_of_mem _ hp
    dsimp only
    by_cases h0 : a.2 = 0
    · rw [if_pos h0]
      exact ⟨rfl, rfl, hleave, .inl ⟨rfl, rfl⟩⟩
    · rw [if_neg h0]
      have hlive : (Clients.step M.buffer s.heap (.malloc STACK_SIZE)).live =
          (a.2, STACK_SIZE) :: s.heap.live := by
        simp only [Clients.step, ha, Option.elim_some, if_neg h0]
      have hap := hs'.apart
      have hnodup := hs'.nodup
      rw [hlive] at hnodup
      have hin : M.buffer.addr ≤ a.2 ∧ a.2 + STACK_SIZE ≤ M.buffer.addr + 2 ^ 20 :=
        hap.inside _ _ (by rw [hlive]; exact List.mem_cons_self)
      have hsize : STACK_SIZE = 4096 := rfl
      have hself : ∀ t : Tcb, Function.update s.threadPool i t i = t := fun t => Function.update_self ..
      refine ⟨rfl, rfl, fun x hx => ?_, .inr ⟨hslot, eq_of_beq he, ?_, ?_, ?_, ?_⟩⟩
      · have hout : x < a.2 ∨ a.2 + STACK_SIZE ≤ x := by
          rcases hx with hx | ⟨p, k, hp, hx1, hx2⟩
          · have hmem : DEFAULT_MEM_SIZE = 2 ^ 20 := rfl
            unfold Outside at hx
            omega
          · have hpair := hap.pairwise
            rw [hlive] at hpair
            have := (List.pairwise_cons.mp hpair).1 _ hp
            dsimp only at this
            omega
        rw [← hleave x hx]
        exact (Blocks.putW_other _ _ (by omega)).trans (Blocks.putW_other _ _ (by omega))
      · simp only [System.setThread, hself]
      · simp only [System.setThread, hself]
        omega
      · simp only [System.setThread, hself]
        exact holds_entry hf hg (by omega)
      · exact fun j hj => Function.update_of_ne hj ..

/-! ## The steps -/

theorem Asleep.inUse (hi : Asleep s i) : InUse s i := by
  by_cases h0 : i = 0
  · exact .inl h0
  · obtain ⟨hslot, hw⟩ := (asleep_slot h0).mp hi
    exact .inr ⟨hslot, fun he => not_waiting_empty he hw⟩

/-- What `stash` leaves to `schedule`. -/
def saved (s : System) (frame : Stack) : System :=
  (setMem s frame.mem).setThread s.currentTid { s.threadPool s.currentTid with esp := frame.ptr }

theorem switch_eq (h : Kept K.buffer base st.sched) : switch K st c m e left =
    goOn K ((schedule (saved st.sched.1 (Registers.stash c m))).1,
      (schedule (saved st.sched.1 (Registers.stash c m))).2 ++ [.stashed st.sched.1.currentTid])
      left st.sched.2 (e :: st.log) := by
  have hptr : st.sched.1.ptrCurrentEsp = st.sched.1.currentTid := h.esp
  unfold saved
  rw [← hptr]
  rfl

theorem saved_self (s : System) (frame : Stack) : (saved s frame).threadPool s.currentTid =
    { s.threadPool s.currentTid with esp := frame.ptr } := Function.update_self ..

theorem saved_other (s : System) (frame : Stack) (hi : i ≠ s.currentTid) :
    (saved s frame).threadPool i = s.threadPool i := Function.update_of_ne hi ..

theorem saved_stackOf (s : System) (frame : Stack) : stackOf K (saved s frame) i = stackOf K s i := by
  unfold stackOf
  by_cases hi : i = s.currentTid
  · subst hi
    rw [saved_self]
  · rw [saved_other s frame hi]

section
variable (h : Intact K base st)
include h

theorem Intact.current_running (h0 : st.sched.1.currentTid ≠ 0) :
    Slot st.sched.1.poolSize st.sched.1.currentTid ∧
      (st.sched.1.threadPool st.sched.1.currentTid).state = .running := by
  have hi := h.kept.current.resolve_left h0
  obtain ⟨l, hq⟩ := h.kept.queued
  exact ⟨hi, (hq.running _ hi).mpr rfl⟩

theorem Intact.current_inUse : InUse st.sched.1 st.sched.1.currentTid := by
  by_cases h0 : st.sched.1.currentTid = 0
  · exact .inl h0
  · obtain ⟨hi, hr⟩ := h.current_running h0
    exact .inr ⟨hi, by rw [hr]; decide⟩

theorem Intact.current_old : st.sched.1.currentTid = 0 ∨
    (st.sched.1.threadPool st.sched.1.currentTid).state ≠ .new := by
  by_cases h0 : st.sched.1.currentTid = 0
  · exact .inl h0
  · exact .inr (by rw [(h.current_running h0).2]; decide)

/-- Memory changes where no waiting slot needs it. -/
theorem Intact.resting_of_mem {s : System} (hi : Asleep st.sched.1 i)
    (hm : ∀ x, (st.sched.1.threadPool i).esp ≤ x → x < stackOf K st.sched.1 i + STACK_SIZE →
      s.heap.mem x = st.sched.1.heap.mem x)
    (hpool : s.threadPool i = st.sched.1.threadPool i) : Resting K s st.log i := by
  obtain ⟨e, hlatest, hr⟩ := h.rests i hi
  have hstack : stackOf K s i = stackOf K st.sched.1 i := by
    unfold stackOf
    rw [hpool]
  refine ⟨e, hlatest, ?_⟩
  rw [hpool, hstack]
  exact hr.congr hm rfl fun _ => Iff.rfl

/-- `stash`, when the memory it starts from differs in the caller's stack only. -/
theorem Intact.switch (he : about e = st.sched.1.currentTid) (hw : ∀ i c m, e ≠ .woke i c m)
    (hm : ∀ x, m x ≠ st.sched.1.heap.mem x → stackOf K st.sched.1 st.sched.1.currentTid ≤ x ∧
      x < stackOf K st.sched.1 st.sched.1.currentTid + STACK_SIZE)
    (hlow : stackOf K st.sched.1 st.sched.1.currentTid + FRAME_SIZE ≤ c.esp)
    (hhigh : c.esp ≤ stackOf K st.sched.1 st.sched.1.currentTid + STACK_SIZE)
    (hr : Rests K st.sched.1.currentTid
      { st.sched.1.threadPool st.sched.1.currentTid with esp := c.esp - FRAME_SIZE }
      (stackOf K st.sched.1 st.sched.1.currentTid) (Registers.stash c m).mem e) (left : Leftover) :
    Intact K base (switch K st c m e left) := by
  have hframe : ∀ x, (Registers.stash c m).mem x ≠ st.sched.1.heap.mem x →
      stackOf K st.sched.1 st.sched.1.currentTid ≤ x ∧
        x < stackOf K st.sched.1 st.sched.1.currentTid + STACK_SIZE := fun x hx => by
    by_cases hin : x < c.esp - FRAME_SIZE ∨ c.esp ≤ x
    · rw [stash_other hin (by omega)] at hx
      exact hm x hx
    · omega
  have hst := stash_stopped (kept_setMem h.kept h.current_inUse hframe) (Registers.stash c m).ptr
  have hsaved : Stopped K.buffer base (saved st.sched.1 (Registers.stash c m))
      ([.stashed st.sched.1.currentTid] ++ st.sched.2) := by
    have hptr : (setMem st.sched.1 (Registers.stash c m).mem).ptrCurrentEsp = st.sched.1.currentTid :=
      h.kept.esp
    rw [hptr] at hst
    exact hst
  rw [switch_eq h.kept]
  refine @goOn_intact K base _ (e :: st.log) _ _ hsaved (fun i hi => ?_)
    ⟨fun i c m hwoke => absurd hwoke (hw i c m), h.orderly⟩ left
  by_cases hic : i = st.sched.1.currentTid
  · subst hic
    refine ⟨e, by rw [← he]; exact latest_self e, ?_⟩
    rw [saved_self, saved_stackOf, stash_ptr]
    exact hr
  · have hasleep : Asleep st.sched.1 i := by
      by_cases h0 : i = 0
      · subst h0
        exact asleep_zero.mpr (Ne.symm hic)
      · obtain ⟨hslot, hwait⟩ := hi.resolve_left h0
        rw [saved_other _ _ hic] at hwait
        exact (asleep_slot h0).mpr ⟨hslot, hwait.resolve_right (Ne.symm hic)⟩
    have hapart := stacks_apart h.kept.memory hasleep.inUse h.current_inUse hic
    have hlower := (h.rests i hasleep)
    obtain ⟨e', hlatest, hrest⟩ := h.resting_of_mem (s := saved st.sched.1 (Registers.stash c m)) hasleep
      (fun x h1 h2 => by
        have := hlower.bounds
        by_contra hne
        have := hframe x hne
        omega) (saved_other _ _ hic)
    exact ⟨e', (latest_other (by rw [he]; exact Ne.symm hic)).trans hlatest, hrest⟩

theorem Intact.yield (hroom : Room K st FRAME_SIZE) (left : Leftover) :
    Intact K base (step K st (.yield left)) :=
  h.switch (e := .slept _ _ _ _) rfl (fun _ _ _ e => by cases e) (fun _ hx => absurd rfl hx) hroom.1 hroom.2
    ⟨h.current_old, rfl, stash_parked hroom.1 hroom.2⟩ left

theorem Intact.interrupt (hroom : Room K st (FRAME_SIZE + INTERRUPT_SIZE)) (left : Leftover) :
    Intact K base (step K st (.interrupt left)) := by
  obtain ⟨hlow, hhigh⟩ := hroom
  have hesp := timer_esp K.timerBack st.cpu st.sched.1.heap.mem
  have hlow' : stackOf K st.sched.1 st.sched.1.currentTid + FRAME_SIZE ≤
      (timer K.timerBack st.cpu st.sched.1.heap.mem).1.esp := by omega
  refine h.switch (e := .interrupted _ _ _ _) rfl (fun _ _ _ e => by cases e) (fun x hx => ?_) hlow'
    (by omega) ⟨h.current_old, rfl, hhigh, by omega, stash_parked hlow' (by omega)⟩ left
  by_cases hin : x < st.cpu.esp - INTERRUPT_SIZE ∨ st.cpu.esp ≤ x
  · exact absurd (timer_other hin (by omega)) hx
  · omega

/-- The thread that ends gives its stack back; the others keep theirs. -/
theorem Intact.finish (h0 : st.sched.1.currentTid ≠ 0) (left : Leftover) :
    Intact K base (step K st (.finish left)) := by
  have hst := finish_stopped h.kept h0
  obtain ⟨hcur, hrun⟩ := h.current_running h0
  obtain ⟨ts, hs⟩ := h.kept.memory.served
  have hfree : Clients.Allowed K.buffer st.sched.1.heap
      (.free (st.sched.1.threadPool st.sched.1.currentTid).stack) :=
    .inr (List.mem_map_of_mem (h.kept.memory.own _ hcur (by rw [hrun]; decide)).1)
  have hgo := @goOn_intact K base _ st.log _ [] hst (fun i hi => ?_) h.orderly left
  · rw [List.append_nil] at hgo
    exact hgo
  · have hother : i ≠ st.sched.1.currentTid → (finished K.toMachine st.sched.1).threadPool i =
        st.sched.1.threadPool i := fun hne => Function.update_of_ne hne ..
    have hne : i ≠ st.sched.1.currentTid := fun e => by
      subst e
      obtain ⟨-, hw | he⟩ := hi.resolve_left h0
      · have hself : (finished K.toMachine st.sched.1).threadPool st.sched.1.currentTid =
            { st.sched.1.threadPool st.sched.1.currentTid with state := .empty } := Function.update_self ..
        rw [hself] at hw
        exact not_waiting_empty rfl hw
      · exact h0 he.symm
    have hasleep : Asleep st.sched.1 i := by
      by_cases hi0 : i = 0
      · subst hi0
        exact asleep_zero.mpr h0
      · obtain ⟨hslot, hw | he⟩ := hi.resolve_left hi0
        · exact (asleep_slot hi0).mpr ⟨hslot, hother hne ▸ hw⟩
        · exact absurd he.symm hi0
    have hstack : stackOf K (finished K.toMachine st.sched.1) i = stackOf K st.sched.1 i := by
      unfold stackOf
      rw [hother hne]
    refine h.resting_of_mem hasleep (fun x h1 h2 => ?_) (hother hne)
    have hlow := (h.rests i hasleep).bounds
    have hplace := stack_place (x := x) hst.memory (hi.inUse hst) (by rw [hstack]; omega)
      (by rw [hstack]; omega)
    exact step_leaves hs hfree (fun _ _ e => by cases e) hplace

theorem Intact.store {addr : Nat} {v : UInt8} (ha : Allowed K base st (.store addr v)) :
    Intact K base (step K st (.store addr v)) := by
  obtain ⟨ha, -, hstacks⟩ := ha
  refine ⟨@step_kept _ _ _ (.store addr v) h.kept ha, fun i hi => ?_, h.orderly⟩
  have hi : Asleep st.sched.1 i := hi
  refine h.resting_of_mem hi (fun x h1 h2 => ?_) rfl
  have := hstacks i hi
  exact Function.update_of_ne (by omega) ..

/-- The new stack is apart from the others, and its slot was not in use. -/
theorem Intact.create (f : UInt32) : Intact K base (step K st (.create f)) := by
  obtain ⟨r, hr, hk⟩ := create_kept h.kept f.toNat
  obtain ⟨hcur, hsize, hmem, hcases⟩ := threadCreate_spec h.kept hr f.toNat_lt K.finish_lt
  have hleave : ∀ i, Asleep st.sched.1 i → ∀ x, (st.sched.1.threadPool i).esp ≤ x →
      x < stackOf K st.sched.1 i + STACK_SIZE → r.1.heap.mem x = st.sched.1.heap.mem x := fun i hi x h1 h2 =>
    hmem x (stack_place h.kept.memory hi.inUse ((h.rests i hi).bounds.1.trans h1) h2)
  unfold step
  dsimp only
  rw [hr, Option.elim_some]
  rcases hcases with ⟨h0, hpool⟩ | hnew
  · rw [if_pos h0]
    refine ⟨hk, fun i hi => ?_, h.orderly⟩
    have hi : Asleep st.sched.1 i := by
      unfold Asleep at hi ⊢
      rwa [hcur, hsize, hpool] at hi
    exact h.resting_of_mem hi (hleave i hi) (congrFun hpool i)
  · have hi0 : r.2.1 ≠ 0 := Nat.ne_of_gt hnew.slot.1
    rw [if_neg hi0]
    refine ⟨hk, fun i hi => ?_, ⟨fun _ _ _ e => (by cases e), h.orderly⟩⟩
    by_cases hir : i = r.2.1
    · subst hir
      have hstack : stackOf K r.1 r.2.1 = (r.1.threadPool r.2.1).stack := stackOf_slot K r.1 hnew.slot
      refine ⟨_, latest_self _, ⟨hi0, hnew.state⟩, hstack.symm, ?_, hnew.words⟩
      rw [hstack]
      exact hnew.top
    · have hi : Asleep st.sched.1 i := by
        unfold Asleep at hi ⊢
        dsimp only at hi
        rwa [hcur, hsize, hnew.others i hir] at hi
      obtain ⟨e, hlatest, hrest⟩ := h.resting_of_mem hi (hleave i hi) (hnew.others i hir)
      exact ⟨e, (latest_other (Ne.symm hir)).trans hlatest, hrest⟩

end

theorem step_intact (h : Intact K base st) {op : Op} (ha : Allowed K base st op) :
    Intact K base (step K st op) := by
  cases op with
  | code c => exact ⟨h.kept, h.rests, h.orderly⟩
  | store addr v => exact h.store ha
  | create f => exact h.create f
  | yield left => exact h.yield ha left
  | interrupt left => exact h.interrupt ha.2 left
  | finish left => exact h.finish ha left

/-- In every run, whoever goes on finds what it left: a new thread begins at its function
with `finish` to return to, a thread that gave up the processor has its registers and its
stack, and an interrupted one comes back to its instruction with all but `al`. -/
theorem contexts_kept (h : Reachable K n base st) : Orderly K st.log := by
  obtain ⟨heap, pool, elements, cpu, hheap, halloc, rfl, hrun⟩ := h
  have h0 : Intact K (initThread K.buffer heap pool elements n).heap.live
      ⟨(initThread K.buffer heap pool elements n, []), cpu, []⟩ := by
    refine ⟨init_kept hheap halloc pool elements, fun i hi => ?_, trivial⟩
    have hempty : ∀ j, Slot n j → ¬ Waiting ((initThread K.buffer heap pool elements n).threadPool j) :=
      fun j hj => not_waiting_empty (congrArg Tcb.state (if_pos hj) : _)
    by_cases hi0 : i = 0
    · subst hi0
      exact absurd rfl (asleep_zero.mp hi)
    · obtain ⟨hslot, hw⟩ := (asleep_slot hi0).mp hi
      exact absurd hw (hempty i hslot)
  exact (hrun.invariant h0 fun st op ha hs => step_intact hs ha).orderly

/-- A machine with the main stack above the heap, and a run in which the main thread creates
a thread and gives up the processor. -/
def lowSetting : Setting where
  toMachine := lowMachine
  boot := 2 ^ 21
  apart := .inr (by decide)
  finish_lt := by decide
  timerBack := 64

def mainCpu : Cpu := ⟨0, 0, 0, 0, 2 ^ 21 + 4096, 0, 0, 0, 48, 0, 16, 16, 16, 16, 16⟩

def switchedOnce : State :=
  step lowSetting (step lowSetting
    ⟨(initThread lowBuffer freshHeap (fun _ => ⟨0, .empty, 0, 0⟩) (fun _ => 0) 2, []), mainCpu, []⟩
    (.create 32)) (.yield ⟨mainCpu, fun _ => 7⟩)

theorem create_quiet (st : State) (f : UInt32) :
    (step K st (.create f)).sched.1.currentTid = st.sched.1.currentTid ∧
      (step K st (.create f)).cpu = st.cpu := by
  unfold step
  dsimp only
  cases hr : threadCreate K.toMachine st.sched.1 f.toNat with
  | none => exact ⟨rfl, rfl⟩
  | some r => exact ⟨(RoundRobin.threadCreate_cases hr).1, rfl⟩

theorem switchedOnce_reachable : Reachable lowSetting 2
    (initThread lowBuffer freshHeap (fun _ => ⟨0, .empty, 0, 0⟩) (fun _ => 0) 2).heap.live switchedOnce := by
  refine ⟨freshHeap, fun _ => ⟨0, .empty, 0, 0⟩, fun _ => 0, mainCpu, ⟨_, .start⟩, freshHeap_allocated, rfl,
    .step (.step .start trivial) ?_⟩
  unfold Allowed Room
  rw [(create_quiet _ _).1, (create_quiet _ _).2]
  exact ⟨by decide, by decide⟩

theorem contexts_kept_switchedOnce : Orderly lowSetting switchedOnce.log :=
  contexts_kept switchedOnce_reachable

end ToyOS.Threads.Contexts
