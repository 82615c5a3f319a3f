import ToyOS.Threads.Preemption

/-! # Exits under preemption

Where each thread is between two statements: free, under construction by another
thread, in the ready queue, or loose, which is running or taken out of the queue.
A thread that waits anywhere has its stack pointer on its own stack. The timer
may throw away a run of `schedule` that an exit has begun, and finds everything
the next one needs as it was.
-/
namespace ToyOS.Threads.Exits
open ToyOS.Threads.Queue ToyOS.Lib.Runs ToyOS.Threads.Preemption
open ToyOS.Threads.Scheduler (ThreadState STACK_SIZE TCB_SIZE tcbPtr slotOf)
open ToyOS.Threads.Bookkeeping (Slot contents contents_eq)

/-- `made`, `aimed` and `filled` are the stages of a thread that the thread of slot
`t` creates: its slot is marked, has a stack pointer, and has an entry on its stack. -/
inductive Place where
  | free
  | made (t : Nat)
  | aimed (t : Nat)
  | filled (t : Nat)
  | queued
  | loose

/-- The thread that is at work on a slot. -/
def Place.owner : Place → Option Nat
  | .made t | .aimed t | .filled t => some t
  | .free | .queued | .loose => none

variable {s s' : State} {n i j t : Nat} {l l' : List Nat} {place place' : Nat → Place} {p : Pos}
variable {log : List Event} {x : Place} {q : FifoQueue}

/-! ## The log -/

@[simp] theorem retired_created : Retired i (.created j :: log) ↔ j ≠ i ∧ Retired i log := Iff.rfl
@[simp] theorem retired_freed : Retired i (.freed j :: log) ↔ j = i ∨ Retired i log := Iff.rfl
@[simp] theorem retired_queued : Retired i (.queued j :: log) ↔ Retired i log := Iff.rfl
@[simp] theorem retired_dispatched : Retired i (.dispatched j :: log) ↔ Retired i log := Iff.rfl
@[simp] theorem retired_saved {esp : StackPtr} :
    Retired i (.saved j esp :: log) ↔ Retired i log := Iff.rfl

theorem lastSaved_self {esp : StackPtr} : lastSaved i (.saved i esp :: log) = some esp := if_pos rfl

theorem lastSaved_other {esp : StackPtr} (h : j ≠ i) :
    lastSaved i (.saved j esp :: log) = lastSaved i log := if_neg h

/-! ## The invariant -/

/-- Where the thread of slot `t` may be switched away from, with what must be as it
was when it goes on. -/
def Parked (n : Nat) (place : Nat → Place) (t : Nat) : Pos → Prop
  | .code => True
  | .scan _ i => 1 ≤ i ∧ i ≤ n
  | .setStack _ i _ | .pushFinish _ i | .setEsp _ i => Slot n i ∧ place i = .made t
  | .pushEntry _ i => Slot n i ∧ place i = .aimed t
  | .addTest .create i | .addStore .create i => Slot n i ∧ place i = .filled t
  | .setEmpty => t ≠ 0
  | _ => False

/-- The stack pointer of slot `i` is the one stored last, and on its own stack leads to
an entry or to a context that can go on. -/
structure Saved (n : Nat) (place : Nat → Place) (s : State) (i : Nat) : Prop where
  last : lastSaved i s.log = some (s.threadPool i).esp
  home : (s.threadPool i).esp.slot = i
  frame : (∃ f, s.frames (s.threadPool i).esp = .entry f) ∨
    ∃ p, s.frames (s.threadPool i).esp = .context p ∧ Parked n place i p

/-- The slot is as its place says. -/
structure Fits (n : Nat) (place : Nat → Place) (s : State) (i : Nat) : Prop where
  id : (s.threadPool i).TID = i
  empty : (s.threadPool i).state = .empty ↔ place i = .free
  saved : place i = .queued ∨ (∃ t, place i = .filled t) → Saved n place s i
  aimed : ∀ t, place i = .aimed t →
    lastSaved i s.log = some (entryWord i) ∧ (s.threadPool i).esp = entryWord i
  ready : (s.threadPool i).state = .ready → lastSaved i s.log = some (s.threadPool i).esp
  retired : Retired i s.log → place i = .free

/-- The ready queue holds `l`, the slots whose place is `queued`. -/
structure Lined (n : Nat) (place : Nat → Place) (l : List Nat) (q : FifoQueue) : Prop where
  queue : Represents q n l
  nodup : l.Nodup
  mem : ∀ x, x ∈ l ↔ ∃ i, Slot n i ∧ x = tcbPtr i ∧ place i = .queued

/-- What holds of slots, queue and log at every statement. -/
structure Base (n : Nat) (place : Nat → Place) (l : List Nat) (s : State) : Prop where
  pos : 1 ≤ n
  size : s.poolSize = n
  lined : Lined n place l s.readyQueue
  orderly : Orderly s.log
  main : place 0 = .loose
  stays : ¬ Retired 0 s.log
  fits : ∀ i, Slot n i → Fits n place s i

/-- The thread `self` runs on its own stack. -/
structure Runs (n : Nat) (place : Nat → Place) (s : State) : Prop where
  tid : s.currentTid = s.self
  ptr : s.ptrCurrentEsp = s.self
  stack : s.stack = s.self
  thread : s.self = 0 ∨ Slot n s.self
  loose : place s.self = .loose
  main : s.self ≠ 0 → Saved n place s 0

/-- `schedule` runs. Interrupts are on only behind an exit: then a stash would go to the
slot that has become free. -/
structure Switching (n : Nat) (place : Nat → Place) (s : State) : Prop where
  main : Saved n place s 0
  exit : s.interrupts = true → Slot n s.self ∧ place s.self = .free ∧ s.ptrCurrentEsp = s.self ∧
    (s.stack = 0 ∨ s.stack = s.self)

/-- A thread that neither runs nor is in the queue, and can go on. -/
structure Held (n : Nat) (place : Nat → Place) (s : State) (i : Nat) : Prop where
  slot : Slot n i
  loose : place i = .loose
  saved : Saved n place s i

/-- Behind an exit no thread is current. -/
def Vacant (s : State) : Prop := s.interrupts = true → s.currentTid = 0

/-- What else holds before each statement. -/
def At (n : Nat) (place : Nat → Place) (l : List Nat) (s : State) : Pos → Prop
  | .allocate _ i | .setNew _ i _ => Runs n place s ∧ Slot n i ∧ place i = .free
  | .addTail .create i => Runs n place s ∧ Slot n i ∧ place i = .filled s.self ∧
      s.readyQueue.elements s.readyQueue.tail = tcbPtr i
  | .free | .clearTid => Switching n place s ∧ Slot n s.self ∧ place s.self = .free ∧
      s.ptrCurrentEsp = s.self ∧ s.stack = s.self ∧ s.currentTid = s.self
  | .trap | .testTid => Switching n place s ∧
      (s.currentTid = 0 ∨ s.interrupts = false ∧ Held n place s s.currentTid)
  | .setReady => Switching n place s ∧ s.interrupts = false ∧ Held n place s s.currentTid
  | .addTest .schedule i | .addStore .schedule i =>
    Switching n place s ∧ s.interrupts = false ∧ Held n place s i
  | .addTail .schedule i => Switching n place s ∧ s.interrupts = false ∧ Held n place s i ∧
      s.readyQueue.elements s.readyQueue.tail = tcbPtr i
  | .pollTest | .mainTid => Switching n place s ∧ Vacant s
  | .pollTake => Switching n place s ∧ Vacant s ∧ l ≠ []
  | .pollHead x => Switching n place s ∧ Vacant s ∧ l.head? = some x
  | .testThread x => Switching n place s ∧ Vacant s ∧ (x ≠ 0 → Held n place s (slotOf x))
  | .mainPtr => Switching n place s ∧ s.currentTid = 0
  | .readState i | .setRunning i _ | .setTid i _ =>
    Switching n place s ∧ Vacant s ∧ Held n place s i
  | .setPtr i _ => Switching n place s ∧ s.currentTid = i ∧ Held n place s i
  | .choose _ | .start | .resume => Saved n place s 0 ∧ s.ptrCurrentEsp = s.currentTid ∧
      (s.currentTid = 0 ∨ Held n place s s.currentTid)
  | .lost => s.self ≠ 0 → Saved n place s 0
  | p => Runs n place s ∧ Parked n place s.self p

def Inv (n : Nat) (s : State) : Prop := ∃ place l, Base n place l s ∧ At n place l s s.pos

/-! ## What a change of one slot keeps -/

/-- Slot `i` alone has changed, and no frame that another one has saved. -/
structure Only (i : Nat) (s s' : State) : Prop where
  size : s'.poolSize = s.poolSize
  thread : ∀ j, j ≠ i → s'.threadPool j = s.threadPool j
  frames : ∀ j, j ≠ i → (s.threadPool j).esp.slot = j →
    s'.frames (s.threadPool j).esp = s.frames (s.threadPool j).esp
  saved : ∀ j, j ≠ i → lastSaved j s'.log = lastSaved j s.log
  retired : ∀ j, j ≠ i → (Retired j s'.log ↔ Retired j s.log)

/-- Slot `i` alone has a new place, which breaks in on nobody but its owner. -/
structure Moves (n : Nat) (place place' : Nat → Place) (i : Nat) : Prop where
  other : ∀ j, j ≠ i → place' j = place j
  parked : ∀ j p, (place i).owner ≠ some j → Parked n place j p → Parked n place' j p

/-- `self` and the registers are as before. -/
structure Still (s s' : State) : Prop where
  tid : s'.currentTid = s.currentTid
  ptr : s'.ptrCurrentEsp = s.ptrCurrentEsp
  stack : s'.stack = s.stack
  self : s'.self = s.self
  interrupts : s'.interrupts = s.interrupts

theorem Parked.move (h : Parked n place t p) (ho : (place i).owner ≠ some t) :
    Parked n (Function.update place i x) t p := by
  have hkeep : ∀ j y, place j = y → y.owner = some t → Function.update place i x j = y := by
    intro j y hj hy
    have hne : j ≠ i := fun e => ho (by rw [← e, hj, hy])
    rw [Function.update_of_ne hne, hj]
  cases p with
  | setStack | pushFinish | setEsp | pushEntry => exact ⟨h.1, hkeep _ _ h.2 rfl⟩
  | addTest c | addStore c =>
    cases c with
    | create => exact ⟨h.1, hkeep _ _ h.2 rfl⟩
    | schedule => exact h
  | _ => exact h

theorem moves_refl : Moves n place place i := ⟨fun _ _ => rfl, fun _ _ _ h => h⟩

theorem moves_update : Moves n place (Function.update place i x) i :=
  ⟨fun _ hj => Function.update_of_ne hj _ _, fun _ _ ho h => h.move ho⟩

theorem Saved.transport (h : Saved n place s j)
    (ht : (s'.threadPool j).esp = (s.threadPool j).esp)
    (hf : s'.frames (s.threadPool j).esp = s.frames (s.threadPool j).esp)
    (hl : lastSaved j s'.log = lastSaved j s.log)
    (hp : ∀ p, Parked n place j p → Parked n place' j p) : Saved n place' s' j := by
  refine ⟨by rw [hl, ht, h.last], by rw [ht, h.home], ?_⟩
  rw [ht, hf]
  rcases h.frame with hentry | ⟨p, hc, hparked⟩
  · exact .inl hentry
  · exact .inr ⟨p, hc, hp p hparked⟩

theorem Saved.only (h : Saved n place s j) (ho : Only i s s') (hj : j ≠ i)
    (hp : ∀ p, Parked n place j p → Parked n place' j p) : Saved n place' s' j :=
  h.transport (by rw [ho.thread j hj]) (ho.frames j hj h.home) (ho.saved j hj) hp

theorem Fits.only (h : Fits n place s j) (ho : Only i s s') (hm : Moves n place place' i)
    (hj : j ≠ i) (howner : (place i).owner = some j → place j = .loose) : Fits n place' s' j := by
  rw [← hm.other j hj] at howner
  refine ⟨?_, ?_, fun hplace => ?_, fun t ht => ?_, ?_, ?_⟩
  · rw [ho.thread j hj]
    exact h.id
  · rw [ho.thread j hj, hm.other j hj]
    exact h.empty
  · have hne : (place i).owner ≠ some j := fun e => by
      rw [howner e] at hplace
      rcases hplace with h | ⟨t, h⟩ <;> cases h
    rw [hm.other j hj] at hplace
    exact (h.saved hplace).only ho hj fun p => hm.parked j p hne
  · rw [hm.other j hj] at ht
    rw [ho.saved j hj, ho.thread j hj]
    exact h.aimed t ht
  · rw [ho.saved j hj, ho.thread j hj]
    exact h.ready
  · rw [ho.retired j hj, hm.other j hj]
    exact h.retired

theorem Base.change (h : Base n place l s) (ho : Only i s s') (hm : Moves n place place' i)
    (howner : ∀ t, (place i).owner = some t → place t = .loose) (hmain : place' 0 = .loose)
    (hlined : Lined n place' l' s'.readyQueue) (hlog : Orderly s'.log)
    (hstays : ¬ Retired 0 s'.log) (hfits : Slot n i → Fits n place' s' i) : Base n place' l' s' := by
  refine ⟨h.pos, by rw [ho.size, h.size], hlined, hlog, hmain, hstays, fun j hj => ?_⟩
  by_cases hji : j = i
  · subst hji
    exact hfits hj
  · exact (h.fits j hj).only ho hm hji (howner j)

theorem Held.only (h : Held n place s j) (ho : Only i s s') (hm : Moves n place place' i)
    (hj : j ≠ i) (howner : (place i).owner ≠ some j) : Held n place' s' j :=
  ⟨h.slot, by rw [hm.other j hj, h.loose], h.saved.only ho hj fun p => hm.parked j p howner⟩

theorem Runs.only (h : Runs n place s) (hs : Still s s') (ho : Only i s s')
    (hm : Moves n place place' i) (hi : i ≠ 0) (hloose : place i ≠ .loose)
    (howner : ∀ t, (place i).owner = some t → t = s.self) : Runs n place' s' := by
  have hself : s.self ≠ i := fun e => hloose (by rw [← e, h.loose])
  refine ⟨by rw [hs.tid, hs.self, h.tid], by rw [hs.ptr, hs.self, h.ptr],
    by rw [hs.stack, hs.self, h.stack], by rw [hs.self]; exact h.thread,
    by rw [hs.self, hm.other _ hself, h.loose], fun hne => ?_⟩
  rw [hs.self] at hne
  exact (h.main hne).only ho hi.symm fun p => hm.parked 0 p fun e => hne (howner 0 e).symm

theorem Switching.only (h : Switching n place s) (hs : Still s s') (ho : Only i s s')
    (hm : Moves n place place' i) (hi : i ≠ 0) (hfree : place i ≠ .free)
    (howner : (place i).owner = none) : Switching n place' s' := by
  refine ⟨h.main.only ho hi.symm fun p => hm.parked 0 p (by rw [howner]; exact nofun), fun hon => ?_⟩
  rw [hs.interrupts] at hon
  obtain ⟨hslot, hplace, hptr, hstack⟩ := h.exit hon
  have hself : s.self ≠ i := fun e => hfree (by rw [← e, hplace])
  rw [hs.self, hs.ptr, hs.stack, hm.other _ hself]
  exact ⟨hslot, hplace, hptr, hstack⟩

/-! ## Steps between positions -/

/-- The same tables and log. -/
structure Same (s s' : State) : Prop where
  pool : s'.threadPool = s.threadPool
  size : s'.poolSize = s.poolSize
  frames : s'.frames = s.frames
  log : s'.log = s.log

theorem Saved.same (h : Saved n place s i) (e : Same s s') : Saved n place s' i :=
  h.transport (by rw [e.pool]) (by rw [e.frames]) (by rw [e.log]) fun _ hp => hp

theorem Held.same (h : Held n place s i) (e : Same s s') : Held n place s' i :=
  ⟨h.slot, h.loose, h.saved.same e⟩

theorem Base.same (h : Base n place l s) (e : Same s s') (hlined : Lined n place l' s'.readyQueue) :
    Base n place l' s' := by
  refine ⟨h.pos, by rw [e.size, h.size], hlined, by rw [e.log]; exact h.orderly, h.main,
    by rw [e.log]; exact h.stays, fun i hi => ?_⟩
  have hf := h.fits i hi
  refine ⟨by rw [e.pool, hf.id], by rw [e.pool, hf.empty], fun hp => (hf.saved hp).same e,
    fun t ht => ?_, ?_, ?_⟩
  · rw [e.log, e.pool]
    exact hf.aimed t ht
  · rw [e.log, e.pool]
    exact hf.ready
  · rw [e.log]
    exact hf.retired

theorem same_goto : Same s (s.goto p) := ⟨rfl, rfl, rfl, rfl⟩

theorem Base.goto (h : Base n place l s) : Base n place l (s.goto p) := h.same same_goto h.lined

theorem Runs.goto (h : Runs n place s) : Runs n place (s.goto p) :=
  ⟨h.tid, h.ptr, h.stack, h.thread, h.loose, fun hne => (h.main hne).same same_goto⟩

theorem Switching.same (h : Switching n place s) (e : Same s s') (hself : s'.self = s.self)
    (hptr : s'.ptrCurrentEsp = s.ptrCurrentEsp) (hstack : s'.stack = s.stack)
    (hon : s'.interrupts = s.interrupts) : Switching n place s' := by
  refine ⟨h.main.same e, ?_⟩
  rw [hself, hptr, hstack, hon]
  exact h.exit

theorem Switching.goto (h : Switching n place s) : Switching n place (s.goto p) :=
  h.same same_goto rfl rfl rfl rfl

theorem at_of_parked (hr : Runs n place s) (hp : Parked n place s.self p) : At n place l s p := by
  cases p with
  | code | scan | setStack | pushFinish | setEsp | pushEntry | setEmpty => exact ⟨hr, hp⟩
  | addTest c | addStore c =>
    cases c with
    | create => exact ⟨hr, hp⟩
    | schedule => exact hp.elim
  | _ => exact hp.elim

/-- The thread goes on at a place of its own code. -/
theorem Base.runs (h : Base n place l s) (hr : Runs n place s) (hp : Parked n place s.self p) :
    Inv n (s.goto p) :=
  ⟨place, l, h.goto, at_of_parked hr.goto hp⟩

/-! ## The queue -/

theorem Lined.move (h : Lined n place l q) (hm : Moves n place place' i) (ha : place i ≠ .queued)
    (hb : place' i ≠ .queued) : Lined n place' l q := by
  refine ⟨h.queue, h.nodup, fun x => ?_⟩
  rw [h.mem]
  refine exists_congr fun j => and_congr_right fun _ => and_congr_right fun _ => ?_
  by_cases hj : j = i
  · rw [hj]
    exact iff_of_false ha hb
  · rw [hm.other j hj]

/-- The queue never holds all the slots. -/
theorem Lined.room (h : Lined n place l q) (hn : 1 ≤ n) : l.length < n := by
  have hsub : ∀ x ∈ l, ∃ i, Slot n i ∧ x = tcbPtr i := fun x hx => by
    obtain ⟨i, hi, e, -⟩ := (h.mem x).mp hx
    exact ⟨i, hi, e⟩
  exact Bookkeeping.length_lt_of_slots h.nodup hsub hn

theorem Lined.not_full (h : Lined n place l q) (hn : 1 ≤ n) : queueIsFull q = 0 := by
  have hroom := h.room hn
  rw [h.queue.full, if_neg (by omega)]

theorem Lined.push (h : Lined n place l q) (hn : 1 ≤ n) (hi : Slot n i) (hplace : place i ≠ .queued)
    (hx : q.elements q.tail = tcbPtr i) :
    Lined n (Function.update place i .queued) (l ++ [tcbPtr i])
      { q with tail := u32 (q.tail + 1) % q.size } := by
  have hnot : tcbPtr i ∉ l := fun hmem => by
    obtain ⟨j, -, e, hj⟩ := (h.mem _).mp hmem
    obtain rfl : i = j := Nat.succ.inj e
    exact hplace hj
  refine ⟨h.queue.advance (h.room hn) hx, ?_, fun x => ?_⟩
  · refine List.nodup_append.mpr ⟨h.nodup, List.nodup_singleton _, fun a ha b hb e => ?_⟩
    rw [e, List.mem_singleton.mp hb] at ha
    exact hnot ha
  · rw [List.mem_append, List.mem_singleton, h.mem]
    constructor
    · intro hx
      rcases hx with ⟨j, hj, e, hq⟩ | e
      · have hne : j ≠ i := fun e => hplace (by rw [← e, hq])
        exact ⟨j, hj, e, by rw [Function.update_of_ne hne, hq]⟩
      · exact ⟨i, hi, e, Function.update_self ..⟩
    · intro hx
      obtain ⟨j, hj, e, hq⟩ := hx
      by_cases hne : j = i
      · exact .inr (by rw [e, hne])
      · exact .inl ⟨j, hj, e, by rwa [Function.update_of_ne hne] at hq⟩

theorem Lined.pop {x : Nat} (h : Lined n place (x :: l) q) : q.elements q.head = x ∧
    ∃ i, Slot n i ∧ x = tcbPtr i ∧ place i = .queued ∧
      Lined n (Function.update place i .loose) l { q with head := u32 (q.head + 1) % q.size } := by
  obtain ⟨hx, hqueue⟩ := h.queue.behead
  obtain ⟨i, hi, rfl, hplace⟩ := (h.mem x).mp List.mem_cons_self
  obtain ⟨hnot, hnodup⟩ := List.nodup_cons.mp h.nodup
  refine ⟨hx, i, hi, rfl, hplace, hqueue, hnodup, fun y => ?_⟩
  constructor
  · intro hy
    obtain ⟨j, hj, e, hq⟩ := (h.mem y).mp (List.mem_cons_of_mem _ hy)
    have hne : j ≠ i := by
      rintro rfl
      exact hnot (e ▸ hy)
    exact ⟨j, hj, e, by rw [Function.update_of_ne hne, hq]⟩
  · intro hy
    obtain ⟨j, hj, e, hq⟩ := hy
    have hne : j ≠ i := by
      rintro rfl
      rw [Function.update_self] at hq
      cases hq
    rw [Function.update_of_ne hne] at hq
    rcases List.mem_cons.mp ((h.mem y).mpr ⟨j, hj, e, hq⟩) with hy | hy
    · rw [e] at hy
      exact absurd (Nat.succ.inj hy) hne
    · exact hy

/-! ## `thread_create` -/

/-- A slot in use, whose thread waits for nothing unless its place says so. -/
theorem fits_busy (hplace : place i = x) (hx : x ≠ .free) (hid : (s.threadPool i).TID = i)
    (hstate : (s.threadPool i).state ≠ .empty) (hretired : ¬ Retired i s.log)
    (hready : (s.threadPool i).state = .ready → lastSaved i s.log = some (s.threadPool i).esp)
    (hsaved : x = .queued ∨ (∃ t, x = .filled t) → Saved n place s i)
    (haimed : ∀ t, x = .aimed t →
      lastSaved i s.log = some (entryWord i) ∧ (s.threadPool i).esp = entryWord i) :
    Fits n place s i := by
  subst hplace
  exact ⟨hid, iff_of_false hstate hx, hsaved, haimed, hready, fun h => absurd h hretired⟩

theorem Fits.busy (h : Fits n place s i) (hx : place i ≠ .free) :
    (s.threadPool i).state ≠ .empty ∧ ¬ Retired i s.log :=
  ⟨fun e => hx (h.empty.mp e), fun e => hx (h.retired e)⟩

/-- A statement of `thread_create` about its slot takes it to the stage `x`. -/
theorem Base.stage (h : Base n place l s) (hr : Runs n place s) (hi : Slot n i)
    (hloose : place i ≠ .loose) (hqueued : place i ≠ .queued) (hx : x ≠ .queued)
    (howner : ∀ t, (place i).owner = some t → t = s.self) (ho : Only i s s') (hs : Still s s')
    (hq : s'.readyQueue = s.readyQueue) (hlog : Orderly s'.log)
    (hfits : Fits n (Function.update place i x) s' i) :
    Base n (Function.update place i x) l s' ∧ Runs n (Function.update place i x) s' := by
  have hi0 : i ≠ 0 := Nat.one_le_iff_ne_zero.mp hi.1
  refine ⟨h.change ho moves_update (fun t ht => ?_) ?_ ?_ hlog ?_ fun _ => hfits,
    hr.only hs ho moves_update hi0 hloose howner⟩
  · rw [howner t ht, hr.loose]
  · rw [Function.update_of_ne hi0.symm, h.main]
  · rw [hq]
    exact h.lined.move moves_update hqueued (by rwa [Function.update_self])
  · rw [ho.retired 0 hi0.symm]
    exact h.stays

theorem only_setThread {u : Tcb} : Only i s (s.setThread i u) :=
  ⟨rfl, fun _ hj => Function.update_of_ne hj _ _, fun _ _ _ => rfl, fun _ _ => rfl, fun _ _ => Iff.rfl⟩

theorem only_note_setThread {u : Tcb} {e : Event} (hsaved : ∀ j, j ≠ i → lastSaved j (e :: s.log) = lastSaved j s.log)
    (hretired : ∀ j, j ≠ i → (Retired j (e :: s.log) ↔ Retired j s.log)) :
    Only i s ((s.setThread i u).note e) :=
  ⟨rfl, fun _ hj => Function.update_of_ne hj _ _, fun _ _ _ => rfl, hsaved, hretired⟩

theorem only_push {a : StackPtr} {f : Frame} : Only a.slot s (s.push a f) := by
  refine ⟨rfl, fun _ _ => rfl, fun j hj hhome => ?_, fun _ _ => rfl, fun _ _ => Iff.rfl⟩
  refine Function.update_of_ne (fun e => hj ?_) _ _
  rw [← e, hhome]

theorem setNew_inv {f stack : Nat} (h : Base n place l s) (hr : Runs n place s) (hi : Slot n i)
    (hplace : place i = .free) : Inv n (exec s (.setNew f i stack)) := by
  have hf := h.fits i hi
  have hfits : Fits n (Function.update place i (.made s.self))
      ((s.setThread i { s.threadPool i with state := .new }).note (.created i)) i := by
    refine fits_busy (Function.update_self ..) (by simp) ?_ ?_ (by simp [State.note]) ?_ (by simp) (by simp)
    · simpa [State.note, State.setThread] using hf.id
    · simp [State.note, State.setThread]
    · simp [State.note, State.setThread]
  have hlog : Orderly (.created i :: s.log) := ⟨trivial, h.orderly⟩
  obtain ⟨hbase, hruns⟩ := h.stage hr hi (by simp [hplace]) (by simp [hplace]) (by simp)
    (by simp [hplace, Place.owner])
    (only_note_setThread (fun _ _ => rfl) fun j hj => by simp [hj.symm]) ⟨rfl, rfl, rfl, rfl, rfl⟩ rfl
    hlog hfits
  exact hbase.runs hruns ⟨hi, Function.update_self ..⟩

/-- The two statements between the mark and the stack pointer. -/
theorem made_inv (h : Base n place l s) (hr : Runs n place s) (hi : Slot n i)
    (hplace : place i = .made s.self) (ho : Only i s s') (hs : Still s s')
    (hq : s'.readyQueue = s.readyQueue) (hlog : s'.log = s.log)
    (hid : (s'.threadPool i).TID = (s.threadPool i).TID)
    (hstate : (s'.threadPool i).state = (s.threadPool i).state)
    (hesp : (s'.threadPool i).esp = (s.threadPool i).esp)
    (hp : ∀ place : Nat → Place, place i = .made s'.self → Parked n place s'.self p) :
    Inv n (s'.goto p) := by
  have hf := h.fits i hi
  obtain ⟨hstate', hretired⟩ := hf.busy (by simp [hplace])
  obtain ⟨hbase, hruns⟩ := h.stage (x := .made s.self) hr hi (by simp [hplace]) (by simp [hplace])
    (by simp) (by simp [hplace, Place.owner]) ho hs hq (by rw [hlog]; exact h.orderly)
    (fits_busy (Function.update_self ..) (by simp) (by rw [hid, hf.id]) (by rwa [hstate])
      (by rwa [hlog]) (by rw [hstate, hlog, hesp]; exact hf.ready) (by simp) (by simp))
  refine hbase.runs hruns (hp _ ?_)
  rw [Function.update_self, hs.self]

theorem setEsp_inv {f : Nat} (h : Base n place l s) (hr : Runs n place s) (hi : Slot n i)
    (hplace : place i = .made s.self) : Inv n (exec s (.setEsp f i)) := by
  have hf := h.fits i hi
  obtain ⟨hstate, hretired⟩ := hf.busy (by simp [hplace])
  have hfits : Fits n (Function.update place i (.aimed s.self))
      ((s.setThread i { s.threadPool i with esp := entryWord i }).note (.saved i (entryWord i))) i := by
    refine fits_busy (Function.update_self ..) (by simp) ?_ ?_ hretired (fun _ => ?_) (by simp) fun _ _ => ?_
    · simpa [State.note, State.setThread] using hf.id
    · simpa [State.note, State.setThread] using hstate
    · simp [State.note, State.setThread, lastSaved_self]
    · simp [State.note, State.setThread, lastSaved_self]
  obtain ⟨hbase, hruns⟩ := h.stage hr hi (by simp [hplace]) (by simp [hplace]) (by simp)
    (by simp [hplace, Place.owner])
    (only_note_setThread (fun j hj => lastSaved_other hj.symm) fun _ _ => Iff.rfl)
    ⟨rfl, rfl, rfl, rfl, rfl⟩ rfl ⟨trivial, h.orderly⟩ hfits
  exact hbase.runs hruns ⟨hi, Function.update_self ..⟩

theorem pushEntry_inv {f : Nat} (h : Base n place l s) (hr : Runs n place s) (hi : Slot n i)
    (hplace : place i = .aimed s.self) : Inv n (exec s (.pushEntry f i)) := by
  have hf := h.fits i hi
  obtain ⟨hstate, hretired⟩ := hf.busy (by simp [hplace])
  obtain ⟨hlast, hesp⟩ := hf.aimed _ hplace
  have hsaved : Saved n (Function.update place i (.filled s.self)) (s.push (entryWord i) (.entry f)) i := by
    refine ⟨hlast.trans (congrArg some hesp.symm), congrArg StackPtr.slot hesp, .inl ⟨f, ?_⟩⟩
    show Function.update s.frames (entryWord i) (.entry f) (s.threadPool i).esp = _
    rw [hesp, Function.update_self]
  obtain ⟨hbase, hruns⟩ := h.stage hr hi (by simp [hplace]) (by simp [hplace]) (by simp)
    (by simp [hplace, Place.owner]) (only_push (a := entryWord i)) ⟨rfl, rfl, rfl, rfl, rfl⟩ rfl h.orderly
    (fits_busy (Function.update_self ..) (by simp) hf.id hstate hretired hf.ready (fun _ => hsaved) (by simp))
  exact hbase.runs hruns ⟨hi, Function.update_self ..⟩

/-- `add` by `thread_create`: the slot of the new thread goes into the queue. -/
theorem created_inv (h : Base n place l s) (hr : Runs n place s) (hi : Slot n i)
    (hplace : place i = .filled s.self) (hx : s.readyQueue.elements s.readyQueue.tail = tcbPtr i) :
    Inv n (exec s (.addTail .create i)) := by
  have hf := h.fits i hi
  have hi0 : i ≠ 0 := Nat.one_le_iff_ne_zero.mp hi.1
  obtain ⟨hstate, hretired⟩ := hf.busy (by simp [hplace])
  have howner : ∀ t, (place i).owner = some t → t = s.self := by simp [hplace, Place.owner]
  have hne : (place i).owner ≠ some i := fun e => by
    have hloose := hr.loose
    rw [← howner i e, hplace] at hloose
    cases hloose
  have honly : Only i s (exec s (.addTail .create i)) :=
    ⟨rfl, fun _ _ => rfl, fun _ _ _ => rfl, fun _ _ => rfl, fun _ _ => Iff.rfl⟩
  have hsaved : Saved n (Function.update place i .queued) (exec s (.addTail .create i)) i :=
    (hf.saved (.inr ⟨_, hplace⟩)).transport rfl rfl rfl fun p hp => hp.move hne
  have hbase : Base n (Function.update place i .queued) (l ++ [tcbPtr i]) (exec s (.addTail .create i)) := by
    refine h.change honly moves_update (fun t ht => ?_) ?_ ?_ ⟨hretired, h.orderly⟩ h.stays fun _ => ?_
    · rw [howner t ht, hr.loose]
    · rw [Function.update_of_ne hi0.symm, h.main]
    · exact h.lined.push h.pos hi (by simp [hplace]) hx
    · exact fits_busy (Function.update_self ..) (by simp) hf.id hstate hretired hf.ready (fun _ => hsaved)
        (by simp)
  exact ⟨_, _, hbase, hr.only ⟨rfl, rfl, rfl, rfl, rfl⟩ honly moves_update hi0 (by simp [hplace]) howner,
    trivial⟩

/-! ## `schedule` -/

theorem Held.mark (h : Base n place l s) (hh : Held n place s i) (state : ThreadState)
    (hstate : state ≠ .empty) :
    Base n place l (s.setThread i { s.threadPool i with state := state }) ∧
      Held n place (s.setThread i { s.threadPool i with state := state }) i := by
  have hf := h.fits i hh.slot
  obtain ⟨-, hretired⟩ := hf.busy (by simp [hh.loose])
  have hself : (s.setThread i { s.threadPool i with state := state }).threadPool i =
      { s.threadPool i with state := state } := Function.update_self ..
  have hsaved : Saved n place (s.setThread i { s.threadPool i with state := state }) i :=
    hh.saved.transport (by rw [hself]) rfl rfl fun _ hp => hp
  refine ⟨h.change only_setThread moves_refl (by simp [hh.loose, Place.owner]) h.main h.lined h.orderly h.stays
    fun _ => ?_, hh.slot, hh.loose, hsaved⟩
  exact fits_busy hh.loose (by simp) (by rw [hself]; exact hf.id) (by rw [hself]; exact hstate) hretired
    (fun _ => hsaved.last) (by simp) (by simp)

theorem Switching.mark {u : Tcb} (h : Switching n place s) (hh : Held n place s i) :
    Switching n place (s.setThread i u) :=
  h.only ⟨rfl, rfl, rfl, rfl, rfl⟩ only_setThread moves_refl (Nat.one_le_iff_ne_zero.mp hh.slot.1)
    (by simp [hh.loose]) (by simp [hh.loose, Place.owner])

theorem Held.goto (h : Held n place s i) : Held n place (s.goto p) i := h.same same_goto

/-- `add` by `schedule`. -/
theorem requeued_inv (h : Base n place l s) (hs : Switching n place s) (hoff : s.interrupts = false)
    (hh : Held n place s i) (hx : s.readyQueue.elements s.readyQueue.tail = tcbPtr i) :
    Inv n (exec s (.addTail .schedule i)) := by
  have hf := h.fits i hh.slot
  have hi0 : i ≠ 0 := Nat.one_le_iff_ne_zero.mp hh.slot.1
  obtain ⟨hstate, hretired⟩ := hf.busy (by simp [hh.loose])
  have hnone : (place i).owner = none := by simp [hh.loose, Place.owner]
  have honly : Only i s (exec s (.addTail .schedule i)) :=
    ⟨rfl, fun _ _ => rfl, fun _ _ _ => rfl, fun _ _ => rfl, fun _ _ => Iff.rfl⟩
  have hsaved : Saved n (Function.update place i .queued) (exec s (.addTail .schedule i)) i :=
    hh.saved.transport rfl rfl rfl fun p hp => hp.move (by simp [hnone])
  have hbase : Base n (Function.update place i .queued) (l ++ [tcbPtr i]) (exec s (.addTail .schedule i)) := by
    refine h.change honly moves_update (by simp [hnone]) ?_ ?_ ⟨hretired, h.orderly⟩ h.stays fun _ => ?_
    · rw [Function.update_of_ne hi0.symm, h.main]
    · exact h.lined.push h.pos hh.slot (by simp [hh.loose]) hx
    · exact fits_busy (Function.update_self ..) (by simp) hf.id hstate hretired hf.ready (fun _ => hsaved)
        (by simp)
  refine ⟨_, _, hbase, hs.only ⟨rfl, rfl, rfl, rfl, rfl⟩ honly moves_update hi0 (by simp [hh.loose]) hnone,
    fun hon => ?_⟩
  cases hoff.symm.trans hon

/-- `poll` takes the first slot of the queue out. -/
theorem polled_inv {x : Nat} (h : Base n place (x :: l) s) (hs : Switching n place s) (hv : Vacant s) :
    Inv n (exec s (.pollHead x)) := by
  obtain ⟨-, i, hi, rfl, hplace, hlined⟩ := h.lined.pop
  have hf := h.fits i hi
  have hi0 : i ≠ 0 := Nat.one_le_iff_ne_zero.mp hi.1
  obtain ⟨hstate, hretired⟩ := hf.busy (by simp [hplace])
  have hnone : (place i).owner = none := by simp [hplace, Place.owner]
  have honly : Only i s (exec s (.pollHead (tcbPtr i))) :=
    ⟨rfl, fun _ _ => rfl, fun _ _ _ => rfl, fun _ _ => rfl, fun _ _ => Iff.rfl⟩
  have hsaved : Saved n (Function.update place i .loose) (exec s (.pollHead (tcbPtr i))) i :=
    (hf.saved (.inl hplace)).transport rfl rfl rfl fun p hp => hp.move (by simp [hnone])
  have hbase : Base n (Function.update place i .loose) l (exec s (.pollHead (tcbPtr i))) := by
    refine h.change honly moves_update (by simp [hnone]) ?_ hlined h.orderly h.stays fun _ => ?_
    · rw [Function.update_of_ne hi0.symm, h.main]
    · exact fits_busy (Function.update_self ..) (by simp) hf.id hstate hretired hf.ready (by simp) (by simp)
  exact ⟨_, _, hbase, hs.only ⟨rfl, rfl, rfl, rfl, rfl⟩ honly moves_update hi0 (by simp [hplace]) hnone, hv,
    fun _ => ⟨hi, Function.update_self .., hsaved⟩⟩

theorem trap_inv (h : Base n place l s) (hs : Switching n place s)
    (hc : s.currentTid = 0 ∨ s.interrupts = false ∧ Held n place s s.currentTid) : Inv n (trap s) := by
  have hnone : (place 0).owner = none := by simp [h.main, Place.owner]
  have honly : Only 0 s (trap s) := by
    refine ⟨rfl, fun _ _ => rfl, fun j hj hhome => ?_, fun _ _ => rfl, fun _ _ => Iff.rfl⟩
    refine if_neg fun e => hj ?_
    rw [← hhome, e.1, hs.main.home]
  have hmain : Saved n place (trap s) 0 :=
    hs.main.transport rfl (if_neg fun e => absurd e.2 (Nat.lt_irrefl _)) rfl fun _ hp => hp
  refine ⟨place, l, h.change honly moves_refl (by simp [hnone]) h.main h.lined h.orderly h.stays
    fun hi => absurd hi.1 (by decide), ⟨hmain, fun hon => ?_⟩, ?_⟩
  · obtain ⟨hslot, hplace, hptr, -⟩ := hs.exit hon
    exact ⟨hslot, hplace, hptr, .inl hs.main.home⟩
  · rcases hc with hc | ⟨hoff, hc⟩
    · exact .inl hc
    · exact .inr ⟨hoff, hc.only honly moves_refl (Nat.one_le_iff_ne_zero.mp hc.slot.1) (by simp [hnone])⟩

/-- What `start` and `resume` load is the frame of the thread that runs from then on. -/
theorem load_runs (h : Base n place l s) (hmain : Saved n place s 0)
    (hptr : s.ptrCurrentEsp = s.currentTid) (hc : s.currentTid = 0 ∨ Held n place s s.currentTid) :
    Base n place l (load s) ∧ Runs n place (load s) ∧
      ((∃ f, top s = .entry f) ∨ ∃ p, top s = .context p ∧ Parked n place (load s).self p) := by
  have hsaved : Saved n place s s.currentTid := by
    rcases hc with hc | hc
    · rwa [hc]
    · exact hc.saved
  have hloose : place s.currentTid = .loose := by
    rcases hc with hc | hc
    · rw [hc, h.main]
    · exact hc.loose
  have hself : (load s).self = s.currentTid := by
    show (s.threadPool s.ptrCurrentEsp).esp.slot = _
    rw [hptr, hsaved.home]
  have hnone : (place s.currentTid).owner = none := by simp [hloose, Place.owner]
  have honly : Only s.currentTid s (load s) := by
    refine ⟨rfl, fun _ _ => rfl, fun j hj hhome => ?_, fun _ _ => rfl, fun _ _ => Iff.rfl⟩
    refine Function.update_of_ne (fun e => hj ?_) _ _
    rw [← hhome, e]
    exact hself
  refine ⟨h.change honly moves_refl (by simp [hnone]) h.main h.lined ⟨?_, h.orderly⟩ h.stays fun hi => ?_, ?_, ?_⟩
  · intro hretired
    rw [hptr] at hretired
    rcases hc with hc | hc
    · rw [hc] at hretired
      exact h.stays hretired
    · exact ((h.fits _ hc.slot).busy (by simp [hloose])).2 hretired
  · have hf := h.fits _ hi
    obtain ⟨hstate, hretired⟩ := hf.busy (by simp [hloose])
    exact fits_busy hloose (by simp) hf.id hstate hretired hf.ready (by simp) (by simp)
  · refine ⟨hself.symm, by rw [hself, ← hptr]; rfl, rfl, ?_, by rw [hself, hloose], fun hne => ?_⟩
    · rw [hself]
      exact hc.imp id Held.slot
    · rw [hself] at hne
      exact hmain.only honly hne.symm fun _ hp => hp
  · unfold top
    rw [hself, hptr]
    exact hsaved.frame

theorem start_inv (h : Base n place l s) (hmain : Saved n place s 0)
    (hptr : s.ptrCurrentEsp = s.currentTid) (hc : s.currentTid = 0 ∨ Held n place s s.currentTid) :
    Inv n (start s) := by
  obtain ⟨hbase, hruns, hframe⟩ := load_runs h hmain hptr hc
  unfold start
  rcases hframe with ⟨f, hf⟩ | ⟨p, hp, -⟩
  · rw [hf]
    exact hbase.runs hruns trivial
  · rw [hp]
    exact ⟨place, l, hbase.goto, fun hne => (hruns.main hne).same same_goto⟩

theorem resume_inv (h : Base n place l s) (hmain : Saved n place s 0)
    (hptr : s.ptrCurrentEsp = s.currentTid) (hc : s.currentTid = 0 ∨ Held n place s s.currentTid) :
    Inv n (resume s) := by
  obtain ⟨hbase, hruns, hframe⟩ := load_runs h hmain hptr hc
  unfold resume
  rcases hframe with ⟨f, hf⟩ | ⟨p, hp, hparked⟩
  · rw [hf]
    exact ⟨place, l, hbase.goto, fun hne => (hruns.main hne).same same_goto⟩
  · rw [hp]
    exact hbase.runs hruns hparked

/-! ## `finish` -/

theorem setEmpty_inv (h : Base n place l s) (hr : Runs n place s) (hne : s.self ≠ 0) :
    Inv n (exec s .setEmpty) := by
  have hslot := hr.thread.resolve_left hne
  have hf := h.fits _ hslot
  have hnone : (place s.self).owner = none := by simp [hr.loose, Place.owner]
  have honly : Only s.self s (exec s .setEmpty) := by
    refine ⟨rfl, fun j hj => ?_, fun _ _ _ => rfl, fun _ _ => rfl, fun _ _ => Iff.rfl⟩
    exact Function.update_of_ne (by rwa [hr.tid]) _ _
  have hself : (exec s .setEmpty).threadPool s.self = { s.threadPool s.self with state := .empty } := by
    show Function.update s.threadPool s.currentTid _ s.self = _
    rw [hr.tid, Function.update_self]
  have hfree : Function.update place s.self .free s.self = .free := Function.update_self ..
  have hbase : Base n (Function.update place s.self .free) l (exec s .setEmpty) := by
    refine h.change honly moves_update (by simp [hnone]) ?_ ?_ h.orderly h.stays fun _ => ?_
    · rw [Function.update_of_ne (Ne.symm hne), h.main]
    · exact h.lined.move moves_update (by simp [hr.loose]) (by simp)
    · refine ⟨by rw [hself]; exact hf.id, ?_, by simp, by simp, ?_, fun _ => hfree⟩
      · rw [hself]
        exact iff_of_true rfl hfree
      · rw [hself]
        exact nofun
  have hmain : Saved n (Function.update place s.self .free) (exec s .setEmpty) 0 :=
    (hr.main hne).only honly (Ne.symm hne) fun p hp => hp.move (by simp [hnone])
  exact ⟨_, _, hbase, ⟨hmain, fun _ => ⟨hslot, hfree, hr.ptr, .inr hr.stack⟩⟩, hslot, hfree, hr.ptr,
    hr.stack, hr.tid⟩

theorem free_inv (h : Base n place l s) (hs : Switching n place s) (hslot : Slot n s.self)
    (hfree : place s.self = .free) (hptr : s.ptrCurrentEsp = s.self) (hstack : s.stack = s.self)
    (htid : s.currentTid = s.self) : Inv n (exec s .free) := by
  have hf := h.fits _ hslot
  have hne : s.self ≠ 0 := Nat.one_le_iff_ne_zero.mp hslot.1
  have hnone : (place s.self).owner = none := by simp [hfree, Place.owner]
  have honly : Only s.self s (exec s .free) := by
    refine ⟨rfl, fun _ _ => rfl, fun _ _ _ => rfl, fun _ _ => rfl, fun j hj => ?_⟩
    show Retired j (.freed s.currentTid :: s.log) ↔ _
    rw [htid, retired_freed, or_iff_right hj.symm]
  have hstays : ¬ Retired 0 (exec s .free).log := by
    show ¬ Retired 0 (.freed s.currentTid :: s.log)
    rw [htid, retired_freed, or_iff_right hne]
    exact h.stays
  have hbase : Base n place l (exec s .free) := by
    refine h.change honly moves_refl (by simp [hnone]) h.main h.lined ⟨trivial, h.orderly⟩ hstays fun _ => ?_
    exact ⟨hf.id, hf.empty, by simp [hfree], by simp [hfree], hf.ready, fun _ => hfree⟩
  exact ⟨_, _, hbase, ⟨hs.main.only honly (Ne.symm hne) fun _ hp => hp, fun _ => ⟨hslot, hfree, hptr, .inr hstack⟩⟩,
    hslot, hfree, hptr, hstack, htid⟩

/-! ## Statements -/

/-- Every statement keeps the invariant, one case for each. -/
theorem exec_inv (h : Base n place l s) (hpos : s.pos = p) (ha : At n place l s p) :
    Inv n (exec s p) := by
  have hfull : queueIsFull s.readyQueue = 0 := h.lined.not_full h.pos
  cases p with
  | code | allocate | lost =>
    rw [← hpos] at ha
    exact ⟨place, l, h, ha⟩
  | scan f i =>
    obtain ⟨hr, h1, hn⟩ := ha
    rw [exec]
    rw [h.size]
    split
    · rename_i hlt
      split
      · rename_i hempty
        exact ⟨place, l, h.goto, hr.goto, ⟨h1, hlt⟩, (h.fits i ⟨h1, hlt⟩).empty.mp hempty⟩
      · exact h.runs hr ⟨Nat.le_add_left .., hlt⟩
    · rename_i hge
      rw [if_pos (by omega)]
      exact h.runs hr trivial
  | setNew f i stack => exact setNew_inv h ha.1 ha.2.1 ha.2.2
  | setStack f i stack =>
    obtain ⟨hr, hi, hplace⟩ := ha
    have hself : (s.setThread i { s.threadPool i with stack := stack }).threadPool i =
      { s.threadPool i with stack := stack } := Function.update_self ..
    exact made_inv h hr hi hplace only_setThread ⟨rfl, rfl, rfl, rfl, rfl⟩ rfl rfl (by rw [hself])
      (by rw [hself]) (by rw [hself]) fun _ e => ⟨hi, e⟩
  | pushFinish f i =>
    obtain ⟨hr, hi, hplace⟩ := ha
    exact made_inv h hr hi hplace (only_push (a := finishWord i)) ⟨rfl, rfl, rfl, rfl, rfl⟩ rfl rfl rfl rfl
      rfl fun _ e => ⟨hi, e⟩
  | setEsp f i => exact setEsp_inv h ha.1 ha.2.1 ha.2.2
  | pushEntry f i => exact pushEntry_inv h ha.1 ha.2.1 ha.2.2
  | addTest c i =>
    rw [exec]
    rw [hfull]
    cases c with
    | create => exact h.runs ha.1 ha.2
    | schedule => exact ⟨place, l, h.goto, ha.1.goto, ha.2.1, ha.2.2.goto⟩
  | addStore c i =>
    have hlined : Lined n place l (exec s (.addStore c i)).readyQueue :=
      ⟨h.lined.queue.store _, h.lined.nodup, h.lined.mem⟩
    have hsame : Same s (exec s (.addStore c i)) := ⟨rfl, rfl, rfl, rfl⟩
    have htail : (exec s (.addStore c i)).readyQueue.elements (exec s (.addStore c i)).readyQueue.tail =
      tcbPtr i := Function.update_self ..
    cases c with
    | create =>
      obtain ⟨hr, hi, hplace⟩ := ha
      exact ⟨place, l, h.same hsame hlined, ⟨hr.tid, hr.ptr, hr.stack, hr.thread, hr.loose,
        fun hne => (hr.main hne).same hsame⟩, hi, hplace, htail⟩
    | schedule =>
      obtain ⟨hs, hoff, hh⟩ := ha
      exact ⟨place, l, h.same hsame hlined, hs.same hsame rfl rfl rfl rfl, hoff, hh.same hsame, htail⟩
  | addTail c i =>
    cases c with
    | create => exact created_inv h ha.1 ha.2.1 ha.2.2.1 ha.2.2.2
    | schedule => exact requeued_inv h ha.1 ha.2.1 ha.2.2.1 ha.2.2.2
  | setEmpty => exact setEmpty_inv h ha.1 ha.2
  | free =>
    obtain ⟨hs, hslot, hfree, hptr, hstack, htid⟩ := ha
    exact free_inv h hs hslot hfree hptr hstack htid
  | clearTid =>
    have hsame : Same s (exec s .clearTid) := ⟨rfl, rfl, rfl, rfl⟩
    exact ⟨place, l, h.same hsame h.lined, ha.1.same hsame rfl rfl rfl rfl, .inl rfl⟩
  | trap => exact trap_inv h ha.1 ha.2
  | testTid =>
    rw [exec]
    split
    · rename_i hne
      obtain ⟨hoff, hh⟩ := ha.2.resolve_left hne
      exact ⟨place, l, h.goto, ha.1.goto, hoff, hh.goto⟩
    · rename_i he
      exact ⟨place, l, h.goto, ha.1.goto, fun _ => not_not.mp he⟩
  | setReady =>
    obtain ⟨hs, hoff, hh⟩ := ha
    obtain ⟨hbase, hheld⟩ := hh.mark h .ready nofun
    exact ⟨place, l, hbase.goto, (hs.mark hh).goto, hoff, hheld.goto⟩
  | pollTest =>
    rw [exec]
    rw [h.lined.queue.empty]
    by_cases hnil : l.length = 0
    · rw [if_pos hnil, if_pos (by decide)]
      exact ⟨place, l, h.goto, ha.1.goto, ha.2, fun hx => absurd rfl hx⟩
    · rw [if_neg hnil, if_neg (by decide)]
      exact ⟨place, l, h.goto, ha.1.goto, ha.2, fun e => hnil (by rw [e]; rfl)⟩
  | pollTake =>
    obtain ⟨hs, hv, hnil⟩ := ha
    cases l with
    | nil => exact absurd rfl hnil
    | cons x l =>
      refine ⟨place, x :: l, h.goto, hs.goto, hv, ?_⟩
      rw [h.lined.pop.1]
      rfl
  | pollHead x =>
    obtain ⟨hs, hv, hhead⟩ := ha
    obtain ⟨l, rfl⟩ := List.head?_eq_some_iff.mp hhead
    exact polled_inv h hs hv
  | testThread x =>
    obtain ⟨hs, hv, hx⟩ := ha
    rw [exec]
    split
    · exact ⟨place, l, h.goto, hs.goto, hv⟩
    · rename_i hne
      exact ⟨place, l, h.goto, hs.goto, hv, (hx hne).goto⟩
  | mainTid =>
    have hsame : Same s (exec s .mainTid) := ⟨rfl, rfl, rfl, rfl⟩
    exact ⟨place, l, h.same hsame h.lined, ha.1.same hsame rfl rfl rfl rfl, rfl⟩
  | mainPtr =>
    have hsame : Same s (exec s .mainPtr) := ⟨rfl, rfl, rfl, rfl⟩
    exact ⟨place, l, h.same hsame h.lined, ha.1.main.same hsame, ha.2.symm, .inl ha.2⟩
  | readState i => exact ⟨place, l, h.goto, ha.1.goto, ha.2.1, ha.2.2.goto⟩
  | setRunning i state =>
    obtain ⟨hs, hv, hh⟩ := ha
    obtain ⟨hbase, hheld⟩ := hh.mark h .running nofun
    exact ⟨place, l, hbase.goto, (hs.mark hh).goto, hv, hheld.goto⟩
  | setTid i state =>
    obtain ⟨hs, hv, hh⟩ := ha
    have hsame : Same s (exec s (.setTid i state)) := ⟨rfl, rfl, rfl, rfl⟩
    exact ⟨place, l, h.same hsame h.lined, hs.same hsame rfl rfl rfl rfl, (h.fits i hh.slot).id, hh.same hsame⟩
  | setPtr i state =>
    obtain ⟨hs, rfl, hh⟩ := ha
    have hsame : Same s (exec s (.setPtr s.currentTid state)) := ⟨rfl, rfl, rfl, rfl⟩
    exact ⟨place, l, h.same hsame h.lined, hs.main.same hsame, rfl, .inr (hh.same hsame)⟩
  | choose state =>
    obtain ⟨hmain, hptr, hc⟩ := ha
    rw [exec]
    split
    · exact ⟨place, l, h.goto, hmain.same same_goto, hptr, hc.imp_right Held.goto⟩
    · exact ⟨place, l, h.goto, hmain.same same_goto, hptr, hc.imp_right Held.goto⟩
  | start => exact start_inv h ha.1 ha.2.1 ha.2.2
  | resume => exact resume_inv h ha.1 ha.2.1 ha.2.2

/-! ## The timer -/

/-- A switch away from the code of a thread. -/
theorem stash_runs (h : Base n place l s) (hr : Runs n place s) (hp : Parked n place s.self s.pos)
    (offset : Nat) : Inv n (stash s offset) := by
  have hnone : (place s.self).owner = none := by simp [hr.loose, Place.owner]
  have hself : (stash s offset).threadPool s.self =
      { s.threadPool s.self with esp := ⟨s.self, offset⟩ } := by
    show Function.update s.threadPool s.ptrCurrentEsp _ s.self = _
    rw [hr.ptr, hr.stack, Function.update_self]
  have hframe : (stash s offset).frames ⟨s.self, offset⟩ = .context s.pos := by
    show Function.update s.frames ⟨s.stack, offset⟩ _ _ = _
    rw [hr.stack, Function.update_self]
  have hlast : lastSaved s.self (stash s offset).log = some ⟨s.self, offset⟩ := by
    show lastSaved s.self (.saved s.self ⟨s.stack, offset⟩ :: s.log) = _
    rw [lastSaved_self, hr.stack]
  have honly : Only s.self s (stash s offset) := by
    refine ⟨rfl, fun j hj => ?_, fun j hj hhome => ?_, fun j hj => lastSaved_other hj.symm, fun _ _ => Iff.rfl⟩
    · exact Function.update_of_ne (by rwa [hr.ptr]) _ _
    · refine Function.update_of_ne (fun e => hj ?_) _ _
      rw [← hhome, e, hr.stack]
  have hsaved : Saved n place (stash s offset) s.self :=
    ⟨by rw [hlast, hself], by rw [hself], by rw [hself]; exact .inr ⟨s.pos, hframe, hp⟩⟩
  have hbase : Base n place l (stash s offset) := by
    refine h.change honly moves_refl (by simp [hnone]) h.main h.lined ⟨trivial, h.orderly⟩ h.stays
      fun hi => ?_
    have hf := h.fits _ hi
    obtain ⟨hstate, hretired⟩ := hf.busy (by simp [hr.loose])
    exact fits_busy hr.loose (by simp) (by rw [hself]; exact hf.id) (by rw [hself]; exact hstate) hretired
      (fun _ => hsaved.last) (by simp) (by simp)
  have hmain : Saved n place (stash s offset) 0 := by
    by_cases hne : s.self = 0
    · rwa [hne] at hsaved
    · exact (hr.main hne).only honly (Ne.symm hne) fun _ hp => hp
  refine ⟨place, l, hbase, ⟨hmain, nofun⟩, ?_⟩
  rw [show (stash s offset).currentTid = s.self from hr.tid]
  rcases hr.thread with h0 | hslot
  · exact .inl h0
  · exact .inr ⟨rfl, hslot, hr.loose, hsaved⟩

/-- A switch away from `schedule` behind an exit: the stack pointer goes to the slot
that has become free, and `schedule` begins again. -/
theorem stash_switching (h : Base n place l s) (hs : Switching n place s) (hon : s.interrupts = true)
    (hc : s.currentTid = 0 ∨ Held n place s s.currentTid) {offset : Nat}
    (hoffset : s.self ≠ 0 → s.stack = 0 → offset < (s.threadPool 0).esp.offset) :
    Inv n (stash s offset) := by
  obtain ⟨hslot, hfree, hptr, hstack⟩ := hs.exit hon
  have hne : s.self ≠ 0 := Nat.one_le_iff_ne_zero.mp hslot.1
  have hnone : (place s.self).owner = none := by simp [hfree, Place.owner]
  have hself : (stash s offset).threadPool s.self =
      { s.threadPool s.self with esp := ⟨s.stack, offset⟩ } := by
    show Function.update s.threadPool s.ptrCurrentEsp _ s.self = _
    rw [hptr, Function.update_self]
  have honly : Only s.self s (stash s offset) := by
    refine ⟨rfl, fun j hj => ?_, fun j hj hhome => ?_, fun j hj => lastSaved_other hj.symm, fun _ _ => Iff.rfl⟩
    · exact Function.update_of_ne (by rwa [hptr]) _ _
    · refine Function.update_of_ne (fun e => ?_) _ _
      rw [e] at hhome
      rcases hstack with h0 | hown
      · -- on the boot stack the new frame lies below that of the main thread
        have hj0 : j = 0 := hhome.symm.trans h0
        have hlt := hoffset hne h0
        rw [← hj0, e] at hlt
        exact Nat.lt_irrefl _ hlt
      · exact hj (hhome.symm.trans hown)
  have hbase : Base n place l (stash s offset) := by
    refine h.change honly moves_refl (by simp [hnone]) h.main h.lined ⟨trivial, h.orderly⟩ h.stays
      fun hi => ?_
    have hf := h.fits _ hi
    have hempty := hf.empty.mpr hfree
    refine ⟨by rw [hself]; exact hf.id, by rw [hself]; exact hf.empty, by simp [hfree], by simp [hfree],
      fun hready => ?_, hf.retired⟩
    rw [hself] at hready
    cases hempty.symm.trans hready
  have hkeep : ∀ j, j ≠ s.self → Saved n place s j → Saved n place (stash s offset) j :=
    fun j hj hsaved => hsaved.only honly hj fun _ hp => hp
  refine ⟨place, l, hbase, ⟨hkeep 0 (Ne.symm hne) hs.main, nofun⟩, ?_⟩
  rcases hc with h0 | hh
  · exact .inl h0
  · refine .inr ⟨rfl, hh.slot, hh.loose, hkeep _ (fun e : s.currentTid = s.self => ?_) hh.saved⟩
    have hloose := hh.loose
    rw [e, hfree] at hloose
    cases hloose

/-- A timer that spares the critical statements keeps the invariant. -/
theorem timer_inv (h : Base n place l s) (hpos : s.pos = p) (ha : At n place l s p)
    (hon : s.interrupts = true) (hcritical : ¬ Critical p) (hlost : p ≠ .lost) {offset : Nat}
    (hoffset : s.self ≠ 0 → s.stack = 0 → offset < (s.threadPool 0).esp.offset) :
    Inv n (stash s offset) := by
  have hoff : s.interrupts ≠ false := by simp [hon]
  have hruns : ∀ p, s.pos = p → Runs n place s ∧ Parked n place s.self p → Inv n (stash s offset) :=
    fun p e hr => stash_runs h hr.1 (by rw [e]; exact hr.2) offset
  have hvacant : Switching n place s → Vacant s → Inv n (stash s offset) :=
    fun hs hv => stash_switching h hs hon (.inl (hv hon)) hoffset
  cases p with
  | code | scan | setStack | pushFinish | setEsp | pushEntry | setEmpty => exact hruns _ hpos ha
  | addTest c | addStore c =>
    cases c with
    | create => exact hruns _ hpos ha
    | schedule => exact absurd ha.2.1 hoff
  | addTail c =>
    cases c with
    | create => exact absurd trivial hcritical
    | schedule => exact absurd ha.2.1 hoff
  | allocate | setNew | free | clearTid | choose | start | resume => exact absurd trivial hcritical
  | trap | testTid => exact stash_switching h ha.1 hon (ha.2.imp_right And.right) hoffset
  | setReady => exact absurd ha.2.1 hoff
  | pollTest | mainTid => exact hvacant ha.1 ha.2
  | pollTake | pollHead | testThread | readState | setRunning | setTid => exact hvacant ha.1 ha.2.1
  | mainPtr => exact stash_switching h ha.1 hon (.inl ha.2) hoffset
  | setPtr i state =>
    obtain ⟨hs, rfl, hh⟩ := ha
    exact stash_switching h hs hon (.inr hh) hoffset
  | lost => exact absurd rfl hlost

/-! ## Runs -/

theorem atCode_inv (h : Inv n s)
    (hcode : ∀ place l, Base n place l s → Runs n place s → s.pos = .code → Inv n s') :
    Inv n (atCode s s') := by
  unfold atCode
  split
  · rename_i hpos
    obtain ⟨place, l, hb, ha⟩ := h
    rw [hpos] at ha
    exact hcode place l hb ha.1 hpos
  · exact h

theorem step_inv {op : Preemption.Op} (h : Inv n s) (hallowed : Allowed s op) (hspared : Spared s op) :
    Inv n (step s op) := by
  have hregister : ∀ on, Inv n (atCode s { s with interrupts := on }) := fun on =>
    atCode_inv h fun place l hb hr hpos => by
      have hsame : Same s { s with interrupts := on } := ⟨rfl, rfl, rfl, rfl⟩
      have hparked : Parked n place s.self s.pos := by
        rw [hpos]
        trivial
      exact ⟨place, l, hb.same hsame hb.lined, at_of_parked ⟨hr.tid, hr.ptr, hr.stack, hr.thread, hr.loose,
        fun hne => (hr.main hne).same hsame⟩ hparked⟩
  cases op with
  | next =>
    obtain ⟨place, l, hb, ha⟩ := h
    exact exec_inv hb rfl ha
  | malloc stack =>
    rw [step]
    split
    · rename_i f i hpos
      obtain ⟨place, l, hb, ha⟩ := h
      rw [hpos] at ha
      split
      · exact hb.runs ha.1 trivial
      · exact ⟨place, l, hb.goto, ha.1.goto, ha.2⟩
    · exact h
  | timer offset =>
    rw [step]
    split
    · exact h
    · rename_i hlost
      obtain ⟨place, l, hb, ha⟩ := h
      exact timer_inv hb rfl ha hallowed.1 hspared hlost hallowed.2
  | create f =>
    exact atCode_inv h fun place l hb hr _ => hb.runs hr ⟨Nat.le_refl 1, hb.pos⟩
  | yield offset =>
    refine atCode_inv h fun place l hb hr hpos => stash_runs hb hr ?_ offset
    rw [hpos]
    trivial
  | finish => exact atCode_inv h fun place l hb hr _ => hb.runs hr hallowed
  | sti => exact hregister true
  | cli => exact hregister false

theorem init_inv (pool : Nat → Tcb) (elements : Nat → Nat) (frames : StackPtr → Frame) (hn : 1 ≤ n)
    (hword : n * TCB_SIZE < 2 ^ 32) : Inv n (initState n pool elements frames) := by
  have hthread : ∀ i, Slot n i →
      (initState n pool elements frames).threadPool i = { pool i with TID := i, state := .empty } :=
    fun i hi => if_pos hi
  have hfree : ∀ i, Slot n i → (if i = 0 then Place.loose else Place.free) = .free :=
    fun i hi => if_neg (Nat.one_le_iff_ne_zero.mp hi.1)
  unfold TCB_SIZE at hword
  refine ⟨fun i => if i = 0 then .loose else .free, [],
    ⟨hn, rfl, ⟨newQueue_represents elements (by omega), List.nodup_nil, fun x => ?_⟩, trivial, rfl, id,
      fun i hi => ?_⟩, ⟨rfl, rfl, rfl, .inl rfl, rfl, fun h => absurd rfl h⟩, trivial⟩
  · refine iff_of_false (by simp) fun h => ?_
    obtain ⟨i, hi, -, hq⟩ := h
    rw [hfree i hi] at hq
    cases hq
  · have hempty : ((initState n pool elements frames).threadPool i).state = .empty := by rw [hthread i hi]
    have hplace := hfree i hi
    exact ⟨by rw [hthread i hi], iff_of_true hempty hplace, by simp [hplace], by simp [hplace],
      fun hready => (by cases hempty.symm.trans hready), fun hretired => hretired.elim⟩

theorem reachable_inv (h : Reachable (fun s op => Allowed s op ∧ Spared s op) n s) : Inv n s := by
  obtain ⟨pool, elements, frames, hn, hword, h⟩ := h
  exact h.invariant (init_inv pool elements frames hn hword) fun s op hop hs => step_inv hs hop.1 hop.2

theorem At.main (h : At n place l s p) (hne : s.self ≠ 0) : Saved n place s 0 := by
  cases p with
  | code | scan | allocate | setNew | setStack | pushFinish | setEsp | pushEntry | setEmpty => exact h.1.main hne
  | addTest c | addStore c | addTail c =>
    cases c with
    | create => exact h.1.main hne
    | schedule => exact h.1.main
  | free | clearTid | trap | testTid | setReady | pollTest | pollTake | pollHead | testThread | mainTid
  | mainPtr | readState | setRunning | setTid | setPtr => exact h.1.main
  | choose | start | resume => exact h.1
  | lost => exact h hne

theorem Inv.clean (h : Inv n s) : ExitsClean s := by
  obtain ⟨place, l, hb, ha⟩ := h
  have hmem : ∀ i, tcbPtr i ∈ contents s.readyQueue → place i = .queued := fun i hi => by
    rw [contents_eq hb.lined.queue] at hi
    obtain ⟨j, -, e, hq⟩ := (hb.lined.mem _).mp hi
    obtain rfl : i = j := Nat.succ.inj e
    exact hq
  refine ⟨hb.orderly, fun i hi hretired => ?_, fun i hi hretired hmem' => ?_, fun i hi hready => ?_,
    fun hne => (ha.main hne).last⟩
  · rw [hb.size] at hi
    exact (hb.fits i hi).empty.mpr ((hb.fits i hi).retired hretired)
  · rw [hb.size] at hi
    cases ((hb.fits i hi).retired hretired).symm.trans (hmem i hmem')
  · rw [hb.size] at hi
    rcases hready with hready | hready
    · exact (hb.fits i hi).ready hready
    · exact ((hb.fits i hi).saved (.inl (hmem i hready))).last

/-- In every run whose timer spares the critical statements the exits are clean. -/
theorem exits_clean (h : Reachable (fun s op => Allowed s op ∧ Spared s op) n s) : ExitsClean s :=
  (reachable_inv h).clean

/-! ## A pool of two -/

/-- Steps that are allowed anywhere, and are no timer. -/
def plain : Preemption.Op → Bool
  | .timer _ | .finish => false
  | _ => true

theorem plain_ok {op : Preemption.Op} (h : plain op = true) : Allowed s op ∧ Spared s op := by
  cases op with
  | timer | finish => cases h
  | _ => exact ⟨trivial, trivial⟩

/-- The main thread creates a thread and yields to it. -/
def opening : List Preemption.Op :=
  [.create 7, .next, .malloc 64, .next, .next, .next, .next, .next, .next, .next, .next, .yield 100] ++
    List.replicate 12 .next

def opened : State :=
  opening.foldl step (initState 2 (fun _ => ⟨0, .empty, 0, 0, 0⟩) (fun _ => 0) fun _ => .garbage)

/-- That thread has returned into `finish`, which has freed its stack. -/
def freed : State := step (step (step opened .finish) .next) .next

theorem freed_reachable : Reachable (fun s op => Allowed s op ∧ Spared s op) 2 freed := by
  have hopened : Reach (fun s op => Allowed s op ∧ Spared s op) step
      (initState 2 (fun _ => ⟨0, .empty, 0, 0, 0⟩) (fun _ => 0) fun _ => .garbage) opened :=
    .foldl .start opening fun _ op hop => plain_ok ((show ∀ op ∈ opening, plain op = true by decide) op hop)
  have hself : opened.self ≠ 0 := by decide
  exact ⟨_, _, _, by decide, by decide,
    .step (.step (.step hopened ⟨hself, trivial⟩) (plain_ok rfl)) (plain_ok rfl)⟩

/-- The timer fires when `finish` has called `trap`. -/
theorem exits_clean_freed : ExitsClean (step (step freed .next) (.timer 50)) := by
  obtain ⟨pool, elements, frames, hn, hword, h⟩ := freed_reachable
  have hon : (step freed .next).interrupts = true := by decide
  have hstack : (step freed .next).stack ≠ 0 := by decide
  have hpos : (step freed .next).pos = .trap := rfl
  exact exits_clean ⟨pool, elements, frames, hn, hword, .step (.step h (plain_ok rfl))
    ⟨⟨hon, fun _ h0 => absurd h0 hstack⟩, show ¬ Critical (step freed .next).pos by rw [hpos]; exact id⟩⟩

/-- The timer fires between `free` and `current_tid = 0`: the thread whose stack is
free goes back to the queue. -/
theorem freed_thread_queued : ¬ ∀ n s, Reachable Allowed n s → ExitsClean s := by
  intro hall
  obtain ⟨pool, elements, frames, hn, hword, h⟩ := freed_reachable
  have hon : freed.interrupts = true := by decide
  have hstack : freed.stack ≠ 0 := by decide
  have hrun : Reach Allowed step (initState 2 pool elements frames) (step freed (.timer 50)) :=
    .step (h.mono fun _ _ hop => hop.1) ⟨hon, fun _ h0 => absurd h0 hstack⟩
  have hclean := hall 2 _ ⟨pool, elements, frames, hn, hword,
    hrun.foldl (List.replicate 6 .next) fun _ op hop => by rw [List.eq_of_mem_replicate hop]; trivial⟩
  exact hclean.orderly.1 (.inl rfl)

end ToyOS.Threads.Exits
