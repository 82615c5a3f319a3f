import ToyOS.Lib.Rotation
import ToyOS.Threads.Bookkeeping

/-! # Round robin

The waiting slots stand in line in the ready queue. A thread that gives up the
processor goes to the end of the line and the first in it runs, so between two
dispatches of a thread everybody before it in line is dispatched once.
-/
namespace ToyOS.Threads.RoundRobin
open ToyOS.Lib.Loop ToyOS.Lib.Runs ToyOS.Lib.Rotation
open ToyOS.Heap ToyOS.Heap.Memory ToyOS.Heap.Clients
open ToyOS.Threads.Queue ToyOS.Threads.Scheduler ToyOS.Threads.Bookkeeping

variable {M : Machine} {B : Buffer} {s : System} {σ : System × List Event} {base : List (Nat × Nat)}
variable {l : List Nat} {log ev : List Event} {cur i n t u f : Nat} {op : Scheduler.Op}
variable {ops : List Scheduler.Op} {mid : List Nat}

/-- The slot an entry of the log gives the processor to, 0 for the main thread. -/
def dispatchOf : Event → Option Nat
  | .start i | .resume i => some i
  | .created _ | .stashed _ | .added _ => none

def createdOf : Event → Option Nat
  | .created i => some i
  | .start _ | .resume _ | .stashed _ | .added _ => none

/-- What a step adds to the log, oldest entry first. -/
def emitted (M : Machine) (s : System) (op : Scheduler.Op) : List Event :=
  ((Scheduler.call M s op).elim [] (·.2)).reverse

/-- What the steps of a run add to the log, oldest entry first. -/
def trace (M : Machine) : System × List Event → List Scheduler.Op → List Event
  | _, [] => []
  | σ, op :: ops => emitted M σ.1 op ++ trace M (Scheduler.step M σ op) ops

theorem step_log (σ : System × List Event) (op : Scheduler.Op) :
    (Scheduler.step M σ op).2 = (emitted M σ.1 op).reverse ++ σ.2 := by
  unfold Scheduler.step emitted
  cases Scheduler.call M σ.1 op with
  | none => rfl
  | some r => rw [Option.elim_some, Option.elim_some, List.reverse_reverse]

/-- The trace of a run is what its log has grown by. -/
theorem trace_log (σ : System × List Event) (ops : List Scheduler.Op) :
    (ops.foldl (Scheduler.step M) σ).2 = (trace M σ ops).reverse ++ σ.2 := by
  induction ops generalizing σ with
  | nil => rfl
  | cons op ops ih => rw [List.foldl_cons, ih, step_log, trace, List.reverse_append, List.append_assoc]

/-! ## The line -/

/-- The slots in the ready queue, and the one that runs. -/
def line (s : System) : Line Nat :=
  ⟨(contents s.readyQueue).map slotOf, if s.currentTid = 0 then none else some s.currentTid⟩

/-- What a step does to the line. -/
def moves (M : Machine) (s : System) : Scheduler.Op → List (Move Nat)
  | .create f => ((emitted M s (.create f)).filterMap createdOf).map .enter
  | .switch _ => [.giveUp]
  | .finish => [.leave]
  | .store _ _ => []

def movesOf (M : Machine) : System × List Event → List Scheduler.Op → List (Move Nat)
  | _, [] => []
  | σ, op :: ops => moves M σ.1 op ++ movesOf M (Scheduler.step M σ op) ops

theorem contents_add {pool : Nat → Tcb} {q : FifoQueue} (h : Queued pool n q l cur) (hn : 1 ≤ n) (x : Nat) :
    contents (queueAdd q x).1 = contents q ++ [x] := by
  have hadd := (h.queue.add x).1
  rw [listAdd, if_pos (h.room hn)] at hadd
  rw [contents_eq hadd, contents_eq h.queue]

/-- A switch: the running slot goes to the end of the line, the first in it runs. -/
theorem schedule_line (h : Stopped B base s log) :
    line (schedule s).1 = next (line s).requeued ∧
      ((schedule s).2.reverse).filterMap dispatchOf = [(line s).requeued.head?.getD 0] ∧
      (.resume 0 ∈ (schedule s).2 ↔ (line s).requeued = []) := by
  have hidle := requeue_idle h
  have hcontents : (contents (requeue s).1.readyQueue).map slotOf = (line s).requeued := by
    obtain ⟨l, hq⟩ := h.queued
    by_cases hc : s.currentTid = 0
    · unfold requeue line Line.requeued
      rw [if_neg (not_not.mpr hc), if_pos hc, Option.toList_none, List.append_nil]
    · have hpos : 1 ≤ s.poolSize := by
        have hslot := h.current.resolve_left hc
        unfold Slot at hslot
        omega
      rw [requeue_eq hc]
      unfold line Line.requeued
      dsimp only
      rw [contents_add hq hpos, if_neg hc, List.map_append]
      rfl
  have hquiet : ((requeue s).2.reverse).filterMap dispatchOf = [] ∧ .resume 0 ∉ (requeue s).2 := by
    unfold requeue
    split <;> simp [dispatchOf]
  have hsched : schedule s = ((dispatch (requeue s).1).1, (dispatch (requeue s).1).2 ++ (requeue s).2) := rfl
  rw [hsched, List.reverse_append, List.filterMap_append, hquiet.1, List.nil_append, ← hcontents,
    List.mem_append, or_iff_left hquiet.2]
  obtain ⟨l, hq⟩ := hidle.queued
  generalize (requeue s).1 = s₁ at hq
  rw [contents_eq hq.queue]
  cases l with
  | nil =>
    have hpoll := hq.queue.poll.1
    rw [dispatch_nil hq]
    unfold line
    dsimp only
    rw [contents_eq hpoll]
    exact ⟨rfl, rfl, iff_of_true List.mem_cons_self rfl⟩
  | cons p l =>
    obtain ⟨i, hi, rfl, -, -, hpop⟩ := hq.pop
    have hzero : i ≠ 0 := by unfold Slot at hi; omega
    rw [dispatch_cons hq hi]
    unfold line
    dsimp only
    rw [contents_eq hpop.queue, if_neg hzero]
    refine ⟨rfl, ?_, iff_of_false ?_ (List.cons_ne_nil _ _)⟩
    · split <;> rfl
    · split <;> simp [hzero.symm]

theorem threadCreate_cases {r : System × Nat × List Event} (h : threadCreate M s f = some r) :
    r.1.currentTid = s.currentTid ∧ ((r.2.2 = [] ∧ r.1.readyQueue = s.readyQueue) ∨
      ∃ i, Slot s.poolSize i ∧ r.1.readyQueue = (queueAdd s.readyQueue (tcbPtr i)).1 ∧
        r.2.2 = [.added (queueAdd s.readyQueue (tcbPtr i)).2, .created i]) := by
  unfold threadCreate at h
  split at h
  · obtain rfl := Option.some.inj h
    exact ⟨rfl, .inl ⟨rfl, rfl⟩⟩
  · rename_i i hfree
    obtain ⟨h1, h2, -, -⟩ := firstIdx_eq_some.mp hfree
    obtain ⟨m, -, rfl⟩ := Option.map_eq_some_iff.mp h
    dsimp only
    split
    · exact ⟨rfl, .inl ⟨rfl, rfl⟩⟩
    · exact ⟨rfl, .inr ⟨i, ⟨h1, by omega⟩, rfl, rfl⟩⟩

theorem emitted_switch (s : System) (esp : Nat) : emitted M s (.switch esp) = .stashed s.ptrCurrentEsp ::
    (schedule (s.setThread s.ptrCurrentEsp { s.threadPool s.ptrCurrentEsp with esp := esp })).2.reverse := by
  unfold emitted Scheduler.call stash
  dsimp only [Option.elim_some]
  rw [List.reverse_append]
  rfl

/-- One step moves the line, and gives the processor to whom the line says. -/
theorem step_line (h : Kept M.buffer base σ) (ha : Allowed M σ op) :
    line (Scheduler.step M σ op).1 = (moves M σ.1 op).foldl Line.step (line σ.1) ∧
      (emitted M σ.1 op).filterMap dispatchOf = (turns (line σ.1) (moves M σ.1 op)).map (·.getD 0) := by
  obtain ⟨s, log⟩ := σ
  cases op with
  | create f =>
    obtain ⟨r, hr, -⟩ := create_kept h f
    obtain ⟨hcur, hcases⟩ := threadCreate_cases hr
    have hev : emitted M s (.create f) = r.2.2.reverse := by
      unfold emitted Scheduler.call
      dsimp only
      rw [hr]
      rfl
    have hstep : (Scheduler.step M (s, log) (.create f)).1 = r.1 := by
      unfold Scheduler.step Scheduler.call
      dsimp only
      rw [hr]
      rfl
    unfold moves
    dsimp only
    rw [hstep, hev]
    unfold line
    rw [hcur]
    rcases hcases with ⟨hnone, hqueue⟩ | ⟨i, hi, hqueue, hsome⟩
    · rw [hnone, hqueue]
      exact ⟨rfl, rfl⟩
    · obtain ⟨l, hq⟩ : ∃ l, Queued s.threadPool s.poolSize s.readyQueue l s.currentTid := h.queued
      have hpos : 1 ≤ s.poolSize := by unfold Slot at hi; omega
      rw [hsome, hqueue, contents_add hq hpos, List.map_append]
      exact ⟨rfl, rfl⟩
  | switch esp =>
    have hstop := stash_stopped h esp
    obtain ⟨hline, hev, -⟩ := schedule_line hstop
    refine ⟨hline, ?_⟩
    dsimp only
    rw [emitted_switch]
    exact hev
  | finish =>
    have hstop := finish_stopped h ha
    obtain ⟨hline, hev, -⟩ := schedule_line hstop
    have hleft : (line (finished M s)).requeued = (line s).waiting := List.append_nil _
    rw [hleft] at hline hev
    exact ⟨hline, hev⟩
  | store addr v => exact ⟨rfl, rfl⟩

/-- So does a run. -/
theorem trace_line (h : Kept M.buffer base σ) (ha : Along (Scheduler.step M) (Allowed M) σ ops) :
    (trace M σ ops).filterMap dispatchOf = (turns (line σ.1) (movesOf M σ ops)).map (·.getD 0) := by
  induction ops generalizing σ with
  | nil => rfl
  | cons op ops ih =>
    obtain ⟨hline, hev⟩ := step_line h ha.1
    rw [trace, movesOf, List.filterMap_append, turns_append, List.map_append, hev,
      ih (step_kept h ha.1) ha.2, hline]

theorem mem_movesOf (h : Move.enter i ∈ movesOf M σ ops) : .created i ∈ trace M σ ops := by
  induction ops generalizing σ with
  | nil => cases h
  | cons op ops ih =>
    rw [trace, List.mem_append]
    rcases List.mem_append.mp h with h | h
    · left
      cases op with
      | create f =>
        obtain ⟨j, hj, e⟩ := List.mem_map.mp h
        obtain rfl := Move.enter.inj e
        obtain ⟨ev, hev, he⟩ := List.mem_filterMap.mp hj
        cases ev with
        | created k => rwa [← Option.some.inj he]
        | start | resume | stashed | added => cases he
      | switch | finish => cases List.mem_singleton.mp h
      | store => cases h
    · exact .inr (ih h)

/-! ## Who stands in line -/

theorem line_nodup (h : Kept M.buffer base σ) : (line σ.1).waiting.Nodup := by
  obtain ⟨l, hq⟩ := h.queued
  unfold line
  dsimp only
  rw [contents_eq hq.queue]
  refine hq.nodup.map_on fun p hp p' hp' e => ?_
  obtain ⟨i, -, rfl, -⟩ := (hq.mem p).mp hp
  obtain ⟨j, -, rfl, -⟩ := (hq.mem p').mp hp'
  exact congrArg tcbPtr e

theorem line_running (h : (line s).running = some t) : s.currentTid = t ∧ t ≠ 0 := by
  unfold line at h
  dsimp only at h
  split at h
  · cases h
  · rename_i hc
    obtain rfl := Option.some.inj h
    exact ⟨rfl, hc⟩

theorem running_notMem (h : Kept M.buffer base σ) (hr : (line σ.1).running = some t) :
    t ∉ (line σ.1).waiting := by
  obtain ⟨hcur, hzero⟩ := line_running hr
  obtain ⟨l, hq⟩ := h.queued
  have hslot : Slot σ.1.poolSize t := hcur ▸ h.current.resolve_left (hcur ▸ hzero)
  unfold line
  dsimp only
  rw [contents_eq hq.queue]
  intro hmem
  obtain ⟨p, hp, e⟩ := List.mem_map.mp hmem
  obtain ⟨i, -, rfl, hw⟩ := (hq.mem p).mp hp
  have e : i = t := e
  subst e
  exact not_waiting_running ((hq.running i hslot).mpr hcur) hw

/-- Nobody waits and nobody runs when all slots are empty. -/
theorem line_empty_iff (h : Kept M.buffer base σ) :
    (line σ.1).waiting = [] ∧ (line σ.1).running = none ↔
      ∀ i, Slot σ.1.poolSize i → (σ.1.threadPool i).state = .empty := by
  obtain ⟨l, hq⟩ := h.queued
  unfold line
  dsimp only
  rw [contents_eq hq.queue, List.map_eq_nil_iff]
  constructor
  · intro hline i hi
    obtain ⟨rfl, hrun⟩ := hline
    have hcur : σ.1.currentTid = 0 := by
      by_contra hc
      rw [if_neg hc] at hrun
      cases hrun
    have hwait : ¬ Waiting (σ.1.threadPool i) := fun hw =>
      List.not_mem_nil ((hq.mem (tcbPtr i)).mpr ⟨i, hi, rfl, hw⟩)
    have hnot : (σ.1.threadPool i).state ≠ .running := fun hr => by
      have := (hq.running i hi).mp hr
      unfold Slot at hi
      omega
    unfold Waiting at hwait
    cases hs : (σ.1.threadPool i).state with
    | empty => rfl
    | new => exact absurd (.inl hs) hwait
    | ready => exact absurd (.inr hs) hwait
    | running => exact absurd hs hnot
  · intro hall
    constructor
    · refine List.eq_nil_iff_forall_not_mem.mpr fun p hp => ?_
      obtain ⟨i, hi, -, hw⟩ := (hq.mem p).mp hp
      exact not_waiting_empty (hall i hi) hw
    · refine if_pos ?_
      by_contra hc
      have hslot := h.current.resolve_left hc
      have hrun := (hq.running _ hslot).mpr rfl
      rw [hall _ hslot] at hrun
      cases hrun

/-! ## Between two dispatches of one thread -/

/-- `op` dispatches thread `t`; after it `ops` dispatch the slots in `mid` and then
`t` again, and no thread is created in slot `t` meanwhile. -/
structure Window (M : Machine) (σ : System × List Event) (op : Scheduler.Op) (ops : List Scheduler.Op)
    (t : Nat) (mid : List Nat) : Prop where
  allowed : Along (Scheduler.step M) (Allowed M) σ (op :: ops)
  thread : t ≠ 0
  first : (emitted M σ.1 op).filterMap dispatchOf = [t]
  again : (trace M (Scheduler.step M σ op) ops).filterMap dispatchOf = mid ++ [t]
  consecutive : t ∉ mid
  same : .created t ∉ trace M (Scheduler.step M σ op) ops

/-- Slot `u` is in the ready queue, or created before `t` gives up the processor. -/
def Awaits (M : Machine) (σ : System × List Event) (ops : List Scheduler.Op) (t u : Nat) : Prop :=
  tcbPtr u ∈ contents σ.1.readyQueue ∨ .created u ∈ (trace M σ ops).takeWhile (· ≠ .stashed t)

theorem running_after (h : Kept M.buffer base σ) (ha : Allowed M σ op) (ht : t ≠ 0)
    (hfirst : (emitted M σ.1 op).filterMap dispatchOf = [t]) :
    (line (Scheduler.step M σ op).1).running = some t := by
  obtain ⟨hline, hev⟩ := step_line h ha
  rw [hfirst] at hev
  rw [hline]
  have hhead : ∀ o : Option Nat, [t] = [o].map (·.getD 0) → o = some t := fun o ho => by
    cases o with
    | none => exact absurd (List.cons.inj ho).1 ht
    | some x => rw [show t = x from (List.cons.inj ho).1]
  cases op with
  | create f =>
    rw [moves, turns_enter] at hev
    cases hev
  | switch esp => exact hhead _ hev
  | finish => exact hhead _ hev
  | store addr v => cases hev

/-- While `t` runs the line grows by the threads created, until `t` gives up. -/
theorem created_before (h : Kept M.buffer base σ) (ha : Along (Scheduler.step M) (Allowed M) σ ops)
    (hr : (line σ.1).running = some t) {xs : List Nat} {rest : List (Move Nat)}
    (hm : movesOf M σ ops = xs.map .enter ++ .giveUp :: rest) :
    ((trace M σ ops).takeWhile (· ≠ .stashed t)).filterMap createdOf = xs ∧
      ((line σ.1).waiting ++ xs).Nodup := by
  induction ops generalizing σ xs with
  | nil => simp [movesOf] at hm
  | cons op ops ih =>
    have hnext := step_kept h ha.1
    obtain ⟨hline, -⟩ := step_line h ha.1
    rw [movesOf] at hm
    rw [trace]
    cases op with
    | create f =>
      have hquiet : ∀ e ∈ emitted M σ.1 (.create f), decide (e ≠ .stashed t) = true := by
        obtain ⟨r, hr', -⟩ := create_kept h f
        intro e he
        have hev : emitted M σ.1 (.create f) = r.2.2.reverse := by
          unfold emitted Scheduler.call
          dsimp only
          rw [hr']
          rfl
        rw [hev, List.mem_reverse] at he
        obtain ⟨-, ⟨hnone, -⟩ | ⟨i, -, -, hsome⟩⟩ := threadCreate_cases hr'
        · rw [hnone] at he
          cases he
        · rw [hsome] at he
          simp only [List.mem_cons, List.not_mem_nil, or_false] at he
          rcases he with rfl | rfl
          · simp
          · simp
      unfold moves at hm hline
      dsimp only at hm hline
      rw [foldl_enter] at hline
      obtain ⟨zs, rfl, hrest⟩ := enter_prefix hm
      obtain ⟨hxs, hnodup⟩ := ih hnext ha.2 (by rw [hline]; exact hr) hrest
      rw [hline] at hnodup
      rw [List.takeWhile_append_of_pos hquiet, List.filterMap_append, hxs]
      exact ⟨rfl, by rwa [← List.append_assoc]⟩
    | switch esp =>
      have hesp : σ.1.ptrCurrentEsp = t := h.esp.trans (line_running hr).1
      cases xs with
      | nil =>
        rw [emitted_switch, hesp, List.append_nil]
        exact ⟨by simp, line_nodup h⟩
      | cons x xs => cases (List.cons.inj hm).1
    | finish =>
      cases xs with
      | nil => cases (List.cons.inj hm).1
      | cons x xs => cases (List.cons.inj hm).1
    | store addr v => exact ih hnext ha.2 hr hm

theorem window_dispatches (h : Kept M.buffer base σ) (hw : Window M σ op ops t mid) :
    ∃ xs, mid = (line (Scheduler.step M σ op).1).waiting ++ xs ∧ mid.Nodup ∧
      ((trace M (Scheduler.step M σ op) ops).takeWhile (· ≠ .stashed t)).filterMap createdOf = xs := by
  have hnext := step_kept h hw.allowed.1
  have hrun := running_after h hw.allowed.1 hw.thread hw.first
  have htrace := trace_line hnext hw.allowed.2
  rw [hw.again] at htrace
  obtain ⟨mids, last, hturns, hmids, hlast⟩ := List.map_eq_append_iff.mp htrace.symm
  obtain ⟨o, rfl, ho⟩ := List.map_eq_singleton_iff.mp hlast
  have ho : o = some t := by
    cases o with
    | none => exact absurd ho.symm hw.thread
    | some x => exact congrArg some ho
  subst ho
  have hno : some t ∉ mids := fun hmem => hw.consecutive (hmids ▸ List.mem_map.mpr ⟨some t, hmem, rfl⟩)
  obtain ⟨xs, rest, hmoves, hmid⟩ := turns_between hrun (running_notMem hnext hrun)
    (fun hmem => hw.same (mem_movesOf hmem)) hturns hno
  obtain ⟨hxs, hnodup⟩ := created_before hnext hw.allowed.2 hrun hmoves
  have heq : mid = (line (Scheduler.step M σ op).1).waiting ++ xs := by
    rw [← hmids, hmid, List.map_map]
    exact List.map_id _
  exact ⟨xs, heq, heq ▸ hnodup, hxs⟩

/-- The steps that end in `schedule`. -/
def Switches : Scheduler.Op → Prop
  | .switch _ | .finish => True
  | .create _ | .store _ _ => False

theorem main_resumed (h : Kept M.buffer base σ) (ha : Allowed M σ op) (hs : Switches op) :
    .resume 0 ∈ emitted M σ.1 op ↔
      ∀ i, Slot σ.1.poolSize i → ((Scheduler.step M σ op).1.threadPool i).state = .empty := by
  have hafter := line_empty_iff (step_kept h ha)
  rw [step_poolSize] at hafter
  rw [← hafter]
  have hnext : ∀ l : List Nat, l = [] ↔ (next l).waiting = [] ∧ (next l).running = none := fun l => by
    cases l with
    | nil => exact iff_of_true rfl ⟨rfl, rfl⟩
    | cons x l => exact iff_of_false (List.cons_ne_nil _ _) fun e => by cases e.2
  obtain ⟨s, log⟩ := σ
  cases op with
  | create f => cases hs
  | switch esp =>
    obtain ⟨hline, -, hmain⟩ := schedule_line (stash_stopped h esp)
    have hstep : line (Scheduler.step M (s, log) (.switch esp)).1 = _ := hline
    rw [hstep, ← hnext, ← hmain, emitted_switch]
    simp
  | finish =>
    obtain ⟨hline, -, hmain⟩ := schedule_line (finish_stopped h ha)
    have hstep : line (Scheduler.step M (s, log) .finish).1 = _ := hline
    rw [hstep, ← hnext, ← hmain]
    exact List.mem_reverse
  | store addr v => cases hs

/-- Round robin: between two dispatches of a thread everybody in line is
dispatched once, and the main thread goes on exactly when all slots are empty. -/
theorem round_robin (h : Reachable M n base σ) :
    (∀ op ops t mid, Window M σ op ops t mid →
      ∀ u, Awaits M (Scheduler.step M σ op) ops t u → mid.count u = 1) ∧
    ∀ op, Allowed M σ op → Switches op → (.resume 0 ∈ emitted M σ.1 op ↔
      ∀ i, Slot n i → ((Scheduler.step M σ op).1.threadPool i).state = .empty) := by
  obtain ⟨hk, rfl, -⟩ := reachable_kept h
  refine ⟨fun op ops t mid hw u hu => ?_, fun op ha hs => main_resumed hk ha hs⟩
  obtain ⟨xs, heq, hnodup, hxs⟩ := window_dispatches hk hw
  refine List.count_eq_one_of_mem hnodup ?_
  rw [heq, List.mem_append]
  rcases hu with hu | hu
  · exact .inl (List.mem_map.mpr ⟨tcbPtr u, hu, rfl⟩)
  · right
    rw [← hxs]
    exact List.mem_filterMap.mpr ⟨_, hu, rfl⟩

/-- A pool of three, with two threads created by the main thread. -/
def twoThreads : System × List Event :=
  Scheduler.step lowMachine (Scheduler.step lowMachine
    (initThread lowBuffer freshHeap (fun _ => ⟨0, .empty, 0, 0⟩) (fun _ => 0) 3, []) (.create 32)) (.create 36)

theorem twoThreads_reachable : Reachable lowMachine 3
    (initThread lowBuffer freshHeap (fun _ => ⟨0, .empty, 0, 0⟩) (fun _ => 0) 3).heap.live twoThreads := by
  have hsizes : Allocated lowBuffer freshHeap 3 := by
    refine ⟨by decide, gets_of_some (p := 4112) ?_ (by decide), gets_of_some (p := 4168) ?_ (by decide),
      gets_of_some (p := 4208) ?_ (by decide)⟩
    · decide +kernel
    · decide +kernel
    · decide +kernel
  exact ⟨freshHeap, _, _, ⟨_, .start⟩, hsizes, rfl, .step (.step .start trivial) trivial⟩

/-- The main thread yields to thread 1, which yields to thread 2, which yields back. -/
theorem twoThreads_window : Window lowMachine twoThreads (.switch 100) [.switch 200, .switch 300] 1 [2] :=
  ⟨⟨trivial, trivial, trivial, trivial⟩, by decide, by decide +kernel, by decide +kernel, by decide,
    by decide +kernel⟩

theorem round_robin_twoThreads : (∀ u, Awaits lowMachine (Scheduler.step lowMachine twoThreads (.switch 100))
      [.switch 200, .switch 300] 1 u → [2].count u = 1) ∧
    (.resume 0 ∈ emitted lowMachine twoThreads.1 (.switch 100) ↔ ∀ i, Slot 3 i →
      ((Scheduler.step lowMachine twoThreads (.switch 100)).1.threadPool i).state = .empty) :=
  ⟨(round_robin twoThreads_reachable).1 _ _ _ _ twoThreads_window,
    (round_robin twoThreads_reachable).2 _ trivial trivial⟩

end ToyOS.Threads.RoundRobin
