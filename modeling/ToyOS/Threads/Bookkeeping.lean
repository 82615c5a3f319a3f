import Mathlib.Data.List.Nodup
import Mathlib.Data.List.Perm.Subperm
import ToyOS.Threads.Scheduler

/-! # The books of the scheduler

What holds between any two steps: the ready queue holds the slots that are new
or ready, each once, the running slot is `current_tid`, and each slot in use has
a stack of its own. `schedule` is taken in two halves; between them no slot runs.
-/
namespace ToyOS.Threads.Bookkeeping
open ToyOS.Heap ToyOS.Lib.Words ToyOS.Lib.Loop ToyOS.Lib.Runs ToyOS.Lib.Tiles ToyOS.Lib.Ring
open ToyOS.Heap.Memory ToyOS.Heap.Clients ToyOS.Threads.Queue ToyOS.Threads.Scheduler

variable {M : Machine} {B : Buffer} {s s' : System} {base : List (Nat × Nat)} {l : List Nat}
variable {log ev : List Event} {cur i j n : Nat} {t : Tcb}

/-! ## The log -/

/-- The slot an entry of the log is about. -/
def about : Event → Option Nat
  | .created i | .stashed i | .start i | .resume i => some i
  | .added _ => none

/-- The newest entry about slot `i`. -/
def latest (i : Nat) (log : List Event) : Option Event := log.find? fun e => about e == some i

/-- What must have happened before an entry: a thread is started if nothing has
happened to it since its creation, and resumed if the last thing was that it was
stashed. No add is refused. -/
def Follows (log : List Event) : Event → Prop
  | .start i => latest i log = some (.created i)
  | .resume i => latest i log = some (.stashed i)
  | .added r => r = 1
  | .created _ | .stashed _ => True

def Orderly : List Event → Prop
  | [] => True
  | e :: log => Follows log e ∧ Orderly log

theorem latest_self {e : Event} (h : about e = some i) : latest i (e :: log) = some e := by
  simp [latest, h]

theorem latest_other {e : Event} (h : about e ≠ some i) : latest i (e :: log) = latest i log := by
  simp [latest, h]

/-! ## The invariants -/

/-- The slots of a pool of `n`, without that of the main thread. -/
def Slot (n i : Nat) : Prop := 1 ≤ i ∧ i < n

/-- New or ready. -/
def Waiting (t : Tcb) : Prop := t.state = .new ∨ t.state = .ready

/-- The ready queue holds the list `l`, and slot `cur` runs (none if it is 0). -/
structure Queued (pool : Nat → Tcb) (n : Nat) (q : FifoQueue) (l : List Nat) (cur : Nat) : Prop where
  queue : Represents q n l
  nodup : l.Nodup
  ids : ∀ i, Slot n i → (pool i).TID = i
  mem : ∀ p, p ∈ l ↔ ∃ i, Slot n i ∧ p = tcbPtr i ∧ Waiting (pool i)
  running : ∀ i, Slot n i → ((pool i).state = .running ↔ cur = i)

/-- The live allocations are those of `base` and one stack for each slot in use. -/
structure Stacks (B : Buffer) (base : List (Nat × Nat)) (heap : Clients.State) (pool : Nat → Tcb)
    (n : Nat) : Prop where
  served : ∃ ts, Served B heap ts
  own : ∀ i, Slot n i → (pool i).state ≠ .empty →
    ((pool i).stack, STACK_SIZE) ∈ heap.live ∧ (pool i).stack ∉ base.map (·.1)
  apart : ∀ i j, Slot n i → Slot n j → (pool i).state ≠ .empty → (pool j).state ≠ .empty →
    (pool i).stack = (pool j).stack → i = j
  only : ∀ a ∈ heap.live, a ∈ base ∨
    ∃ i, Slot n i ∧ (pool i).state ≠ .empty ∧ a = ((pool i).stack, STACK_SIZE)
  kept : ∀ a ∈ base, a ∈ heap.live

/-- The log and the states of the slots agree. -/
structure Logged (pool : Nat → Tcb) (n : Nat) (log : List Event) : Prop where
  created : ∀ i, Slot n i → (pool i).state = .new → latest i log = some (.created i)
  saved : ∀ i, Slot n i → (pool i).state = .ready → latest i log = some (.stashed i)
  orderly : Orderly log

/-- Between two steps. -/
structure Kept (B : Buffer) (base : List (Nat × Nat)) (s : System × List Event) : Prop where
  queued : ∃ l, Queued s.1.threadPool s.1.poolSize s.1.readyQueue l s.1.currentTid
  memory : Stacks B base s.1.heap s.1.threadPool s.1.poolSize
  logged : Logged s.1.threadPool s.1.poolSize s.2
  current : s.1.currentTid = 0 ∨ Slot s.1.poolSize s.1.currentTid
  esp : s.1.ptrCurrentEsp = s.1.currentTid
  main : s.1.currentTid ≠ 0 → latest 0 s.2 = some (.stashed 0)

/-! ## One slot changed -/

section
variable {pool : Nat → Tcb} {q : FifoQueue} {heap : Clients.State}

/-- A list without the main thread and without repetition does not hold all the slots. -/
theorem length_lt_of_slots (hl : l.Nodup) (h : ∀ p ∈ l, ∃ i, Slot n i ∧ p = tcbPtr i) (hn : 1 ≤ n) :
    l.length < n := by
  have hsub : l ⊆ List.range' 2 (n - 1) := fun p hp => by
    obtain ⟨i, hi, rfl⟩ := h p hp
    unfold Slot at hi
    rw [List.mem_range']
    exact ⟨i - 1, by omega, by unfold tcbPtr; omega⟩
  have hle := (List.subperm_of_subset hl hsub).length_le
  rw [List.length_range'] at hle
  omega

/-- The queue never holds all the slots. -/
theorem Queued.room (h : Queued pool n q l cur) (hn : 1 ≤ n) : l.length < n := by
  refine length_lt_of_slots h.nodup (fun p hp => ?_) hn
  obtain ⟨i, hi, e, -⟩ := (h.mem p).mp hp
  exact ⟨i, hi, e⟩

/-- A slot that was not in the queue goes to its back; `cur'` is what runs then. -/
theorem Queued.push (h : Queued pool n q l cur) (hi : Slot n i) (hold : ¬ Waiting (pool i))
    (ht : Waiting t) (hid : t.TID = i) {cur' : Nat}
    (hcur : ∀ j, Slot n j → (cur' = j ↔ cur = j ∧ j ≠ i)) :
    Queued (Function.update pool i t) n (queueAdd q (tcbPtr i)).1 (l ++ [tcbPtr i]) cur' ∧
      (queueAdd q (tcbPtr i)).2 = 1 := by
  have hroom := h.room (by unfold Slot at hi; omega)
  have hadd := h.queue.add (tcbPtr i)
  rw [listAdd, if_pos hroom] at hadd
  have hother : ∀ j, j ≠ i → Function.update pool i t j = pool j :=
    fun j hj => Function.update_of_ne hj _ _
  have hnot : tcbPtr i ∉ l := fun hmem => by
    obtain ⟨j, -, e, hw⟩ := (h.mem _).mp hmem
    obtain rfl : i = j := Nat.succ.inj e
    exact hold hw
  refine ⟨⟨hadd.1, ?_, fun j hj => ?_, fun p => ?_, fun j hj => ?_⟩, hadd.2⟩
  · exact List.nodup_append.mpr ⟨h.nodup, by simp, fun a ha b hb => by
      rw [List.mem_singleton.mp hb]
      exact fun e => hnot (e ▸ ha)⟩
  · by_cases hji : j = i
    · subst hji
      rw [Function.update_self, hid]
    · rw [hother j hji]
      exact h.ids j hj
  · rw [List.mem_append, List.mem_singleton, h.mem]
    constructor
    · intro hp
      rcases hp with ⟨j, hj, rfl, hw⟩ | rfl
      · have hji : j ≠ i := fun e => hold (e ▸ hw)
        exact ⟨j, hj, rfl, by rwa [hother j hji]⟩
      · exact ⟨i, hi, rfl, by rwa [Function.update_self]⟩
    · intro hp
      obtain ⟨j, hj, rfl, hw⟩ := hp
      by_cases hji : j = i
      · exact .inr (by rw [hji])
      · rw [hother j hji] at hw
        exact .inl ⟨j, hj, rfl, hw⟩
  · rw [hcur j hj]
    by_cases hji : j = i
    · subst hji
      rw [Function.update_self]
      refine iff_of_false (fun e => ?_) fun hne => hne.2 rfl
      unfold Waiting at ht
      rw [e] at ht
      obtain ht | ht := ht <;> cases ht
    · rw [hother j hji, h.running j hj]
      exact ⟨fun e => ⟨e, hji⟩, fun e => e.1⟩

/-- The slot at the front of the queue starts to run. -/
theorem Queued.pop {p : Nat} (h : Queued pool n q (p :: l) 0) :
    ∃ i, Slot n i ∧ p = tcbPtr i ∧ Waiting (pool i) ∧ (queuePoll q).2 = p ∧
      Queued (Function.update pool i { pool i with state := .running }) n (queuePoll q).1 l i := by
  obtain ⟨i, hi, rfl, hw⟩ := (h.mem p).mp List.mem_cons_self
  have hpoll := h.queue.poll
  obtain ⟨hnot, hnodup⟩ := List.nodup_cons.mp h.nodup
  have hother : ∀ j, j ≠ i → Function.update pool i { pool i with state := .running } j = pool j :=
    fun j hj => Function.update_of_ne hj _ _
  refine ⟨i, hi, rfl, hw, hpoll.2, hpoll.1, hnodup, fun j hj => ?_, fun p => ?_, fun j hj => ?_⟩
  · by_cases hji : j = i
    · subst hji
      rw [Function.update_self]
      exact h.ids j hj
    · rw [hother j hji]
      exact h.ids j hj
  · constructor
    · intro hp
      obtain ⟨j, hj, rfl, hw⟩ := (h.mem p).mp (List.mem_cons_of_mem _ hp)
      have hji : j ≠ i := fun e => hnot (e ▸ hp)
      exact ⟨j, hj, rfl, by rwa [hother j hji]⟩
    · intro hp
      obtain ⟨j, hj, rfl, hw⟩ := hp
      have hji : j ≠ i := fun e => by
        subst e
        rw [Function.update_self] at hw
        obtain hw | hw := hw <;> cases hw
      rw [hother j hji] at hw
      rcases List.mem_cons.mp ((h.mem (tcbPtr j)).mpr ⟨j, hj, rfl, hw⟩) with hp | hp
      · exact absurd (Nat.succ.inj hp) hji
      · exact hp
  · by_cases hji : j = i
    · subst hji
      rw [Function.update_self]
      exact iff_of_true rfl rfl
    · have hzero : (0 : Nat) ≠ j := by unfold Slot at hj; omega
      rw [hother j hji, h.running j hj]
      exact iff_of_false hzero (Ne.symm hji)

/-- Only stack pointers change, or the slot that ran stops. -/
theorem Queued.congr {pool' : Nat → Tcb} {cur' : Nat} (h : Queued pool n q l cur)
    (hid : ∀ j, (pool' j).TID = (pool j).TID)
    (hw : ∀ j, Slot n j → (Waiting (pool' j) ↔ Waiting (pool j)))
    (hr : ∀ j, Slot n j → ((pool' j).state = .running ↔ cur' = j)) : Queued pool' n q l cur' := by
  refine ⟨h.queue, h.nodup, fun j hj => (hid j).trans (h.ids j hj), fun p => ?_, hr⟩
  rw [h.mem]
  constructor
  · intro hp
    obtain ⟨j, hj, e, hwait⟩ := hp
    exact ⟨j, hj, e, (hw j hj).mpr hwait⟩
  · intro hp
    obtain ⟨j, hj, e, hwait⟩ := hp
    exact ⟨j, hj, e, (hw j hj).mp hwait⟩

/-- Stacks depend only on which slots are in use and on their stacks. -/
theorem Stacks.update (h : Stacks B base heap pool n) (hused : t.state ≠ .empty ↔ (pool i).state ≠ .empty)
    (hstack : t.stack = (pool i).stack) : Stacks B base heap (Function.update pool i t) n := by
  have hsame : ∀ j, ((Function.update pool i t j).state ≠ .empty ↔ (pool j).state ≠ .empty) ∧
      (Function.update pool i t j).stack = (pool j).stack := fun j => by
    by_cases hj : j = i
    · subst hj
      rw [Function.update_self]
      exact ⟨hused, hstack⟩
    · rw [Function.update_of_ne hj]
      exact ⟨Iff.rfl, rfl⟩
  refine ⟨h.served, fun j hj he => ?_, fun j k hj hk he he' e => ?_, fun a ha => ?_, h.kept⟩
  · rw [(hsame j).2]
    exact h.own j hj ((hsame j).1.mp he)
  · rw [(hsame j).2, (hsame k).2] at e
    exact h.apart j k hj hk ((hsame j).1.mp he) ((hsame k).1.mp he') e
  · rcases h.only a ha with ha | ⟨j, hj, he, e⟩
    · exact .inl ha
    · exact .inr ⟨j, hj, (hsame j).1.mpr he, by rw [e, (hsame j).2]⟩

/-- Slots that stop waiting need nothing from the log. -/
theorem Logged.congr {pool' : Nat → Tcb} (h : Logged pool n log)
    (hnew : ∀ j, Slot n j → (pool' j).state = .new → (pool j).state = .new)
    (hready : ∀ j, Slot n j → (pool' j).state = .ready → (pool j).state = .ready) :
    Logged pool' n log :=
  ⟨fun j hj hs => h.created j hj (hnew j hj hs), fun j hj hs => h.saved j hj (hready j hj hs),
    h.orderly⟩

/-- One slot changed, as its last entry in the log has it. -/
theorem Logged.set (h : Logged pool n log) (hnew : t.state = .new → latest i log = some (.created i))
    (hready : t.state = .ready → latest i log = some (.stashed i)) :
    Logged (Function.update pool i t) n log := by
  refine ⟨fun j hj hs => ?_, fun j hj hs => ?_, h.orderly⟩
  · by_cases hji : j = i
    · subst hji
      rw [Function.update_self] at hs
      exact hnew hs
    · rw [Function.update_of_ne hji] at hs
      exact h.created j hj hs
  · by_cases hji : j = i
    · subst hji
      rw [Function.update_self] at hs
      exact hready hs
    · rw [Function.update_of_ne hji] at hs
      exact h.saved j hj hs

/-- A further entry of the log, about no slot that waits. -/
theorem Logged.more (h : Logged pool n log) {e : Event} (hf : Follows log e)
    (habout : ∀ j, Slot n j → Waiting (pool j) → about e ≠ some j) : Logged pool n (e :: log) :=
  ⟨fun j hj hs => (latest_other (habout j hj (.inl hs))).trans (h.created j hj hs),
    fun j hj hs => (latest_other (habout j hj (.inr hs))).trans (h.saved j hj hs), hf, h.orderly⟩

/-- What `queue_add` returned is about no slot. -/
theorem Logged.added (h : Logged pool n log) : Logged pool n (.added 1 :: log) :=
  h.more rfl fun _ _ _ => by simp [about]

end

/-! ## A switch -/

/-- What `schedule` finds: the slot that ran is stashed, and so is the main thread. -/
structure Stopped (B : Buffer) (base : List (Nat × Nat)) (s : System) (log : List Event) : Prop where
  queued : ∃ l, Queued s.threadPool s.poolSize s.readyQueue l s.currentTid
  memory : Stacks B base s.heap s.threadPool s.poolSize
  logged : Logged s.threadPool s.poolSize log
  current : s.currentTid = 0 ∨ Slot s.poolSize s.currentTid
  stashed : s.currentTid ≠ 0 → latest s.currentTid log = some (.stashed s.currentTid)
  main : latest 0 log = some (.stashed 0)

/-- Between the halves of `schedule` no slot runs. -/
structure Idle (B : Buffer) (base : List (Nat × Nat)) (s : System) (log : List Event) : Prop where
  queued : ∃ l, Queued s.threadPool s.poolSize s.readyQueue l 0
  memory : Stacks B base s.heap s.threadPool s.poolSize
  logged : Logged s.threadPool s.poolSize log
  main : latest 0 log = some (.stashed 0)

theorem requeue_eq (hc : s.currentTid ≠ 0) : requeue s =
    ({ s with
        threadPool := Function.update s.threadPool s.currentTid
          { s.threadPool s.currentTid with state := .ready },
        readyQueue := (queueAdd s.readyQueue (tcbPtr s.currentTid)).1 },
      [.added (queueAdd s.readyQueue (tcbPtr s.currentTid)).2]) := by
  unfold requeue
  rw [if_pos hc]
  rfl

theorem not_waiting_running (h : t.state = .running) : ¬ Waiting t := by
  unfold Waiting
  rw [h]
  decide

theorem not_waiting_empty (h : t.state = .empty) : ¬ Waiting t := by
  unfold Waiting
  rw [h]
  decide

/-- The thread that ran is put into the queue. -/
theorem requeue_idle (h : Stopped B base s log) : Idle B base (requeue s).1 ((requeue s).2 ++ log) := by
  obtain ⟨l, hq⟩ := h.queued
  by_cases hc : s.currentTid = 0
  · have he : requeue s = (s, []) := by
      unfold requeue
      rw [if_neg (not_not.mpr hc)]
    rw [he]
    rw [hc] at hq
    exact ⟨⟨l, hq⟩, h.memory, h.logged, h.main⟩
  · have hslot := h.current.resolve_left hc
    have hrun : (s.threadPool s.currentTid).state = .running := (hq.running _ hslot).mpr rfl
    have hcur : ∀ j, Slot s.poolSize j → (0 = j ↔ s.currentTid = j ∧ j ≠ s.currentTid) := fun j hj => by
      unfold Slot at hj
      omega
    obtain ⟨hpush, hone⟩ := hq.push (t := { s.threadPool s.currentTid with state := .ready }) hslot
      (not_waiting_running hrun) (.inr rfl) (hq.ids _ hslot) hcur
    rw [requeue_eq hc, hone]
    refine ⟨⟨_, hpush⟩, h.memory.update (by simp [hrun]) rfl, ?_, ?_⟩
    · exact Logged.added (h.logged.set (fun hs => by cases hs) fun _ => h.stashed hc)
    · exact (latest_other (by simp [about])).trans h.main

/-- Nobody waits: the main thread goes on. -/
theorem dispatch_nil (hq : Queued s.threadPool s.poolSize s.readyQueue [] 0) : dispatch s =
    ({ s with readyQueue := (queuePoll s.readyQueue).1, currentTid := 0, ptrCurrentEsp := 0 },
      [.resume 0]) := by
  unfold dispatch
  dsimp only
  rw [hq.queue.poll.2, if_pos (show (listPoll []).2 = 0 from rfl)]

/-- Slot `i` is first in the queue: it runs. -/
theorem dispatch_cons (hq : Queued s.threadPool s.poolSize s.readyQueue (tcbPtr i :: l) 0)
    (hi : Slot s.poolSize i) : dispatch s =
    ({ s with
        readyQueue := (queuePoll s.readyQueue).1
        threadPool := Function.update s.threadPool i { s.threadPool i with state := .running }
        currentTid := i, ptrCurrentEsp := i },
      if (s.threadPool i).state = .new then [.start i] else [.resume i]) := by
  unfold dispatch
  dsimp only
  rw [hq.queue.poll.2, if_neg (show (listPoll (tcbPtr i :: l)).2 ≠ 0 from Nat.succ_ne_zero i)]
  simp only [System.setThread, show slotOf (listPoll (tcbPtr i :: l)).2 = i from rfl,
    Function.update_self, hq.ids i hi]

/-- The thread at the front of the queue runs, or the main thread. -/
theorem dispatch_kept (h : Idle B base s log) : Kept B base ((dispatch s).1, (dispatch s).2 ++ log) := by
  obtain ⟨l, hq⟩ := h.queued
  cases l with
  | nil =>
    have hpoll := hq.queue.poll
    rw [dispatch_nil hq]
    refine ⟨⟨[], hpoll.1, hq.nodup, hq.ids, hq.mem, hq.running⟩, h.memory, ?_, .inl rfl, rfl,
      fun hne => absurd rfl hne⟩
    exact h.logged.more h.main fun j hj _ e => by
      obtain rfl := Option.some.inj e
      exact absurd hj.1 (by decide)
  | cons p l =>
    obtain ⟨i, hi, rfl, hw, -, hpop⟩ := hq.pop
    have hrun : Logged (Function.update s.threadPool i { s.threadPool i with state := .running })
        s.poolSize log := h.logged.set (fun hs => by cases hs) fun hs => by cases hs
    have hothers : ∀ j, Slot s.poolSize j →
        Waiting (Function.update s.threadPool i { s.threadPool i with state := .running } j) → j ≠ i := by
      intro j _ hwj e
      subst e
      rw [Function.update_self] at hwj
      exact not_waiting_running rfl hwj
    have hmem : Stacks B base s.heap
        (Function.update s.threadPool i { s.threadPool i with state := .running }) s.poolSize := by
      refine h.memory.update (iff_of_true (by simp) fun he => not_waiting_empty he hw) rfl
    have hzero : i ≠ 0 := by unfold Slot at hi; omega
    rw [dispatch_cons hq hi]
    by_cases hnew : (s.threadPool i).state = .new
    · rw [if_pos hnew]
      refine ⟨⟨l, hpop⟩, hmem, ?_, .inr hi, rfl, fun _ => ?_⟩
      · exact hrun.more (h.logged.created i hi hnew) fun j hj hwj e =>
          hothers j hj hwj (Option.some.inj e).symm
      · exact (latest_other (by simp [about, hzero])).trans h.main
    · rw [if_neg hnew]
      refine ⟨⟨l, hpop⟩, hmem, ?_, .inr hi, rfl, fun _ => ?_⟩
      · exact hrun.more (h.logged.saved i hi (hw.resolve_left hnew)) fun j hj hwj e =>
          hothers j hj hwj (Option.some.inj e).symm
      · exact (latest_other (by simp [about, hzero])).trans h.main

theorem schedule_kept (h : Stopped B base s log) : Kept B base ((schedule s).1, (schedule s).2 ++ log) := by
  have hk := dispatch_kept (requeue_idle h)
  rw [← List.append_assoc] at hk
  exact hk

/-- What `stash` leaves to `schedule`. -/
theorem stash_stopped (h : Kept B base (s, log)) (esp : Nat) :
    Stopped B base (s.setThread s.ptrCurrentEsp { s.threadPool s.ptrCurrentEsp with esp := esp })
      (.stashed s.ptrCurrentEsp :: log) := by
  obtain ⟨l, hq⟩ : ∃ l, Queued s.threadPool s.poolSize s.readyQueue l s.currentTid := h.queued
  have hp : s.ptrCurrentEsp = s.currentTid := h.esp
  rw [hp]
  generalize ht : ({ s.threadPool s.currentTid with esp := esp } : Tcb) = t
  have hsame : ∀ j, ((s.setThread s.currentTid t).threadPool j).TID = (s.threadPool j).TID ∧
      ((s.setThread s.currentTid t).threadPool j).state = (s.threadPool j).state := fun j => by
    unfold System.setThread
    dsimp only
    by_cases hj : j = s.currentTid
    · subst hj
      rw [Function.update_self, ← ht]
      exact ⟨rfl, rfl⟩
    · rw [Function.update_of_ne hj]
      exact ⟨rfl, rfl⟩
  have hwait : ∀ j, Slot s.poolSize j → Waiting (s.threadPool j) → s.currentTid ≠ j :=
    fun j hj hw e => not_waiting_running ((hq.running j hj).mpr e) hw
  refine ⟨⟨l, hq.congr (fun j => (hsame j).1) (fun j _ => ?_) fun j hj => ?_⟩,
    h.memory.update (by rw [← ht]) (by rw [← ht]), ?_, h.current, fun _ => ?_, ?_⟩
  · unfold Waiting
    rw [(hsame j).2]
  · rw [(hsame j).2]
    exact hq.running j hj
  · have hmore : Logged s.threadPool s.poolSize (.stashed s.currentTid :: log) :=
      h.logged.more trivial fun j hj hw e => hwait j hj hw (Option.some.inj e)
    refine hmore.congr ?_ ?_
    · exact fun j _ hs => (hsame j).2.symm.trans hs
    · exact fun j _ hs => (hsame j).2.symm.trans hs
  · exact latest_self rfl
  · by_cases hc : s.currentTid = 0
    · rw [hc]
      exact latest_self rfl
    · have hne : about (.stashed s.currentTid) ≠ some 0 := fun e => hc (Option.some.inj e)
      exact (latest_other hne).trans (h.main hc)

/-- A call of `yield`, or a timer interrupt. -/
theorem stash_kept (h : Kept B base (s, log)) (esp : Nat) :
    Kept B base ((stash s esp).1, (stash s esp).2 ++ log) := by
  have hk := schedule_kept (stash_stopped h esp)
  have hlog : (stash s esp).2 ++ log = (schedule (s.setThread s.ptrCurrentEsp
      { s.threadPool s.ptrCurrentEsp with esp := esp })).2 ++ (.stashed s.ptrCurrentEsp :: log) := by
    unfold stash
    dsimp only
    rw [List.append_assoc]
    rfl
  rw [hlog]
  exact hk

/-- The stack of slot `i` is given back and the slot is empty. -/
theorem Stacks.release {pool : Nat → Tcb} {heap : Clients.State} (h : Stacks B base heap pool n)
    (hi : Slot n i) (he : (pool i).state ≠ .empty) (ht : t.state = .empty) :
    Stacks B base (Clients.step B heap (.free (pool i).stack)) (Function.update pool i t) n := by
  obtain ⟨hlive, hbase⟩ := h.own i hi he
  obtain ⟨ts, hs⟩ := h.served
  obtain ⟨ts', hs', -⟩ := hs.free (.inr (List.mem_map.mpr ⟨_, hlive, rfl⟩))
  have hfilter : (Clients.step B heap (.free (pool i).stack)).live =
      heap.live.filter (·.1 ≠ (pool i).stack) := rfl
  have hother : ∀ j, (Function.update pool i t j).state ≠ .empty →
      j ≠ i ∧ Function.update pool i t j = pool j := fun j hj => by
    have hji : j ≠ i := fun e => by
      subst e
      rw [Function.update_self] at hj
      exact hj ht
    exact ⟨hji, Function.update_of_ne hji _ _⟩
  refine ⟨⟨ts', hs'⟩, fun j hj hej => ?_, fun j k hj hk hej hek e => ?_, fun a ha => ?_, fun a ha => ?_⟩
  · obtain ⟨hji, e⟩ := hother j hej
    rw [e] at hej ⊢
    obtain ⟨hl, hb⟩ := h.own j hj hej
    refine ⟨?_, hb⟩
    rw [hfilter, List.mem_filter]
    exact ⟨hl, by simpa using fun e => hji (h.apart j i hj hi hej he e)⟩
  · rw [(hother j hej).2, (hother k hek).2] at e
    rw [(hother j hej).2] at hej
    rw [(hother k hek).2] at hek
    exact h.apart j k hj hk hej hek e
  · rw [hfilter, List.mem_filter] at ha
    rcases h.only a ha.1 with hb | ⟨j, hj, hej, e⟩
    · exact .inl hb
    · have hji : j ≠ i := fun e' => by
        subst e'
        rw [e] at ha
        simp at ha
      rw [← Function.update_of_ne hji t pool] at hej e
      exact .inr ⟨j, hj, hej, e⟩
  · rw [hfilter, List.mem_filter]
    refine ⟨h.kept a ha, ?_⟩
    simpa using fun e => hbase (List.mem_map.mpr ⟨a, ha, e⟩)

/-- What `finish` leaves to `schedule`: the slot empty, its stack given back. -/
def finished (M : Machine) (s : System) : System :=
  { s with
    threadPool := Function.update s.threadPool s.currentTid { s.threadPool s.currentTid with state := .empty }
    heap := Clients.step M.buffer s.heap (.free (s.threadPool s.currentTid).stack)
    currentTid := 0 }

theorem finish_eq (s : System) : finish M s = schedule (finished M s) := rfl

theorem finish_stopped (h : Kept M.buffer base (s, log)) (hc : s.currentTid ≠ 0) :
    Stopped M.buffer base (finished M s) log := by
  obtain ⟨l, hq⟩ : ∃ l, Queued s.threadPool s.poolSize s.readyQueue l s.currentTid := h.queued
  have hslot : Slot s.poolSize s.currentTid := h.current.resolve_left hc
  have hrun : (s.threadPool s.currentTid).state = .running := (hq.running _ hslot).mpr rfl
  unfold finished
  generalize ht : ({ s.threadPool s.currentTid with state := .empty } : Tcb) = t
  have hempty : t.state = .empty := by rw [← ht]
  have hother : ∀ j, j ≠ s.currentTid → Function.update s.threadPool s.currentTid t j = s.threadPool j :=
    fun j hj => Function.update_of_ne hj _ _
  have hself : Function.update s.threadPool s.currentTid t s.currentTid = t := Function.update_self ..
  have hqueued : Queued (Function.update s.threadPool s.currentTid t) s.poolSize s.readyQueue l 0 := by
    refine hq.congr (fun j => ?_) (fun j hj => ?_) fun j hj => ?_
    · by_cases hj : j = s.currentTid
      · rw [hj, hself, ← ht]
      · rw [hother j hj]
    · by_cases hj : j = s.currentTid
      · rw [hj, hself]
        exact iff_of_false (not_waiting_empty hempty) (not_waiting_running hrun)
      · rw [hother j hj]
    · by_cases hjc : j = s.currentTid
      · rw [hjc, hself, hempty]
        exact iff_of_false (by decide) (Ne.symm hc)
      · rw [hother j hjc, hq.running j hj]
        have hzero : (0 : Nat) ≠ j := by unfold Slot at hj; omega
        exact iff_of_false (Ne.symm hjc) hzero
  have hmem : Stacks M.buffer base
      (Clients.step M.buffer s.heap (.free (s.threadPool s.currentTid).stack))
      (Function.update s.threadPool s.currentTid t) s.poolSize :=
    Stacks.release h.memory hslot (by rw [hrun]; decide) hempty
  have hlog : Logged (Function.update s.threadPool s.currentTid t) s.poolSize log :=
    Logged.set h.logged (fun hs => by rw [hempty] at hs; cases hs)
      fun hs => by rw [hempty] at hs; cases hs
  exact ⟨⟨l, hqueued⟩, hmem, hlog, .inl rfl, fun hne => absurd rfl hne, h.main hc⟩

/-- The end of a thread. -/
theorem finish_kept (h : Kept M.buffer base (s, log)) (hc : s.currentTid ≠ 0) :
    Kept M.buffer base ((finish M s).1, (finish M s).2 ++ log) := by
  rw [finish_eq]
  exact schedule_kept (finish_stopped h hc)

/-! ## A thread created -/

/-- The heap changes, its allocations do not. -/
theorem Stacks.heap {pool : Nat → Tcb} {heap heap' : Clients.State} (h : Stacks B base heap pool n)
    (hs : ∃ ts, Served B heap' ts) (hlive : heap'.live = heap.live) : Stacks B base heap' pool n := by
  refine ⟨hs, fun j hj he => ?_, h.apart, fun a ha => ?_, fun a ha => ?_⟩
  · rw [hlive]
    exact h.own j hj he
  · rw [hlive] at ha
    exact h.only a ha
  · rw [hlive]
    exact h.kept a ha

/-- Slot `i`, which was empty, gets a new allocation as its stack. -/
theorem Stacks.take {pool : Nat → Tcb} {heap heap' : Clients.State} (h : Stacks B base heap pool n)
    (hi : Slot n i) (he : (pool i).state = .empty) (ht : t.state ≠ .empty)
    (hs : ∃ ts, Served B heap' ts) (hlive : heap'.live = (t.stack, STACK_SIZE) :: heap.live) :
    Stacks B base heap' (Function.update pool i t) n := by
  have hfresh : t.stack ∉ heap.live.map (·.1) := by
    obtain ⟨ts, hs⟩ := hs
    have hnodup := hs.nodup
    rw [hlive] at hnodup
    exact (List.nodup_cons.mp hnodup).1
  have hother : ∀ j, j ≠ i → Function.update pool i t j = pool j :=
    fun j hj => Function.update_of_ne hj _ _
  have hold : ∀ j, Slot n j → (pool j).state ≠ .empty → (pool j).stack ≠ t.stack :=
    fun j hj hej e => hfresh (List.mem_map.mpr ⟨_, (h.own j hj hej).1, e⟩)
  refine ⟨hs, fun j hj hej => ?_, fun j k hj hk hej hek e => ?_, fun a ha => ?_, fun a ha => ?_⟩
  · rw [hlive]
    by_cases hji : j = i
    · subst hji
      rw [Function.update_self]
      refine ⟨List.mem_cons_self, fun hb => hfresh ?_⟩
      obtain ⟨a, ha, e⟩ := List.mem_map.mp hb
      exact List.mem_map.mpr ⟨a, h.kept a ha, e⟩
    · rw [hother j hji] at hej ⊢
      obtain ⟨hl, hb⟩ := h.own j hj hej
      exact ⟨List.mem_cons_of_mem _ hl, hb⟩
  · by_cases hji : j = i
    · by_cases hki : k = i
      · rw [hji, hki]
      · rw [hji, Function.update_self, hother k hki] at e
        rw [hother k hki] at hek
        exact absurd e.symm (hold k hk hek)
    · rw [hother j hji] at e hej
      by_cases hki : k = i
      · rw [hki, Function.update_self] at e
        exact absurd e (hold j hj hej)
      · rw [hother k hki] at e hek
        exact h.apart j k hj hk hej hek e
  · rw [hlive, List.mem_cons] at ha
    rcases ha with rfl | ha
    · exact .inr ⟨i, hi, by rwa [Function.update_self], by rw [Function.update_self]⟩
    · rcases h.only a ha with hb | ⟨j, hj, hej, e⟩
      · exact .inl hb
      · have hji : j ≠ i := fun e' => by
          subst e'
          exact hej he
        rw [← hother j hji] at hej e
        exact .inr ⟨j, hj, hej, e⟩
  · rw [hlive]
    exact List.mem_cons_of_mem _ (h.kept a ha)

/-- A new thread goes into the queue. -/
theorem created_kept (h : Kept B base (s, log)) (hi : Slot s.poolSize i)
    (he : (s.threadPool i).state = .empty) {heap : Clients.State} (ht : t.state = .new)
    (hid : t.TID = (s.threadPool i).TID) (hs : ∃ ts, Served B heap ts)
    (hlive : heap.live = (t.stack, STACK_SIZE) :: s.heap.live) :
    Kept B base ({ s with
        heap := heap
        threadPool := Function.update s.threadPool i t
        readyQueue := (queueAdd s.readyQueue (tcbPtr i)).1 },
      [.added (queueAdd s.readyQueue (tcbPtr i)).2, .created i] ++ log) := by
  obtain ⟨l, hq⟩ : ∃ l, Queued s.threadPool s.poolSize s.readyQueue l s.currentTid := h.queued
  have hcur : ∀ j, Slot s.poolSize j → (s.currentTid = j ↔ s.currentTid = j ∧ j ≠ i) := fun j hj => by
    refine ⟨fun e => ⟨e, fun e' => ?_⟩, fun e => e.1⟩
    subst e'
    have hrun := (hq.running j hj).mpr e
    rw [he] at hrun
    cases hrun
  obtain ⟨hpush, hone⟩ := hq.push hi (not_waiting_empty he) (.inl ht) (hid.trans (hq.ids i hi)) hcur
  have hzero : i ≠ 0 := by unfold Slot at hi; omega
  rw [hone]
  refine ⟨⟨_, hpush⟩, Stacks.take h.memory hi he (by rw [ht]; decide) hs hlive, ?_, h.current, h.esp,
    fun hc => ?_⟩
  · refine Logged.added ?_
    have hmore : Logged s.threadPool s.poolSize (.created i :: log) :=
      h.logged.more trivial fun j hj hw e => by
        obtain rfl := Option.some.inj e
        exact not_waiting_empty he hw
    exact hmore.set (fun _ => latest_self rfl) fun hs => by rw [ht] at hs; cases hs
  · refine (latest_other (by simp [about])).trans ((latest_other ?_).trans (h.main hc))
    simp [about, hzero]

theorem create_kept (h : Kept M.buffer base (s, log)) (f : Nat) :
    ∃ r, threadCreate M s f = some r ∧ Kept M.buffer base (r.1, r.2.2 ++ log) := by
  obtain ⟨ts, hs⟩ := h.memory.served
  have hsize : STACK_SIZE < 2 ^ 32 - 15 := by decide
  obtain ⟨⟨r, hr⟩, ts', hs', -⟩ := hs.malloc hsize
  unfold threadCreate
  cases hf : firstIdx (fun i => (s.threadPool i).state == .empty) 1 (s.poolSize - 1) with
  | none => exact ⟨_, rfl, h⟩
  | some i =>
    obtain ⟨h1, h2, he, -⟩ := firstIdx_eq_some.mp hf
    have hi : Slot s.poolSize i := ⟨h1, by omega⟩
    rw [beq_iff_eq] at he
    dsimp only
    rw [hr]
    refine ⟨_, rfl, ?_⟩
    dsimp only
    by_cases h0 : r.2 = 0
    · rw [if_pos h0]
      refine ⟨h.queued, Stacks.heap h.memory ⟨ts', hs'⟩ ?_, h.logged, h.current, h.esp, h.main⟩
      simp only [Clients.step, hr, Option.elim_some, if_pos h0]
    · rw [if_neg h0]
      have hlive : (Clients.step M.buffer s.heap (.malloc STACK_SIZE)).live =
          (r.2, STACK_SIZE) :: s.heap.live := by
        simp only [Clients.step, hr, Option.elim_some, if_neg h0]
      refine created_kept h hi he (t := ⟨_, _, _, _⟩) rfl rfl ⟨ts', hs'.stores fun x hx => ?_⟩ hlive
      -- the two words lie in the new stack
      refine .inl ⟨r.2, STACK_SIZE, by rw [hlive]; exact List.mem_cons_self, ?_⟩
      by_contra hout
      refine hx ?_
      unfold STACK_SIZE at hout ⊢
      rw [Blocks.putW_other _ _ (by omega), Blocks.putW_other _ _ (by omega)]

/-! ## Runs -/

theorem store_kept (h : Kept M.buffer base (s, log)) {addr : Nat} {v : UInt8}
    (ha : Clients.Allowed M.buffer s.heap (.write addr v)) :
    Kept M.buffer base ({ s with heap := Clients.step M.buffer s.heap (.write addr v) }, log) := by
  obtain ⟨ts, hs⟩ := h.memory.served
  exact ⟨h.queued, Stacks.heap h.memory ⟨ts, hs.write ha v⟩ rfl, h.logged, h.current, h.esp, h.main⟩

theorem step_kept {σ : System × List Event} {op : Scheduler.Op} (h : Kept M.buffer base σ)
    (ha : Allowed M σ op) : Kept M.buffer base (step M σ op) := by
  obtain ⟨s, log⟩ := σ
  cases op with
  | create f =>
    obtain ⟨r, hr, hk⟩ := create_kept h f
    unfold Scheduler.step Scheduler.call
    dsimp only
    rw [hr]
    exact hk
  | switch esp => exact stash_kept h esp
  | finish => exact finish_kept h ha
  | store addr v => exact store_kept h ha

theorem malloc_served {heap : Clients.State} (h : ∃ ts, Served B heap ts) {size : Nat}
    (hsize : size < 2 ^ 32 - 15) : ∃ ts, Served B (Clients.step B heap (.malloc size)) ts := by
  obtain ⟨ts, hs⟩ := h
  obtain ⟨-, ts', hs', -⟩ := hs.malloc hsize
  exact ⟨ts', hs'⟩

theorem init_kept {heap : Clients.State} (h : Clients.Reachable B heap) (ha : Allocated B heap n)
    (pool : Nat → Tcb) (elements : Nat → Nat) :
    Kept B (initThread B heap pool elements n).heap.live (initThread B heap pool elements n, []) := by
  have hword : n * 16 < 2 ^ 32 := ha.word
  have hempty : ∀ i, Slot n i → ((initThread B heap pool elements n).threadPool i).TID = i ∧
      ((initThread B heap pool elements n).threadPool i).state = .empty := fun i hi => by
    have hi : 1 ≤ i ∧ i < n := hi
    unfold initThread
    dsimp only
    rw [if_pos hi]
    exact ⟨rfl, rfl⟩
  have hnone : ∀ i, Slot n i → ¬ Waiting ((initThread B heap pool elements n).threadPool i) :=
    fun i hi => not_waiting_empty (hempty i hi).2
  refine ⟨⟨[], newQueue_represents elements (by omega), List.nodup_nil, fun i hi => (hempty i hi).1,
    fun p => ?_, fun i hi => ?_⟩, ⟨?_, fun i hi he => ?_, fun i j hi _ he => ?_, fun a ha => .inl ha,
    fun a ha => ha⟩, ⟨fun i hi hs => ?_, fun i hi hs => ?_, trivial⟩, .inl rfl, rfl,
    fun hne => absurd rfl hne⟩
  · refine iff_of_false (List.not_mem_nil) fun hp => ?_
    obtain ⟨i, hi, -, hw⟩ := hp
    exact hnone i hi hw
  · rw [(hempty i hi).2]
    have hzero : (0 : Nat) ≠ i := by unfold Slot at hi; omega
    exact iff_of_false (by decide) hzero
  · refine malloc_served (malloc_served (malloc_served (reachable_served h) ?_) (by decide)) ?_
    · unfold TCB_SIZE
      omega
    · omega
  · exact absurd (hempty i hi).2 he
  · exact absurd (hempty i hi).2 he
  · exact absurd (.inl hs) (hnone i hi)
  · exact absurd (.inr hs) (hnone i hi)

theorem schedule_poolSize (s : System) : (schedule s).1.poolSize = s.poolSize := by
  have hr : (requeue s).1.poolSize = s.poolSize := by
    unfold requeue
    split <;> rfl
  have hd : ∀ s : System, (dispatch s).1.poolSize = s.poolSize := fun s => by
    unfold dispatch
    dsimp only
    split <;> rfl
  exact (hd _).trans hr

theorem step_poolSize (σ : System × List Event) (op : Scheduler.Op) :
    (step M σ op).1.poolSize = σ.1.poolSize := by
  unfold Scheduler.step
  cases hc : call M σ.1 op with
  | none => rfl
  | some r =>
    show r.1.poolSize = _
    cases op with
    | create f =>
      obtain ⟨r', hr', rfl⟩ := Option.map_eq_some_iff.mp hc
      unfold threadCreate at hr'
      split at hr'
      · rw [← Option.some.inj hr']
      · obtain ⟨r, -, e⟩ := Option.map_eq_some_iff.mp hr'
        dsimp only at e
        split at e
        · rw [← e]
        · rw [← e]
          rfl
    | switch esp =>
      rw [← Option.some.inj hc]
      exact schedule_poolSize _
    | finish =>
      rw [← Option.some.inj hc]
      exact schedule_poolSize _
    | store addr v =>
      rw [← Option.some.inj hc]

theorem reachable_kept {σ : System × List Event} (h : Reachable M n base σ) :
    Kept M.buffer base σ ∧ σ.1.poolSize = n ∧ base.Nodup := by
  obtain ⟨heap, pool, elements, hheap, ha, rfl, h⟩ := h
  have h0 := init_kept hheap ha pool elements
  have hrun := h.invariant (I := fun σ => Kept M.buffer _ σ ∧ σ.1.poolSize = n) ⟨h0, rfl⟩
    fun σ op hop hk => ⟨step_kept hk.1 hop, (step_poolSize σ op).trans hk.2⟩
  obtain ⟨ts, hs⟩ := h0.memory.served
  exact ⟨hrun.1, hrun.2, List.Nodup.of_map _ hs.nodup⟩

/-! ## The books -/

instance : DecidablePred Waiting := fun _ => inferInstanceAs (Decidable (_ ∨ _))

/-- The pointers in the ready queue, from its front. -/
def contents (q : FifoQueue) : List Nat :=
  (List.range ((q.tail + q.size - q.head) % q.size)).map fun j => q.elements ((q.head + j) % q.size)

/-- The stacks of the slots in use. -/
def stacksOf (s : System) : List (Nat × Nat) :=
  ((List.range s.poolSize).filter fun i => 1 ≤ i ∧ (s.threadPool i).state ≠ .empty).map
    fun i => ((s.threadPool i).stack, STACK_SIZE)

/-- What holds of slots, queue and heap at every point. -/
structure Books (n : Nat) (base : List (Nat × Nat)) (s : System) : Prop where
  queued : ∀ i, Slot n i →
    (contents s.readyQueue).count (tcbPtr i) = if Waiting (s.threadPool i) then 1 else 0
  running : ∀ i, Slot n i → ((s.threadPool i).state = .running ↔ s.currentTid = i)
  /-- Every live allocation is the stack of one slot in use, or is in `base`. -/
  allocations : s.heap.live.Perm (stacksOf s ++ base)
  distinct : (s.heap.live.map (·.1)).Nodup

theorem contents_eq {q : FifoQueue} (h : Represents q n l) : contents q = l := by
  have hroom := h.ring.room
  have hhead := h.ring.head_lt
  have htail := h.ring.tail_cases
  have hlen : (q.tail + q.size - q.head) % q.size = l.length := by
    rw [h.size]
    split at htail
    · rw [wrap (by omega), if_neg (by omega)]
      omega
    · rw [wrap (by omega), if_pos (by omega)]
      omega
  unfold contents
  rw [hlen]
  refine List.ext_getElem (by simp) fun i h1 h2 => ?_
  rw [List.getElem_map, List.getElem_range, h.size]
  exact h.ring.stored i h2

theorem stacksOf_nodup (h : Stacks B base s.heap s.threadPool s.poolSize) : (stacksOf s).Nodup := by
  refine List.Nodup.map_on (fun i hi j hj e => ?_) (List.nodup_range.filter _)
  simp only [List.mem_filter, List.mem_range, decide_eq_true_eq] at hi hj
  exact h.apart i j ⟨hi.2.1, hi.1⟩ ⟨hj.2.1, hj.1⟩ hi.2.2 hj.2.2 (Prod.mk.inj e).1

theorem mem_stacksOf {a : Nat × Nat} : a ∈ stacksOf s ↔
    ∃ i, Slot s.poolSize i ∧ (s.threadPool i).state ≠ .empty ∧ a = ((s.threadPool i).stack, STACK_SIZE) := by
  simp only [stacksOf, List.mem_map, List.mem_filter, List.mem_range, decide_eq_true_eq]
  constructor
  · intro h
    obtain ⟨i, ⟨h1, h2, h3⟩, rfl⟩ := h
    exact ⟨i, ⟨h2, h1⟩, h3, rfl⟩
  · intro h
    obtain ⟨i, hi, he, rfl⟩ := h
    exact ⟨i, ⟨hi.2, hi.1, he⟩, rfl⟩

/-- The books of the scheduler in every run: queue, running slot and stacks are
as the states say, and every dispatch and every add of the log was in order. -/
theorem scheduler_books {σ : System × List Event} (h : Reachable M n base σ) :
    Books n base σ.1 ∧ Orderly σ.2 := by
  obtain ⟨hk, hn, hbase⟩ := reachable_kept h
  obtain ⟨l, hq⟩ := hk.queued
  obtain ⟨ts, hs⟩ := hk.memory.served
  rw [← hn]
  refine ⟨⟨fun i hi => ?_, hq.running, ?_, hs.nodup⟩, hk.logged.orderly⟩
  · rw [contents_eq hq.queue, hq.nodup.count]
    refine if_congr ?_ rfl rfl
    rw [hq.mem]
    constructor
    · intro h
      obtain ⟨j, -, e, hw⟩ := h
      obtain rfl : i = j := Nat.succ.inj e
      exact hw
    · exact fun hw => ⟨i, hi, rfl, hw⟩
  · have hdisjoint : ∀ a ∈ stacksOf σ.1, ∀ b ∈ base, a ≠ b := fun a ha b hb e => by
      obtain ⟨i, hi, he, rfl⟩ := mem_stacksOf.mp ha
      exact (hk.memory.own i hi he).2 (List.mem_map.mpr ⟨b, hb, by rw [← e]⟩)
    refine (List.perm_ext_iff_of_nodup (List.Nodup.of_map _ hs.nodup)
      (List.nodup_append.mpr ⟨stacksOf_nodup hk.memory, hbase, hdisjoint⟩)).mpr fun a => ?_
    rw [List.mem_append, mem_stacksOf]
    constructor
    · exact fun ha => (hk.memory.only a ha).symm
    · intro ha
      rcases ha with ⟨i, hi, he, rfl⟩ | ha
      · exact (hk.memory.own i hi he).1
      · exact hk.memory.kept a ha

/-! ## A pool of two -/

/-- The heap of a fresh system, with the buffer at 4096 and `finish` at 16. -/
def lowMachine : Machine := ⟨lowBuffer, 16⟩

def freshHeap : Clients.State := ⟨initHeap lowBuffer fun _ => 0, []⟩

theorem gets_of_some {heap : Clients.State} {size p : Nat}
    (h : (malloc B heap.mem size).map (·.2) = some p) (hp : p ≠ 0) : Gets B heap size := by
  obtain ⟨r, hr, e⟩ := Option.map_eq_some_iff.mp h
  exact ⟨r, hr, e ▸ hp⟩

theorem freshHeap_allocated : Allocated lowBuffer freshHeap 2 := by
  refine ⟨by decide, gets_of_some (p := 4112) ?_ (by decide), gets_of_some (p := 4152) ?_ (by decide),
    gets_of_some (p := 4192) ?_ (by decide)⟩
  · decide +kernel
  · decide +kernel
  · decide +kernel

/-- A pool of two, with one thread created. -/
def oneThread : System × List Event :=
  Scheduler.step lowMachine (initThread lowBuffer freshHeap (fun _ => ⟨0, .empty, 0, 0⟩) (fun _ => 0) 2, [])
    (.create 32)

theorem scheduler_books_oneThread :
    Books 2 (initThread lowBuffer freshHeap (fun _ => ⟨0, .empty, 0, 0⟩) (fun _ => 0) 2).heap.live
      oneThread.1 ∧ Orderly oneThread.2 :=
  scheduler_books (M := lowMachine) ⟨freshHeap, _, _, ⟨_, .start⟩, freshHeap_allocated, rfl,
    .step .start trivial⟩

end ToyOS.Threads.Bookkeeping
