import ToyOS.Heap.Freeing
import ToyOS.Heap.Requests
import ToyOS.Lib.Grid
import ToyOS.Threads.RoundRobin

/-! # The blocks of the stacks

The scheduler takes one block of the heap for each thread and gives it back. The
blocks of others stay where they are, so when all threads have finished the heap is
again as `init_thread` left it. And since all stacks have one size they never
fragment the heap: `thread_create` fails only where the pool is full or as many
stacks are in use as there is room for.
-/
namespace ToyOS.Threads.StackBlocks
open ToyOS.Heap ToyOS.Lib.Loop ToyOS.Lib.Words ToyOS.Lib.Tiles ToyOS.Lib.Grid ToyOS.Lib.Runs
open ToyOS.Heap.Memory ToyOS.Heap.Layout ToyOS.Heap.Blocks ToyOS.Heap.Allocation
open ToyOS.Heap.Clients (Served blocks blocks_eq cut_used cut_total lowBuffer)
open ToyOS.Heap.Requests (needed)
open ToyOS.Threads.Scheduler ToyOS.Threads.Bookkeeping
open ToyOS.Threads.RoundRobin (Switches emitted main_resumed)

variable {M : Machine} {B : Buffer} {m : Bytes} {heap heap' : Clients.State} {s : System}
variable {σ : System × List Event}
variable {base : List (Nat × Nat)} {op : Scheduler.Op} {bs ts us xs ys : List Tile} {t : Tile}
variable {n p q r size : Nat} {pool : Nat → Tcb} {elements : Nat → Nat}

/-! ## Blocks of a heap -/

/-- The memory determines its blocks. -/
theorem laid_unique (h : Laid B m ts) (h' : Laid B m us) : ts = us := by
  have he : placed B.baseptr ts = placed B.baseptr us := (blocks_eq h).symm.trans (blocks_eq h')
  have hsnd : ∀ (a : Nat) (zs : List Tile), (placed a zs).map (·.2) = zs := fun a zs => by
    induction zs generalizing a with
    | nil => rfl
    | cons z zs ih => rw [placed_cons, List.map_cons, ih]
  rw [← hsnd B.baseptr ts, he, hsnd]

/-- `malloc` with the list of blocks it leaves. -/
theorem malloc_tiles (h : Served B heap ts) (h0 : 0 < size) (hs : size < 2 ^ 32 - 15) :
    (malloc B heap.mem size = some (heap.mem, 0) ∧ ∀ t ∈ ts, ¬ Fits (needed size) t) ∨
      ∃ m' xs t ys, ts = xs ++ t :: ys ∧ (∀ x ∈ xs, ¬ Fits (needed size) x) ∧ Fits (needed size) t ∧
        malloc B heap.mem size = some (m', B.baseptr + total xs + 8) ∧
        Served B (Clients.step B heap (.malloc size)) (xs ++ (cut (needed size) t ++ ys)) := by
  have hn : blockSizeFor size = needed size := by
    rw [blockSizeFor_eq hs, needed, Nat.mul_comm]
  rcases malloc_spec h.tidy h0 hs with ⟨hm, hno⟩ | ⟨m', xs, t, ys, hm, ht⟩
  · rw [hn] at hno
    exact .inl ⟨hm, hno⟩
  · obtain ⟨-, us, hus, -⟩ := h.malloc hs
    have hmem : (Clients.step B heap (.malloc size)).mem = m' := by
      rw [Clients.step, hm]
      rfl
    have htidy := hus.tidy
    rw [hmem] at htidy
    rw [laid_unique htidy.toLaid ht.tidy.toLaid] at hus
    rw [← hn]
    exact .inr ⟨m', xs, t, ys, ht.list, ht.first, ht.fits, hm, hus⟩

/-- A block that is taken adds to those in use. -/
theorem used_of_cut (a : Nat) (h : t.used = false) (hn : n ≤ t.size) {b : Nat × Tile}
    (hb : b ∈ usedAt a (xs ++ t :: ys)) : b ∈ usedAt a (xs ++ (cut n t ++ ys)) := by
  obtain ⟨k, hk, -⟩ := cut_used n t (a + total xs)
  rw [usedAt_append, usedAt_cons, h, if_neg (by decide), List.mem_append] at hb
  rw [usedAt_append, usedAt_append, hk, cut_total hn, List.mem_append, List.mem_append]
  exact hb.imp id .inr

/-- The live pointers are the blocks in use. -/
theorem live_length (h : Served B heap ts) : heap.live.length = ts.countP Tile.used := by
  have hcount : ∀ (a : Nat) (zs : List Tile), (usedAt a zs).length = zs.countP Tile.used := fun a zs => by
    induction zs generalizing a with
    | nil => rfl
    | cons z zs ih =>
      rw [usedAt_cons]
      split
      · next hz => rw [List.length_cons, List.countP_cons_of_pos hz, ih]
      · next hz => rw [List.countP_cons_of_neg hz, ih]
  have hnodup : ((usedAt B.baseptr ts).map fun b => b.1 + 8).Nodup := by
    refine List.pairwise_map.mpr ((usedAt_sorted B.baseptr h.tidy.positive).imp fun hlt e => ?_)
    omega
  have hperm : (heap.live.map (·.1)).Perm ((usedAt B.baseptr ts).map fun b => b.1 + 8) := by
    refine (List.perm_ext_iff_of_nodup h.nodup hnodup).mpr fun x => ?_
    rw [List.mem_map, List.mem_map]
    constructor
    · rintro ⟨⟨p, s⟩, hp, rfl⟩
      obtain ⟨q, t, hq, rfl, -⟩ := h.block p s hp
      exact ⟨(q, t), hq, rfl⟩
    · rintro ⟨⟨q, t⟩, hq, rfl⟩
      obtain ⟨s, hs⟩ := h.live q t hq
      exact ⟨(q + 8, s), hs, rfl⟩
  have hlen := hperm.length_eq
  rwa [List.length_map, List.length_map, hcount] at hlen

/-! ## What the operations do to them -/

/-- The bytes of a stack with its header. -/
def STACK_BLOCK : Nat := STACK_SIZE + DSIZE

/-- The blocks stay, one is taken for a stack, or that of a stack is given back. -/
inductive Moved (B : Buffer) (base : List (Nat × Nat)) (ts : List Tile) : List Tile → Prop
  | same : Moved B base ts ts
  | taken {xs ys : List Tile} {t : Tile} (list : ts = xs ++ t :: ys) (fits : Fits STACK_BLOCK t) :
      Moved B base ts (xs ++ (cut STACK_BLOCK t ++ ys))
  | freed {us : List Tile} {p : Nat} (other : p + 8 ∉ base.map (·.1))
      (used : usedAt B.baseptr us = (usedAt B.baseptr ts).filter (·.1 ≠ p)) : Moved B base ts us

theorem schedule_heap (s : System) : (schedule s).1.heap = s.heap := by
  have hr : (requeue s).1.heap = s.heap := by
    unfold requeue
    split <;> rfl
  have hd : ∀ s : System, (dispatch s).1.heap = s.heap := fun s => by
    unfold dispatch
    dsimp only
    split <;> rfl
  exact (hd _).trans hr

theorem create_moved (base : List (Nat × Nat)) (f : Nat) (hs : Served M.buffer s.heap ts) :
    ∃ r us, threadCreate M s f = some r ∧ Served M.buffer r.1.heap us ∧ Moved M.buffer base ts us := by
  unfold threadCreate
  split
  · exact ⟨_, ts, rfl, hs, .same⟩
  · rcases malloc_tiles hs (by decide : 0 < STACK_SIZE) (by decide) with
      ⟨hm, -⟩ | ⟨m', xs, t, ys, hlist, -, hfits, hm, hus⟩
    · have hsame : Clients.step M.buffer s.heap (.malloc STACK_SIZE) = s.heap := by
        rw [Clients.step, hm]
        rfl
      rw [hm, Option.map_some, hsame]
      exact ⟨_, ts, rfl, hs, .same⟩
    · have hne : M.buffer.baseptr + total xs + 8 ≠ 0 := by omega
      have hlive : (Clients.step M.buffer s.heap (.malloc STACK_SIZE)).live =
          (M.buffer.baseptr + total xs + 8, STACK_SIZE) :: s.heap.live := by
        rw [Clients.step, hm, Option.elim_some, if_neg hne]
      rw [hm, Option.map_some]
      dsimp only
      rw [if_neg hne]
      refine ⟨_, _, rfl, hus.stores fun x hx => ?_, .taken hlist hfits⟩
      -- the two words lie in the new stack
      refine .inl ⟨_, STACK_SIZE, by rw [hlive]; exact List.mem_cons_self, ?_⟩
      by_contra hout
      refine hx ?_
      unfold STACK_SIZE at hout ⊢
      rw [putW_other _ _ (by omega), putW_other _ _ (by omega)]

theorem finish_moved (h : Kept M.buffer base σ) (hc : σ.1.currentTid ≠ 0) (hs : Served M.buffer σ.1.heap ts) :
    ∃ us, Served M.buffer (Scheduler.finish M σ.1).1.heap us ∧ Moved M.buffer base ts us := by
  obtain ⟨l, hq⟩ := h.queued
  have hslot := h.current.resolve_left hc
  have hrun := (hq.running _ hslot).mpr rfl
  obtain ⟨hlive, hother⟩ := h.memory.own _ hslot (by rw [hrun]; decide)
  obtain ⟨q, t, hq, hp, -⟩ := hs.block _ _ hlive
  obtain ⟨us, hus, -, hused⟩ := hs.free (.inr (List.mem_map.mpr ⟨_, hlive, rfl⟩))
  rw [finish_eq, schedule_heap]
  refine ⟨us, hus, .freed (p := q) (by rwa [← hp]) ?_⟩
  rw [hused]
  exact List.filter_congr fun x _ => by rw [hp]; simp

theorem step_moved (h : Kept M.buffer base σ) (ha : Allowed M σ op) (hs : Served M.buffer σ.1.heap ts) :
    ∃ us, Served M.buffer (Scheduler.step M σ op).1.heap us ∧ Moved M.buffer base ts us := by
  unfold Scheduler.step Scheduler.call
  cases op with
  | create f =>
    obtain ⟨r, us, hr, hus, hmoved⟩ := create_moved base f hs
    dsimp only
    rw [hr]
    exact ⟨us, hus, hmoved⟩
  | switch esp =>
    refine ⟨ts, ?_, .same⟩
    show Served M.buffer (schedule _).1.heap ts
    rw [schedule_heap]
    exact hs
  | finish => exact finish_moved h ha hs
  | store addr v =>
    exact ⟨ts, hs.write (show Clients.Allowed M.buffer σ.1.heap (.write addr v) from ha) v, .same⟩

/-! ## The blocks of others -/

/-- What was in use stays so, and the rest is the stacks. -/
theorem Moved.keeps (h : Moved B base ts us) {b : Nat × Tile} (hbase : b.1 + 8 ∈ base.map (·.1))
    (hb : b ∈ usedAt B.baseptr ts) : b ∈ usedAt B.baseptr us := by
  cases h with
  | same => exact hb
  | taken list fits =>
    rw [list] at hb
    exact used_of_cut _ fits.1 fits.2 hb
  | @freed _ p other used =>
    rw [used, List.mem_filter]
    exact ⟨hb, by simpa using fun e : b.1 = p => other (e ▸ hbase)⟩

/-- When every slot is empty the heap is as it was. -/
theorem blocks_restored (h : Kept M.buffer heap.live σ) (hs₀ : Served M.buffer heap ts)
    (hs : Served M.buffer σ.1.heap us) (hkeep : ∀ b ∈ usedAt M.buffer.baseptr ts, b ∈ usedAt M.buffer.baseptr us)
    (hempty : ∀ i, Slot σ.1.poolSize i → (σ.1.threadPool i).state = .empty) :
    us = ts ∧ σ.1.heap.live.Perm heap.live := by
  have hlive : ∀ a, a ∈ σ.1.heap.live ↔ a ∈ heap.live := fun a => by
    refine ⟨fun ha => ?_, h.memory.kept a⟩
    rcases h.memory.only a ha with hb | ⟨i, hi, he, -⟩
    · exact hb
    · exact absurd (hempty i hi) he
  refine ⟨?_, (List.perm_ext_iff_of_nodup (List.Nodup.of_map _ hs.nodup)
    (List.Nodup.of_map _ hs₀.nodup)).mpr hlive⟩
  refine eq_of_same_used hs.tidy.positive hs₀.tidy.positive hs.tidy.coalesced hs₀.tidy.coalesced
    (hs.tidy.fills.trans hs₀.tidy.fills.symm) fun b => ⟨fun hb => ?_, hkeep b⟩
  obtain ⟨q, t⟩ := b
  obtain ⟨size, hq⟩ := hs.live q t hb
  obtain ⟨q', t', hq', e, -⟩ := hs₀.block _ _ ((hlive _).mp hq)
  obtain rfl : q = q' := by omega
  rcases placed_disjoint (mem_usedAt.mp hb).1 (mem_usedAt.mp (hkeep _ hq')).1 with ⟨-, rfl⟩ | h1 | h1
  · exact hq'
  · have := hs.tidy.positive t (mem_of_placed (mem_usedAt.mp hb).1)
    omega
  · have := hs₀.tidy.positive t' (mem_of_placed (mem_usedAt.mp hq').1)
    omega

/-- Whenever the main thread goes on the heap has the blocks, the last one and the live
pointers that `init_thread` left. -/
theorem heap_restored (hheap : Clients.Reachable M.buffer heap) (halloc : Allocated M.buffer heap n)
    (h : Reach (Allowed M) (Scheduler.step M) (initThread M.buffer heap pool elements n, []) σ)
    (ha : Allowed M σ op) (hs : Switches op) (hmain : .resume 0 ∈ emitted M σ.1 op) :
    blocks M.buffer (Scheduler.step M σ op).1.heap.mem =
        blocks M.buffer (initThread M.buffer heap pool elements n).heap.mem ∧
      lastPtr M.buffer (Scheduler.step M σ op).1.heap.mem =
        lastPtr M.buffer (initThread M.buffer heap pool elements n).heap.mem ∧
      (Scheduler.step M σ op).1.heap.live.Perm (initThread M.buffer heap pool elements n).heap.live := by
  have h₀ := init_kept hheap halloc pool elements
  generalize initThread M.buffer heap pool elements n = s₀ at h h₀ ⊢
  obtain ⟨ts, hs₀⟩ := h₀.memory.served
  have hrun := (h.step ha).invariant
    (I := fun σ => Kept M.buffer s₀.heap.live σ ∧ ∃ us, Served M.buffer σ.1.heap us ∧
      ∀ b ∈ usedAt M.buffer.baseptr ts, b ∈ usedAt M.buffer.baseptr us) ⟨h₀, ts, hs₀, fun _ hb => hb⟩
    fun σ op hop hk => by
      obtain ⟨hk, us, hus, hkeep⟩ := hk
      obtain ⟨us', hus', hmoved⟩ := step_moved hk hop hus
      refine ⟨step_kept hk hop, us', hus', fun b hb => hmoved.keeps ?_ (hkeep b hb)⟩
      obtain ⟨size, hlive⟩ := hs₀.live b.1 b.2 hb
      exact List.mem_map.mpr ⟨_, hlive, rfl⟩
  obtain ⟨hk, us, hus, hkeep⟩ := hrun
  have hbefore : Kept M.buffer s₀.heap.live σ := h.invariant (I := fun σ => Kept M.buffer s₀.heap.live σ) h₀
    fun σ op hop hk => step_kept hk hop
  have hempty := (main_resumed hbefore ha hs).mp hmain
  rw [← step_poolSize (M := M) σ op] at hempty
  obtain ⟨rfl, hperm⟩ := blocks_restored hk hs₀ hus hkeep hempty
  rw [blocks_eq hus.tidy.toLaid, blocks_eq hs₀.tidy.toLaid, hus.tidy.last, hs₀.tidy.last]
  exact ⟨rfl, rfl, hperm⟩

/-- The only thread finishes. -/
theorem heap_restored_oneThread :
    let start := initThread lowBuffer freshHeap (fun _ => ⟨0, .empty, 0, 0⟩) (fun _ => 0) 2
    let last := Scheduler.step lowMachine (Scheduler.step lowMachine oneThread (.switch 100)) .finish
    blocks lowBuffer last.1.heap.mem = blocks lowBuffer start.heap.mem ∧
      lastPtr lowBuffer last.1.heap.mem = lastPtr lowBuffer start.heap.mem ∧
      last.1.heap.live.Perm start.heap.live :=
  heap_restored (M := lowMachine) ⟨_, .start⟩ freshHeap_allocated (.step (.step .start trivial) trivial)
    (show (Scheduler.step lowMachine oneThread (.switch 100)).1.currentTid ≠ 0 by decide +kernel) trivial
    (by decide +kernel)

/-! ## Room for stacks -/

/-- A block cut off the front of a free one leaves a multiple behind it. -/
theorem Even.cut (h : Even n (xs ++ t :: ys)) (hn : DSIZE < n) (hfit : Fits n t) :
    Even n (xs ++ (Blocks.cut n t ++ ys)) := by
  have hmiddle : ∀ {zs : List Tile}, zs ≠ [] → (xs ++ zs).dropLast = xs ++ zs.dropLast :=
    List.dropLast_append_of_ne_nil
  have hxs : ∀ u ∈ xs, n ∣ u.size := fun u hu => h.multiple u (by
    rw [hmiddle (List.cons_ne_nil t ys)]
    exact List.mem_append_left _ hu)
  have hold : ∀ u, u ∈ xs ∨ u ∈ ys → u.used = true → n ≤ u.size ∧ u.size < 2 * n := fun u hu => by
    refine h.used u ?_
    rw [List.mem_append, List.mem_cons]
    exact hu.imp id .inr
  have hsize := hfit.2
  have hle : ys ≠ [] → n ∣ t.size := fun hys => h.multiple t (by
    rw [hmiddle (List.cons_ne_nil t ys), List.dropLast_cons_of_ne_nil hys]
    exact List.mem_append_right _ List.mem_cons_self)
  have hrest : ∀ u ∈ ys.dropLast, n ∣ u.size := fun u hu => by
    have hys : ys ≠ [] := by
      rintro rfl
      cases hu
    refine h.multiple u ?_
    rw [hmiddle (List.cons_ne_nil t ys), List.dropLast_cons_of_ne_nil hys]
    exact List.mem_append_right _ (List.mem_cons_of_mem _ hu)
  unfold Blocks.cut
  split
  · next hsmall =>
    refine ⟨fun u hu => ?_, fun u hu hused => ?_⟩
    · rw [hmiddle (by simp), List.mem_append] at hu
      rcases hu with hu | hu
      · exact hxs u hu
      · cases ys with
        | nil => cases hu
        | cons y ys =>
          rcases List.mem_cons.mp hu with rfl | hu
          · exact hle (List.cons_ne_nil y ys)
          · exact hrest u hu
    · rw [List.mem_append, List.singleton_append, List.mem_cons] at hu
      rcases hu with hu | rfl | hu
      · exact hold u (.inl hu) hused
      · dsimp only
        omega
      · exact hold u (.inr hu) hused
  · refine ⟨fun u hu => ?_, fun u hu hused => ?_⟩
    · rw [hmiddle (by simp), List.mem_append] at hu
      rcases hu with hu | hu
      · exact hxs u hu
      · rcases List.mem_cons.mp hu with rfl | hu
        · exact Nat.dvd_refl n
        · cases ys with
          | nil => cases hu
          | cons y ys =>
            rcases List.mem_cons.mp hu with rfl | hu
            · exact Nat.dvd_sub (hle (List.cons_ne_nil y ys)) (Nat.dvd_refl n)
            · exact hrest u hu
    · rw [List.mem_append, List.mem_append] at hu
      rcases hu with hu | hu | hu
      · exact hold u (.inl hu) hused
      · rcases List.mem_cons.mp hu with rfl | hu
        · dsimp only
          omega
        · rw [List.mem_singleton.mp hu] at hused
          cases hused
      · exact hold u (.inr hu) hused

/-- A free block does not lie among blocks that are all in use. -/
theorem free_behind (hbs : ∀ b ∈ bs, b.used = true) (h : bs ++ us = xs ++ t :: ys) (ht : t.used = false) :
    ∃ zs, xs = bs ++ zs ∧ us = zs ++ t :: ys := by
  rcases List.append_eq_append_iff.mp h with ⟨zs, rfl, hus⟩ | ⟨zs, rfl, hzs⟩
  · exact ⟨zs, rfl, hus⟩
  · cases zs with
    | nil => exact ⟨[], by simp, hzs.symm⟩
    | cons z zs =>
      obtain ⟨rfl, -⟩ := List.cons.inj hzs
      rw [hbs t (by simp)] at ht
      cases ht

/-- A request served from the only free block, which is the last. -/
theorem malloc_last (h : Served B heap (bs ++ [⟨r, false⟩])) (hbs : ∀ b ∈ bs, b.used = true) (h0 : 0 < size)
    (hs : size < 2 ^ 32 - 15) (hr : needed size + DSIZE < r) : Gets B heap size ∧
      Served B (Clients.step B heap (.malloc size))
        (bs ++ [⟨needed size, true⟩] ++ [⟨r - needed size, false⟩]) := by
  rcases malloc_tiles h h0 hs with ⟨-, hno⟩ | ⟨m', xs, t, ys, hlist, -, hfit, hm, hus⟩
  · exact absurd ⟨rfl, (by dsimp only; omega)⟩ (hno ⟨r, false⟩ (by simp))
  · obtain ⟨zs, rfl, hzs⟩ := free_behind hbs hlist hfit.1
    obtain ⟨rfl, rfl, rfl⟩ : zs = [] ∧ t = ⟨r, false⟩ ∧ ys = [] := by
      cases zs with
      | nil =>
        obtain ⟨rfl, rfl⟩ := List.cons.inj hzs
        exact ⟨rfl, rfl, rfl⟩
      | cons z zs => simpa using congrArg List.length hzs
    refine ⟨⟨_, hm, Nat.succ_ne_zero _⟩, ?_⟩
    unfold Blocks.cut at hus
    rw [if_neg (by dsimp only; omega)] at hus
    simpa using hus

/-- The blocks `init_thread` takes: of the pool, of the queue and of its elements. -/
def tables (n : Nat) : List Tile :=
  [⟨needed (n * TCB_SIZE), true⟩, ⟨needed QUEUE_SIZE, true⟩, ⟨needed ((n + 1) * 4), true⟩]

/-- The bytes behind them. -/
def room (n : Nat) : Nat := DEFAULT_MEM_SIZE - DSIZE - total (tables n)

theorem tables_used : ∀ b ∈ tables n, b.used = true := by
  simp [tables]

theorem init_served (m : Bytes) (pool : Nat → Tcb) (elements : Nat → Nat) (hn : 0 < n)
    (hroom : DSIZE < room n) :
    Allocated B ⟨initHeap B m, []⟩ n ∧
      Served B (initThread B ⟨initHeap B m, []⟩ pool elements n).heap (tables n ++ [⟨room n, false⟩]) := by
  have hall : total (tables n) = needed (n * TCB_SIZE) + (needed QUEUE_SIZE + needed ((n + 1) * 4)) := rfl
  have hfits : ∀ size, size ≤ needed size := fun size => by
    unfold needed
    omega
  have h1 := hfits (n * TCB_SIZE)
  have h3 := hfits ((n + 1) * 4)
  have hpos : 0 < n * TCB_SIZE := Nat.mul_pos hn (by decide)
  have hbuffer : DEFAULT_MEM_SIZE - DSIZE < 2 ^ 32 - 15 := by decide
  have hsum : total (tables n) + room n = DEFAULT_MEM_SIZE - DSIZE := by
    unfold room at hroom ⊢
    omega
  rw [hall] at hsum
  have hqueue : needed QUEUE_SIZE = 40 := rfl
  have h₀ : Served B ⟨initHeap B m, []⟩ ([] ++ [⟨DEFAULT_MEM_SIZE - DSIZE, false⟩]) := Clients.init_served B m
  obtain ⟨g₁, h₁⟩ := malloc_last h₀ (by simp) hpos (by omega) (by omega)
  obtain ⟨g₂, h₂⟩ := malloc_last h₁ (by simp) (by decide : 0 < QUEUE_SIZE) (by decide) (by omega)
  obtain ⟨g₃, h₃⟩ := malloc_last h₂ (by simp) (by omega : 0 < (n + 1) * 4) (by omega) (by omega)
  refine ⟨⟨by omega, g₁, g₂, g₃⟩, ?_⟩
  have hroom' : DEFAULT_MEM_SIZE - DSIZE - needed (n * TCB_SIZE) - needed QUEUE_SIZE - needed ((n + 1) * 4) =
      room n := by omega
  rw [hroom'] at h₃
  exact h₃

/-! ## Runs of one kind of request -/

/-- The tables, and behind them stacks of one size. -/
def InRow (n : Nat) (B : Buffer) (heap : Clients.State) : Prop :=
  ∃ us, Served B heap (tables n ++ us) ∧ Even STACK_BLOCK us

theorem Moved.inRow (h : Moved B base (tables n ++ us) ts) (hs : Served B heap (tables n ++ us))
    (hs' : Served B heap' ts) (he : Even STACK_BLOCK us)
    (hbase : ∀ b ∈ usedAt B.baseptr (tables n), b.1 + 8 ∈ base.map (·.1)) : InRow n B heap' := by
  generalize hts : tables n ++ us = ts₀ at h
  cases h with
  | same =>
    subst hts
    exact ⟨us, hs', he⟩
  | taken list fits =>
    rw [list] at hts
    obtain ⟨zs, rfl, rfl⟩ := free_behind tables_used hts fits.1
    rw [List.append_assoc] at hs'
    exact ⟨_, hs', Even.cut he (by decide) fits⟩
  | @freed _ p other used =>
    subst hts
    have hfront : (usedAt B.baseptr (tables n)).filter (·.1 ≠ p) = usedAt B.baseptr (tables n) :=
      List.filter_eq_self.mpr fun b hb => by simpa using fun e : b.1 = p => other (e ▸ hbase b hb)
    rw [usedAt_append, List.filter_append, hfront] at used
    obtain ⟨us', rfl, hus'⟩ := prefix_of_usedAt tables_used hs'.tidy.positive used
    have htotal : total us' = total us := by
      have h1 := hs.tidy.fills
      have h2 := hs'.tidy.fills
      rw [total_append] at h1 h2
      omega
    refine ⟨us', hs', he.fewer (B.baseptr + total (tables n))
      (fun t ht => hs'.tidy.positive t (List.mem_append_right _ ht))
      (coalesced_append.mp hs'.tidy.coalesced).2.1 htotal fun b hb => ?_⟩
    rw [hus'] at hb
    exact (List.mem_filter.mp hb).1

theorem stacks_length (h : Kept M.buffer base σ) (hs : Served M.buffer σ.1.heap ts) (hb : base.Nodup) :
    ts.countP Tile.used = (stacksOf σ.1).length + base.length := by
  have hdisjoint : ∀ a ∈ stacksOf σ.1, ∀ b ∈ base, a ≠ b := fun a ha b hb e => by
    obtain ⟨i, hi, he, rfl⟩ := mem_stacksOf.mp ha
    exact (h.memory.own i hi he).2 (List.mem_map.mpr ⟨b, hb, by rw [← e]⟩)
  have hperm : σ.1.heap.live.Perm (stacksOf σ.1 ++ base) := by
    refine (List.perm_ext_iff_of_nodup (List.Nodup.of_map _ hs.nodup)
      (List.nodup_append.mpr ⟨stacksOf_nodup h.memory, hb, hdisjoint⟩)).mpr fun a => ?_
    rw [List.mem_append, mem_stacksOf]
    constructor
    · exact fun ha => (h.memory.only a ha).symm
    · rintro (⟨i, hi, he, rfl⟩ | ha)
      · exact (h.memory.own i hi he).1
      · exact h.memory.kept a ha
  rw [← live_length hs, hperm.length_eq, List.length_append]

/-- A state reached from a heap that only the scheduler uses. -/
structure Provided (M : Machine) (n : Nat) (base : List (Nat × Nat)) (σ : System × List Event) : Prop where
  kept : Kept M.buffer base σ
  size : σ.1.poolSize = n
  row : InRow n M.buffer σ.1.heap
  tables : ∀ b ∈ usedAt M.buffer.baseptr (tables n), b.1 + 8 ∈ base.map (·.1)
  three : base.length = 3
  nodup : base.Nodup

theorem init_provided (m : Bytes) (pool : Nat → Tcb) (elements : Nat → Nat) (hn : 0 < n)
    (hroom : DSIZE < room n) :
    Provided M n (initThread M.buffer ⟨initHeap M.buffer m, []⟩ pool elements n).heap.live
      (initThread M.buffer ⟨initHeap M.buffer m, []⟩ pool elements n, []) := by
  obtain ⟨halloc, hs⟩ := init_served (B := M.buffer) m pool elements hn hroom
  refine ⟨init_kept ⟨m, .start⟩ halloc pool elements, rfl, ⟨_, hs, even_single fun hf => by cases hf⟩,
    fun b hb => ?_, live_length hs, List.Nodup.of_map _ hs.nodup⟩
  obtain ⟨size, hlive⟩ := hs.live b.1 b.2 (by rw [usedAt_append]; exact List.mem_append_left _ hb)
  exact List.mem_map.mpr ⟨_, hlive, rfl⟩

theorem Provided.step (h : Provided M n base σ) (ha : Allowed M σ op) :
    Provided M n base (Scheduler.step M σ op) := by
  obtain ⟨us, hus, he⟩ := h.row
  obtain ⟨ts, hts, hmoved⟩ := step_moved h.kept ha hus
  exact ⟨step_kept h.kept ha, (step_poolSize σ op).trans h.size, hmoved.inRow hus hts he h.tables, h.tables,
    h.three, h.nodup⟩

/-- The block for one more stack is there unless as many are in use as fit. -/
theorem Provided.malloc_fails (h : Provided M n base σ) :
    ∃ r, malloc M.buffer σ.1.heap.mem STACK_SIZE = some r ∧
      (r.2 = 0 ↔ (stacksOf σ.1).length = room n / STACK_BLOCK) := by
  obtain ⟨us, hus, he⟩ := h.row
  have hcount : us.countP Tile.used = (stacksOf σ.1).length := by
    have := stacks_length h.kept hus h.nodup
    rw [List.countP_append, h.three, show (StackBlocks.tables n).countP Tile.used = 3 from rfl] at this
    omega
  have htotal : total us = room n := by
    have hfills := hus.tidy.fills
    rw [total_append] at hfills
    unfold room
    omega
  have hfull := full_iff (by decide) he
  rw [hcount, htotal] at hfull
  rw [← hfull]
  have hfits : ∀ t ∈ us, t.used = false → (t.size < STACK_BLOCK ↔ ¬ Fits STACK_BLOCK t) := fun t _ ht => by
    unfold Fits
    rw [and_iff_right ht, Nat.not_le]
  rcases malloc_tiles hus (by decide : 0 < STACK_SIZE) (by decide) with
    ⟨hm, hno⟩ | ⟨m', xs, t, ys, hlist, -, hfit, hm, -⟩
  · exact ⟨_, hm, iff_of_true rfl fun t ht hfree =>
      (hfits t ht hfree).mpr (hno t (List.mem_append_right _ ht))⟩
  · obtain ⟨zs, -, rfl⟩ := free_behind tables_used hlist hfit.1
    refine ⟨_, hm, iff_of_false (Nat.succ_ne_zero _) fun hall => ?_⟩
    exact (hfits t (by simp) hfit.1).mp (hall t (by simp) hfit.1) hfit

/-- `thread_create` takes the first empty slot. -/
theorem Provided.create (h : Provided M n base σ) (f : Nat) : ∃ r, threadCreate M σ.1 f = some r ∧
    ((∀ i, Slot n i → (σ.1.threadPool i).state ≠ .empty) ∧ r.2.1 = 0 ∨
      ∃ i, Slot n i ∧ (σ.1.threadPool i).state = .empty ∧
        (∀ j, Slot n j → j < i → (σ.1.threadPool j).state ≠ .empty) ∧
        (r.2.1 = if (stacksOf σ.1).length = room n / STACK_BLOCK then 0 else i) ∧
        (r.2.1 = i → ∀ j, (r.1.threadPool j).state = if j = i then .new else (σ.1.threadPool j).state)) := by
  obtain ⟨r, hm, hzero⟩ := h.malloc_fails
  unfold threadCreate
  rw [h.size, hm]
  split
  · next hnone =>
    refine ⟨_, rfl, .inl ⟨fun i hi e => ?_, rfl⟩⟩
    have := firstIdx_eq_none.mp hnone i hi.1 (by unfold Slot at hi; omega)
    simp [e] at this
  · next i hi =>
    obtain ⟨h1, h2, hempty, hlow⟩ := firstIdx_eq_some.mp hi
    refine ⟨_, rfl, .inr ⟨i, ⟨h1, by omega⟩, by simpa using hempty, fun j hj hji => ?_, ?_⟩⟩
    · simpa using hlow j hj.1 hji
    · dsimp only
      by_cases h0 : r.2 = 0
      · rw [if_pos h0, if_pos (hzero.mp h0)]
        exact ⟨rfl, fun e => absurd e (Nat.ne_of_lt h1)⟩
      · rw [if_neg h0, if_neg (mt hzero.mpr h0)]
        refine ⟨rfl, fun _ j => ?_⟩
        by_cases hj : j = i
        · rw [if_pos hj, hj]
          simp only [System.setThread, Function.update_self]
        · rw [if_neg hj]
          simp only [System.setThread, Function.update_of_ne hj]

/-- After `init_heap` and `init_thread`: `thread_create` fails exactly where no slot is empty
or as many stacks are in use as fit into the rest of the heap. -/
theorem thread_create_fails_iff (hn : 0 < n) (hroom : DSIZE < room n)
    (h : Reach (Allowed M) (Scheduler.step M)
      (initThread M.buffer ⟨initHeap M.buffer m, []⟩ pool elements n, []) σ)
    (f : Nat) : ∃ r, threadCreate M σ.1 f = some r ∧
      (r.2.1 = 0 ↔ (∀ i, Slot n i → (σ.1.threadPool i).state ≠ .empty) ∨
        (stacksOf σ.1).length = room n / STACK_BLOCK) := by
  have hp := h.invariant (I := fun σ => Provided M n _ σ) (init_provided m pool elements hn hroom)
    fun σ op hop hk => hk.step hop
  obtain ⟨r, hr, ⟨hfull, h0⟩ | ⟨i, hi, he, -, hri, -⟩⟩ := hp.create f
  · exact ⟨r, hr, iff_of_true h0 (.inl hfull)⟩
  · refine ⟨r, hr, ?_⟩
    rw [or_iff_right fun hfull => hfull i hi he, hri]
    split
    · next hno => exact iff_of_true rfl hno
    · next hno => exact iff_of_false (by unfold Slot at hi; omega) hno

theorem thread_create_fails_iff_oneThread : ∃ r, threadCreate lowMachine oneThread.1 36 = some r ∧
    (r.2.1 = 0 ↔ (∀ i, Slot 2 i → (oneThread.1.threadPool i).state ≠ .empty) ∨
      (stacksOf oneThread.1).length = room 2 / STACK_BLOCK) := by
  have hrun : Reach (Allowed lowMachine) (Scheduler.step lowMachine)
      (initThread lowMachine.buffer freshHeap (fun _ => ⟨0, .empty, 0, 0⟩) (fun _ => 0) 2, []) oneThread :=
    .step .start (show Allowed lowMachine _ (.create 32) from trivial)
  exact thread_create_fails_iff (m := fun _ => 0) (by decide) (by decide) hrun 36

end ToyOS.Threads.StackBlocks
