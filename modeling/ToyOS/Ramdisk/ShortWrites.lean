import ToyOS.Ramdisk.Isolation
import ToyOS.Ramdisk.LongNames
import ToyOS.Ramdisk.Reading
import ToyOS.Ramdisk.Route

/-! # Writes that run out of blocks

`rd_write` takes blocks and stores bytes as it goes, and returns -1 where no block
is left. What it has done by then stays: the file is as before only where there was
no block to take and no byte to store.
-/
namespace ToyOS.Ramdisk.ShortWrites
open ToyOS.Lib.Loop ToyOS.Lib.Words ToyOS.Lib.CStrings ToyOS.Lib.Runs ToyOS.Lib.Provision
open ToyOS.Ramdisk.Image
open ToyOS.Ramdisk.Places ToyOS.Ramdisk.Ownership ToyOS.Ramdisk.Paths ToyOS.Ramdisk.Components
open ToyOS.Ramdisk.Descriptors ToyOS.Ramdisk.Write ToyOS.Ramdisk.Files ToyOS.Ramdisk.System
open ToyOS.Ramdisk.Effects ToyOS.Ramdisk.BlockOwnership ToyOS.Ramdisk.Opened ToyOS.Ramdisk.Tables
open ToyOS.Ramdisk.Writing ToyOS.Ramdisk.LongNames ToyOS.Ramdisk.Route
open ToyOS.Ramdisk.Supply (absent absent_null absent_there)

variable {fs : FileSys} {st : State} {fd pid n : Int} {f : FdPtr} {k : Fin 1024} {data : Bytes} {c : Nat}

/-! ## The first block on the way -/

/-- The block a write begins with. -/
def firstLeaf (fs : FileSys) (k c : Nat) : Option Place :=
  let seg := (fs.inodes k).size / 256
  if c / 256 < 8 then some (.direct k (c / 256))
  else if 8 ≤ seg ∧ seg < 72 then some (.sleaf k (seg - 8))
  else if 72 ≤ seg ∧ seg < 4168 then some (.dleaf k 0 ((seg - 72) / 64))
  else none

/-- That block is missing. -/
def StartsMissing (fs : FileSys) (k c : Nat) : Prop := ∃ p, firstLeaf fs k c = some p ∧ ref fs p = 0

theorem absent_ne_zero {p : Place} : absent fs p ≠ 0 ↔ ref fs p = 0 := by
  unfold Supply.absent
  split <;> simp_all

theorem barred_leafStops {leaf : Nat → Place} {o lo cnt : Nat} (ho : o < 256) (hcnt : 0 < cnt)
    (l : List Stop) : Barred (leafStops (absent fs) leaf o lo cnt ++ l) ↔ ref fs (leaf lo) = 0 := by
  obtain ⟨cnt, rfl⟩ : ∃ m, cnt = m + 1 := ⟨cnt - 1, by omega⟩
  rw [leafStops, List.range'_succ, List.flatMap_cons, List.append_assoc, List.singleton_append, Barred,
    absent_ne_zero]
  constructor
  · intro h
    rcases h with h | ⟨h, -⟩
    · exact h
    · dsimp only at h
      omega
  · exact Or.inl

theorem ref_missing {p r : Place} {i : Nat} (hu : p.up = some (r, i)) (h0 : ref fs r = 0) :
    ref fs p = 0 := by
  rw [ref_up hu, h0]
  rfl

/-- The route begins at the first block, below its index blocks. -/
theorem barred_route {k : Nat} (hs : (fs.inodes k).size < 2 ^ 32) :
    Barred (route fs k c data) ↔ StartsMissing fs k c := by
  obtain ⟨s, hsize⟩ : ∃ s, (fs.inodes k).size = s := ⟨_, rfl⟩
  unfold route routeFrom StartsMissing firstLeaf
  rw [hsize] at hs ⊢
  dsimp only
  by_cases h8 : c / 256 < 8
  · rw [if_pos h8, directStops, List.append_assoc, barred_leafStops (by omega) (by omega)]
    simp
  · have hdirect : directStops (absent fs) k c = [] := by
      rw [directStops, show 8 - c / 256 = 0 by omega]
      rfl
    have hsingle : sizeAtSingle (absent fs) k s c data = s := by
      rw [sizeAtSingle, hdirect]
      exact u32_of_lt hs
    rw [if_neg h8, hdirect, List.nil_append, hsingle]
    by_cases hin : 8 ≤ s / 256 ∧ s / 256 < 72
    · rw [if_pos hin, singleStops, if_pos hin, List.cons_append, Barred, absent_ne_zero,
        barred_leafStops (by omega) (by omega)]
      have hup : ref fs (.single k) = 0 → ref fs (.sleaf k (s / 256 - 8)) = 0 := ref_missing rfl
      simp only [true_and, Option.some.injEq, exists_eq_left']
      exact ⟨fun h => h.elim hup id, .inr⟩
    · have hempty : singleStops (absent fs) k s = [] := if_neg hin
      have hdouble : sizeAtDouble (absent fs) k s c data = s := by
        rw [sizeAtDouble, hsingle, hdirect, hempty]
        exact u32_of_lt hs
      rw [if_neg hin, hempty, List.nil_append, hdouble]
      by_cases hin' : 72 ≤ s / 256 ∧ s / 256 < 4168
      · rw [if_pos hin', doubleStops, if_pos hin', Barred, absent_ne_zero]
        rw [show (64 : Nat) = 63 + 1 from rfl, List.range'_succ, List.flatMap_cons]
        rw [indexStops, List.cons_append, Barred, absent_ne_zero,
          barred_leafStops (by omega) (by rw [indexStart, if_pos rfl]; omega), indexStart, if_pos rfl]
        have hup : ref fs (.double k) = 0 → ref fs (.index k 0) = 0 := ref_missing rfl
        have hup' : ref fs (.index k 0) = 0 → ref fs (.dleaf k 0 ((s / 256 - 72) / 64)) = 0 :=
          ref_missing rfl
        simp only [true_and, Option.some.injEq, exists_eq_left']
        exact ⟨fun h => h.elim (fun h => hup' (hup h)) fun h => h.elim hup' id, fun h => .inr (.inr h)⟩
      · rw [if_neg hin', doubleStops, if_neg hin']
        simp [Barred]

/-! ## What a failed write leaves -/

theorem absent_le_one (fs : FileSys) (p : Place) : absent fs p ≤ 1 := by
  unfold Supply.absent
  split <;> omega

theorem mem_leafStops {need : Place → Nat} {leaf : Nat → Place} {o lo cnt : Nat} {s : Stop}
    (h : s ∈ leafStops need leaf o lo cnt) : ∃ q r, s = ⟨need q, r⟩ := by
  obtain ⟨i, -, hs⟩ := List.mem_flatMap.mp h
  exact ⟨leaf i, 256 - o, List.mem_singleton.mp hs⟩

/-- Every stop of a route is one pointer. -/
theorem mem_routeFrom {need : Place → Nat} {k s c : Nat} {x : Stop}
    (h : x ∈ routeFrom need k s c data) : ∃ q r, x = ⟨need q, r⟩ := by
  rw [routeFrom, List.mem_append, List.mem_append] at h
  rcases h with (h | h) | h
  · exact mem_leafStops h
  · unfold singleStops at h
    split at h
    · rcases List.mem_cons.mp h with e | h
      · exact ⟨_, _, e⟩
      · exact mem_leafStops h
    · cases h
  · unfold doubleStops at h
    split at h
    · rcases List.mem_cons.mp h with e | h
      · exact ⟨_, _, e⟩
      · obtain ⟨i, -, h⟩ := List.mem_flatMap.mp h
        rcases List.mem_cons.mp h with e | h
        · exact ⟨_, _, e⟩
        · exact mem_leafStops h
    · cases h

/-- The file `k` and the cursor of `f` are the same in both states. -/
structure SameFile (st st' : State) (f : FdPtr) (k : Nat) : Prop where
  size : (st'.discos.inodes k).size = (st.discos.inodes k).size
  pointers : ∀ p, p.Valid → p.node = k → ref st'.discos p = ref st.discos p
  bytes : ∀ pos, pos < 1067008 → fileByte st'.discos k pos = fileByte st.discos k pos
  cursor : (st'.fileObject f).cursor = (st.fileObject f).cursor

/-- The file the descriptor leads to, its cursor, the bitmap and the counter. -/
structure AsBefore (st st' : State) (fd pid : Int) : Prop where
  file : ∀ (f : FdPtr) (k : Fin 1024), findFileObject st fd pid = some f →
    (st.fileObject f).inodePtr = some k → SameFile st st' f k
  bitmap : st'.discos.bitmap = st.discos.bitmap
  freeBlocks : st'.discos.freeBlocks = st.discos.freeBlocks

/-- How far the walk along the route of a write gets with the blocks that are free. -/
def progress (st : State) (f : FdPtr) (k : Fin 1024) (data : Bytes) (n : Int) : Progress :=
  walk (Met data n) st.discos.freeBlocks 0 (route st.discos k (st.fileObject f).cursor data)

/-- The blocks that a write needs. -/
def needs (st : State) (f : FdPtr) (k : Fin 1024) (data : Bytes) (n : Int) : Nat :=
  needed (Met data n) 0 (route st.discos k (st.fileObject f).cursor data)

/-- The write has the blocks it needs, or there is none for it at all and no byte to
store before it needs one. -/
def NotCutShort (st : State) (f : FdPtr) (k : Fin 1024) (data : Bytes) (n : Int) : Prop :=
  needs st f k data n ≤ st.discos.freeBlocks ∨
    (st.discos.freeBlocks = 0 ∧
      (data 0 = 0 ∨ StartsMissing st.discos k (st.fileObject f).cursor))

theorem short_iff_needs :
    (progress st f k data n).ending = .short ↔ st.discos.freeBlocks < needs st f k data n := short_iff

theorem left_add_needs (h : (progress st f k data n).ending ≠ .short) :
    (progress st f k data n).left + needs st f k data n = st.discos.freeBlocks := left_add_needed h

theorem progress_left (h : (progress st f k data n).ending = .short) :
    (progress st f k data n).left = 0 := by
  refine left_of_short (fun s hs => ?_) h
  obtain ⟨q, _, rfl⟩ := mem_routeFrom hs
  exact absent_le_one _ q

theorem reachable_owned (h : Reachable EntersShort st) : Owned every st.discos := by
  obtain ⟨behind, buffer, h⟩ := h
  exact h.invariant (I := fun st => Owned every st.discos) (init_owned behind buffer)
    fun st op hop ho => step_owned ho hop

/-- How a write through a writable descriptor ends. -/
theorem write_outcome (h : Reachable EntersShort st) (hw : Writable st fd pid f k) (data : Bytes)
    (n : Int) : ∃ w r, rdWrite st fd pid data n = ({ st with discos := w.fs }.setFileObject f
        { st.fileObject f with cursor := w.cursor }, r) ∧ w.written ≤ 1067008 ∧
      Outcome k data n st.discos (st.fileObject f).cursor (progress st f k data n) w r := by
  obtain ⟨w, r, hstages, hout⟩ := writeStages_outcome (reachable_owned h) k.isLt
    (Reading.size_lt_reachable h k) (Isolation.reachable_cursors h f) data n
  have hmost := Counting.writeStages_atMost k data n ⟨st.discos, (st.fileObject f).cursor, 0, 0⟩
  rw [hstages] at hmost
  refine ⟨w, r, ?_, by simpa using hmost, hout⟩
  rw [hw.write, stagesOf, hstages]
  rfl

/-- A write that has run out of blocks leaves everything as before exactly when it
could neither take a block nor store a byte. -/
theorem asBefore_iff (h : Reachable EntersShort st) (hw : Writable st fd pid f k) {w : Writer} {r : Int}
    (hwrite : rdWrite st fd pid data n = ({ st with discos := w.fs }.setFileObject f
      { st.fileObject f with cursor := w.cursor }, r)) (hmost : w.written ≤ 1067008)
    (hshort : (progress st f k data n).ending = .short)
    (hrun : RunsOut k data st.discos (st.fileObject f).cursor (progress st f k data n).left
      (progress st f k data n).room w r) :
    AsBefore st (rdWrite st fd pid data n).1 fd pid ↔ st.discos.freeBlocks = 0 ∧
      (data 0 = 0 ∨ StartsMissing st.discos k (st.fileObject f).cursor) := by
  have hsize := Reading.size_lt_reachable h k
  have hcursor := Isolation.reachable_cursors h f
  obtain ⟨-, hstands⟩ := hrun
  have hfree := hstands.free
  have hmoved := hstands.moved.2
  rw [hstands.written] at hmost hmoved
  rw [progress_left hshort] at hfree
  rw [hwrite]
  constructor
  · intro hb
    have hzero : st.discos.freeBlocks = 0 := hb.freeBlocks.symm.trans hfree
    refine ⟨hzero, ?_⟩
    have hsame : w.cursor = (st.fileObject f).cursor := by
      have hc := (hb.file f k hw.found hw.inode).cursor
      rwa [fileObject_set_self] at hc
    have hnone : stored data (progress st f k data n).room = 0 := by
      rw [hsame] at hmoved
      unfold u32 at hmoved
      omega
    rcases stored_eq_zero.mp hnone with hroom | h0
    · exact .inr ((barred_route hsize).mp ((barred_iff hzero hshort).mp hroom))
    · exact .inl h0
  · intro hcond
    obtain ⟨hzero, hstart⟩ := hcond
    have hnone : stored data (progress st f k data n).room = 0 := by
      refine stored_eq_zero.mpr ?_
      rcases hstart with h0 | hmissing
      · exact .inr h0
      · exact .inl ((barred_iff hzero hshort).mpr ((barred_route hsize).mpr hmissing))
    have hfs : w.fs = st.discos := hstands.idle hnone (by rw [progress_left hshort, hzero])
    rw [hnone] at hmoved
    refine ⟨fun f' k' hf' hk' => ?_, congrArg FileSys.bitmap hfs, congrArg FileSys.freeBlocks hfs⟩
    obtain rfl := Option.some.inj (hw.found.symm.trans hf')
    refine ⟨congrArg (fun x => (x.inodes k').size) hfs, fun p _ _ => congrArg (ref · p) hfs,
      fun pos _ => congrArg (fileByte · k' pos) hfs, ?_⟩
    rw [fileObject_set_self]
    exact hmoved.trans (u32_of_lt hcursor)

theorem writable_unique {f' : FdPtr} {k' : Fin 1024} (h : Writable st fd pid f k)
    (h' : Writable st fd pid f' k') : f' = f ∧ k' = k := by
  obtain rfl := Option.some.inj (h'.found.symm.trans h.found)
  exact ⟨rfl, Option.some.inj (h'.inode.symm.trans h.inode)⟩

/-- In every run whose calls enter short names, a write of at least one byte that
returns -1 leaves file, cursor, bitmap and counter as before exactly when it is
refused or not cut short. -/
theorem write_atomic_iff (h : Reachable EntersShort st) (hn : 1 ≤ n) (fd pid : Int) (data : Bytes) :
    ((rdWrite st fd pid data n).2 = -1 → AsBefore st (rdWrite st fd pid data n).1 fd pid) ↔
      ∀ f k, Writable st fd pid f k → NotCutShort st f k data n := by
  by_cases hex : ∃ f k, Writable st fd pid f k
  · obtain ⟨f, k, hw⟩ := hex
    have hone : (∀ f' k', Writable st fd pid f' k' → NotCutShort st f' k' data n) ↔
        NotCutShort st f k data n := by
      refine ⟨fun hall => hall f k hw, fun hc f' k' hw' => ?_⟩
      obtain ⟨rfl, rfl⟩ := writable_unique hw hw'
      exact hc
    obtain ⟨w, r, hwrite, hmost, hout⟩ := write_outcome h hw data n
    have hret : (rdWrite st fd pid data n).2 = r := by rw [hwrite]
    have hlong : (progress st f k data n).ending ≠ .short → needs st f k data n ≤ st.discos.freeBlocks :=
      fun hne => not_lt.mp (short_iff_needs.not.mp hne)
    rw [hone, hret, NotCutShort]
    cases hout with
    | meets he hmeets =>
      exact iff_of_true (fun e => by have := hmeets.1; omega) (.inl (hlong (by simp [he])))
    | through he hr =>
      refine iff_of_true (fun e => ?_) (.inl (hlong (by simp [he])))
      rw [e] at hr
      split at hr <;> omega
    | runsOut he hrun =>
      rw [or_iff_right (Nat.not_le.mpr (short_iff_needs.mp he)), ← asBefore_iff h hw hwrite hmost he hrun]
      exact ⟨fun himp => himp hrun.1, fun hb _ => hb⟩
  · have hno : ∀ f k, ¬ Writable st fd pid f k := fun f k hw => hex ⟨f, k, hw⟩
    rw [rdWrite_refused hno]
    exact iff_of_true (fun _ => ⟨fun _ _ _ _ => ⟨rfl, fun _ _ _ => rfl, fun _ _ => rfl, rfl⟩, rfl, rfl⟩)
      fun f k hw => absurd hw (hno f k)

/-! ## A file on a full disk -/

/-- The files `/a` and `/b`, both open. -/
def twoOpen : State :=
  [.create (slash :: [98]) .reg RW ⟨[0, 0], [0, 0]⟩, .open (render [nameA]) RW 5,
    .open (slash :: [98]) RW 5].foldl step oneFile

def allA : Bytes := fun _ => 65

/-- The first file with as many bytes as a file can have. -/
def filled : State := step twoOpen (.write 0 5 allA 1067008)

theorem twoOpen_reachable : Reachable EntersShort twoOpen := by
  have hone : Reach EntersShort step (initFileSys (fun _ _ => 0) fun _ => 0) oneFile := by
    refine .step .start (.inl ?_)
    show (splitPath (render [nameA]) ⟨[0, 0], [0, 0]⟩).2.length ≤ 13
    decide
  refine ⟨_, _, hone.foldl _ fun _ op hop => .inl ?_⟩
  simp only [List.mem_cons, List.not_mem_nil, or_false] at hop
  rcases hop with rfl | rfl | rfl
  · show (splitPath (slash :: [98]) ⟨[0, 0], [0, 0]⟩).2.length ≤ 13
    decide
  · trivial
  · trivial

theorem write_atomic_iff_twoOpen :
    ((rdWrite twoOpen 0 5 allA 1).2 = -1 → AsBefore twoOpen (rdWrite twoOpen 0 5 allA 1).1 0 5) ↔
      ∀ f k, Writable twoOpen 0 5 f k → NotCutShort twoOpen f k allA 1 :=
  write_atomic_iff twoOpen_reachable (le_refl 1) 0 5 allA

theorem filled_reachable : Reachable EntersShort filled := by
  obtain ⟨behind, buffer, h⟩ := twoOpen_reachable
  exact ⟨behind, buffer, h.step (.inl trivial)⟩

theorem first_fresh : FreshFile twoOpen 0 5 ⟨0, 0⟩ 1 := by
  constructor
  · constructor <;> decide +kernel
  all_goals decide +kernel

theorem second_fresh : FreshFile twoOpen 1 5 ⟨0, 1⟩ 2 := by
  constructor
  · constructor <;> decide +kernel
  all_goals decide +kernel

theorem ref_fresh {p : Place} (h : FreshFile st fd pid f k) (hp : p.Valid) (hn : p.node = k) :
    ref st.discos p = 0 := by
  have hs : ref st.discos (.single k) = 0 := h.singleIndirect
  have hd : ref st.discos (.double k) = 0 := h.doubleIndirect
  cases p with
  | direct k' i =>
    obtain rfl : k' = k := hn
    exact h.pointers i hp.2
  | single k' =>
    obtain rfl : k' = k := hn
    exact hs
  | double k' =>
    obtain rfl : k' = k := hn
    exact hd
  | sleaf k' i =>
    obtain rfl : k' = k := hn
    exact ref_missing rfl hs
  | index k' i =>
    obtain rfl : k' = k := hn
    exact ref_missing rfl hd
  | dleaf k' i j =>
    obtain rfl : k' = k := hn
    exact ref_missing rfl (ref_missing (p := .index k i) rfl hd)

theorem leafStops_congr {need need' : Place → Nat} {leaf : Nat → Place} {lo cnt : Nat} (o : Nat)
    (h : ∀ i, lo ≤ i → i < lo + cnt → need (leaf i) = need' (leaf i)) :
    leafStops need leaf o lo cnt = leafStops need' leaf o lo cnt := by
  refine List.flatMap_congr fun i hi => ?_
  obtain ⟨hlo, hlt⟩ := List.mem_range'_1.mp hi
  rw [h i hlo hlt]

/-- A route depends on the pointers of the file alone. -/
theorem routeFrom_congr {need need' : Place → Nat} {k s c : Nat} (hk : k < 1024)
    (h : ∀ p, p.Valid → p.node = k → need p = need' p) :
    routeFrom need k s c data = routeFrom need' k s c data := by
  have hdirect : directStops need k = directStops need' k := funext fun c =>
    leafStops_congr _ fun i _ hi => h _ ⟨hk, by omega⟩ rfl
  have hsingle : singleStops need k = singleStops need' k := by
    funext size
    unfold singleStops
    rw [h (.single k) hk rfl, leafStops_congr _ fun i _ hi => h (.sleaf k i) ⟨hk, by omega⟩ rfl]
  have hdouble : doubleStops need k = doubleStops need' k := by
    have hbelow : ∀ o i a, i < 64 → indexStops need k o i a = indexStops need' k o i a := by
      intro o i a hi
      unfold indexStops
      rw [h (.index k i) ⟨hk, hi⟩ rfl,
        leafStops_congr _ fun j _ hj => h (.dleaf k i j) ⟨hk, hi, by omega⟩ rfl]
    funext size
    unfold doubleStops
    rw [h (.double k) hk rfl]
    split
    · refine congrArg _ (List.flatMap_congr fun i hi => hbelow _ i _ ?_)
      have := (List.mem_range'_1.mp hi).2
      omega
    · rfl
  unfold routeFrom sizeAtDouble sizeAtSingle
  rw [hdirect, hsingle, hdouble]

/-- For a new file every pointer on the way needs a block. -/
theorem route_fresh (h : FreshFile st fd pid f k) (data : Bytes) :
    route st.discos k (st.fileObject f).cursor data = routeFrom (fun _ => 1) 0 0 0 data := by
  rw [route, h.size, h.cursor]
  exact routeFrom_congr k.isLt fun p hp hn => absent_null (ref_fresh h hp hn)

/-- A new file needs all its blocks to be filled. -/
theorem needs_fresh (h : FreshFile st fd pid f k) : needs st f k allA 1067008 = 4234 := by
  have hstored : ∀ m, stored allA m = m := fun m => stored_nonzero fun _ _ => (by decide : (65 : UInt8) ≠ 0)
  have hmet : ∀ m, Met allA 1067008 m ↔ 1067008 ≤ m := fun m => by
    rw [Met, hstored]
    omega
  have hsingle : sizeAtSingle (fun _ => 1) 0 0 0 allA = 2048 := by
    rw [sizeAtSingle, hstored]
    decide +kernel
  have hdouble : sizeAtDouble (fun _ => 1) 0 0 0 allA = 18432 := by
    rw [sizeAtDouble, hstored, hsingle]
    decide +kernel
  rw [needs, route_fresh h, routeFrom, hsingle, hdouble, needed_congr hmet]
  decide +kernel

theorem writable_of_open (h : OpenFile st fd pid f k) : Writable st fd pid f k where
  found := h.found
  inode := h.inode
  type := by rw [h.type]; decide
  access := by rw [h.access]; decide
  status := by rw [h.status]; decide

/-- The first file takes all the blocks it needs. -/
theorem filled_free : filled.discos.freeBlocks = 3696 := by
  obtain ⟨w, r, hwrite, -, hout⟩ :=
    write_outcome twoOpen_reachable (writable_of_open first_fresh.toOpenFile) allA 1067008
  have hneeds : needs twoOpen ⟨0, 0⟩ 1 allA 1067008 = 4234 := needs_fresh first_fresh
  have hfree : twoOpen.discos.freeBlocks = 7930 := by decide +kernel
  have hlong : (progress twoOpen ⟨0, 0⟩ 1 allA 1067008).ending ≠ .short := by
    rw [Ne, short_iff_needs, hneeds, hfree]
    omega
  have hleft : (progress twoOpen ⟨0, 0⟩ 1 allA 1067008).left = 3696 := by
    have hsum := left_add_needs hlong
    omega
  have hfilled : filled.discos = w.fs := by
    rw [filled, step, call, hwrite]
    rfl
  rw [hfilled]
  cases hout with
  | meets _ h => exact h.2.free.trans hleft
  | through _ _ h => exact h.free.trans hleft
  | runsOut he => exact absurd he hlong

/-- A new file stays new while another one is written. -/
theorem fresh_after_write {fd' pid' : Int} {f' : FdPtr} {k' : Fin 1024} (h : FreshFile st fd pid f k)
    (ho : Owned every st.discos) (hw : Writable st fd' pid' f' k') (hf : f ≠ f') (hk : k ≠ k')
    (data : Bytes) (n : Int) : FreshFile (rdWrite st fd' pid' data n).1 fd pid f k := by
  obtain ⟨w, hstages⟩ : ∃ w, (stagesOf st f' k' data n).state = w := ⟨_, rfl⟩
  have hinode : w.fs.inodes k = st.discos.inodes k := by
    rw [← hstages]
    exact (writeStages_wrote k'.isLt ho data n).grows.inodes k fun e => hk (Fin.ext e)
  rw [hw.write, hstages]
  have hobject := fileObject_set_ne { st with discos := w.fs }
    { st.fileObject f' with cursor := w.cursor } hf
  have hfound := findFileObject_set { st with discos := w.fs } (f := f')
    (o := { st.fileObject f' with cursor := w.cursor }) rfl fd pid
  constructor
  · constructor
    · exact hfound.trans h.found
    · rw [hobject]; exact h.inode
    · rw [hobject]; exact h.usable
    · rw [hobject]; exact h.status
    · exact (congrArg Inode.type hinode).trans h.type
    · exact (congrArg Inode.access hinode).trans h.access
  · exact (congrArg Inode.size hinode).trans h.size
  · exact fun i hi => (congrArg (fun x => x.pointers i) hinode).trans (h.pointers i hi)
  · exact (congrArg Inode.singleIndirectPtrs hinode).trans h.singleIndirect
  · exact (congrArg Inode.doubleIndirectPtrs hinode).trans h.doubleIndirect
  · rw [hobject]; exact h.cursor

theorem filled_fresh : FreshFile filled 1 5 ⟨0, 1⟩ 2 :=
  fresh_after_write second_fresh (reachable_owned twoOpen_reachable)
    (writable_of_open first_fresh.toOpenFile) (by decide) (by decide) allA 1067008

/-- The second file does not get all of its bytes, and the call returns -1. -/
theorem blocks_taken_in_vain : Reachable EntersShort filled ∧
    ¬ ((rdWrite filled 1 5 allA 1067008).2 = -1 →
      AsBefore filled (rdWrite filled 1 5 allA 1067008).1 1 5) := by
  refine ⟨filled_reachable, fun himp => ?_⟩
  obtain ⟨w, r, hwrite, -, hout⟩ :=
    write_outcome filled_reachable (writable_of_open filled_fresh.toOpenFile) allA 1067008
  have hshort : (progress filled ⟨0, 1⟩ 2 allA 1067008).ending = .short := by
    rw [short_iff_needs, needs_fresh filled_fresh, filled_free]
    omega
  rw [hwrite] at himp
  cases hout with
  | meets he | through he =>
    rw [hshort] at he
    cases he
  | runsOut _ h =>
    have hfree := (himp h.1).freeBlocks
    have hnone : w.fs.freeBlocks = 0 := h.2.free.trans (progress_left hshort)
    rw [filled_free] at hfree
    have : w.fs.freeBlocks = 3696 := hfree
    omega

end ToyOS.Ramdisk.ShortWrites
