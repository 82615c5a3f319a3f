import ToyOS.Lib.Runs
import ToyOS.Heap.Allocation

/-! # The heap and its clients

Runs of `malloc`, `free` and the clients' own stores. Beside memory the state
keeps the pointers handed out and not yet given back, with what was asked for.
-/
namespace ToyOS.Heap.Clients
open ToyOS.Lib.Words ToyOS.Lib.Tiles ToyOS.Lib.Runs
open ToyOS.Heap.Memory ToyOS.Heap.Layout ToyOS.Heap.Blocks ToyOS.Heap.Allocation

structure State where
  mem : Bytes
  live : List (Nat × Nat)

inductive Op where
  | malloc (size : Nat)
  | free (addr : Nat)
  | write (addr : Nat) (v : UInt8)

/-- One call, or one byte stored by a client. -/
def step (B : Buffer) (st : State) : Op → State
  | .malloc size => (malloc B st.mem size).elim st fun r =>
    ⟨r.1, if r.2 = 0 then st.live else (r.2, size) :: st.live⟩
  | .free addr => ⟨free B st.mem addr, st.live.filter (·.1 ≠ addr)⟩
  | .write addr v => { st with mem := Function.update st.mem addr v }

/-- Requests of at most 2^20 bytes, `free` of NULL or of a live pointer, stores
inside a live payload or outside the buffer. -/
def Allowed (B : Buffer) (st : State) : Op → Prop
  | .malloc size => size ≤ 2 ^ 20
  | .free addr => addr = 0 ∨ addr ∈ st.live.map (·.1)
  | .write addr _ => (∃ p s, (p, s) ∈ st.live ∧ p ≤ addr ∧ addr < p + s) ∨
    addr < B.addr ∨ B.addr + DEFAULT_MEM_SIZE ≤ addr

def Reachable (B : Buffer) (st : State) : Prop :=
  ∃ m, Reach (Allowed B) (step B) ⟨initHeap B m, []⟩ st

/-- The blocks found from `p` on by adding `GET_SIZE`. -/
def walk (B : Buffer) (m : Bytes) : Nat → Nat → List (Nat × Tile)
  | 0, _ => []
  | fuel + 1, p =>
    if p < B.addr + DEFAULT_MEM_SIZE then
      (p, ⟨getSize m p, getAlloc m p == 1⟩) :: walk B m fuel (p + getSize m p)
    else []

/-- The blocks of the heap, with their addresses. -/
def blocks (B : Buffer) (m : Bytes) : List (Nat × Tile) := walk B m DEFAULT_MEM_SIZE B.baseptr

variable {B : Buffer} {st : State} {m m' : Bytes} {op : Op} {p q s x size fuel : Nat} {t u : Tile}
variable {ts xs ys : List Tile}

/-! ## The walk -/

theorem walk_end (m : Bytes) (fuel : Nat) (hp : B.addr + DEFAULT_MEM_SIZE ≤ p) : walk B m fuel p = [] := by
  cases fuel with
  | zero => rfl
  | succ fuel => rw [walk, if_neg (by omega)]

theorem walk_eq (h : At B m xs t ys p) (hf : ys.length < fuel) :
    walk B m fuel p = placed p (t :: ys) := by
  induction ys generalizing xs t p fuel with
  | nil =>
    obtain ⟨fuel, rfl⟩ : ∃ k, fuel = k + 1 := ⟨fuel - 1, by omega⟩
    have hends := h.ends
    have hsize := h.sized.1
    rw [total_nil] at hends
    rw [walk, if_pos (by omega), h.getSize, walk_end m fuel (by omega), h.getAlloc]
    cases t with | mk n b => cases b <;> rfl
  | cons y ys ih =>
    obtain ⟨fuel, rfl⟩ : ∃ k, fuel = k + 1 := ⟨fuel - 1, by omega⟩
    have hends := h.ends
    have hsize := h.sized.1
    rw [List.length_cons] at hf
    rw [walk, if_pos (by omega), h.getSize, ih (h.succ rfl) (by omega), h.getAlloc]
    cases t with | mk n b => cases b <;> rfl

theorem blocks_eq (h : Laid B m ts) : blocks B m = placed B.baseptr ts := by
  cases ts with
  | nil => exact absurd rfl h.ne_nil
  | cons t ts =>
    have hlen := Laid.length_lt h
    rw [List.length_cons] at hlen
    have hat : At B m [] t ts B.baseptr := ⟨h, rfl⟩
    exact walk_eq hat (by omega)

/-! ## The invariant -/

/-- The live pointers are the blocks in use, each with room for what was asked for. -/
structure Served (B : Buffer) (st : State) (ts : List Tile) : Prop where
  tidy : Tidy B st.mem ts
  block : ∀ p s, (p, s) ∈ st.live → ∃ q t, (q, t) ∈ usedAt B.baseptr ts ∧ p = q + 8 ∧ s + 8 ≤ t.size
  live : ∀ q t, (q, t) ∈ usedAt B.baseptr ts → ∃ s, (q + 8, s) ∈ st.live
  nodup : (st.live.map (·.1)).Nodup

theorem init_served (B : Buffer) (m : Bytes) :
    Served B ⟨initHeap B m, []⟩ [⟨DEFAULT_MEM_SIZE - DSIZE, false⟩] := by
  refine ⟨initHeap_tidy B m, fun p s h => ?_, fun q t h => ?_, List.nodup_nil⟩
  · cases h
  · simp [usedAt] at h

/-- Memory may change outside the headers and `LASTPTR`. -/
theorem tidy_agree (h : Tidy B m ts) (hlast : ∀ x, B.addr ≤ x → x < B.addr + 4 → m' x = m x)
    (hhead : ∀ q t, (q, t) ∈ placed B.baseptr ts → ∀ x, q ≤ x → x < q + 8 → m' x = m x) :
    Tidy B m' ts :=
  ⟨⟨h.headers.congr hhead, by rw [lastPtr_congr hlast, h.last], h.fills, h.sized⟩, h.coalesced⟩

/-- What is inside the payload of a block in use is in no header. -/
theorem payload_apart (h : Laid B m ts) (hq : (q, t) ∈ usedAt B.baseptr ts) (h1 : q + 8 ≤ x)
    (h2 : x < q + t.size) :
    B.addr + 4 ≤ x ∧ x < B.addr + DEFAULT_MEM_SIZE ∧
      ∀ r u, (r, u) ∈ placed B.baseptr ts → x < r ∨ r + 8 ≤ x := by
  have hmem := (mem_usedAt.mp hq).1
  have hb := placed_bounds hmem
  have hfills := h.fills
  have hbase : B.baseptr = B.addr + 8 := rfl
  simp only [DEFAULT_MEM_SIZE, DSIZE] at *
  refine ⟨by omega, by omega, fun r u hr => ?_⟩
  have := h.size_ge u (mem_of_placed hr)
  rcases placed_disjoint hmem hr with ⟨rfl, rfl⟩ | hd | hd
  · omega
  · omega
  · omega

/-- Stores inside live payloads and outside the buffer touch no header. -/
theorem Served.stores (h : Served B st ts)
    (hm : ∀ x, m' x ≠ st.mem x → (∃ p s, (p, s) ∈ st.live ∧ p ≤ x ∧ x < p + s) ∨
      x < B.addr ∨ B.addr + DEFAULT_MEM_SIZE ≤ x) : Served B { st with mem := m' } ts := by
  refine ⟨tidy_agree h.tidy (fun x h1 h2 => ?_) fun r u hr x h1 h2 => ?_, h.block, h.live, h.nodup⟩
  · by_contra hne
    rcases hm x hne with ⟨p, s, hp, hp1, hp2⟩ | hout
    · obtain ⟨q, t, hq, rfl, hs⟩ := h.block p s hp
      have := payload_apart h.tidy.toLaid hq hp1 (by omega)
      omega
    · simp only [DEFAULT_MEM_SIZE] at hout
      omega
  · by_contra hne
    rcases hm x hne with ⟨p, s, hp, hp1, hp2⟩ | hout
    · obtain ⟨q, t, hq, rfl, hs⟩ := h.block p s hp
      have := (payload_apart h.tidy.toLaid hq hp1 (by omega)).2.2 r u hr
      omega
    · have := placed_bounds hr
      have := h.tidy.fills
      have := h.tidy.size_ge u (mem_of_placed hr)
      have hbase : B.baseptr = B.addr + 8 := rfl
      simp only [DEFAULT_MEM_SIZE, DSIZE] at *
      omega

theorem Served.write (h : Served B st ts) (ha : Allowed B st (.write x v)) (v : UInt8) :
    Served B (step B st (.write x v)) ts := by
  refine h.stores fun y hy => ?_
  have hyx : y = x := by
    by_contra hne
    exact hy (Function.update_of_ne hne _ _)
  rw [hyx]
  exact ha

theorem Served.free (h : Served B st ts) {addr : Nat} (ha : Allowed B st (.free addr)) :
    ∃ ts', Served B (step B st (.free addr)) ts' ∧
      PayloadsKept B st.mem (step B st (.free addr)).mem ts' ∧
      usedAt B.baseptr ts' = (usedAt B.baseptr ts).filter (·.1 + 8 ≠ addr) := by
  rcases ha with rfl | hmem
  · have hlive : st.live.filter (·.1 ≠ 0) = st.live := by
      refine List.filter_eq_self.mpr fun x hx => ?_
      obtain ⟨q, t, -, hp, -⟩ := h.block x.1 x.2 hx
      simp only [decide_eq_true_eq]
      omega
    have hst : step B st (.free 0) = st := by
      rw [step, Memory.free, if_pos rfl, hlive]
    rw [hst]
    refine ⟨ts, h, fun _ _ _ _ _ _ => rfl, (List.filter_eq_self.mpr fun x _ => ?_).symm⟩
    simp
  · obtain ⟨⟨p, s⟩, hp, rfl⟩ := List.mem_map.mp hmem
    obtain ⟨q, t, hq, rfl, hs⟩ := h.block p s hp
    obtain ⟨ts', htidy, hkept, hused⟩ := free_spec h.tidy hq
    have hfilter : usedAt B.baseptr ts' = (usedAt B.baseptr ts).filter (·.1 + 8 ≠ q + 8) := by
      rw [hused]
      exact List.filter_congr fun x _ => by simp
    refine ⟨ts', ⟨htidy, fun p s hp => ?_, fun r u hr => ?_, ?_⟩, hkept, hfilter⟩
    · obtain ⟨hp, hne⟩ := List.mem_filter.mp hp
      obtain ⟨r, u, hr, rfl, hs⟩ := h.block p s hp
      refine ⟨r, u, ?_, rfl, hs⟩
      rw [hfilter]
      exact List.mem_filter.mpr ⟨hr, hne⟩
    · rw [hfilter] at hr
      obtain ⟨hr, hne⟩ := List.mem_filter.mp hr
      obtain ⟨s', hs'⟩ := h.live r u hr
      exact ⟨s', List.mem_filter.mpr ⟨hs', hne⟩⟩
    · exact h.nodup.sublist (List.filter_sublist.map _)

theorem cut_used (n : Nat) (t : Tile) (a : Nat) :
    ∃ k, usedAt a (cut n t) = [(a, ⟨k, true⟩)] ∧ (n ≤ t.size → n ≤ k) := by
  unfold cut
  split
  · exact ⟨t.size, by simp [usedAt], fun h => h⟩
  · exact ⟨n, by simp [usedAt], fun _ => le_rfl⟩

theorem cut_total (hn : size ≤ t.size) : total (cut size t) = t.size := by
  unfold cut
  split
  · simp
  · simp only [total_cons, total_nil]
    omega

theorem Served.malloc (h : Served B st ts) (hsize : size < 2 ^ 32 - 15) :
    (∃ r, Memory.malloc B st.mem size = some r) ∧
    ∃ ts', Served B (step B st (.malloc size)) ts' ∧
      PayloadsKept B st.mem (step B st (.malloc size)).mem ts' := by
  by_cases h0 : size = 0
  · have hm : Memory.malloc B st.mem size = some (st.mem, 0) := by rw [Memory.malloc, if_pos h0]
    refine ⟨⟨_, hm⟩, ts, ?_⟩
    have hst : step B st (.malloc size) = st := by rw [step, hm]; rfl
    rw [hst]
    exact ⟨h, fun _ _ _ _ _ _ => rfl⟩
  · have hpos : 0 < size := Nat.pos_of_ne_zero h0
    rcases malloc_spec h.tidy hpos hsize with ⟨hm, -⟩ | ⟨m', xs, t, ys, hm, ht⟩
    · refine ⟨⟨_, hm⟩, ts, ?_⟩
      have hst : step B st (.malloc size) = st := by rw [step, hm]; rfl
      rw [hst]
      exact ⟨h, fun _ _ _ _ _ _ => rfl⟩
    · refine ⟨⟨_, hm⟩, xs ++ (cut (blockSizeFor size) t ++ ys), ?_⟩
      have hst : step B st (.malloc size) =
          ⟨m', (B.baseptr + total xs + 8, size) :: st.live⟩ := by
        rw [step, hm, Option.elim_some, if_neg (by omega)]
      rw [hst]
      refine ⟨?_, ht.kept⟩
      have hn := blockSizeFor_eq hsize
      obtain ⟨k, hk, hnk⟩ := cut_used (blockSizeFor size) t (B.baseptr + total xs)
      have hused : usedAt B.baseptr (xs ++ (cut (blockSizeFor size) t ++ ys)) =
          usedAt B.baseptr xs ++ ((B.baseptr + total xs, ⟨k, true⟩) ::
            usedAt (B.baseptr + total xs + t.size) ys) := by
        rw [usedAt_append, usedAt_append, hk, cut_total ht.fits.2]
        rfl
      have hold : usedAt B.baseptr ts = usedAt B.baseptr xs ++
          usedAt (B.baseptr + total xs + t.size) ys := by
        rw [ht.list, usedAt_append, usedAt_cons, ht.fits.1, if_neg (by decide)]
      have hin : ∀ x, x ∈ usedAt B.baseptr ts →
          x ∈ usedAt B.baseptr (xs ++ (cut (blockSizeFor size) t ++ ys)) := fun x hx => by
        rw [hold, List.mem_append] at hx
        rw [hused, List.mem_append, List.mem_cons]
        tauto
      refine ⟨ht.tidy, fun p s hp => ?_, fun q u hq => ?_, ?_⟩
      · rcases List.mem_cons.mp hp with hp | hp
        · obtain ⟨rfl, rfl⟩ := Prod.mk.inj hp
          have := hnk ht.fits.2
          refine ⟨_, ⟨k, true⟩, ?_, rfl, by dsimp only; omega⟩
          rw [hused]
          simp
        · obtain ⟨q, u, hq, rfl, hs⟩ := h.block p s hp
          exact ⟨q, u, hin _ hq, rfl, hs⟩
      · rw [hused, List.mem_append, List.mem_cons] at hq
        have hold' : (q, u) ∈ usedAt B.baseptr ts → ∃ s, (q + 8, s) ∈
            (B.baseptr + total xs + 8, size) :: st.live := fun hq => by
          obtain ⟨s, hs⟩ := h.live q u hq
          exact ⟨s, List.mem_cons_of_mem _ hs⟩
        rw [hold, List.mem_append] at hold'
        rcases hq with hq | hq | hq
        · exact hold' (.inl hq)
        · obtain ⟨rfl, -⟩ := Prod.mk.inj hq
          exact ⟨size, List.mem_cons_self⟩
        · exact hold' (.inr hq)
      · refine List.nodup_cons.mpr ⟨fun hmem => ?_, h.nodup⟩
        -- the block taken was free
        obtain ⟨⟨p, s⟩, hp, hpe⟩ := List.mem_map.mp hmem
        obtain ⟨q, u, hq, rfl, -⟩ := h.block p s hp
        have hqe : q = B.baseptr + total xs := by
          dsimp only at hpe
          omega
        subst hqe
        have hsize' := h.tidy.size_ge u (mem_of_placed (mem_usedAt.mp hq).1)
        obtain ⟨hq, hu⟩ := mem_usedAt.mp hq
        have ht' : (B.baseptr + total xs, t) ∈ placed B.baseptr ts := by
          rw [ht.list]
          exact placed_of_split _ _ _ _
        rcases placed_disjoint hq ht' with ⟨-, rfl⟩ | hd | hd
        · rw [ht.fits.1] at hu
          cases hu
        · omega
        · have := h.tidy.size_ge t (mem_of_placed ht')
          omega

/-- What one step keeps: the blocks in order, and the payloads live after it. -/
theorem step_served (h : Served B st ts) (ha : Allowed B st op) :
    ∃ ts', Served B (step B st op) ts' ∧
      ((∀ x v, op ≠ .write x v) → PayloadsKept B st.mem (step B st op).mem ts') := by
  cases op with
  | malloc size =>
    obtain ⟨-, ts', hs, hk⟩ := h.malloc (Nat.lt_of_le_of_lt ha (by decide))
    exact ⟨ts', hs, fun _ => hk⟩
  | free addr =>
    obtain ⟨ts', hs, hk, -⟩ := h.free ha
    exact ⟨ts', hs, fun _ => hk⟩
  | write x v => exact ⟨ts, h.write ha v, fun hno => absurd rfl (hno x v)⟩

theorem reachable_served (h : Reachable B st) : ∃ ts, Served B st ts := by
  obtain ⟨m, h⟩ := h
  refine h.invariant (I := fun st => ∃ ts, Served B st ts) ⟨_, init_served B m⟩ fun st op ha hs => ?_
  obtain ⟨ts, hs⟩ := hs
  obtain ⟨ts', hs', -⟩ := step_served hs ha
  exact ⟨ts', hs'⟩

/-! ## The structure of the heap -/

/-- What a walk over the blocks of the buffer sees. -/
structure WellFormed (B : Buffer) (m : Bytes) : Prop where
  first : (blocks B m).head?.map (·.1) = some (B.addr + 8)
  adjacent : (blocks B m).IsChain fun b c => c.1 = b.1 + b.2.size
  reaches : (blocks B m).getLast?.map (fun b => b.1 + b.2.size) = some (B.addr + 2 ^ 20)
  last : (blocks B m).getLast?.map (·.1) = some (lastPtr B m)
  sized : ∀ b ∈ blocks B m, 8 ∣ b.2.size ∧ 16 ≤ b.2.size
  noPrevious : getW m (B.addr + 8 + 4) = 0
  previous : (blocks B m).IsChain fun b c => getW m (c.1 + 4) = b.2.size
  merged : (blocks B m).IsChain fun b c => b.2.used = true ∨ c.2.used = true

theorem headers_previous {a back : Nat} (h : Headers m a back ts) :
    (placed a ts).IsChain fun b c => getW m (c.1 + 4) = b.2.size := by
  induction ts generalizing a back with
  | nil => exact List.isChain_nil
  | cons t ts ih =>
    obtain ⟨-, -, hrest⟩ := h
    refine List.isChain_cons.mpr ⟨fun y hy => ?_, ih hrest⟩
    cases ts with
    | nil => cases hy
    | cons u us =>
      obtain rfl := Option.some.inj hy
      exact hrest.2.1

theorem Tidy.wellFormed (h : Tidy B m ts) : WellFormed B m := by
  have hb := blocks_eq h.toLaid
  rcases ts.eq_nil_or_concat with rfl | ⟨xs, z, hz⟩
  · exact absurd rfl h.ne_nil
  rw [List.concat_eq_append] at hz
  have hlast : (placed B.baseptr ts).getLast? = some (B.baseptr + total xs, z) := by
    rw [hz, placed_getLast?]
  have hfills := h.fills
  have hbase : B.baseptr = B.addr + 8 := rfl
  constructor
  · rw [hb]
    cases ts with
    | nil => exact absurd rfl h.ne_nil
    | cons t ts => rfl
  · rw [hb]
    exact placed_adjacent _ _
  · rw [hb, hlast, Option.map_some]
    rw [hz] at hfills
    simp only [total_append, total_cons, total_nil, DEFAULT_MEM_SIZE, DSIZE] at hfills
    exact congrArg some (by dsimp only; omega)
  · rw [hb, hlast, Option.map_some, h.last, hz, List.dropLast_concat]
  · intro b hmem
    rw [hb] at hmem
    have hmem : (b.1, b.2) ∈ placed B.baseptr ts := hmem
    exact (h.sized b.2 (mem_of_placed hmem)).symm
  · cases ts with
    | nil => exact absurd rfl h.ne_nil
    | cons t ts => exact h.headers.2.1
  · rw [hb]
    exact headers_previous h.headers
  · rw [hb]
    exact placed_chain h.coalesced _

/-- The heap keeps its structure in every run, and `malloc` returns. -/
theorem heap_wellFormed (h : Reachable B st) :
    WellFormed B st.mem ∧ ∀ size, size ≤ 2 ^ 20 → ∃ r, malloc B st.mem size = some r := by
  obtain ⟨ts, hs⟩ := reachable_served h
  exact ⟨Tidy.wellFormed hs.tidy, fun size hsize => (hs.malloc (by omega)).1⟩

/-- A buffer at address 4096. -/
def lowBuffer : Buffer := ⟨4096, by decide, by decide⟩

/-- Fresh memory, and one allocation of 16 bytes. -/
def oneLive : State := step lowBuffer ⟨initHeap lowBuffer fun _ => 0, []⟩ (.malloc 16)

theorem oneLive_reachable : Reachable lowBuffer oneLive :=
  ⟨_, .step .start (show 16 ≤ 2 ^ 20 by decide)⟩

theorem heap_wellFormed_oneLive : WellFormed lowBuffer oneLive.mem ∧
    ∀ size, size ≤ 2 ^ 20 → ∃ r, malloc lowBuffer oneLive.mem size = some r :=
  heap_wellFormed oneLive_reachable

/-! ## Clients apart -/

/-- Where the live payloads lie. -/
structure Apart (B : Buffer) (st : State) : Prop where
  inside : ∀ p s, (p, s) ∈ st.live → B.addr ≤ p ∧ p + s ≤ B.addr + 2 ^ 20
  pairwise : st.live.Pairwise fun x y => x.1 + x.2 ≤ y.1 ∨ y.1 + y.2 ≤ x.1
  headers : ∀ p s, (p, s) ∈ st.live → ∀ b ∈ blocks B st.mem, p + s ≤ b.1 ∨ b.1 + 8 ≤ p
  lastPtr : ∀ p s, (p, s) ∈ st.live → B.addr + 4 ≤ p

theorem Served.apart (h : Served B st ts) : Apart B st := by
  have hbase : B.baseptr = B.addr + 8 := rfl
  have hfills := h.tidy.fills
  simp only [DEFAULT_MEM_SIZE, DSIZE] at hfills
  have hbounds : ∀ p s, (p, s) ∈ st.live → B.addr + 16 ≤ p ∧ p + s ≤ B.addr + 2 ^ 20 := fun p s hp => by
    obtain ⟨q, t, hq, rfl, hs⟩ := h.block p s hp
    have := placed_bounds (mem_usedAt.mp hq).1
    omega
  refine ⟨fun p s hp => ?_, ?_, fun p s hp b hb => ?_, fun p s hp => ?_⟩
  · have := hbounds p s hp
    omega
  · refine (List.pairwise_map.mp h.nodup).imp_of_mem fun {x y} hx hy hne => ?_
    obtain ⟨p, s⟩ := x
    obtain ⟨p', s'⟩ := y
    obtain ⟨q, t, hq, rfl, hs⟩ := h.block p s hx
    obtain ⟨r, u, hr, rfl, hs'⟩ := h.block p' s' hy
    have hd := placed_disjoint (mem_usedAt.mp hq).1 (mem_usedAt.mp hr).1
    dsimp only at hne ⊢
    omega
  · obtain ⟨q, t, hq, rfl, hs⟩ := h.block p s hp
    rw [blocks_eq h.tidy.toLaid] at hb
    have hb : (b.1, b.2) ∈ placed B.baseptr ts := hb
    have hsize := h.tidy.size_ge b.2 (mem_of_placed hb)
    have hd := placed_disjoint (mem_usedAt.mp hq).1 hb
    omega
  · have := hbounds p s hp
    omega

/-- Clients do not interfere: the payloads lie apart, and a call of `malloc` or
`free` leaves those alone that are live before and after it. -/
theorem clients_apart (h : Reachable B st) :
    Apart B st ∧ ∀ op, Allowed B st op → (∀ x v, op ≠ .write x v) →
      ∀ p s, (p, s) ∈ st.live → (p, s) ∈ (step B st op).live →
        ∀ x, p ≤ x → x < p + s → (step B st op).mem x = st.mem x := by
  obtain ⟨ts, hs⟩ := reachable_served h
  refine ⟨hs.apart, fun op ha hcall p s _ hp x h1 h2 => ?_⟩
  obtain ⟨ts', hs', hkept⟩ := step_served hs ha
  obtain ⟨q, t, hq, rfl, hfit⟩ := hs'.block p s hp
  exact hkept hcall q t hq x h1 (by omega)

theorem clients_apart_oneLive : Apart lowBuffer oneLive ∧
    ∀ op, Allowed lowBuffer oneLive op → (∀ x v, op ≠ .write x v) →
      ∀ p s, (p, s) ∈ oneLive.live → (p, s) ∈ (step lowBuffer oneLive op).live →
        ∀ x, p ≤ x → x < p + s → (step lowBuffer oneLive op).mem x = oneLive.mem x :=
  clients_apart oneLive_reachable

end ToyOS.Heap.Clients
