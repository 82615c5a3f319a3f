import ToyOS.Lib.Gather
import ToyOS.Ramdisk.Read

/-! # What rd_read fetches

`fetch` is the list of bytes that the three stages of `rd_read` put into the
buffer: the non-zero bytes of the blocks they run through, up to the number
asked for. Each stage begins where the cursor has come to.
-/
namespace ToyOS.Ramdisk.Fetching
open ToyOS.Lib.Loop ToyOS.Lib.Words ToyOS.Lib.Gather
open ToyOS.Ramdisk.Image ToyOS.Ramdisk.Descriptors ToyOS.Ramdisk.Read

/-- The non-zero bytes from offset `a` on, `m` bytes long. -/
def nonzero (bs : Bytes) (a m : Nat) : List UInt8 := ((List.range' a m).map bs).filter (· ≠ 0)

/-- The bytes behind the block pointer `p` from offset `o` on. -/
def bytesAt (fs : FileSys) (o p : Nat) : List UInt8 :=
  if p = 0 then [] else nonzero (fs.dataBlocks (blockOf p)) o (256 - o)

/-- The chunks of the blocks in the slots `a`, …, `a + m - 1`. -/
def chunks (fs : FileSys) (o : Nat) (slot : Nat → PtrSlot) (a m : Nat) : List (List UInt8) :=
  (List.range' a m).map fun i => bytesAt fs o (fs.ptrAt (slot i))

def directChunks (fs : FileSys) (k c : Nat) : List (List UInt8) :=
  chunks fs (c % 256) (.pointers k) (c / 256) (8 - c / 256)

def singleChunks (fs : FileSys) (k c : Nat) : List (List UInt8) :=
  let p := fs.ptrAt (.singleIndirect k)
  if p = 0 then []
  else chunks fs (c % 256) (.indexBlock (blockOf p)) (c / 256 - 8) (64 - (c / 256 - 8))

/-- The chunks below `m` index blocks; every index block that is there divides
`seg` once more. -/
def indexChunks (fs : FileSys) (o b : Nat) : Nat → Nat → Nat → List (List UInt8)
  | _, 0, _ => []
  | i, m + 1, seg =>
    let p := fs.ptrAt (.indexBlock b i)
    if p = 0 then indexChunks fs o b (i + 1) m seg
    else chunks fs o (.indexBlock (blockOf p)) (seg / 64) (64 - seg / 64) ++
      indexChunks fs o b (i + 1) m (seg / 64)

def doubleChunks (fs : FileSys) (k c : Nat) : List (List UInt8) :=
  let p := fs.ptrAt (.doubleIndirect k)
  if p = 0 then [] else indexChunks fs (c % 256) (blockOf p) 0 64 (c / 256 - 8 - 64)

/-- The cursor `c` after `m` bytes, as an `unsigned int`. -/
def advance (c : Nat) : Nat → Nat
  | 0 => c
  | m + 1 => u32 (advance c m + 1)

theorem advance_lt {c : Nat} (hc : c < 2 ^ 32) (m : Nat) : advance c m < 2 ^ 32 := by
  cases m with
  | zero => exact hc
  | succ m => exact u32_lt _

theorem advance_eq {c m : Nat} (h : c + m < 2 ^ 32) : advance c m = c + m := by
  induction m with
  | zero => rfl
  | succ m ih => rw [advance, ih (by omega), u32_of_lt (by omega), Nat.add_assoc]

section
variable (fs : FileSys) (k : Nat) (n : Int) (c : Nat)

def fetchDirect : List UInt8 := gather n (directChunks fs k c) []

def fetchSingle (l : List UInt8) : List UInt8 :=
  let c := advance c l.length
  if (l.length : Int) < n ∧ 8 ≤ c / 256 ∧ c / 256 < 72 then gather n (singleChunks fs k c) l else l

def fetchDouble (l : List UInt8) : List UInt8 :=
  let c := advance c l.length
  if (l.length : Int) < n ∧ 72 ≤ c / 256 ∧ c / 256 < 4168 then gather n (doubleChunks fs k c) l
  else l

/-- What `rd_read` of `n` bytes fetches from inode `k`, from cursor `c` on. -/
def fetch : List UInt8 := fetchDouble fs k n c (fetchSingle fs k n c (fetchDirect fs k n c))

end

variable {fs : FileSys} {k : Nat} {n : Int} {B : Bytes} {c o : Nat} {l : List UInt8} {r : Reader}

/-! ## The reader -/

/-- The reader has put `l` into the buffer `B`, from cursor `c` on. -/
structure Fetched (B : Bytes) (c : Nat) (l : List UInt8) (r : Reader) : Prop where
  count : r.bytesRead = l.length
  cursor : r.cursor = advance c l.length
  buffer : ∀ i, r.buffer i = (l[i]?).getD (B i)

theorem fetched_start (B : Bytes) (c : Nat) : Fetched B c [] ⟨B, c, 0, 0⟩ :=
  ⟨rfl, rfl, fun _ => rfl⟩

theorem Fetched.seg (h : Fetched B c l r) (s : Nat) : Fetched B c l { r with seg := s } :=
  ⟨h.count, h.cursor, h.buffer⟩

/-- One byte. -/
theorem Fetched.put (h : Fetched B c l r) (v : UInt8) :
    Fetched B c (l ++ [v]) { r with
      buffer := Function.update r.buffer r.bytesRead v
      cursor := u32 (r.cursor + 1)
      bytesRead := r.bytesRead + 1 } := by
  refine ⟨?_, ?_, fun i => ?_⟩
  · simp [h.count]
  · simp [h.cursor, advance]
  · by_cases e : i = r.bytesRead
    · subst e
      simp [h.count]
    · refine (Function.update_of_ne e _ _).trans ((h.buffer i).trans ?_)
      rw [h.count] at e
      by_cases hlt : i < l.length
      · rw [List.getElem?_append_left hlt]
      · rw [List.getElem?_eq_none (by omega), List.getElem?_eq_none (by simp; omega)]

/-- The byte loop of one block, however it ends. -/
theorem Fetched.readBytes (h : Fetched B c l r) (fs : FileSys) (b a m : Nat) :
    Fetched B c (upTo n l (nonzero (fs.dataBlocks b) a m))
      (forFrom (readByte fs n b) a m r).state := by
  induction m generalizing a l r with
  | zero => exact upTo_nil.symm ▸ h
  | succ m ih =>
    rw [forFrom, readByte, nonzero, List.range'_succ, List.map_cons]
    by_cases hz : fs.dataBlocks b a = 0
    · rw [if_neg (by simpa using hz), List.filter_cons_of_neg (by simpa using hz)]
      exact ih h (a + 1)
    · rw [if_pos hz, List.filter_cons_of_pos (by simpa using hz), breakIfDone]
      have hput := h.put (fs.dataBlocks b a)
      split
      · rename_i hn
        dsimp only at hn
        rw [upTo_cons_met (by rw [← hn, h.count]; simp)]
        exact hput
      · rename_i hn
        dsimp only at hn
        rw [upTo_cons (fun e => hn (by rw [← e, h.count]; simp))]
        exact ih hput (a + 1)

/-- The test after a block, in terms of what has been fetched. -/
theorem Fetched.breakIfDone (h : Fetched B c l r) :
    breakIfDone n r = if (l.length : Int) = n then .ret r () else .next r := by
  unfold Read.breakIfDone
  rw [h.count]

theorem Fetched.readBlock (h : Fetched B c l r) (fs : FileSys) (slot : PtrSlot) :
    ∃ r', Fetched B c (upTo n l (bytesAt fs o (fs.ptrAt slot))) r' ∧ r'.seg = r.seg ∧
      readBlock fs n slot o r =
        if ((upTo n l (bytesAt fs o (fs.ptrAt slot))).length : Int) = n then .ret r' ()
        else .next r' := by
  unfold Read.readBlock
  dsimp only
  unfold bytesAt
  by_cases hp : fs.ptrAt slot = 0
  · rw [if_pos hp, if_pos hp, upTo_nil]
    exact ⟨r, h, rfl, h.breakIfDone⟩
  · rw [if_neg hp, if_neg hp]
    have hb := h.readBytes (n := n) fs (blockOf (fs.ptrAt slot)) o (256 - o)
    refine ⟨_, hb, ?_, hb.breakIfDone⟩
    -- the byte loop does not touch `seg`
    refine Flow.Ends.state (forFrom_ends (a := o) (s := r) (fun _ r' => r'.seg = r.seg) rfl
      fun j r' _ _ hs => ?_)
    unfold readByte Read.breakIfDone
    dsimp only
    split
    · split <;> exact hs
    · exact hs

/-- A loop over blocks. -/
theorem Fetched.readBlocks (h : Fetched B c l r) (fs : FileSys) (slot : Nat → PtrSlot) (a m : Nat) :
    Fetched B c (gather n (chunks fs o slot a m) l)
        (forFrom (fun i => Read.readBlock fs n (slot i) o) a m r).state ∧
      (forFrom (fun i => Read.readBlock fs n (slot i) o) a m r).state.seg = r.seg := by
  induction m generalizing a l r with
  | zero => exact ⟨h, rfl⟩
  | succ m ih =>
    obtain ⟨r', h', hseg, e⟩ := h.readBlock (n := n) (o := o) fs (slot a)
    rw [forFrom, chunks, List.range'_succ, List.map_cons, gather, e]
    split
    · exact ⟨h', hseg⟩
    · obtain ⟨h'', hseg'⟩ := ih h' (a + 1)
      exact ⟨h'', hseg'.trans hseg⟩

theorem Fetched.readDirect (h : Fetched B c [] r) (hc : r.cursor = c) :
    Fetched B c (fetchDirect fs k n c) (readDirect fs k n r) := by
  unfold Read.readDirect fetchDirect directChunks
  rw [hc]
  exact (h.readBlocks _ _ _ _).1

theorem Fetched.readSingle (h : Fetched B c l r) :
    Fetched B c (fetchSingle fs k n c l) (readSingle fs k n r) := by
  unfold Read.readSingle fetchSingle singleChunks
  rw [h.count, h.cursor]
  dsimp only
  split
  · split
    · exact h
    · exact (h.readBlocks _ _ _ _).1
  · exact h

/-- The loop over the index blocks of the double-indirect part. -/
theorem Fetched.readIndexes (h : Fetched B c l r) (hn : (l.length : Int) < n) (b i m : Nat) :
    Fetched B c (gather n (indexChunks fs o b i m r.seg) l)
      (forFrom (readIndex fs n b o) i m r).state := by
  induction m generalizing i l r with
  | zero => exact h
  | succ m ih =>
    rw [forFrom, indexChunks, readIndex]
    by_cases hp : fs.ptrAt (.indexBlock b i) = 0
    · dsimp only
      rw [if_pos hp, if_pos hp, h.breakIfDone, if_neg (by omega)]
      exact ih h hn (i + 1)
    · dsimp only
      rw [if_neg hp, if_neg hp, gather_append hn]
      obtain ⟨h', hseg⟩ := (h.seg (r.seg / 64)).readBlocks (n := n) (o := o) fs
        (.indexBlock (blockOf (fs.ptrAt (.indexBlock b i)))) (r.seg / 64) (64 - r.seg / 64)
      rw [h'.breakIfDone]
      split
      · exact h'
      · rename_i hne
        have := ih h' (lt_of_le_of_ne (length_gather_le hn) hne) (i + 1)
        rw [hseg] at this
        exact this

theorem Fetched.readDouble (h : Fetched B c l r) :
    Fetched B c (fetchDouble fs k n c l) (readDouble fs k n r) := by
  unfold Read.readDouble fetchDouble doubleChunks
  have hcount := h.count
  have hcursor := h.cursor
  obtain ⟨buffer, cursor, bytesRead, seg⟩ := r
  dsimp only at hcount hcursor ⊢
  rw [hcount, hcursor] at h ⊢
  split
  · rename_i hn
    split
    · exact h
    · exact (h.seg _).readIndexes hn.1 _ _ _
  · exact h

theorem readStages_fetched (B : Bytes) (c : Nat) :
    Fetched B c (fetch fs k n c) (readStages fs k n ⟨B, c, 0, 0⟩) :=
  (((fetched_start B c).readDirect rfl).readSingle).readDouble

/-! ## How much is fetched -/

theorem length_fetch_le (hn : 0 < n) : ((fetch fs k n c).length : Int) ≤ n := by
  have h1 : ((fetchDirect fs k n c).length : Int) ≤ n := length_gather_le (by simpa using hn)
  have h2 : ((fetchSingle fs k n c (fetchDirect fs k n c)).length : Int) ≤ n := by
    unfold fetchSingle
    dsimp only
    split
    · rename_i h; exact length_gather_le h.1
    · exact h1
  unfold fetch fetchDouble
  dsimp only
  split
  · rename_i h; exact length_gather_le h.1
  · exact h2

/-- A read of no or fewer bytes gets no further than the direct blocks. -/
theorem fetch_of_le_zero (hn : n ≤ 0) : fetch fs k n c = fetchDirect fs k n c := by
  unfold fetch fetchSingle fetchDouble
  dsimp only
  rw [if_neg (by omega), if_neg (by omega)]

theorem length_nonzero_le (bs : Bytes) (a m : Nat) : (nonzero bs a m).length ≤ m := by
  refine (List.length_filter_le _ _).trans ?_
  simp

theorem length_chunks_le (fs : FileSys) (o : Nat) (slot : Nat → PtrSlot) (a m : Nat) :
    (chunks fs o slot a m).flatten.length ≤ m * 256 := by
  induction m generalizing a with
  | zero => simp [chunks]
  | succ m ih =>
    have hb : (bytesAt fs o (fs.ptrAt (slot a))).length ≤ 256 := by
      unfold bytesAt
      split
      · simp
      · exact (length_nonzero_le _ _ _).trans (by omega)
    have := ih (a + 1)
    rw [chunks, List.range'_succ, List.map_cons, List.flatten_cons, List.length_append]
    rw [chunks] at this
    omega

theorem length_fetchDirect_le : (fetchDirect fs k n c).length ≤ 2048 := by
  have h1 := length_gather_le_flatten n (directChunks fs k c) []
  have h2 := length_chunks_le fs (c % 256) (.pointers k) (c / 256) (8 - c / 256)
  unfold fetchDirect
  unfold directChunks at *
  simp only [List.length_nil, Nat.zero_add] at h1
  omega

/-! ## What reaches the caller -/

theorem copyPages_apply (src : Bytes) (fuel : Nat) {left : Int} (hfuel : left ≤ 4096 * fuel)
    (o : Nat) (dst : Bytes) (i : Nat) :
    copyPages src fuel left o dst i = if o ≤ i ∧ i < o + left.toNat then src i else dst i := by
  induction fuel generalizing left o dst with
  | zero => rfl
  | succ fuel ih =>
    rw [copyPages]
    split
    · rename_i hlt
      rw [ih (by push_cast at hfuel; omega)]
      unfold copyToUser
      by_cases h : o + 4096 ≤ i ∧ i < o + 4096 + (left - 4096).toNat
      · rw [if_pos h, if_pos (by omega)]
      · rw [if_neg h]
        by_cases h' : o ≤ i ∧ i < o + 4096
        · rw [if_pos h', if_pos (by omega)]
        · rw [if_neg h', if_neg (by omega)]
    · rfl

end ToyOS.Ramdisk.Fetching
