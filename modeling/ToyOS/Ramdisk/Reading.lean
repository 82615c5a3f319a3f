import ToyOS.Ramdisk.Cursors
import ToyOS.Ramdisk.ReadBuffer

/-! # How many bytes a read returns

`rd_read` refuses a count beyond the end of the file. Below it counts the
non-zero bytes it comes to, from the cursor on in the direct blocks and then from
wherever the cursor has got to; a count of zero is only met where the first
block has none.
-/
namespace ToyOS.Ramdisk.Reading
open ToyOS.Lib.Words ToyOS.Lib.CStrings ToyOS.Lib.Runs ToyOS.Lib.Gather ToyOS.Ramdisk.Image
open ToyOS.Ramdisk.Components ToyOS.Ramdisk.Descriptors ToyOS.Ramdisk.Read ToyOS.Ramdisk.System
open ToyOS.Ramdisk.Effects ToyOS.Ramdisk.BlockOwnership ToyOS.Ramdisk.Opened ToyOS.Ramdisk.Tables
open ToyOS.Ramdisk.Fetching ToyOS.Ramdisk.ReadBuffer ToyOS.Ramdisk.Records

variable {fs : FileSys} {st : State} {fd pid : Int} {f : FdPtr} {k : Fin 1024} {c n : Nat} {addr : Bytes}

/-! ## The bytes ahead -/

/-- The non-zero bytes of the direct blocks, from cursor `c` on. -/
def directAhead (fs : FileSys) (k c : Nat) : Nat := (directChunks fs k c).flatten.length

/-- The non-zero bytes of the single level, if a cursor `c` lies in it. -/
def singleAhead (fs : FileSys) (k c : Nat) : Nat :=
  if 8 ≤ c / 256 ∧ c / 256 < 72 then (singleChunks fs k c).flatten.length else 0

def doubleAhead (fs : FileSys) (k c : Nat) : Nat :=
  if 72 ≤ c / 256 ∧ c / 256 < 4168 then (doubleChunks fs k c).flatten.length else 0

/-- The non-zero bytes a read comes to that nothing stops: each level is entered
where the cursor has got to. -/
def ahead (fs : FileSys) (k c : Nat) : Nat :=
  let c₁ := c + directAhead fs k c
  let c₂ := c₁ + singleAhead fs k c₁
  directAhead fs k c + singleAhead fs k c₁ + doubleAhead fs k c₂

theorem length_gather_lt {α : Type} {ms : List (List α)} {l : List α} {n : Nat} (h : l.length < n) :
    (gather n ms l).length = min n (l.length + ms.flatten.length) := by
  rw [gather_of_lt (by omega), upTo, if_pos (by omega), List.length_append, List.length_take]
  omega

/-- A level after which the count is not met has given all its bytes. -/
theorem length_level {c m : Nat} {ms : List (List UInt8)} {l : List UInt8} {lo hi : Nat}
    (hl : l.length = min n m) (hc : c + n < 2 ^ 32) :
    (if (l.length : Int) < n ∧ lo ≤ advance c l.length / 256 ∧ advance c l.length / 256 < hi then
      gather n ms l else l).length =
      min n (m + if lo ≤ (c + m) / 256 ∧ (c + m) / 256 < hi then ms.flatten.length else 0) := by
  rw [advance_eq (by omega)]
  by_cases hm : m < n
  · rw [show l.length = m by omega]
    by_cases hseg : lo ≤ (c + m) / 256 ∧ (c + m) / 256 < hi
    · rw [if_pos ⟨by omega, hseg⟩, if_pos hseg, length_gather_lt (by omega)]
      omega
    · rw [if_neg fun h => hseg h.2, if_neg hseg]
      omega
  · rw [if_neg (by omega)]
    omega

/-- A read of `n` bytes fetches `n` bytes, or all that are ahead. -/
theorem length_fetch (hn : 0 < n) (hc : c + n < 2 ^ 32) :
    (fetch fs k n c).length = min n (ahead fs k c) := by
  have h1 : (fetchDirect fs k n c).length = min n (directAhead fs k c) := by
    unfold fetchDirect directAhead
    rw [length_gather_lt (by simpa using hn), List.length_nil, Nat.zero_add]
  have h2 : (fetchSingle fs k n c (fetchDirect fs k n c)).length =
      min n (directAhead fs k c + singleAhead fs k (c + directAhead fs k c)) := by
    by_cases hd : directAhead fs k c < n
    · have hadv : advance c (fetchDirect fs k n c).length = c + directAhead fs k c := by
        rw [advance_eq (by omega), h1]
        omega
      unfold fetchSingle singleAhead
      dsimp only
      rw [length_level h1 hc, hadv]
    · unfold fetchSingle
      dsimp only
      rw [if_neg (by omega), h1]
      omega
  by_cases hs : directAhead fs k c + singleAhead fs k (c + directAhead fs k c) < n
  · have hadv : advance c (fetchSingle fs k n c (fetchDirect fs k n c)).length =
        c + (directAhead fs k c + singleAhead fs k (c + directAhead fs k c)) := by
      rw [advance_eq (by omega), h2]
      omega
    unfold fetch fetchDouble ahead doubleAhead
    dsimp only
    rw [length_level h2 hc, hadv, Nat.add_assoc c]
  · unfold fetch fetchDouble ahead
    dsimp only
    rw [if_neg (by omega), h2]
    omega

/-- A read of no bytes stops at the first block without non-zero bytes, or goes on
through all direct blocks. -/
theorem fetch_zero : (fetch fs k 0 c).length = 0 ↔ (directChunks fs k c).headD [] = [] := by
  rw [fetch_of_le_zero (le_refl 0), fetchDirect]
  cases directChunks fs k c with
  | nil => exact iff_of_true rfl rfl
  | cons m ms =>
    have hup : upTo (0 : Int) [] m = m := by
      rw [upTo, if_neg (by simp), List.nil_append]
    rw [gather, hup, List.headD_cons]
    by_cases hm : m = []
    · subst hm
      exact iff_of_true rfl rfl
    · have hpos : 0 < m.length := List.length_pos_iff.mpr hm
      rw [if_neg (by omega), gather_of_gt (by omega)]
      refine iff_of_false (fun h => ?_) hm
      rw [List.length_append] at h
      omega

/-! ## What the call returns -/

/-- The answer asked for: as many bytes as there are, the cursor behind them, and
the image as it was. -/
def ReadsRight (st : State) (fd : Int) (addr : Bytes) (n : Nat) (pid : Int) (f : FdPtr) (k : Fin 1024) :
    Prop :=
  let m := min n ((st.discos.inodes k).size - (st.fileObject f).cursor)
  (rdRead st fd addr n pid).2.1 = m ∧
    ((rdRead st fd addr n pid).1.fileObject f).cursor = (st.fileObject f).cursor + m ∧
    (rdRead st fd addr n pid).1.discos = st.discos

/-- The count does not go beyond the end of the file, and is met: by the non-zero
bytes ahead, or by none in the first block. -/
def Meets (fs : FileSys) (k c n : Nat) : Prop :=
  n ≤ (fs.inodes k).size - c ∧
    if n = 0 then (directChunks fs k c).headD [] = [] else n ≤ ahead fs k c

theorem size_lt_reachable {ok : State → Op → Prop} (h : Reachable ok st) (j : Nat) :
    (st.discos.inodes j).size < 2 ^ 32 := by
  obtain ⟨behind, buffer, h⟩ := h
  refine h.invariant (I := fun st => ∀ j, (st.discos.inodes j).size < 2 ^ 32) (fun j => ?_)
    (fun st op _ hi j => Cursors.step_sizes hi j) j
  rw [initFileSys_discos]
  by_cases hj : j = 0
  · rw [hj, makeRoot_inodes_zero]
    show 0 < 2 ^ 32
    decide
  · rw [makeRoot_inodes_ne hj]
    show 0 < 2 ^ 32
    decide

/-- Through a usable descriptor with its cursor inside the file, a read of up to the
buffer's size is right exactly when the count is met before the file ends. -/
theorem read_right_iff (h : Reachable (fun _ _ => True) st) (hu : Usable st fd pid f k)
    (hc : (st.fileObject f).cursor ≤ (st.discos.inodes k).size) (hn : n ≤ 1048576) (addr : Bytes) :
    ReadsRight st fd addr n pid f k ↔ Meets st.discos k (st.fileObject f).cursor n := by
  have hs := size_lt_reachable h k
  have hroom : toU32 n ≤ u32Sub (st.discos.inodes k).size (st.fileObject f).cursor ↔
      n ≤ (st.discos.inodes k).size - (st.fileObject f).cursor := by
    rw [u32Sub_of_le hs hc, toU32_natCast (by omega)]
  by_cases hle : n ≤ (st.discos.inodes k).size - (st.fileObject f).cursor
  · have hr : Readable st fd n pid f k := ⟨hu, hroom.mpr hle⟩
    have hlen : (fetched st f k n).length = n ↔
        if n = 0 then (directChunks st.discos k (st.fileObject f).cursor).headD [] = []
        else n ≤ ahead st.discos k (st.fileObject f).cursor := by
      unfold fetched
      by_cases h0 : n = 0
      · rw [if_pos h0, h0]
        exact fetch_zero
      · rw [if_neg h0, length_fetch (by omega) (by omega)]
        omega
    unfold Meets ReadsRight
    dsimp only
    rw [and_iff_right hle, ← hlen, min_eq_left hle, hr.returns]
    constructor
    · exact fun h => Int.ofNat.inj h.1
    · intro e
      refine ⟨by rw [e], ?_, rdRead_discos ..⟩
      rw [hr.read, fileObject_set_self]
      dsimp only
      rw [(readerOf_fetched st f k n).cursor, e, advance_eq (by omega)]
  · refine iff_of_false (fun h => ?_) fun h => hle h.1
    have hrefused : rdRead st fd addr n pid = (st, -1, addr) := rdRead_refused (fun f' k' hr => by
      obtain rfl := Option.some.inj (hu.found.symm.trans hr.found)
      obtain rfl := Option.some.inj (hu.inode.symm.trans hr.inode)
      exact hle (hroom.mp hr.room)) addr
    have h1 := h.1
    rw [hrefused] at h1
    dsimp only at h1
    omega

/-! ## Reading on to the end -/

/-- The bytes the writes of a run store are not zero. -/
def StoresNonzero : Op → Prop
  | .write _ _ data n => ∀ i : Nat, (i : Int) < n → data i ≠ 0
  | _ => True

/-- The file `/a` with five bytes, and the cursor back at its start. -/
def fiveBytes : State :=
  [.open (render [nameA]) RW 5, .write 0 5 (fun _ => 65) 5, .lseek 0 0 5].foldl step oneFile

theorem fiveBytes_reachable : Reachable (fun _ => StoresNonzero) fiveBytes := by
  have hone : Reach (fun _ => StoresNonzero) step (initFileSys (fun _ _ => 0) fun _ => 0) oneFile :=
    .step .start trivial
  refine ⟨_, _, hone.foldl _ fun _ op hop => ?_⟩
  simp only [List.mem_cons, List.not_mem_nil, or_false] at hop
  rcases hop with rfl | rfl | rfl
  · trivial
  · exact fun i _ => (by decide : (65 : UInt8) ≠ 0)
  · trivial

theorem fiveBytes_usable : Usable fiveBytes 0 5 ⟨0, 0⟩ 1 where
  found := by decide +kernel
  inode := by decide +kernel
  usable := by decide +kernel
  type := by decide +kernel

theorem fiveBytes_inside : (fiveBytes.fileObject ⟨0, 0⟩).cursor = 0 ∧
    (fiveBytes.discos.inodes (1 : Fin 1024)).size = 5 := by decide +kernel

theorem read_right_iff_fiveBytes : ReadsRight fiveBytes 0 (fun _ => 0) (3 : Nat) 5 ⟨0, 0⟩ 1 ↔
    Meets fiveBytes.discos 1 (fiveBytes.fileObject ⟨0, 0⟩).cursor 3 := by
  obtain ⟨behind, buffer, hr⟩ := fiveBytes_reachable
  refine read_right_iff ⟨behind, buffer, hr.mono fun _ _ _ => trivial⟩ fiveBytes_usable ?_
    (by omega) fun _ => 0
  rw [fiveBytes_inside.1]
  exact Nat.zero_le _

/-- A read of six of the five bytes returns -1 instead of 5. -/
theorem read_beyond_end : Reachable (fun _ => StoresNonzero) fiveBytes ∧
    Usable fiveBytes 0 5 ⟨0, 0⟩ 1 ∧ (fiveBytes.discos.inodes 1).type = some .reg ∧
    ¬ ReadsRight fiveBytes 0 (fun _ => 0) 6 5 ⟨0, 0⟩ 1 := by
  refine ⟨fiveBytes_reachable, fiveBytes_usable, by decide +kernel, fun h => ?_⟩
  have hret : (rdRead fiveBytes 0 (fun _ => 0) 6 5).2.1 = -1 := by decide +kernel
  have h1 := h.1
  rw [fiveBytes_inside.1, fiveBytes_inside.2] at h1
  exact absurd (hret.symm.trans h1) (by decide)

end ToyOS.Ramdisk.Reading
