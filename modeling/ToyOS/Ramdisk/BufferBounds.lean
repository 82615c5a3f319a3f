import ToyOS.Ramdisk.ReadBuffer

/-! # How far a read goes into the buffer

`rd_read` stores into the buffer and copies out of it without a look at its
1048576 bytes. What it stores stays below the count it was given, and what it
copies reaches up to that count.
-/
namespace ToyOS.Ramdisk.BufferBounds
open ToyOS.Lib.Words ToyOS.Lib.CStrings ToyOS.Lib.Runs ToyOS.Ramdisk.Image
open ToyOS.Ramdisk.Components ToyOS.Ramdisk.Descriptors ToyOS.Ramdisk.Read ToyOS.Ramdisk.System
open ToyOS.Ramdisk.BlockOwnership ToyOS.Ramdisk.Opened ToyOS.Ramdisk.Fetching ToyOS.Ramdisk.ReadBuffer

variable {st : State} {fd n pid : Int} {f : FdPtr} {k : Fin 1024} {i : Nat}

/-- The bytes of `read_buffer`. -/
def bufferSize : Nat := 64 * 64 * 256

/-- The read stores into `read_buffer[i]`: some content of the buffer does not survive there. -/
def Stores (st : State) (fd n pid : Int) (i : Nat) : Prop :=
  ∃ buffer addr,
    (rdRead { st with readBuffer := buffer } fd addr n pid).1.readBuffer i ≠ buffer i

/-- The read copies `read_buffer[i]` out: some memory of the caller does not survive there. -/
def CopiesOut (st : State) (fd n pid : Int) (i : Nat) : Prop :=
  ∃ addr, (rdRead st fd addr n pid).2.2 i ≠ addr i

/-- The read is refused before it comes to the buffer. -/
def Refused (st : State) (fd n pid : Int) : Prop := ∀ f k, ¬ Readable st fd n pid f k

/-- What the buffer holds does not decide whether a read is refused. -/
theorem readable_buffer (buffer : Bytes) :
    Readable { st with readBuffer := buffer } fd n pid f k ↔ Readable st fd n pid f k :=
  ⟨readable_congr rfl rfl, readable_congr rfl rfl⟩

theorem exists_ne (v : UInt8) : ∃ w, v ≠ w := by
  by_cases h : v = 0
  · exact ⟨1, by rw [h]; decide⟩
  · exact ⟨0, h⟩

/-! ## Storing -/

/-- The first four bytes are cleared, and then one is stored for each that is fetched. -/
theorem stores_iff (h : Readable st fd n pid f k) :
    Stores st fd n pid i ↔ i < 4 ∨ i < (fetched st f k n).length := by
  have hbuf : ∀ buffer addr, (rdRead { st with readBuffer := buffer } fd addr n pid).1.readBuffer i =
      ((fetched st f k n)[i]?).getD (if i < 4 then 0 else buffer i) := fun buffer addr => by
    rw [((readable_buffer buffer).mpr h).read]
    exact (readerOf_fetched { st with readBuffer := buffer } f k n).buffer i
  unfold Stores
  simp only [hbuf]
  constructor
  · intro hs
    obtain ⟨buffer, -, hne⟩ := hs
    by_contra hout
    rw [not_or, not_lt, not_lt] at hout
    rw [List.getElem?_eq_none hout.2, Option.getD_none, if_neg (by omega)] at hne
    exact hne rfl
  · intro hin
    by_cases hl : i < (fetched st f k n).length
    · rw [List.getElem?_eq_getElem hl]
      obtain ⟨w, hw⟩ := exists_ne (fetched st f k n)[i]
      exact ⟨fun _ => w, fun _ => 0, hw⟩
    · have h4 : i < 4 := hin.resolve_right hl
      refine ⟨fun _ => 1, fun _ => 0, ?_⟩
      rw [List.getElem?_eq_none (by omega), Option.getD_none, if_pos h4]
      show (0 : UInt8) ≠ 1
      decide

/-- As many bytes as were asked for, or those of the direct blocks where that is none. -/
theorem length_fetched_le (st : State) (f : FdPtr) (k : Fin 1024) (n : Int) :
    (fetched st f k n).length ≤ max n.toNat 2048 := by
  unfold fetched
  by_cases hn : 0 < n
  · have hle : ((fetch st.discos k n (st.fileObject f).cursor).length : Int) ≤ n := length_fetch_le hn
    omega
  · rw [fetch_of_le_zero (by omega)]
    have hle : (fetchDirect st.discos k n (st.fileObject f).cursor).length ≤ 2048 :=
      length_fetchDirect_le
    omega

/-! ## Copying -/

theorem copiesOut_iff (h : Readable st fd n pid f k) : CopiesOut st fd n pid i ↔ (i : Int) < n := by
  unfold CopiesOut
  simp only [h.delivers]
  by_cases hi : (i : Int) < n
  · simp only [if_pos hi]
    obtain ⟨w, hw⟩ := exists_ne
      (((fetched st f k n)[i]?).getD (if i < 4 then 0 else st.readBuffer i))
    exact iff_of_true ⟨fun _ => w, hw⟩ hi
  · simp only [if_neg hi, ne_eq, not_true_eq_false, exists_false]
    exact iff_of_false id hi

theorem refused_idle (h : Refused st fd n pid) : ¬ Stores st fd n pid i ∧ ¬ CopiesOut st fd n pid i := by
  constructor
  · intro hs
    obtain ⟨buffer, addr, hne⟩ := hs
    rw [rdRead_refused fun f k hr => h f k ((readable_buffer buffer).mp hr)] at hne
    exact hne rfl
  · intro hc
    obtain ⟨addr, hne⟩ := hc
    rw [rdRead_refused h] at hne
    exact hne rfl

/-- In whatever state, a read stays inside the buffer exactly when it is refused
or asks for no more than the buffer holds. -/
theorem read_inside_iff (st : State) (fd n pid : Int) :
    (∀ i, Stores st fd n pid i ∨ CopiesOut st fd n pid i → i < bufferSize) ↔
      Refused st fd n pid ∨ n ≤ bufferSize := by
  have hsize : bufferSize = 1048576 := rfl
  by_cases hr : Refused st fd n pid
  · refine iff_of_true (fun i hi => ?_) (.inl hr)
    obtain ⟨hs, hc⟩ := refused_idle (i := i) hr
    exact absurd hi (not_or.mpr ⟨hs, hc⟩)
  · obtain ⟨f, k, h⟩ : ∃ f k, Readable st fd n pid f k := by
      unfold Refused at hr
      simpa only [not_forall, not_not] using hr
    rw [or_iff_right hr]
    constructor
    · intro hin
      by_contra hn
      have hlt := hin bufferSize (.inr ((copiesOut_iff h).mpr (not_le.mp hn)))
      exact Nat.lt_irrefl _ hlt
    · intro hn i hi
      rw [stores_iff h, copiesOut_iff h] at hi
      have hle := length_fetched_le st f k n
      omega

/-! ## A count that passes the check -/

/-- A byte is written to `/a` and `/a` removed, with the descriptor still open. -/
def removedFile : State :=
  [.open (render [nameA]) RW 5, .write 0 5 (bytesOf [65]) 1,
    .unlink (render [nameA]) ⟨[0, 0], [0, 0]⟩].foldl step oneFile

/-- The size is 0 and the cursor 1: every count is below their difference. -/
theorem removedFile_readable : Readable removedFile 0 1048577 5 ⟨0, 0⟩ 1 where
  found := by decide +kernel
  inode := by decide +kernel
  usable := by decide +kernel
  type := by decide +kernel
  room := by decide +kernel

theorem removedFile_outside : Reachable (fun _ _ => True) removedFile ∧
    ¬ ∀ i, Stores removedFile 0 1048577 5 i ∨ CopiesOut removedFile 0 1048577 5 i → i < bufferSize := by
  have hrun : Reach (fun _ _ => True) step (initFileSys (fun _ _ => 0) fun _ => 0) removedFile :=
    (Reach.step .start trivial).foldl _ fun _ _ _ => trivial
  refine ⟨⟨_, _, hrun⟩, fun h => ?_⟩
  have hcopy : CopiesOut removedFile 0 1048577 5 bufferSize :=
    (copiesOut_iff removedFile_readable).mpr (by decide)
  exact Nat.lt_irrefl _ (h bufferSize (.inr hcopy))

end ToyOS.Ramdisk.BufferBounds
