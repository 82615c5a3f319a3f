import ToyOS.Ramdisk.ShortWrites

/-! # What the value of rd_write counts

The value that `rd_write` returns is the number of bytes it has stored only where
it met its count or where the file has outgrown the pointers. Everywhere else it
returns 0 after its loops, whatever has been stored; a zero byte in the buffer is
enough to get there.
-/
namespace ToyOS.Ramdisk.WriteCounts
open ToyOS.Lib.Words ToyOS.Lib.CStrings ToyOS.Lib.Runs ToyOS.Lib.Overlay ToyOS.Lib.Provision
open ToyOS.Ramdisk.Image ToyOS.Ramdisk.Places ToyOS.Ramdisk.Ownership ToyOS.Ramdisk.Descriptors
open ToyOS.Ramdisk.Components ToyOS.Ramdisk.Write ToyOS.Ramdisk.Files ToyOS.Ramdisk.System
open ToyOS.Ramdisk.Effects ToyOS.Ramdisk.BlockOwnership ToyOS.Ramdisk.Opened ToyOS.Ramdisk.Tables
open ToyOS.Ramdisk.LongNames ToyOS.Ramdisk.Route ToyOS.Ramdisk.ShortWrites
open ToyOS.Ramdisk.Supply (absent)

variable {st : State} {fd pid : Int} {f : FdPtr} {k : Fin 1024} {data : Bytes} {n t : Nat}

/-- Of the file, the first `t` bytes of the buffer have been stored, one behind the
other, and nothing else. -/
def StoredFirst (fs fs' : FileSys) (k : Nat) (data : Bytes) (t : Nat) : Prop :=
  ∃ loc : Nat → Nat, (∀ i j, i < j → j < t → loc i < loc j) ∧ (∀ i, i < t → loc i < 1067008) ∧
    ∀ pos, pos < 1067008 → byteAt fs' k pos = overlay loc data (byteAt fs k) t pos

/-- The file is no larger than it can be after the write, and there are blocks enough. -/
def Roomy (st : State) (f : FdPtr) (n : Nat) : Prop :=
  (st.fileObject f).cursor + n ≤ 1067008 ∧ 4234 ≤ st.discos.freeBlocks

/-- A value other than -1 counts the bytes stored, and they are all that were asked
for where there is room. -/
def Counts (st : State) (fd pid : Int) (f : FdPtr) (k : Fin 1024) (data : Bytes) (n : Nat) : Prop :=
  (rdWrite st fd pid data n).2 ≠ -1 → ∃ r : Nat, (rdWrite st fd pid data n).2 = r ∧ r ≤ n ∧
    StoredFirst st.discos (rdWrite st fd pid data n).1.discos k data r ∧
    ((rdWrite st fd pid data n).1.fileObject f).cursor = (st.fileObject f).cursor + r ∧
    (Roomy st f n → r = n)

/-- The bytes that all the blocks on the way take of the buffer. -/
def stores (st : State) (f : FdPtr) (k : Fin 1024) (data : Bytes) : Nat :=
  stored data (rooms (route st.discos k (st.fileObject f).cursor data))

/-- The size with which the call comes to the double level. -/
def lastSize (st : State) (f : FdPtr) (k : Fin 1024) (data : Bytes) : Nat :=
  sizeAtDouble (absent st.discos) k (st.discos.inodes k).size (st.fileObject f).cursor data

/-- The call is refused or runs out of blocks; or it meets a positive count; or no
byte is stored and none should be; or the file outgrows its pointers and there is
no room. -/
def CountsRight (st : State) (f : FdPtr) (k : Fin 1024) (data : Bytes) (n : Nat) : Prop :=
  (st.discos.inodes k).access = RD ∨ st.discos.freeBlocks < needs st f k data n ∨
    (0 < n ∧ n ≤ stores st f k data) ∨
    (stores st f k data = 0 ∧ (n = 0 ∨ ¬ Roomy st f n)) ∨
    (0 < n ∧ 1067008 ≤ lastSize st f k data ∧ ¬ Roomy st f n)

theorem met_iff (m : Nat) : Met data (n : Int) m ↔ 0 < n ∧ n ≤ stored data m := by
  unfold Met
  omega

theorem stores_of_enough (h : (progress st f k data n).ending = .enough) :
    0 < n ∧ n ≤ stores st f k data := by
  obtain ⟨hmet, hle⟩ := enough_of_ending h
  rw [Nat.zero_add] at hle
  exact (met_iff _).mp (hmet.mono hle)

theorem stores_of_through (h : (progress st f k data n).ending = .through) :
    stored data (progress st f k data n).room = stores st f k data ∧
      ¬ (0 < n ∧ n ≤ stores st f k data) := by
  have hroom : (progress st f k data n).room =
      rooms (route st.discos k (st.fileObject f).cursor data) :=
    (room_of_through h).trans (Nat.zero_add _)
  have hsame := congrArg (stored data) hroom
  refine ⟨hsame, fun hmet => not_enough_of_through (not_met_zero data n) h ((met_iff _).mpr ?_)⟩
  have : stored data (progress st f k data n).room = stores st f k data := hsame
  rwa [← this] at hmet

/-- With `t` bytes stored and value `v`, the value has to be `t`. -/
theorem counts_iff {w : Writer} {v : Int} {a : Nat}
    (hwrite : rdWrite st fd pid data n = ({ st with discos := w.fs }.setFileObject f
      { st.fileObject f with cursor := w.cursor }, v)) (hv : v ≠ -1)
    (hw : Stands k data st.discos (st.fileObject f).cursor a t w)
    (hlt : (st.fileObject f).cursor + t < 2 ^ 32) :
    Counts st fd pid f k data n ↔ v = t ∧ t ≤ n ∧ (Roomy st f n → t = n) := by
  have hcursor : w.cursor = (st.fileObject f).cursor + t := by
    rw [hw.moved.2, hw.written, u32_of_lt hlt]
  unfold Counts
  rw [hwrite, fileObject_set_self]
  constructor
  · intro h
    obtain ⟨r, hr, hle, -, hc, hroom⟩ := h hv
    have hrt : r = t := by
      dsimp only at hc
      omega
    rw [hrt] at hr hle hroom
    exact ⟨hr, hle, hroom⟩
  · intro h _
    obtain ⟨hr, hle, hroom⟩ := h
    exact ⟨t, hr, hle, hw.placed, hcursor, hroom⟩

/-- The value behind the loops is right where it is the number stored, and where none
should be. -/
theorem value_right_iff {v : Int} {P B : Prop} [Decidable B] (hv : v = if B then (t : Int) else 0)
    (hlt : ¬ (0 < n ∧ n ≤ t)) :
    (v = t ∧ t ≤ n ∧ (P → t = n)) ↔ (t = 0 ∧ (n = 0 ∨ ¬ P)) ∨ (0 < n ∧ B ∧ ¬ P) := by
  constructor
  · intro h
    obtain ⟨he, hle, hroom⟩ := h
    by_cases hn : n = 0
    · exact .inl ⟨by omega, .inl hn⟩
    · have hno : ¬ P := fun h => by
        have := hroom h
        omega
      by_cases hB : B
      · exact .inr ⟨by omega, hB, hno⟩
      · rw [if_neg hB] at hv
        exact .inl ⟨by omega, .inr hno⟩
  · intro h
    rcases h with ⟨h0, hno⟩ | ⟨hn, hB, hno⟩
    · have he : v = t := by
        rw [hv, h0]
        split <;> rfl
      refine ⟨he, by omega, fun hP => ?_⟩
      rcases hno with h | h
      · omega
      · exact absurd hP h
    · rw [if_pos hB] at hv
      exact ⟨hv, by omega, fun hP => absurd hP hno⟩

/-- In every run whose calls enter short names, a write through a descriptor that is
open for writing on a regular file counts right exactly under this condition. -/
theorem write_counts_iff (h : Reachable EntersShort st) (hfound : findFileObject st fd pid = some f)
    (hinode : (st.fileObject f).inodePtr = some k) (hstatus : (st.fileObject f).status ≠ RD)
    (htype : (st.discos.inodes k).type = some .reg)
    (hcursor : (st.fileObject f).cursor ≤ (st.discos.inodes k).size)
    (hsize : (st.discos.inodes k).size ≤ 1067008) (data : Bytes) (n : Nat) :
    Counts st fd pid f k data n ↔ CountsRight st f k data n := by
  by_cases ha : (st.discos.inodes k).access = RD
  · have hno : ∀ f' k', ¬ Writable st fd pid f' k' := fun f' k' hw => by
      obtain rfl := Option.some.inj (hfound.symm.trans hw.found)
      obtain rfl := Option.some.inj (hinode.symm.trans hw.inode)
      exact hw.access ha
    refine iff_of_true (fun hne => absurd ?_ hne) (.inl ha)
    rw [rdWrite_refused hno]
  · have hw : Writable st fd pid f k := ⟨hfound, hinode, by rw [htype]; simp, ha, hstatus⟩
    obtain ⟨w, v, hwrite, hmost, hout⟩ := write_outcome h hw data n
    unfold CountsRight
    cases hout with
    | meets he hmeets =>
      obtain ⟨hv, hst⟩ := hmeets
      have hwritten : w.written = n := hst.written
      refine iff_of_true ((counts_iff hwrite (by omega) hst ?_).mpr ⟨hv, Nat.le_refl n, fun _ => rfl⟩)
        (.inr (.inr (.inl (stores_of_enough he))))
      show _ + n < _
      omega
    | runsOut he hrun =>
      refine iff_of_true (fun hne => absurd ?_ hne) (.inr (.inl (short_iff_needs.mp he)))
      rw [hwrite]
      exact hrun.1
    | through he hv hst =>
      obtain ⟨hstores, hnot⟩ := stores_of_through he
      have hlong := short_iff_needs.not.mp (show (progress st f k data n).ending ≠ .short by simp [he])
      rw [hstores] at hv hst
      have hwritten := hst.written
      have hv' : v = if 1067008 ≤ lastSize st f k data then (stores st f k data : Int) else 0 := by
        rw [hv]
        refine if_congr ?_ rfl rfl
        unfold lastSize
        omega
      rw [counts_iff hwrite (by rw [hv']; split <;> omega) hst (by omega), or_iff_right ha,
        or_iff_right hlong, or_iff_right hnot]
      exact value_right_iff hv' hnot

theorem write_counts_iff_twoOpen :
    Counts twoOpen 0 5 ⟨0, 0⟩ 1 allA 3 ↔ CountsRight twoOpen ⟨0, 0⟩ 1 allA 3 := by
  have h := first_fresh
  refine write_counts_iff twoOpen_reachable h.found h.inode (by rw [h.status]; decide) h.type ?_ ?_ allA 3
  · rw [h.cursor]
    exact Nat.zero_le _
  · rw [h.size]
    exact Nat.zero_le _

/-! ## A zero byte in the buffer -/

/-- The letter A and zeros. -/
def cutOff : Bytes := fun i => if i = 0 then 65 else 0

theorem stored_cutOff (m : Nat) : stored cutOff m = min m 1 := by
  refine stored_of_zero (fun i hi => ?_) rfl m
  rw [cutOff, if_pos (by omega)]
  decide

/-- The size stays in the first block. -/
theorem size_cutOff (need : Place → Nat) (k c : Nat) :
    sizeAtSingle need k 0 c cutOff / 256 = 0 ∧ sizeAtDouble need k 0 c cutOff / 256 = 0 := by
  have hsmall : ∀ m, u32 (0 + stored cutOff m) / 256 = 0 := fun m => by
    rw [stored_cutOff]
    unfold u32
    omega
  exact ⟨hsmall _, hsmall _⟩

theorem route_cutOff : route twoOpen.discos (1 : Fin 1024) (twoOpen.fileObject ⟨0, 0⟩).cursor cutOff =
    directStops (fun _ => 1) 0 0 := by
  obtain ⟨hsingle, hdouble⟩ := size_cutOff (fun _ => 1) 0 0
  rw [route_fresh first_fresh, routeFrom, singleStops, doubleStops, hsingle, hdouble,
    if_neg (by omega), if_neg (by omega), List.append_nil, List.append_nil]

/-- One byte of two is stored, and the value is 0. -/
theorem stored_byte_not_counted : Reachable EntersShort twoOpen ∧ OpenFile twoOpen 0 5 ⟨0, 0⟩ 1 ∧
    (twoOpen.fileObject ⟨0, 0⟩).cursor ≤ (twoOpen.discos.inodes 1).size ∧
    (twoOpen.discos.inodes 1).size ≤ 1067008 ∧ ¬ Counts twoOpen 0 5 ⟨0, 0⟩ 1 cutOff 2 := by
  have hfresh := first_fresh
  have hcursor := hfresh.cursor
  have hsize : (twoOpen.discos.inodes 1).size = 0 := hfresh.size
  refine ⟨twoOpen_reachable, hfresh.toOpenFile, by omega, by omega, fun hcounts => ?_⟩
  have hstores : stores twoOpen ⟨0, 0⟩ 1 cutOff = 1 := by
    rw [stores, route_cutOff, stored_cutOff]
    decide +kernel
  obtain ⟨w, v, hwrite, -, hout⟩ :=
    write_outcome twoOpen_reachable (writable_of_open hfresh.toOpenFile) cutOff (2 : Nat)
  cases hout with
  | meets he => exact absurd (stores_of_enough he).2 (by omega)
  | runsOut he =>
    have hneeds : needs twoOpen ⟨0, 0⟩ 1 cutOff (2 : Nat) = 8 := by
      have hnever : ∀ m, Met cutOff (2 : Nat) m ↔ False := fun m => by
        rw [met_iff, stored_cutOff, iff_false]
        omega
      rw [needs, route_cutOff, needed_congr hnever]
      decide +kernel
    have hfree : twoOpen.discos.freeBlocks = 7930 := by decide +kernel
    have := short_iff_needs.mp he
    omega
  | through he hv hst =>
    rw [(stores_of_through he).1, hstores] at hv hst
    rw [hfresh.size, (size_cutOff _ _ _).2, if_neg (by omega)] at hv
    have h := ((counts_iff hwrite (by omega) hst (by omega)).mp hcounts).1
    omega

end ToyOS.Ramdisk.WriteCounts
