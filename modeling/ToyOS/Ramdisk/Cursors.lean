import ToyOS.Ramdisk.Binding
import ToyOS.Ramdisk.Counting
import ToyOS.Ramdisk.Fetching

/-! # Cursors inside their files

Every open descriptor of a regular file stays inside the file, as long as no
seek works on an empty file, no read of zero bytes finds more than the file has
left, no size overflows and no new file gets an inode that is open.
-/
namespace ToyOS.Ramdisk.Cursors
open ToyOS.Lib.Loop ToyOS.Lib.Words ToyOS.Lib.CStrings ToyOS.Lib.Runs ToyOS.Lib.Gather
open ToyOS.Ramdisk.Image ToyOS.Ramdisk.Blocks ToyOS.Ramdisk.Places ToyOS.Ramdisk.Allocation ToyOS.Ramdisk.Paths
open ToyOS.Ramdisk.Components ToyOS.Ramdisk.Directories ToyOS.Ramdisk.Namespace ToyOS.Ramdisk.Creating
open ToyOS.Ramdisk.Descriptors ToyOS.Ramdisk.Write ToyOS.Ramdisk.Writing ToyOS.Ramdisk.Read
open ToyOS.Ramdisk.System ToyOS.Ramdisk.Effects ToyOS.Ramdisk.Opened ToyOS.Ramdisk.Tables
open ToyOS.Ramdisk.Discipline ToyOS.Ramdisk.Binding ToyOS.Ramdisk.BlockOwnership
open ToyOS.Ramdisk.Records ToyOS.Ramdisk.Supply ToyOS.Ramdisk.Fetching ToyOS.Ramdisk.Counting

variable {st : State} {op : Op} {f : FdPtr} {k : Fin 1024} {fs fs' : FileSys} {path : Str}
variable {mem : Scratch} {type : FileType} {mode n : Nat} {r off fd pid : Int}

/-! ## The calls that keep cursors inside -/

/-- A seek to `off` in a file of this size stores what it returns: it goes to a
position of the file, or the file is not empty and its last position is an `int`. -/
def Seeks (size : Nat) (off : Int) : Prop := off < size ∨ (0 < size ∧ size ≤ 2 ^ 31)

/-- The file a call of `rd_create` makes is not open with a cursor behind its end. -/
def NewClosed (st : State) (path : Str) (mem : Scratch) : Prop :=
  Succeeds st.discos path mem → ∀ f (k : Fin 1024), getFreeInodeNum st.discos = some ↑k →
    Bound st f k → (st.fileObject f).cursor ≤
      if findIndex st.discos (splitPath path mem).1 = .inode k then 16 else 0

/-- What a call must not do: remove a file, seek in an empty file, read zero
bytes where the direct blocks hold more than the file has left, make a size
overflow, or give the inode of an open descriptor to a new file. -/
def KeepsInside (st : State) : Op → Prop
  | .create path .reg _ mem => NewClosed st path mem
  | .unlink _ _ => False
  | .write fd pid data n => ∀ f k, Writable st fd pid f k → (st.discos.inodes k).type = some .reg →
      Fits st.discos k (st.fileObject f).cursor data n
  | .lseek fd off pid => IsInt off ∧ ∀ f k, Usable st fd pid f k →
      (st.discos.inodes k).type = some .reg → 0 ≤ off → Seeks (st.discos.inodes k).size off
  | .read fd _ n pid => IsInt n ∧ ∀ f k, Usable st fd pid f k →
      (st.discos.inodes k).type = some .reg → n = 0 →
      (directChunks st.discos k (st.fileObject f).cursor).flatten.length ≤
        (st.discos.inodes k).size - (st.fileObject f).cursor
  | _ => True

/-! ## The invariant -/

structure Inside (st : State) : Prop where
  word : ∀ j, (st.discos.inodes j).size < 2 ^ 32
  cursor : ∀ f k, Bound st f k → (st.discos.inodes k).type = some .reg →
    (st.fileObject f).cursor ≤ (st.discos.inodes k).size

theorem bound_congr {st' : State} (h : st'.pFdTable = st.pFdTable) : Bound st' f k ↔ Bound st f k := by
  unfold Bound Open State.fileObject
  rw [h]

theorem fileObject_congr {st' : State} (h : st'.pFdTable = st.pFdTable) (f : FdPtr) :
    st'.fileObject f = st.fileObject f := by
  unfold State.fileObject
  rw [h]

/-! ## Creating a file -/

theorem getFreeInodeNum_congr (h : SameRecords fs fs') : getFreeInodeNum fs' = getFreeInodeNum fs := by
  have htype : ∀ i, (fs'.inodes i).type = (fs.inodes i).type := fun i =>
    congrArg Record.type (congrFun h.1 i)
  unfold getFreeInodeNum
  simp only [h.2, htype]

/-- A search that comes to an entry has room in the size. -/
theorem size_of_found {e : EntryPtr} (hw : Word fs) {cur : Nat}
    (hg : getNextEntry fs cur = (fs', some e)) : (fs.inodes cur).size / 256 < 4168 := by
  have hs := search hw cur
  rw [hg] at hs
  dsimp only at hs
  by_contra hbig
  have hb : Slots.Blocked fs cur := .inr (.inr (not_lt.mp hbig))
  cases hs with
  | found ht | other ht => exact ht.not_blocked hb

/-- The records after `rd_create`. -/
theorem create_cases (hw : Word fs) (h : rdCreate fs path type mode mem = some (fs', r)) :
    SameRecords fs fs' ∨ ∃ cur n, Succeeds fs path mem ∧
      findIndex fs (splitPath path mem).1 = .inode cur ∧ getFreeInodeNum fs = some n ∧
      (fs.inodes cur).size / 256 < 4168 ∧ record fs' = createdRecord fs cur n type mode := by
  have hres := rdCreate_result h
  cases hres with
  | refused => exact .inl ⟨rfl, rfl⟩
  | @noEntry cur _ _ _ _ _ hg =>
    have hs := getNextEntry_records fs cur
    rw [hg] at hs
    exact .inl hs
  | @filled cur n fs₁ e _ _ hfind hg hn =>
    have hs := getNextEntry_records fs cur
    rw [hg] at hs
    exact .inr ⟨cur, n, (create_succeeds_iff hw path type mode mem).mp ⟨_, h⟩, hfind,
      (getFreeInodeNum_congr hs).symm.trans hn, size_of_found hw hg,
      (fillEntry_record ..).trans (createdRecord_congr hs)⟩

/-- A call that creates a file keeps the cursors inside. -/
theorem create_inside (hw : Word st.discos) (hi : Inside st) (hb : Bound st f k)
    (h : rdCreate st.discos path type mode mem = some (fs', r))
    (hr : (fs'.inodes k).type = some .reg) (hnew : type = .reg → NewClosed st path mem) :
    (st.fileObject f).cursor ≤ (fs'.inodes k).size := by
  rcases create_cases hw h with hs | ⟨cur, n, hsucc, hfind, hn, hroom, hrec⟩
  · have hrec := congrFun hs.1 k
    rw [show (fs'.inodes k).size = (st.discos.inodes k).size from congrArg Record.size hrec]
    exact hi.cursor f k hb ((congrArg Record.type hrec).symm.trans hr)
  · have hk := congrFun hrec k
    have htype : (fs'.inodes k).type = (createdRecord st.discos cur n type mode k).type :=
      congrArg Record.type hk
    have hsize : (fs'.inodes k).size = (createdRecord st.discos cur n type mode k).size :=
      congrArg Record.size hk
    rw [hr] at htype
    rw [hsize]
    unfold createdRecord at htype ⊢
    by_cases hkn : (k : Nat) = n
    · rw [if_pos hkn] at htype ⊢
      have hreg : type = .reg := (Option.some.inj htype).symm
      have hle := hnew hreg hsucc f k (by rw [hkn]; exact hn) hb
      have hiff : findIndex st.discos (splitPath path mem).1 = .inode k ↔ n = cur := by
        rw [hfind, hkn]
        exact ⟨fun e => (Found.inode.inj e).symm, fun e => e ▸ rfl⟩
      simpa only [hiff] using hle
    · rw [if_neg hkn] at htype ⊢
      by_cases hkc : (k : Nat) = cur
      · rw [if_pos hkc] at htype ⊢
        have hle := hi.cursor f k hb htype.symm
        subst hkc
        show _ ≤ u32 ((st.discos.inodes k).size + 16)
        rw [u32_of_lt (by omega)]
        omega
      · rw [if_neg hkc] at htype ⊢
        exact hi.cursor f k hb htype.symm

/-! ## One call -/

/-- The sizes are `unsigned int`s. -/
theorem sizes_kept (k : Nat) (data : Bytes) :
    Kept k data fun w => ∀ j, (w.fs.inodes j).size < 2 ^ 32 where
  ensure w slot fs' hw he j := by
    have hsize := congrArg Record.size (congrFun (ensureBlock_record he) j)
    exact (le_of_eq hsize).trans_lt (hw j)
  put w b i hw _ j := by
    by_cases hj : j = k
    · subst hj
      simp only [putByte, setInode_inodes_self]
      exact u32_lt _
    · simp only [putByte, setInode_inodes_ne _ _ hj, setBlock_inodes]
      exact hw j

theorem step_sizes (hi : ∀ j, (st.discos.inodes j).size < 2 ^ 32) (j : Nat) :
    ((step st op).discos.inodes j).size < 2 ^ 32 := by
  have he := step_effect st op
  have hrec := step_recordEffect st op
  generalize (step st op).discos = fs' at he hrec ⊢
  show (record fs' j).size < 2 ^ 32
  have hj := hi j
  cases hrec with
  | same h => rwa [h.1]
  | created _ _ _ hr =>
    rw [hr]
    unfold createdRecord
    split
    · dsimp only
      split <;> omega
    · split
      · exact u32_lt _
      · exact hj
  | root _ hr =>
    rw [hr]
    split <;> exact hj
  | removed _ _ _ _ hr =>
    rw [hr]
    unfold removedRecord
    split
    · show 0 < 2 ^ 32
      omega
    · split
      · exact u32Sub_lt _ _
      · exact hj
  | chmod _ hr =>
    rw [hr]
    split <;> exact hj
  | wrote =>
    cases he with
    | idle => exact hj
    | write => exact (sizes_kept _ _).writeStages (fun _ _ h => h) hi j

/-- A write moves the cursor of its descriptor inside the file, and leaves the
others inside. -/
theorem write_inside (hw : Word st.discos) (hd : Disciplined st) (hi : Inside st) {data : Bytes}
    {n : Int} (hok : KeepsInside st (.write fd pid data n))
    (hb : Bound (rdWrite st fd pid data n).1 f k)
    (ht : ((rdWrite st fd pid data n).1.discos.inodes k).type = some .reg) :
    ((rdWrite st fd pid data n).1.fileObject f).cursor ≤
      ((rdWrite st fd pid data n).1.discos.inodes k).size := by
  rcases rdWrite_cases st fd pid data n with e | ⟨f', k', hwr, e⟩
  · rw [e] at hb ht ⊢
    exact hi.cursor f k hb ht
  rw [e] at hb ht ⊢
  obtain ⟨w, hstages⟩ : ∃ w, (stagesOf st f' k' data n).state = w := ⟨_, rfl⟩
  have honly : OnlySize st.discos k' w.fs := hstages ▸ writeStages_onlySize _ _ _ _ _
  rw [hstages] at hb ht ⊢
  change (w.fs.inodes k).type = _ at ht
  change _ ≤ (w.fs.inodes k).size
  have hreg : (st.discos.inodes k).type = some .reg := (honly k).1.symm.trans ht
  -- the file that is written, if it is a regular one
  have hmoved : (st.discos.inodes k').type = some .reg → ∃ m,
      (w.fs.inodes k').size = (st.discos.inodes k').size + m ∧
        w.cursor = (st.fileObject f').cursor + m := fun hk' => by
    have hb' : Bound st f' k' := ⟨(hd.open_of_inode hwr.inode).1, hwr.inode⟩
    rw [← hstages]
    exact moved_of_fits hw (hi.word _) (hi.cursor f' k' hb' hk') (hok f' k' hwr hk')
  by_cases hf : f = f'
  · subst hf
    obtain ⟨ho, hk⟩ := hb
    unfold Open at ho
    rw [fileObject_set_self] at ho hk ⊢
    obtain rfl : k' = k := Option.some.inj (hwr.inode.symm.trans hk)
    obtain ⟨m, hsize, hcursor⟩ := hmoved hreg
    have hle := hi.cursor f k' ⟨ho, hwr.inode⟩ hreg
    rw [hsize]
    exact (le_of_eq hcursor).trans (Nat.add_le_add_right hle m)
  · have hobj := fileObject_set_ne { st with discos := w.fs }
      { st.fileObject f' with cursor := w.cursor } hf
    have hb' : Bound st f k := by
      unfold Bound Open at hb
      rwa [hobj] at hb
    have hle := hi.cursor f k hb' hreg
    rw [hobj]
    refine hle.trans ?_
    by_cases hk : k = k'
    · subst hk
      obtain ⟨m, hsize, -⟩ := hmoved hreg
      omega
    · exact le_of_eq ((honly k).2.2 fun e => hk (Fin.ext e)).symm

/-- The cursor after a read that has passed its check. -/
theorem read_inside {n : Int} (hn : IsInt n) (hs : (st.discos.inodes k).size < 2 ^ 32)
    (hc : (st.fileObject f).cursor ≤ (st.discos.inodes k).size)
    (hcheck : toU32 n ≤ u32Sub (st.discos.inodes k).size (st.fileObject f).cursor)
    (hzero : n = 0 → (directChunks st.discos k (st.fileObject f).cursor).flatten.length ≤
      (st.discos.inodes k).size - (st.fileObject f).cursor) :
    (readerOf st f k n).cursor ≤ (st.discos.inodes k).size := by
  have hlen : (fetch st.discos k n (st.fileObject f).cursor).length ≤
      (st.discos.inodes k).size - (st.fileObject f).cursor := by
    rw [u32Sub_of_le hs hc] at hcheck
    rcases lt_trichotomy n 0 with hneg | hzero' | hpos
    · -- no file is so long that a negative count passes the check with less than 2^31 bytes left
      have hbig : 2 ^ 31 ≤ toU32 n := by
        unfold IsInt at hn
        unfold toU32
        omega
      rw [fetch_of_le_zero (by omega)]
      have hle : (fetchDirect st.discos k n (st.fileObject f).cursor).length ≤ 2048 :=
        length_fetchDirect_le
      omega
    · subst hzero'
      have := length_gather_le_flatten 0 (directChunks st.discos k (st.fileObject f).cursor) []
      rw [fetch_of_le_zero (le_refl 0)]
      exact this.trans ((Nat.zero_add _).le.trans (hzero rfl))
    · have hle : ((fetch st.discos k n (st.fileObject f).cursor).length : Int) ≤ n :=
        length_fetch_le hpos
      have hcast : toU32 n = n := by
        unfold IsInt at hn
        unfold toU32
        omega
      omega
  unfold readerOf
  rw [(readStages_fetched _ _).cursor, advance_eq (by omega)]
  omega

theorem seek_inside (h0 : 0 ≤ off) (hoff : IsInt off) {size : Nat} (h : Seeks size off)
    (hs : size < 2 ^ 32) : seekTo size off ≤ size := by
  have hcast : (toU32 off : Int) = off := by
    unfold IsInt at hoff
    unfold toU32
    omega
  unfold Seeks at h
  unfold seekTo
  split
  · rw [u32Sub_of_le hs (by omega)]
    omega
  · omega

/-- A call that leaves the image alone keeps the cursors inside. -/
theorem slot_inside (hok : KeepsInside st op) (hi : Inside st)
    (hidle : ∀ fs', Effect st op fs' → fs' = st.discos)
    (hwrite : ∀ fd pid data n, op ≠ .write fd pid data n) (hb : Bound (step st op) f k)
    (ht : ((step st op).discos.inodes k).type = some .reg) :
    ((step st op).fileObject f).cursor ≤ ((step st op).discos.inodes k).size := by
  rw [hidle _ (step_effect st op)] at ht ⊢
  obtain ⟨ho, hk⟩ := hb
  unfold Open at ho
  have he := step_slotEffect st op f
  generalize (step st op).fileObject f = o at he ho hk ⊢
  cases he with
  | idle => exact hi.cursor f k ⟨ho, hk⟩ ht
  | opened => exact Nat.zero_le _
  | wrote => exact absurd rfl (hwrite _ _ _ _)
  | sought h h0 =>
    obtain rfl := Option.some.inj (h.inode.symm.trans hk)
    exact seek_inside h0 hok.1 (hok.2 f _ h ht h0) (hi.word _)
  | read h hn =>
    obtain rfl := Option.some.inj (h.inode.symm.trans hk)
    exact read_inside hok.1 (hi.word _) (hi.cursor f _ ⟨ho, h.inode⟩ ht) hn (hok.2 f _ h ht)
  | closed => cases hk

theorem step_inside (hw : Word st.discos) (hd : Disciplined st) (hok : KeepsInside st op)
    (hi : Inside st) : Inside (step st op) := by
  refine ⟨step_sizes hi.word, fun f k hb ht => ?_⟩
  -- a call that only changes the image
  have himage : ∀ {r : Option (FileSys × Int)}, call st op = onImage st r →
      (∀ fs' v, r = some (fs', v) → (fs'.inodes k).type = some .reg → Bound st f k →
        (st.fileObject f).cursor ≤ (fs'.inodes k).size) →
      ((step st op).fileObject f).cursor ≤ ((step st op).discos.inodes k).size := by
    intro r hc hr
    have htables : (step st op).pFdTable = st.pFdTable := by
      unfold step
      rw [hc]
      cases r <;> rfl
    rw [bound_congr htables] at hb
    rw [fileObject_congr htables]
    exact (step_onImage (P := fun fs' => (fs'.inodes k).type = some .reg →
      (st.fileObject f).cursor ≤ (fs'.inodes k).size) hc (hi.cursor f k hb)).mpr
      (fun fs' v e ht' => hr fs' v e ht' hb) ht
  cases op with
  | create path type mode mem =>
    refine himage rfl fun fs' v hc ht' hb' => create_inside hw hi hb' hc ht' fun e => ?_
    subst e
    exact hok
  | mkdir path mem =>
    refine himage rfl fun fs' v hc ht' hb' => ?_
    by_cases hp : path = [slash]
    · subst hp
      rcases rdMkdir_root hc with rfl | ⟨-, rfl⟩
      · exact hi.cursor f k hb' ht'
      · by_cases hk : (k : Nat) = 0
        · rw [hk, makeRoot_inodes_zero] at ht'
          cases ht'
        · rw [makeRoot_inodes_ne hk] at ht' ⊢
          exact hi.cursor f k hb' ht'
    · rw [rdMkdir_eq _ hp] at hc
      exact create_inside hw hi hb' hc ht' fun e => by cases e
  | unlink => exact hok.elim
  | chmod path mode =>
    refine himage rfl fun fs' v hc ht' hb' => ?_
    obtain ⟨a, e⟩ := rdChmod_inodes hc k
    rw [e] at ht' ⊢
    exact hi.cursor f k hb' ht'
  | write fd pid data n => exact write_inside hw hd hi hok hb ht
  | «open» | lseek | read | close =>
    exact slot_inside hok hi (fun fs' h => by cases h; rfl) (fun _ _ _ _ => nofun) hb ht

theorem reachable_inside (h : Reachable KeepsInside st) : Inside st := by
  obtain ⟨behind, buffer, h⟩ := h
  refine h.invariant_along ⟨fun j => ?_, fun f k hb => ?_⟩ fun st op hst hok hi =>
    step_inside (word_reachable ⟨behind, buffer, hst⟩) (reachable_disciplined ⟨behind, buffer, hst⟩)
      hok hi
  · rw [initFileSys_discos]
    by_cases hj : j = 0
    · rw [hj, makeRoot_inodes_zero]
      exact Nat.two_pow_pos 32
    · rw [makeRoot_inodes_ne hj]
      exact Nat.two_pow_pos 32
  · cases hb.2

/-- In every run whose calls all meet the condition, every open descriptor of a
regular file has its cursor inside the file, and every seek on one that meets
the condition too returns the position it stored. -/
theorem cursor_inside (h : Reachable KeepsInside st) :
    (∀ f k, Bound st f k → (st.discos.inodes k).type = some .reg →
      (st.fileObject f).cursor ≤ (st.discos.inodes k).size) ∧
    ∀ fd off pid f k, KeepsInside st (.lseek fd off pid) → Usable st fd pid f k →
      (st.discos.inodes k).type = some .reg → 0 ≤ off →
      0 ≤ (rdLseek st fd off pid).2 ∧
        (rdLseek st fd off pid).2 = ((rdLseek st fd off pid).1.fileObject f).cursor := by
  have hi := reachable_inside h
  refine ⟨hi.cursor, fun fd off pid f k hok hu ht h0 => ?_⟩
  have hseek := hok.2 f k hu ht h0
  have hs := hi.word k
  have hoff : (toU32 off : Int) = off := by
    have hint := hok.1
    unfold IsInt at hint
    unfold toU32
    omega
  unfold rdLseek
  rw [usableFile_eq_some.mpr hu]
  dsimp only
  rw [if_neg (not_lt.mpr h0)]
  unfold Seeks at hseek
  split
  · rename_i hle
    dsimp only
    rw [fileObject_set_self, u32Sub_of_le hs (by omega), toI32_of_lt (by omega)]
    exact ⟨Int.natCast_nonneg _, rfl⟩
  · dsimp only
    rw [fileObject_set_self]
    exact ⟨h0, hoff.symm⟩

/-- `/a`, open and empty. -/
theorem cursor_inside_openedA :
    (∀ f k, Bound openedA f k → (openedA.discos.inodes k).type = some .reg →
      (openedA.fileObject f).cursor ≤ (openedA.discos.inodes k).size) ∧
    ∀ fd off pid f k, KeepsInside openedA (.lseek fd off pid) → Usable openedA fd pid f k →
      (openedA.discos.inodes k).type = some .reg → 0 ≤ off →
      0 ≤ (rdLseek openedA fd off pid).2 ∧
        (rdLseek openedA fd off pid).2 = ((rdLseek openedA fd off pid).1.fileObject f).cursor := by
  refine cursor_inside ⟨_, _, Reach.step (a := Op.open (render [nameA]) RW 5)
    (Reach.step (a := Op.create (render [nameA]) .reg RW ⟨[0, 0], [0, 0]⟩) .start ?_) trivial⟩
  exact fun _ f k _ hb => by cases hb.2

/-- A seek to 0 in the empty file `/a` moves the cursor to 2^32 - 1 and returns -1. -/
theorem openedA_seek : Reachable (fun _ op => ∀ path mem, op ≠ .unlink path mem)
      (step openedA (.lseek 0 0 5)) ∧
    Bound (step openedA (.lseek 0 0 5)) ⟨0, 0⟩ 1 ∧
    ((step openedA (.lseek 0 0 5)).discos.inodes 1).type = some .reg ∧
    ((step openedA (.lseek 0 0 5)).discos.inodes 1).size = 0 ∧
    ((step openedA (.lseek 0 0 5)).fileObject ⟨0, 0⟩).cursor = 4294967295 ∧
    (rdLseek openedA 0 0 5).2 = -1 := by
  refine ⟨⟨_, _, .step (.step (.step .start ?_) ?_) ?_⟩, ?_⟩
  · exact fun _ _ => nofun
  · exact fun _ _ => nofun
  · exact fun _ _ => nofun
  · unfold Bound Open
    decide +kernel

end ToyOS.Ramdisk.Cursors
