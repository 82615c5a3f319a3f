import ToyOS.Ramdisk.Cursors

/-! # Giving descriptors back

`rd_open` takes directories and `rd_close` refuses them. So a descriptor can be
given back while its inode is no directory, and a slot taken by a directory is
lost. `track` keeps, beside the state, the descriptors opened and not yet passed
to `rd_close`.
-/
namespace ToyOS.Ramdisk.Reclaiming
open ToyOS.Lib.Loop ToyOS.Lib.Words ToyOS.Lib.CStrings ToyOS.Lib.Runs ToyOS.Ramdisk.Image
open ToyOS.Ramdisk.Paths ToyOS.Ramdisk.Components ToyOS.Ramdisk.Namespace ToyOS.Ramdisk.Creating
open ToyOS.Ramdisk.Descriptors ToyOS.Ramdisk.System ToyOS.Ramdisk.Effects
open ToyOS.Ramdisk.BlockOwnership ToyOS.Ramdisk.Opened ToyOS.Ramdisk.Tables
open ToyOS.Ramdisk.Discipline ToyOS.Ramdisk.Records ToyOS.Ramdisk.Binding ToyOS.Ramdisk.Blocks
open ToyOS.Ramdisk.Places
open ToyOS.Ramdisk.Supply ToyOS.Ramdisk.Cursors

variable {st : State} {op : Op} {i : Nat} {pid : Int} {path : Str} {fl : Nat} {k : Fin 1024}

/-! ## Slots handed out -/

/-- `rd_open` gets as far as looking for a slot. -/
def Granted (fs : FileSys) (path : Str) (fl : Nat) : Prop :=
  path ≠ [slash] ∧ ∃ k : Fin 1024, myFindInodeNumber fs path = .inode k ∧
    accessDenied fl (fs.inodes k).access = false

theorem unused_iff (h : Disciplined st) (f : FdPtr) :
    (st.fileObject f).usable = 0 ↔ ¬ Open st f := by
  unfold Open
  rcases h.slot f with hz | ⟨hu, -⟩
  · rw [hz]
    exact iff_of_true rfl (by decide)
  · rw [hu]
    exact iff_of_false (by decide) (by decide)

theorem rdOpen_opens {f : FdPtr} (ho : Opens st path fl pid f k) :
    rdOpen st path fl pid = some (st.setFileObject f (openedObject f k fl), (f.slot : Int)) := by
  have hlt := ho.slot_lt
  obtain ⟨t, j⟩ := f
  have hc : createFileObject st pid = some (st.setFileObject ⟨t, j⟩
      { st.fileObject ⟨t, j⟩ with pos := j, usable := 1 }, ⟨t, j⟩) := by
    unfold createFileObject
    rw [ho.table]
    dsimp only
    rw [ho.unused]
    rfl
  unfold rdOpen
  rw [if_neg ho.notRoot, ho.resolves]
  dsimp only
  rw [dif_pos k.isLt, ho.granted, if_neg (by decide), hc]
  dsimp only
  rw [setFileObject_twice, fileObject_set_self, fileObject_set_self]
  exact congrArg some (Prod.ext rfl (toI32_of_lt (n := j) (by dsimp only at hlt; omega)))

/-- The slot `rd_open` hands out is the least that is not open. -/
theorem hands_out (pid : Int) (h : Disciplined st) (hi : i < 1024) (hno : ¬ Open st ⟨0, i⟩)
    (hg : Granted st.discos path fl) :
    ∃ (j : Nat) (st' : State), rdOpen st path fl pid = some (st', (j : Int)) ∧ j ≤ i ∧ ¬ Open st ⟨0, j⟩ ∧
      ∀ l, l < j → Open st ⟨0, l⟩ := by
  obtain ⟨hroot, k, hfind, hacc⟩ := hg
  have hsome : ∃ j, firstIdx (fun i => (st.fileObject ⟨0, i⟩).usable == 0) 0 1024 = some j := by
    cases hf : firstIdx (fun i => (st.fileObject ⟨0, i⟩).usable == 0) 0 1024 with
    | some j => exact ⟨j, rfl⟩
    | none =>
      have := firstIdx_eq_none.mp hf i (Nat.zero_le _) (by omega)
      rw [beq_eq_false_iff_ne] at this
      exact absurd ((unused_iff h ⟨0, i⟩).mpr hno) this
  obtain ⟨j, hj⟩ := hsome
  obtain ⟨-, hlt, hu, hlow⟩ := firstIdx_eq_some.mp hj
  have hopen : ∀ l, l < j → Open st ⟨0, l⟩ := fun l hl => by
    have := hlow l (Nat.zero_le _) hl
    rw [beq_eq_false_iff_ne] at this
    exact not_not.mp fun h' => this ((unused_iff h ⟨0, l⟩).mpr h')
  have hji : j ≤ i := by
    by_contra hlt
    exact hno (hopen i (by omega))
  have ho : Opens st path fl pid ⟨0, j⟩ k := ⟨hroot, hfind, hacc, h.table pid, hj⟩
  exact ⟨j, _, rdOpen_opens ho, hji, (unused_iff h ⟨0, j⟩).mp (beq_iff_eq.mp hu), hopen⟩

/-- `rd_open` finds the table full exactly when every slot is open. -/
theorem full_iff (h : Disciplined st) (hg : Granted st.discos path fl) :
    (∃ st', rdOpen st path fl pid = some (st', -1)) ↔ ∀ i, i < 1024 → Open st ⟨0, i⟩ := by
  constructor
  · intro ⟨st', e⟩ i hi
    by_contra hno
    obtain ⟨j, st₁, e₁, -⟩ := hands_out pid h hi hno hg
    have := (Prod.mk.inj (Option.some.inj (e.symm.trans e₁))).2
    omega
  · intro hall
    obtain ⟨hroot, k, hfind, hacc⟩ := hg
    refine ⟨st, ?_⟩
    unfold rdOpen
    rw [if_neg hroot, hfind]
    dsimp only
    rw [dif_pos k.isLt, hacc, if_neg (by decide)]
    have hnone : createFileObject st pid = none := by
      unfold createFileObject
      rw [h.table]
      refine Option.map_eq_none_iff.mpr (firstIdx_eq_none.mpr fun i _ hi => ?_)
      rw [beq_eq_false_iff_ne]
      exact fun h0 => (unused_iff h ⟨0, i⟩).mp h0 (hall i (by omega))
    rw [hnone]

/-! ## Slots given back -/

/-- Descriptor `i` can be given back: whoever closes it gets 0, only slot `i`
changes, and the next `rd_open` gets slot `i` or, if one is not open, a lower one. -/
structure Reclaimable (st : State) (i : Nat) : Prop where
  closes : ∀ pid, (rdClose st i pid).2 = 0
  frees : ∀ pid, ¬ Open (rdClose st i pid).1 ⟨0, i⟩ ∧ OnlySlot st (rdClose st i pid).1 ⟨0, i⟩
  again : ∀ pid path fl pid', Granted st.discos path fl →
    ∃ (j : Nat) (st' : State), rdOpen (rdClose st i pid).1 path fl pid' = some (st', (j : Int)) ∧ j ≤ i ∧
      ((∀ l, l < i → Open st ⟨0, l⟩) → j = i)

/-- The inode behind slot `i` is no directory. -/
def NotDir (st : State) (i : Nat) : Prop :=
  ∀ k, Bound st ⟨0, i⟩ k → (st.discos.inodes k).type ≠ some .dir

theorem bound_of_open (h : Disciplined st) {f : FdPtr} (ho : Open st f) :
    ∃ k, Bound st f k := by
  rcases h.slot f with hz | ⟨-, -, hne⟩
  · unfold Open at ho
    rw [hz] at ho
    cases ho
  · obtain ⟨k, hk⟩ := Option.ne_none_iff_exists'.mp hne
    exact ⟨k, ho, hk⟩

theorem close_eq (h : Disciplined st) (hi : i < 1024) (ho : Open st ⟨0, i⟩)
    (hd : NotDir st i) (pid : Int) : rdClose st i pid = (st.setFileObject ⟨0, i⟩ .zero, 0) := by
  obtain ⟨k, hk⟩ := bound_of_open h ho
  have hu : Usable st i pid ⟨0, i⟩ k := ⟨h.find hi ho pid, hk.2, ho, hd k hk⟩
  unfold rdClose
  rw [usableFile_eq_some.mpr hu]

/-- A descriptor can be given back exactly while its inode is no directory. -/
theorem reclaimable_iff (h : Disciplined st) (hi : i < 1024) (ho : Open st ⟨0, i⟩) :
    Reclaimable st i ↔ NotDir st i := by
  constructor
  · intro hr k hk hdir
    have h0 := hr.closes 0
    rcases rdClose_cases st i 0 with e | ⟨f, k', hu, -⟩
    · rw [e] at h0
      cases h0
    · obtain rfl := Option.some.inj (hu.found.symm.trans (h.find hi ho 0))
      obtain rfl := Option.some.inj (hu.inode.symm.trans hk.2)
      exact hu.type hdir
  · intro hd
    have hfreed : ¬ Open (st.setFileObject ⟨0, i⟩ .zero) ⟨0, i⟩ := by
      unfold Open
      rw [fileObject_set_self]
      decide
    refine ⟨fun pid => ?_, fun pid => ?_, fun pid path fl pid' hg => ?_⟩
    · rw [close_eq h hi ho hd]
    · rw [close_eq h hi ho hd]
      exact ⟨hfreed, onlySlot_set st _ _⟩
    · rw [close_eq h hi ho hd]
      have h' : Disciplined (st.setFileObject ⟨0, i⟩ .zero) := h.set (.inl rfl)
      obtain ⟨j, st', e, hj, hno, -⟩ := hands_out pid' h' hi hfreed hg
      refine ⟨j, st', e, hj, fun hlow => ?_⟩
      by_contra hne
      have : Open (st.setFileObject ⟨0, i⟩ .zero) ⟨0, j⟩ := by
        unfold Open
        rw [fileObject_set_ne _ _ (by simp [hne])]
        exact hlow j (by omega)
      exact hno this

/-! ## Calls that lose a slot -/

/-- The call makes inode `n` a directory. -/
inductive MakesDir (st : State) : Op → Nat → Prop
  | create {path : Str} {mode : Nat} {mem : Scratch} {n : Nat} (h : Succeeds st.discos path mem)
      (hn : getFreeInodeNum st.discos = some n) : MakesDir st (.create path .dir mode mem) n
  | mkdir {path : Str} {mem : Scratch} {n : Nat} (hroot : path ≠ [slash])
      (h : Succeeds st.discos path mem) (hn : getFreeInodeNum st.discos = some n) :
      MakesDir st (.mkdir path mem) n
  | root {mem : Scratch} (h : st.discos.freeInodes = 1024) : MakesDir st (.mkdir [slash] mem) 0

/-- The call opens no directory, and makes no inode a directory that a
descriptor has open. -/
def SparesSlots (st : State) (op : Op) : Prop :=
  (∀ path fl pid f k, op = .open path fl pid → Opens st path fl pid f k →
    (st.discos.inodes k).type ≠ some .dir) ∧
  ∀ n, MakesDir st op n → ∀ i, i < 1024 → ∀ k : Fin 1024, Bound st ⟨0, i⟩ k → (k : Nat) ≠ n

section
variable {fs fs' : FileSys} {mem : Scratch} {type : FileType} {mode n : Nat} {r : Int}

/-- A new inode has the type asked for, the others keep theirs. -/
theorem create_type (hw : Word fs) (h : rdCreate fs path type mode mem = some (fs', r)) :
    SameRecords fs fs' ∨ (Succeeds fs path mem ∧ ∃ n, getFreeInodeNum fs = some n ∧
      ∀ j, (fs'.inodes j).type = if j = n then some type else (fs.inodes j).type) := by
  rcases create_cases hw h with hs | ⟨cur, n, hsucc, -, hn, -, hrec⟩
  · exact .inl hs
  · refine .inr ⟨hsucc, n, hn, fun j => ?_⟩
    refine (congrArg Record.type (congrFun hrec j)).trans ?_
    unfold createdRecord
    split
    · rfl
    · split <;> rfl

theorem created_type (hw : Word fs) (hsucc : Succeeds fs path mem) (hn : getFreeInodeNum fs = some n)
    (type : FileType) (mode : Nat) :
    ∃ fs', rdCreate fs path type mode mem = some (fs', 0) ∧ (fs'.inodes n).type = some type := by
  obtain ⟨fs', h⟩ := (create_succeeds_iff hw path type mode mem).mpr hsucc
  refine ⟨fs', h, ?_⟩
  rcases create_type hw h with hs | ⟨-, m, hm, ht⟩
  · -- a call that returns 0 has changed a record
    rcases CreateResult.records (rdCreate_result h) with ⟨-, h1⟩ | ⟨cur, m, -, hnew, -, hrec, -⟩
    · cases h1
    · have hfree := hnew.free
      rw [← record_type, ← congrFun hs.1 m, hrec, createdRecord, if_pos rfl] at hfree
      cases hfree
  · obtain rfl := Option.some.inj (hn.symm.trans hm)
    rw [ht, if_pos rfl]

end

theorem MakesDir.type (hw : Word st.discos) {n : Nat} (h : MakesDir st op n) :
    ((step st op).discos.inodes n).type = some .dir := by
  cases h with
  | create h hn =>
    obtain ⟨fs', hc, ht⟩ := created_type hw h hn .dir _
    rw [step_discos_create hc, ht]
  | mkdir hroot h hn =>
    obtain ⟨fs', hc, ht⟩ := created_type hw h hn .dir 1
    rw [step_discos_mkdir hroot hc, ht]
  | root h =>
    rw [step_discos_root h, makeRoot, setInode_inodes_self]

theorem created_or_same (hw : Word st.discos) {mode : Nat} {type : FileType} {mem : Scratch}
    {fs' : FileSys} {r : Int} {j : Nat} (h : rdCreate st.discos path type mode mem = some (fs', r))
    (hd : (fs'.inodes j).type = some .dir) :
    (st.discos.inodes j).type = some .dir ∨
      (type = .dir ∧ Succeeds st.discos path mem ∧ getFreeInodeNum st.discos = some j) := by
  rcases create_type hw h with hs | ⟨hsucc, n, hn, ht⟩
  · exact .inl ((congrArg Record.type (congrFun hs.1 j)).symm.trans hd)
  · rw [ht] at hd
    split at hd
    · rename_i hj
      subst hj
      exact .inr ⟨Option.some.inj hd, hsucc, hn⟩
    · exact .inl hd

theorem dir_of_effect {fs' : FileSys} {j : Nat} (he : RecordEffect st op fs')
    (hop : ∀ path type mode mem, ¬ Creates op path type mode mem)
    (hd : (fs'.inodes j).type = some .dir) : (st.discos.inodes j).type = some .dir := by
  rw [← record_type] at hd ⊢
  cases he with
  | same h => rwa [h.1] at hd
  | created hc => exact absurd hc (hop _ _ _ _)
  | root => exact absurd .mkdir (hop _ _ _ _)
  | removed _ _ _ _ hr =>
    rw [hr, removedRecord] at hd
    split at hd
    · cases hd
    · split at hd <;> exact hd
  | chmod _ hr => rw [hr] at hd; split at hd <;> exact hd
  | wrote _ hr => exact (hr j).1.symm.trans hd

/-- A directory was one before the call, or the call made it. -/
theorem dir_of_step (hw : Word st.discos) {j : Nat}
    (hd : ((step st op).discos.inodes j).type = some .dir) :
    (st.discos.inodes j).type = some .dir ∨ MakesDir st op j := by
  have hcreates : ∀ {path type mode mem}, Creates op path type mode mem →
      (st.discos.inodes j).type = some .dir ∨
        (op = .mkdir [slash] mem ∧ st.discos.freeInodes = 1024 ∧ j = 0) ∨
        (op ≠ .mkdir [slash] mem ∧ type = .dir ∧ Succeeds st.discos path mem ∧
          getFreeInodeNum st.discos = some j) := fun {path type mode mem} hop => by
    rcases creates_cases hw hop with ⟨hr, e | ⟨hf, e⟩⟩ | ⟨hr, ⟨-, e⟩ | ⟨fs', r, hc, e⟩⟩
    · exact .inl (e ▸ hd)
    · by_cases hj : j = 0
      · exact .inr (.inl ⟨hr, hf, hj⟩)
      · rw [e, makeRoot, setInode_inodes_ne _ _ hj] at hd
        exact .inl hd
    · exact .inl (e ▸ hd)
    · rcases created_or_same hw hc (e ▸ hd) with h | h
      · exact .inl h
      · exact .inr (.inr ⟨hr, h⟩)
  cases op with
  | create path type mode mem =>
    rcases hcreates .create with h | ⟨h, -⟩ | ⟨-, rfl, hsucc, hn⟩
    · exact .inl h
    · cases h
    · exact .inr (.create hsucc hn)
  | mkdir path mem =>
    rcases hcreates .mkdir with h | ⟨h, hf, rfl⟩ | ⟨hr, -, hsucc, hn⟩
    · exact .inl h
    · obtain ⟨rfl, -⟩ := Op.mkdir.inj h
      exact .inr (.root hf)
    · exact .inr (.mkdir (fun e => hr (by rw [e])) hsucc hn)
  | unlink | chmod | «open» | write | lseek | read | close =>
    exact .inl (dir_of_effect (step_recordEffect st _) (fun _ _ _ _ h => by cases h) hd)

/-! ## Runs -/

/-- No descriptor leads to a directory. -/
def NoDir (st : State) : Prop := ∀ i, i < 1024 → NotDir st i

theorem Opens.at_zero (h : Disciplined st) {f : FdPtr} (ho : Opens st path fl pid f k) :
    f = ⟨0, f.slot⟩ := by
  have ht : f.table = 0 := Option.some.inj (ho.table.symm.trans (h.table pid))
  rw [← ht]

theorem MakesDir.not_close {n : Nat} (h : MakesDir st op n) (f : FdPtr) : ¬ Closes st op f := by
  intro hc
  obtain ⟨fd, pid, rfl, -⟩ := hc
  cases h

/-- After a call no descriptor leads to a directory exactly when the call spares
the slots. -/
theorem step_noDir_iff (h : Disciplined st) (hw : Word st.discos) (hd : NoDir st) :
    NoDir (step st op) ↔ SparesSlots st op := by
  constructor
  · intro hafter
    refine ⟨fun path fl pid f k e ho hdir => ?_, fun n hm i hi k hb e => ?_⟩
    · subst e
      have hstep : step st (.open path fl pid) = st.setFileObject f (openedObject f k fl) := by
        simp only [step, call, rdOpen_opens ho, Option.elim_some]
      have hb : Bound (step st (.open path fl pid)) ⟨0, f.slot⟩ k := by
        rw [hstep, ← Opens.at_zero h ho]
        unfold Bound Open
        rw [fileObject_set_self]
        exact ⟨rfl, rfl⟩
      refine hafter f.slot ho.slot_lt k hb ?_
      rw [hstep]
      exact hdir
    · have hb' := step_bound hb (hm.not_close ⟨0, i⟩)
      refine hafter i hi k hb' ?_
      rw [e]
      exact hm.type hw
  · intro hs i hi k hb hdir
    rcases bound_of_step hb with hb | ⟨path, fl, pid, e, ho⟩
    · rcases dir_of_step hw hdir with hdir | hm
      · exact hd i hi k hb hdir
      · exact hs.2 k hm i hi k hb rfl
    · subst e
      have hsame : (step st (.open path fl pid)).discos = st.discos := by
        have he := step_effect st (.open path fl pid)
        generalize (step st (.open path fl pid)).discos = fs' at he
        cases he
        rfl
      rw [hsame] at hdir
      exact hs.1 path fl pid _ k rfl ho hdir

/-- The descriptors opened and not yet passed to `rd_close`, whatever that returned. -/
def holding (st : State) (held : Finset Nat) : Op → Finset Nat
  | .open path fl pid => (rdOpen st path fl pid).elim held fun x =>
    if 0 ≤ x.2 then insert x.2.toNat held else held
  | .close fd _ => if 0 ≤ fd then held.erase fd.toNat else held
  | _ => held

/-- A call, and what its caller holds after it. -/
def track (s : State × Finset Nat) (op : Op) : State × Finset Nat :=
  (step s.1 op, holding s.1 s.2 op)

structure Kept (s : State × Finset Nat) : Prop where
  disciplined : Disciplined s.1
  noDir : NoDir s.1
  held : ∀ i, i < 1024 → Open s.1 ⟨0, i⟩ → i ∈ s.2

theorem open_of_step {f : FdPtr} (ho : Open (step st op) f) :
    Open st f ∨ ∃ path fl pid k, op = .open path fl pid ∧ Opens st path fl pid f k := by
  have he := step_slotEffect st op f
  unfold Open at ho ⊢
  generalize (step st op).fileObject f = o at he ho
  cases he with
  | idle => exact .inl ho
  | opened h => exact .inr ⟨_, _, _, _, rfl, h⟩
  | wrote | sought | read => exact .inl ho
  | closed => cases ho

theorem track_held {held : Finset Nat} (hk : Kept (st, held)) (hi : i < 1024)
    (ho : Open (step st op) ⟨0, i⟩) : i ∈ holding st held op := by
  rcases open_of_step ho with ho' | ⟨path, fl, pid, k, rfl, hop⟩
  · have hmem : i ∈ held := hk.held i hi ho'
    cases op with
    | create | mkdir | unlink | chmod | write | lseek | read => exact hmem
    | «open» path fl pid =>
      dsimp only [holding]
      cases rdOpen st path fl pid with
      | none => exact hmem
      | some x =>
        rw [Option.elim_some]
        split
        · exact Finset.mem_insert_of_mem hmem
        · exact hmem
    | close fd pid =>
      dsimp only [holding]
      split
      · refine Finset.mem_erase.mpr ⟨fun e => ?_, hmem⟩
        -- the close would have released slot `i`
        have hfd : fd = (i : Int) := by omega
        subst hfd
        have hc := close_eq hk.disciplined hi ho' (hk.noDir i hi) pid
        dsimp only at hc
        rw [Open, step, call, hc, Option.elim_some, fileObject_set_self] at ho
        cases ho
      · exact hmem
  · dsimp only [holding]
    rw [rdOpen_opens hop]
    simp

section
variable {behind : Nat → Bytes} {buffer : Bytes} {s : State × Finset Nat}

theorem untracked (h : Reach (fun s op => SparesSlots s.1 op) track (initFileSys behind buffer, ∅) s) :
    Reachable SparesSlots s.1 :=
  ⟨behind, buffer, h.invariant (I := fun s => Reach SparesSlots step (initFileSys behind buffer) s.1)
    .start fun _ _ hok hr => .step hr hok⟩

theorem kept_of_run
    (h : Reach (fun s op => SparesSlots s.1 op) track (initFileSys behind buffer, ∅) s) : Kept s := by
  refine h.invariant_along ⟨?_, ?_, ?_⟩ fun s op hs hok hk => ⟨?_, ?_, ?_⟩
  · have hr : Reachable (fun _ _ => True) (initFileSys behind buffer) := ⟨behind, buffer, .start⟩
    exact reachable_disciplined hr
  · exact fun i hi k hb => by cases hb.2
  · exact fun i hi ho => by cases ho
  · exact step_disciplined hk.disciplined
  · exact (step_noDir_iff hk.disciplined (word_reachable (untracked hs)) hk.noDir).mpr hok
  · exact fun i hi ho => track_held hk hi ho

/-- In every run whose calls spare the slots, every descriptor can be given back
in every state, `rd_open` finds the table full only while 1024 descriptors are
held, and the next call leaves every descriptor so exactly when it spares the
slots too. -/
theorem descriptors_reclaimable
    (h : Reach (fun s op => SparesSlots s.1 op) track (initFileSys behind buffer, ∅) s) :
    (∀ i, i < 1024 → Open s.1 ⟨0, i⟩ → Reclaimable s.1 i) ∧
    (∀ path fl pid st', Granted s.1.discos path fl → rdOpen s.1 path fl pid = some (st', -1) →
      1024 ≤ s.2.card) ∧
    ∀ op, (∀ i, i < 1024 → Open (step s.1 op) ⟨0, i⟩ → Reclaimable (step s.1 op) i) ↔
      SparesSlots s.1 op := by
  have hk := kept_of_run h
  refine ⟨fun i hi ho => (reclaimable_iff hk.disciplined hi ho).mpr (hk.noDir i hi), ?_, fun op => ?_⟩
  · intro path fl pid st' hg e
    have hfull := (full_iff hk.disciplined hg).mp ⟨st', e⟩
    have hsub : Finset.range 1024 ⊆ s.2 := fun i hi =>
      hk.held i (Finset.mem_range.mp hi) (hfull i (Finset.mem_range.mp hi))
    have hcard := Finset.card_le_card hsub
    rwa [Finset.card_range] at hcard
  · rw [← step_noDir_iff hk.disciplined (word_reachable (untracked h)) hk.noDir]
    have hd : Disciplined (step s.1 op) := step_disciplined hk.disciplined
    constructor
    · intro hall i hi k hb
      exact (reclaimable_iff hd hi hb.1).mp (hall i hi hb.1) k hb
    · exact fun hno i hi ho => (reclaimable_iff hd hi ho).mpr (hno i hi)

end

/-- A file system with one regular file, `/a`. -/
theorem descriptors_reclaimable_oneFile :
    (∀ i, i < 1024 → Open oneFile ⟨0, i⟩ → Reclaimable oneFile i) ∧
    (∀ path fl pid st', Granted oneFile.discos path fl → rdOpen oneFile path fl pid = some (st', -1) →
      1024 ≤ (∅ : Finset Nat).card) ∧
    ∀ op, (∀ i, i < 1024 → Open (step oneFile op) ⟨0, i⟩ → Reclaimable (step oneFile op) i) ↔
      SparesSlots oneFile op :=
  descriptors_reclaimable (s := (oneFile, ∅)) (.step .start
    ⟨fun _ _ _ _ _ e _ => (by cases e), fun _ hm => by cases hm⟩)

/-! ## Directories opened and closed -/

/-- A fresh file system after `rd_mkdir("/a")`. -/
def oneDir : State := step (initFileSys (fun _ _ => 0) fun _ => 0) (.mkdir (render [nameA]) ⟨[0, 0], [0, 0]⟩)

/-- `/a` opened and closed `n` times, each time by the descriptor just opened. -/
def rounds : Nat → State
  | 0 => oneDir
  | n + 1 => step (step (rounds n) (.open (render [nameA]) RD 5)) (.close n 5)

/-- The first `n` slots are taken by inode 1, a directory. -/
structure Taken (n : Nat) (st : State) : Prop where
  disciplined : Disciplined st
  discos : st.discos = oneDir.discos
  taken : ∀ i, i < n → Open st ⟨0, i⟩
  free : ∀ i, n ≤ i → ¬ Open st ⟨0, i⟩

theorem oneDir_finds : myFindInodeNumber oneDir.discos (render [nameA]) = .inode 1 ∧
    accessDenied RD (oneDir.discos.inodes 1).access = false ∧
    (oneDir.discos.inodes 1).type = some .dir := by
  decide +kernel

theorem oneDir_granted : Granted oneDir.discos (render [nameA]) RD :=
  ⟨by decide, 1, oneDir_finds.1, oneDir_finds.2.1⟩

/-- The next slot is handed out and cannot be given back. -/
theorem Taken.next {n : Nat} (h : Taken n st) (hn : n < 1024) :
    ∃ st', rdOpen st (render [nameA]) RD 5 = some (st', (n : Int)) ∧ Taken (n + 1) st' ∧
      ∀ pid, rdClose st' n pid = (st', -1) := by
  have hg : Granted st.discos (render [nameA]) RD := h.discos ▸ oneDir_granted
  obtain ⟨j, st', e, hj, hno, -⟩ := hands_out 5 h.disciplined hn (h.free n le_rfl) hg
  have hjn : j = n := by
    by_contra hne
    exact hno (h.taken j (by omega))
  subst hjn
  rcases rdOpen_cases e with ⟨-, hr⟩ | ⟨f, k, ho, rfl, hr⟩
  · omega
  have hf : f = ⟨0, j⟩ := by
    rw [Opens.at_zero h.disciplined ho]
    exact congrArg _ (by omega)
  have hk : k = 1 := by
    have hfind := ho.resolves
    rw [h.discos, oneDir_finds.1] at hfind
    exact Fin.ext (Found.inode.inj hfind).symm
  subst hf hk
  have hstep : Disciplined (st.setFileObject ⟨0, j⟩ (openedObject ⟨0, j⟩ 1 RD)) :=
    h.disciplined.set (.inr ⟨rfl, rfl, by simp [openedObject]⟩)
  have hopen : Open (st.setFileObject ⟨0, j⟩ (openedObject ⟨0, j⟩ 1 RD)) ⟨0, j⟩ := by
    unfold Open
    rw [fileObject_set_self]
    rfl
  refine ⟨_, e, ⟨hstep, h.discos, fun i hi => ?_, fun i hi hi' => ?_⟩, fun pid => ?_⟩
  · by_cases hij : i = j
    · subst hij
      exact hopen
    · unfold Open
      rw [fileObject_set_ne _ _ (by simp [hij])]
      exact h.taken i (by omega)
  · unfold Open at hi'
    rw [fileObject_set_ne _ _ (by simp; omega)] at hi'
    exact h.free i (by omega) hi'
  · unfold rdClose
    rw [usableFile_eq_none fun f k hu => ?_]
    obtain rfl := Option.some.inj (hu.found.symm.trans (hstep.find hn hopen pid))
    have hinode := hu.inode
    rw [fileObject_set_self] at hinode
    obtain rfl := Option.some.inj hinode
    refine hu.type ?_
    show (st.discos.inodes 1).type = _
    rw [h.discos]
    exact oneDir_finds.2.2

theorem Taken.full (h : Taken 1024 st) :
    ∃ st', rdOpen st (render [nameA]) RD 5 = some (st', -1) :=
  (full_iff h.disciplined (h.discos ▸ oneDir_granted)).mpr h.taken

theorem rounds_taken {n : Nat} (hn : n ≤ 1024) : Taken n (rounds n) := by
  induction n with
  | zero =>
    have hr : Reachable (fun _ _ => True) oneDir := ⟨_, _, .step .start trivial⟩
    have hd : Disciplined oneDir := reachable_disciplined hr
    refine ⟨hd, rfl, fun i hi => absurd hi (Nat.not_lt_zero i), fun i _ ho => ?_⟩
    rcases open_of_step ho with h | ⟨_, _, _, _, e, -⟩
    · cases h
    · cases e
  | succ n ih =>
    obtain ⟨st', e, ht, hc⟩ := (ih (by omega)).next (by omega)
    have hopen : step (rounds n) (.open (render [nameA]) RD 5) = st' := by
      rw [step, call, e, Option.elim_some]
    have hclose : step st' (.close n 5) = st' := by
      rw [step, call, hc, Option.elim_some]
    rw [rounds, hopen, hclose]
    exact ht

/-- Each of 1024 times `rd_open` of the directory `/a` returns a descriptor and
every `rd_close` of it returns -1; the next `rd_open` finds the table full. -/
theorem directory_leaks : (∀ n, Reachable (fun _ _ => True) (rounds n)) ∧
    (∀ n, n < 1024 → ∃ st', rdOpen (rounds n) (render [nameA]) RD 5 = some (st', (n : Int)) ∧
      ∀ pid, rdClose st' n pid = (st', -1)) ∧
    ∃ st', rdOpen (rounds 1024) (render [nameA]) RD 5 = some (st', -1) := by
  refine ⟨fun n => ?_, fun n hn => ?_, (rounds_taken le_rfl).full⟩
  · refine ⟨fun _ _ => 0, fun _ => 0, ?_⟩
    induction n with
    | zero => exact .step .start trivial
    | succ n ih => exact .step (.step ih trivial) trivial
  · obtain ⟨st', e, -, hc⟩ := (rounds_taken (Nat.le_of_lt hn)).next hn
    exact ⟨st', e, hc⟩

end ToyOS.Ramdisk.Reclaiming
