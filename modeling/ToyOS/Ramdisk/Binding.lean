import ToyOS.Ramdisk.BlockOwnership
import ToyOS.Ramdisk.Discipline
import ToyOS.Ramdisk.Records

/-! # Files that are open

`rd_unlink` does not look at the descriptor tables. As long as no call removes a
file that is open, or opens an inode that is free, an open descriptor keeps
pointing to the file it was opened for.
-/
namespace ToyOS.Ramdisk.Binding
open ToyOS.Lib.Loop ToyOS.Lib.Words ToyOS.Lib.CStrings ToyOS.Lib.Runs ToyOS.Ramdisk.Image
open ToyOS.Ramdisk.Places ToyOS.Ramdisk.Paths ToyOS.Ramdisk.Components ToyOS.Ramdisk.Namespace
open ToyOS.Ramdisk.Removing ToyOS.Ramdisk.Descriptors ToyOS.Ramdisk.System ToyOS.Ramdisk.Effects
open ToyOS.Ramdisk.BlockOwnership ToyOS.Ramdisk.Opened ToyOS.Ramdisk.Tables ToyOS.Ramdisk.Discipline
open ToyOS.Ramdisk.Records

variable {st st₁ st₂ : State} {op : Op} {f : FdPtr} {k : Fin 1024} {fs : FileSys} {path : Str}
variable {mem : Scratch}

/-- The file object in slot `f` is in use and points to inode `k`. -/
def Bound (st : State) (f : FdPtr) (k : Fin 1024) : Prop :=
  Open st f ∧ (st.fileObject f).inodePtr = some k

/-- What `rd_unlink` refuses: the root, a directory with entries, a path without
a parent. -/
def Refused (fs : FileSys) (path : Str) (mem : Scratch) (k : Nat) : Prop :=
  path = [slash] ∨ ((fs.inodes k).type = some .dir ∧ 0 < (fs.inodes k).size) ∨
    findIndex fs (splitPath path mem).1 = .missing

theorem unlink_refused (hk : findIndex fs path = .inode k) :
    rdUnlink fs path mem = some (fs, -1) ↔ Refused fs path mem k := by
  unfold rdUnlink Refused
  by_cases hroot : path = [slash]
  · rw [if_pos hroot]
    exact iff_of_true rfl (.inl hroot)
  · rw [if_neg hroot, hk]
    dsimp only
    by_cases hdir : (fs.inodes k).type = some .dir ∧ 0 < (fs.inodes k).size
    · rw [if_pos hdir]
      exact iff_of_true rfl (.inr (.inl hdir))
    · rw [if_neg hdir]
      cases hd : findIndex fs (splitPath path mem).1 with
      | missing => exact iff_of_true rfl (.inr (.inr rfl))
      | outside => simp [hroot, hdir]
      | inode d =>
        generalize removeFile fs k d (splitPath path mem).2 = fs'
        simp [hroot, hdir]

theorem step_discos_unlink {k d : Nat} (hfile : findIndex st.discos path = .inode k)
    (hr : ¬ Refused st.discos path mem k)
    (hfind : findIndex st.discos (splitPath path mem).1 = .inode d) :
    (step st (.unlink path mem)).discos = removeFile st.discos k d (splitPath path mem).2 := by
  have h : rdUnlink st.discos path mem = some (removeFile st.discos k d (splitPath path mem).2, 0) := by
    unfold rdUnlink
    rw [if_neg fun e => hr (.inl e), hfile]
    dsimp only
    rw [if_neg fun e => hr (.inr (.inl e)), hfind]
  simp only [step, call, onImage, h, Option.map_some, Option.elim_some]

/-- A call of `rd_unlink` that removes nothing. -/
theorem step_discos_refused (h : ∀ k d, findIndex st.discos path = .inode k →
    findIndex st.discos (splitPath path mem).1 = .inode d → Refused st.discos path mem k) :
    (step st (.unlink path mem)).discos = st.discos := by
  have he := step_effect st (.unlink path mem)
  generalize (step st (.unlink path mem)).discos = fs' at he ⊢
  cases he with
  | idle => rfl
  | unlink hu =>
    cases hu with
    | refused => rfl
    | @removed k d _ _ hroot hfile hdir hfind =>
      rcases h k d hfile hfind with hx | hx | hx
      · exact absurd hx hroot
      · exact absurd hx hdir
      · rw [hx] at hfind
        cases hfind

/-- The two ways a call of `rd_unlink` ends. -/
theorem unlink_cases (st : State) (path : Str) (mem : Scratch) :
    ((step st (.unlink path mem)).discos = st.discos ∧ ∀ k d, findIndex st.discos path = .inode k →
        findIndex st.discos (splitPath path mem).1 = .inode d → Refused st.discos path mem k) ∨
      ∃ k d, findIndex st.discos path = .inode k ∧
        findIndex st.discos (splitPath path mem).1 = .inode d ∧ ¬ Refused st.discos path mem k ∧
        (step st (.unlink path mem)).discos = removeFile st.discos k d (splitPath path mem).2 := by
  by_cases hgo : ∃ k d, findIndex st.discos path = .inode k ∧
      findIndex st.discos (splitPath path mem).1 = .inode d ∧ ¬ Refused st.discos path mem k
  · obtain ⟨k, d, hfile, hfind, hr⟩ := hgo
    exact .inr ⟨k, d, hfile, hfind, hr, step_discos_unlink hfile hr hfind⟩
  · have hall : ∀ k d, findIndex st.discos path = .inode k →
        findIndex st.discos (splitPath path mem).1 = .inode d → Refused st.discos path mem k :=
      fun k d h1 h2 => not_not.mp fun hr => hgo ⟨k, d, h1, h2, hr⟩
    exact .inl ⟨step_discos_refused hall, hall⟩

/-- The call removes no file that is open, and opens no inode that is free. -/
def KeepsOpen (st : State) : Op → Prop
  | .unlink path mem => ∀ f k, Bound st f k → findIndex st.discos path = .inode k →
      Refused st.discos path mem k
  | .open path _ _ => ∀ k, findIndex st.discos path = .inode k → (st.discos.inodes k).type ≠ none
  | _ => True

/-- Open descriptors point to inodes in use, and the root is no regular file. -/
structure InUse (st : State) : Prop where
  bound : ∀ f k, Bound st f k → (st.discos.inodes k).type ≠ none
  root : (st.discos.inodes 0).type ≠ some .reg

/-- The file of an open descriptor keeps its type. -/
theorem step_type (hu : InUse st) (hok : KeepsOpen st op) (hb : Bound st f k) :
    ((step st op).discos.inodes k).type = (st.discos.inodes k).type := by
  have he := step_recordEffect st op
  generalize (step st op).discos = fs' at he ⊢
  have hk := hu.bound f k hb
  show (record fs' k).type = _
  cases he with
  | same h => rw [h.1]; rfl
  | @created _ path type mode mem _ cur n _ _ hn hr =>
    have hne : (k : Nat) ≠ n := fun e => hk (e ▸ hn.free)
    rw [hr, createdRecord, if_neg hne]
    split <;> rfl
  | root h hr =>
    rw [hr]
    split
    · rename_i h0
      have h0 : k = 0 := Fin.ext h0
      subst h0
      cases ht : (st.discos.inodes 0).type with
      | none => exact absurd ht hk
      | some t =>
        cases t with
        | dir => exact ht.symm
        | reg => exact absurd ht hu.root
    · rfl
  | @removed path mem _ k' d hroot hfile hdir hfind hr =>
    have hne : (k : Nat) ≠ k' := by
      rintro rfl
      rcases hok f k hb hfile with h | h | h
      · exact hroot h
      · exact hdir h
      · rw [hfind] at h; cases h
    rw [hr, removedRecord, if_neg hne]
    split <;> rfl
  | chmod _ hr => rw [hr]; split <;> rfl
  | wrote _ hr => exact (hr k).1

theorem step_root (h : (st.discos.inodes 0).type ≠ some .reg) :
    ((step st op).discos.inodes 0).type ≠ some .reg := by
  have he := step_recordEffect st op
  generalize (step st op).discos = fs' at he ⊢
  show (record fs' 0).type ≠ some .reg
  cases he with
  | same hs => rwa [hs.1]
  | @created _ path type mode mem _ cur n _ _ hn hr =>
    have := hn.pos
    rw [hr, createdRecord, if_neg (by omega)]
    split <;> exact h
  | root _ hr => rw [hr, if_pos rfl]; simp
  | removed _ _ _ _ hr =>
    rw [hr, removedRecord]
    split
    · simp
    · split <;> exact h
  | chmod _ hr => rw [hr]; split <;> exact h
  | wrote _ hr => rw [record_type, (hr 0).1]; exact h

/-- A descriptor bound after a call was bound before, or the call opened it. -/
theorem bound_of_step (h : Bound (step st op) f k) :
    Bound st f k ∨ ∃ path fl pid, op = .open path fl pid ∧ Opens st path fl pid f k := by
  obtain ⟨ho, hi⟩ := h
  have he := step_slotEffect st op f
  unfold Open at ho
  generalize (step st op).fileObject f = o at he ho hi
  cases he with
  | idle => exact .inl ⟨ho, hi⟩
  | opened h =>
    obtain rfl := Option.some.inj hi
    exact .inr ⟨_, _, _, rfl, h⟩
  | wrote | sought | read => exact .inl ⟨ho, hi⟩
  | closed => cases hi

theorem step_inUse (hu : InUse st) (hok : KeepsOpen st op) : InUse (step st op) := by
  refine ⟨fun f k hb => ?_, step_root hu.root⟩
  rcases bound_of_step hb with hb | ⟨path, fl, pid, rfl, ho⟩
  · rw [step_type hu hok hb]
    exact hu.bound f k hb
  · have hfind : findIndex st.discos path = .inode k := by
      unfold findIndex
      rw [ho.resolves]
      exact if_pos k.isLt
    have he := step_effect st (.open path fl pid)
    generalize (step st (.open path fl pid)).discos = fs' at he ⊢
    cases he
    exact hok k hfind

theorem reachable_inUse (h : Reachable KeepsOpen st) : InUse st := by
  obtain ⟨behind, buffer, h⟩ := h
  refine h.invariant ⟨fun f k hb => ?_, ?_⟩ fun st op hok hu => step_inUse hu hok
  · cases hb.2
  · rw [initFileSys_discos]
    simp [makeRoot]

/-- The call closes the descriptor in slot `f`. -/
def Closes (st : State) (op : Op) (f : FdPtr) : Prop :=
  ∃ fd pid, op = .close fd pid ∧ findFileObject st fd pid = some f

/-- An open slot is not taken again, so only a close ends the binding. -/
theorem step_bound (hb : Bound st f k) (hno : ¬ Closes st op f) : Bound (step st op) f k := by
  obtain ⟨ho, hi⟩ := hb
  have he := step_slotEffect st op f
  unfold Bound Open
  generalize (step st op).fileObject f = o at he ⊢
  cases he with
  | idle => exact ⟨ho, hi⟩
  | opened h =>
    obtain ⟨-, -, hunused, -⟩ := firstIdx_eq_some.mp h.unused
    rw [beq_iff_eq, show (⟨f.table, f.slot⟩ : FdPtr) = f from rfl, ho] at hunused
    cases hunused
  | wrote | sought | read => exact ⟨ho, hi⟩
  | closed h => exact absurd ⟨_, _, rfl, h.found⟩ hno

/-- From the moment a descriptor is bound to a file until it is closed the file
stays allocated under its inode number, in every run that removes no open file
and opens no free inode; and `rd_unlink` of the file returns -1 without effect
exactly when it has a reason other than the file being open. -/
theorem open_file_stays (h : Reachable KeepsOpen st₁) (hb : Bound st₁ f k)
    (hrun : Reach (fun st op => KeepsOpen st op ∧ ¬ Closes st op f) step st₁ st₂) :
    Bound st₂ f k ∧ (st₂.discos.inodes k).type = (st₁.discos.inodes k).type ∧
      (st₂.discos.inodes k).type ≠ none ∧
      ∀ path mem, findIndex st₂.discos path = .inode k →
        (rdUnlink st₂.discos path mem = some (st₂.discos, -1) ↔ Refused st₂.discos path mem k) := by
  have hrun : InUse st₂ ∧ Bound st₂ f k ∧
      (st₂.discos.inodes k).type = (st₁.discos.inodes k).type := by
    refine hrun.invariant (I := fun st => InUse st ∧ Bound st f k ∧
      (st.discos.inodes k).type = (st₁.discos.inodes k).type) ⟨reachable_inUse h, hb, rfl⟩
      fun st op hok hi => ?_
    obtain ⟨hu, hb, ht⟩ := hi
    exact ⟨step_inUse hu hok.1, step_bound hb hok.2, (step_type hu hok.1 hb).trans ht⟩
  obtain ⟨hu, hb₂, ht⟩ := hrun
  exact ⟨hb₂, ht, hu.bound f k hb₂, fun path mem hk => unlink_refused hk⟩

/-! ## A file removed while it is open -/

/-- The file `/a`, created and opened. -/
def openedA : State := step oneFile (.open (render [nameA]) RW 5)

theorem openedA_bound : Bound openedA ⟨0, 0⟩ 1 := by
  unfold Bound Open
  decide +kernel

theorem openedA_reachable : Reachable KeepsOpen openedA := by
  refine ⟨_, _, Reach.step (a := Op.open (render [nameA]) RW 5) (.step .start trivial) fun k hk => ?_⟩
  have h1 : findIndex oneFile.discos (render [nameA]) = .inode 1 := by decide +kernel
  obtain rfl := Found.inode.inj (hk.symm.trans h1)
  decide +kernel

theorem open_file_stays_openedA :
    Bound openedA ⟨0, 0⟩ 1 ∧ (openedA.discos.inodes 1).type = (openedA.discos.inodes 1).type ∧
      (openedA.discos.inodes 1).type ≠ none ∧
      ∀ path mem, findIndex openedA.discos path = .inode 1 →
        (rdUnlink openedA.discos path mem = some (openedA.discos, -1) ↔
          Refused openedA.discos path mem 1) :=
  open_file_stays openedA_reachable openedA_bound .start

/-- The name `b`. -/
def nameB : Component := ⟨[98], by decide, by decide, by decide, by decide⟩

/-- `/a` removed while it is open, and `/b` created after. -/
def reused : State :=
  step (step openedA (.unlink (render [nameA]) ⟨[0, 0], [0, 0]⟩))
    (.create (render [nameB]) .reg RW ⟨[0, 0], [0, 0]⟩)

/-- `rd_unlink` of the open file returns 0, and the descriptor points to the
inode that `/b` gets. -/
theorem reused_rebinds : Reachable (fun _ _ => True) openedA ∧ Bound openedA ⟨0, 0⟩ 1 ∧
    findIndex openedA.discos (render [nameA]) = .inode 1 ∧
    (rdUnlink openedA.discos (render [nameA]) ⟨[0, 0], [0, 0]⟩).map (·.2) = some 0 ∧
    ((step openedA (.unlink (render [nameA]) ⟨[0, 0], [0, 0]⟩)).discos.inodes 1).type = none ∧
    Bound reused ⟨0, 0⟩ 1 ∧ findIndex reused.discos (render [nameB]) = .inode 1 := by
  refine ⟨⟨_, _, .step (.step .start trivial) trivial⟩, openedA_bound, ?_⟩
  unfold Bound Open
  decide +kernel

end ToyOS.Ramdisk.Binding
