import ToyOS.Ramdisk.Effects
import ToyOS.Ramdisk.Rules

/-! # What one call can do to the inode records

The type, access and size of an inode change in few ways, in any state at all:
the search for an entry and the freeing of blocks leave them alone.
-/
namespace ToyOS.Ramdisk.Records
open ToyOS.Lib.Loop ToyOS.Lib.Words ToyOS.Lib.CStrings
open ToyOS.Ramdisk.Image ToyOS.Ramdisk.Blocks ToyOS.Ramdisk.Places ToyOS.Ramdisk.Allocation
open ToyOS.Ramdisk.Paths ToyOS.Ramdisk.Directories ToyOS.Ramdisk.Namespace ToyOS.Ramdisk.Rules
open ToyOS.Ramdisk.Creating ToyOS.Ramdisk.Removing ToyOS.Ramdisk.Descriptors ToyOS.Ramdisk.Write
open ToyOS.Ramdisk.Writing ToyOS.Ramdisk.System ToyOS.Ramdisk.Effects

/-- An inode without its pointers. -/
structure Record where
  type : Option FileType
  access : Nat
  size : Nat

def record (fs : FileSys) (j : Nat) : Record :=
  ⟨(fs.inodes j).type, (fs.inodes j).access, (fs.inodes j).size⟩

variable {fs fs' : FileSys} {st : State} {op : Op} {k d cur n mode : Nat} {name path : Str}
variable {type : FileType} {mem : Scratch} {r : Int} {e : EntryPtr}

@[simp] theorem record_type (fs : FileSys) (j : Nat) : (record fs j).type = (fs.inodes j).type := rfl
@[simp] theorem record_access (fs : FileSys) (j : Nat) :
    (record fs j).access = (fs.inodes j).access := rfl
@[simp] theorem record_size (fs : FileSys) (j : Nat) : (record fs j).size = (fs.inodes j).size := rfl

/-- The records and the count of free inodes are those of `fs`. -/
def SameRecords (fs fs' : FileSys) : Prop := record fs' = record fs ∧ fs'.freeInodes = fs.freeInodes

theorem record_setPtr (fs : FileSys) (s : PtrSlot) (v : Nat) :
    record (fs.setPtr s v) = record fs := by
  funext j
  obtain ⟨ht, hs, ha⟩ := setPtr_record fs s v j
  simp only [record, ht, hs, ha]

theorem sameRecords_taking (fs : FileSys) : KeptByTaking (SameRecords fs) where
  take _ _ _ h ht := by
    obtain ⟨rfl, _⟩ := takeBlock_some ht
    exact h
  setPtr fs' s v h := ⟨(record_setPtr fs' s v).trans h.1, (setPtr_freeInodes fs' s v).trans h.2⟩

theorem sameRecords_clearing (fs : FileSys) : KeptByClearing (SameRecords fs) where
  setBlock _ _ _ h := h
  unlink fs' map s h := ⟨(record_setPtr { fs' with bitmap := map } s 0).trans h.1,
    (setPtr_freeInodes _ s 0).trans h.2⟩

theorem getNextEntry_records (fs : FileSys) (k : Nat) : SameRecords fs (getNextEntry fs k).1 :=
  (sameRecords_taking fs).getNextEntry ⟨rfl, rfl⟩ k

/-! ## Creating a file -/

theorem strcpyAt_inodes (fs : FileSys) (b a : Nat) (s : Str) :
    (fs.strcpyAt b a s).inodes = fs.inodes := by
  induction s generalizing fs a with
  | nil => rfl
  | cons c s ih => rw [FileSys.strcpyAt, ih]; rfl

theorem strcpyAt_freeInodes (fs : FileSys) (b a : Nat) (s : Str) :
    (fs.strcpyAt b a s).freeInodes = fs.freeInodes := by
  induction s generalizing fs a with
  | nil => rfl
  | cons c s ih => rw [FileSys.strcpyAt, ih]; rfl

/-- The records once file `n` has been entered into `cur`. -/
def createdRecord (fs : FileSys) (cur n : Nat) (type : FileType) (mode j : Nat) : Record :=
  if j = n then ⟨some type, mode, if n = cur then 16 else 0⟩
  else if j = cur then { record fs j with size := u32 ((fs.inodes j).size + 16) }
  else record fs j

theorem createdRecord_congr (h : SameRecords fs fs') :
    createdRecord fs' cur n type mode = createdRecord fs cur n type mode := by
  funext j
  have hj := congrFun h.1 j
  unfold createdRecord
  rw [hj, show (fs'.inodes j).size = (fs.inodes j).size from congrArg Record.size hj]

section
variable (h : record fs' = createdRecord fs cur n type mode)
include h

theorem created_new : (fs'.inodes n).type = some type ∧
    (fs'.inodes n).size = if n = cur then 16 else 0 := by
  have hn := congrFun h n
  rw [createdRecord, if_pos rfl] at hn
  exact ⟨congrArg Record.type hn, congrArg Record.size hn⟩

theorem created_parent (hc : cur ≠ n) : (fs'.inodes cur).type = (fs.inodes cur).type ∧
    (fs'.inodes cur).size = u32 ((fs.inodes cur).size + 16) := by
  have hcur := congrFun h cur
  rw [createdRecord, if_neg hc, if_pos rfl] at hcur
  exact ⟨congrArg Record.type hcur, congrArg Record.size hcur⟩

theorem created_other {j : Nat} (hn : j ≠ n) (hc : j ≠ cur) :
    (fs'.inodes j).type = (fs.inodes j).type ∧ (fs'.inodes j).size = (fs.inodes j).size := by
  have hj := congrFun h j
  rw [createdRecord, if_neg hn, if_neg hc] at hj
  exact ⟨congrArg Record.type hj, congrArg Record.size hj⟩

end

theorem fillEntry_record (fs : FileSys) (cur : Nat) (e : EntryPtr) (n : Nat) (name : Str)
    (type : FileType) (mode : Nat) :
    record (fillEntry fs cur e n name type mode) = createdRecord fs cur n type mode := by
  have hold : ∀ j, j ≠ n → (allocateInode fs n).inodes j = fs.inodes j :=
    fun j hj => setInode_inodes_ne _ _ hj
  have hnew : (allocateInode fs n).inodes n = .zero := setInode_inodes_self _ _ _
  have hentry : ∀ b a s v, (((allocateInode fs n).strcpyAt b a s).setEntryNum b v n).inodes =
      (allocateInode fs n).inodes := fun b a s v => strcpyAt_inodes _ _ _ _
  funext j
  unfold fillEntry createdRecord record
  dsimp only
  by_cases hj : j = n
  · subst hj
    rw [if_pos rfl]
    by_cases hc : j = cur
    · subst hc
      rw [if_pos rfl, setInode_inodes_self, setInode_inodes_self, hentry, hnew]
      exact congrArg (Record.mk _ _) (u32_of_lt (n := 0 + 16) (by decide))
    · rw [if_neg hc, setInode_inodes_ne _ _ hc, setInode_inodes_self, hentry, hnew]
      rfl
  · rw [if_neg hj]
    by_cases hc : j = cur
    · subst hc
      rw [if_pos rfl, setInode_inodes_self, setInode_inodes_ne _ _ hj, hentry, hold j hj]
    · rw [if_neg hc, setInode_inodes_ne _ _ hc, setInode_inodes_ne _ _ hj, hentry, hold j hj]

theorem fillEntry_free (fs : FileSys) (cur : Nat) (e : EntryPtr) (n : Nat) (name : Str)
    (type : FileType) (mode : Nat) :
    (fillEntry fs cur e n name type mode).freeInodes = u32Sub fs.freeInodes 1 :=
  strcpyAt_freeInodes (allocateInode fs n) _ _ _

/-- The new inode is the first one without a type. -/
structure NewInode (fs : FileSys) (n : Nat) : Prop where
  counted : fs.freeInodes ≠ 0
  pos : 1 ≤ n
  lt : n < 1024
  free : (fs.inodes n).type = none

theorem newInode_of_get (h : getFreeInodeNum fs = some n) : NewInode fs n := by
  unfold getFreeInodeNum at h
  split at h
  · cases h
  · rename_i hf
    obtain ⟨h1, h2, h3, _⟩ := firstIdx_eq_some.mp h
    exact ⟨hf, h1, by omega, by simpa using h3⟩

theorem CreateResult.records (h : CreateResult fs path type mode mem fs' r) :
    (SameRecords fs fs' ∧ r = -1) ∨
      ∃ cur n, findIndex fs (splitPath path mem).1 = .inode cur ∧ NewInode fs n ∧ r = 0 ∧
        record fs' = createdRecord fs cur n type mode ∧ fs'.freeInodes = u32Sub fs.freeInodes 1 := by
  cases h with
  | refused => exact .inl ⟨⟨rfl, rfl⟩, rfl⟩
  | @noEntry cur _ _ _ _ _ hg =>
    have := getNextEntry_records fs cur
    rw [hg] at this
    exact .inl ⟨this, rfl⟩
  | @filled cur n fs₁ e _ _ hfind hg hn =>
    have hs := getNextEntry_records fs cur
    rw [hg] at hs
    have hrec : ∀ j, record fs₁ j = record fs j := fun j => congrFun hs.1 j
    have hnew := newInode_of_get hn
    refine .inr ⟨cur, n, hfind, ⟨?_, hnew.pos, hnew.lt, ?_⟩, rfl, ?_, ?_⟩
    · rw [← hs.2]; exact hnew.counted
    · exact (congrArg Record.type (hrec n)).symm.trans hnew.free
    · exact (fillEntry_record ..).trans (createdRecord_congr hs)
    · rw [fillEntry_free, hs.2]

/-! ## Removing a file -/

/-- The records once file `k` has been removed from `d`. -/
def removedRecord (fs : FileSys) (k d j : Nat) : Record :=
  if j = k then ⟨none, 0, 0⟩
  else if j = d then { record fs j with size := u32Sub (fs.inodes j).size 16 }
  else record fs j

section
variable (h : record fs' = removedRecord fs k d)
include h

theorem removed_self : (fs'.inodes k).type = none := by
  have hk := congrFun h k
  rw [removedRecord, if_pos rfl] at hk
  exact congrArg Record.type hk

theorem removed_parent (hd : d ≠ k) : (fs'.inodes d).type = (fs.inodes d).type ∧
    (fs'.inodes d).size = u32Sub (fs.inodes d).size 16 := by
  have hj := congrFun h d
  rw [removedRecord, if_neg hd, if_pos rfl] at hj
  exact ⟨congrArg Record.type hj, congrArg Record.size hj⟩

theorem removed_other {j : Nat} (hk : j ≠ k) (hd : j ≠ d) :
    (fs'.inodes j).type = (fs.inodes j).type ∧ (fs'.inodes j).size = (fs.inodes j).size := by
  have hj := congrFun h j
  rw [removedRecord, if_neg hk, if_neg hd] at hj
  exact ⟨congrArg Record.type hj, congrArg Record.size hj⟩

end

theorem removeFile_record (fs : FileSys) (k d : Nat) (filename : Str) :
    record (removeFile fs k d filename) = removedRecord fs k d ∧
      (removeFile fs k d filename).freeInodes = u32 (fs.freeInodes + 1) := by
  have h : SameRecords fs (clearEntryInCurrentDir (myClearInode fs k) d filename) :=
    (sameRecords_clearing fs).clearEntry
      (keptByFreeing (fun _ _ h => h) (show SameRecords fs fs from ⟨rfl, rfl⟩) k) d filename
  rw [removeFile_eq]
  generalize clearEntryInCurrentDir (myClearInode fs k) d filename = fs₁ at h ⊢
  have hrec : ∀ j, record fs₁ j = record fs j := fun j => congrFun h.1 j
  refine ⟨funext fun j => ?_, ?_⟩
  · unfold removedRecord
    by_cases hk : j = k
    · subst hk
      rw [if_pos rfl, record, dropInode_self]
      rfl
    · rw [if_neg hk]
      by_cases hd : j = d
      · subst hd
        rw [if_pos rfl, record, dropInode_parent _ hk]
        rw [← hrec j, show (fs.inodes j).size = (fs₁.inodes j).size from
          (congrArg Record.size (hrec j)).symm]
        rfl
      · rw [if_neg hd, record, dropInode_inodes_ne _ hk hd, ← hrec j]
        rfl
  · rw [← h.2]
    rfl

/-! ## The root and the access rights -/

theorem rdMkdir_root (h : rdMkdir fs [slash] mem = some (fs', r)) :
    fs' = fs ∨ (fs.freeInodes = 1024 ∧ fs' = makeRoot fs) := by
  unfold rdMkdir at h
  rw [if_pos rfl] at h
  split at h
  · rename_i hf
    exact .inr ⟨hf, (Prod.mk.inj (Option.some.inj h)).1.symm⟩
  · exact .inl (Prod.mk.inj (Option.some.inj h)).1.symm

theorem makeRoot_inodes_ne {j : Nat} (hj : j ≠ 0) : (makeRoot fs).inodes j = fs.inodes j :=
  setInode_inodes_ne _ _ hj

theorem makeRoot_inodes_zero : (makeRoot fs).inodes 0 = { fs.inodes 0 with type := some .dir } :=
  setInode_inodes_self _ _ _

theorem rdChmod_inodes (h : rdChmod fs path mode = some (fs', r)) :
    ∀ j, ∃ a, fs'.inodes j = { fs.inodes j with access := a } := by
  intro j
  unfold rdChmod at h
  split at h
  · obtain ⟨rfl, -⟩ := Prod.mk.inj (Option.some.inj h)
    exact ⟨_, rfl⟩
  · split at h
    · cases h
    · obtain ⟨rfl, -⟩ := Prod.mk.inj (Option.some.inj h)
      exact ⟨_, rfl⟩
    · rename_i k _
      obtain ⟨rfl, -⟩ := Prod.mk.inj (Option.some.inj h)
      by_cases hj : j = k
      · subst hj
        exact ⟨mode, setInode_inodes_self _ _ _⟩
      · exact ⟨_, setInode_inodes_ne _ _ hj⟩

/-! ## Writing -/

/-- `rd_write` leaves every record alone but the size of its inode. -/
def OnlySize (fs : FileSys) (k : Nat) (fs' : FileSys) : Prop :=
  ∀ j, (fs'.inodes j).type = (fs.inodes j).type ∧ (fs'.inodes j).access = (fs.inodes j).access ∧
    (j ≠ k → (fs'.inodes j).size = (fs.inodes j).size)

theorem ensureBlock_record {s : PtrSlot} (h : ensureBlock fs s = some fs') : record fs' = record fs :=
  ((sameRecords_taking fs).ensureBlock ⟨rfl, rfl⟩ h).1

theorem onlySize_kept (fs : FileSys) (k : Nat) (data : Bytes) :
    Kept k data fun w => OnlySize fs k w.fs where
  ensure w slot fs' h he j := by
    have e := congrFun (ensureBlock_record he) j
    obtain ⟨ht, ha, hs⟩ := h j
    exact ⟨(congrArg Record.type e).trans ht, (congrArg Record.access e).trans ha,
      fun hj => (congrArg Record.size e).trans (hs hj)⟩
  put w b i h _ j := by
    obtain ⟨ht, ha, hs⟩ := h j
    by_cases hj : j = k
    · subst hj
      simp only [putByte, setInode_inodes_self, setBlock_inodes]
      exact ⟨ht, ha, fun h => absurd rfl h⟩
    · simp only [putByte, setInode_inodes_ne _ _ hj, setBlock_inodes]
      exact ⟨ht, ha, hs⟩

theorem writeStages_onlySize (fs : FileSys) (k : Nat) (data : Bytes) (n : Int) (c : Nat) :
    OnlySize fs k (writeStages k data n ⟨fs, c, 0, 0⟩).state.fs :=
  (onlySize_kept fs k data).writeStages (fun _ _ h => h) fun _ => ⟨rfl, rfl, fun _ => rfl⟩

/-! ## The whole step -/

/-- The calls that create a file, with the arguments of `rd_create`. -/
inductive Creates : Op → Str → FileType → Nat → Scratch → Prop
  | create {path : Str} {type : FileType} {mode : Nat} {mem : Scratch} :
      Creates (.create path type mode mem) path type mode mem
  | mkdir {path : Str} {mem : Scratch} : Creates (.mkdir path mem) path .dir 1 mem

inductive RecordEffect (st : State) : Op → FileSys → Prop
  | same {op : Op} {fs' : FileSys} (h : SameRecords st.discos fs') : RecordEffect st op fs'
  | created {op : Op} {path : Str} {type : FileType} {mode : Nat} {mem : Scratch} {fs' : FileSys}
      {cur n : Nat} (hop : Creates op path type mode mem)
      (hfind : findIndex st.discos (splitPath path mem).1 = .inode cur) (hn : NewInode st.discos n)
      (hr : record fs' = createdRecord st.discos cur n type mode)
      (hf : fs'.freeInodes = u32Sub st.discos.freeInodes 1) : RecordEffect st op fs'
  | root {mem : Scratch} {fs' : FileSys} (h : st.discos.freeInodes = 1024)
      (hr : ∀ j, record fs' j =
        if j = 0 then { record st.discos j with type := some .dir } else record st.discos j) :
      RecordEffect st (.mkdir [slash] mem) fs'
  | removed {path : Str} {mem : Scratch} {fs' : FileSys} {k d : Nat} (hroot : path ≠ [slash])
      (hfile : findIndex st.discos path = .inode k)
      (hdir : ¬ ((st.discos.inodes k).type = some .dir ∧ 0 < (st.discos.inodes k).size))
      (hfind : findIndex st.discos (splitPath path mem).1 = .inode d)
      (hr : record fs' = removedRecord st.discos k d)
      (hf : fs'.freeInodes = u32 (st.discos.freeInodes + 1)) : RecordEffect st (.unlink path mem) fs'
  | chmod {path : Str} {mode : Nat} {fs' : FileSys} {k : Nat}
      (hfind : findIndex st.discos path = .inode k)
      (hr : ∀ j, record fs' j =
        if j = k then { record st.discos j with access := mode } else record st.discos j) :
      RecordEffect st (.chmod path mode) fs'
  | wrote {fd pid : Int} {data : Bytes} {n : Int} {fs' : FileSys} {k c : Nat}
      (h : Writes st fd pid k c) (hr : OnlySize st.discos k fs') :
      RecordEffect st (.write fd pid data n) fs'

theorem CreateResult.effect (hop : Creates op path type mode mem)
    (h : CreateResult st.discos path type mode mem fs' r) : RecordEffect st op fs' := by
  rcases CreateResult.records h with ⟨hs, -⟩ | ⟨cur, n, hfind, hn, -, hr, hf⟩
  · exact .same hs
  · exact .created hop hfind hn hr hf

theorem step_recordEffect (st : State) (op : Op) : RecordEffect st op (step st op).discos := by
  have he := step_effect st op
  generalize (step st op).discos = fs' at he ⊢
  cases he with
  | idle => exact .same ⟨rfl, rfl⟩
  | create h => exact CreateResult.effect .create h
  | mkdir h => exact CreateResult.effect .mkdir h
  | root h =>
    refine .root h fun j => ?_
    split
    · rename_i hj
      subst hj
      rw [record, makeRoot, setInode_inodes_self]
      rfl
    · rename_i hj
      rw [record, makeRoot, setInode_inodes_ne _ _ hj]
      rfl
  | @unlink path mem fs' r h =>
    cases h with
    | refused => exact .same ⟨rfl, rfl⟩
    | @removed k d hk hd hroot hfile hdir hfind =>
      obtain ⟨hr, hf⟩ := removeFile_record st.discos k d (splitPath path mem).2
      exact .removed hroot hfile hdir hfind hr hf
  | chmod hk hfind =>
    refine .chmod hfind fun j => ?_
    split
    · rename_i hj
      subst hj
      rw [record, setInode_inodes_self]
      rfl
    · rename_i hj
      rw [record, setInode_inodes_ne _ _ hj]
      rfl
  | write hk hw => exact .wrote hw (writeStages_onlySize st.discos _ _ _ _)

end ToyOS.Ramdisk.Records
