import Mathlib.Data.List.GetD
import ToyOS.Ramdisk.Read
import ToyOS.Ramdisk.Write

/-! # Calls through an open descriptor

`OpenFile` is a regular file with access RW opened RW: what `rd_lseek`,
`rd_write` and `rd_read` do with it, once their checks have passed.
-/
namespace ToyOS.Ramdisk.Opened
open ToyOS.Lib.Loop ToyOS.Lib.Words ToyOS.Lib.CStrings ToyOS.Ramdisk.Image ToyOS.Ramdisk.Paths
open ToyOS.Ramdisk.Descriptors ToyOS.Ramdisk.Write ToyOS.Ramdisk.Read

variable {st : State} {fd pid : Int} {f : FdPtr} {k : Fin 1024}

/-- `fd` leads to the file object `f`, and that to the regular file `k`. -/
structure OpenFile (st : State) (fd pid : Int) (f : FdPtr) (k : Fin 1024) : Prop where
  found : findFileObject st fd pid = some f
  inode : (st.fileObject f).inodePtr = some k
  usable : (st.fileObject f).usable = 1
  status : (st.fileObject f).status = RW
  type : (st.discos.inodes k).type = some .reg
  access : (st.discos.inodes k).access = RW

/-- A regular file just created with access RW and opened RW, never written. -/
structure FreshFile (st : State) (fd pid : Int) (f : FdPtr) (k : Fin 1024) : Prop
    extends OpenFile st fd pid f k where
  size : (st.discos.inodes k).size = 0
  pointers : ∀ i, i < 8 → (st.discos.inodes k).pointers i = 0
  singleIndirect : (st.discos.inodes k).singleIndirectPtrs = 0
  doubleIndirect : (st.discos.inodes k).doubleIndirectPtrs = 0
  cursor : (st.fileObject f).cursor = 0

/-- The caller's memory from the string `e` on. -/
def bytesOf (e : Str) : Bytes := fun i => e.getD i 0

theorem bytesOf_ne_zero {e : Str} (h0 : 0 ∉ e) {i : Nat} (hi : i < e.length) : bytesOf e i ≠ 0 := by
  unfold bytesOf
  rw [List.getD_eq_getElem _ _ hi]
  exact fun h => h0 (h ▸ List.getElem_mem hi)

/-! ## Storing a file object -/

theorem setFileObject_pid (st : State) (f : FdPtr) (o : FileObject) (i : Nat) :
    ((st.setFileObject f o).pFdTable i).pid = (st.pFdTable i).pid := by
  by_cases h : i = f.table
  · subst h; simp [State.setFileObject]
  · simp [State.setFileObject, Function.update_of_ne h]

theorem fileObject_set_self (st : State) (f : FdPtr) (o : FileObject) :
    (st.setFileObject f o).fileObject f = o := by
  simp [State.setFileObject, State.fileObject]

theorem fileObject_set_pos (st : State) {f : FdPtr} {o : FileObject}
    (h : o.pos = (st.fileObject f).pos) (g : FdPtr) :
    ((st.setFileObject f o).fileObject g).pos = (st.fileObject g).pos := by
  obtain ⟨t, s⟩ := g
  by_cases ht : t = f.table
  · subst ht
    by_cases hs : s = f.slot
    · subst hs
      rw [show (⟨f.table, f.slot⟩ : FdPtr) = f from rfl, fileObject_set_self, h]
    · simp [State.setFileObject, State.fileObject, Function.update_of_ne hs]
  · simp [State.setFileObject, State.fileObject, Function.update_of_ne ht]

/-- A descriptor keeps leading to the same object. -/
theorem findFileObject_set (st : State) {f : FdPtr} {o : FileObject}
    (h : o.pos = (st.fileObject f).pos) (fd pid : Int) :
    findFileObject (st.setFileObject f o) fd pid = findFileObject st fd pid := by
  unfold findFileObject getFdTable
  simp only [setFileObject_pid, fileObject_set_pos st h]

/-- The file is still open when its cursor has moved and the image has changed
without changing its type and access. -/
theorem OpenFile.moved (h : OpenFile st fd pid f k) {st' : State} (c : Nat)
    (ht : (st'.discos.inodes k).type = (st.discos.inodes k).type)
    (ha : (st'.discos.inodes k).access = (st.discos.inodes k).access)
    (hp : st'.pFdTable = st.pFdTable) :
    OpenFile (st'.setFileObject f { st'.fileObject f with cursor := c }) fd pid f k := by
  have hobj : st'.fileObject = st.fileObject := by
    funext g; unfold State.fileObject; rw [hp]
  have hfind : findFileObject st' fd pid = findFileObject st fd pid := by
    unfold findFileObject getFdTable; rw [hobj, hp]
  constructor
  · exact (findFileObject_set st' (o := { st'.fileObject f with cursor := c }) rfl fd pid).trans
      (hfind.trans h.found)
  · rw [fileObject_set_self, hobj]; exact h.inode
  · rw [fileObject_set_self, hobj]; exact h.usable
  · rw [fileObject_set_self, hobj]; exact h.status
  · exact ht.trans h.type
  · exact ha.trans h.access

/-! ## The three operations -/

theorem OpenFile.usableFile (h : OpenFile st fd pid f k) : usableFile st fd pid = some (f, k) := by
  unfold Descriptors.usableFile
  rw [h.found]
  dsimp only
  rw [h.inode]
  dsimp only
  rw [if_neg (by simp [h.usable]), if_neg (by simp [h.type])]

/-- Inside the file `rd_lseek` sets the cursor. -/
theorem OpenFile.lseek (h : OpenFile st fd pid f k) {c : Nat} (hc : c < (st.discos.inodes k).size)
    (hs : (st.discos.inodes k).size ≤ 2 ^ 32) :
    rdLseek st fd c pid =
      (st.setFileObject f { st.fileObject f with cursor := c }, (c : Int)) := by
  have e : toU32 c = c := toU32_natCast (by omega)
  unfold rdLseek
  rw [h.usableFile]
  dsimp only
  rw [if_neg (by omega), e, if_neg (by omega)]

theorem OpenFile.write (h : OpenFile st fd pid f k) (data : Bytes) (n : Int) :
    rdWrite st fd pid data n =
      ({ st with discos := (writeStages k data n
          ⟨st.discos, (st.fileObject f).cursor, 0, 0⟩).state.fs }.setFileObject f
        { st.fileObject f with cursor := (writeStages k data n
          ⟨st.discos, (st.fileObject f).cursor, 0, 0⟩).state.cursor },
        returned 0 (writeStages k data n ⟨st.discos, (st.fileObject f).cursor, 0, 0⟩)) := by
  unfold rdWrite
  rw [h.found]
  dsimp only
  rw [h.inode]
  dsimp only
  rw [if_neg (by simp [h.type]), if_neg (by simp [h.access, h.status, RW, RD])]

end ToyOS.Ramdisk.Opened
