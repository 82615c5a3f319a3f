import ToyOS.Ramdisk.Effects
import ToyOS.Ramdisk.Opened

/-! # What one call can do to the descriptor tables

`TableEffect` has one case for each way a call changes a descriptor table.
No call ever stores a pid, so every process works with the first table, and a
slot of it is either all zero or open with its own index in `pos`.
-/
namespace ToyOS.Ramdisk.Tables
open ToyOS.Lib.Loop ToyOS.Lib.Words ToyOS.Lib.CStrings ToyOS.Lib.Runs ToyOS.Ramdisk.Image
open ToyOS.Ramdisk.Paths ToyOS.Ramdisk.Namespace ToyOS.Ramdisk.Descriptors ToyOS.Ramdisk.Write
open ToyOS.Ramdisk.Read ToyOS.Ramdisk.System ToyOS.Ramdisk.Effects ToyOS.Ramdisk.Opened

variable {st st' : State} {op : Op} {f g : FdPtr} {fd pid : Int} {path : Str} {fl : Nat}

/-! ## The ways a call can go -/

/-- `rd_open` finds the inode `k`, may open it and takes the slot `f`. -/
structure Opens (st : State) (path : Str) (fl : Nat) (pid : Int) (f : FdPtr) (k : Fin 1024) :
    Prop where
  notRoot : path ≠ [slash]
  resolves : myFindInodeNumber st.discos path = .inode k
  granted : accessDenied fl (st.discos.inodes k).access = false
  table : getFdTable st pid = some f.table
  unused : firstIdx (fun i => (st.fileObject ⟨f.table, i⟩).usable == 0) 0 1024 = some f.slot

/-- The slot after a successful `rd_open`. -/
def openedObject (f : FdPtr) (k : Fin 1024) (fl : Nat) : FileObject := ⟨some k, fl, 0, f.slot, 1⟩

theorem Opens.slot_lt {k : Fin 1024} (h : Opens st path fl pid f k) : f.slot < 1024 := by
  obtain ⟨-, hlt, -⟩ := firstIdx_eq_some.mp h.unused
  omega

theorem setFileObject_twice (st : State) (f : FdPtr) (o o' : FileObject) :
    (st.setFileObject f o).setFileObject f o' = st.setFileObject f o' := by
  simp [State.setFileObject]

theorem toI32_of_lt {n : Nat} (h : n < 2 ^ 31) : toI32 n = n := if_pos h

theorem rdOpen_cases {r : Int} (h : rdOpen st path fl pid = some (st', r)) :
    (st' = st ∧ r = -1) ∨
      ∃ f k, Opens st path fl pid f k ∧ st' = st.setFileObject f (openedObject f k fl) ∧
        r = f.slot := by
  unfold rdOpen at h
  split at h
  · cases h; exact .inl ⟨rfl, rfl⟩
  · rename_i hroot
    split at h
    · cases h
    · cases h; exact .inl ⟨rfl, rfl⟩
    · rename_i k hfind
      split at h
      · rename_i hk
        split at h
        · cases h; exact .inl ⟨rfl, rfl⟩
        · rename_i hacc
          split at h
          · cases h; exact .inl ⟨rfl, rfl⟩
          · rename_i st₁ f hc
            unfold createFileObject at hc
            split at hc
            · cases hc
            · rename_i t ht
              obtain ⟨i, hi, e⟩ := Option.map_eq_some_iff.mp hc
              obtain ⟨rfl, rfl⟩ := Prod.mk.inj e
              obtain ⟨rfl, rfl⟩ := Prod.mk.inj (Option.some.inj h)
              have ho : Opens st path fl pid ⟨t, i⟩ ⟨k, hk⟩ :=
                ⟨hroot, hfind, by simpa using hacc, ht, hi⟩
              refine .inr ⟨⟨t, i⟩, ⟨k, hk⟩, ho, ?_, ?_⟩
              · rw [setFileObject_twice, fileObject_set_self]
                rfl
              · rw [fileObject_set_self, fileObject_set_self]
                have := ho.slot_lt
                dsimp only at this ⊢
                exact toI32_of_lt (by omega)
      · cases h

/-- `rd_lseek`, `rd_read` or `rd_close` passes its checks. -/
structure Usable (st : State) (fd pid : Int) (f : FdPtr) (k : Fin 1024) : Prop where
  found : findFileObject st fd pid = some f
  inode : (st.fileObject f).inodePtr = some k
  usable : (st.fileObject f).usable = 1
  type : (st.discos.inodes k).type ≠ some .dir

theorem usableFile_eq_some {k : Fin 1024} :
    usableFile st fd pid = some (f, k) ↔ Usable st fd pid f k := by
  constructor
  · intro h
    unfold usableFile at h
    split at h
    · cases h
    · rename_i f' hf
      split at h
      · cases h
      · rename_i k' hk
        split at h
        · cases h
        · rename_i hu
          split at h
          · cases h
          · rename_i ht
            obtain ⟨rfl, rfl⟩ := Prod.mk.inj (Option.some.inj h)
            exact ⟨hf, hk, not_not.mp hu, ht⟩
  · intro h
    unfold usableFile
    rw [h.found]
    dsimp only
    rw [h.inode]
    dsimp only
    rw [if_neg (not_not.mpr h.usable), if_neg h.type]

/-- A descriptor stays usable when its cursor moves. -/
theorem usable_moved {k : Fin 1024} (hu : Usable st fd pid f k) (c : Nat) :
    Usable (st.setFileObject f { st.fileObject f with cursor := c }) fd pid f k := by
  obtain ⟨o, ho⟩ : ∃ o : FileObject, { st.fileObject f with cursor := c } = o := ⟨_, rfl⟩
  have hpos : o.pos = (st.fileObject f).pos := by rw [← ho]
  rw [ho]
  refine ⟨(findFileObject_set st hpos fd pid).trans hu.found, ?_, ?_, hu.type⟩
  · rw [fileObject_set_self, ← ho]
    exact hu.inode
  · rw [fileObject_set_self, ← ho]
    exact hu.usable

theorem usableFile_eq_none (h : ∀ f k, ¬ Usable st fd pid f k) : usableFile st fd pid = none := by
  cases hu : usableFile st fd pid with
  | none => rfl
  | some fk => exact absurd (usableFile_eq_some.mp hu) (h _ _)

/-- `rd_write` passes its checks. -/
structure Writable (st : State) (fd pid : Int) (f : FdPtr) (k : Fin 1024) : Prop where
  found : findFileObject st fd pid = some f
  inode : (st.fileObject f).inodePtr = some k
  type : (st.discos.inodes k).type ≠ some .dir
  access : (st.discos.inodes k).access ≠ RD
  status : (st.fileObject f).status ≠ RD

/-- The stages of `rd_write` and the state it leaves. -/
def stagesOf (st : State) (f : FdPtr) (k : Fin 1024) (data : Bytes) (n : Int) : Flow Writer Int :=
  writeStages k data n ⟨st.discos, (st.fileObject f).cursor, 0, 0⟩

theorem rdWrite_cases (st : State) (fd pid : Int) (data : Bytes) (n : Int) :
    rdWrite st fd pid data n = (st, -1) ∨ ∃ f k, Writable st fd pid f k ∧
      rdWrite st fd pid data n =
        ({ st with discos := (stagesOf st f k data n).state.fs }.setFileObject f
          { st.fileObject f with cursor := (stagesOf st f k data n).state.cursor },
          returned 0 (stagesOf st f k data n)) := by
  unfold rdWrite
  split
  · exact .inl rfl
  · rename_i f hf
    split
    · exact .inl rfl
    · rename_i k hk
      split
      · exact .inl rfl
      · rename_i hd
        split
        · exact .inl rfl
        · rename_i ha
          rw [not_or] at ha
          exact .inr ⟨f, k, ⟨hf, hk, hd, ha.1, ha.2⟩, rfl⟩

theorem Writable.write (h : Writable st fd pid f k) (data : Bytes) (n : Int) :
    rdWrite st fd pid data n =
      ({ st with discos := (stagesOf st f k data n).state.fs }.setFileObject f
        { st.fileObject f with cursor := (stagesOf st f k data n).state.cursor },
        returned 0 (stagesOf st f k data n)) := by
  unfold rdWrite
  rw [h.found]
  dsimp only
  rw [h.inode]
  dsimp only
  rw [if_neg h.type, if_neg (not_or.mpr ⟨h.access, h.status⟩)]
  rfl

theorem rdWrite_refused (h : ∀ f k, ¬ Writable st fd pid f k) (data : Bytes) (n : Int) :
    rdWrite st fd pid data n = (st, -1) := by
  rcases rdWrite_cases st fd pid data n with e | ⟨f, k, hw, -⟩
  · exact e
  · exact absurd hw (h f k)

/-- The position `rd_lseek` moves to. -/
def seekTo (size : Nat) (offset : Int) : Nat :=
  if size ≤ toU32 offset then u32Sub size 1 else toU32 offset

/-- The buffer and the counters `rd_read` begins with, and those it ends with. -/
def readerOf (st : State) (f : FdPtr) (k : Fin 1024) (n : Int) : Reader :=
  readStages st.discos k n
    ⟨fun i => if i < 4 then 0 else st.readBuffer i, (st.fileObject f).cursor, 0, 0⟩

inductive TableEffect (st : State) : Op → (Nat → ProcessFdTable) → Prop
  | idle {op : Op} : TableEffect st op st.pFdTable
  | opened {path : Str} {fl : Nat} {pid : Int} {f : FdPtr} {k : Fin 1024}
      (h : Opens st path fl pid f k) :
      TableEffect st (.open path fl pid) (st.setFileObject f (openedObject f k fl)).pFdTable
  | wrote {fd pid : Int} {data : Bytes} {n : Int} {f : FdPtr} {k : Fin 1024}
      (h : Writable st fd pid f k) :
      TableEffect st (.write fd pid data n) (st.setFileObject f
        { st.fileObject f with cursor := (stagesOf st f k data n).state.cursor }).pFdTable
  | sought {fd off pid : Int} {f : FdPtr} {k : Fin 1024} (h : Usable st fd pid f k)
      (h0 : 0 ≤ off) :
      TableEffect st (.lseek fd off pid) (st.setFileObject f
        { st.fileObject f with cursor := seekTo (st.discos.inodes k).size off }).pFdTable
  | read {fd : Int} {addr : Bytes} {n pid : Int} {f : FdPtr} {k : Fin 1024}
      (h : Usable st fd pid f k)
      (hn : toU32 n ≤ u32Sub (st.discos.inodes k).size (st.fileObject f).cursor) :
      TableEffect st (.read fd addr n pid) (st.setFileObject f
        { st.fileObject f with cursor := (readerOf st f k n).cursor }).pFdTable
  | closed {fd pid : Int} {f : FdPtr} {k : Fin 1024} (h : Usable st fd pid f k) :
      TableEffect st (.close fd pid) (st.setFileObject f .zero).pFdTable

theorem rdLseek_cases (st : State) (fd off pid : Int) :
    rdLseek st fd off pid = (st, -1) ∨ ∃ f k, Usable st fd pid f k ∧ 0 ≤ off ∧
      rdLseek st fd off pid =
        (st.setFileObject f { st.fileObject f with cursor := seekTo (st.discos.inodes k).size off },
          if (st.discos.inodes k).size ≤ toU32 off then toI32 (u32Sub (st.discos.inodes k).size 1)
          else off) := by
  unfold rdLseek
  cases hu : usableFile st fd pid with
  | none => exact .inl rfl
  | some fk =>
    obtain ⟨f, k⟩ := fk
    dsimp only
    split
    · exact .inl rfl
    · rename_i hoff
      refine .inr ⟨f, k, usableFile_eq_some.mp hu, by omega, ?_⟩
      unfold seekTo
      split <;> rfl

theorem rdRead_cases (st : State) (fd : Int) (addr : Bytes) (n pid : Int) :
    rdRead st fd addr n pid = (st, -1, addr) ∨ ∃ f k, Usable st fd pid f k ∧
      toU32 n ≤ u32Sub (st.discos.inodes k).size (st.fileObject f).cursor ∧
      rdRead st fd addr n pid =
        ({ st with readBuffer := (readerOf st f k n).buffer }.setFileObject f
          { st.fileObject f with cursor := (readerOf st f k n).cursor },
          ((readerOf st f k n).bytesRead : Int),
          copyPages (readerOf st f k n).buffer (n.toNat / 4096 + 1) n 0 addr) := by
  unfold rdRead
  cases hu : usableFile st fd pid with
  | none => exact .inl rfl
  | some fk =>
    obtain ⟨f, k⟩ := fk
    dsimp only
    split
    · exact .inl rfl
    · rename_i hn
      exact .inr ⟨f, k, usableFile_eq_some.mp hu, not_lt.mp hn, rfl⟩

theorem rdClose_cases (st : State) (fd pid : Int) :
    rdClose st fd pid = (st, -1) ∨ ∃ f k, Usable st fd pid f k ∧
      rdClose st fd pid = (st.setFileObject f .zero, 0) := by
  unfold rdClose
  cases hu : usableFile st fd pid with
  | none => exact .inl rfl
  | some fk => exact .inr ⟨fk.1, fk.2, usableFile_eq_some.mp hu, rfl⟩

theorem onImage_tables {r : Option (FileSys × Int)} {v : Int} (h : onImage st r = some (st', v)) :
    st'.pFdTable = st.pFdTable := by
  obtain ⟨x, -, e⟩ := Option.map_eq_some_iff.mp h
  rw [← (Prod.mk.inj e).1]

/-- What holds of the image after a call on the image alone. -/
theorem step_onImage {r : Option (FileSys × Int)} {P : FileSys → Prop}
    (hc : call st op = onImage st r) (h0 : P st.discos) :
    P (step st op).discos ↔ ∀ fs' v, r = some (fs', v) → P fs' := by
  unfold step
  rw [hc]
  cases r with
  | none => exact iff_of_true h0 fun _ _ h => by cases h
  | some x =>
    constructor
    · intro h fs' v e
      obtain rfl := Option.some.inj e
      exact h
    · exact fun h => h x.1 x.2 rfl

theorem step_tableEffect (st : State) (op : Op) : TableEffect st op (step st op).pFdTable := by
  unfold step
  cases hc : call st op with
  | none => exact .idle
  | some r =>
    obtain ⟨st', v⟩ := r
    show TableEffect st op st'.pFdTable
    have hst : ∀ {x : State × Int}, x = (st', v) → x.1.pFdTable = st'.pFdTable := fun e => by rw [e]
    cases op with
    | create | mkdir | unlink | chmod => rw [onImage_tables hc]; exact .idle
    | «open» path fl pid =>
      rcases rdOpen_cases hc with ⟨rfl, -⟩ | ⟨f, k, h, rfl, -⟩
      · exact .idle
      · exact .opened h
    | write fd pid data n =>
      rw [← hst (Option.some.inj hc)]
      rcases rdWrite_cases st fd pid data n with h | ⟨f, k, h, e⟩
      · rw [h]; exact .idle
      · rw [e]; exact .wrote h
    | lseek fd off pid =>
      rw [← hst (Option.some.inj hc)]
      rcases rdLseek_cases st fd off pid with h | ⟨f, k, h, h0, e⟩
      · rw [h]; exact .idle
      · rw [e]; exact .sought h h0
    | read fd addr n pid =>
      have hc : ((rdRead st fd addr n pid).1, (rdRead st fd addr n pid).2.1) = (st', v) :=
        Option.some.inj hc
      rw [← hst hc]
      rcases rdRead_cases st fd addr n pid with h | ⟨f, k, h, hn, e⟩
      · rw [h]; exact .idle
      · rw [e]; exact .read h hn
    | close fd pid =>
      rw [← hst (Option.some.inj hc)]
      rcases rdClose_cases st fd pid with h | ⟨f, k, h, e⟩
      · rw [h]; exact .idle
      · rw [e]; exact .closed h

/-! ## One slot -/

theorem fileObject_set_ne (st : State) (o : FileObject) (h : g ≠ f) :
    (st.setFileObject f o).fileObject g = st.fileObject g := by
  obtain ⟨t, s⟩ := g
  by_cases ht : t = f.table
  · subst ht
    have hs : s ≠ f.slot := fun e => h (by rw [e])
    simp [State.setFileObject, State.fileObject, Function.update_of_ne hs]
  · simp [State.setFileObject, State.fileObject, Function.update_of_ne ht]

/-- The ways slot `g` can come out of a call. -/
inductive SlotEffect (st : State) (g : FdPtr) : Op → FileObject → Prop
  | idle {op : Op} : SlotEffect st g op (st.fileObject g)
  | opened {path : Str} {fl : Nat} {pid : Int} {k : Fin 1024} (h : Opens st path fl pid g k) :
      SlotEffect st g (.open path fl pid) (openedObject g k fl)
  | wrote {fd pid : Int} {data : Bytes} {n : Int} {k : Fin 1024} (h : Writable st fd pid g k) :
      SlotEffect st g (.write fd pid data n)
        { st.fileObject g with cursor := (stagesOf st g k data n).state.cursor }
  | sought {fd off pid : Int} {k : Fin 1024} (h : Usable st fd pid g k) (h0 : 0 ≤ off) :
      SlotEffect st g (.lseek fd off pid)
        { st.fileObject g with cursor := seekTo (st.discos.inodes k).size off }
  | read {fd : Int} {addr : Bytes} {n pid : Int} {k : Fin 1024} (h : Usable st fd pid g k)
      (hn : toU32 n ≤ u32Sub (st.discos.inodes k).size (st.fileObject g).cursor) :
      SlotEffect st g (.read fd addr n pid)
        { st.fileObject g with cursor := (readerOf st g k n).cursor }
  | closed {fd pid : Int} {k : Fin 1024} (h : Usable st fd pid g k) :
      SlotEffect st g (.close fd pid) .zero

theorem step_slotEffect (st : State) (op : Op) (g : FdPtr) :
    SlotEffect st g op ((step st op).fileObject g) := by
  have he := step_tableEffect st op
  generalize step st op = st' at he ⊢
  have hobj : ∀ st₁ : State, st'.pFdTable = st₁.pFdTable → st'.fileObject g = st₁.fileObject g :=
    fun st₁ e => by unfold State.fileObject; rw [e]
  -- the slot stored, or another one
  have hset : ∀ f o, st'.pFdTable = (st.setFileObject f o).pFdTable →
      st'.fileObject g = if g = f then o else st.fileObject g := fun f o e => by
    rw [hobj _ e]
    split
    · rename_i h; subst h; exact fileObject_set_self st g o
    · rename_i h; exact fileObject_set_ne st o h
  generalize hp : st'.pFdTable = p at he hset hobj
  cases he with
  | idle => rw [hobj st rfl]; exact .idle
  | opened h | wrote h | sought h | read h | closed h =>
    rw [hset _ _ rfl]
    split
    · rename_i e
      subst e
      constructor <;> assumption
    · exact .idle

end ToyOS.Ramdisk.Tables
