import ToyOS.Ramdisk.Discipline
import ToyOS.Ramdisk.ReadBuffer
import ToyOS.Ramdisk.Records

/-! # Access rights

`rd_read` looks at neither the access rights of the file nor the flags of the
descriptor, `rd_write` refuses both where they are RD. What that lets through is
a read where one of them is WR, and a read or write of an inode whose rights are
0, because the file has been removed while it was open.
-/
namespace ToyOS.Ramdisk.Access
open ToyOS.Lib.Loop ToyOS.Lib.Words ToyOS.Lib.CStrings ToyOS.Lib.Runs ToyOS.Ramdisk.Image
open ToyOS.Ramdisk.Blocks ToyOS.Ramdisk.Paths ToyOS.Ramdisk.Components ToyOS.Ramdisk.Descriptors
open ToyOS.Ramdisk.Write ToyOS.Ramdisk.Writing ToyOS.Ramdisk.Read ToyOS.Ramdisk.System
open ToyOS.Ramdisk.Effects ToyOS.Ramdisk.BlockOwnership ToyOS.Ramdisk.Opened ToyOS.Ramdisk.Tables
open ToyOS.Ramdisk.Discipline ToyOS.Ramdisk.Records ToyOS.Ramdisk.ReadBuffer

variable {st : State} {op : Op} {fd pid n : Int} {f : FdPtr} {k : Fin 1024} {data : Bytes}

/-! ## The modes in every run -/

def IsMode (m : Nat) : Prop := m = RD ∨ m = WR ∨ m = RW

/-- Access modes and open flags are among RD, WR and RW. -/
def ModesOk : Op → Prop
  | .create _ _ mode _ | .chmod _ mode => IsMode mode
  | .open _ flags _ => IsMode flags
  | _ => True

structure Moded (st : State) : Prop where
  access : ∀ j, (st.discos.inodes j).type ≠ some .dir →
    (st.discos.inodes j).access = 0 ∨ IsMode (st.discos.inodes j).access
  status : ∀ f, (st.fileObject f).inodePtr ≠ none → IsMode (st.fileObject f).status

/-- A record with such an access mode, or of a directory. -/
def RecordOk (r : Record) : Prop := r.type ≠ some .dir → r.access = 0 ∨ IsMode r.access

theorem step_recordOk (h : ∀ j, RecordOk (record st.discos j)) (hop : ModesOk op) (j : Nat) :
    RecordOk (record (step st op).discos j) := by
  have he := step_recordEffect st op
  generalize (step st op).discos = fs' at he ⊢
  have hj := h j
  cases he with
  | same hs => rw [hs.1]; exact hj
  | @created _ path type mode mem _ cur n hc _ _ hr =>
    rw [hr, createdRecord]
    split
    · intro hd
      cases hc with
      | create => exact .inr hop
      | mkdir => exact absurd rfl hd
    · split <;> exact hj
  | root _ hr =>
    rw [hr]
    split
    · exact fun hd => absurd rfl hd
    · exact hj
  | removed _ _ _ _ hr =>
    rw [hr, removedRecord]
    split
    · exact fun _ => .inl rfl
    · split <;> exact hj
  | chmod _ hr =>
    rw [hr]
    split
    · exact fun _ => .inr hop
    · exact hj
  | wrote _ hr =>
    obtain ⟨ht, ha, -⟩ := hr j
    intro hd
    rw [record_type, ht] at hd
    rw [record_access, ha]
    exact hj hd

theorem step_moded (h : Moded st) (hop : ModesOk op) : Moded (step st op) := by
  refine ⟨step_recordOk h.access hop, fun g => ?_⟩
  have he := step_slotEffect st op g
  have hg := h.status g
  generalize (step st op).fileObject g = o at he ⊢
  cases he with
  | idle => exact hg
  | opened => exact fun _ => hop
  | wrote | sought | read => exact hg
  | closed => exact fun hn => absurd rfl hn

theorem reachable_moded (h : Reachable (fun _ => ModesOk) st) : Moded st := by
  obtain ⟨behind, buffer, h⟩ := h
  refine h.invariant ⟨fun j _ => .inl ?_, fun _ hn => absurd rfl hn⟩
    fun st op hop hm => step_moded hm hop
  rw [initFileSys_discos]
  by_cases hj : j = 0
  · subst hj
    exact congrArg Inode.access (Places.setInode_inodes_self _ 0 _)
  · exact congrArg Inode.access (Places.setInode_inodes_ne _ _ hj)

/-! ## When a byte is stored -/

/-- `rd_write` gets the block its first byte belongs to, for a file of inode `k`
with the cursor at `c`. -/
def GetsBlock (fs : FileSys) (k c : Nat) : Prop :=
  let seg := (fs.inodes k).size / 256
  if c / 256 < 8 then ensureBlock fs (.pointers k (c / 256)) ≠ none
  else if 8 ≤ seg ∧ seg < 72 then
    ∃ fs₁, ensureBlock fs (.singleIndirect k) = some fs₁ ∧
      ensureBlock fs₁ (.indexBlock (blockOf (fs₁.ptrAt (.singleIndirect k))) (seg - 8)) ≠ none
  else if 72 ≤ seg ∧ seg < 4168 then
    ∃ fs₁ fs₂, ensureBlock fs (.doubleIndirect k) = some fs₁ ∧
      ensureBlock fs₁ (.indexBlock (blockOf (fs₁.ptrAt (.doubleIndirect k))) 0) = some fs₂ ∧
      ensureBlock fs₂ (.indexBlock (blockOf (fs₂.ptrAt
        (.indexBlock (blockOf (fs₁.ptrAt (.doubleIndirect k))) 0))) ((seg - 8 - 64) / 64)) ≠ none
  else False

section
variable {w : Writer} {slot : Nat → PtrSlot} {o a m : Nat} {i : Nat}

theorem written_pos_kept (i : Nat) (data : Bytes) : Kept i data fun w => 0 < w.written where
  ensure _ _ _ h _ := h
  put _ _ _ _ _ := Nat.succ_pos _

/-- A buffer that begins with a zero byte is never left. -/
theorem written_zero_kept (i : Nat) (h0 : data 0 = 0) : Kept i data fun w => w.written = 0 where
  ensure _ _ _ h _ := h
  put _ _ _ h hne := absurd h0 (by rwa [h] at hne)

theorem writeBlock_stores (hd : data w.written ≠ 0) (ho : o < 256) (s : PtrSlot)
    (he : ensureBlock w.fs s ≠ none) :
    (writeBlock i data n s o w).Ends (fun w' : Writer => 0 < w'.written)
      fun w' _ => 0 < w'.written := by
  obtain ⟨fs', he⟩ := Option.ne_none_iff_exists'.mp he
  unfold writeBlock
  rw [he]
  dsimp only
  rw [show 256 - o = 255 - o + 1 by omega, forFrom]
  refine Flow.Ends.bind (M := fun w' : Writer => 0 < w'.written) ?_ fun w' hw' =>
    forFrom_ends (fun _ (w' : Writer) => 0 < w'.written) hw' fun j t _ _ ht => ?_
  · unfold writeByte
    rw [if_pos hd]
    dsimp only
    split <;> exact Nat.succ_pos _
  · unfold writeByte
    dsimp only
    split
    · split <;> exact Nat.succ_pos _
    · exact ht

theorem writeBlocks_stores (hd : data w.written ≠ 0) (ho : o < 256)
    (he : ensureBlock w.fs (slot a) ≠ none) :
    (forFrom (fun j => writeBlock i data n (slot j) o) a (m + 1) w).Ends
      (fun w' : Writer => 0 < w'.written) fun w' _ => 0 < w'.written :=
  (writeBlock_stores hd ho _ he).bind fun _ hw' => (written_pos_kept i data).writeBlocks hw' _ _ _ _

/-- Without a block the loop ends at once. -/
theorem writeBlocks_none (he : ensureBlock w.fs (slot a) = none) :
    forFrom (fun j => writeBlock i data n (slot j) o) a (m + 1) w = .ret w (-1) := by
  rw [forFrom, writeBlock, he]
  rfl

end

theorem writeDirect_out {fs : FileSys} {i c : Nat} (hc : ¬ c / 256 < 8) :
    writeDirect i data n ⟨fs, c, 0, 0⟩ = .next ⟨fs, c, 0, 0⟩ := by
  unfold writeDirect
  dsimp only
  rw [show 8 - c / 256 = 0 by omega]
  rfl

section
variable {fs : FileSys} {i c : Nat} (hd : data 0 ≠ 0)
include hd

theorem writeSingle_stores (h8 : 8 ≤ (fs.inodes i).size / 256) (h72 : (fs.inodes i).size / 256 < 72)
    {fs₁ : FileSys} (he : ensureBlock fs (.singleIndirect i) = some fs₁)
    (he₁ : ensureBlock fs₁ (.indexBlock (blockOf (fs₁.ptrAt (.singleIndirect i)))
      ((fs.inodes i).size / 256 - 8)) ≠ none) :
    (writeSingle i data n ⟨fs, c, 0, 0⟩).Ends (fun w : Writer => 0 < w.written)
      fun w _ => 0 < w.written := by
  have ho : (fs.inodes i).size % 256 < 256 := Nat.mod_lt _ (by omega)
  unfold writeSingle
  dsimp only
  rw [if_pos ⟨h8, h72⟩, he]
  generalize (fs.inodes i).size / 256 = seg at *
  dsimp only
  rw [show 64 - (seg - 8) = 71 - seg + 1 by omega]
  exact writeBlocks_stores hd ho he₁

theorem writeDouble_stores (h72 : 72 ≤ (fs.inodes i).size / 256)
    (h4168 : (fs.inodes i).size / 256 < 4168) {fs₁ fs₂ : FileSys}
    (he : ensureBlock fs (.doubleIndirect i) = some fs₁)
    (he₁ : ensureBlock fs₁ (.indexBlock (blockOf (fs₁.ptrAt (.doubleIndirect i))) 0) = some fs₂)
    (he₂ : ensureBlock fs₂ (.indexBlock (blockOf (fs₂.ptrAt (.indexBlock
      (blockOf (fs₁.ptrAt (.doubleIndirect i))) 0))) (((fs.inodes i).size / 256 - 8 - 64) / 64)) ≠
        none) :
    (writeDouble i data n ⟨fs, c, 0, 0⟩).Ends (fun w : Writer => 0 < w.written)
      fun w _ => 0 < w.written := by
  have pos := written_pos_kept i data
  have ho : (fs.inodes i).size % 256 < 256 := Nat.mod_lt _ (by omega)
  unfold writeDouble
  dsimp only
  rw [if_pos ⟨h72, h4168⟩, he]
  generalize (fs.inodes i).size / 256 = seg at *
  dsimp only
  rw [forFrom]
  refine Flow.Ends.bind (M := fun w : Writer => 0 < w.written) ?_ fun w hw =>
    forFrom_ends (fun _ (w : Writer) => 0 < w.written) hw fun j t _ _ ht =>
      (pos.carried _).writeIndex (fun _ _ h => h) ht _ _ _
  unfold writeIndex
  dsimp only
  rw [he₁]
  dsimp only
  rw [show 64 - (seg - 8 - 64) / 64 = 63 - (seg - 8 - 64) / 64 + 1 by omega]
  exact writeBlocks_stores hd ho he₂

end

section
variable {fs : FileSys} {i c : Nat}

theorem writeSingle_none (h8 : 8 ≤ (fs.inodes i).size / 256) (h72 : (fs.inodes i).size / 256 < 72)
    (hno : ∀ fs₁, ensureBlock fs (.singleIndirect i) = some fs₁ →
      ensureBlock fs₁ (.indexBlock (blockOf (fs₁.ptrAt (.singleIndirect i)))
        ((fs.inodes i).size / 256 - 8)) = none) :
    ∃ w : Writer, writeSingle i data n ⟨fs, c, 0, 0⟩ = .ret w (-1) ∧ w.written = 0 := by
  unfold writeSingle
  dsimp only
  rw [if_pos ⟨h8, h72⟩]
  cases he : ensureBlock fs (.singleIndirect i) with
  | none => exact ⟨_, rfl, rfl⟩
  | some fs₁ =>
    have he₁ := hno fs₁ he
    generalize (fs.inodes i).size / 256 = seg at *
    dsimp only
    rw [show 64 - (seg - 8) = 71 - seg + 1 by omega, writeBlocks_none he₁]
    exact ⟨_, rfl, rfl⟩

theorem writeDouble_none (h72 : 72 ≤ (fs.inodes i).size / 256)
    (h4168 : (fs.inodes i).size / 256 < 4168)
    (hno : ∀ fs₁ fs₂, ensureBlock fs (.doubleIndirect i) = some fs₁ →
      ensureBlock fs₁ (.indexBlock (blockOf (fs₁.ptrAt (.doubleIndirect i))) 0) = some fs₂ →
      ensureBlock fs₂ (.indexBlock (blockOf (fs₂.ptrAt (.indexBlock
        (blockOf (fs₁.ptrAt (.doubleIndirect i))) 0))) (((fs.inodes i).size / 256 - 8 - 64) / 64)) =
          none) :
    ∃ w : Writer, writeDouble i data n ⟨fs, c, 0, 0⟩ = .ret w (-1) ∧ w.written = 0 := by
  unfold writeDouble
  dsimp only
  rw [if_pos ⟨h72, h4168⟩]
  cases he : ensureBlock fs (.doubleIndirect i) with
  | none => exact ⟨_, rfl, rfl⟩
  | some fs₁ =>
    have hno := hno fs₁
    generalize (fs.inodes i).size / 256 = seg at *
    dsimp only
    rw [forFrom, writeIndex]
    cases he₁ : ensureBlock fs₁ (.indexBlock (blockOf (fs₁.ptrAt (.doubleIndirect i))) 0) with
    | none => exact ⟨_, rfl, rfl⟩
    | some fs₂ =>
      have he₂ := hno fs₂ he he₁
      dsimp only
      rw [show 64 - (seg - 8 - 64) / 64 = 63 - (seg - 8 - 64) / 64 + 1 by omega,
        writeBlocks_none he₂]
      exact ⟨_, rfl, rfl⟩

end

/-- A byte is stored exactly when the buffer begins with one and its block can
be had. -/
theorem stores_iff (fs : FileSys) (i c : Nat) (data : Bytes) (n : Int) :
    0 < (writeStages i data n ⟨fs, c, 0, 0⟩).state.written ↔ data 0 ≠ 0 ∧ GetsBlock fs i c := by
  have pos := written_pos_kept i data
  by_cases hd : data 0 = 0
  · have h := (written_zero_kept i hd).writeStages (n := n) (w := ⟨fs, c, 0, 0⟩) (fun _ _ h => h) rfl
    rw [h]
    exact iff_of_false (Nat.lt_irrefl 0) fun hx => hx.1 hd
  · rw [and_iff_right hd]
    unfold GetsBlock
    dsimp only
    by_cases h8 : c / 256 < 8
    · rw [if_pos h8]
      have hdir : writeDirect i data n ⟨fs, c, 0, 0⟩ = forFrom (fun j => writeBlock i data n
          (.pointers i j) (c % 256)) (c / 256) (7 - c / 256 + 1) ⟨fs, c, 0, 0⟩ := by
        unfold writeDirect
        dsimp only
        rw [show 8 - c / 256 = 7 - c / 256 + 1 by omega]
      unfold writeStages
      rw [hdir]
      by_cases he : ensureBlock fs (.pointers i (c / 256)) = none
      · rw [writeBlocks_none he]
        exact iff_of_false (Nat.lt_irrefl 0) fun hx => hx he
      · refine iff_of_true (pos.afterDirect (fun _ _ h => h) ?_) he
        exact writeBlocks_stores hd (Nat.mod_lt _ (by omega)) he
    · rw [if_neg h8]
      unfold writeStages
      rw [writeDirect_out h8, Flow.bind_next]
      by_cases hs : 8 ≤ (fs.inodes i).size / 256 ∧ (fs.inodes i).size / 256 < 72
      · rw [if_pos hs]
        by_cases hget : ∃ fs₁, ensureBlock fs (.singleIndirect i) = some fs₁ ∧
            ensureBlock fs₁ (.indexBlock (blockOf (fs₁.ptrAt (.singleIndirect i)))
              ((fs.inodes i).size / 256 - 8)) ≠ none
        · refine iff_of_true (Flow.Ends.state (N := fun w : Writer => 0 < w.written)
            (Flow.Ends.bind (M := fun w : Writer => 0 < w.written)
              (Flow.Ends.bind (M := fun w : Writer => 0 < w.written) ?_ fun w hw =>
                (pos.carried _).writeDouble (fun _ _ h => h) hw) fun w hw => ?_)) hget
          · obtain ⟨fs₁, he, he₁⟩ := hget
            exact writeSingle_stores hd hs.1 hs.2 he he₁
          · split <;> exact hw
        · obtain ⟨w, hw, h0⟩ := writeSingle_none (n := n) (c := c) hs.1 hs.2
            fun fs₁ he => not_not.mp fun he₁ => hget ⟨fs₁, he, he₁⟩
          rw [hw]
          refine iff_of_false ?_ hget
          rw [Flow.bind_ret, Flow.bind_ret, Flow.state_ret, h0]
          exact Nat.lt_irrefl 0
      · rw [if_neg hs]
        have hsingle : writeSingle i data n ⟨fs, c, 0, 0⟩ = .next ⟨fs, c, 0, 0⟩ := by
          unfold writeSingle
          dsimp only
          rw [if_neg hs]
        rw [hsingle, Flow.bind_next]
        by_cases hd' : 72 ≤ (fs.inodes i).size / 256 ∧ (fs.inodes i).size / 256 < 4168
        · rw [if_pos hd']
          by_cases hget : ∃ fs₁ fs₂, ensureBlock fs (.doubleIndirect i) = some fs₁ ∧
              ensureBlock fs₁ (.indexBlock (blockOf (fs₁.ptrAt (.doubleIndirect i))) 0) = some fs₂ ∧
              ensureBlock fs₂ (.indexBlock (blockOf (fs₂.ptrAt (.indexBlock
                (blockOf (fs₁.ptrAt (.doubleIndirect i))) 0)))
                  (((fs.inodes i).size / 256 - 8 - 64) / 64)) ≠ none
          · refine iff_of_true (Flow.Ends.state (N := fun w : Writer => 0 < w.written)
              (Flow.Ends.bind (M := fun w : Writer => 0 < w.written) ?_ fun w hw => ?_)) hget
            · obtain ⟨fs₁, fs₂, he, he₁, he₂⟩ := hget
              exact writeDouble_stores hd hd'.1 hd'.2 he he₁ he₂
            · split <;> exact hw
          · obtain ⟨w, hw, h0⟩ := writeDouble_none (n := n) (c := c) hd'.1 hd'.2
              fun fs₁ fs₂ he he₁ => not_not.mp fun he₂ => hget ⟨fs₁, fs₂, he, he₁, he₂⟩
            rw [hw]
            refine iff_of_false ?_ hget
            rw [Flow.bind_ret, Flow.state_ret, h0]
            exact Nat.lt_irrefl 0
        · rw [if_neg hd']
          have hdouble : (writeDouble i data n ⟨fs, c, 0, 0⟩) =
              .next ⟨fs, c, 0, (fs.inodes i).size / 256⟩ := by
            unfold writeDouble
            dsimp only
            rw [if_neg hd']
          rw [hdouble, Flow.bind_next]
          refine iff_of_false ?_ id
          split <;> exact Nat.lt_irrefl 0

/-! ## The law -/

/-- The descriptor leads to a file, was opened with `flag` or RW, and the access
rights of the file are `flag` or RW. -/
def Granted (st : State) (fd pid : Int) (flag : Nat) : Prop :=
  ∃ f k, findFileObject st fd pid = some f ∧ (st.fileObject f).inodePtr = some k ∧
    ((st.fileObject f).status = flag ∨ (st.fileObject f).status = RW) ∧
    ((st.discos.inodes k).access = flag ∨ (st.discos.inodes k).access = RW)

/-- `rd_write` stores a byte. -/
def StoresByte (st : State) (fd pid : Int) (data : Bytes) (n : Int) : Prop :=
  ∃ f k, Writable st fd pid f k ∧ 0 < (stagesOf st f k data n).state.written

theorem read_positive (addr : Bytes) : 0 < (rdRead st fd addr n pid).2.1 ↔
    ∃ f k, Readable st fd n pid f k ∧ fetched st f k n ≠ [] := by
  constructor
  · intro h
    by_contra hno
    rcases rdRead_cases st fd addr n pid with e | ⟨f, k, hu, hn, -⟩
    · rw [e] at h
      have : (0 : Int) < -1 := h
      omega
    · have hr : Readable st fd n pid f k := ⟨hu, hn⟩
      refine hno ⟨f, k, hr, fun hnil => ?_⟩
      rw [hr.returns, hnil] at h
      exact absurd h (by decide)
  · rintro ⟨f, k, hr, hne⟩
    rw [hr.returns]
    exact Int.natCast_pos.mpr (List.length_pos_iff.mpr hne)

/-- A read that delivers something keeps the access rights exactly when neither
the descriptor nor the file is WR and the rights are not those of a removed
file; a write that stores a byte, exactly when the rights are not those. -/
theorem access_kept_iff (h : Reachable (fun _ => ModesOk) st) (fd pid n : Int) :
    (∀ addr, (0 < (rdRead st fd addr n pid).2.1 → Granted st fd pid RD) ↔
      ∀ f k, Readable st fd n pid f k → fetched st f k n ≠ [] →
        (st.fileObject f).status ≠ WR ∧ (st.discos.inodes k).access ≠ WR ∧
          (st.discos.inodes k).access ≠ 0) ∧
    ∀ data, (StoresByte st fd pid data n → Granted st fd pid WR) ↔
      ∀ f k, Writable st fd pid f k → data 0 ≠ 0 → GetsBlock st.discos k (st.fileObject f).cursor →
        (st.discos.inodes k).access ≠ 0 := by
  have hm := reachable_moded h
  have hRD : RD ≠ WR ∧ RD ≠ RW ∧ WR ≠ RW ∧ RD ≠ 0 ∧ WR ≠ 0 ∧ RW ≠ 0 := by decide
  refine ⟨fun addr => ?_, fun data => ?_⟩
  · rw [read_positive]
    constructor
    · intro hgrant f k hr hne
      obtain ⟨f', k', hf', hk', hs, ha⟩ := hgrant ⟨f, k, hr, hne⟩
      obtain rfl := Option.some.inj (hr.found.symm.trans hf')
      obtain rfl := Option.some.inj (hr.inode.symm.trans hk')
      omega
    · rintro hcond ⟨f, k, hr, hne⟩
      have hs := hm.status f (by rw [hr.inode]; simp)
      have ha := hm.access k hr.type
      obtain ⟨h1, h2, h3⟩ := hcond f k hr hne
      refine ⟨f, k, hr.found, hr.inode, ?_, ?_⟩
      · unfold IsMode at hs; omega
      · unfold IsMode at ha; omega
  · constructor
    · intro hgrant f k hw hd hget
      obtain ⟨f', k', hf', hk', hs, ha⟩ := hgrant ⟨f, k, hw, (stores_iff _ _ _ _ _).mpr ⟨hd, hget⟩⟩
      obtain rfl := Option.some.inj (hw.found.symm.trans hf')
      obtain rfl := Option.some.inj (hw.inode.symm.trans hk')
      omega
    · rintro hcond ⟨f, k, hw, hpos⟩
      obtain ⟨hd, hget⟩ := (stores_iff _ _ _ _ _).mp hpos
      have hs := hm.status f (by rw [hw.inode]; simp)
      have ha := hm.access k hw.type
      have h0 := hcond f k hw hd hget
      refine ⟨f, k, hw.found, hw.inode, ?_, ?_⟩
      · have := hw.status
        unfold IsMode at hs
        omega
      · have := hw.access
        unfold IsMode at ha
        omega

/-! ## A file opened for writing, and read -/

/-- `/a` with the byte `A`, written and read through a descriptor opened WR. -/
def writeOnly : State :=
  [.open (render [nameA]) WR 5, .write 0 5 (bytesOf [65]) 1, .lseek 0 0 5].foldl step oneFile

theorem writeOnly_reachable : Reachable (fun _ => ModesOk) writeOnly := by
  refine ⟨_, _, Reach.foldl (.step .start ?_) _ ?_⟩
  · exact .inr (.inr rfl)
  · intro _ op hop
    simp only [List.mem_cons, List.not_mem_nil, or_false] at hop
    rcases hop with rfl | rfl | rfl
    · exact .inr (.inl rfl)
    · trivial
    · trivial

theorem access_kept_iff_writeOnly :
    (∀ addr, (0 < (rdRead writeOnly 0 addr 1 5).2.1 → Granted writeOnly 0 5 RD) ↔
      ∀ f k, Readable writeOnly 0 1 5 f k → fetched writeOnly f k 1 ≠ [] →
        (writeOnly.fileObject f).status ≠ WR ∧ (writeOnly.discos.inodes k).access ≠ WR ∧
          (writeOnly.discos.inodes k).access ≠ 0) ∧
    ∀ data, (StoresByte writeOnly 0 5 data 1 → Granted writeOnly 0 5 WR) ↔
      ∀ f k, Writable writeOnly 0 5 f k → data 0 ≠ 0 →
        GetsBlock writeOnly.discos k (writeOnly.fileObject f).cursor →
          (writeOnly.discos.inodes k).access ≠ 0 :=
  access_kept_iff writeOnly_reachable 0 5 1

/-- The byte is read although the descriptor was opened for writing only. -/
theorem writeOnly_read : Reachable (fun _ => ModesOk) writeOnly ∧
    (rdRead writeOnly 0 (fun _ => 0) 1 5).2.1 = 1 ∧ ¬ Granted writeOnly 0 5 RD := by
  refine ⟨writeOnly_reachable, by decide +kernel, ?_⟩
  rintro ⟨f, k, hf, hk, hs, -⟩
  have h0 : findFileObject writeOnly 0 5 = some ⟨0, 0⟩ := by decide +kernel
  obtain rfl := Option.some.inj (hf.symm.trans h0)
  have hWR : (writeOnly.fileObject ⟨0, 0⟩).status = WR := by decide +kernel
  rw [hWR] at hs
  revert hs
  decide

end ToyOS.Ramdisk.Access
