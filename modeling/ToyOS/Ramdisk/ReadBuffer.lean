import ToyOS.Ramdisk.BlockOwnership
import ToyOS.Ramdisk.Fetching
import ToyOS.Ramdisk.Tables

/-! # What a read delivers of earlier reads

`rd_read` clears four bytes of the shared buffer, fills in what it fetches and
copies as many bytes as were asked for. The bytes in between are left over from
earlier reads, of any process.
-/
namespace ToyOS.Ramdisk.ReadBuffer
open ToyOS.Lib.Loop ToyOS.Lib.Words ToyOS.Lib.CStrings ToyOS.Lib.Runs
open ToyOS.Ramdisk.Image ToyOS.Ramdisk.Components ToyOS.Ramdisk.Descriptors ToyOS.Ramdisk.Read
open ToyOS.Ramdisk.System ToyOS.Ramdisk.Effects ToyOS.Ramdisk.BlockOwnership ToyOS.Ramdisk.Opened
open ToyOS.Ramdisk.Tables
open ToyOS.Ramdisk.Fetching

variable {st st₁ st₂ : State} {fd n pid : Int} {addr : Bytes} {f : FdPtr} {k : Fin 1024}

/-- A read that is not refused. -/
structure Readable (st : State) (fd n pid : Int) (f : FdPtr) (k : Fin 1024) : Prop
    extends Usable st fd pid f k where
  room : toU32 n ≤ u32Sub (st.discos.inodes k).size (st.fileObject f).cursor

theorem rdRead_refused (h : ∀ f k, ¬ Readable st fd n pid f k) (addr : Bytes) :
    rdRead st fd addr n pid = (st, -1, addr) := by
  rcases rdRead_cases st fd addr n pid with e | ⟨f, k, hu, hn, -⟩
  · exact e
  · exact absurd ⟨hu, hn⟩ (h f k)

/-- What such a read fetches. -/
def fetched (st : State) (f : FdPtr) (k : Fin 1024) (n : Int) : List UInt8 :=
  fetch st.discos k n (st.fileObject f).cursor

theorem readerOf_fetched (st : State) (f : FdPtr) (k : Fin 1024) (n : Int) :
    Fetched (fun i => if i < 4 then 0 else st.readBuffer i) (st.fileObject f).cursor
      (fetched st f k n) (readerOf st f k n) :=
  readStages_fetched _ _

theorem Readable.read (h : Readable st fd n pid f k) (addr : Bytes) :
    rdRead st fd addr n pid =
      ({ st with readBuffer := (readerOf st f k n).buffer }.setFileObject f
        { st.fileObject f with cursor := (readerOf st f k n).cursor },
        ((readerOf st f k n).bytesRead : Int),
        copyPages (readerOf st f k n).buffer (n.toNat / 4096 + 1) n 0 addr) := by
  unfold rdRead
  rw [usableFile_eq_some.mpr h.toUsable]
  dsimp only
  rw [if_neg (not_lt.mpr h.room)]
  rfl

theorem Readable.returns (h : Readable st fd n pid f k) (addr : Bytes) :
    (rdRead st fd addr n pid).2.1 = ((fetched st f k n).length : Int) := by
  rw [h.read, (readerOf_fetched st f k n).count]

/-- The caller's memory: `n` bytes of the buffer, the fetched ones first. -/
theorem Readable.delivers (h : Readable st fd n pid f k) (addr : Bytes) (i : Nat) :
    (rdRead st fd addr n pid).2.2 i =
      if (i : Int) < n then
        ((fetched st f k n)[i]?).getD (if i < 4 then 0 else st.readBuffer i)
      else addr i := by
  rw [h.read]
  dsimp only
  rw [copyPages_apply _ _ (by push_cast; omega), (readerOf_fetched st f k n).buffer]
  by_cases hi : (i : Int) < n
  · rw [if_pos hi, if_pos (by omega)]
  · rw [if_neg hi, if_neg (by omega)]

theorem readable_congr (hd : st₁.discos = st₂.discos) (ht : st₁.pFdTable = st₂.pFdTable) :
    Readable st₁ fd n pid f k → Readable st₂ fd n pid f k := by
  have hobj : st₁.fileObject = st₂.fileObject := by
    funext g; unfold State.fileObject; rw [ht]
  have hfind : findFileObject st₁ fd pid = findFileObject st₂ fd pid := by
    unfold findFileObject getFdTable; rw [hobj, ht]
  rintro ⟨⟨h1, h2, h3, h4⟩, h5⟩
  rw [hobj] at h2 h3 h5
  rw [hd] at h4 h5
  exact ⟨⟨hfind ▸ h1, h2, h3, h4⟩, h5⟩

/-- Two states that differ in the buffer alone: a read returns and delivers the
same in both exactly when it is refused, or fills every index from 4 on at which
the buffers differ. -/
theorem read_agrees_iff (hd : st₁.discos = st₂.discos) (ht : st₁.pFdTable = st₂.pFdTable)
    (fd : Int) (addr : Bytes) (n pid : Int) :
    (rdRead st₁ fd addr n pid).2 = (rdRead st₂ fd addr n pid).2 ↔
      ∀ f k, Readable st₁ fd n pid f k → ∀ i : Nat, 4 ≤ i → (i : Int) < n →
        st₁.readBuffer i ≠ st₂.readBuffer i → i < (fetched st₁ f k n).length := by
  have hsame : ∀ f k, fetched st₁ f k n = fetched st₂ f k n := fun f k => by
    unfold fetched State.fileObject
    rw [hd, ht]
  constructor
  · intro h f k hr i h4 hi hne
    have hr₂ := readable_congr hd ht hr
    by_contra hge
    have e := congrFun (congrArg Prod.snd h) i
    rw [hr.delivers, hr₂.delivers, if_pos hi, if_pos hi, ← hsame,
      List.getElem?_eq_none (by omega)] at e
    simp only [Option.getD_none, if_neg (show ¬ i < 4 by omega)] at e
    exact hne e
  · intro h
    by_cases hex : ∃ f k, Readable st₁ fd n pid f k
    · obtain ⟨f, k, hr⟩ := hex
      have hr₂ := readable_congr hd ht hr
      refine Prod.ext ?_ (funext fun i => ?_)
      · rw [hr.returns, hr₂.returns, hsame]
      · rw [hr.delivers, hr₂.delivers, ← hsame]
        by_cases hi : (i : Int) < n
        · rw [if_pos hi, if_pos hi]
          by_cases hlt : i < (fetched st₁ f k n).length
          · rw [List.getElem?_eq_getElem hlt]
            rfl
          · rw [List.getElem?_eq_none (by omega), Option.getD_none, Option.getD_none]
            by_cases h4 : i < 4
            · rw [if_pos h4, if_pos h4]
            · rw [if_neg h4, if_neg h4]
              by_contra hne
              exact hlt (h f k hr i (by omega) hi hne)
        · rw [if_neg hi, if_neg hi]
    · have hno : ∀ f k, ¬ Readable st₁ fd n pid f k := fun f k hr => hex ⟨f, k, hr⟩
      rw [rdRead_refused hno, rdRead_refused fun f k hr =>
        hno f k (readable_congr hd.symm ht.symm hr)]

/-! ## A byte left over -/

/-- After a read and a seek the tables are as after the seek alone. -/
theorem lseek_after_read (h : OpenFile st fd pid f k) {c : Nat} (addr : Bytes) (n : Int)
    (hc : c < (st.discos.inodes k).size) (hs : (st.discos.inodes k).size ≤ 2 ^ 32) :
    (rdLseek (rdRead st fd addr n pid).1 fd c pid).1.pFdTable = (rdLseek st fd c pid).1.pFdTable := by
  rcases rdRead_cases st fd addr n pid with e | ⟨f', k', hu, hn, e⟩
  · rw [e]
  · obtain rfl : f' = f := Option.some.inj (hu.found.symm.trans h.found)
    have hm : OpenFile (State.setFileObject { st with readBuffer := (readerOf st f' k' n).buffer } f'
        { st.fileObject f' with cursor := (readerOf st f' k' n).cursor }) fd pid f' k :=
      h.moved _ rfl rfl rfl
    have hl := hm.lseek (c := c) hc hs
    rw [e, h.lseek hc hs]
    refine (congrArg (fun r => r.1.pFdTable) hl).trans ?_
    rw [setFileObject_twice, fileObject_set_self]
    rfl

/-- The file `/a` with `AAAAA` overwritten by `BBBBB`: ten bytes, five of them
stored, with the cursor back at the start. -/
def rewritten : State :=
  [.open (render [nameA]) RW 5, .write 0 5 (bytesOf [65, 65, 65, 65, 65]) 5, .lseek 0 0 5,
    .write 0 5 (bytesOf [66, 66, 66, 66, 66]) 5, .lseek 0 0 5].foldl step oneFile

theorem rewritten_open : OpenFile rewritten 0 5 ⟨0, 0⟩ 1 where
  found := by decide +kernel
  inode := by decide +kernel
  usable := by decide +kernel
  status := by decide +kernel
  type := by decide +kernel
  access := by decide +kernel

theorem rewritten_size : (rewritten.discos.inodes 1).size = 10 := by decide +kernel

/-- The cursor moved to 1, with and without a read of five bytes before. -/
def unread : State := step rewritten (.lseek 0 1 5)
def reread : State := step (step rewritten (.read 0 (fun _ => 0) 5 5)) (.lseek 0 1 5)

theorem reread_discos : reread.discos = unread.discos :=
  (rdLseek_discos _ 0 1 5).trans
    ((rdRead_discos rewritten 0 _ 5 5).trans (rdLseek_discos rewritten 0 1 5).symm)

theorem reread_tables : reread.pFdTable = unread.pFdTable :=
  lseek_after_read (c := 1) rewritten_open _ 5
    (by show 1 < (rewritten.discos.inodes 1).size; rw [rewritten_size]; decide)
    (by show (rewritten.discos.inodes 1).size ≤ _; rw [rewritten_size]; decide)

theorem read_agrees_iff_reread :
    (rdRead reread 0 (fun _ => 0) 5 5).2 = (rdRead unread 0 (fun _ => 0) 5 5).2 ↔
      ∀ f k, Readable reread 0 5 5 f k → ∀ i : Nat, 4 ≤ i → (i : Int) < 5 →
        reread.readBuffer i ≠ unread.readBuffer i → i < (fetched reread f k 5).length :=
  read_agrees_iff reread_discos reread_tables 0 _ 5 5

/-- The fifth byte delivered is a `B` that the first read left behind. -/
theorem reread_leaks :
    Reachable (fun _ _ => True) reread ∧ Reachable (fun _ _ => True) unread ∧
      reread.discos = unread.discos ∧ reread.pFdTable = unread.pFdTable ∧
      (rdRead reread 0 (fun _ => 0) 5 5).2 ≠ (rdRead unread 0 (fun _ => 0) 5 5).2 := by
  have hrun : Reach (fun _ _ => True) step (initFileSys (fun _ _ => 0) fun _ => 0) rewritten :=
    (Reach.step .start trivial).foldl _ fun _ _ _ => trivial
  refine ⟨⟨_, _, .step (.step hrun trivial) trivial⟩, ⟨_, _, .step hrun trivial⟩, reread_discos,
    reread_tables, fun e => ?_⟩
  have h1 : (rdRead reread 0 (fun _ => 0) 5 5).2.2 4 = 66 := by decide +kernel
  have h2 : (rdRead unread 0 (fun _ => 0) 5 5).2.2 4 = 0 := by decide +kernel
  rw [e, h2] at h1
  exact absurd h1 (by decide)

end ToyOS.Ramdisk.ReadBuffer
