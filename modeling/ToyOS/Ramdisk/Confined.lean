import ToyOS.Ramdisk.Binding

/-! # What a write leaves alone

Whatever comes of it, `rd_write` touches one inode, the blocks only that inode
refers to and the file object of its descriptor.
-/
namespace ToyOS.Ramdisk.Confined
open ToyOS.Lib.Loop ToyOS.Lib.Words ToyOS.Lib.CStrings ToyOS.Ramdisk.Image ToyOS.Ramdisk.Places
open ToyOS.Ramdisk.Ownership ToyOS.Ramdisk.Descriptors ToyOS.Ramdisk.Write ToyOS.Ramdisk.Writing
open ToyOS.Ramdisk.System ToyOS.Ramdisk.Effects ToyOS.Ramdisk.Opened ToyOS.Ramdisk.Tables
open ToyOS.Lib.Runs ToyOS.Ramdisk.Components ToyOS.Ramdisk.BlockOwnership ToyOS.Ramdisk.Binding

variable {st : State} {f : FdPtr} {k : Fin 1024}

/-- The descriptor leads to file object `f` and on to inode `k`. -/
def Behind (st : State) (fd pid : Int) (f : FdPtr) (k : Fin 1024) : Prop :=
  findFileObject st fd pid = some f ∧ (st.fileObject f).inodePtr = some k

/-- From `st` to `st'` nothing changes but inode `k`, blocks no other inode
refers to, the bitmap with its counter, and file object `f`. -/
structure OnlyFile (st st' : State) (f : FdPtr) (k : Nat) : Prop where
  inodes : ∀ j, j ≠ k → st'.discos.inodes j = st.discos.inodes j
  refs : ∀ p : Place, p.Valid → p.node ≠ k → ref st'.discos p = ref st.discos p
  blocks : ∀ p : Place, p.Valid → p.node ≠ k → ref st.discos p ≠ 0 →
    st'.discos.dataBlocks (blockOf (ref st.discos p)) =
      st.discos.dataBlocks (blockOf (ref st.discos p))
  objects : ∀ g, g ≠ f → st'.fileObject g = st.fileObject g
  pids : ∀ t, (st'.pFdTable t).pid = (st.pFdTable t).pid
  readBuffer : st'.readBuffer = st.readBuffer
  freeInodes : st'.discos.freeInodes = st.discos.freeInodes

theorem OnlyFile.refl (st : State) (f : FdPtr) (k : Nat) : OnlyFile st st f k :=
  ⟨fun _ _ => rfl, fun _ _ _ => rfl, fun _ _ _ _ => rfl, fun _ _ => rfl, fun _ => rfl, rfl, rfl⟩

/-- The loops of `rd_write` stay inside the file, on any image with sound ownership. -/
theorem confined_of_stages (ho : Owned every st.discos) (data : Bytes) (n : Int) (o : FileObject) :
    OnlyFile st ({ st with discos := (stagesOf st f k data n).state.fs }.setFileObject f o) f k := by
  have hg := (writeStages_wrote k.isLt (w := ⟨st.discos, (st.fileObject f).cursor, 0, 0⟩) ho data n).grows
  constructor
  · exact hg.inodes
  · exact fun p hp hn => hg.keeps p hp fun h => absurd h hn
  · exact hg.blocks
  · exact fun g hne => fileObject_set_ne _ o hne
  · exact fun t => setFileObject_pid _ f o t
  · rfl
  · exact hg.freeInodes

/-- Write isolation, in every run on paths with components of 1 to 13 bytes. -/
theorem write_confined (h : Reachable (fun _ => WellNamed) st) (fd pid : Int) (data : Bytes) (n : Int) :
    (∀ f k, Behind st fd pid f k → OnlyFile st (rdWrite st fd pid data n).1 f k) ∧
    ((¬ ∃ f k, Behind st fd pid f k) → rdWrite st fd pid data n = (st, -1)) := by
  have ho := wellNamed_owned h
  rcases rdWrite_cases st fd pid data n with e | ⟨f, k, hw, e⟩
  · rw [e]
    exact ⟨fun f k _ => .refl st f k, fun _ => rfl⟩
  · refine ⟨fun f' k' hb => ?_, fun hno => absurd ⟨f, k, hw.found, hw.inode⟩ hno⟩
    obtain rfl := Option.some.inj (hw.found.symm.trans hb.1)
    obtain rfl := Option.some.inj (hw.inode.symm.trans hb.2)
    rw [e]
    exact confined_of_stages ho data n _

/-- One byte written to the file `/a` just opened. -/
theorem write_confined_openedA :
    (∀ f k, Behind openedA 0 5 f k → OnlyFile openedA (rdWrite openedA 0 5 (fun _ => 65) 1).1 f k) ∧
    ((¬ ∃ f k, Behind openedA 0 5 f k) → rdWrite openedA 0 5 (fun _ => 65) 1 = (openedA, -1)) := by
  have hone : Reachable (fun _ => WellNamed) oneFile := ⟨_, _, .step .start ⟨[nameA], rfl⟩⟩
  have hopened : Reachable (fun _ => WellNamed) openedA := by
    obtain ⟨behind, buffer, h⟩ := hone
    exact ⟨behind, buffer, .step h ⟨[nameA], rfl⟩⟩
  exact write_confined hopened 0 5 (fun _ => 65) 1

end ToyOS.Ramdisk.Confined
