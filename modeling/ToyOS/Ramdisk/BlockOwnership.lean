import ToyOS.Ramdisk.Effects

/-! # No block has two owners

In every run on paths with components of 1 to 13 bytes the bitmap protects the
blocks: what an inode refers to is marked, no two places refer to one block, and
the counter never promises more than is free.
-/
namespace ToyOS.Ramdisk.BlockOwnership
open ToyOS.Lib.Bits ToyOS.Lib.Runs ToyOS.Lib.Words
open ToyOS.Ramdisk.Image ToyOS.Ramdisk.Places ToyOS.Ramdisk.Ownership ToyOS.Ramdisk.Paths
open ToyOS.Ramdisk.Components ToyOS.Ramdisk.Directories ToyOS.Ramdisk.Creating
open ToyOS.Ramdisk.Slots ToyOS.Ramdisk.Descriptors
open ToyOS.Ramdisk.System ToyOS.Ramdisk.Effects

/-- The path of the call, if it has one, has components of 1 to 13 bytes. -/
def WellNamed : Op → Prop
  | .create path _ _ _ | .mkdir path _ | .unlink path _ | .chmod path _ | .open path _ _ =>
    ∃ cs, path = render cs
  | .write _ _ _ _ | .lseek _ _ _ | .read _ _ _ _ | .close _ _ => True

/-- A component fits behind the last entry's start, whatever the scratch memory holds. -/
theorem nameFits_render {fs : FileSys} (ho : Owned every fs) (cs : List Component) (mem : Scratch) :
    NameFits fs (render cs) mem := by
  intro cur e hfind he
  have hnext : NextEntry fs cur (getNextEntry fs cur).1 (some e) :=
    getNextEntry_next ho (findIndex_lt hfind) (Prod.ext rfl he)
  have := (hnext.plain ho).1
  have := splitPath_length_le cs mem
  omega

theorem wellNamed_fits {st : State} {op : Op} (h : WellNamed op) (ho : Owned every st.discos) :
    Fits st op := by
  cases op with
  | create | mkdir => obtain ⟨cs, rfl⟩ := h; exact nameFits_render ho cs _
  | _ => trivial

theorem wellNamed_owned {st : State} (h : Reachable (fun _ => WellNamed) st) :
    Owned every st.discos := by
  obtain ⟨behind, buffer, h⟩ := h
  exact h.invariant (init_owned behind buffer) fun st op hop ho =>
    (step_effect st op).owned ho (wellNamed_fits hop ho)

theorem blocks_owned {st : State} (h : Reachable (fun _ => WellNamed) st) :
    (∀ p : Place, p.Valid → ref st.discos p ≠ 0 →
      bit st.discos.bitmap (blockOf (ref st.discos p)) = true) ∧
    (∀ p q : Place, p.Valid → q.Valid → ref st.discos p ≠ 0 →
      ref st.discos p = ref st.discos q → p = q) ∧
    st.discos.freeBlocks ≤ clearBits st.discos :=
  have ho := wellNamed_owned h
  ⟨fun _ hp h0 => ho.marked hp trivial h0,
    fun _ _ hp hq h0 e => ho.unique hp trivial hq trivial h0 e, ho.counted⟩

/-- The file name `a`. -/
def nameA : Component := ⟨[97], by decide, by decide, by decide, by decide⟩

/-- A fresh file system after `rd_create("/a", "reg", RW)`. -/
def oneFile : State :=
  step (initFileSys (fun _ _ => 0) fun _ => 0) (.create (render [nameA]) .reg RW ⟨[0, 0], [0, 0]⟩)

theorem blocks_owned_oneFile :
    bit oneFile.discos.bitmap (blockOf (ref oneFile.discos (.direct 0 0))) = true ∧
      oneFile.discos.freeBlocks ≤ clearBits oneFile.discos := by
  have h := @blocks_owned oneFile ⟨_, _, .step .start ⟨[nameA], rfl⟩⟩
  exact ⟨h.1 (.direct 0 0) ⟨by decide, by decide⟩ (by decide +kernel), h.2.2⟩

end ToyOS.Ramdisk.BlockOwnership
