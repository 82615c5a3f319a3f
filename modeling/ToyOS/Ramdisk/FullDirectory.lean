import ToyOS.Ramdisk.FreeCount
import ToyOS.Ramdisk.Supply

/-! # When rd_create finds no entry

With three blocks and an inode to be had, the only thing that can stop
`rd_create` is `Blocked`: the search starts at the block the size of the
directory points to and never looks at the holes before it. No invariant is
needed, so this holds after any run at all.
-/
namespace ToyOS.Ramdisk.FullDirectory
open ToyOS.Lib.Loop ToyOS.Lib.Words ToyOS.Lib.Bits ToyOS.Lib.Runs ToyOS.Lib.CStrings
open ToyOS.Ramdisk.Image ToyOS.Ramdisk.Blocks ToyOS.Ramdisk.Places ToyOS.Ramdisk.Allocation
open ToyOS.Ramdisk.Ownership ToyOS.Ramdisk.Paths ToyOS.Ramdisk.Components
open ToyOS.Ramdisk.Directories ToyOS.Ramdisk.Slots ToyOS.Ramdisk.Namespace
open ToyOS.Ramdisk.Creating ToyOS.Ramdisk.Removing ToyOS.Ramdisk.Descriptors
open ToyOS.Ramdisk.System ToyOS.Ramdisk.Effects ToyOS.Ramdisk.BlockOwnership ToyOS.Ramdisk.Supply

variable {fs : FileSys} {st : State}

/-- A call of `rd_create`, `rd_mkdir` or `rd_unlink`. -/
def NameOp : Op → Prop
  | .create _ _ _ _ | .mkdir _ _ | .unlink _ _ => True
  | _ => False

/-- With three blocks to be had only full blocks end a search. -/
theorem finds_iff_of_three (hw : Word fs) (ha : 3 ≤ avail fs) (k : Nat) :
    Finds fs k ↔ ¬ Blocked fs k := by
  refine ⟨fun ⟨_, ht, _⟩ => ht.not_blocked, fun hb => ?_⟩
  have h := search hw k
  generalize (getNextEntry fs k).1 = fs', (getNextEntry fs k).2 = e at h
  cases h with
  | blocked h => exact absurd h hb
  | @found p _ _ ht | @other p _ _ ht | @short p _ ht =>
    have := missing_le fs p
    exact ⟨p, ht, .inl (by omega)⟩

/-- With an inode and three blocks to be had, `rd_create` returns 0 exactly when
the parent it cuts out of the path exists, the search for an entry there does
not end at full blocks, and an inode other than the root is free. -/
theorem create_returns_zero_iff (h : Reachable (fun _ op => NameOp op) st)
    (hinodes : 1 ≤ st.discos.freeInodes) (hblocks : 3 ≤ st.discos.freeBlocks)
    (hclear : 3 ≤ clearBits st.discos) (path : Str) (type : FileType) (mode : Nat)
    (mem : Scratch) :
    (∃ fs', rdCreate st.discos path type mode mem = some (fs', 0)) ↔
      ∃ d, findIndex st.discos (splitPath path mem).1 = .inode d ∧ ¬ Blocked st.discos d ∧
        ∃ n, 1 ≤ n ∧ n < 1024 ∧ (st.discos.inodes n).type = none := by
  have hfinds := finds_iff_of_three (word_reachable h) (le_min hblocks hclear)
  rw [create_succeeds_iff (word_reachable h)]
  constructor
  · rintro ⟨-, -, hi, d, hd, hf⟩
    exact ⟨d, hd, (hfinds d).mp hf, hi⟩
  · rintro ⟨d, hd, hb, hi⟩
    exact ⟨by omega, by omega, hi, d, hd, (hfinds d).mpr hb⟩

/-- In a fresh file system the first file can be created. -/
theorem create_returns_zero_iff_fresh :
    (∃ fs', rdCreate (initFileSys (fun _ _ => 0) fun _ => 0).discos (render [nameA]) .reg RW
      ⟨[0, 0], [0, 0]⟩ = some (fs', 0)) ↔
      ∃ d, findIndex (initFileSys (fun _ _ => 0) fun _ => 0).discos
          (splitPath (render [nameA]) ⟨[0, 0], [0, 0]⟩).1 = .inode d ∧
        ¬ Blocked (initFileSys (fun _ _ => 0) fun _ => 0).discos d ∧
        ∃ n, 1 ≤ n ∧ n < 1024 ∧
          ((initFileSys (fun _ _ => 0) fun _ => 0).discos.inodes n).type = none := by
  have ho := init_owned (fun _ _ => 0) fun _ => 0
  have hb : 7931 = (initFileSys (fun _ _ => 0) fun _ => 0).discos.freeBlocks := by
    rw [initFileSys_discos]; rfl
  have hc := ho.counted
  refine create_returns_zero_iff ⟨_, _, .start⟩ (by decide +kernel) (by omega) (by omega) _ _ _ _

/-- The file names `0`, `1` and so on, one byte each from 48 on. -/
def oneByte (i : Fin 128) : Component where
  bytes := [UInt8.ofNat (48 + i)]
  length_pos := Nat.one_pos
  length_le := by simp
  noZero := by revert i; decide
  noSlash := by revert i; decide

/-- The root after 128 files have filled its eight direct blocks and the first
of them has been removed. -/
def firstRemoved : State :=
  (((List.finRange 128).map fun i => Op.create (render [oneByte i]) .reg RW ⟨[0, 0], [0, 0]⟩) ++
    [Op.unlink (render [oneByte 0]) ⟨[0, 0], [0, 0]⟩]).foldl step
      (initFileSys (fun _ _ => 0) fun _ => 0)

/-- The first of the eight blocks has a hole, and the file cannot be created
again. -/
theorem firstRemoved_full : Reachable (fun _ op => NameOp op) firstRemoved ∧
    (findIndex firstRemoved.discos (render [oneByte 0]) = .missing ∧
      findIndex firstRemoved.discos (parentOf []) = .inode 0 ∧
      (firstRemoved.discos.inodes 0).type = some .dir ∧ firstRemoved.discos.freeInodes = 896 ∧
      firstRemoved.discos.freeBlocks = 7923 ∧
      (rdCreate firstRemoved.discos (render [oneByte 0]) .reg RW ⟨[0, 0], [0, 0]⟩).map (·.2) =
        some (-1)) ∧
    7923 ≤ clearBits firstRemoved.discos := by
  have hvalues : findIndex firstRemoved.discos (render [oneByte 0]) = .missing ∧
      findIndex firstRemoved.discos (parentOf []) = .inode 0 ∧
      (firstRemoved.discos.inodes 0).type = some .dir ∧ firstRemoved.discos.freeInodes = 896 ∧
      firstRemoved.discos.freeBlocks = 7923 ∧
      (rdCreate firstRemoved.discos (render [oneByte 0]) .reg RW ⟨[0, 0], [0, 0]⟩).map (·.2) =
        some (-1) := by decide +kernel
  have hops : ∀ op ∈ ((List.finRange 128).map fun i =>
        Op.create (render [oneByte i]) .reg RW ⟨[0, 0], [0, 0]⟩) ++
      [Op.unlink (render [oneByte 0]) ⟨[0, 0], [0, 0]⟩], NameOp op ∧ WellNamed op := by
    intro op hop
    rcases List.mem_append.mp hop with hop | hop
    · obtain ⟨i, _, rfl⟩ := List.mem_map.mp hop
      exact ⟨trivial, _, rfl⟩
    · obtain rfl := List.mem_singleton.mp hop
      exact ⟨trivial, _, rfl⟩
  have hreach : Reach (fun _ op => NameOp op ∧ WellNamed op) step
      (initFileSys (fun _ _ => 0) fun _ => 0) firstRemoved :=
    Reach.foldl .start _ fun _ => hops
  have ho := wellNamed_owned ⟨_, _, hreach.mono fun _ _ h => h.2⟩
  refine ⟨⟨_, _, hreach.mono fun _ _ h => h.1⟩, hvalues, ?_⟩
  rw [← hvalues.2.2.2.2.1]
  exact ho.counted

end ToyOS.Ramdisk.FullDirectory
