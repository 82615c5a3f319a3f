import ToyOS.Ramdisk.Contents
import ToyOS.Ramdisk.BlockOwnership

/-! # One write or two

Writing `a` and then `b` leaves the file that writing `a ++ b` leaves exactly
when the second write is `Seamless`. Otherwise it skips bytes at the start of a
block or begins in the wrong block of the double-indirect part, and some
position of the file keeps its zero.
-/
namespace ToyOS.Ramdisk.Chunking
open ToyOS.Lib.Words ToyOS.Lib.CStrings ToyOS.Lib.Overlay ToyOS.Lib.Runs
open ToyOS.Ramdisk.Image ToyOS.Ramdisk.Ownership ToyOS.Ramdisk.Components ToyOS.Ramdisk.Descriptors
open ToyOS.Ramdisk.Write ToyOS.Ramdisk.Files ToyOS.Ramdisk.Ranges ToyOS.Ramdisk.Opened
open ToyOS.Ramdisk.Contents ToyOS.Ramdisk.System ToyOS.Ramdisk.BlockOwnership

variable {st : State} {fd pid : Int} {f : FdPtr} {k : Fin 1024} {a b d : Str}

/-- The file `k` with its cursor in `f` and its first `n` bytes is the same in
both states. -/
structure SameFile (st st' : State) (f : FdPtr) (k n : Nat) : Prop where
  size : (st.discos.inodes k).size = (st'.discos.inodes k).size
  cursor : (st.fileObject f).cursor = (st'.fileObject f).cursor
  bytes : ∀ pos, pos < n → fileByte st.discos k pos = fileByte st'.discos k pos

/-- A write that is not seamless leaves a zero between its ends. -/
theorem hole_of_not_seamless (hb : b ≠ []) (h : ¬ Seamless a.length b.length) {t : Nat}
    (ht : t ≤ b.length) :
    ∃ pos, pos < a.length + b.length ∧
      overlay (stageLoc (startBlock (a.length / 256)) (a.length % 256)) (bytesOf b)
        (bytesOf a) t pos = 0 := by
  have hn := List.length_pos_iff.mpr hb
  have ho : a.length % 256 < 256 := Nat.mod_lt _ (by omega)
  by_cases hcross : a.length % 256 ≠ 0 ∧ 256 < a.length % 256 + b.length
  · -- the start of the next block is skipped
    refine ⟨256 * (a.length / 256 + 1), by omega, ?_⟩
    rw [overlay_of_ne fun i _ e => ?_, bytesOf_beyond (by omega)]
    have := stageLoc_offset (m := startBlock (a.length / 256)) ho i
    rw [e] at this
    omega
  · -- all bytes go to earlier blocks
    have hq : 72 < a.length / 256 := by unfold Seamless at h; omega
    have hstart : startBlock (a.length / 256) < a.length / 256 := by
      unfold startBlock
      rw [if_neg (by omega)]
      omega
    refine ⟨a.length + b.length - 1, by omega, ?_⟩
    rw [overlay_of_ne fun i hi e => ?_, bytesOf_beyond (by omega)]
    rw [stageLoc_run (by omega)] at e
    omega

/-- A file with room for both strings after one write of `d`. -/
theorem holds_written (h : FreshFile st fd pid f k) (ho : Owned every st.discos) {M : Nat}
    (hM : M ≤ 4168) (hroom : blocksFor M ≤ st.discos.freeBlocks) (hd : d ≠ []) (h0 : 0 ∉ d)
    (hlen : d.length ≤ 256 * M) : Holds M (written st fd pid d) f k d :=
  ((holds_fresh h ho hM hroom).append h.toOpenFile hd h0 (by simp; omega) (seamless_zero _)
    (by simpa using hlen)).2

section
variable (h : FreshFile st fd pid f k) (ho : Owned every st.discos)
  (hroom : blocksFor ((a.length + b.length + 255) / 256) ≤ st.discos.freeBlocks)
  (ha : a ≠ []) (hb : b ≠ []) (h0a : 0 ∉ a) (h0b : 0 ∉ b)
  (hlen : a.length + b.length ≤ 1067008)
include h ho hroom ha hb h0a h0b hlen

theorem seamless_of_sameFile
    (hsame : SameFile (written (written st fd pid a) fd pid b) (written st fd pid (a ++ b)) f k
      (a.length + b.length)) : Seamless a.length b.length := by
  have h00 : 0 ∉ a ++ b := by simp [h0a, h0b]
  have hA := holds_written h ho (by omega) hroom ha h0a (by omega)
  have hAB := holds_written h ho (by omega) hroom (d := a ++ b) (by simp [ha]) h00
    (by rw [List.length_append]; omega)
  by_contra hns
  have hlt := List.length_pos_iff.mpr hb
  have hs : 72 ≤ a.length / 256 ∨
      (a.length % 256 ≠ 0 ∧ a.length / 256 ≠ 7 ∧ a.length / 256 ≠ 71) := by
    unfold Seamless at hns; omega
  obtain ⟨t, ht, hbytes⟩ := hA.skips (openFile_written h.toOpenFile ho _ _) hb h0b hlen hs
  obtain ⟨pos, hpos, hzero⟩ := hole_of_not_seamless hb hns ht
  have e := hsame.bytes pos hpos
  rw [hAB.fileByte h00 (by simpa using hlen) (by simpa using hpos)] at e
  have hz : byteAt (written (written st fd pid a) fd pid b).discos k pos = 0 :=
    (hbytes pos (by omega)).trans hzero
  rw [byteAt, e] at hz
  exact bytesOf_ne_zero h00 (by simpa using hpos) hz

theorem sameFile_of_seamless (hs : Seamless a.length b.length) :
    SameFile (written (written st fd pid a) fd pid b) (written st fd pid (a ++ b)) f k
      (a.length + b.length) := by
  have h00 : 0 ∉ a ++ b := by simp [h0a, h0b]
  have hA := holds_written h ho (by omega) hroom ha h0a (by omega)
  have hAB := holds_written h ho (by omega) hroom (d := a ++ b) (by simp [ha]) h00
    (by rw [List.length_append]; omega)
  have hB : Holds _ (written (written st fd pid a) fd pid b) f k (a ++ b) :=
    (hA.append (openFile_written h.toOpenFile ho _ _) hb h0b hlen hs (by omega)).2
  refine ⟨hB.size.trans hAB.size.symm, hB.cursor.trans hAB.cursor.symm, fun pos hpos => ?_⟩
  rw [hB.fileByte h00 (by simpa using hlen) (by simpa using hpos),
    hAB.fileByte h00 (by simpa using hlen) (by simpa using hpos)]

/-- The two ways of writing agree exactly when the second write is seamless. -/
theorem write_twice_iff :
    SameFile (written (written st fd pid a) fd pid b) (written st fd pid (a ++ b)) f k
      (a.length + b.length) ↔ Seamless a.length b.length :=
  ⟨seamless_of_sameFile h ho hroom ha hb h0a h0b hlen,
    sameFile_of_seamless h ho hroom ha hb h0a h0b hlen⟩

end

/-- The file `/a`, created and opened. -/
def opened : State := step oneFile (.open (render [nameA]) RW 5)

theorem opened_fresh : FreshFile opened 0 5 ⟨0, 0⟩ 1 where
  found := by decide +kernel
  inode := by decide +kernel
  usable := by decide +kernel
  status := by decide +kernel
  type := by decide +kernel
  access := by decide +kernel
  size := by decide +kernel
  pointers := by decide +kernel
  singleIndirect := by decide +kernel
  doubleIndirect := by decide +kernel
  cursor := by decide +kernel

theorem opened_owned : Owned every opened.discos :=
  wellNamed_owned ⟨_, _, .step (.step .start ⟨[nameA], rfl⟩) ⟨[nameA], rfl⟩⟩

theorem write_twice_iff_opened :
    SameFile (written (written opened 0 5 [97]) 0 5 [98]) (written opened 0 5 ([97] ++ [98]))
      ⟨0, 0⟩ 1 ([97].length + [98].length) ↔ Seamless [97].length [98].length :=
  write_twice_iff opened_fresh opened_owned (by decide +kernel) (by simp) (by simp) (by decide)
    (by decide) (by decide)

/-- After one byte, 256 more: position 256 is left out. -/
theorem not_sameFile_of_length (hb : b.length = 256) (h0 : 0 ∉ b) :
    ¬ SameFile (written (written opened 0 5 [97]) 0 5 b) (written opened 0 5 ([97] ++ b)) ⟨0, 0⟩ 1
      257 := by
  intro hsame
  rw [show 257 = ([97] : Str).length + b.length by rw [hb]; rfl] at hsame
  have hs := seamless_of_sameFile opened_fresh opened_owned (by rw [hb]; decide +kernel) (by simp)
    (by rintro rfl; simp at hb) (by simp) h0 (by rw [hb]; decide) hsame
  rw [hb] at hs
  simp [Seamless] at hs

theorem opened_not_sameFile :
    ¬ SameFile (written (written opened 0 5 [97]) 0 5 (List.replicate 256 98))
      (written opened 0 5 ([97] ++ List.replicate 256 98)) ⟨0, 0⟩ 1 257 :=
  not_sameFile_of_length List.length_replicate fun h => absurd (List.eq_of_mem_replicate h) (by decide)

end ToyOS.Ramdisk.Chunking
