import Mathlib.Data.Nat.ModEq
import ToyOS.Ramdisk.Files
import ToyOS.Ramdisk.Writing
import ToyOS.Ramdisk.Opened
import ToyOS.Ramdisk.BlockOwnership

/-! # Overwriting a part of a file

Every byte `rd_write` stores adds 1 to the size, wherever it goes, so a write
inside the file never leaves the size as it is.
-/
namespace ToyOS.Ramdisk.Overwriting
open ToyOS.Lib.Loop ToyOS.Lib.Words ToyOS.Lib.CStrings ToyOS.Lib.Runs
open ToyOS.Ramdisk.Image ToyOS.Ramdisk.Blocks ToyOS.Ramdisk.Places ToyOS.Ramdisk.Components
open ToyOS.Ramdisk.Descriptors ToyOS.Ramdisk.Write ToyOS.Ramdisk.Files ToyOS.Ramdisk.Opened
open ToyOS.Ramdisk.Writing ToyOS.Ramdisk.System ToyOS.Ramdisk.BlockOwnership

variable {k : Nat} {data : Bytes} {n : Int} {w : Writer}

/-! ## Size and cursor move together -/

/-- From size `s` and cursor `c` on, both have moved by the same amount. -/
def InStep (k s c : Nat) (w : Writer) : Prop := (w.fs.inodes k).size + c ≡ s + w.cursor [MOD 2 ^ 32]

theorem ensureBlock_size {fs fs' : FileSys} {slot : PtrSlot} (h : ensureBlock fs slot = some fs') :
    (fs'.inodes k).size = (fs.inodes k).size := by
  unfold ensureBlock at h
  split at h
  · obtain ⟨⟨fs₁, b⟩, ht, rfl⟩ := Option.map_eq_some_iff.mp h
    obtain ⟨b', -, e⟩ := Option.map_eq_some_iff.mp ht
    obtain ⟨rfl, rfl⟩ := Prod.mk.inj e
    exact setPtr_size _ _ _ _
  · cases h; rfl

theorem inStep_kept (k s c : Nat) (data : Bytes) : Kept k data (InStep k s c) where
  ensure w slot fs' hw he := by
    unfold InStep at *
    rwa [ensureBlock_size he]
  put w b j hw _ := by
    have h1 : u32 ((w.fs.inodes k).size + 1) ≡ (w.fs.inodes k).size + 1 [MOD 2 ^ 32] := by
      unfold u32; exact Nat.mod_modEq _ _
    have h2 : u32 (w.cursor + 1) ≡ w.cursor + 1 [MOD 2 ^ 32] := by
      unfold u32; exact Nat.mod_modEq _ _
    simp only [InStep, putByte, setInode_inodes_self, setBlock_inodes, Nat.ModEq] at *
    omega

/-! ## The result -/

/-- Writing `e` at position `c` of file `k` between the two states is an
overwrite in place. -/
structure InPlace (st st' : State) (f : FdPtr) (k c : Nat) (e : Str) : Prop where
  size : (st'.discos.inodes k).size = (st.discos.inodes k).size
  cursor : (st'.fileObject f).cursor = c + e.length
  stored : ∀ i (h : i < e.length), fileByte st'.discos k (c + i) = some e[i]
  kept : ∀ pos, pos < (st.discos.inodes k).size → pos < c ∨ c + e.length ≤ pos →
    fileByte st'.discos k pos = fileByte st.discos k pos

/-- No write inside a file is an overwrite in place. -/
theorem not_inPlace {st : State} {fd pid : Int} {f : FdPtr} {k : Fin 1024}
    (h : OpenFile st fd pid f k) {c : Nat} {e : Str} (he : e ≠ [])
    (hc : c + e.length ≤ (st.discos.inodes k).size)
    (hs : (st.discos.inodes k).size ≤ 1067008) :
    ¬ InPlace st (rdWrite (rdLseek st fd c pid).1 fd pid (bytesOf e) e.length).1 f k c e := by
  have hpos : 0 < e.length := List.length_pos_iff.mpr he
  intro hin
  rw [h.lseek (by omega) (by omega)] at hin
  have ho := h.moved c rfl rfl rfl
  have hkept := (inStep_kept k (st.discos.inodes k).size c (bytesOf e)).writeStages
    (n := e.length) (w := ⟨st.discos, c, 0, 0⟩) (fun _ _ => id) rfl
  have hw := ho.write (bytesOf e) e.length
  rw [fileObject_set_self] at hw
  have hsize := hin.size
  have hcursor := hin.cursor
  rw [hw, fileObject_set_self] at hcursor
  rw [hw] at hsize
  unfold InStep at hkept
  dsimp only [State.setFileObject] at hsize hcursor hkept
  rw [hsize, hcursor, Nat.ModEq] at hkept
  omega

/-- A fresh file system with the file `/a`, written `abc` through descriptor 0. -/
def abcFile : State :=
  step (step oneFile (.open (render [nameA]) RW 5)) (.write 0 5 (bytesOf [97, 98, 99]) 3)

theorem abcFile_open : OpenFile abcFile 0 5 ⟨0, 0⟩ 1 where
  found := by decide +kernel
  inode := by decide +kernel
  usable := by decide +kernel
  status := by decide +kernel
  type := by decide +kernel
  access := by decide +kernel

theorem not_inPlace_abcFile : ¬ InPlace abcFile
    (rdWrite (rdLseek abcFile 0 (1 : Nat) 5).1 0 5 (bytesOf [88]) 1).1 ⟨0, 0⟩ 1 1 [88] :=
  not_inPlace abcFile_open (by simp) (by decide +kernel) (by decide +kernel)

/-- Writing `X` over the `b` of `abc` leaves four bytes, the last of them 0. -/
theorem abcFile_grows : (abcFile.discos.inodes 1).size = 3 ∧
    [0, 1, 2].map (fileByte abcFile.discos 1) = [some 97, some 98, some 99] ∧
    ((rdWrite (rdLseek abcFile 0 1 5).1 0 5 (bytesOf [88]) 1).1.discos.inodes 1).size = 4 ∧
    [0, 1, 2, 3].map (fileByte (rdWrite (rdLseek abcFile 0 1 5).1 0 5 (bytesOf [88]) 1).1.discos 1) =
      [some 97, some 88, some 99, some 0] := by
  decide +kernel

end ToyOS.Ramdisk.Overwriting
