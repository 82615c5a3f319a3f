import ToyOS.Ramdisk.ReadBack

/-! # Whole files

A string written into a fresh file in one call is found there, and a single read
from position 0 gives it back.
-/
namespace ToyOS.Ramdisk.RoundTrip
open ToyOS.Lib.Words ToyOS.Lib.CStrings
open ToyOS.Ramdisk.Image ToyOS.Ramdisk.Ownership ToyOS.Ramdisk.Components ToyOS.Ramdisk.Descriptors
open ToyOS.Ramdisk.Write ToyOS.Ramdisk.Files ToyOS.Ramdisk.Ranges ToyOS.Ramdisk.Opened
open ToyOS.Ramdisk.Contents ToyOS.Ramdisk.Chunking ToyOS.Ramdisk.ReadBack

variable {st : State} {fd pid : Int} {f : FdPtr} {k : Fin 1024} {d : Str}

/-- The string `d` has been written into the file `k` as a whole, by the call that
leaves `st'` and returns `r`. -/
structure Stored (st' : State) (r : Int) (f : FdPtr) (k : Fin 1024) (d : Str) : Prop where
  returns : r = d.length
  size : (st'.discos.inodes k).size = d.length
  cursor : (st'.fileObject f).cursor = d.length
  bytes : ∀ i (hi : i < d.length), fileByte st'.discos k i = some d[i]

/-- A file of any size the pointers allow takes 4234 blocks at most. -/
theorem blocksFor_le {M : Nat} (hM : M ≤ 4168) : blocksFor M ≤ 4234 := by
  have hdouble : (M - 72 + 63) / 64 ≤ 64 := by omega
  unfold blocksFor
  split <;> split <;> omega

section
variable (h : FreshFile st fd pid f k) (ho : Owned every st.discos)
  (hroom : 4234 ≤ st.discos.freeBlocks) (hd : d ≠ []) (h0 : 0 ∉ d)
include h ho hroom hd h0

theorem stored (hlen : d.length ≤ 1067008) :
    Stored (written st fd pid d) (rdWrite st fd pid (bytesOf d) d.length).2 f k d := by
  have hempty : Holds 4168 st f k [] :=
    holds_fresh h ho (Nat.le_refl _) ((blocksFor_le (Nat.le_refl _)).trans hroom)
  have happend := hempty.append h.toOpenFile hd h0 (by simpa using hlen) (seamless_zero _)
    (by simpa using hlen)
  obtain ⟨hret, hholds⟩ := happend
  rw [List.nil_append] at hholds
  refine ⟨hret, hholds.size, hholds.cursor, fun i hi => ?_⟩
  have hbyte := hholds.fileByte h0 hlen hi
  rw [bytesOf, List.getD_eq_getElem _ _ hi] at hbyte
  exact hbyte

theorem delivered (hlen : d.length ≤ 1067008) (addr : Bytes) :
    Delivers (written st fd pid d) fd pid addr d 0 d.length := by
  have hblocks : blocksFor ((d.length + 255) / 256) ≤ st.discos.freeBlocks :=
    (blocksFor_le (by omega)).trans hroom
  have hpos := List.length_pos_iff.mpr hd
  have hin : 0 + d.length ≤ d.length := by omega
  have hc := contains_written h ho hblocks hd h0 hlen
  exact (delivers_iff_fetch (usable_written h ho) hc hpos hin).mpr
    (fetch_seamless hc hpos hin (seamless_zero _))

/-- The round trip of a whole file. -/
theorem round_trip (hlen : d.length ≤ 1067008) (addr : Bytes) :
    Stored (written st fd pid d) (rdWrite st fd pid (bytesOf d) d.length).2 f k d ∧
      (d.length ≤ 1048576 → Delivers (written st fd pid d) fd pid addr d 0 d.length) :=
  ⟨stored h ho hroom hd h0 hlen, fun _ => delivered h ho hroom hd h0 hlen addr⟩

end

theorem round_trip_abc :
    Stored (written opened 0 5 [97, 98, 99])
        (rdWrite opened 0 5 (bytesOf [97, 98, 99]) ([97, 98, 99] : Str).length).2 ⟨0, 0⟩ 1 [97, 98, 99] ∧
      (([97, 98, 99] : Str).length ≤ 1048576 →
        Delivers (written opened 0 5 [97, 98, 99]) 0 5 (fun _ => 0) [97, 98, 99] 0
          ([97, 98, 99] : Str).length) :=
  round_trip opened_fresh opened_owned (by decide +kernel) (by simp) (by decide) (by decide) _

end ToyOS.Ramdisk.RoundTrip
