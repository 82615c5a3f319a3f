import ToyOS.Lib.Slices
import ToyOS.Ramdisk.Chunking
import ToyOS.Ramdisk.ReadBuffer

/-! # Reading a file of known content

`rd_read` runs through the blocks of a level, through each from the cursor's
offset on. What it fetches from a file that contains `d` are slices of `d`; they
are the bytes asked for exactly when the read is seamless, or by coincidence.
-/
namespace ToyOS.Ramdisk.ReadBack
open ToyOS.Lib.Words ToyOS.Lib.CStrings ToyOS.Lib.Gather ToyOS.Lib.Slices
open ToyOS.Ramdisk.Image ToyOS.Ramdisk.Places ToyOS.Ramdisk.Ownership ToyOS.Ramdisk.Descriptors
open ToyOS.Ramdisk.Read ToyOS.Ramdisk.Chunking
open ToyOS.Ramdisk.Files ToyOS.Ramdisk.Ranges ToyOS.Ramdisk.Opened ToyOS.Ramdisk.Tables
open ToyOS.Ramdisk.Fetching ToyOS.Ramdisk.ReadBuffer ToyOS.Ramdisk.Contents

variable {st : State} {fd pid : Int} {f : FdPtr} {addr : Bytes} {fs : FileSys} {k : Fin 1024}
variable {d : Str} {o m n b c : Nat}

/-- The file contains the string `d`, and zeros behind it. -/
structure Contains (fs : FileSys) (k : Fin 1024) (d : Str) : Prop where
  size : (fs.inodes k).size = d.length
  nonzero : 0 ∉ d
  fits : d.length ≤ 1067008
  bytes : ∀ pos, pos < 1067008 → byteAt fs k pos = bytesOf d pos

/-! ## The levels as slices -/

theorem nonzero_congr {bs bs' : Bytes} (h : ∀ j, o ≤ j → j < o + n → bs j = bs' j) :
    nonzero bs o n = nonzero bs' o n := by
  unfold nonzero
  rw [List.map_congr_left fun j hj => ?_]
  rw [List.mem_range'_1] at hj
  exact h j hj.1 hj.2

theorem nonzero_bytesOf (h0 : 0 ∉ d) (a : Nat) :
    nonzero (fun j => bytesOf d (a + j)) o n = (d.drop (a + o)).take n := by
  induction n generalizing o with
  | zero => simp [nonzero]
  | succ n ih =>
    have hrec := ih (o := o + 1)
    unfold nonzero at hrec ⊢
    rw [List.range'_succ, List.map_cons]
    by_cases hlt : a + o < d.length
    · rw [List.filter_cons_of_pos (by simpa using bytesOf_ne_zero h0 hlt), hrec,
        List.drop_eq_getElem_cons hlt, List.take_succ_cons]
      congr 1
      exact List.getD_eq_getElem _ _ hlt
    · rw [List.filter_cons_of_neg (by simpa using bytesOf_beyond (Nat.le_of_not_lt hlt)), hrec,
        List.drop_eq_nil_of_le (by omega), List.drop_eq_nil_of_le (by omega), List.take_nil,
        List.take_nil]

/-- What block `m` of the file gives, from offset `o` on. -/
def chunk (fs : FileSys) (k o m : Nat) : List UInt8 := bytesAt fs o (ref fs (leafOf k m))

theorem Contains.chunk_eq (h : Contains fs k d) (hm : m < 4168) (ho : o < 256) :
    chunk fs k o m = row 256 o d m := by
  unfold chunk bytesAt row
  rw [← nonzero_bytesOf h.nonzero]
  split
  · rename_i hnull
    have hzero : Fetching.nonzero (fun j => bytesOf d (256 * m + j)) o (256 - o) =
        Fetching.nonzero (fun _ => 0) o (256 - o) := by
      refine nonzero_congr fun j _ hj => ?_
      rw [← h.bytes _ (by omega)]
      exact byteAt_missing (by rwa [show (256 * m + j) / 256 = m by omega])
    rw [hzero]
    simp [Fetching.nonzero]
  · rename_i hnull
    refine nonzero_congr fun j _ hj => ?_
    have hblock : (256 * m + j) / 256 = m := by omega
    rw [← h.bytes _ (by omega), byteAt_present (by rwa [hblock]), hblock,
      show (256 * m + j) % 256 = j by omega]

theorem Contains.flatten_eq (h : Contains fs k d) (hb : b + n ≤ 4168) (ho : o < 256) :
    ((List.range' b n).map (chunk fs k o)).flatten = slices 256 o d b n := by
  unfold slices
  rw [List.map_congr_left fun m hm => ?_]
  rw [List.mem_range'_1] at hm
  exact h.chunk_eq (by omega) ho

theorem chunk_null (h : ref fs (leafOf k m) = 0) : chunk fs k o m = [] := if_pos h

theorem flatten_null (h : ∀ m, b ≤ m → m < b + n → ref fs (leafOf k m) = 0) :
    ((List.range' b n).map (chunk fs k o)).flatten = [] := by
  refine List.flatten_eq_nil_iff.mpr fun l hl => ?_
  obtain ⟨m, hm, rfl⟩ := List.mem_map.mp hl
  rw [List.mem_range'_1] at hm
  exact chunk_null (h m hm.1 hm.2)

theorem directChunks_flatten (h : Contains fs k d) :
    (directChunks fs k c).flatten = slices 256 (c % 256) d (c / 256) (8 - c / 256) := by
  by_cases h8 : c / 256 < 8
  · rw [← h.flatten_eq (by omega) (Nat.mod_lt _ (by decide))]
    unfold directChunks chunks
    rw [List.map_congr_left fun m hm => ?_]
    rw [List.mem_range'_1] at hm
    rw [chunk, leafOf_direct (by omega)]
    rfl
  · rw [show 8 - c / 256 = 0 by omega]
    unfold directChunks chunks
    rw [show 8 - c / 256 = 0 by omega]
    rfl

/-- The chunks below an index block, as chunks of the file. -/
theorem chunks_index {p a r : Nat} (h : ∀ i, a ≤ i → i < a + n →
    ref fs (leafOf k (r + i)) = fs.ptrAt (.indexBlock (blockOf p) i)) :
    chunks fs o (.indexBlock (blockOf p)) a n = (List.range' (r + a) n).map (chunk fs k o) := by
  rw [← List.map_add_range', List.map_map]
  unfold chunks
  refine List.map_congr_left fun i hi => ?_
  rw [List.mem_range'_1] at hi
  rw [Function.comp, chunk, h i hi.1 hi.2]

theorem ref_single {i : Nat} (hi : i < 64) :
    ref fs (leafOf k (8 + i)) = under fs (fs.ptrAt (.singleIndirect k)) i := by
  rw [leafOf_single hi]
  rfl

theorem ref_double {i j : Nat} (hj : j < 64) :
    ref fs (leafOf k (72 + 64 * i + j)) = under fs (under fs (fs.ptrAt (.doubleIndirect k)) i) j := by
  rw [leafOf_double hj]
  rfl

theorem singleChunks_flatten (h : Contains fs k d) (h8 : 8 ≤ c / 256) (h72 : c / 256 < 72) :
    (singleChunks fs k c).flatten = slices 256 (c % 256) d (c / 256) (72 - c / 256) := by
  rw [← h.flatten_eq (by omega) (Nat.mod_lt _ (by decide))]
  unfold singleChunks
  dsimp only
  by_cases hp : fs.ptrAt (.singleIndirect k) = 0
  · rw [if_pos hp, flatten_null fun m hm hlt => ?_]
    · rfl
    · rw [show m = 8 + (m - 8) by omega, ref_single (by omega), under, if_pos hp]
  · rw [if_neg hp, chunks_index (k := k) (r := 8) fun i hi hlt => ?_]
    · rw [show 8 + (c / 256 - 8) = c / 256 by omega, show 64 - (c / 256 - 8) = 72 - c / 256 by omega]
    · rw [ref_single (by omega), under, if_neg hp]

/-- Index blocks from the `i`-th on, when `seg` has become the number of a block. -/
theorem indexChunks_flatten {i seg : Nat} (hd : fs.ptrAt (.doubleIndirect k) ≠ 0) (hseg : seg < 64) :
    (indexChunks fs o (blockOf (fs.ptrAt (.doubleIndirect k))) i n seg).flatten =
      ((List.range' (72 + 64 * i) (64 * n)).map (chunk fs k o)).flatten := by
  induction n generalizing i seg with
  | zero => rfl
  | succ n ih =>
    have hsplit : List.range' (72 + 64 * i) (64 * (n + 1)) =
        List.range' (72 + 64 * i) 64 ++ List.range' (72 + 64 * (i + 1)) (64 * n) := by
      rw [show 72 + 64 * (i + 1) = 72 + 64 * i + 64 by omega, List.range'_append_1,
        show 64 * (n + 1) = 64 + 64 * n by omega]
    have hindex : under fs (fs.ptrAt (.doubleIndirect k)) i =
        fs.ptrAt (.indexBlock (blockOf (fs.ptrAt (.doubleIndirect k))) i) := if_neg hd
    rw [hsplit, List.map_append, List.flatten_append, indexChunks]
    by_cases hp : fs.ptrAt (.indexBlock (blockOf (fs.ptrAt (.doubleIndirect k))) i) = 0
    · have hnone : ((List.range' (72 + 64 * i) 64).map (chunk fs k o)).flatten = [] := by
        refine flatten_null fun m hm hlt => ?_
        rw [show m = 72 + 64 * i + (m - (72 + 64 * i)) by omega, ref_double (by omega), hindex, hp]
        rfl
      rw [if_pos hp, ih hseg, hnone, List.nil_append]
    · rw [if_neg hp, Nat.div_eq_of_lt hseg, List.flatten_append, ih (by decide),
        chunks_index (k := k) (r := 72 + 64 * i) fun j _ hj => ?_]
      · rfl
      · rw [ref_double (by omega), hindex, under, if_neg hp]

/-- The double-indirect level begins in block `seg / 64` of its first index block. -/
theorem doubleChunks_flatten (h : Contains fs k d) (h72 : 72 ≤ c / 256) (h4168 : c / 256 < 4168)
    (hc : c < d.length) : (doubleChunks fs k c).flatten =
      slices 256 (c % 256) d (startBlock (c / 256)) (4168 - startBlock (c / 256)) := by
  have hstart : startBlock (c / 256) = 72 + (c / 256 - 8 - 64) / 64 := by
    rw [startBlock, if_neg (by omega), Nat.sub_sub]
  have hseg : (c / 256 - 8 - 64) / 64 < 64 := by omega
  have hbyte : byteAt fs k 18432 ≠ 0 := by
    rw [h.bytes _ (by decide)]
    exact bytesOf_ne_zero h.nonzero (by omega)
  have hfirst : under fs (under fs (fs.ptrAt (.doubleIndirect k)) 0) 0 ≠ 0 := by
    rw [← ref_double (k := k) (by decide)]
    exact fun hnull => hbyte (byteAt_missing hnull)
  have hd : fs.ptrAt (.doubleIndirect k) ≠ 0 := fun e => hfirst (by rw [e]; rfl)
  have hindex : under fs (fs.ptrAt (.doubleIndirect k)) 0 =
      fs.ptrAt (.indexBlock (blockOf (fs.ptrAt (.doubleIndirect k))) 0) := if_neg hd
  have hp : fs.ptrAt (.indexBlock (blockOf (fs.ptrAt (.doubleIndirect k))) 0) ≠ 0 :=
    fun e => hfirst (by rw [hindex, e]; rfl)
  rw [hstart, ← h.flatten_eq (by omega) (Nat.mod_lt _ (by decide))]
  unfold doubleChunks
  dsimp only
  rw [if_neg hd, show 64 = 63 + 1 from rfl, indexChunks, if_neg hp, List.flatten_append,
    indexChunks_flatten hd hseg, chunks_index (k := k) (r := 72) fun j _ hj => ?_]
  · generalize (c / 256 - 8 - 64) / 64 = a at hseg ⊢
    rw [← List.flatten_append, ← List.map_append, show 72 + 64 * (0 + 1) = 72 + a + (64 - a) by omega,
      List.range'_append_1, show 64 - a + 64 * 63 = 4168 - (72 + a) by omega]
  · have hleaf : ref fs (leafOf k (72 + 64 * 0 + j)) = under fs (under fs (fs.ptrAt (.doubleIndirect k)) 0) j :=
      ref_double (by omega)
    rw [hindex, under, if_neg hp] at hleaf
    exact hleaf

/-! ## Seamless reads -/

theorem gather_take {ms : List (List UInt8)} {l : List UInt8} (h : l.length < m) :
    gather m ms l = l ++ ms.flatten.take (m - l.length) := by
  rw [gather_of_lt (by omega), upTo, if_pos (by omega),
    show ((m : Int) - l.length).toNat = m - l.length by omega]

/-- A level that a read goes through without leaving out a byte, up to the level's
end before block `e`. -/
theorem gather_run {ms : List (List UInt8)} {j e : Nat} (hj : j < m) (hcm : c + m ≤ d.length)
    (he : (c + j) / 256 < e)
    (hms : ms.flatten = slices 256 ((c + j) % 256) d ((c + j) / 256) (e - (c + j) / 256))
    (hrun : (c + j) % 256 = 0 ∨ e ≤ (c + j) / 256 + 1 ∨ (c + j) % 256 + (m - j) ≤ 256) :
    gather m ms ((d.drop c).take j) = (d.drop c).take (min m (256 * e - c)) := by
  have hlen : ((d.drop c).take j).length = j := by
    rw [List.length_take, List.length_drop]
    omega
  have hpos : 256 * ((c + j) / 256) + (c + j) % 256 = c + j := Nat.div_add_mod _ _
  have hslices : (slices 256 ((c + j) % 256) d ((c + j) / 256) (e - (c + j) / 256)).take (m - j) =
      (d.drop (c + j)).take (min (m - j) (256 * e - (c + j))) := by
    by_cases hrow : (c + j) % 256 = 0 ∨ e ≤ (c + j) / 256 + 1
    · rw [slices_run (hrow.imp_right fun h => by omega), hpos, List.take_take]
      congr 2
      omega
    · have hin : (c + j) % 256 + (m - j) ≤ 256 := by
        rcases hrun with h | h | h
        · exact absurd (.inl h) hrow
        · exact absurd (.inr h) hrow
        · exact h
      rw [take_slices (by omega) hin (by omega), hpos, Nat.min_eq_left (by omega)]
  rw [gather_take (by omega), hlen, hms, hslices, show min m (256 * e - c) =
    j + min (m - j) (256 * e - (c + j)) by omega, List.take_add, List.drop_drop]

theorem fetch_seamless (h : Contains fs k d) (hm : 0 < m) (hcm : c + m ≤ d.length)
    (hs : Seamless c m) : fetch fs k m c = (d.drop c).take m := by
  have hfits := h.fits
  have hlen : ∀ j, j ≤ m → ((d.drop c).take j).length = j := fun j hj => by
    rw [List.length_take, List.length_drop]
    omega
  -- after the direct blocks: all bytes, none, or those up to block 8
  obtain ⟨j₁, hj₁, e₁, hnext₁⟩ : ∃ j, j ≤ m ∧ fetchDirect fs k m c = (d.drop c).take j ∧
      (j < m → 2048 ≤ c + j ∧ (j = 0 ∨ c + j = 2048)) := by
    unfold fetchDirect
    by_cases h8 : c / 256 < 8
    · refine ⟨min m (256 * 8 - c), Nat.min_le_left _ _, ?_, by omega⟩
      exact gather_run (j := 0) hm hcm h8 (directChunks_flatten h) (by unfold Seamless at hs; omega)
    · refine ⟨0, Nat.zero_le _, ?_, by omega⟩
      rw [gather_take (by simpa using hm), directChunks_flatten h, show 8 - c / 256 = 0 by omega,
        slices_zero, List.take_nil, List.take_zero]
      rfl
  obtain ⟨j₂, hj₂, e₂, hnext₂⟩ : ∃ j, j ≤ m ∧
      fetchSingle fs k m c (fetchDirect fs k m c) = (d.drop c).take j ∧
      (j < m → 18432 ≤ c + j ∧ (j = 0 ∨ c + j = 18432)) := by
    unfold fetchSingle
    dsimp only
    rw [e₁, hlen j₁ hj₁, advance_eq (by omega)]
    by_cases hin : (j₁ : Int) < m ∧ 8 ≤ (c + j₁) / 256 ∧ (c + j₁) / 256 < 72
    · rw [if_pos hin]
      have hlt : j₁ < m := by omega
      refine ⟨min m (256 * 72 - c), Nat.min_le_left _ _, ?_, by omega⟩
      exact gather_run hlt hcm hin.2.2 (singleChunks_flatten h hin.2.1 hin.2.2)
        (by unfold Seamless at hs; omega)
    · rw [if_neg hin]
      exact ⟨j₁, hj₁, rfl, by omega⟩
  unfold fetch fetchDouble
  dsimp only
  rw [e₂, hlen j₂ hj₂, advance_eq (by omega)]
  by_cases hin : (j₂ : Int) < m ∧ 72 ≤ (c + j₂) / 256 ∧ (c + j₂) / 256 < 4168
  · have hlt : j₂ < m := by omega
    have hblock : (c + j₂) / 256 = 72 := by unfold Seamless at hs; omega
    have hstart : startBlock ((c + j₂) / 256) = (c + j₂) / 256 := by
      rw [hblock]
      rfl
    have hms := doubleChunks_flatten h hin.2.1 hin.2.2 (by omega)
    rw [hstart] at hms
    rw [if_pos hin, gather_run hlt hcm hin.2.2 hms (by unfold Seamless at hs; omega)]
    congr 1
    omega
  · rw [if_neg hin]
    congr 1
    omega

/-! ## All other reads -/

/-- Where the level of block `q` ends. -/
def levelEnd (q : Nat) : Nat := if q < 8 then 8 else if q < 72 then 72 else 4168

/-- Any other read stays inside the level it begins in. -/
theorem fetch_skips (h : Contains fs k d) (hm : 0 < m) (hcm : c + m ≤ d.length)
    (hs : ¬ Seamless c m) : fetch fs k m c =
      (slices 256 (c % 256) d (startBlock (c / 256)) (levelEnd (c / 256) - startBlock (c / 256))).take m := by
  have hfits := h.fits
  have ho : c % 256 < 256 := Nat.mod_lt _ (by decide)
  -- a level before its last block and behind an offset is too short to be left
  have hshort : ∀ e n, c / 256 + n = e → 1 < n → c % 256 ≠ 0 →
      c + (slices 256 (c % 256) d (c / 256) n).length < 256 * e := by
    intro e n hn h1 h0
    have hle := length_slices_le (s := 256) (o := c % 256) (d := d) (b := c / 256) (n := n)
    have hprod : 1 * (c % 256) < n * (c % 256) := Nat.mul_lt_mul_of_pos_right h1 (by omega)
    rw [Nat.mul_sub] at hle
    omega
  have hdirect : fetchDirect fs k m c = (slices 256 (c % 256) d (c / 256) (8 - c / 256)).take m := by
    unfold fetchDirect
    rw [gather_take (by simpa using hm), directChunks_flatten h]
    rfl
  by_cases h8 : c / 256 < 8
  · have hlt := hshort 8 (8 - c / 256) (by omega) (by unfold Seamless at hs; omega)
      (by unfold Seamless at hs; omega)
    have hle : (fetchDirect fs k m c).length ≤ (slices 256 (c % 256) d (c / 256) (8 - c / 256)).length := by
      rw [hdirect]
      exact List.length_take_le' _ _
    have hadv : advance c (fetchDirect fs k m c).length / 256 < 8 := by
      rw [advance_eq (by omega)]
      omega
    have hsingle : fetchSingle fs k m c (fetchDirect fs k m c) = fetchDirect fs k m c :=
      if_neg fun hin => Nat.not_le.mpr hadv hin.2.1
    have hdouble : fetchDouble fs k m c (fetchDirect fs k m c) = fetchDirect fs k m c :=
      if_neg fun hin => Nat.not_le.mpr hadv ((by decide : 8 ≤ 72).trans hin.2.1)
    unfold fetch levelEnd startBlock
    rw [hsingle, hdouble, if_pos h8, if_pos (by omega), hdirect]
  · have hnil : fetchDirect fs k m c = [] := by
      rw [hdirect, show 8 - c / 256 = 0 by omega, slices_zero, List.take_nil]
    by_cases h72 : c / 256 < 72
    · have hlt := hshort 72 (72 - c / 256) (by omega) (by unfold Seamless at hs; omega)
        (by unfold Seamless at hs; omega)
      have hsingle : fetchSingle fs k m c [] =
          (slices 256 (c % 256) d (c / 256) (72 - c / 256)).take m := by
        unfold fetchSingle
        dsimp only
        rw [if_pos ⟨by simpa using hm, by show 8 ≤ c / 256; omega, h72⟩, gather_take (by simpa using hm)]
        rw [show advance c ([] : List UInt8).length = c from rfl, singleChunks_flatten h (by omega) h72]
        rfl
      have hle : (fetchSingle fs k m c []).length ≤
          (slices 256 (c % 256) d (c / 256) (72 - c / 256)).length := by
        rw [hsingle]
        exact List.length_take_le' _ _
      have hadv : advance c (fetchSingle fs k m c []).length / 256 < 72 := by
        rw [advance_eq (by omega)]
        omega
      have hdouble : fetchDouble fs k m c (fetchSingle fs k m c []) = fetchSingle fs k m c [] :=
        if_neg fun hin => Nat.not_le.mpr hadv hin.2.1
      unfold fetch levelEnd startBlock
      rw [hnil, hdouble, if_neg h8, if_pos h72, if_pos h72, hsingle]
    · have hsingle : fetchSingle fs k m c [] = [] := if_neg fun hin => h72 hin.2.2
      unfold fetch fetchDouble levelEnd
      dsimp only
      rw [hnil, hsingle, show advance c ([] : List UInt8).length = c from rfl,
        if_pos ⟨by simpa using hm, by omega, by omega⟩, gather_take (by simpa using hm),
        doubleChunks_flatten h (by omega) (by omega) (by omega), if_neg h8, if_neg h72]
      rfl

/-- The bytes a read comes to are those asked for: `m` of them lie in the level and in
the file, and they happen to be the same. -/
def Coincides (d : Str) (c m : Nat) : Prop :=
  ∀ i, i < m → stageLoc (startBlock (c / 256)) (c % 256) i < 256 * levelEnd (c / 256) ∧
    d[stageLoc (startBlock (c / 256)) (c % 256) i]? = d[c + i]?

theorem fetch_iff (h : Contains fs k d) (hm : 0 < m) (hcm : c + m ≤ d.length) :
    fetch fs k m c = (d.drop c).take m ↔ Seamless c m ∨ Coincides d c m := by
  by_cases hs : Seamless c m
  · exact iff_of_true (fetch_seamless h hm hcm hs) (.inl hs)
  · rw [or_iff_right hs, fetch_skips h hm hcm hs]
    have hfits := h.fits
    have ho : c % 256 < 256 := Nat.mod_lt _ (by decide)
    have hin : ∀ i, i / (256 - c % 256) < levelEnd (c / 256) - startBlock (c / 256) ↔
        stageLoc (startBlock (c / 256)) (c % 256) i < 256 * levelEnd (c / 256) := fun i => by
      have hmod : i % (256 - c % 256) < 256 - c % 256 := Nat.mod_lt _ (by omega)
      unfold stageLoc
      generalize i / (256 - c % 256) = a
      omega
    have hget : ∀ i, (slices 256 (c % 256) d (startBlock (c / 256))
        (levelEnd (c / 256) - startBlock (c / 256)))[i]? =
        if stageLoc (startBlock (c / 256)) (c % 256) i < 256 * levelEnd (c / 256) then
          d[stageLoc (startBlock (c / 256)) (c % 256) i]? else none := fun i => by
      rw [getElem?_slices ho]
      exact if_congr (hin i) rfl rfl
    constructor
    · intro e i hi
      have hi' := congrArg (·[i]?) e
      rw [List.getElem?_take_of_lt hi, List.getElem?_take_of_lt hi, List.getElem?_drop, hget] at hi'
      split at hi'
      · exact ⟨by assumption, hi'⟩
      · rw [List.getElem?_eq_getElem (by omega)] at hi'
        cases hi'
    · intro hsame
      refine List.ext_getElem? fun i => ?_
      by_cases hi : i < m
      · obtain ⟨hlt, e⟩ := hsame i hi
        rw [List.getElem?_take_of_lt hi, List.getElem?_take_of_lt hi, List.getElem?_drop, hget, if_pos hlt, e]
      · rw [List.getElem?_eq_none ((List.length_take_le _ _).trans (Nat.le_of_not_lt hi)),
          List.getElem?_eq_none ((List.length_take_le _ _).trans (Nat.le_of_not_lt hi))]

/-! ## What the caller gets -/

/-- `rd_lseek` to `c` and `rd_read` of `m` bytes return `m` and put the bytes from `c` on
into the caller's memory. -/
def Delivers (st : State) (fd pid : Int) (addr : Bytes) (d : Str) (c m : Nat) : Prop :=
  let r := rdRead (rdLseek st fd c pid).1 fd addr m pid
  r.2.1 = m ∧ ∀ i, r.2.2 i = if i < m then bytesOf d (c + i) else addr i

theorem lseek_inside (hu : Usable st fd pid f k) (hc : c < (st.discos.inodes k).size)
    (hs : (st.discos.inodes k).size ≤ 2 ^ 32) :
    rdLseek st fd c pid = (st.setFileObject f { st.fileObject f with cursor := c }, (c : Int)) := by
  have e : toU32 c = c := toU32_natCast (by omega)
  unfold rdLseek
  rw [usableFile_eq_some.mpr hu]
  dsimp only
  rw [if_neg (by omega), e, if_neg (by omega)]

theorem delivers_iff_fetch (hu : Usable st fd pid f k) (h : Contains st.discos k d) (hm : 0 < m)
    (hcm : c + m ≤ d.length) :
    Delivers st fd pid addr d c m ↔ fetch st.discos k m c = (d.drop c).take m := by
  have hfits := h.fits
  have hsize := h.size
  have hr : Readable (st.setFileObject f { st.fileObject f with cursor := c }) fd m pid f k := by
    refine ⟨usable_moved hu c, ?_⟩
    rw [fileObject_set_self]
    show toU32 m ≤ u32Sub (st.discos.inodes k).size c
    rw [u32Sub_of_le (by omega) (by omega), toU32_natCast (by omega)]
    omega
  have hfetched : fetched (st.setFileObject f { st.fileObject f with cursor := c }) f k m =
      fetch st.discos k m c := by
    unfold fetched
    rw [fileObject_set_self]
    rfl
  have hwant : ∀ i, i < m → ((d.drop c).take m)[i]? = some (bytesOf d (c + i)) := fun i hi => by
    rw [List.getElem?_take_of_lt hi, List.getElem?_drop, List.getElem?_eq_getElem (by omega)]
    exact congrArg some (List.getD_eq_getElem _ _ _).symm
  have hlen : ((d.drop c).take m).length = m := by
    rw [List.length_take, List.length_drop]
    omega
  unfold Delivers
  rw [lseek_inside hu (by omega) (by omega)]
  dsimp only
  rw [hr.returns, hfetched]
  constructor
  · intro hd
    obtain ⟨hcount, hbytes⟩ := hd
    have hcount' : (fetch st.discos k m c).length = m := by omega
    refine List.ext_getElem? fun i => ?_
    by_cases hi : i < m
    · have hb := hbytes i
      rw [hr.delivers, hfetched, if_pos (by omega), if_pos hi, List.getElem?_eq_getElem (by omega)] at hb
      rw [hwant i hi, List.getElem?_eq_getElem (by omega)]
      exact congrArg some hb
    · rw [List.getElem?_eq_none (by omega), List.getElem?_eq_none (by omega)]
  · intro e
    refine ⟨by rw [e, hlen], fun i => ?_⟩
    rw [hr.delivers, hfetched, e]
    by_cases hi : i < m
    · rw [if_pos (by omega), if_pos hi, hwant i hi]
      rfl
    · rw [if_neg (by omega), if_neg hi]

/-- A file that contains `d` gives back any part of it that is read seamlessly, and
of the other parts those that coincide with what the read comes to. -/
theorem read_back_iff (hu : Usable st fd pid f k) (h : Contains st.discos k d) (hm : 0 < m)
    (_hmax : m ≤ 1048576) (hcm : c + m ≤ d.length) (addr : Bytes) :
    Delivers st fd pid addr d c m ↔ Seamless c m ∨ Coincides d c m :=
  (delivers_iff_fetch hu h hm hcm).trans (fetch_iff h hm hcm)

/-! ## After one write -/

theorem usable_of_open (h : OpenFile st fd pid f k) : Usable st fd pid f k :=
  usableFile_eq_some.mp h.usableFile

/-- One `rd_write` makes a fresh file contain its string. -/
theorem contains_written (h : FreshFile st fd pid f k) (ho : Owned every st.discos)
    (hroom : blocksFor ((d.length + 255) / 256) ≤ st.discos.freeBlocks) (hd : d ≠ []) (h0 : 0 ∉ d)
    (hlen : d.length ≤ 1067008) : Contains (written st fd pid d).discos k d := by
  have hw := holds_written h ho (by omega) hroom hd h0 (by omega)
  exact ⟨hw.size, h0, hlen, hw.bytes⟩

theorem usable_written (h : FreshFile st fd pid f k) (ho : Owned every st.discos) :
    Usable (written st fd pid d) fd pid f k :=
  usable_of_open (openFile_written h.toOpenFile ho _ _)

theorem read_back_iff_abc : Delivers (written opened 0 5 [97, 98, 99]) 0 5 (fun _ => 0) [97, 98, 99] 1 2 ↔
    Seamless 1 2 ∨ Coincides [97, 98, 99] 1 2 :=
  read_back_iff (usable_written opened_fresh opened_owned)
    (contains_written opened_fresh opened_owned (by decide +kernel) (by simp) (by decide) (by decide))
    (by decide) (by decide) (by decide) _

/-- A read of 256 bytes from position 1 on leaves out position 256 for position 257. -/
theorem not_delivers_of_ne (hu : Usable st fd pid f k) (h : Contains st.discos k d)
    (hlen : 257 ≤ d.length) (hne : d[257]? ≠ d[256]?) : ¬ Delivers st fd pid addr d 1 256 := by
  intro hd
  have hfetch := (delivers_iff_fetch hu h (by decide) hlen).mp hd
  rcases (fetch_iff h (by decide) hlen).mp hfetch with hs | hs
  · simp [Seamless] at hs
  · exact hne (hs 255 (by decide)).2

/-- The next byte is taken for the first byte of block 1. -/
theorem opened_skips {a : Str} (ha : a.length = 256) (h0 : 0 ∉ a) :
    ¬ Delivers (written opened 0 5 (a ++ [98, 97])) 0 5 (fun _ => 0) (a ++ [98, 97]) 1 256 := by
  have hlen : (a ++ [98, 97]).length = 258 := by
    rw [List.length_append, ha]
    rfl
  have h00 : 0 ∉ a ++ [98, 97] := by simpa using h0
  refine not_delivers_of_ne (usable_written opened_fresh opened_owned)
    (contains_written opened_fresh opened_owned ?_ (by simp) h00 (by omega)) (by omega) ?_
  · rw [hlen]
    decide +kernel
  · rw [List.getElem?_append_right (by omega), List.getElem?_append_right (by omega), ha]
    decide

theorem opened_not_read_back :
    ¬ Delivers (written opened 0 5 (List.replicate 256 97 ++ [98, 97])) 0 5 (fun _ => 0)
      (List.replicate 256 97 ++ [98, 97]) 1 256 :=
  opened_skips List.length_replicate fun h => absurd (List.eq_of_mem_replicate h) (by decide)

end ToyOS.Ramdisk.ReadBack
