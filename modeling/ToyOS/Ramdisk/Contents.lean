import ToyOS.Ramdisk.Opened
import ToyOS.Ramdisk.Storing

/-! # Files with a given content

`Holds d` is an open file that contains the string `d`, with the cursor at its
end and room for its first `M` blocks. A seamless write appends to the content,
any other write leaves holes in it.
-/
namespace ToyOS.Ramdisk.Contents
open ToyOS.Lib.Loop ToyOS.Lib.Words ToyOS.Lib.CStrings ToyOS.Lib.Overlay
open ToyOS.Ramdisk.Image ToyOS.Ramdisk.Places ToyOS.Ramdisk.Ownership ToyOS.Ramdisk.Growth
open ToyOS.Ramdisk.Descriptors ToyOS.Ramdisk.Write ToyOS.Ramdisk.Files ToyOS.Ramdisk.Ranges
open ToyOS.Ramdisk.Writing ToyOS.Ramdisk.Storing ToyOS.Ramdisk.Opened

variable {st : State} {fd pid : Int} {f : FdPtr} {k : Fin 1024} {M : Nat} {a b : Str}

structure Holds (M : Nat) (st : State) (f : FdPtr) (k : Fin 1024) (d : Str) : Prop where
  owned : Owned every st.discos
  roomy : Roomy M k st.discos
  size : (st.discos.inodes k).size = d.length
  cursor : (st.fileObject f).cursor = d.length
  bytes : ∀ pos, pos < 1067008 → byteAt st.discos k pos = bytesOf d pos

theorem leafOf_null {fs : FileSys} {n m : Nat} (hp : ∀ i, i < 8 → (fs.inodes n).pointers i = 0)
    (hs : (fs.inodes n).singleIndirectPtrs = 0) (hd : (fs.inodes n).doubleIndirectPtrs = 0) :
    ref fs (leafOf n m) = 0 := by
  unfold leafOf
  split
  · exact hp m (by assumption)
  · split
    · simp [ref, FileSys.ptrAt, under, hs]
    · simp [ref, FileSys.ptrAt, under, hd]

/-- A fresh file is empty. -/
theorem holds_fresh (h : FreshFile st fd pid f k) (ho : Owned every st.discos)
    (hM : M ≤ 4168) (hroom : blocksFor M ≤ st.discos.freeBlocks) : Holds M st f k [] where
  owned := ho
  roomy := ⟨hM, (missing_le M _ _).trans hroom⟩
  size := h.size
  cursor := h.cursor
  bytes _ _ := byteAt_missing (leafOf_null h.pointers h.singleIndirect h.doubleIndirect)

theorem bytesOf_append (a b : Str) (i : Nat) :
    bytesOf (a ++ b) i = if a.length ≤ i then bytesOf b (i - a.length) else bytesOf a i := by
  unfold bytesOf
  split
  · rw [List.getD_append_right _ _ _ _ (by assumption)]
  · rw [List.getD_append _ _ _ _ (by omega)]

theorem bytesOf_beyond {a : Str} {i : Nat} (h : a.length ≤ i) : bytesOf a i = 0 :=
  List.getD_eq_default _ _ h

/-- The state after `rd_write` of the string `d`. -/
def written (st : State) (fd pid : Int) (d : Str) : State :=
  (rdWrite st fd pid (bytesOf d) d.length).1

/-- The writer `rd_write` begins with. -/
def writerOf (st : State) (f : FdPtr) : Writer := ⟨st.discos, (st.fileObject f).cursor, 0, 0⟩

/-- The same without regard to room. -/
theorem Holds.anyRoom (h : Holds M st f k a) : Holds 0 st f k a :=
  ⟨h.owned, roomy_zero _ _, h.size, h.cursor, h.bytes⟩

theorem Holds.feasible (h : Holds M st f k a) (h0 : 0 ∉ b)
    (hlen : a.length + b.length ≤ 1067008) {loc : Nat → Nat}
    (hM : M = 0 ∨ ∀ t, t < b.length → loc t / 256 < M) :
    Feasible M k b.length loc (bytesOf b) st.discos a.length where
  node := k.isLt
  nonzero _ hi := bytesOf_ne_zero h0 hi
  size := by rw [h.size]; omega
  cursor := by omega
  blocks := hM

theorem openFile_written (h : OpenFile st fd pid f k) (hown : Owned every st.discos) (data : Bytes)
    (n : Int) : OpenFile (rdWrite st fd pid data n).1 fd pid f k := by
  rw [h.write]
  have hg := (writeStages_wrote (w := writerOf st f) k.isLt hown data n).grows
  exact h.moved _ hg.type hg.access rfl

theorem Holds.fileByte (h : Holds M st f k a) (h0 : 0 ∉ a) (hmax : a.length ≤ 1067008) {pos : Nat}
    (hpos : pos < a.length) : fileByte st.discos k pos = some (bytesOf a pos) :=
  fileByte_of_byteAt (h.bytes pos (by omega)) (bytesOf_ne_zero h0 hpos)

/-- A seamless write appends, or finds no room. -/
theorem Holds.appends (h : Holds M st f k a) (hf : OpenFile st fd pid f k) (hb : b ≠ [])
    (h0 : 0 ∉ b) (hlen : a.length + b.length ≤ 1067008) (hs : Seamless a.length b.length)
    (hM : M = 0 ∨ a.length + b.length ≤ 256 * M) :
    ((rdWrite st fd pid (bytesOf b) b.length).2 = b.length ∧
      Holds M (rdWrite st fd pid (bytesOf b) b.length).1 f k (a ++ b)) ∨
    (M = 0 ∧ (rdWrite st fd pid (bytesOf b) b.length).2 = -1) := by
  have hw := writeStages_seamless
    (h.feasible h0 hlen (hM.imp_right fun hM t ht => by show (a.length + t) / 256 < M; omega))
    (List.length_pos_iff.mpr hb) h.size hlen hs h.owned h.roomy
  rw [← h.cursor] at hw
  rcases hw with ⟨w, hret, hst⟩ | ⟨hM, w, hret⟩
  · rw [hf.write, hret]
    refine .inl ⟨rfl, ?_⟩
    rw [h.cursor] at hst
    constructor
    · exact hst.owned
    · exact hst.roomy
    · exact hst.size.trans (by rw [h.size, List.length_append])
    · rw [fileObject_set_self]
      exact hst.cursor.trans (List.length_append ..).symm
    · intro pos hpos
      refine (hst.bytes pos hpos).trans ?_
      rw [overlay_run fun _ _ => rfl, bytesOf_append, h.bytes pos hpos]
      by_cases hge : a.length ≤ pos
      · rw [if_pos hge]
        by_cases hlt : pos < a.length + b.length
        · rw [if_pos ⟨hge, hlt⟩]
        · rw [if_neg (by omega), bytesOf_beyond hge, bytesOf_beyond (by omega)]
      · rw [if_neg hge, if_neg (by omega)]
  · rw [hf.write, hret]
    exact .inr ⟨hM, rfl⟩

/-- With room a seamless write appends. -/
theorem Holds.append (h : Holds M st f k a) (hf : OpenFile st fd pid f k) (hb : b ≠ [])
    (h0 : 0 ∉ b) (hlen : a.length + b.length ≤ 1067008) (hs : Seamless a.length b.length)
    (hM : a.length + b.length ≤ 256 * M) :
    (rdWrite st fd pid (bytesOf b) b.length).2 = b.length ∧
      Holds M (rdWrite st fd pid (bytesOf b) b.length).1 f k (a ++ b) := by
  rcases h.appends hf hb h0 hlen hs (.inr hM) with h | ⟨h, -⟩
  · exact h
  · have := List.length_pos_iff.mpr hb
    omega

/-- What any other write stores, and where. -/
theorem Holds.skips (h : Holds M st f k a) (hf : OpenFile st fd pid f k) (hb : b ≠ []) (h0 : 0 ∉ b)
    (hlen : a.length + b.length ≤ 1067008)
    (hs : 72 ≤ a.length / 256 ∨
      (a.length % 256 ≠ 0 ∧ a.length / 256 ≠ 7 ∧ a.length / 256 ≠ 71)) :
    ∃ t, t ≤ b.length ∧ ∀ pos, pos < 1067008 →
      byteAt (rdWrite st fd pid (bytesOf b) b.length).1.discos k pos =
        overlay (stageLoc (startBlock (a.length / 256)) (a.length % 256)) (bytesOf b)
          (bytesOf a) t pos := by
  have hpos := List.length_pos_iff.mpr hb
  have h' := h.anyRoom
  obtain ⟨t, ht, hst⟩ := writeStages_skips (h'.feasible h0 hlen (.inl rfl)) hpos h.size (by omega)
    hs h.owned h'.roomy
  refine ⟨t, ht, fun pos hpos => ?_⟩
  rw [hf.write, h.cursor]
  exact (hst.bytes pos hpos).trans (overlay_base (h.bytes pos hpos))

end ToyOS.Ramdisk.Contents
