import ToyOS.Ramdisk.ReadBuffer
import ToyOS.Ramdisk.Representation

/-! # The file system does what it is for

Every run of calls that keep clear of the defects of the code is a run of the
volume it represents: each call returns what `perform` says and hands over the
same bytes, and only where there is no room for a new file it returns -1 instead
and changes nothing that a path or a descriptor leads to.
-/
namespace ToyOS.Ramdisk.Refinement
open ToyOS.Lib.Loop ToyOS.Lib.CStrings ToyOS.Lib.Words ToyOS.Lib.Overlay ToyOS.Lib.Runs ToyOS.Lib.Walks
open ToyOS.Lib.Pathmaps ToyOS.Ramdisk.Image ToyOS.Ramdisk.Blocks ToyOS.Ramdisk.Places
open ToyOS.Ramdisk.Ownership ToyOS.Ramdisk.Growth ToyOS.Ramdisk.Paths ToyOS.Ramdisk.Components
open ToyOS.Ramdisk.Slots ToyOS.Ramdisk.Namespace ToyOS.Ramdisk.Descriptors ToyOS.Ramdisk.Write
open ToyOS.Ramdisk.Read ToyOS.Ramdisk.Writing ToyOS.Ramdisk.System ToyOS.Ramdisk.Supply
open ToyOS.Ramdisk.Records ToyOS.Ramdisk.Frames ToyOS.Ramdisk.Files ToyOS.Ramdisk.Ranges
open ToyOS.Ramdisk.Storing ToyOS.Ramdisk.Contents ToyOS.Ramdisk.Opened ToyOS.Ramdisk.Tables
open ToyOS.Ramdisk.Discipline ToyOS.Ramdisk.Fetching ToyOS.Ramdisk.ReadBuffer ToyOS.Ramdisk.ReadBack
open ToyOS.Ramdisk.BlockOwnership ToyOS.Ramdisk.Effects ToyOS.Ramdisk.Sizes ToyOS.Ramdisk.Hierarchy
open ToyOS.Ramdisk.Pruning ToyOS.Ramdisk.Purpose ToyOS.Ramdisk.Representation

variable {fs fs' : FileSys} {st st' : State} {v : Volume} {path : List Component} {fd pid off : Int}
variable {i k n flags : Nat} {hd : Handle} {d text : Str} {access : Nat} {addr : Bytes}

/-! ## Slots and handles -/

theorem firstIdx_congr {p q : Nat → Bool} {lo m : Nat} (h : ∀ i, lo ≤ i → i < lo + m → p i = q i) :
    firstIdx p lo m = firstIdx q lo m := by
  refine Option.ext fun i => ?_
  rw [firstIdx_eq_some, firstIdx_eq_some]
  refine and_congr_right fun hlo => and_congr_right fun hhi => ?_
  rw [h i hlo hhi]
  refine and_congr_right fun _ => forall_congr' fun j => ?_
  exact forall_congr' fun hj => forall_congr' fun hji => by rw [h j hj (by omega)]

section
variable (h : Represents st v)
include h

/-- One slot stands for another handle. -/
theorem slot_represents (hi : i < 1024) {o : FileObject} {hd : Option Handle} (ho : SlotOk o i)
    (hs : Stands (st.setFileObject ⟨0, i⟩ o) i hd) :
    Represents (st.setFileObject ⟨0, i⟩ o) (v.setHandle i hd) where
  sound := h.sound
  tables := h.tables.set (f := ⟨0, i⟩) ho
  tree := h.tree
  handles j hj := by
    unfold Volume.setHandle
    dsimp only
    by_cases hij : j = i
    · subst hij
      rw [Function.update_self]
      exact hs
    · rw [Function.update_of_ne hij]
      have hstands := h.handles j hj
      have hobj : (st.setFileObject ⟨0, i⟩ o).fileObject ⟨0, j⟩ = st.fileObject ⟨0, j⟩ :=
        fileObject_set_ne st o fun e => hij (FdPtr.mk.inj e).2
      cases hh : v.handles j with
      | none =>
        rw [hh] at hstands
        unfold Stands Open at *
        rwa [hobj]
      | some hd =>
        rw [hh] at hstands
        obtain ⟨k, hk, hf⟩ := hstands
        exact ⟨k, hobj.trans hk, hf⟩

theorem unused_slot : firstIdx (fun i => (st.fileObject ⟨0, i⟩).usable == 0) 0 1024 = v.unused := by
  refine firstIdx_congr fun i _ hi => ?_
  have hstands := h.handles i (by omega)
  cases hh : v.handles i with
  | none =>
    rw [hh] at hstands
    rcases h.tables.slot ⟨0, i⟩ with hz | ⟨hu, -⟩
    · rw [hz]; rfl
    · exact absurd hu hstands
  | some hd =>
    rw [hh] at hstands
    obtain ⟨k, hk, -⟩ := hstands
    rw [hk]; rfl

/-- A descriptor with a handle. -/
theorem opened_slot (hh : v.handle fd = some hd) (pid : Int) :
    ∃ (i : Nat) (k : Fin 1024), fd = i ∧ i < 1024 ∧ findFileObject st fd pid = some ⟨0, i⟩ ∧
      st.fileObject ⟨0, i⟩ = ⟨some k, hd.flags, hd.cursor, i, 1⟩ ∧
      follow (child st.discos) 0 hd.path = some k.val := by
  obtain ⟨i, rfl, hi, hhi⟩ := Volume.handle_some hh
  have hstands := h.handles i hi
  rw [hhi] at hstands
  obtain ⟨k, ho, hk⟩ := hstands
  exact ⟨i, k, rfl, hi, h.tables.find hi (by rw [Open, ho]) pid, ho, hk⟩

/-- A descriptor without one is not open. -/
theorem closed_slot (hh : v.handle fd = none) :
    ¬ ∃ i : Nat, i < 1024 ∧ fd = i ∧ Open st ⟨0, i⟩ := by
  rintro ⟨i, hi, rfl, ho⟩
  rw [Volume.handle_natCast hi] at hh
  have hstands := h.handles i hi
  rw [hh] at hstands
  exact hstands ho

/-- The slot of a handle whose position moves. -/
theorem move_represents (hi : i < 1024) {k : Fin 1024}
    (ho : st.fileObject ⟨0, i⟩ = ⟨some k, hd.flags, hd.cursor, i, 1⟩)
    (hk : follow (child st.discos) 0 hd.path = some k.val) (c : Nat) :
    Represents (st.setFileObject ⟨0, i⟩ { st.fileObject ⟨0, i⟩ with cursor := c })
      (v.setHandle i (some { hd with cursor := c })) := by
  refine slot_represents h hi (.inr ⟨by rw [ho], by rw [ho], by rw [ho]; exact Option.some_ne_none _⟩)
    ⟨k, ?_, hk⟩
  rw [fileObject_set_self, ho]

theorem usable_slot (hh : v.handle fd = some hd) (ht : v.tree hd.path = some (.file access d)) (pid : Int) :
    ∃ (i : Nat) (k : Fin 1024), fd = i ∧ i < 1024 ∧ Usable st fd pid ⟨0, i⟩ k ∧
      st.fileObject ⟨0, i⟩ = ⟨some k, hd.flags, hd.cursor, i, 1⟩ ∧
      follow (child st.discos) 0 hd.path = some k.val ∧ Shows st.discos k (.file access d) ∧
      Contains st.discos k d := by
  obtain ⟨i, k, hfd, hi, hfind, ho, hk⟩ := opened_slot h hh pid
  obtain ⟨b, hb, hs⟩ := h.tree.present hd.path k hk
  obtain rfl := Option.some.inj (ht.symm.trans hb)
  have hreg : (st.discos.inodes k).type ≠ some .dir := by
    rw [hs.1]
    exact fun e => by cases e
  have hc : ∃ hk : (k : Nat) < 1024, Contains st.discos ⟨k, hk⟩ d := hs.2.2
  exact ⟨i, k, hfd, hi, ⟨hfind, by rw [ho], by rw [ho], hreg⟩, ho, hk, hs, hc.snd⟩

/-- A descriptor of a directory. -/
theorem directory_slot (hh : v.handle fd = some hd) (ht : v.tree hd.path = some (.dir access)) (pid : Int) :
    ∃ (f : FdPtr) (k : Fin 1024), findFileObject st fd pid = some f ∧ (st.fileObject f).inodePtr = some k ∧
      (st.discos.inodes k).type = some .dir := by
  obtain ⟨i, k, -, -, hfind, ho, hk⟩ := opened_slot h hh pid
  obtain ⟨b, hb, hs⟩ := h.tree.present hd.path k hk
  obtain rfl := Option.some.inj (ht.symm.trans hb)
  exact ⟨⟨0, i⟩, k, hfind, by rw [ho], hs.1⟩

/-! ## Opening and closing -/

omit h in
theorem opens_returns {p : Str} {fl : Nat} {f : FdPtr} {k : Fin 1024} (ho : Opens st p fl pid f k) :
    rdOpen st p fl pid = some (st.setFileObject f (openedObject f k fl), (f.slot : Int)) := by
  have hlt := ho.slot_lt
  unfold rdOpen createFileObject
  rw [if_neg ho.notRoot, ho.resolves]
  dsimp only
  rw [dif_pos k.isLt, ho.granted, ho.table]
  dsimp only
  rw [ho.unused, Option.map_some, if_neg (by decide)]
  dsimp only
  rw [setFileObject_twice, fileObject_set_self, fileObject_set_self]
  dsimp only
  rw [toI32_of_lt (by omega)]
  rfl

theorem open_represents (hplain : v.Plain path) (flags : Nat) (pid : Int) :
    ∃ st', rdOpen st (render path) flags pid = some (st', (v.openPath path flags).2.value) ∧
      Represents st' (v.openPath path flags).1 := by
  unfold rdOpen Volume.openPath
  by_cases hroot : path = []
  · rw [if_pos hroot, hroot, if_pos render_nil]
    exact ⟨_, rfl, h⟩
  · rw [if_neg hroot, if_neg (render_ne_root hroot)]
    cases htree : v.tree path with
    | none =>
      rw [(h.missing hplain htree).1]
      exact ⟨_, rfl, h⟩
    | some node =>
      obtain ⟨k, hk, hlt, hshows⟩ := h.node htree
      have hdenied : accessDenied flags (st.discos.inodes k).access = accessDenied flags node.access := by
        rw [hshows.access]
      have hresolves := (h.found hplain hk).1
      have hunused := unused_slot h
      cases hu : v.unused with
      | none =>
        rw [hu] at hunused
        refine ⟨st, ?_, h⟩
        rw [hresolves]
        dsimp only
        rw [dif_pos hlt]
        unfold createFileObject
        rw [h.tables.table]
        dsimp only
        rw [hunused]
        split <;> rfl
      | some i =>
        rw [hu] at hunused
        dsimp only
        cases hacc : accessDenied flags node.access with
        | true =>
          refine ⟨st, ?_, h⟩
          rw [hresolves]
          dsimp only
          rw [dif_pos hlt, hdenied, hacc]
          rfl
        | false =>
          have ho : Opens st (render path) flags pid ⟨0, i⟩ ⟨k, hlt⟩ :=
            ⟨render_ne_root hroot, hresolves, hdenied.trans hacc, h.tables.table pid, hunused⟩
          have hopen := opens_returns ho
          unfold rdOpen at hopen
          rw [if_neg (render_ne_root hroot)] at hopen
          refine ⟨_, hopen, slot_represents h ho.slot_lt (.inr ⟨rfl, rfl, Option.some_ne_none _⟩) ?_⟩
          exact ⟨⟨k, hlt⟩, fileObject_set_self _ _ _, hk⟩

/-- A descriptor that stands for nothing, or for a directory, is of no use. -/
theorem useless (hfd : IsInt fd)
    (hno : ∀ hd access d, v.handle fd = some hd → v.tree hd.path ≠ some (.file access d))
    (pid : Int) : usableFile st fd pid = none ∧ ∀ data m, rdWrite st fd pid data m = (st, -1) := by
  cases hh : v.handle fd with
  | none =>
    have hclosed := closed_slot h hh
    refine ⟨usableFile_eq_none fun f k => h.tables.not_usable hfd hclosed k, ?_⟩
    exact ((h.tables.law pid).refused fd hfd hclosed).2.1
  | some hd =>
    have hthere : v.tree hd.path ≠ none := by
      obtain ⟨i, -, hi, hhi⟩ := Volume.handle_some hh
      exact h.formed.there i hd hi hhi
    obtain ⟨node, hnode⟩ := Option.ne_none_iff_exists'.mp hthere
    cases node with
    | file access d => exact absurd hnode (hno hd access d hh)
    | dir access =>
      obtain ⟨f, k, hfind, hk, hdir⟩ := directory_slot h hh hnode pid
      refine ⟨usableFile_eq_none fun f' k' hu => ?_, rdWrite_refused fun f' k' hw => ?_⟩
      · obtain rfl := Option.some.inj (hfind.symm.trans hu.found)
        obtain rfl := Option.some.inj (hk.symm.trans hu.inode)
        exact hu.type hdir
      · obtain rfl := Option.some.inj (hfind.symm.trans hw.found)
        obtain rfl := Option.some.inj (hk.symm.trans hw.inode)
        exact hw.type hdir

omit h in
/-- On such a descriptor a volume refuses too. -/
theorem onFile_refuse (act : Handle → Nat → Str → Volume × Answer)
    (hno : ∀ hd access d, v.handle fd = some hd → v.tree hd.path ≠ some (.file access d)) :
    v.onFile fd act = v.refuse := by
  unfold Volume.onFile
  split
  · rfl
  · rename_i hd hh
    split
    · rename_i access d ht
      exact absurd ht (hno hd access d hh)
    · rfl

omit h in
theorem onFile_act {act : Handle → Nat → Str → Volume × Answer} (hh : v.handle fd = some hd)
    (ht : v.tree hd.path = some (.file access d)) : v.onFile fd act = act hd access d := by
  unfold Volume.onFile
  rw [hh]
  dsimp only
  rw [ht]

theorem close_represents (hfd : IsInt fd) (pid : Int)
    (hfile : ∀ hd a, v.handle fd = some hd → v.tree hd.path ≠ some (.dir a)) :
    (rdClose st fd pid).2 = (v.close fd).2.value ∧ Represents (rdClose st fd pid).1 (v.close fd).1 := by
  unfold rdClose Volume.close
  cases hh : v.handle fd with
  | none =>
    rw [(useless h hfd (fun hd _ _ e => by rw [hh] at e; cases e) pid).1]
    exact ⟨rfl, h⟩
  | some hd =>
    obtain ⟨i, -, hi, hhi⟩ := Volume.handle_some hh
    obtain ⟨node, hnode⟩ := Option.ne_none_iff_exists'.mp (h.formed.there i hd hi hhi)
    cases node with
    | dir a => exact absurd hnode (hfile hd a hh)
    | file access d =>
      obtain ⟨i, k, rfl, hi, hu, ho, hk, -⟩ := usable_slot h hh hnode pid
      rw [usableFile_eq_some.mpr hu]
      refine ⟨rfl, slot_represents h hi (.inl rfl) ?_⟩
      unfold Stands Open
      rw [fileObject_set_self]
      exact fun e => by cases e

/-! ## Moving the position -/

theorem lseek_represents (hfd : IsInt fd) (hoff : IsInt off) (pid : Int)
    (hne : ∀ hd a d, v.handle fd = some hd → v.tree hd.path = some (.file a d) → d ≠ []) :
    (rdLseek st fd off pid).2 = (v.onFile fd fun hd _ d => v.lseek fd off hd d).2.value ∧
      Represents (rdLseek st fd off pid).1 (v.onFile fd fun hd _ d => v.lseek fd off hd d).1 := by
  unfold rdLseek
  by_cases hex : ∃ hd a d, v.handle fd = some hd ∧ v.tree hd.path = some (.file a d)
  · obtain ⟨hd, a, d, hh, ht⟩ := hex
    obtain ⟨i, k, rfl, hi, hu, ho, hk, -, hc⟩ := usable_slot h hh ht pid
    rw [usableFile_eq_some.mpr hu, onFile_act hh ht]
    unfold Volume.lseek
    dsimp only
    have hpos := List.length_pos_iff.mpr (hne hd a d hh ht)
    have hfits := hc.fits
    have hsize := hc.size
    obtain ⟨-, hoff⟩ := hoff
    split
    · exact ⟨rfl, h⟩
    · rename_i h0
      have hword : toU32 off = off.toNat := by
        unfold toU32
        omega
      rw [hword, hsize, u32Sub_of_le (by omega) hpos]
      split
      · rename_i hle
        rw [min_eq_right (by omega)]
        exact ⟨toI32_of_lt (by omega), move_represents h hi ho hk _⟩
      · rename_i hlt
        rw [min_eq_left (by omega)]
        refine ⟨?_, move_represents h hi ho hk _⟩
        dsimp only
        omega
  · have hno : ∀ hd a d, v.handle fd = some hd → v.tree hd.path ≠ some (.file a d) :=
      fun hd a d hh ht => hex ⟨hd, a, d, hh, ht⟩
    rw [(useless h hfd hno pid).1, onFile_refuse _ hno]
    exact ⟨rfl, h⟩

/-! ## Reading -/

theorem read_represents (hfd : IsInt fd) (pid : Int) (addr : Bytes) (hn : 1 ≤ n) (hmax : n ≤ 1048576)
    (hfile : ∀ hd a d, v.handle fd = some hd → v.tree hd.path = some (.file a d) →
      hd.flags ≠ WR ∧ hd.cursor + n ≤ d.length ∧ Seamless hd.cursor n) :
    (rdRead st fd addr n pid).2.1 = (v.onFile fd fun hd _ d => v.read fd n hd d).2.value ∧
      (rdRead st fd addr n pid).2.2 =
        (fun j => ((v.onFile fd fun hd _ d => v.read fd n hd d).2.bytes[j]?).getD (addr j)) ∧
      Represents (rdRead st fd addr n pid).1 (v.onFile fd fun hd _ d => v.read fd n hd d).1 := by
  by_cases hex : ∃ hd a d, v.handle fd = some hd ∧ v.tree hd.path = some (.file a d)
  · obtain ⟨hd, a, d, hh, ht⟩ := hex
    obtain ⟨hflags, hcur, hseam⟩ := hfile hd a d hh ht
    obtain ⟨i, k, rfl, hi, hu, ho, hk, -, hc⟩ := usable_slot h hh ht pid
    have hfits := hc.fits
    have hcursor : (st.fileObject ⟨0, i⟩).cursor = hd.cursor := by rw [ho]
    have hr : Readable st i n pid ⟨0, i⟩ k := by
      refine ⟨hu, ?_⟩
      rw [hcursor, hc.size, u32Sub_of_le (by omega) (by omega), toU32_natCast (by omega)]
      omega
    have hfetch : fetched st ⟨0, i⟩ k n = (d.drop hd.cursor).take n := by
      unfold fetched
      rw [hcursor]
      exact fetch_seamless hc hn hcur hseam
    have hlen : ((d.drop hd.cursor).take n).length = n := by
      rw [List.length_take, List.length_drop]
      omega
    rw [onFile_act hh ht]
    unfold Volume.read
    rw [if_neg hflags]
    dsimp only
    refine ⟨by rw [hr.returns, hfetch], funext fun j => ?_, ?_⟩
    · rw [hr.delivers, hfetch]
      by_cases hj : j < n
      · rw [if_pos (by omega), List.getElem?_eq_getElem (by omega)]
        rfl
      · rw [if_neg (by omega), List.getElem?_eq_none (by omega)]
        rfl
    · rw [hr.read]
      have hbuf : Represents { st with readBuffer := (readerOf st ⟨0, i⟩ k n).buffer } v :=
        ⟨h.sound, disciplined_of_tables h.tables rfl, h.tree, h.handles⟩
      have hmoved := move_represents hbuf hi ho hk (readerOf st ⟨0, i⟩ k n).cursor
      have hread := (readerOf_fetched st ⟨0, i⟩ k n).cursor
      rw [hfetch, hcursor, advance_eq (by omega)] at hread
      rw [hread] at hmoved ⊢
      exact hmoved
  · have hno : ∀ hd a d, v.handle fd = some hd → v.tree hd.path ≠ some (.file a d) :=
      fun hd a d hh ht => hex ⟨hd, a, d, hh, ht⟩
    rw [onFile_refuse _ hno]
    unfold rdRead
    rw [(useless h hfd hno pid).1]
    exact ⟨rfl, rfl, h⟩

/-! ## Writing -/

omit h in
/-- What a file shows after its end has grown. -/
theorem stored_shows {k : Fin 1024} {M : Nat} {w : Writer} (hs : Shows st.discos k (.file access d))
    (hc : Contains st.discos k d) (h0 : 0 ∉ text) (hfits : d.length + text.length ≤ 1067008)
    (hr : OnlySize st.discos k w.fs)
    (hw : Stored M k (d.length + ·) (bytesOf text) st.discos d.length text.length w) :
    Shows w.fs k (.file access (d ++ text)) := by
  obtain ⟨htype, haccess, -⟩ := hr k
  refine ⟨htype.trans hs.1, haccess.trans hs.2.1, k.isLt, ?_⟩
  constructor
  · rw [List.length_append, ← hc.size]
    exact hw.size
  · rw [List.mem_append]
    exact fun hmem => hmem.elim hc.nonzero h0
  · rw [List.length_append]
    exact hfits
  · intro pos hpos
    refine (hw.bytes pos hpos).trans ?_
    rw [overlay_run fun _ _ => rfl, bytesOf_append, hc.bytes pos hpos]
    by_cases hge : d.length ≤ pos
    · rw [if_pos hge]
      by_cases hlt : pos < d.length + text.length
      · rw [if_pos ⟨hge, hlt⟩]
      · rw [if_neg (by omega), bytesOf_beyond hge, bytesOf_beyond (by omega)]
    · rw [if_neg hge, if_neg (by omega)]

/-- The blocks that a file of this length takes. -/
def blockCount (len : Nat) : Nat := (len + 255) / 256

theorem write_represents (hfd : IsInt fd) (pid : Int)
    (hfile : ∀ hd a d, v.handle fd = some hd → v.tree hd.path = some (.file a d) → a ≠ RD → hd.flags ≠ RD →
      hd.cursor = d.length ∧ text ≠ [] ∧ 0 ∉ text ∧ Seamless d.length text.length ∧
        ∀ k, findIndex st.discos (render hd.path) = .inode k →
          Roomy (blockCount (d.length + text.length)) k st.discos) :
    (rdWrite st fd pid (bytesOf text) text.length).2 = (v.onFile fd (v.write fd text)).2.value ∧
      Represents (rdWrite st fd pid (bytesOf text) text.length).1 (v.onFile fd (v.write fd text)).1 := by
  by_cases hex : ∃ hd a d, v.handle fd = some hd ∧ v.tree hd.path = some (.file a d)
  · obtain ⟨hd, a, d, hh, ht⟩ := hex
    obtain ⟨i, k, rfl, hi, hu, ho, hk, hs, hc⟩ := usable_slot h hh ht pid
    rw [onFile_act hh ht]
    unfold Volume.write
    by_cases hro : a = RD ∨ hd.flags = RD
    · rw [if_pos hro, rdWrite_refused fun f' k' hw => ?_]
      · exact ⟨rfl, h⟩
      · obtain rfl := Option.some.inj (hu.found.symm.trans hw.found)
        obtain rfl := Option.some.inj (hu.inode.symm.trans hw.inode)
        rcases hro with e | e
        · exact hw.access (hs.access.trans e)
        · refine hw.status ?_
          rw [ho]
          exact e
    · rw [if_neg hro]
      rw [not_or] at hro
      obtain ⟨hcur, hne, h0, hseam, hroom⟩ := hfile hd a d hh ht hro.1 hro.2
      have hplain : v.Plain hd.path := h.formed.plain (by rw [ht]; exact Option.some_ne_none _)
      have hroomy := hroom k (h.found hplain hk).2
      have hbound := hroomy.bound
      unfold blockCount at hbound
      have hfits : d.length + text.length ≤ 1067008 := by omega
      have hw : Writable st i pid ⟨0, i⟩ k := by
        refine ⟨hu.found, hu.inode, hu.type, ?_, ?_⟩
        · rw [hs.access]
          exact hro.1
        · rw [ho]
          exact hro.2
      have hfeasible : Feasible (blockCount (d.length + text.length)) k text.length (d.length + ·)
          (bytesOf text) st.discos d.length := by
        refine ⟨k.isLt, fun j hj => bytesOf_ne_zero h0 hj, ?_, by omega, .inr fun t ht => ?_⟩
        · rw [hc.size]
          omega
        · unfold blockCount
          show (d.length + t) / 256 < _
          omega
      have hpos := List.length_pos_iff.mpr hne
      obtain ⟨w, hret, hst⟩ : ∃ w, writeStages k (bytesOf text) text.length ⟨st.discos, d.length, 0, 0⟩ =
          .ret w text.length ∧
          Stored (blockCount (d.length + text.length)) k (d.length + ·) (bytesOf text) st.discos d.length
            text.length w := by
        rcases writeStages_seamless hfeasible hpos hc.size hfits hseam h.sound.owned hroomy with hx | ⟨hM, -⟩
        · exact hx
        · unfold blockCount at hM
          omega
      obtain ⟨hsound, hchild⟩ := h.sound.write k.isLt hu.type (bytesOf text) text.length d.length
      have hsize := writeStages_onlySize st.discos k (bytesOf text) text.length d.length
      have hgrows := (writeStages_wrote (w := ⟨st.discos, d.length, 0, 0⟩) k.isLt h.sound.owned (bytesOf text)
        text.length).grows
      rw [hret] at hsound hchild hsize hgrows
      have hstages : stagesOf st ⟨0, i⟩ k (bytesOf text) text.length = .ret w text.length := by
        unfold stagesOf
        rw [ho]
        dsimp only
        rw [hcur, hret]
      rw [hw.write, hstages]
      refine ⟨rfl, ?_⟩
      have himage : Represents { st with discos := w.fs } (v.setNode hd.path (some (.file a (d ++ text)))) := by
        refine h.image hsound (h.tree.relabel (follow_same h.sound hchild) (child_tree h.sound) hk
          (stored_shows hs hc h0 hfits hsize hst) fun q j b _ hj hb => ?_) fun i hd _ _ =>
            follow_same h.sound hchild hd.path
        obtain ⟨htype, haccess, hother⟩ := hsize j
        refine shows_same htype haccess (fun _ => ⟨hother hj, fun q hq hn => ?_, fun q hq hn _ hr0 => ?_⟩) hb
        · exact hgrows.keeps q hq fun e => absurd (hn.symm.trans e) hj
        · exact hgrows.blocks q hq (fun e => hj (hn.symm.trans e)) hr0
      have hmove := move_represents himage hi ho ((follow_same h.sound hchild hd.path).trans hk) w.cursor
      have hcursor : w.cursor = hd.cursor + text.length := by
        rw [hst.cursor, hcur]
      rw [hcur, splice_end, ← hcur, ← hcursor]
      exact hmove
  · have hno : ∀ hd a d, v.handle fd = some hd → v.tree hd.path ≠ some (.file a d) :=
      fun hd a d hh ht => hex ⟨hd, a, d, hh, ht⟩
    rw [onFile_refuse _ hno, (useless h hfd hno pid).2]
    exact ⟨rfl, h⟩

end

/-! ## One call -/

/-- What a call meets besides the file system: the caller's pid, what `vmalloc` hands
out for the scratch buffers, and the caller's memory where a read goes. -/
structure Env where
  pid : Int
  mem : Scratch
  addr : Bytes

def operation (e : Env) : Call → Op
  | .create cs c mode => .create (render (cs ++ [c])) .reg mode e.mem
  | .mkdir cs c => .mkdir (render (cs ++ [c])) e.mem
  | .unlink cs c => .unlink (render (cs ++ [c])) e.mem
  | .chmod path mode => .chmod (render path) mode
  | .open path flags => .open (render path) flags e.pid
  | .write fd text => .write fd e.pid (bytesOf text) text.length
  | .lseek fd offset => .lseek fd offset e.pid
  | .read fd count => .read fd e.addr count e.pid
  | .close fd => .close fd e.pid

/-- The caller's memory after a call. -/
def handed (st : State) (e : Env) : Call → Bytes
  | .read fd count => (rdRead st fd e.addr count e.pid).2.2
  | _ => e.addr

/-- A call keeps clear of the defects: it goes on behind no regular file, enters what
is not there in a directory whose next block is linked, with an end where the buffer
for the parent is cut, and removes what is not open, from blocks of its own; it
appends to a file what has no zero bytes, inside the runs that are stored without a
gap and while there is room; it reads at most what is there, and closes no directory. -/
def Proper (st : State) (v : Volume) (e : Env) : Call → Prop
  | .create cs c _ | .mkdir cs c =>
    v.Plain (cs ++ [c]) ∧ v.tree (cs ++ [c]) = none ∧ Ends e.mem (joined cs).length ∧
      ∀ d, findIndex st.discos (render cs) = .inode d → ¬ Unlinked st.discos d
  | .unlink cs c =>
    v.Plain (cs ++ [c]) ∧ Ends e.mem (joined cs).length ∧ ¬ v.Opened (cs ++ [c]) ∧
      ∀ d, findIndex st.discos (render cs) = .inode d → Clean st.discos d c
  | .chmod path _ | .open path _ => v.Plain path
  | .write fd text => IsInt fd ∧ ∀ hd a d, v.handle fd = some hd →
      v.tree hd.path = some (.file a d) → a ≠ RD → hd.flags ≠ RD →
      hd.cursor = d.length ∧ text ≠ [] ∧ 0 ∉ text ∧ Seamless d.length text.length ∧
        ∀ k, findIndex st.discos (render hd.path) = .inode k →
          Roomy (blockCount (d.length + text.length)) k st.discos
  | .lseek fd offset => IsInt fd ∧ IsInt offset ∧
      ∀ hd a d, v.handle fd = some hd → v.tree hd.path = some (.file a d) → d ≠ []
  | .read fd count => IsInt fd ∧ 1 ≤ count ∧ count ≤ 1048576 ∧
      ∀ hd a d, v.handle fd = some hd → v.tree hd.path = some (.file a d) →
        hd.flags ≠ WR ∧ hd.cursor + count ≤ d.length ∧ Seamless hd.cursor count
  | .close fd => IsInt fd ∧ ∀ hd a, v.handle fd = some hd → v.tree hd.path ≠ some (.dir a)

/-- There is no room for the file that the call creates. -/
def NoRoom (st : State) (e : Env) : Call → Prop
  | .create cs c _ | .mkdir cs c => ¬ Succeeds st.discos (render (cs ++ [c])) e.mem
  | _ => False

/-- The call does what the volume says, or finds no room and is refused. -/
structure Conforms (st : State) (v : Volume) (e : Env) (a : Call) (st' : State) (r : Int) : Prop where
  returns : call st (operation e a) = some (st', r)
  outcome : (r = (v.perform a).2.value ∧ Represents st' (v.perform a).1) ∨
    (NoRoom st e a ∧ r = -1 ∧ Represents st' v)
  handed : handed st e a = fun i => ((v.perform a).2.bytes[i]?).getD (e.addr i)

theorem enter_bytes (v : Volume) (cs : List Component) (c : Component) (b : Node) :
    (v.enter cs c b).2.bytes = [] := by
  unfold Volume.enter
  split <;> rfl

theorem remove_bytes (v : Volume) (path : List Component) : (v.remove path).2.bytes = [] := by
  unfold Volume.remove
  split <;> rfl

theorem chmod_bytes (v : Volume) (path : List Component) (mode : Nat) : (v.chmod path mode).2.bytes = [] := by
  unfold Volume.chmod
  split
  · rfl
  · split <;> rfl

theorem openPath_bytes (v : Volume) (path : List Component) (flags : Nat) :
    (v.openPath path flags).2.bytes = [] := by
  unfold Volume.openPath
  split
  · rfl
  · split
    · split <;> rfl
    · rfl

theorem onFile_bytes (v : Volume) (fd : Int) {act : Handle → Nat → Str → Volume × Answer}
    (hact : ∀ h a d, (act h a d).2.bytes = []) : (v.onFile fd act).2.bytes = [] := by
  unfold Volume.onFile
  split
  · rfl
  · split
    · exact hact _ _ _
    · rfl

/-- Only a read hands over bytes. -/
theorem perform_bytes {a : Call} (ha : ∀ fd m, a ≠ .read fd m) : (v.perform a).2.bytes = [] := by
  cases a with
  | create cs c mode | mkdir cs c => exact enter_bytes v cs c _
  | unlink cs c => exact remove_bytes v _
  | chmod path mode => exact chmod_bytes v path mode
  | «open» path flags => exact openPath_bytes v path flags
  | write fd text =>
    refine onFile_bytes v fd fun h a d => ?_
    unfold Volume.write
    split <;> rfl
  | lseek fd off =>
    refine onFile_bytes v fd fun h a d => ?_
    unfold Volume.lseek
    split <;> rfl
  | read fd m => exact absurd rfl (ha fd m)
  | close fd =>
    show (v.close fd).2.bytes = []
    unfold Volume.close
    split <;> rfl

theorem image_call {r : Option (FileSys × Int)} {x : Int} {op : Op} (hop : call st op = onImage st r)
    (hr : r = some (fs', x)) : call st op = some ({ st with discos := fs' }, x) := by
  rw [hop, hr]
  rfl

theorem call_conforms {e : Env} {a : Call} (h : Represents st v) (hp : Proper st v e a) :
    ∃ st' r, Conforms st v e a st' r := by
  have hquiet : (∀ fd m, a ≠ .read fd m) →
      handed st e a = fun i => ((v.perform a).2.bytes[i]?).getD (e.addr i) := fun ha => by
    rw [perform_bytes ha]
    cases a with
    | read fd m => exact absurd rfl (ha fd m)
    | _ => rfl
  cases a with
  | create cs c mode =>
    obtain ⟨hplain, habsent, hends, hlinked⟩ := hp
    obtain ⟨fs', r, hc, hout⟩ := create_represents mode .reg h hplain habsent hends hlinked
    exact ⟨_, r, image_call rfl hc, hout.imp_right fun hx => ⟨hx.2.1, hx.1, hx.2.2⟩,
      hquiet fun _ _ e => by cases e⟩
  | mkdir cs c =>
    obtain ⟨hplain, habsent, hends, hlinked⟩ := hp
    obtain ⟨fs', r, hc, hout⟩ := create_represents 1 .dir h hplain habsent hends hlinked
    rw [← rdMkdir_eq _ (render_ne_root (by simp))] at hc
    exact ⟨_, r, image_call rfl hc, hout.imp_right fun hx => ⟨hx.2.1, hx.1, hx.2.2⟩,
      hquiet fun _ _ e => by cases e⟩
  | unlink cs c =>
    obtain ⟨hplain, hends, hopen, hclean⟩ := hp
    obtain ⟨fs', hc, hr⟩ := unlink_represents h hplain hends hopen hclean
    exact ⟨_, _, image_call rfl hc, .inl ⟨rfl, hr⟩, hquiet fun _ _ e => by cases e⟩
  | chmod path mode =>
    obtain ⟨fs', hc, hr⟩ := chmod_represents h mode hp
    exact ⟨_, _, image_call rfl hc, .inl ⟨rfl, hr⟩, hquiet fun _ _ e => by cases e⟩
  | «open» path flags =>
    obtain ⟨st', hc, hr⟩ := open_represents h hp flags e.pid
    exact ⟨st', _, hc, .inl ⟨rfl, hr⟩, hquiet fun _ _ e => by cases e⟩
  | write fd text =>
    obtain ⟨hv, hr⟩ := write_represents h hp.1 e.pid hp.2
    exact ⟨_, _, rfl, .inl ⟨hv, hr⟩, hquiet fun _ _ e => by cases e⟩
  | lseek fd off =>
    obtain ⟨hv, hr⟩ := lseek_represents h hp.1 hp.2.1 e.pid hp.2.2
    exact ⟨_, _, rfl, .inl ⟨hv, hr⟩, hquiet fun _ _ e => by cases e⟩
  | read fd m =>
    obtain ⟨hfd, h1, hmax, hfile⟩ := hp
    obtain ⟨hv, hbytes, hr⟩ := read_represents h hfd e.pid e.addr h1 hmax hfile
    exact ⟨_, _, rfl, .inl ⟨hv, hr⟩, hbytes⟩
  | close fd =>
    obtain ⟨hv, hr⟩ := close_represents h hp.1 e.pid hp.2
    exact ⟨_, _, rfl, .inl ⟨hv, hr⟩, hquiet fun _ _ e => by cases e⟩

/-! ## Every run -/

/-- A volume that refuses is left as it is. -/
theorem enter_refused {cs : List Component} {c : Component} {b : Node} (hr : (v.enter cs c b).2.value = -1) :
    (v.enter cs c b).1 = v := by
  unfold Volume.enter at *
  split
  · rename_i h1 h2
    rw [h1, h2] at hr
    cases hr
  · rfl

/-- The code and the volume side by side; a call that finds no room leaves the
volume as it is. -/
noncomputable def sideBySide (s : State × Volume) (x : Env × Call) : State × Volume :=
  (step s.1 (operation x.1 x.2),
    if (call s.1 (operation x.1 x.2)).map (·.2) = some (s.2.perform x.2).2.value then (s.2.perform x.2).1
    else s.2)

theorem sideBySide_represents {e : Env} {a : Call} (h : Represents st v) (hp : Proper st v e a) :
    Represents (sideBySide (st, v) (e, a)).1 (sideBySide (st, v) (e, a)).2 := by
  obtain ⟨st', r, hconf⟩ := call_conforms h hp
  have hcall := hconf.returns
  unfold sideBySide step
  dsimp only
  rw [hcall]
  dsimp only [Option.elim_some, Option.map_some]
  rcases hconf.outcome with ⟨rfl, hr⟩ | ⟨hno, rfl, hr⟩
  · rwa [if_pos rfl]
  · split
    · rename_i heq
      have hrefused := Option.some.inj heq
      cases a with
      | create cs c mode | mkdir cs c =>
        have hsame := enter_refused hrefused.symm
        unfold Volume.perform
        dsimp only
        rwa [hsame]
      | _ => exact hno.elim
    · exact hr

theorem init_represents (behind : Nat → Bytes) (buffer : Bytes) :
    Represents (initFileSys behind buffer) Volume.empty where
  sound := init_sound behind buffer
  tables := ⟨fun _ => rfl, fun _ => .inl rfl⟩
  tree := by
    have hs := init_sound behind buffer
    refine depicts_root (fun c => ?_) ⟨hs.root, ?_⟩
    · by_contra hc
      obtain ⟨k, hk⟩ := Option.ne_none_iff_exists'.mp hc
      obtain ⟨s, -, he, -⟩ := (child_iff hs (by omega)).mp hk
      have hthere := he.block.there
      rw [initFileSys_discos] at hthere
      exact hthere (ref_init behind s.1)
    · rw [initFileSys_discos]
      rfl
  handles _ _ := fun h => by cases h

/-- The code refines the volume: in every run of proper calls the state represents
the volume that went through the same calls, and the next proper call conforms. -/
theorem volume_refined {behind : Nat → Bytes} {buffer : Bytes}
    (h : Reach (fun s x => Proper s.1 s.2 x.1 x.2) sideBySide (initFileSys behind buffer, Volume.empty)
      (st, v)) :
    Represents st v ∧ ∀ e a, Proper st v e a → ∃ st' r, Conforms st v e a st' r := by
  have hr := h.invariant (I := fun s => Represents s.1 s.2) (init_represents behind buffer)
    fun s x hp hs => sideBySide_represents hs hp
  exact ⟨hr, fun e a hp => call_conforms hr hp⟩

theorem plain_root {c : Component} {access : Nat} (hroot : v.tree [] = some (.dir access)) : v.Plain [c] := by
  intro q hq hne a d hd
  rcases List.prefix_concat_iff.mp (show q <+: [] ++ [c] from hq) with rfl | hq
  · exact hne rfl
  · rw [List.prefix_nil.mp hq, hroot] at hd
    cases hd

/-- `/a` created on a fresh file system; then it is opened. -/
theorem volume_refined_oneFile :
    ∃ v, Represents oneFile v ∧
      ∃ st' r, Conforms oneFile v ⟨5, ⟨[], []⟩, fun _ => 0⟩ (.open [nameA] RW) st' r := by
  let first : State × Volume := (initFileSys (fun _ _ => 0) fun _ => 0, Volume.empty)
  let creates : Env × Call := (⟨5, ⟨[0, 0], [0, 0]⟩, fun _ => 0⟩, .create [] nameA RW)
  have hproper : Proper first.1 first.2 creates.1 creates.2 := by
    refine ⟨plain_root rfl, rfl, ends_replicate 2 0 _, fun d hd => ?_⟩
    obtain rfl := Found.inode.inj hd
    exact not_unlinked_of_small (by decide +kernel)
  have hrun : Reach (fun s x => Proper s.1 s.2 x.1 x.2) sideBySide first (sideBySide first creates) :=
    .step .start hproper
  obtain ⟨hr, hnext⟩ := volume_refined hrun
  obtain ⟨access, hroot⟩ := hr.formed.root
  exact ⟨_, hr, hnext _ _ (plain_root hroot)⟩

end ToyOS.Ramdisk.Refinement
