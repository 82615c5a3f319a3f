import Mathlib.Data.Finset.Card
import ToyOS.Ramdisk.Catalog
import ToyOS.Ramdisk.Reclaiming

/-! # Inodes and their entries

Without `rd_write` every inode in use but the root is entered once. `rd_unlink`
takes the entry out of the directory that it cuts out of the path, which need
not be the one it has found the file in (`ParsesParent`).
-/
namespace ToyOS.Ramdisk.Accounting
open ToyOS.Lib.CStrings ToyOS.Lib.Words ToyOS.Lib.Runs ToyOS.Ramdisk.Image ToyOS.Ramdisk.Blocks
open ToyOS.Ramdisk.Places ToyOS.Ramdisk.Ownership ToyOS.Ramdisk.Growth ToyOS.Ramdisk.Paths
open ToyOS.Ramdisk.Components ToyOS.Ramdisk.Lookup ToyOS.Ramdisk.Directories ToyOS.Ramdisk.Slots
open ToyOS.Ramdisk.Clearing ToyOS.Ramdisk.Namespace ToyOS.Ramdisk.Creating ToyOS.Ramdisk.Removing
open ToyOS.Ramdisk.Unlinking ToyOS.Ramdisk.Records ToyOS.Ramdisk.Effects ToyOS.Ramdisk.Descriptors
open ToyOS.Ramdisk.System ToyOS.Ramdisk.BlockOwnership ToyOS.Ramdisk.Catalog
open ToyOS.Ramdisk.Reclaiming ToyOS.Ramdisk.Binding

variable {fs fs₁ fs' : FileSys} {st : State} {op : Op} {x k d cur n mode : Nat} {s s' : Place × Nat}
variable {e : EntryPtr} {name path : Str} {type : FileType} {mem : Scratch} {r : Int}
variable {cs : List Component} {c : Component}

/-- An inode in use. -/
def InUse (t : Option FileType) : Prop := t ≠ none

/-- The inodes with no type. -/
def unused (fs : FileSys) : Finset Nat :=
  (Finset.range 1024).filter fun k => (fs.inodes k).type = none

structure Accounted (fs : FileSys) : Prop where
  counted : fs.freeInodes = (unused fs).card
  root : (fs.inodes 0).type = some .dir
  names : ∀ s n, Entry InUse fs s n → n < 1024 ∧ (fs.inodes n).type ≠ none
  unique : ∀ s s' n, Entry InUse fs s n → Entry InUse fs s' n → s = s'

theorem mem_unused : k ∈ unused fs ↔ k < 1024 ∧ (fs.inodes k).type = none := by
  rw [unused, Finset.mem_filter, Finset.mem_range]

/-- What holds of the entries and the counter in every run that parses parents. -/
structure Kept (fs : FileSys) : Prop extends Catalogued InUse fs where
  counted : fs.freeInodes = (unused fs).card
  root : (fs.inodes 0).type = some .dir

theorem Kept.accounted (h : Kept fs) : Accounted fs :=
  ⟨h.counted, h.root, fun s n hs => ⟨(h.names s n hs).1, (h.names s n hs).2.1⟩, h.unique⟩

theorem Kept.root_inUse (h : Kept fs) : InUse (fs.inodes 0).type := by
  rw [InUse, h.root]
  exact Option.some_ne_none _

/-- A path leads to an inode in use. -/
theorem Kept.resolves (h : Kept fs) (hfind : findIndex fs (render cs) = .inode k) :
    InUse (fs.inodes k).type := by
  induction cs using List.reverseRecOn generalizing k with
  | nil =>
    obtain rfl : k = 0 := (Found.inode.inj hfind).symm
    exact h.root_inUse
  | append_singleton cs c ih =>
    obtain ⟨d, hd, hlt, hf⟩ := findIndex_concat hfind
    rcases h.found hlt (ih hd) hf with rfl | ⟨-, hk⟩
    · exact h.root_inUse
    · exact hk

/-! ## Calls that use no inode up -/

theorem unused_congr (h : ∀ j, (fs'.inodes j).type = (fs.inodes j).type) : unused fs' = unused fs := by
  ext j
  rw [mem_unused, mem_unused, h]

theorem card_unused_le (fs : FileSys) : (unused fs).card ≤ 1024 := by
  have h := Finset.card_filter_le (Finset.range 1024) fun k => (fs.inodes k).type = none
  rwa [Finset.card_range] at h

theorem Kept.same (h : Kept fs) (hc : Catalogued InUse fs')
    (htype : ∀ j, (fs'.inodes j).type = (fs.inodes j).type) (hfree : fs'.freeInodes = fs.freeInodes) :
    Kept fs' :=
  ⟨hc, by rw [hfree, unused_congr htype]; exact h.counted, by rw [htype]; exact h.root⟩

theorem Kept.search (h : Kept fs) (hc : cur < 1024) : Kept (getNextEntry fs cur).1 := by
  obtain ⟨hrec, hfree⟩ := getNextEntry_records fs cur
  exact h.same (h.toCatalogued.search hc) (fun j => congrArg Record.type (congrFun hrec j)) hfree

theorem Kept.searched {o : Option EntryPtr} (h : Kept fs) (hc : cur < 1024)
    (hg : getNextEntry fs cur = (fs₁, o)) : Kept fs₁ := by
  have h₁ := h.search hc
  rwa [hg] at h₁

theorem Kept.chmod (h : Kept fs) (k mode : Nat) :
    Kept (fs.setInode k { fs.inodes k with access := mode }) := by
  have hs := sameEntries_chmod InUse fs k mode
  have ho : Owned every (fs.setInode k { fs.inodes k with access := mode }) :=
    owned_of_ref h.owned (fun _ => ref_setInode fun _ => ⟨rfl, rfl, rfl⟩) rfl rfl
  exact h.same (h.toCatalogued.same ho hs) hs.types rfl

/-- The root is counted among the inodes in use. -/
theorem Kept.freeInodes_ne (h : Kept fs) : fs.freeInodes ≠ 1024 := by
  have hsub : unused fs ⊆ (Finset.range 1024).erase 0 := by
    intro j hj
    obtain ⟨hlt, hn⟩ := mem_unused.mp hj
    refine Finset.mem_erase.mpr ⟨?_, Finset.mem_range.mpr hlt⟩
    rintro rfl
    rw [h.root] at hn
    cases hn
  have hcard := Finset.card_le_card hsub
  rw [Finset.card_erase_of_mem (Finset.mem_range.mpr (by omega)), Finset.card_range] at hcard
  rw [h.counted]
  omega

/-! ## Creating a file -/

theorem Kept.fill (h : Kept fs) (hf : Filled fs e n name type fs') (hname : name.length ≤ 13)
    (hnew : NewInode fs n) (hfree : fs'.freeInodes = u32Sub fs.freeInodes 1) : Kept fs' := by
  refine ⟨h.toCatalogued.fill hf hname hnew.lt hnew.pos hnew.free, ?_, ?_⟩
  · have hset : unused fs' = (unused fs).erase n := by
      ext j
      rw [Finset.mem_erase, mem_unused, mem_unused, hf.types]
      by_cases hj : j = n
      · rw [if_pos hj]
        exact iff_of_false (fun hx => by cases hx.2) fun hx => hx.1 hj
      · rw [if_neg hj]
        exact (and_iff_right hj).symm
    have hle := card_unused_le fs
    have hcount := hnew.counted
    rw [hfree, hset, Finset.card_erase_of_mem (mem_unused.mpr ⟨hnew.lt, hnew.free⟩), h.counted]
    rw [h.counted] at hcount
    exact u32Sub_of_le (by omega) (by omega)
  · rw [hf.types, if_neg (by have := hnew.pos; omega)]
    exact h.root

theorem Kept.create (h : Kept fs) (hc : CreateResult fs (render cs) type mode mem fs' r) : Kept fs' := by
  cases hc with
  | refused => exact h
  | noEntry hcur _ _ hg => exact h.searched hcur hg
  | @filled cur n fs₁ e hcur _ _ hg hn =>
    have h₁ := h.searched hcur hg
    obtain ⟨hslot, hplain⟩ := (getNextEntry_next h.owned hcur hg).plain h.owned
    have hname : (splitPath (render cs) mem).2.length ≤ 13 := splitPath_length_le cs mem
    have hf : Filled fs₁ e n _ type (fillEntry fs₁ cur e n (splitPath (render cs) mem).2 type mode) :=
      fillEntry_filled h₁.owned hslot hname hplain
    exact h₁.fill hf hname (newInode_of_get hn) (fillEntry_free ..)

/-! ## Removing a file -/

theorem Kept.remove (h : Kept fs) (hd : d < 1024) (hc : InUse (fs.inodes d).type) (ht : name ≠ [])
    (hz : 0 ∉ name) (hf : Paths.findComponent fs d name = some k) : Kept (removeFile fs k d name) := by
  obtain ⟨s, -, -, hs⟩ := h.found_entry hd hc ht hz hf
  obtain ⟨hk, hin, -⟩ := h.names s k hs
  obtain ⟨S, hr, -⟩ := removeFile_removed h.owned hk hd name
  have hcat := h.toCatalogued.remove hd hc ht hz hf
  generalize removeFile fs k d name = fs' at hr hcat ⊢
  refine ⟨hcat, ?_, ?_⟩
  · have hset : unused fs' = insert k (unused fs) := by
      ext j
      rw [Finset.mem_insert, mem_unused, mem_unused]
      by_cases hj : j = k
      · subst hj
        rw [hr.self]
        exact iff_of_true ⟨hk, rfl⟩ (.inl rfl)
      · rw [removed_type hr hj]
        exact (or_iff_right hj).symm
    have hnot : k ∉ unused fs := fun hx => hin (mem_unused.mp hx).2
    have hle := card_unused_le fs
    rw [hr.freeInodes, hset, Finset.card_insert_of_notMem hnot, h.counted]
    exact u32_of_lt (by omega)
  · rw [removed_type hr hs.ne.symm]
    exact h.root

/-- Removed from another directory, the file keeps its entry. -/
theorem entry_left (h : Kept fs) (hs : Entry InUse fs s k) (hd : d < 1024) (hne : d ≠ s.1.node) :
    Entry InUse (removeFile fs k d name) s k := by
  obtain ⟨hk, -, hself⟩ := h.names s k hs
  obtain ⟨S, hr, -⟩ := removeFile_removed h.owned hk hd name
  generalize removeFile fs k d name = fs' at hr ⊢
  have hnS : ¬ S s.1 := fun hS => hne (hr.node _ hS).1.symm
  have href := hr.kept s.1 hs.block.valid hself.symm hnS
  have hblock := hr.blocks s.1 hs.block.valid hself.symm hne.symm hs.block.there
  refine ⟨⟨hs.block.valid, hs.block.leaf, ?_, ?_⟩, hs.slot_lt, ?_, hs.ne⟩
  · rw [removed_type hr hself.symm]
    exact hs.block.counted
  · rw [href]
    exact hs.block.there
  · rw [href, entryNum_congr hblock]
    exact hs.num

theorem removed_accounted_iff (h : Kept fs) {d₀ : Nat} (hd₀ : findIndex fs (render cs) = .inode d₀)
    (hf : Paths.findComponent fs d₀ c.bytes = some k) (hd : d < 1024) :
    Accounted (removeFile fs k d c.bytes) ↔ d = d₀ := by
  have hlt := findIndex_lt hd₀
  constructor
  · intro hacc
    by_contra hdd
    obtain ⟨s, hs, -, he⟩ := h.found_entry hlt (h.resolves hd₀) c.ne_nil c.noZero hf
    have hnode : s.1.node = d₀ := ((mem_leaves hlt).mp (mem_slotsOf.mp hs).1).2.2
    have hleft : Entry InUse (removeFile fs k d c.bytes) s k :=
      entry_left h he hd (by rw [hnode]; exact hdd)
    refine (hacc.names s k hleft).2 ?_
    exact removed_self (removeFile_record fs k d c.bytes).1
  · rintro rfl
    exact (h.remove hlt (h.resolves hd₀) c.ne_nil c.noZero hf).accounted

/-! ## Every call -/

def NoWrite : Op → Prop
  | .write _ _ _ _ => False
  | _ => True

/-- `rd_unlink` removes the name from the directory the path leads to. -/
def ParsesParent (st : State) : Op → Prop
  | .unlink path mem => ∀ cs c k d, path = render (cs ++ [c]) → findIndex st.discos path = .inode k →
      ¬ Refused st.discos path mem k → findIndex st.discos (splitPath path mem).1 = .inode d →
      findIndex st.discos (render cs) = .inode d
  | _ => True

/-- A call other than one that removes a file. -/
theorem step_kept (h : Kept st.discos) (hop : WellNamed op) (hw : NoWrite op)
    (hun : ∀ path mem, op ≠ .unlink path mem) : Kept (step st op).discos := by
  have he := step_effect st op
  generalize (step st op).discos = fs' at he ⊢
  cases he with
  | idle => exact h
  | create hc =>
    obtain ⟨cs, rfl⟩ := hop
    exact h.create hc
  | mkdir hc =>
    obtain ⟨cs, rfl⟩ := hop
    exact h.create hc
  | root hf => exact absurd hf h.freeInodes_ne
  | unlink => exact absurd rfl (hun _ _)
  | chmod => exact h.chmod _ _
  | write => exact hw.elim

/-- A call of `rd_unlink` that goes to the parent of the path. -/
theorem unlink_removes (hp : ParsesParent st (.unlink (render cs) mem)) :
    (step st (.unlink (render cs) mem)).discos = st.discos ∨
      ∃ (ds : List Component) (c : Component) (d k : Nat),
        findIndex st.discos (render ds) = .inode d ∧ d < 1024 ∧
        Paths.findComponent st.discos d c.bytes = some k ∧
        (step st (.unlink (render cs) mem)).discos = removeFile st.discos k d c.bytes := by
  rcases unlink_cases st (render cs) mem with ⟨hsame, -⟩ | ⟨k, d, hfile, hfind, hr, hstep⟩
  · exact .inl hsame
  · cases cs using List.reverseRecOn with
    | nil => exact absurd (.inl rfl) hr
    | append_singleton ds c =>
      have hd := hp ds c k d rfl hfile hr hfind
      obtain ⟨d₀, hd₀, hlt, hf⟩ := findIndex_concat hfile
      obtain rfl := Found.inode.inj (hd.symm.trans hd₀)
      rw [splitPath_concat_snd] at hstep
      exact .inr ⟨ds, c, d, k, hd, hlt, hf, hstep⟩

/-- What a call of `rd_unlink` needs, and what it does with it. -/
theorem unlink_kept (h : Kept st.discos) (hop : WellNamed (.unlink path mem)) :
    (ParsesParent st (.unlink path mem) → Kept (step st (.unlink path mem)).discos) ∧
      (Accounted (step st (.unlink path mem)).discos → ParsesParent st (.unlink path mem)) := by
  obtain ⟨cs, rfl⟩ := hop
  constructor
  · intro hp
    rcases unlink_removes hp with hsame | ⟨ds, c, d, k, hd, hlt, hf, hstep⟩
    · rw [hsame]
      exact h
    · rw [hstep]
      exact h.remove hlt (h.resolves hd) c.ne_nil c.noZero hf
  · intro hacc cs' c k d e hfile hr hfind
    rw [e] at hfile hfind hr hacc
    obtain ⟨d₀, hd₀, -, hf⟩ := findIndex_concat hfile
    rw [step_discos_unlink hfile hr hfind, splitPath_concat_snd] at hacc
    rw [(removed_accounted_iff h hd₀ hf (findIndex_lt hfind)).mp hacc]
    exact hd₀

/-! ## Runs -/

theorem init_kept (behind : Nat → Bytes) (buffer : Bytes) :
    Kept (initFileSys behind buffer).discos := by
  have ho := init_owned behind buffer
  rw [initFileSys_discos] at ho ⊢
  have h0 := ref_init behind
  refine ⟨catalogued_empty ho h0, ?_, rfl⟩
  have hset : unused (makeRoot (emptyImage behind)) = (Finset.range 1024).erase 0 := by
    ext j
    rw [mem_unused, Finset.mem_erase, Finset.mem_range]
    by_cases hj : j = 0
    · rw [hj, makeRoot_inodes_zero]
      exact iff_of_false (fun hx => by cases hx.2) fun hx => hx.1 rfl
    · rw [makeRoot_inodes_ne hj]
      exact ⟨fun hx => ⟨hj, hx.1⟩, fun hx => ⟨hx.2, rfl⟩⟩
  rw [hset, Finset.card_erase_of_mem (Finset.mem_range.mpr (by omega)), Finset.card_range]
  exact u32Sub_of_le (x := 1024) (by omega) (by omega)

theorem step_kept_iff (h : Kept st.discos) (hop : WellNamed op) (hw : NoWrite op) :
    (ParsesParent st op → Kept (step st op).discos) ∧
      (Accounted (step st op).discos → ParsesParent st op) := by
  cases op with
  | unlink path mem => exact unlink_kept h hop
  | create | mkdir | chmod | «open» | lseek | read | close =>
    refine ⟨fun _ => step_kept h hop hw ?_, fun _ => trivial⟩
    intro _ _ e
    cases e
  | write => exact hw.elim

theorem kept_of_run
    (h : Reachable (fun st op => WellNamed op ∧ NoWrite op ∧ ParsesParent st op) st) :
    Kept st.discos := by
  obtain ⟨behind, buffer, h⟩ := h
  refine h.invariant (I := fun st => Kept st.discos) (init_kept behind buffer) fun st op hok hk => ?_
  exact (step_kept_iff hk hok.1 hok.2.1).1 hok.2.2

/-- In every run without `rd_write` whose calls of `rd_unlink` go to the parent
of the path, inodes, counter and entries account for each other; the next call
leaves them so exactly when it goes there too. -/
theorem inodes_accounted
    (h : Reachable (fun st op => WellNamed op ∧ NoWrite op ∧ ParsesParent st op) st) :
    Accounted st.discos ∧ ∀ op, WellNamed op → NoWrite op →
      (Accounted (step st op).discos ↔ ParsesParent st op) := by
  have hk := kept_of_run h
  refine ⟨hk.accounted, fun op hop hw => ?_⟩
  obtain ⟨hkeeps, hparses⟩ := step_kept_iff hk hop hw
  exact ⟨hparses, fun hp => (hkeeps hp).accounted⟩

theorem inodes_accounted_oneFile : Accounted oneFile.discos ∧ ∀ op, WellNamed op → NoWrite op →
    (Accounted (step oneFile op).discos ↔ ParsesParent oneFile op) :=
  inodes_accounted ⟨_, _, .step .start ⟨⟨[nameA], rfl⟩, trivial, trivial⟩⟩

/-! ## A parent without an end -/

/-- The file name `ax`. -/
def nameAx : Component := ⟨[97, 120], by decide, by decide, by decide, by decide⟩

/-- The directories `/a` and `/ax`, and the file `/a/a`. -/
def twoDirs : State :=
  [.mkdir (render [nameA]) ⟨[0, 0], [0, 0]⟩, .mkdir (render [nameAx]) ⟨[0, 0, 0], [0, 0, 0]⟩,
    .create (render [nameA, nameA]) .reg RW ⟨[0, 0, 0, 0], [0, 0, 0, 0]⟩].foldl step
    (initFileSys (fun _ _ => 0) fun _ => 0)

/-- `/a/a` removed, when the buffer for the parent ends in `x`. -/
def misparsed : State := step twoDirs (.unlink (render [nameA, nameA]) ⟨[0, 0, 120, 0], [0, 0, 0, 0]⟩)

theorem misparsed_entry : ref misparsed.discos (.direct 1 0) ≠ 0 ∧
    misparsed.discos.entryNum (blockOf (ref misparsed.discos (.direct 1 0))) 0 = 3 ∧
    (misparsed.discos.inodes 1).type = some .dir ∧ (misparsed.discos.inodes 3).type = none := by
  decide +kernel

/-- The entry is looked for in `/ax`, and left in `/a`. -/
theorem entry_of_nothing :
    Reachable (fun _ op => WellNamed op ∧ NoWrite op) misparsed ∧ ¬ Accounted misparsed.discos := by
  constructor
  · refine ⟨_, _, .step (Reach.foldl .start _ fun st op hop => ?_) ⟨⟨_, rfl⟩, trivial⟩⟩
    simp only [List.mem_cons, List.not_mem_nil, or_false] at hop
    rcases hop with rfl | rfl | rfl
    · exact ⟨⟨_, rfl⟩, trivial⟩
    · exact ⟨⟨_, rfl⟩, trivial⟩
    · exact ⟨⟨_, rfl⟩, trivial⟩
  · intro hacc
    obtain ⟨h0, hnum, hdir, hnone⟩ := misparsed_entry
    have hentry : Entry InUse misparsed.discos (.direct 1 0, 0) 3 :=
      ⟨⟨⟨by omega, by omega⟩, id, by rw [InUse, show (Place.direct 1 0).node = 1 from rfl, hdir]; decide, h0⟩,
        by omega, hnum, by omega⟩
    exact (hacc.names _ 3 hentry).2 hnone

end ToyOS.Ramdisk.Accounting
