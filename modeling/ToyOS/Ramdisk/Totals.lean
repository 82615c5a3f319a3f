import ToyOS.Ramdisk.Resolving
import ToyOS.Ramdisk.Sizes

/-! # Sizes that cover their entries

Every entry was paid for with 16 bytes of its parent's size, and all sizes
together come to 16 bytes for each inode in use at most, so that no size
overflows. Entries may be lost, so a size can be more than that of its entries.
-/
namespace ToyOS.Ramdisk.Totals
open ToyOS.Lib.CStrings ToyOS.Lib.Words ToyOS.Lib.Runs ToyOS.Ramdisk.Image ToyOS.Ramdisk.Blocks
open ToyOS.Ramdisk.Places ToyOS.Ramdisk.Ownership ToyOS.Ramdisk.Growth ToyOS.Ramdisk.Paths
open ToyOS.Ramdisk.Components ToyOS.Ramdisk.Directories ToyOS.Ramdisk.Slots ToyOS.Ramdisk.Namespace
open ToyOS.Ramdisk.Creating ToyOS.Ramdisk.Removing ToyOS.Ramdisk.Records ToyOS.Ramdisk.Cursors
open ToyOS.Ramdisk.Effects ToyOS.Ramdisk.Descriptors ToyOS.Ramdisk.System ToyOS.Ramdisk.Catalog
open ToyOS.Ramdisk.BlockOwnership ToyOS.Ramdisk.Binding ToyOS.Ramdisk.Accounting ToyOS.Ramdisk.Resolving
open ToyOS.Ramdisk.Sizes (occupied occupied_new occupied_search occupied_other occupied_removed)
open ToyOS.Ramdisk.Sizes (occupied_empty occupied_congr mem_occupied_entry card_occupied_created)
open ToyOS.Ramdisk.Sizes (taken mem_taken taken_subset init_size)

variable {fs fs₁ fs' : FileSys} {st : State} {op : Op} {f g : Nat → Nat} {a b i j x k d cur n mode : Nat}
variable {e : EntryPtr} {name path : Str} {type : FileType} {mem : Scratch} {r : Int}
variable {cs : List Component} {c : Component}

/-! ## Sums -/

/-- The sum of the first `n` values. -/
def total (f : Nat → Nat) : Nat → Nat
  | 0 => 0
  | n + 1 => total f n + f n

theorem le_total (hx : x < n) : f x ≤ total f n := by
  induction n with
  | zero => cases hx
  | succ n ih =>
    rw [total]
    rcases Nat.lt_succ_iff_lt_or_eq.mp hx with h | rfl
    · exact (ih h).trans (Nat.le_add_right _ _)
    · exact Nat.le_add_left _ _

theorem total_mono (h : ∀ x, f x ≤ g x) (n : Nat) : total f n ≤ total g n := by
  induction n with
  | zero => exact Nat.le_refl 0
  | succ n ih => exact Nat.add_le_add ih (h n)

/-- One of the values is greater by `a`. -/
theorem total_bump (hi : i < n) : total (fun x => f x + if x = i then a else 0) n = total f n + a := by
  have hbelow : ∀ m, m ≤ i → total (fun x => f x + if x = i then a else 0) m = total f m := by
    intro m hm
    induction m with
    | zero => rfl
    | succ m ih => rw [total, total, ih (by omega), if_neg (by omega), Nat.add_zero]
  induction n with
  | zero => cases hi
  | succ n ih =>
    rw [total, total]
    rcases Nat.lt_succ_iff_lt_or_eq.mp hi with h | rfl
    · rw [ih h, if_neg (by omega)]
      omega
    · rw [hbelow i (Nat.le_refl i), if_pos rfl]
      omega

theorem total_zero (h : ∀ x, f x = 0) (n : Nat) : total f n = 0 := by
  induction n with
  | zero => rfl
  | succ n ih => rw [total, ih, h]

/-- What all files have grown to. -/
def sizes (fs : FileSys) : Nat := total (fun x => (fs.inodes x).size) 1024

structure Covered (fs : FileSys) : Prop where
  enough : ∀ x, Live fs x → 16 * (occupied fs x).card ≤ (fs.inodes x).size
  bounded : sizes fs + 16 * fs.freeInodes ≤ 16 * 1024

theorem Covered.lt (h : Covered fs) (hx : x < 1024) : (fs.inodes x).size ≤ 16384 := by
  have hle : (fs.inodes x).size ≤ sizes fs := le_total (f := fun x => (fs.inodes x).size) hx
  have := h.bounded
  omega

/-- Records and entries are the same. -/
theorem Covered.same (h : Covered fs) (ho : ∀ x, Live fs x → occupied fs' x = occupied fs x)
    (htype : ∀ x, (fs'.inodes x).type = (fs.inodes x).type)
    (hsize : ∀ x, (fs'.inodes x).size = (fs.inodes x).size) (hfree : fs'.freeInodes = fs.freeInodes) :
    Covered fs' := by
  refine ⟨fun x hx => ?_, ?_⟩
  · have hx₀ : Live fs x := ⟨hx.1, by rw [← htype]; exact hx.2⟩
    rw [ho x hx₀, hsize]
    exact h.enough x hx₀
  · unfold sizes
    rw [show (fun x => (fs'.inodes x).size) = fun x => (fs.inodes x).size from funext hsize, hfree]
    exact h.bounded

/-! ## Creating a file -/

theorem Covered.search (h : Covered fs) (hk : Kept fs) (hc : cur < 1024) : Covered (getNextEntry fs cur).1 := by
  obtain ⟨hrec, hfree⟩ := getNextEntry_records fs cur
  exact h.same (fun x hx => occupied_search hk.toShelved hc hx.1 hx.2)
    (fun x => congrArg Record.type (congrFun hrec x)) (fun x => congrArg Record.size (congrFun hrec x)) hfree

/-- The parent grows by 16, and by one entry at most. -/
theorem Covered.fill (h : Covered fs) (hk : Kept fs) (hcur : cur < 1024)
    (hg : getNextEntry fs cur = (fs₁, some e)) (hf : Filled fs₁ e n name type fs') (hname : name.length ≤ 13)
    (hnew : NewInode fs n) (hrec : record fs' = createdRecord fs cur n type mode)
    (hfree : fs'.freeInodes = u32Sub fs.freeInodes 1) : Covered fs' := by
  have hlt := h.lt hcur
  have hgrown : u32 ((fs.inodes cur).size + 16) = (fs.inodes cur).size + 16 := u32_of_lt (by omega)
  refine ⟨fun x hx => ?_, ?_⟩
  · by_cases hxn : x = n
    · rw [hxn, occupied_new hf hnew.lt]
      exact Nat.zero_le _
    · have htype : (fs'.inodes x).type = (fs.inodes x).type := by
        by_cases hxc : x = cur
        · rw [hxc] at hxn ⊢
          exact (created_parent hrec hxn).1
        · exact (created_other hrec hxn hxc).1
      have hx₀ : Live fs x := ⟨hx.1, by rw [← htype]; exact hx.2⟩
      obtain ⟨hone, hnone⟩ :=
        card_occupied_created hk.toShelved hcur hg hf hname hnew.lt hnew.pos hx.1 hxn hx₀.2
      have henough := h.enough x hx₀
      by_cases hxc : x = cur
      · subst hxc
        rw [(created_parent hrec hxn).2, hgrown]
        by_cases hu : Unlinked fs x
        · rw [hnone fun hc => hc.2 hu]
          omega
        · rw [hone ⟨rfl, hu⟩]
          omega
      · rw [(created_other hrec hxn hxc).2, hnone fun hc => hxc hc.1]
        exact henough
  · have hsum : sizes fs' ≤ sizes fs + 16 := by
      unfold sizes
      rw [← total_bump hcur]
      refine total_mono (fun x => ?_) 1024
      by_cases hxn : x = n
      · rw [hxn, (created_new hrec).2]
        split <;> omega
      · by_cases hxc : x = cur
        · rw [hxc] at hxn ⊢
          rw [(created_parent hrec hxn).2, hgrown, if_pos rfl]
        · rw [(created_other hrec hxn hxc).2, if_neg hxc, Nat.add_zero]
    have hcount := hnew.counted
    have hbound := h.bounded
    rw [hfree, u32Sub_of_le (by omega) (by omega)]
    omega

/-! ## Removing a file -/

/-- The parent shrinks by 16, and by one entry at least. -/
theorem Covered.remove (h : Covered fs) (hk : Kept fs) (hd : Live fs d) (hf : edge fs d c = some k) :
    Covered (removeFile fs k d c.bytes) ∧ 16 ≤ (fs.inodes d).size := by
  obtain ⟨s, hs, hnode, hname, he, hlive⟩ := edge_entry hk hd hf
  have hdk : d ≠ k := by
    rw [← hnode]
    exact (hk.names s k he).2.2.symm
  obtain ⟨s', he', -, hr', hswept⟩ := hk.found_swept hd.1 hd.2 c.ne_nil c.noZero hf
  obtain rfl := hk.unique s s' k he he'
  have htaken : s ∈ taken fs d c.bytes :=
    mem_taken.mpr ⟨(mem_occupied_entry hd.1 hd.2).mpr ⟨hnode, k, he⟩, .inr ⟨hswept, hname⟩⟩
  have hpos : 0 < (taken fs d c.bytes).card := Finset.card_pos.mpr ⟨s, htaken⟩
  have hle : (taken fs d c.bytes).card ≤ (occupied fs d).card := Finset.card_le_card taken_subset
  have hsize : 16 ≤ (fs.inodes d).size := by
    have := h.enough d hd
    omega
  have hlt := h.lt hd.1
  have hshrunk : u32Sub (fs.inodes d).size 16 = (fs.inodes d).size - 16 := u32Sub_of_le (by omega) hsize
  obtain ⟨hrec, hfree⟩ := removeFile_record fs k d c.bytes
  have hother : ∀ x, x ≠ k → x ≠ d → x < 1024 →
      occupied (removeFile fs k d c.bytes) x = occupied fs x := fun x =>
    occupied_other hk.toShelved hlive.1 hd.1
  have hparent := occupied_removed hk.toShelved hlive.1 hd.1 c.noZero hdk hd.2
  refine ⟨⟨fun x hx => ?_, ?_⟩, hsize⟩
  · have hxk : x ≠ k := by
      rintro rfl
      exact hx.2 (removed_self hrec)
    by_cases hxd : x = d
    · subst hxd
      have henough := h.enough x hd
      rw [(removed_parent hrec hxk).2, hshrunk, hparent, Finset.card_sdiff_of_subset taken_subset]
      omega
    · obtain ⟨htype, hsame⟩ := removed_other hrec hxk hxd
      rw [hsame, hother x hxk hxd hx.1]
      exact h.enough x ⟨hx.1, by rw [← htype]; exact hx.2⟩
  · have hsum : sizes (removeFile fs k d c.bytes) + 16 ≤ sizes fs := by
      unfold sizes
      rw [← total_bump hd.1]
      refine total_mono (fun x => ?_) 1024
      by_cases hxk : x = k
      · have hz : ((removeFile fs k d c.bytes).inodes k).size = 0 := by
          have hself := congrFun hrec k
          rw [removedRecord, if_pos rfl] at hself
          exact congrArg Record.size hself
        rw [hxk, hz, if_neg hdk.symm]
        omega
      · by_cases hxd : x = d
        · rw [hxd, (removed_parent hrec hdk).2, hshrunk, if_pos rfl]
          omega
        · rw [(removed_other hrec hxk hxd).2, if_neg hxd]
          omega
    have hbound := h.bounded
    have hu32 : u32 (fs.freeInodes + 1) = fs.freeInodes + 1 := u32_of_lt (by omega)
    rw [hfree, hu32]
    omega

/-! ## Every call -/

theorem Covered.create (h : Covered fs) (hk : Kept fs)
    (hc : CreateResult fs (render cs) type mode mem fs' r) : Covered fs' := by
  cases hc with
  | refused => exact h
  | @noEntry cur _ _ hcur _ _ hg =>
    have h₁ := h.search hk hcur
    rwa [hg] at h₁
  | @filled cur n fs₁ e hcur _ _ hg hn =>
    obtain ⟨hslot, hplain⟩ := (getNextEntry_next hk.owned hcur hg).plain hk.owned
    have hname : (splitPath (render cs) mem).2.length ≤ 13 := splitPath_length_le cs mem
    have hsame := getNextEntry_records fs cur
    rw [hg] at hsame
    have hget : getFreeInodeNum fs = some n := (getFreeInodeNum_congr hsame).symm.trans hn
    refine h.fill hk hcur hg (fillEntry_filled (hk.searched hcur hg).owned hslot hname hplain) hname
      (newInode_of_get hget) ((fillEntry_record ..).trans (createdRecord_congr hsame)) ?_
    rw [fillEntry_free, hsame.2]

theorem Covered.chmod (h : Covered fs) (k mode : Nat) :
    Covered (fs.setInode k { fs.inodes k with access := mode }) := by
  have hrec : ∀ x, ((fs.setInode k { fs.inodes k with access := mode }).inodes x).type = (fs.inodes x).type ∧
      ((fs.setInode k { fs.inodes k with access := mode }).inodes x).size = (fs.inodes x).size := fun x => by
    by_cases hx : x = k
    · rw [hx, setInode_inodes_self]
      exact ⟨rfl, rfl⟩
    · rw [setInode_inodes_ne _ _ hx]
      exact ⟨rfl, rfl⟩
  exact h.same (fun x hx => occupied_congr hx.1 (fun q _ _ => ref_setInode fun _ => ⟨rfl, rfl, rfl⟩)
    fun q _ _ _ _ => rfl) (fun x => (hrec x).1) (fun x => (hrec x).2) rfl

theorem step_covered (h : Covered st.discos) (hk : Kept st.discos) (hop : WellNamed op) (hw : NoWrite op)
    (hp : ParsesParent st op) : Covered (step st op).discos := by
  have he := step_effect st op
  generalize hfs : (step st op).discos = fs' at he ⊢
  cases he with
  | idle => exact h
  | create hc =>
    obtain ⟨cs, rfl⟩ := hop
    exact h.create hk hc
  | mkdir hc =>
    obtain ⟨cs, rfl⟩ := hop
    exact h.create hk hc
  | root hf => exact absurd hf hk.freeInodes_ne
  | @unlink path mem _ _ =>
    obtain ⟨cs, rfl⟩ := hop
    rw [← hfs]
    rcases unlink_removes hp with hsame | ⟨ds, c, d, k, hd, hlt, hf, hstep⟩
    · rw [hsame]
      exact h
    · rw [hstep]
      exact (h.remove hk ⟨hlt, hk.resolves hd⟩ hf).1
  | chmod => exact h.chmod _ _
  | write => exact hw.elim

theorem init_covered (behind : Nat → Bytes) (buffer : Bytes) :
    Covered (initFileSys behind buffer).discos := by
  rw [initFileSys_discos]
  have h0 := ref_init behind
  refine ⟨fun x hx => ?_, ?_⟩
  · rw [occupied_empty (fun q _ _ => h0 q) hx.1]
    exact Nat.zero_le _
  · have hfree : (makeRoot (emptyImage behind)).freeInodes = 1023 :=
      u32Sub_of_le (x := 1024) (by omega) (by omega)
    rw [sizes, total_zero (init_size behind), hfree]
    omega

theorem covered_of_run
    (h : Reachable (fun st op => WellNamed op ∧ NoWrite op ∧ ParsesParent st op) st) :
    Kept st.discos ∧ Covered st.discos := by
  obtain ⟨behind, buffer, h⟩ := h
  refine h.invariant (I := fun st => Kept st.discos ∧ Covered st.discos)
    ⟨init_kept behind buffer, init_covered behind buffer⟩ fun st op hok hi => ?_
  obtain ⟨hop, hw, hp⟩ := hok
  exact ⟨(step_kept_iff hi.1 hop hw).1 hp, step_covered hi.2 hi.1 hop hw hp⟩

end ToyOS.Ramdisk.Totals
