import ToyOS.Ramdisk.Atomicity
import ToyOS.Ramdisk.Chains

/-! # Creating a file that is there

`rd_create` never looks whether the parent has the name. It refuses a path that
resolves only where something else stops it, and the names of a directory stay
different only as long as no name is entered again.
-/
namespace ToyOS.Ramdisk.Exclusive
open ToyOS.Lib.Words ToyOS.Lib.CStrings ToyOS.Lib.Runs ToyOS.Ramdisk.Image ToyOS.Ramdisk.Blocks
open ToyOS.Ramdisk.Places
open ToyOS.Ramdisk.Ownership ToyOS.Ramdisk.Paths ToyOS.Ramdisk.Components ToyOS.Ramdisk.Lookup
open ToyOS.Ramdisk.Directories ToyOS.Ramdisk.Slots ToyOS.Ramdisk.Namespace ToyOS.Ramdisk.Creating
open ToyOS.Ramdisk.Removing ToyOS.Ramdisk.Unlinking ToyOS.Ramdisk.Records ToyOS.Ramdisk.Effects
open ToyOS.Ramdisk.Supply ToyOS.Ramdisk.Descriptors ToyOS.Ramdisk.System ToyOS.Ramdisk.BlockOwnership
open ToyOS.Ramdisk.Atomicity ToyOS.Ramdisk.Catalog ToyOS.Ramdisk.Binding ToyOS.Ramdisk.Chains

variable {fs fs' : FileSys} {st : State} {op : Op} {k d mode : Nat} {name path : Str}
variable {type : FileType} {mem : Scratch} {r : Int} {cs : List Component}

/-! ## Refused without a trace -/

/-- Something stops `rd_create` before it has taken a block: the counters, a
parent that is not there, or a search of the parent that comes to nothing. -/
def Stopped (fs : FileSys) (path : Str) (mem : Scratch) : Prop :=
  fs.freeInodes = 0 ∨ fs.freeBlocks = 0 ∨ findIndex fs (splitPath path mem).1 = .missing ∨
    ∃ d, findIndex fs (splitPath path mem).1 = .inode d ∧ ¬ TakesInVain fs d ∧
      (¬ Finds fs d ∨ ¬ InodeFree fs)

theorem create_defined_iff (fs : FileSys) (path : Str) (type : FileType) (mode : Nat) (mem : Scratch) :
    rdCreate fs path type mode mem ≠ none ↔
      fs.freeInodes = 0 ∨ fs.freeBlocks = 0 ∨ findIndex fs (splitPath path mem).1 ≠ .outside := by
  unfold rdCreate
  by_cases hf : fs.freeInodes = 0
  · simp [hf]
  by_cases hb : fs.freeBlocks = 0
  · simp [hb]
  rw [if_neg hf, if_neg hb, or_iff_right hf, or_iff_right hb]
  dsimp only
  cases hfind : findIndex fs (splitPath path mem).1 with
  | outside => simp
  | missing => simp
  | inode d =>
    refine iff_of_true ?_ (by simp)
    dsimp only
    generalize getNextEntry fs d = g
    obtain ⟨fs₁, e⟩ := g
    cases e with
    | none => simp
    | some e =>
      dsimp only
      cases getFreeInodeNum fs₁ with
      | none => simp
      | some n => simp

/-- The call returns -1 and leaves everything as it was exactly when it is stopped. -/
theorem create_refused_iff (hw : Word fs) (path : Str) (type : FileType) (mode : Nat) (mem : Scratch) :
    rdCreate fs path type mode mem = some (fs, -1) ↔ Stopped fs path mem := by
  have hsucc := create_succeeds_iff hw path type mode mem
  have hsame := create_unchanged_iff hw path type mode mem
  have hdef := create_defined_iff fs path type mode mem
  have hvain : ∀ d, findIndex fs (splitPath path mem).1 = .inode d → fs.freeInodes ≠ 0 →
      (CreatesInVain fs path mem ↔ TakesInVain fs d) := fun d hd hf => by
    constructor
    · intro h
      obtain ⟨-, d', hd', ht⟩ := h
      obtain rfl := Found.inode.inj (hd.symm.trans hd')
      exact ht
    · exact fun ht => ⟨hf, d, hd, ht⟩
  constructor
  · intro h
    have hno : ¬ Succeeds fs path mem := fun hs => by
      obtain ⟨fs', e⟩ := hsucc.mpr hs
      cases h.symm.trans e
    have hclean := hsame.mp fun fs' e => (Prod.mk.inj (Option.some.inj (h.symm.trans e))).1.symm
    by_cases hf : fs.freeInodes = 0
    · exact .inl hf
    by_cases hb : fs.freeBlocks = 0
    · exact .inr (.inl hb)
    refine .inr (.inr ?_)
    cases hfind : findIndex fs (splitPath path mem).1 with
    | missing => exact .inl rfl
    | outside =>
      have hout := hdef.mp (by rw [h]; exact Option.some_ne_none _)
      rw [hfind] at hout
      simp [hf, hb] at hout
    | inode d =>
      refine .inr ⟨d, rfl, fun ht => hclean ((hvain d hfind hf).mpr ht), ?_⟩
      rw [← not_and_or]
      exact fun hx => hno ⟨hf, hb, hx.2, d, hfind, hx.1⟩
  · intro h
    have hno : ¬ Succeeds fs path mem := fun hs => by
      obtain ⟨hf, hb, hi, d, hd, hfinds⟩ := hs
      rcases h with h0 | h0 | h0 | ⟨d', hd', -, hstop⟩
      · exact hf h0
      · exact hb h0
      · rw [hd] at h0
        cases h0
      · obtain rfl := Found.inode.inj (hd.symm.trans hd')
        exact hstop.elim (fun hx => hx hfinds) fun hx => hx hi
    have hclean : ¬ CreatesInVain fs path mem := fun hv => by
      obtain ⟨hf, d, hd, ht⟩ := hv
      rcases h with h0 | h0 | h0 | ⟨d', hd', hnot, -⟩
      · exact hf h0
      · obtain ⟨p, -, -, ha, -⟩ := ht
        unfold avail at ha
        omega
      · rw [hd] at h0
        cases h0
      · obtain rfl := Found.inode.inj (hd.symm.trans hd')
        exact hnot ht
    have hsome : rdCreate fs path type mode mem ≠ none := by
      rw [hdef]
      rcases h with h0 | h0 | h0 | ⟨d, hd, -, -⟩
      · exact .inl h0
      · exact .inr (.inl h0)
      · rw [h0]
        simp
      · rw [hd]
        simp
    obtain ⟨⟨fs', r⟩, hcall⟩ := Option.ne_none_iff_exists'.mp hsome
    rcases create_returns hcall with rfl | rfl
    · rw [hcall, hsame.mpr hclean fs' hcall]
    · exact absurd (hsucc.mp ⟨fs', hcall⟩) hno

/-- The same of a call, where `rd_mkdir` of the root has a check of its own. -/
def StoppedCall (st : State) : Op → Prop
  | .create path _ _ mem => Stopped st.discos path mem
  | .mkdir path mem =>
    if path = [slash] then st.discos.freeInodes ≠ 1024 else Stopped st.discos path mem
  | _ => False

theorem onImage_idle {r : Option (FileSys × Int)} {v : Int} :
    onImage st r = some (st, v) ↔ r = some (st.discos, v) := by
  rw [onImage_eq]
  constructor
  · intro h
    obtain ⟨fs', hr, e⟩ := h
    rw [hr, show st.discos = fs' from congrArg State.discos e]
  · exact fun h => ⟨st.discos, h, rfl⟩

theorem call_refused_iff (hw : Word st.discos) (hop : Creates op path type mode mem) :
    call st op = some (st, -1) ↔ StoppedCall st op := by
  cases hop with
  | create => exact onImage_idle.trans (create_refused_iff hw path type mode mem)
  | mkdir =>
    refine onImage_idle.trans ?_
    unfold StoppedCall
    dsimp only
    by_cases hroot : path = [slash]
    · rw [if_pos hroot]
      unfold rdMkdir
      rw [if_pos hroot]
      by_cases hf : st.discos.freeInodes = 1024
      · rw [if_pos hf]
        simp [hf]
      · rw [if_neg hf]
        exact iff_of_true rfl hf
    · rw [if_neg hroot, rdMkdir_eq _ hroot]
      exact create_refused_iff hw path .dir 1 mem

/-! ## Different names -/

/-- Directories hold entries of different names. -/
structure Listed (fs : FileSys) : Prop extends Shelved IsDir fs where
  distinct : Distinct IsDir fs
  root : (fs.inodes 0).type = some .dir

theorem Listed.same (h : Listed fs) (ho : Owned every fs') (hs : SameEntries IsDir fs fs') :
    Listed fs' := by
  refine ⟨h.toShelved.same ho hs, h.distinct.keep h.toShelved fun p hp j _ => hs.held hp j, ?_⟩
  rw [hs.types]
  exact h.root

theorem Listed.create (h : Listed fs) (hnew : Succeeds fs (render cs) mem → NewName fs (render cs) mem)
    (hc : rdCreate fs (render cs) type mode mem = some (fs', r)) : Listed fs' := by
  have hsearch : ∀ {cur : Nat}, cur < 1024 → Listed (getNextEntry fs cur).1 := fun {cur} hcur => by
    refine ⟨h.toShelved.search hcur, h.distinct.keep h.toShelved fun p hp j _ =>
      search_held h.owned hcur hp j, ?_⟩
    rw [getNextEntry_types h.owned hcur]
    exact h.root
  have hres := rdCreate_result hc
  cases hres with
  | refused => exact h
  | @noEntry cur _ _ hcur _ _ hg =>
    have h₁ := hsearch hcur
    rwa [hg] at h₁
  | @filled cur n fs₁ e hcur _ hfind hg hn =>
    have hnew := hnew ((create_succeeds_iff h.owned.freeBlocks_lt _ type mode mem).mp ⟨_, hc⟩)
    have h₁ := hsearch hcur
    rw [hg] at h₁
    obtain ⟨hslot, hplain⟩ := (getNextEntry_next h.owned hcur hg).plain h.owned
    have hname : (splitPath (render cs) mem).2.length ≤ 13 := splitPath_length_le cs mem
    have hf : Filled fs₁ e n _ type (fillEntry fs₁ cur e n (splitPath (render cs) mem).2 type mode) :=
      fillEntry_filled h₁.owned hslot hname hplain
    have hin := newInode_of_get hn
    refine ⟨h₁.toShelved.fill hf hname hin.lt hin.pos,
      distinct_filled h.toShelved h.distinct hcur hfind hg hn hnew, ?_⟩
    rw [hf.types, if_neg (by have := hin.pos; omega)]
    exact h₁.root

theorem Listed.remove (h : Listed fs) (hk : k < 1024) (hd : d < 1024) (hz : 0 ∉ name) (h0 : k ≠ 0) :
    Listed (removeFile fs k d name) := by
  refine ⟨h.toShelved.remove hk hd hz, h.distinct.keep h.toShelved fun p hp j hj =>
    ((h.toShelved.remove_held hk hd hz hp).2.2.2 j hj).1, ?_⟩
  obtain ⟨S, hr, -⟩ := removeFile_removed h.owned hk hd name
  rw [removed_type hr h0.symm]
  exact h.root

/-- `/a` created where it is. -/
def again : State := step oneFile (.create (render [nameA]) .reg RW ⟨[0, 0], [0, 0]⟩)

end ToyOS.Ramdisk.Exclusive
