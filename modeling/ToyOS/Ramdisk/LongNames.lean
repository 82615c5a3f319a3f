import ToyOS.Ramdisk.Exclusive

/-! # Names that do not fit their field

`rd_create` copies the last component into the 14 bytes of a name field whatever
its length. A name of up to 13 bytes changes one entry; a longer one runs into
the number behind it and into the next entries.
-/
namespace ToyOS.Ramdisk.LongNames
open ToyOS.Lib.CStrings ToyOS.Lib.Runs ToyOS.Ramdisk.Image ToyOS.Ramdisk.Blocks ToyOS.Ramdisk.Places
open ToyOS.Ramdisk.Ownership ToyOS.Ramdisk.Growth ToyOS.Ramdisk.Paths ToyOS.Ramdisk.Components
open ToyOS.Ramdisk.Directories ToyOS.Ramdisk.Slots ToyOS.Ramdisk.Namespace ToyOS.Ramdisk.Creating
open ToyOS.Ramdisk.Records
open ToyOS.Ramdisk.Descriptors ToyOS.Ramdisk.System ToyOS.Ramdisk.Effects ToyOS.Ramdisk.BlockOwnership
open ToyOS.Ramdisk.Supply ToyOS.Ramdisk.Catalog ToyOS.Ramdisk.Exclusive

variable {fs fs' : FileSys} {st : State} {op : Op} {k n cur mode : Nat} {e : EntryPtr}
variable {name path pre : Str} {type : FileType} {mem : Scratch} {r : Int}

/-- A leaf block of any inode: the blocks that can hold directory entries. -/
abbrev Leaf (fs : FileSys) (p : Place) : Prop := EntryBlock (fun _ => True) fs p

/-- Of all leaf blocks only the sixteen bytes of `e` change, and `e` then holds the
name, with its terminator inside the name field, and the number `n`. -/
structure OneEntry (fs fs' : FileSys) (e : EntryPtr) (name : Str) (n : Nat) : Prop where
  others : ∀ p a, Leaf fs p → a < 256 → ¬ (blockOf (ref fs p) = e.block ∧ a / 16 = e.slot) →
    fs'.dataBlocks (blockOf (ref fs p)) a = fs.dataBlocks (blockOf (ref fs p)) a
  fits : name.length < 14
  named : fs'.entryNameIs e.block e.slot name = true
  number : fs'.entryNum e.block e.slot = n

/-- What is asked of a call for a path whose last component is `name`. -/
structure StaysInside (fs : FileSys) (path name : Str) (type : FileType) (mode : Nat) (mem : Scratch) :
    Prop where
  created : ∀ fs', rdCreate fs path type mode mem = some (fs', 0) →
    ∃ d e n, findIndex fs (splitPath path mem).1 = .inode d ∧ (getNextEntry fs d).2 = some e ∧
      getFreeInodeNum (getNextEntry fs d).1 = some n ∧ OneEntry fs fs' e name n
  refused : 14 ≤ name.length → rdCreate fs path type mode mem = some (fs, -1)

theorem filled_oneEntry (ho : Owned every fs) (hcur : cur < 1024)
    (hg : getNextEntry fs cur = (fs', some e)) (hn : getFreeInodeNum fs' = some n)
    (hname : name.length ≤ 13) : OneEntry fs (fillEntry fs' cur e n name type mode) e name n := by
  have hnext := getNextEntry_next ho hcur hg
  have hx := hnext.extends ho
  obtain ⟨hslot, hplain⟩ := hnext.plain ho
  have hf : Filled fs' e n name type (fillEntry fs' cur e n name type mode) :=
    fillEntry_filled hx.owned hslot hname hplain
  refine ⟨fun p a hp ha hne => ?_, by omega, hf.name_self hname hslot, ?_⟩
  · have hsame := congrFun (hx.leaves p hp.valid hp.leaf hp.there) a
    rw [← hsame]
    exact hf.slot hname hne (by omega) (by omega)
  · unfold FileSys.entryNum
    rw [hf.mine, entryBytes_num (newInode_of_get hn).lt]

theorem staysInside_of_short (ho : Owned every fs) (hsplit : (splitPath path mem).2 = name)
    (hname : name.length ≤ 13) : StaysInside fs path name type mode mem := by
  refine ⟨fun fs' h => ?_, fun hlong => by omega⟩
  have hres := rdCreate_result h
  generalize hr : (0 : Int) = r at hres
  cases hres with
  | refused | noEntry => cases hr
  | filled hc _ hfind hg hn =>
    rw [hsplit]
    exact ⟨_, _, _, hfind, by rw [hg], by rw [hg]; exact hn, filled_oneEntry ho hc hg hn hname⟩

/-- A call stays inside one entry exactly when its name fits the field, or it is
stopped by something else. -/
theorem staysInside_iff (ho : Owned every fs) (hsplit : (splitPath path mem).2 = name) :
    StaysInside fs path name type mode mem ↔ name.length ≤ 13 ∨ Stopped fs path mem := by
  have hstop := create_refused_iff ho.freeBlocks_lt path type mode mem
  constructor
  · intro h
    by_cases hname : name.length ≤ 13
    · exact .inl hname
    · exact .inr (hstop.mp (h.refused (by omega)))
  · intro h
    rcases h with hname | hs
    · exact staysInside_of_short ho hsplit hname
    · have hcall := hstop.mpr hs
      refine ⟨fun fs' h' => ?_, fun _ => hcall⟩
      cases hcall.symm.trans h'

/-! ## Runs -/

/-- The name the call enters fits its field. -/
def ShortName : Op → Prop
  | .create path _ _ mem | .mkdir path mem => (splitPath path mem).2.length ≤ 13
  | _ => True

theorem shortName_fits (ho : Owned every st.discos) (h : ShortName op) : Fits st op := by
  have hfit : ∀ {path mem}, (splitPath path mem).2.length ≤ 13 → NameFits st.discos path mem :=
    fun {path mem} hlen cur e hfind he => by
      have hnext : NextEntry st.discos cur (getNextEntry st.discos cur).1 (some e) :=
        getNextEntry_next ho (findIndex_lt hfind) (Prod.ext rfl he)
      have hslot := (hnext.plain ho).1
      omega
  cases op with
  | create | mkdir => exact hfit h
  | unlink | chmod | «open» | write | lseek | read | close => trivial

/-- The call enters a name that fits, or is stopped by something else. -/
def EntersShort (st : State) (op : Op) : Prop := ShortName op ∨ StoppedCall st op

theorem step_owned (ho : Owned every st.discos) (h : EntersShort st op) :
    Owned every (step st op).discos := by
  have hidle : call st op = some (st, -1) → Owned every (step st op).discos := fun e => by
    rw [step, e]
    exact ho
  rcases h with hs | hs
  · exact (step_effect st op).owned ho (shortName_fits ho hs)
  · cases op with
    | create => exact hidle ((call_refused_iff ho.freeBlocks_lt .create).mpr hs)
    | mkdir => exact hidle ((call_refused_iff ho.freeBlocks_lt .mkdir).mpr hs)
    | unlink | chmod | «open» | write | lseek | read | close => exact hs.elim

/-- In every run whose calls all meet it, an `rd_create` on any path whose last
component is `name` stays inside one entry exactly when `name` fits as well or
something else stops the call. -/
theorem long_names_spill (h : Reachable EntersShort st) (h0 : 0 ∉ name)
    (hslash : slash ∉ name) (pre : Str) (type : FileType) (mode : Nat) (mem : Scratch) :
    StaysInside st.discos (pre ++ slash :: name) name type mode mem ↔
      name.length ≤ 13 ∨ Stopped st.discos (pre ++ slash :: name) mem := by
  obtain ⟨behind, buffer, h⟩ := h
  have ho : Owned every st.discos := h.invariant (I := fun st => Owned every st.discos)
    (init_owned behind buffer) fun st op hop ho => step_owned ho hop
  exact staysInside_iff ho (splitPath_name h0 hslash pre mem)

/-- The files `/a` and `/b`, and `/a` removed again. -/
def secondLeft : State :=
  [.create (slash :: [98]) .reg RW ⟨[0, 0], [0, 0]⟩,
    .unlink (render [nameA]) ⟨[0, 0], [0, 0]⟩].foldl step oneFile

/-- Twenty times the letter c. -/
def longName : Str := List.replicate 20 99

theorem secondLeft_reachable : Reachable EntersShort secondLeft := by
  have hone : Reach EntersShort step (initFileSys (fun _ _ => 0) fun _ => 0) oneFile := by
    refine .step .start (.inl ?_)
    show (splitPath (render [nameA]) ⟨[0, 0], [0, 0]⟩).2.length ≤ 13
    decide
  refine ⟨_, _, hone.foldl _ fun _ op hop => .inl ?_⟩
  simp only [List.mem_cons, List.not_mem_nil, or_false] at hop
  rcases hop with rfl | rfl
  · show (splitPath (slash :: [98]) ⟨[0, 0], [0, 0]⟩).2.length ≤ 13
    decide
  · trivial

theorem long_names_spill_secondLeft :
    StaysInside secondLeft.discos ([] ++ slash :: longName) longName .reg RW ⟨[0, 0], [0, 0]⟩ ↔
      longName.length ≤ 13 ∨ Stopped secondLeft.discos ([] ++ slash :: longName) ⟨[0, 0], [0, 0]⟩ :=
  long_names_spill secondLeft_reachable (by decide) (by decide) [] .reg RW ⟨[0, 0], [0, 0]⟩

/-- The long name goes into the free entry and over the name of `/b` behind it. -/
theorem name_overwritten : Reachable (fun _ _ => True) secondLeft ∧
    ¬ StaysInside secondLeft.discos (slash :: longName) longName .reg RW ⟨[0, 0], [0, 0]⟩ := by
  obtain ⟨behind, buffer, hr⟩ := secondLeft_reachable
  refine ⟨⟨behind, buffer, hr.mono fun _ _ _ => trivial⟩, fun h => ?_⟩
  have hcall : (rdCreate secondLeft.discos (slash :: longName) .reg RW ⟨[0, 0], [0, 0]⟩).map
      (fun r => (r.2, r.1.dataBlocks 0 16)) = some (0, 99) := by decide +kernel
  have hbefore : findIndex secondLeft.discos
        (splitPath (slash :: longName) ⟨[0, 0], [0, 0]⟩).1 = .inode 0 ∧
      (getNextEntry secondLeft.discos 0).2 = some ⟨0, 0⟩ ∧
      ref secondLeft.discos (.direct 0 0) = ptrTo 0 ∧ secondLeft.discos.dataBlocks 0 16 = 98 := by
    decide +kernel
  obtain ⟨hparent, hentry, hblock, hb⟩ := hbefore
  obtain ⟨⟨fs', r⟩, hc, hv⟩ := Option.map_eq_some_iff.mp hcall
  obtain ⟨rfl, hbyte⟩ := Prod.mk.inj hv
  obtain ⟨d, e, n, hd, he, -, hone⟩ := h.created fs' hc
  obtain rfl := Found.inode.inj (hparent.symm.trans hd)
  obtain rfl := Option.some.inj (hentry.symm.trans he)
  have hleaf : Leaf secondLeft.discos (.direct 0 0) :=
    ⟨⟨by omega, by omega⟩, id, trivial, by rw [hblock]; decide⟩
  have hkept := hone.others _ 16 hleaf (by omega) fun hx => by cases hx.2
  rw [hblock] at hkept
  rw [show blockOf (ptrTo 0) = 0 from rfl, hb, hbyte] at hkept
  cases hkept

end ToyOS.Ramdisk.LongNames
