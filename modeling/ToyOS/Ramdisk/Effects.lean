import ToyOS.Ramdisk.Removing
import ToyOS.Ramdisk.System
import ToyOS.Ramdisk.Writing

/-! # What one call can do to the image

`Effect` has one case for each way a call changes the image, with what the call
looked up on the way. Every invariant of the image is proved from it.
-/
namespace ToyOS.Ramdisk.Effects
open ToyOS.Lib.Loop ToyOS.Lib.Words ToyOS.Lib.Bits ToyOS.Lib.Runs ToyOS.Lib.CStrings
open ToyOS.Ramdisk.Image ToyOS.Ramdisk.Blocks ToyOS.Ramdisk.Places ToyOS.Ramdisk.Ownership
open ToyOS.Ramdisk.Growth ToyOS.Ramdisk.Paths ToyOS.Ramdisk.Slots ToyOS.Ramdisk.Namespace
open ToyOS.Ramdisk.Descriptors ToyOS.Ramdisk.Write ToyOS.Ramdisk.Read ToyOS.Ramdisk.System
open ToyOS.Ramdisk.Writing ToyOS.Ramdisk.Creating ToyOS.Ramdisk.Removing

variable {st : State} {op : Op} {fs' : FileSys}

/-- `rd_write` gets as far as its loops, on inode `k` from cursor `c` on. -/
def Writes (st : State) (fd pid : Int) (k : Nat) (c : Nat) : Prop :=
  ∃ f, findFileObject st fd pid = some f ∧ (∃ h, (st.fileObject f).inodePtr = some ⟨k, h⟩) ∧
    (st.fileObject f).cursor = c ∧ (st.discos.inodes k).type ≠ some .dir ∧
    (st.discos.inodes k).access ≠ RD ∧ (st.fileObject f).status ≠ RD

/-- `init_file_sys` and `rd_mkdir("/")` on a file system without a root. -/
def makeRoot (fs : FileSys) : FileSys :=
  { fs with freeInodes := u32Sub fs.freeInodes 1 }.setInode 0
    { fs.inodes 0 with type := some .dir }

inductive Effect (st : State) : Op → FileSys → Prop
  | idle {op : Op} : Effect st op st.discos
  | create {path : Str} {type : FileType} {mode : Nat} {mem : Scratch} {fs' : FileSys} {r : Int}
      (h : CreateResult st.discos path type mode mem fs' r) :
      Effect st (.create path type mode mem) fs'
  | mkdir {path : Str} {mem : Scratch} {fs' : FileSys} {r : Int}
      (h : CreateResult st.discos path .dir 1 mem fs' r) : Effect st (.mkdir path mem) fs'
  | root {mem : Scratch} (h : st.discos.freeInodes = 1024) :
      Effect st (.mkdir [slash] mem) (makeRoot st.discos)
  | unlink {path : Str} {mem : Scratch} {fs' : FileSys} {r : Int}
      (h : UnlinkResult st.discos path mem fs' r) : Effect st (.unlink path mem) fs'
  | chmod {path : Str} {mode k : Nat} (hk : k < 1024) (hfind : findIndex st.discos path = .inode k) :
      Effect st (.chmod path mode)
        (st.discos.setInode k { st.discos.inodes k with access := mode })
  | write {fd pid : Int} {data : Bytes} {n : Int} {k c : Nat} (hk : k < 1024)
      (hw : Writes st fd pid k c) :
      Effect st (.write fd pid data n) (writeStages k data n ⟨st.discos, c, 0, 0⟩).state.fs

theorem setFileObject_discos (st : State) (f : FdPtr) (o : FileObject) :
    (st.setFileObject f o).discos = st.discos := rfl

theorem createFileObject_discos {st st' : State} {pid : Int} {f : FdPtr}
    (h : createFileObject st pid = some (st', f)) : st'.discos = st.discos := by
  unfold createFileObject at h
  split at h
  · cases h
  · obtain ⟨i, _, e⟩ := Option.map_eq_some_iff.mp h
    rw [← (Prod.mk.inj e).1]; rfl

theorem rdOpen_discos {st' : State} {path : Str} {fl : Nat} {pid r : Int}
    (h : rdOpen st path fl pid = some (st', r)) : st'.discos = st.discos := by
  unfold rdOpen at h
  split at h
  · cases h; rfl
  · split at h
    · cases h
    · cases h; rfl
    · split at h
      · split at h
        · cases h; rfl
        · split at h
          · cases h; rfl
          · rename_i he
            dsimp only at h
            rw [← (Prod.mk.inj (Option.some.inj h)).1, setFileObject_discos,
              createFileObject_discos he]
      · cases h

theorem rdLseek_discos (st : State) (fd off pid : Int) : (rdLseek st fd off pid).1.discos = st.discos := by
  unfold rdLseek
  split
  · rfl
  · split
    · rfl
    · dsimp only; split <;> rfl

theorem rdClose_discos (st : State) (fd pid : Int) : (rdClose st fd pid).1.discos = st.discos := by
  unfold rdClose
  split <;> rfl

theorem rdRead_discos (st : State) (fd : Int) (a : Bytes) (n pid : Int) :
    (rdRead st fd a n pid).1.discos = st.discos := by
  unfold rdRead
  split
  · rfl
  · split <;> rfl

theorem rdWrite_effect (st : State) (fd pid : Int) (data : Bytes) (n : Int) :
    Effect st (.write fd pid data n) (rdWrite st fd pid data n).1.discos := by
  unfold rdWrite
  split
  · exact .idle
  · rename_i f hf
    split
    · exact .idle
    · rename_i k hk
      split
      · exact .idle
      · rename_i hd
        split
        · exact .idle
        · rename_i ha
          rw [not_or] at ha
          exact .write k.isLt ⟨f, hf, ⟨k.isLt, hk⟩, rfl, hd, ha.1, ha.2⟩

/-- The inversion lemma of the transition system. -/
theorem step_effect (st : State) (op : Op) : Effect st op (step st op).discos := by
  unfold step
  cases hc : call st op with
  | none => exact .idle
  | some r =>
    obtain ⟨st', v⟩ := r
    show Effect st op st'.discos
    have hst : ∀ {x : State × Int}, x = (st', v) → x.1.discos = st'.discos := fun e => by rw [e]
    cases op with
    | create path type mode mem =>
      obtain ⟨⟨fs', r⟩, h, e⟩ := Option.map_eq_some_iff.mp hc
      cases e
      exact .create (rdCreate_result h)
    | mkdir path mem =>
      obtain ⟨⟨fs', r⟩, h, e⟩ := Option.map_eq_some_iff.mp hc
      cases e
      unfold rdMkdir at h
      split at h
      · rename_i hp
        subst hp
        split at h
        · rename_i hf
          cases h
          exact .root hf
        · cases h; exact .idle
      · obtain ⟨⟨fs₁, r₁⟩, h₁, e⟩ := Option.map_eq_some_iff.mp h
        cases e
        exact .mkdir (rdCreate_result h₁)
    | unlink path mem =>
      obtain ⟨⟨fs', r⟩, h, e⟩ := Option.map_eq_some_iff.mp hc
      cases e
      exact .unlink (rdUnlink_result h)
    | chmod path mode =>
      obtain ⟨⟨fs', r⟩, h, e⟩ := Option.map_eq_some_iff.mp hc
      cases e
      unfold rdChmod at h
      split at h
      · cases h; exact .idle
      · split at h
        · cases h
        · cases h; exact .idle
        · rename_i k hfind
          cases h
          exact .chmod (findIndex_lt hfind) hfind
    | «open» path fl pid => rw [rdOpen_discos hc]; exact .idle
    | write fd pid data n =>
      rw [← hst (Option.some.inj hc)]
      exact rdWrite_effect st fd pid data n
    | lseek fd off pid => rw [← hst (Option.some.inj hc), rdLseek_discos]; exact .idle
    | read fd a n pid =>
      rw [← hst (Option.some.inj hc), rdRead_discos]; exact .idle
    | close fd pid => rw [← hst (Option.some.inj hc), rdClose_discos]; exact .idle

/-! ## Ownership -/

/-- Names that fit, where a call writes one. -/
def Fits (st : State) : Op → Prop
  | .create path _ _ mem | .mkdir path mem => NameFits st.discos path mem
  | _ => True

theorem owned_of_ref {fs fs' : FileSys} (ho : Owned every fs) (hi : ∀ q, ref fs' q = ref fs q)
    (hmap : fs'.bitmap = fs.bitmap) (hf : fs'.freeBlocks = fs.freeBlocks) : Owned every fs' :=
  owned_congr ho (fun q _ _ => hi q) (fun c => by rw [hmap]) hf

theorem makeRoot_ref (fs : FileSys) (q : Place) : ref (makeRoot fs) q = ref fs q := by
  have h : ∀ f : FileSys, ref (f.setInode 0 { f.inodes 0 with type := some .dir }) q = ref f q :=
    fun f => ref_setInode fun _ => ⟨rfl, rfl, rfl⟩
  exact (h _).trans (ref_of_eq rfl rfl q)

theorem Effect.owned (h : Effect st op fs') (ho : Owned every st.discos) (hfit : Fits st op) :
    Owned every fs' := by
  cases h with
  | idle => exact ho
  | create h => exact h.owned ho hfit
  | mkdir h => exact h.owned ho hfit
  | root => exact owned_of_ref ho (makeRoot_ref _) rfl rfl
  | unlink h =>
    cases h with
    | refused => exact ho
    | removed hk hd =>
      obtain ⟨S, hr, _⟩ := removeFile_removed ho hk hd _
      exact hr.owned ho
  | chmod => exact owned_of_ref ho (fun _ => ref_setInode fun _ => ⟨rfl, rfl, rfl⟩) rfl rfl
  | write hk => exact (writeStages_wrote hk ho _ _).grows.owned

theorem initFileSys_discos (behind : Nat → Bytes) (buffer : Bytes) :
    (initFileSys behind buffer).discos = makeRoot (emptyImage behind) := by
  have h : (emptyImage behind).freeInodes = 1024 := rfl
  unfold initFileSys rdMkdir
  rw [if_pos rfl, if_pos h]
  rfl

theorem ref_emptyImage (behind : Nat → Bytes) (q : Place) : ref (emptyImage behind) q = 0 := by
  cases q <;> rfl

/-- The image a run starts from has no blocks. -/
theorem ref_init (behind : Nat → Bytes) (q : Place) : ref (makeRoot (emptyImage behind)) q = 0 :=
  (makeRoot_ref _ q).trans (ref_emptyImage behind q)

theorem clearBits_emptyImage (behind : Nat → Bytes) : clearBits (emptyImage behind) = 7931 := by
  have : ∀ c, bit (emptyImage behind).bitmap c = false := fun c => Nat.zero_testBit _
  simp [clearBits, clearCount, this]

theorem init_owned (behind : Nat → Bytes) (buffer : Bytes) :
    Owned every (initFileSys behind buffer).discos := by
  rw [initFileSys_discos]
  refine @owned_of_ref (emptyImage behind) _ ⟨⟨fun {p b} h => ?_, fun {p q b} h _ => ?_⟩,
    fun {p} _ _ => ?_, ?_⟩ (makeRoot_ref _) rfl rfl
  · exact absurd (h.2.2.symm.trans (ref_emptyImage behind p)) (ptrTo_ne_zero b)
  · exact absurd (h.2.2.symm.trans (ref_emptyImage behind p)) (ptrTo_ne_zero b)
  · rw [ref_emptyImage]; omega
  · rw [clearBits_emptyImage]; exact Nat.le_refl _

/-- Ownership holds in every run whose names fit. -/
theorem reachable_owned {ok : State → Op → Prop} (hok : ∀ st op, ok st op → Fits st op)
    (h : Reachable ok st) : Owned every st.discos := by
  obtain ⟨behind, buffer, h⟩ := h
  exact h.invariant (init_owned behind buffer)
    fun st op ha ho => (step_effect st op).owned ho (hok st op ha)

end ToyOS.Ramdisk.Effects
