import ToyOS.Ramdisk.Tables
import ToyOS.Ramdisk.BlockOwnership

/-! # Descriptors in every run

A slot that is not open is all zero, an open one has its own index in `pos`. So
the search for `pos == fd` leads to slot `fd`, if that is open, and else to
nothing or, for descriptor 0, to a slot without an inode.
-/
namespace ToyOS.Ramdisk.Discipline
open ToyOS.Lib.Loop ToyOS.Lib.Words ToyOS.Lib.CStrings ToyOS.Lib.Runs ToyOS.Ramdisk.Image
open ToyOS.Ramdisk.Paths ToyOS.Ramdisk.Descriptors ToyOS.Ramdisk.Write ToyOS.Ramdisk.Read
open ToyOS.Ramdisk.System ToyOS.Ramdisk.Opened ToyOS.Ramdisk.Tables ToyOS.Ramdisk.Components
open ToyOS.Ramdisk.BlockOwnership

variable {st : State} {op : Op} {f g : FdPtr} {fd pid : Int} {i : Nat}

/-! ## The invariant -/

def Open (st : State) (f : FdPtr) : Prop := (st.fileObject f).usable = 1

/-- The slot `i` is all zero or open. -/
def SlotOk (o : FileObject) (i : Nat) : Prop :=
  o = .zero ∨ (o.usable = 1 ∧ o.pos = i ∧ o.inodePtr ≠ none)

structure Disciplined (st : State) : Prop where
  pid : ∀ t, (st.pFdTable t).pid = 0
  slot : ∀ f : FdPtr, SlotOk (st.fileObject f) f.slot

theorem disciplined_of_tables {st' : State} (h : Disciplined st)
    (e : st'.pFdTable = st.pFdTable) : Disciplined st' := by
  refine ⟨fun t => by rw [e]; exact h.pid t, fun f => ?_⟩
  have hs := h.slot f
  unfold State.fileObject at *
  rwa [e]

theorem Disciplined.set (h : Disciplined st) {o : FileObject} (ho : SlotOk o f.slot) :
    Disciplined (st.setFileObject f o) := by
  refine ⟨fun t => by rw [setFileObject_pid]; exact h.pid t, fun g => ?_⟩
  by_cases e : g = f
  · subst e
    rwa [fileObject_set_self]
  · rw [fileObject_set_ne _ _ e]
    exact h.slot g

/-- A slot with an inode is open. -/
theorem Disciplined.open_of_inode (h : Disciplined st) {k : Fin 1024}
    (hk : (st.fileObject f).inodePtr = some k) :
    (st.fileObject f).usable = 1 ∧ (st.fileObject f).pos = f.slot := by
  rcases h.slot f with hz | ⟨hu, hp, -⟩
  · rw [hz] at hk; cases hk
  · exact ⟨hu, hp⟩

theorem Disciplined.moved (h : Disciplined st) {k : Fin 1024}
    (hk : (st.fileObject f).inodePtr = some k) (c : Nat) :
    Disciplined (st.setFileObject f { st.fileObject f with cursor := c }) := by
  obtain ⟨hu, hp⟩ := h.open_of_inode hk
  exact h.set (.inr ⟨hu, hp, by simp [hk]⟩)

theorem step_disciplined (h : Disciplined st) : Disciplined (step st op) := by
  have he := step_tableEffect st op
  revert he
  generalize step st op = st'
  intro he
  have key : ∀ st₁ : State, Disciplined st₁ → st'.pFdTable = st₁.pFdTable → Disciplined st' :=
    fun st₁ h₁ e => disciplined_of_tables h₁ e
  generalize hp : st'.pFdTable = p at he
  cases he with
  | idle => exact key st h hp
  | opened ho => exact key _ (h.set (.inr ⟨rfl, rfl, by simp [openedObject]⟩)) hp
  | wrote hw => exact key _ (h.moved hw.inode _) hp
  | sought hu _ => exact key _ (h.moved hu.inode _) hp
  | read hu _ => exact key _ (h.moved hu.inode _) hp
  | closed _ => exact key _ (h.set (.inl rfl)) hp

theorem reachable_disciplined {ok : State → Op → Prop} (h : Reachable ok st) : Disciplined st := by
  obtain ⟨behind, buffer, h⟩ := h
  exact h.invariant ⟨fun _ => rfl, fun _ => .inl rfl⟩ fun _ _ _ h => step_disciplined h

/-! ## What a descriptor leads to -/

/-- Every process works with the first table. -/
theorem Disciplined.table (h : Disciplined st) (pid : Int) : getFdTable st pid = some 0 := by
  have h0 : firstIdx (fun i => (st.pFdTable i).pid == 0) 0 10 = some 0 :=
    firstIdx_eq_some.mpr ⟨Nat.le_refl _, by omega, by simp [h.pid], by omega⟩
  unfold getFdTable
  rw [h0]
  cases hf : firstIdx (fun i => (st.pFdTable i).pid == toU32 pid) 0 10 with
  | none => rfl
  | some i =>
    obtain ⟨-, -, hi, hlt⟩ := firstIdx_eq_some.mp hf
    rcases Nat.eq_zero_or_pos i with rfl | hpos
    · rfl
    · have := hlt 0 (Nat.le_refl _) hpos
      simp only [h.pid] at hi this
      rw [hi] at this
      cases this

/-- The C `int`s. -/
def IsInt (x : Int) : Prop := -2 ^ 31 ≤ x ∧ x < 2 ^ 31

theorem toU32_eq_slot (hfd : IsInt fd) (hi : i < 1024) (h : toU32 fd = i) : fd = i := by
  obtain ⟨h1, h2⟩ := hfd
  unfold toU32 at h
  omega

/-- A descriptor that leads to an inode is the index of an open slot. -/
theorem Disciplined.found (h : Disciplined st) (hfd : IsInt fd)
    (hf : findFileObject st fd pid = some f) {k : Fin 1024}
    (hk : (st.fileObject f).inodePtr = some k) :
    f.table = 0 ∧ f.slot < 1024 ∧ fd = f.slot ∧ Open st f := by
  unfold findFileObject at hf
  rw [h.table] at hf
  obtain ⟨i, hi, rfl⟩ := Option.map_eq_some_iff.mp hf
  obtain ⟨-, hlt, hpos, -⟩ := firstIdx_eq_some.mp hi
  obtain ⟨hu, hp⟩ := h.open_of_inode hk
  rw [beq_iff_eq] at hpos
  exact ⟨rfl, by omega, toU32_eq_slot hfd (by omega) (hpos.symm.trans hp), hu⟩

/-- An open slot is found through its index. -/
theorem Disciplined.find (h : Disciplined st) (hi : i < 1024) (ho : Open st ⟨0, i⟩) (pid : Int) :
    findFileObject st i pid = some ⟨0, i⟩ := by
  have pos_of_open : ∀ j, Open st ⟨0, j⟩ → (st.fileObject ⟨0, j⟩).pos = j := by
    intro j hj
    rcases h.slot ⟨0, j⟩ with hz | ⟨-, hp, -⟩
    · unfold Open at hj
      rw [hz] at hj
      cases hj
    · exact hp
  unfold findFileObject
  rw [h.table]
  refine Option.map_eq_some_iff.mpr ⟨i, firstIdx_eq_some.mpr ⟨Nat.zero_le _, by omega, ?_, ?_⟩, rfl⟩
  · rw [pos_of_open i ho, toU32_natCast (by omega), beq_self_eq_true]
  · intro j _ hj
    rw [toU32_natCast (by omega), beq_eq_false_iff_ne]
    rcases h.slot ⟨0, j⟩ with hz | ⟨-, hp, -⟩
    · rw [hz]; show 0 ≠ i; omega
    · rw [hp]; show j ≠ i; omega

/-! ## The law -/

/-- Between the two states only slot `f` changes, as far as slots go. -/
def OnlySlot (st st' : State) (f : FdPtr) : Prop := ∀ g, g ≠ f → st'.fileObject g = st.fileObject g

theorem onlySlot_refl (st : State) (f : FdPtr) : OnlySlot st st f := fun _ _ => rfl

theorem onlySlot_set (st : State) (f : FdPtr) (o : FileObject) :
    OnlySlot st (st.setFileObject f o) f := fun _ hg => fileObject_set_ne st o hg

/-- What `rd_open` leaves when it succeeds: the least slot `i` of table `t` that
was not open now holds inode `k`, and nothing else changes. -/
structure OpenedAt (st st' : State) (t i : Nat) (k : Fin 1024) (flags : Nat) : Prop where
  bound : i < 1024
  notOpen : ¬ Open st ⟨t, i⟩
  least : ∀ j, j < i → Open st ⟨t, j⟩
  slot : st'.fileObject ⟨t, i⟩ = ⟨some k, flags, 0, i, 1⟩
  others : OnlySlot st st' ⟨t, i⟩
  discos : st'.discos = st.discos
  buffer : st'.readBuffer = st.readBuffer
  pids : ∀ j, (st'.pFdTable j).pid = (st.pFdTable j).pid

theorem Disciplined.opened (h : Disciplined st) {path : Str} {flags : Nat} {k : Fin 1024}
    (ho : Opens st path flags pid f k) :
    OpenedAt st (st.setFileObject f (openedObject f k flags)) f.table f.slot k flags := by
  obtain ⟨-, -, hunused, hbefore⟩ := firstIdx_eq_some.mp ho.unused
  rw [beq_iff_eq] at hunused
  constructor
  · exact ho.slot_lt
  · intro hopen
    rw [Open, show (⟨f.table, f.slot⟩ : FdPtr) = f from rfl] at hopen
    rw [show (⟨f.table, f.slot⟩ : FdPtr) = f from rfl, hopen] at hunused
    cases hunused
  · intro j hj
    have hne := hbefore j (Nat.zero_le _) hj
    rw [beq_eq_false_iff_ne] at hne
    rcases h.slot ⟨f.table, j⟩ with hz | ⟨hu, -⟩
    · rw [hz] at hne
      exact absurd rfl hne
    · exact hu
  · exact fileObject_set_self st f _
  · exact onlySlot_set st f _
  · rfl
  · rfl
  · exact fun j => setFileObject_pid st f _ j

section
variable (h : Disciplined st) (hfd : IsInt fd) (hno : ¬ ∃ i : Nat, i < 1024 ∧ fd = i ∧ Open st ⟨0, i⟩)
include h hfd hno

theorem Disciplined.refuses {k : Fin 1024} (hf : findFileObject st fd pid = some f) :
    (st.fileObject f).inodePtr ≠ some k := by
  intro hk
  obtain ⟨ht, hs, e, ho⟩ := h.found hfd hf hk
  exact hno ⟨f.slot, hs, e, by rwa [← ht]⟩

theorem Disciplined.not_usable (k : Fin 1024) : ¬ Usable st fd pid f k :=
  fun hu => h.refuses hfd hno hu.found hu.inode

end

/-- Every descriptor of the caller's table `t` in a state that is kept. -/
structure Law (st : State) (pid : Int) (t : Nat) : Prop where
  /-- A successful `rd_open`. -/
  opens : ∀ path flags st' r, rdOpen st path flags pid = some (st', r) → r ≠ -1 →
    ∃ (i : Nat) (k : Fin 1024), r = i ∧ myFindInodeNumber st.discos path = .inode k ∧
      OpenedAt st st' t i k flags
  /-- A descriptor that is out of range or not open. -/
  refused : ∀ fd, IsInt fd → (¬ ∃ i : Nat, i < 1024 ∧ fd = i ∧ Open st ⟨t, i⟩) →
    (∀ addr n, rdRead st fd addr n pid = (st, -1, addr)) ∧
    (∀ data n, rdWrite st fd pid data n = (st, -1)) ∧
    (∀ off, rdLseek st fd off pid = (st, -1)) ∧ rdClose st fd pid = (st, -1)
  /-- An open descriptor. -/
  framed : ∀ i : Nat, i < 1024 → Open st ⟨t, i⟩ →
    (∀ addr n, OnlySlot st (rdRead st i addr n pid).1 ⟨t, i⟩) ∧
    (∀ data n, OnlySlot st (rdWrite st i pid data n).1 ⟨t, i⟩) ∧
    (∀ off, OnlySlot st (rdLseek st i off pid).1 ⟨t, i⟩) ∧
    OnlySlot st (rdClose st i pid).1 ⟨t, i⟩

theorem Disciplined.law (h : Disciplined st) (pid : Int) : Law st pid 0 := by
  constructor
  · intro path flags st' r hr hne
    rcases rdOpen_cases hr with ⟨-, rfl⟩ | ⟨f, k, ho, rfl, rfl⟩
    · exact absurd rfl hne
    · have ht : f.table = 0 := Option.some.inj (ho.table.symm.trans (h.table pid))
      exact ⟨f.slot, k, rfl, ho.resolves, ht ▸ h.opened ho⟩
  · intro fd hfd hno
    refine ⟨fun addr n => ?_, fun data n => ?_, fun off => ?_, ?_⟩
    · rcases rdRead_cases st fd addr n pid with e | ⟨f, k, hu, -⟩
      · exact e
      · exact absurd hu (h.not_usable hfd hno k)
    · rcases rdWrite_cases st fd pid data n with e | ⟨f, k, hw, -⟩
      · exact e
      · exact absurd hw.inode (h.refuses hfd hno hw.found)
    · rcases rdLseek_cases st fd off pid with e | ⟨f, k, hu, -⟩
      · exact e
      · exact absurd hu (h.not_usable hfd hno k)
    · rcases rdClose_cases st fd pid with e | ⟨f, k, hu, -⟩
      · exact e
      · exact absurd hu (h.not_usable hfd hno k)
  · intro i hi ho
    have hfind := h.find hi ho pid
    have same : ∀ {f : FdPtr}, findFileObject st i pid = some f → f = ⟨0, i⟩ :=
      fun hf => Option.some.inj (hf.symm.trans hfind)
    refine ⟨fun addr n => ?_, fun data n => ?_, fun off => ?_, ?_⟩
    · rcases rdRead_cases st i addr n pid with e | ⟨f, k, hu, -, e⟩
      · rw [e]; exact onlySlot_refl st _
      · rw [e, ← same hu.found]; exact onlySlot_set { st with readBuffer := _ } f _
    · rcases rdWrite_cases st i pid data n with e | ⟨f, k, hw, e⟩
      · rw [e]; exact onlySlot_refl st _
      · rw [e, ← same hw.found]; exact onlySlot_set { st with discos := _ } f _
    · rcases rdLseek_cases st i off pid with e | ⟨f, k, hu, -, e⟩
      · rw [e]; exact onlySlot_refl st _
      · rw [e, ← same hu.found]; exact onlySlot_set st f _
    · rcases rdClose_cases st i pid with e | ⟨f, k, hu, e⟩
      · rw [e]; exact onlySlot_refl st _
      · rw [e, ← same hu.found]; exact onlySlot_set st f _

end ToyOS.Ramdisk.Discipline
