import ToyOS.Ramdisk.Discipline
import ToyOS.Ramdisk.Fetching

/-! # Processes and their descriptors

Every process works with the first descriptor table, so a call of one process
is seen by the others exactly when it does something. A session is a run with
a record of the process that each descriptor was handed to.
-/
namespace ToyOS.Ramdisk.Isolation
open ToyOS.Lib.Loop ToyOS.Lib.Words ToyOS.Lib.CStrings ToyOS.Lib.Runs ToyOS.Ramdisk.Image
open ToyOS.Ramdisk.Paths ToyOS.Ramdisk.Components ToyOS.Ramdisk.Descriptors ToyOS.Ramdisk.Write
open ToyOS.Ramdisk.Read ToyOS.Ramdisk.System ToyOS.Ramdisk.Opened ToyOS.Ramdisk.Tables
open ToyOS.Ramdisk.Writing ToyOS.Ramdisk.Fetching ToyOS.Ramdisk.Discipline
open ToyOS.Ramdisk.BlockOwnership

variable {st st' : State} {op : Op} {f : FdPtr} {p q fd pid off : Int} {ops : List Op}

/-! ## Sessions -/

/-- The process that makes a call, where the call says so. -/
def caller : Op → Option Int
  | .open _ _ pid | .write _ pid _ _ | .lseek _ _ pid | .read _ _ _ pid | .close _ pid => some pid
  | _ => none

/-- The descriptor a call is about. -/
def descriptor : Op → Option Int
  | .write fd _ _ _ | .lseek fd _ _ | .read fd _ _ _ | .close fd _ => some fd
  | _ => none

/-- The return value of a call. -/
def value (st : State) (op : Op) : Option Int := (call st op).map (·.2)

theorem value_of_call {r : Int} (h : call st op = some (st', r)) : value st op = some r := by
  unfold value
  rw [h]
  rfl

structure Session where
  st : State
  owner : Int → Option Int

/-- A descriptor goes to the process that opens it, until it is closed. -/
def handOut (s : Session) (op : Op) : Int → Option Int :=
  match op, value s.st op with
  | .open _ _ pid, some fd => if fd = -1 then s.owner else Function.update s.owner fd (some pid)
  | .close fd _, some r => if r = -1 then s.owner else Function.update s.owner fd none
  | _, _ => s.owner

def Session.step (s : Session) (op : Op) : Session := ⟨System.step s.st op, handOut s op⟩

/-- The calls of rd_open, rd_lseek and rd_close that `q` makes. -/
def moves (q : Int) : Op → Bool
  | .open _ _ pid | .lseek _ _ pid | .close _ pid => pid == q
  | _ => false

/-- The run without them. -/
def without (q : Int) (ops : List Op) : List Op := ops.filter fun op => !moves q op

/-- What the calls of `p` return. -/
def returnsTo (p : Int) : Session → List Op → List (Option Int) :=
  outputs Session.step (fun s op => value s.st op) fun op => caller op == some p

/-! ## Calls that do nothing -/

/-- A call of rd_open, rd_lseek or rd_close that is refused, or seeks to where
the cursor is. -/
def Idle (st : State) : Op → Prop
  | .open path fl pid => ∀ f k, ¬ Opens st path fl pid f k
  | .lseek fd off pid => ∀ f k, Usable st fd pid f k →
      off < 0 ∨ seekTo (st.discos.inodes k).size off = (st.fileObject f).cursor
  | .close fd pid => ∀ f k, ¬ Usable st fd pid f k
  | _ => False

theorem setFileObject_self (st : State) (f : FdPtr) : st.setFileObject f (st.fileObject f) = st := by
  simp [State.setFileObject, State.fileObject]

/-- What a refused rd_open returns. -/
theorem open_refused {path : Str} {fl : Nat} (h : ∀ f k, ¬ Opens st path fl pid f k) :
    call st (.open path fl pid) = none ∨ call st (.open path fl pid) = some (st, -1) := by
  cases hc : rdOpen st path fl pid with
  | none => exact .inl hc
  | some r =>
    rcases rdOpen_cases (r := r.2) hc with ⟨rfl, hr⟩ | ⟨f, k, ho, -⟩
    · refine .inr (hc.trans (congrArg some (Prod.ext rfl hr)))
    · exact absurd ho (h f k)

theorem close_refused (h : ∀ f k, ¬ Usable st fd pid f k) : rdClose st fd pid = (st, -1) := by
  rcases rdClose_cases st fd pid with e | ⟨f, k, hu, -⟩
  · exact e
  · exact absurd hu (h f k)

theorem lseek_idle (h : Idle st (.lseek fd off pid)) : (rdLseek st fd off pid).1 = st := by
  rcases rdLseek_cases st fd off pid with e | ⟨f, k, hu, h0, e⟩
  · rw [e]
  · rcases h f k hu with hneg | hcur
    · omega
    · rw [e, hcur]
      exact setFileObject_self st f

theorem step_idle {s : Session} (h : Idle s.st op) : s.step op = s := by
  obtain ⟨st, owner⟩ := s
  unfold Session.step handOut value System.step
  cases op with
  | create | mkdir | unlink | chmod | write | read => exact h.elim
  | «open» path fl pid =>
    rcases open_refused h with e | e
    · rw [e]
      rfl
    · rw [e]
      rfl
  | lseek fd off pid =>
    have e : call st (.lseek fd off pid) = some (rdLseek st fd off pid) := rfl
    rw [e]
    exact congrArg (Session.mk · owner) (lseek_idle h)
  | close fd pid =>
    have e : call st (.close fd pid) = some (st, -1) := congrArg some (close_refused h)
    rw [e]
    rfl

/-! ## The law -/

/-- A call about a descriptor fails one of its checks, none of which is about processes. -/
def Refused (st : State) : Op → Prop
  | .write fd pid _ _ => ∀ f k, ¬ Writable st fd pid f k
  | .lseek fd off pid => ∀ f k, Usable st fd pid f k → off < 0
  | .read fd _ n pid => ∀ f k, Usable st fd pid f k →
      u32Sub (st.discos.inodes k).size (st.fileObject f).cursor < toU32 n
  | .close fd pid => ∀ f k, ¬ Usable st fd pid f k
  | _ => False

theorem value_refused (h : Refused st op) : value st op = some (-1) := by
  unfold value
  cases op with
  | create | mkdir | unlink | chmod | «open» => exact h.elim
  | write fd pid data n =>
    rcases rdWrite_cases st fd pid data n with e | ⟨f, k, hw, -⟩
    · rw [call, e]
      rfl
    · exact absurd hw (h f k)
  | lseek fd off pid =>
    rcases rdLseek_cases st fd off pid with e | ⟨f, k, hu, h0, -⟩
    · rw [call, e]
      rfl
    · exact absurd (h f k hu) (not_lt.mpr h0)
  | read fd addr n pid =>
    rcases rdRead_cases st fd addr n pid with e | ⟨f, k, hu, hn, -⟩
    · rw [call, e]
      rfl
    · exact absurd (h f k hu) (not_lt.mpr hn)
  | close fd pid =>
    rw [call, close_refused h]
    rfl

/-- The calls of `q` that are to be left out do nothing, and a call of `q` about
a descriptor that only `p` has opened fails a check. -/
def KeepsApart (p q : Int) (s : Session) (op : Op) : Prop :=
  (moves q op = true → Idle s.st op) ∧
    (caller op = some q → ∀ fd, descriptor op = some fd → s.owner fd = some p → Refused s.st op)

/-- A call of `q` about a descriptor that only `p` has opened is rejected. -/
def Rejects (p q : Int) (s : Session) (op : Op) : Prop :=
  caller op = some q → ∀ fd, descriptor op = some fd → s.owner fd = some p →
    value s.st op = some (-1)

theorem caller_of_moves (h : moves q op = true) : caller op = some q := by
  cases op with
  | «open» | lseek | close => exact congrArg some (by simpa [moves] using h)
  | _ => cases h

/-- In every run, from any state, in which `q` keeps apart from `p`: nothing that
`p` is returned changes when the calls of `q` that open, seek and close are left
out, and `q` gets nowhere with the descriptors of `p`. -/
theorem descriptors_apart {s : Session} (hpq : p ≠ q)
    (h : Along Session.step (KeepsApart p q) s ops) :
    returnsTo p s (without q ops) = returnsTo p s ops ∧
      Along Session.step (Rejects p q) s ops := by
  constructor
  · refine outputs_filter (fun op hop => ?_) (h.mono fun s op hop hm => ?_)
    · cases hm : moves q op with
      | false => rfl
      | true =>
        rw [caller_of_moves hm] at hop
        exact absurd (by simpa using hop) hpq.symm
    · exact step_idle (hop.1 (by simpa using hm))
  · exact h.mono fun s op hop hc fd hfd hown => value_refused (hop.2 hc fd hfd hown)

/-! ## No call looks at the process -/

/-- In every reachable state a descriptor leads every process to the same file object. -/
theorem findFileObject_pid (h : Disciplined st) (fd : Int) (p q : Int) :
    findFileObject st fd p = findFileObject st fd q := by
  unfold findFileObject
  rw [h.table p, h.table q]

theorem usableFile_pid (h : Disciplined st) (fd : Int) (p q : Int) :
    usableFile st fd p = usableFile st fd q := by
  unfold usableFile
  rw [findFileObject_pid h fd p q]

/-- The same call made by another process. -/
def callBy (p : Int) : Op → Op
  | .open path fl _ => .open path fl p
  | .write fd _ data n => .write fd p data n
  | .lseek fd off _ => .lseek fd off p
  | .read fd addr n _ => .read fd addr n p
  | .close fd _ => .close fd p
  | op => op

theorem call_callBy (h : Disciplined st) (p : Int) (op : Op) : call st (callBy p op) = call st op := by
  cases op with
  | create | mkdir | unlink | chmod => rfl
  | «open» path fl pid =>
    show rdOpen st path fl p = rdOpen st path fl pid
    unfold rdOpen createFileObject
    rw [h.table p, h.table pid]
  | write fd pid data n =>
    show some (rdWrite st fd p data n) = some (rdWrite st fd pid data n)
    unfold rdWrite
    rw [findFileObject_pid h fd p pid]
  | lseek fd off pid =>
    show some (rdLseek st fd off p) = some (rdLseek st fd off pid)
    unfold rdLseek
    rw [usableFile_pid h fd p pid]
  | read fd addr n pid =>
    have e : rdRead st fd addr n p = rdRead st fd addr n pid := by
      unfold rdRead
      rw [usableFile_pid h fd p pid]
    show some ((rdRead st fd addr n p).1, _) = some ((rdRead st fd addr n pid).1, _)
    rw [e]
  | close fd pid =>
    show some (rdClose st fd p) = some (rdClose st fd pid)
    unfold rdClose
    rw [usableFile_pid h fd p pid]

/-! ## A call that is not idle is seen -/

theorem call_opens {path : Str} {fl : Nat} {k : Fin 1024} (h : Opens st path fl pid f k) :
    call st (.open path fl pid) = some (st.setFileObject f (openedObject f k fl), (f.slot : Int)) := by
  obtain ⟨t, i⟩ := f
  have hi := h.slot_lt
  have hcreate : createFileObject st pid =
      some (st.setFileObject ⟨t, i⟩ { st.fileObject ⟨t, i⟩ with pos := i, usable := 1 }, ⟨t, i⟩) := by
    unfold createFileObject
    rw [h.table]
    dsimp only
    rw [h.unused]
    rfl
  show rdOpen st path fl pid = _
  unfold rdOpen
  rw [if_neg h.notRoot, h.resolves]
  dsimp only
  rw [dif_pos k.isLt, h.granted, hcreate]
  dsimp only
  rw [if_neg (by simp), setFileObject_twice, fileObject_set_self, fileObject_set_self]
  exact congrArg (fun r => some (_, r)) (toI32_of_lt (n := i) (by dsimp only at hi; omega))

theorem call_closes {k : Fin 1024} (h : Usable st fd pid f k) :
    call st (.close fd pid) = some (st.setFileObject f .zero, 0) := by
  show some (rdClose st fd pid) = _
  unfold rdClose
  rw [usableFile_eq_some.mpr h]

theorem call_seeks {k : Fin 1024} (h : Usable st fd pid f k) (h0 : 0 ≤ off) :
    System.step st (.lseek fd off pid) = st.setFileObject f
      { st.fileObject f with cursor := seekTo (st.discos.inodes k).size off } := by
  show (rdLseek st fd off pid).1 = _
  unfold rdLseek seekTo
  rw [usableFile_eq_some.mpr h]
  dsimp only
  rw [if_neg (not_lt.mpr h0)]
  split <;> rfl

/-- Any process can open what one process can. -/
theorem opens_pid (h : Disciplined st) {path : Str} {fl : Nat} {k : Fin 1024} (p : Int)
    (ho : Opens st path fl pid f k) : Opens st path fl p f k :=
  ⟨ho.notRoot, ho.resolves, ho.granted, (h.table p).trans ((h.table pid).symm.trans ho.table), ho.unused⟩

theorem usable_pid (h : Disciplined st) {k : Fin 1024} (p : Int) (hu : Usable st fd pid f k) :
    Usable st fd p f k :=
  ⟨(findFileObject_pid h fd p pid).trans hu.found, hu.inode, hu.usable, hu.type⟩

/-- After a successful rd_open the same rd_open returns something else. -/
theorem open_seen (h : Disciplined st) {path : Str} {fl : Nat} {k : Fin 1024}
    (ho : Opens st path fl pid f k) :
    value (st.setFileObject f (openedObject f k fl)) (.open path fl p) ≠
      value st (.open path fl p) := by
  rw [value_of_call (call_opens (opens_pid h p ho))]
  intro e
  obtain ⟨⟨st', r⟩, hc, he⟩ := Option.map_eq_some_iff.mp e
  rcases rdOpen_cases hc with ⟨-, hr⟩ | ⟨g, k', ho', -, hr⟩
  · dsimp only at he
    omega
  · dsimp only at he
    have hslot : g.slot = f.slot := by omega
    have htable : g.table = f.table := by
      have hg := ho'.table
      have hf := (opens_pid h p ho).table
      unfold getFdTable at hg hf
      simp only [setFileObject_pid] at hg
      exact Option.some.inj (hg.symm.trans hf)
    obtain ⟨-, -, hunused, -⟩ := firstIdx_eq_some.mp ho'.unused
    rw [htable, hslot, show (⟨f.table, f.slot⟩ : FdPtr) = f from rfl, fileObject_set_self] at hunused
    cases hunused

/-- After a successful rd_close the descriptor is closed for everyone. -/
theorem close_seen (h : Disciplined st) (hfd : IsInt fd) {k : Fin 1024} (hu : Usable st fd pid f k) :
    value (st.setFileObject f .zero) (.close fd p) ≠ value st (.close fd p) := by
  have hd : Disciplined (st.setFileObject f .zero) := h.set (.inl rfl)
  obtain ⟨ht, -, hf, -⟩ := h.found hfd hu.found hu.inode
  have hno : ∀ g k', ¬ Usable (st.setFileObject f .zero) fd p g k' := fun g k' hg => by
    obtain ⟨ht', -, hg', -⟩ := hd.found hfd hg.found hg.inode
    have hgf : g = f := by
      obtain ⟨gt, gs⟩ := g
      obtain ⟨ft, fs⟩ := f
      dsimp only at ht ht' hf hg'
      congr 1
      · exact ht'.trans ht.symm
      · omega
    have hk := hg.inode
    rw [hgf, fileObject_set_self] at hk
    cases hk
  have hnew : value (st.setFileObject f .zero) (.close fd p) = some (-1) := by
    show some (rdClose (st.setFileObject f .zero) fd p).2 = some (-1)
    rw [close_refused hno]
  have hold : value st (.close fd p) = some 0 :=
    value_of_call (call_closes (usable_pid h p hu))
  rw [hnew, hold]
  intro e
  cases e

/-- What an rd_read that passes or fails its check returns. -/
theorem read_value (h : Disciplined st) {k : Fin 1024} (hu : Usable st fd pid f k) (addr : Bytes)
    (n : Int) : value st (.read fd addr n p) = some (-1) ↔
      u32Sub (st.discos.inodes k).size (st.fileObject f).cursor < toU32 n := by
  show some (rdRead st fd addr n p).2.1 = some (-1) ↔ _
  unfold rdRead
  rw [usableFile_eq_some.mpr (usable_pid h p hu)]
  dsimp only
  split
  · rename_i hlt
    exact iff_of_true rfl hlt
  · rename_i hge
    refine iff_of_false (fun e => ?_) hge
    have := Option.some.inj e
    dsimp only at this
    omega

/-- Every `unsigned int` is a converted `int`. -/
theorem exists_int {b : Nat} (hb : b < 2 ^ 32) : ∃ n, IsInt n ∧ toU32 n = b := by
  by_cases h : b < 2 ^ 31
  · exact ⟨b, by unfold IsInt; omega, toU32_natCast hb⟩
  · refine ⟨(b : Int) - 2 ^ 32, by unfold IsInt; omega, ?_⟩
    unfold toU32
    omega

/-- After a seek to another position a read of some length is refused that was
not, or the other way round. -/
theorem lseek_seen (h : Disciplined st) {k : Fin 1024} (hu : Usable st fd pid f k) {c : Nat}
    (hc : c < 2 ^ 32) (hold : (st.fileObject f).cursor < 2 ^ 32) (hne : c ≠ (st.fileObject f).cursor) :
    ∃ n, IsInt n ∧ value (st.setFileObject f { st.fileObject f with cursor := c })
        (.read fd (fun _ => 0) n p) ≠ value st (.read fd (fun _ => 0) n p) := by
  have hd := h.moved hu.inode c
  have hu' := usable_moved hu c
  obtain ⟨a, ha⟩ : ∃ a, u32Sub (st.discos.inodes k).size c = a := ⟨_, rfl⟩
  obtain ⟨b, hb⟩ : ∃ b, u32Sub (st.discos.inodes k).size (st.fileObject f).cursor = b := ⟨_, rfl⟩
  have hafter := fun n => read_value (p := p) hd hu' (fun _ => 0) n
  have hbefore := fun n => read_value (p := p) h hu (fun _ => 0) n
  rw [fileObject_set_self] at hafter
  change ∀ n, _ ↔ u32Sub (st.discos.inodes k).size c < toU32 n at hafter
  rw [ha] at hafter
  rw [hb] at hbefore
  have hab : a ≠ b := by
    unfold u32Sub toU32 at ha hb
    omega
  have hword : a < 2 ^ 32 ∧ b < 2 ^ 32 := by
    unfold u32Sub toU32 at ha hb
    omega
  rcases Nat.lt_or_gt_of_ne hab with hlt | hlt
  · obtain ⟨n, hn, e⟩ := exists_int hword.2
    refine ⟨n, hn, fun heq => ?_⟩
    have hrefused := (hafter n).mpr (by omega)
    rw [heq, hbefore n] at hrefused
    omega
  · obtain ⟨n, hn, e⟩ := exists_int hword.1
    refine ⟨n, hn, fun heq => ?_⟩
    have hrefused := (hbefore n).mpr (by omega)
    rw [← heq, hafter n] at hrefused
    omega

theorem seekTo_lt (size : Nat) (off : Int) : seekTo size off < 2 ^ 32 := by
  unfold seekTo
  split
  · exact u32Sub_lt _ _
  · unfold toU32
    omega

/-- The cursors are `unsigned int`s. -/
theorem cursor_kept (k : Nat) (data : Bytes) : Kept k data fun w => w.cursor < 2 ^ 32 where
  ensure _ _ _ hw _ := hw
  put _ _ _ _ _ := u32_lt _

theorem reachable_cursors {ok : State → Op → Prop} (h : Reachable ok st) (f : FdPtr) :
    (st.fileObject f).cursor < 2 ^ 32 := by
  obtain ⟨behind, buffer, h⟩ := h
  refine h.invariant (I := fun st => (st.fileObject f).cursor < 2 ^ 32) (Nat.two_pow_pos 32)
    fun st op _ hc => ?_
  have he := step_slotEffect st op f
  generalize (System.step st op).fileObject f = o at he ⊢
  cases he with
  | idle => exact hc
  | opened | closed => exact Nat.two_pow_pos 32
  | wrote => exact (cursor_kept _ _).writeStages (fun _ _ h => h) hc
  | sought => exact seekTo_lt _ _
  | read =>
    show (readerOf _ _ _ _).cursor < 2 ^ 32
    unfold readerOf
    rw [(readStages_fetched _ _).cursor]
    exact advance_lt hc _

/-- The arguments that are C `int`s. -/
def IntArgs (op : Op) : Prop := ∀ fd, descriptor op = some fd → IsInt fd

/-- A call that opens, seeks or closes changes what some call of any other
process returns, unless it is idle. -/
theorem unseen_iff_idle (h : Reachable (fun _ _ => True) st) (hm : moves q op = true)
    (hint : IntArgs op) (p : Int) :
    (∀ c, caller c = some p → value (System.step st op) c = value st c) ↔ Idle st op := by
  have hd := reachable_disciplined h
  constructor
  · intro hno
    cases op with
    | create | mkdir | unlink | chmod | write | read => cases hm
    | «open» path fl pid =>
      intro f k ho
      have hseen := hno (.open path fl p) rfl
      rw [System.step, call_opens ho] at hseen
      exact open_seen hd ho hseen
    | lseek fd off pid =>
      intro f k hu
      by_contra hmoved
      rw [not_or, not_lt] at hmoved
      obtain ⟨n, -, hn⟩ := lseek_seen (p := p) hd hu (seekTo_lt _ off) (reachable_cursors h f) hmoved.2
      have hseen := hno (.read fd (fun _ => 0) n p) rfl
      rw [call_seeks hu hmoved.1] at hseen
      exact hn hseen
    | close fd pid =>
      intro f k hu
      have hseen := hno (.close fd p) rfl
      rw [System.step, call_closes hu] at hseen
      exact close_seen hd (hint fd rfl) hu hseen
  · intro hidle c _
    have hstep := congrArg Session.st (step_idle (s := ⟨st, fun _ => none⟩) hidle)
    exact congrArg (value · c) hstep

/-! ## Two processes -/

/-- Process 5 opens and closes `/a`, in between process 6 is refused descriptor 1. -/
theorem descriptors_apart_oneFile :
    returnsTo 5 ⟨oneFile, fun _ => none⟩
        (without 6 [.open (render [nameA]) RW 5, .close 1 6, .close 0 5]) =
      returnsTo 5 ⟨oneFile, fun _ => none⟩
        [.open (render [nameA]) RW 5, .close 1 6, .close 0 5] ∧
    Along Session.step (Rejects 5 6) ⟨oneFile, fun _ => none⟩
      [.open (render [nameA]) RW 5, .close 1 6, .close 0 5] := by
  have hnone : usableFile (System.step oneFile (.open (render [nameA]) RW 5)) 1 6 = none := by
    decide +kernel
  have hno : ∀ f k, ¬ Usable (System.step oneFile (.open (render [nameA]) RW 5)) 1 6 f k :=
    fun f k hu => by
      rw [usableFile_eq_some.mpr hu] at hnone
      cases hnone
  refine descriptors_apart (by decide) ⟨⟨fun h => absurd h (by decide), fun _ fd h => by cases h⟩,
    ⟨fun _ => hno, fun _ fd h _ => ?_⟩,
    ⟨fun h => absurd h (by decide), fun h => absurd h (by decide)⟩, trivial⟩
  obtain rfl := Option.some.inj h
  exact hno

/-- Process 5 opens `/a`, process 6 closes its descriptor. -/
theorem closed_by_other :
    Reachable (fun _ _ => True) oneFile ∧
    returnsTo 5 ⟨oneFile, fun _ => none⟩ [.open (render [nameA]) RW 5, .close 0 6, .close 0 5] =
      [some 0, some (-1)] ∧
    returnsTo 5 ⟨oneFile, fun _ => none⟩
      (without 6 [.open (render [nameA]) RW 5, .close 0 6, .close 0 5]) = [some 0, some 0] ∧
    (Session.step ⟨oneFile, fun _ => none⟩ (.open (render [nameA]) RW 5)).owner 0 = some 5 ∧
    value (Session.step ⟨oneFile, fun _ => none⟩ (.open (render [nameA]) RW 5)).st (.close 0 6) =
      some 0 := by
  refine ⟨⟨_, _, .step .start trivial⟩, ?_⟩
  decide +kernel

end ToyOS.Ramdisk.Isolation
