import ToyOS.Lib.Stacks

/-! # What a switch saves

The assembly of `context.s`, and of `timer` in `boot.s`. `stash` leaves a frame on
the caller's stack, `resume` takes the processor's registers from such a frame,
`start` begins at the address on top of a new stack. An interrupt puts a frame of
its own beneath which `timer` calls `stash`, and `iret` takes that one away.
-/
namespace ToyOS.Threads.Registers
open ToyOS.Lib.Words ToyOS.Lib.Stacks

/-- The registers. `eip` is the instruction that comes next; `cs` is `KERNEL_CS`
from the start of the kernel on. -/
structure Cpu where
  eax : UInt32
  ecx : UInt32
  edx : UInt32
  ebx : UInt32
  esp : Nat
  ebp : UInt32
  esi : UInt32
  edi : UInt32
  eip : UInt32
  eflags : UInt32
  ss : UInt16
  ds : UInt16
  es : UInt16
  fs : UInt16
  gs : UInt16
deriving DecidableEq

def KERNEL_CS : Nat := 0x08

/-- Bit 9 of `eflags` lets interrupts in. -/
def cli (c : Cpu) : Cpu := { c with eflags := c.eflags &&& 0xFFFFFDFF }

def sti (c : Cpu) : Cpu := { c with eflags := c.eflags ||| 0x200 }

def Cpu.interruptible (c : Cpu) : Prop := c.eflags &&& 0x200 = 0x200

/-- What `call stash` and then `stash` push: the return address, `pushal`, `pushfl`
and the segment registers. The `esp` of `pushal` is the one before it. -/
def frame (c : Cpu) : List Item :=
  [(4, c.eip.toNat), (4, c.eax.toNat), (4, c.ecx.toNat), (4, c.edx.toNat), (4, c.ebx.toNat),
    (4, (c.esp - 4) % 2 ^ 32), (4, c.ebp.toNat), (4, c.esi.toNat), (4, c.edi.toNat),
    (4, (cli c).eflags.toNat), (2, c.ss.toNat), (2, c.ds.toNat), (2, c.es.toNat), (2, c.fs.toNat),
    (2, c.gs.toNat)]

/-- The stack at `movl %esp, (%eax)`, for a caller with registers `c`, where `c.eip`
is the address behind the call. -/
def stash (c : Cpu) (m : Bytes) : Stack := pushAll ⟨m, c.esp⟩ (frame c)

/-- `resume` on the stack it has gone to; `popal` passes over the word of `esp`. -/
def resume (s : Stack) : Cpu :=
  let (gs, s) := pop 2 s
  let (fs, s) := pop 2 s
  let (es, s) := pop 2 s
  let (ds, s) := pop 2 s
  let (ss, s) := pop 2 s
  let (eflags, s) := pop 4 s
  let (edi, s) := pop 4 s
  let (esi, s) := pop 4 s
  let (ebp, s) := pop 4 s
  let (_, s) := pop 4 s
  let (ebx, s) := pop 4 s
  let (edx, s) := pop 4 s
  let (ecx, s) := pop 4 s
  let (eax, s) := pop 4 s
  let (eip, s) := pop 4 s
  sti ⟨.ofNat eax, .ofNat ecx, .ofNat edx, .ofNat ebx, s.ptr, .ofNat ebp, .ofNat esi, .ofNat edi,
    .ofNat eip, .ofNat eflags, .ofNat ss, .ofNat ds, .ofNat es, .ofNat fs, .ofNat gs⟩

/-- `start` on the stack it has gone to. The other registers are as `c` has them. -/
def start (s : Stack) (c : Cpu) : Cpu :=
  let (eip, s) := pop 4 s
  sti { c with eip := .ofNat eip, esp := s.ptr }

/-- What the processor pushes for an interrupt in kernel mode. -/
def interruptFrame (c : Cpu) : List Item :=
  [(4, c.eflags.toNat), (4, KERNEL_CS), (4, c.eip.toNat)]

/-- `movb $0x20, %al`. -/
def setAl (c : Cpu) : Cpu := { c with eax := (c.eax &&& 0xFFFFFF00) ||| 0x20 }

/-- From the interrupt to the `call stash` of `timer`, behind which `back` is. The
gate clears the interrupt flag. -/
def timer (back : UInt32) (c : Cpu) (m : Bytes) : Cpu × Bytes :=
  let s := pushAll ⟨m, c.esp⟩ (interruptFrame c)
  ({ setAl (cli c) with eip := back, esp := s.ptr }, s.mem)

def iret (m : Bytes) (c : Cpu) : Cpu :=
  let (eip, s) := pop 4 ⟨m, c.esp⟩
  let (_, s) := pop 4 s
  let (eflags, s) := pop 4 s
  { c with eip := .ofNat eip, eflags := .ofNat eflags, esp := s.ptr }

variable {c : Cpu} {m m' : Bytes} {p x : Nat} {k : List Item} {back : UInt32}

/-! ## Frames -/

def FRAME_SIZE : Nat := 50
def INTERRUPT_SIZE : Nat := 12

theorem span_frame (c : Cpu) : span (frame c) = FRAME_SIZE := by simp only [frame, span, FRAME_SIZE]

theorem span_interruptFrame (c : Cpu) : span (interruptFrame c) = INTERRUPT_SIZE := by
  simp only [interruptFrame, span, INTERRUPT_SIZE]

theorem frame_fits (c : Cpu) : ∀ i ∈ frame c, i.2 < 256 ^ i.1 := by
  have h4 : ∀ v : UInt32, v.toNat < 256 ^ 4 := fun v => v.toNat_lt
  have h2 : ∀ v : UInt16, v.toNat < 256 ^ 2 := fun v => v.toNat_lt
  have hesp : (c.esp - 4) % 2 ^ 32 < 256 ^ 4 := Nat.mod_lt _ (by decide)
  simp only [frame, List.forall_mem_cons, h4, h2, hesp, true_and]
  exact fun _ h => absurd h List.not_mem_nil

theorem interruptFrame_fits (c : Cpu) : ∀ i ∈ interruptFrame c, i.2 < 256 ^ i.1 := by
  have h4 : ∀ v : UInt32, v.toNat < 256 ^ 4 := fun v => v.toNat_lt
  simp only [interruptFrame, List.forall_mem_cons, h4, true_and]
  exact ⟨by decide, fun _ h => absurd h List.not_mem_nil⟩

theorem stash_ptr (c : Cpu) (m : Bytes) : (stash c m).ptr = c.esp - FRAME_SIZE := by
  rw [stash, pushAll_ptr, span_frame]

/-- `stash` writes its frame and nothing else. -/
theorem stash_other (hx : x < c.esp - FRAME_SIZE ∨ c.esp ≤ x) (hc : FRAME_SIZE ≤ c.esp) :
    (stash c m).mem x = m x := by
  rw [← span_frame c] at hx hc
  exact pushAll_other (s := ⟨m, c.esp⟩) hx hc

theorem stash_holds (hc : FRAME_SIZE ≤ c.esp) :
    Holds (stash c m).mem (stash c m).ptr (frame c).reverse := by
  rw [← span_frame c] at hc
  have h := pushAll_holds (s := ⟨m, c.esp⟩) (l := frame c) (k := []) trivial hc (frame_fits c)
  rwa [List.append_nil] at h

/-- The flag is set whatever `stash` has made of it. -/
theorem sti_cli (c : Cpu) : sti (cli c) = sti c := by
  have hmask : ∀ i, (hi : i < 32) → ((0xFFFFFDFF : BitVec 32)[i] || (0x200 : BitVec 32)[i]) = true := by
    decide
  have hflags : (c.eflags &&& 0xFFFFFDFF) ||| 0x200 = c.eflags ||| 0x200 := by
    refine UInt32.toBitVec_inj.mp (BitVec.eq_of_getElem_eq fun i hi => ?_)
    have hi' := hmask i hi
    simp only [UInt32.toBitVec_or, UInt32.toBitVec_and, BitVec.getElem_or, BitVec.getElem_and]
    change (c.eflags.toBitVec[i] && (0xFFFFFDFF : BitVec 32)[i] || (0x200 : BitVec 32)[i]) =
      (c.eflags.toBitVec[i] || (0x200 : BitVec 32)[i])
    rw [Bool.or_comm, Bool.or_and_distrib_left, Bool.or_comm _ (0xFFFFFDFF : BitVec 32)[i], hi', Bool.and_true,
      Bool.or_comm]
  unfold sti
  rw [← hflags]
  rfl

/-- `resume` undoes `stash`: the registers come back, with interrupts let in. -/
theorem resume_frame (h : Holds m p (frame c).reverse) (hp : p + FRAME_SIZE = c.esp) :
    resume ⟨m, p⟩ = sti c := by
  rw [← sti_cli]
  simp only [frame, List.reverse_cons, List.reverse_nil, List.nil_append, List.cons_append, Holds,
    and_true] at h
  obtain ⟨hgs, hfs, hes, hds, hss, hflags, hedi, hesi, hebp, -, hebx, hedx, hecx, heax, heip⟩ := h
  simp only [resume, pop, hgs, hfs, hes, hds, hss, hflags, hedi, hesi, hebp, hebx, hedx, hecx, heax, heip,
    UInt32.ofNat_toNat, UInt16.ofNat_toNat]
  rw [show p + 2 + 2 + 2 + 2 + 2 + 4 + 4 + 4 + 4 + 4 + 4 + 4 + 4 + 4 + 4 = c.esp from hp]
  rfl

/-- `start` pops the address that `thread_create` has put there. -/
theorem start_holds {f : UInt32} (h : Holds m p ((4, f.toNat) :: k)) :
    start ⟨m, p⟩ c = sti { c with eip := f, esp := p + 4 } := by
  simp only [start, pop, h.1, UInt32.ofNat_toNat]

/-! ## Interrupts -/

theorem timer_esp (back : UInt32) (c : Cpu) (m : Bytes) :
    (timer back c m).1.esp = c.esp - INTERRUPT_SIZE := by
  rw [← span_interruptFrame c]
  exact pushAll_ptr _ _

theorem timer_other (hx : x < c.esp - INTERRUPT_SIZE ∨ c.esp ≤ x) (hc : INTERRUPT_SIZE ≤ c.esp) :
    (timer back c m).2 x = m x := by
  rw [← span_interruptFrame c] at hx hc
  exact pushAll_other (s := ⟨m, c.esp⟩) hx hc

theorem timer_holds (hc : INTERRUPT_SIZE ≤ c.esp) :
    Holds (timer back c m).2 (timer back c m).1.esp (interruptFrame c).reverse := by
  rw [← span_interruptFrame c] at hc
  have h := pushAll_holds (s := ⟨m, c.esp⟩) (l := interruptFrame c) (k := []) trivial hc
    (interruptFrame_fits c)
  rwa [List.append_nil] at h

/-- Once `stash` has returned into `timer`, `iret` brings back the instruction, the
flags and the stack pointer of the interrupted code; `al` is lost. -/
theorem iret_timer (hc : INTERRUPT_SIZE ≤ c.esp)
    (hm : ∀ x, c.esp - INTERRUPT_SIZE ≤ x → x < c.esp → m' x = (timer back c m).2 x) :
    iret m' (sti (timer back c m).1) = setAl c := by
  have hesp := timer_esp back c m
  have h : Holds m' (timer back c m).1.esp (interruptFrame c).reverse := by
    refine (timer_holds hc).congr fun x h1 h2 => ?_
    rw [span_reverse, span_interruptFrame] at h2
    exact hm x (by omega) (by omega)
  simp only [interruptFrame, List.reverse_cons, List.reverse_nil, List.nil_append, List.cons_append,
    Holds, and_true] at h
  obtain ⟨heip, -, hflags⟩ := h
  have hptr : (timer back c m).1.esp + 4 + 4 + 4 = c.esp := by
    rw [hesp]
    unfold INTERRUPT_SIZE at hc ⊢
    omega
  have hsti : (sti (timer back c m).1).esp = (timer back c m).1.esp := rfl
  simp only [iret, pop, hsti, heip, hflags, hptr, UInt32.ofNat_toNat]
  rfl

end ToyOS.Threads.Registers
