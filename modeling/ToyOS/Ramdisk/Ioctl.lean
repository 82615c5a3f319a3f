import ToyOS.Ramdisk.System

/-! # The module behind `/proc/discos`

`discosModule.c`: a request is a command with an `ioctl_args_t`, and the call it
asks for is made on what was copied from the caller. The paths of all commands but
`RD_OPEN` are copied, as far as `strnlen_user` says.
-/
namespace ToyOS.Ramdisk.Ioctl
open ToyOS.Lib.CStrings ToyOS.Lib.Words ToyOS.Ramdisk.Image ToyOS.Ramdisk.Paths ToyOS.Ramdisk.Namespace
open ToyOS.Ramdisk.Descriptors ToyOS.Ramdisk.Read ToyOS.Ramdisk.System

/-- `_IOW(MAGIC_NUM, nr, ioctl_args_t*)`. -/
def iow (nr : Nat) : Nat := 1 <<< 30 ||| 4 <<< 16 ||| 88 <<< 8 ||| nr

def RD_INIT : Nat := iow 0
def RD_CREATE : Nat := iow 1
def RD_MKDIR : Nat := iow 2
def RD_OPEN : Nat := iow 3
def RD_CLOSE : Nat := iow 4
def RD_READ : Nat := iow 5
def RD_WRITE : Nat := iow 6
def RD_LSEEK : Nat := iow 7
def RD_UNLINK : Nat := iow 8
def RD_READDIR : Nat := iow 9
def RD_CHMOD : Nat := iow 10

def EINVAL : Int := 22

/-- `ioctl_args_t`. The two pointers are NULL or lead to the caller's memory: the
bytes there, up to some zero for a path. -/
structure IoctlArgs where
  size : Int
  mode : Int
  pid : Int
  fd : Int
  pathname : Option (List UInt8)
  data : Option Bytes

/-- `strnlen_user` of the kernel: the length of a string with its zero, and more
than `n` where that is not among the first `n` bytes. -/
structure Kernel where
  strnlenUser : List UInt8 → Nat → Nat
  ends : ∀ p rest n, 0 ∉ p → p.length < n → strnlenUser (p ++ 0 :: rest) n = p.length + 1
  long : ∀ p rest n, 0 ∉ p → n ≤ p.length → n < strnlenUser (p ++ 0 :: rest) n

/-- What memory nobody has set holds while a call is made: behind the copy of the
path, in the copy of the data, in the buffers for the parts of a path, and behind a
new image. -/
structure Unset where
  slack : List UInt8
  data : Bytes
  scratch : Scratch
  behind : Nat → Bytes

/-- What is left after a request: the value it returns, and what is at `args->data`. -/
structure Reply where
  state : State
  ret : Int
  data : Option Bytes

variable (K : Kernel) (u : Unset)

/-- The string that `pathname` is after `copy_from_user`. -/
def kernelPath (m : List UInt8) : Str := cstr (m.take (K.strnlenUser m 14) ++ u.slack)

/-- The copy of `args->data`, made in pieces of 4096 bytes. -/
def kernelData (d : Bytes) (size : Int) : Bytes := copyPages d (size.toNat / 4096 + 1) size 0 u.data

/-- `init_file_sys`. -/
def initCall (st : State) : Option (State × Int) :=
  (rdMkdir (emptyImage u.behind) [slash] ⟨[], []⟩).map fun r =>
    (⟨r.1, fun _ => ⟨0, fun _ => .zero⟩, st.readBuffer⟩, r.2)

/-- `discos_ioctl`. -/
def ioctl (st : State) (cmd : Nat) (args : IoctlArgs) : Option Reply :=
  let pathname := args.pathname.map (kernelPath K u)
  let mode := toU32 args.mode
  let reply (r : Option (State × Int)) : Option Reply := r.map fun r => ⟨r.1, r.2, args.data⟩
  if cmd = RD_INIT then reply (initCall u st)
  else if cmd = RD_OPEN then
    args.pathname.bind fun p => reply (call st (.open (cstr p) mode args.pid))
  else if cmd = RD_CLOSE then reply (call st (.close args.fd args.pid))
  else if cmd = RD_READ then
    args.data.map fun d =>
      let r := rdRead st args.fd d args.size args.pid
      ⟨r.1, r.2.1, some r.2.2⟩
  else if cmd = RD_WRITE then
    args.data.bind fun d =>
      reply (call st (.write args.fd args.pid (kernelData u d args.size) args.size))
  else if cmd = RD_CREATE then pathname.bind fun p => reply (call st (.create p .reg mode u.scratch))
  else if cmd = RD_LSEEK then reply (call st (.lseek args.fd args.size args.pid))
  else if cmd = RD_MKDIR then pathname.bind fun p => reply (call st (.mkdir p u.scratch))
  else if cmd = RD_UNLINK then pathname.bind fun p => reply (call st (.unlink p u.scratch))
  else if cmd = RD_CHMOD then pathname.bind fun p => reply (call st (.chmod p mode))
  else some ⟨st, -EINVAL, args.data⟩

/-! ## The path the module works with -/

variable {K u} {p rest : List UInt8}

/-- A path of which the zero is copied arrives as it is. -/
theorem kernelPath_of_lt (hp : 0 ∉ p) (hn : p.length < K.strnlenUser (p ++ 0 :: rest) 14) :
    kernelPath K u (p ++ 0 :: rest) = p := by
  unfold kernelPath
  obtain ⟨n, hn⟩ := Nat.exists_eq_add_of_lt hn
  rw [hn, show p.length + n + 1 = p.length + (n + 1) by omega, List.take_length_add_append, List.take_succ_cons,
    List.append_assoc, List.cons_append, cstr_append_zero hp]

theorem kernelPath_short (hp : 0 ∉ p) (hlen : p.length ≤ 14) : kernelPath K u (p ++ 0 :: rest) = p := by
  refine kernelPath_of_lt hp ?_
  by_cases h : p.length < 14
  · rw [K.ends p rest 14 hp h]
    omega
  · have hlong := K.long p rest 14 hp (by omega)
    omega

end ToyOS.Ramdisk.Ioctl
