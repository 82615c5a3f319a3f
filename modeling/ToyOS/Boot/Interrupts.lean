import Mathlib.Tactic.Ring
import ToyOS.Lib.Words

/-! # The interrupt table

The loop of `boot.s` that turns the table of handler addresses into the gates of the
IDT, register by register, and what the processor reads in the gates.
-/
namespace ToyOS.Boot.Interrupts
open ToyOS.Lib.Words

/-- The registers that the loop uses, and memory. -/
structure Cpu where
  eax : Nat
  edx : Nat
  esi : Nat
  edi : Nat
  mem : Bytes

variable {mem : Bytes} {cpu : Cpu} {p n m : Nat}

end ToyOS.Boot.Interrupts
