import ToyOS.Lib.Words

/-! # The heap of the thread system

`heap.c`: one array `buffer`, cut into blocks. A block has two words in front:
its size with the allocated bit, and the size of the block before it. The first
word of the buffer, `LASTPTR`, points to the last block. Memory is a function
from addresses to bytes, and NULL is address 0.
-/
namespace ToyOS.Heap.Memory
open ToyOS.Lib.Words

def WSIZE : Nat := 4
def DSIZE : Nat := 8
def DEFAULT_MEM_SIZE : Nat := 2 ^ 20

/-- Where the linker has put `buffer`. -/
structure Buffer where
  addr : Nat
  pos : 0 < addr
  fits : addr + DEFAULT_MEM_SIZE ≤ 2 ^ 32

/-- Arithmetic of `unsigned`. -/
def u32 (n : Nat) : Nat := n % 2 ^ 32

def getW (m : Bytes) (p : Nat) : Nat := load m p 4

def putW (m : Bytes) (p val : Nat) : Bytes := store m p 4 val

def getSize (m : Bytes) (p : Nat) : Nat := getW m p &&& 0xFFFFFFF8

def getAlloc (m : Bytes) (p : Nat) : Nat := getW m p &&& 1

def pack (size alloc : Nat) : Nat := size ||| alloc

variable (B : Buffer)

/-- `baseptr` as `init_heap` sets it. -/
def Buffer.baseptr : Nat := B.addr + DSIZE

def lastPtr (m : Bytes) : Nat := getW m (B.baseptr - DSIZE)

def putLast (m : Bytes) (p : Nat) : Bytes := putW m (B.baseptr - DSIZE) p

def nextBlkp (m : Bytes) (p : Nat) : Nat := if p < lastPtr B m then p + getSize m p else 0

def prevBlkp (m : Bytes) (p : Nat) : Nat := if B.baseptr < p then p - getW m (p + WSIZE) else 0

def initHeap (m : Bytes) : Bytes :=
  let m := putLast B m B.baseptr
  let m := putW m B.baseptr (DEFAULT_MEM_SIZE - DSIZE)
  putW m (B.baseptr + WSIZE) 0

/-- The loop of `malloc` from block `p` on; it ends at a free block that is large
enough or at NULL. `none` is a loop still running after `fuel` rounds. -/
def firstFit (m : Bytes) (blocksize : Nat) : Nat → Nat → Option Nat
  | 0, _ => none
  | fuel + 1, p =>
    if p = 0 then some 0
    else if getAlloc m p ≠ 0 ∨ getSize m p < blocksize then
      firstFit m blocksize fuel (nextBlkp B m p)
    else some p

/-- The link back to the block before `next`, or `LASTPTR` where there is none. -/
def linkNext (m : Bytes) (next blocksize last : Nat) : Bytes :=
  if next ≠ 0 then putW m (next + WSIZE) blocksize else putLast B m last

/-- `size` rounded up to a multiple of 8, with the header. -/
def blockSizeFor (size : Nat) : Nat := u32 (u32 (size + 7) >>> 3 <<< 3 + DSIZE)

/-- The rest of `malloc` once the loop has found the block `p`. -/
def place (m : Bytes) (p blocksize : Nat) : Bytes :=
  let freesize := getSize m p
  let newblocksize := freesize - blocksize
  if newblocksize ≤ DSIZE then putW m p (pack freesize 1)
  else
    let next := nextBlkp B m p
    let m := putW m p (pack blocksize 1)
    let newfree := p + blocksize
    let m := putW m newfree newblocksize
    let m := putW m (newfree + WSIZE) blocksize
    linkNext B m next newblocksize newfree

/-- `malloc` with the pointer it returns. -/
def malloc (m : Bytes) (size : Nat) : Option (Bytes × Nat) :=
  if size = 0 then some (m, 0)
  else (firstFit B m (blockSizeFor size) DEFAULT_MEM_SIZE B.baseptr).map fun p =>
    if p = 0 then (m, 0) else (place B m p (blockSizeFor size), p + DSIZE)

/-- `Combine`: block `p` and the free block `q` after it become one free block. -/
def combine (m : Bytes) (p q : Nat) : Bytes :=
  let blocksize := u32 (getSize m p + getW m q)
  let next := nextBlkp B m q
  linkNext B (putW m p blocksize) next blocksize p

/-- The first half of `free`: block `p` becomes free, with the next one if that is. -/
def freeNext (m : Bytes) (p : Nat) : Bytes :=
  let next := nextBlkp B m p
  if next ≠ 0 ∧ getAlloc m next = 0 then combine B m p next else putW m p (getSize m p)

/-- The second half: the block before `p`, if it is free, takes `p` in. -/
def freePrev (m : Bytes) (p : Nat) : Bytes :=
  let prev := prevBlkp B m p
  if prev ≠ 0 ∧ getAlloc m prev = 0 then combine B m prev p else m

def free (m : Bytes) (addr : Nat) : Bytes :=
  if addr = 0 then m
  else
    let p := addr - DSIZE
    freePrev B (freeNext B m p) p

/-! ## Words and block headers -/

theorem getW_putW_self (m : Bytes) (p : Nat) {v : Nat} (hv : v < 2 ^ 32) : getW (putW m p v) p = v :=
  load_store_self m p hv

theorem getW_putW_of_disjoint (m : Bytes) {p q : Nat} (v : Nat) (h : p + 4 ≤ q ∨ q + 4 ≤ p) :
    getW (putW m p v) q = getW m q :=
  load_store_of_disjoint m h

theorem getW_congr {m m' : Bytes} {p : Nat} (h : ∀ a, p ≤ a → a < p + 4 → m' a = m a) :
    getW m' p = getW m p :=
  load_congr h

theorem getW_lt (m : Bytes) (p : Nat) : getW m p < 2 ^ 32 := load_lt m p 4

/-- Clearing the low three bits. -/
theorem and_size {w : Nat} (hw : w < 2 ^ 32) : w &&& 0xFFFFFFF8 = 8 * (w / 8) := by
  have hmask : (0xFFFFFFF8 : Nat) = 2 ^ 3 * (2 ^ 29 - 1) := by decide
  rw [hmask, show 8 * (w / 8) = 2 ^ 3 * (w / 2 ^ 3) from rfl]
  refine Nat.eq_of_testBit_eq fun i => ?_
  rw [Nat.testBit_and, Nat.testBit_two_pow_mul, Nat.testBit_two_pow_mul, Nat.testBit_two_pow_sub_one,
    Nat.testBit_div_two_pow]
  by_cases hi : 3 ≤ i
  · rw [Nat.sub_add_cancel hi]
    by_cases h32 : i < 32
    · simp [hi, show i - 3 < 29 by omega]
    · have : w.testBit i = false :=
        Nat.testBit_lt_two_pow (hw.trans_le (Nat.pow_le_pow_right (by decide) (by omega)))
      simp [this]
  · simp [hi]

theorem pack_one {n : Nat} (h : 8 ∣ n) : pack n 1 = n + 1 := by
  obtain ⟨k, rfl⟩ := h
  exact (Nat.two_pow_add_eq_or_of_lt (show 1 < 2 ^ 3 by decide) k).symm

end ToyOS.Heap.Memory
