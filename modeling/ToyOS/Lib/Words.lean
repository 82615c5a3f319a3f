import Mathlib.Algebra.Order.Ring.Int
import Mathlib.Logic.Function.Basic

/-! # Little-endian words in memory

Memory is a function from offsets to bytes. `load m off n` reads an `n`-byte
unsigned number stored lowest byte first, `store m off n v` writes one.
-/
namespace ToyOS.Lib.Words

abbrev Bytes := Nat → UInt8

def load (m : Bytes) : Nat → Nat → Nat
  | _, 0 => 0
  | off, n + 1 => (m off).toNat + 256 * load m (off + 1) n

def store (m : Bytes) : Nat → Nat → Nat → Bytes
  | _, 0, _ => m
  | off, n + 1, v => store (Function.update m off (UInt8.ofNat (v % 256))) (off + 1) n (v / 256)

/-- A store touches only its own bytes. -/
theorem store_of_lt_or_le (m : Bytes) {off n v a : Nat} (h : a < off ∨ off + n ≤ a) :
    store m off n v a = m a := by
  induction n generalizing m off v with
  | zero => rfl
  | succ n ih =>
    rw [store, ih _ (by omega), Function.update_of_ne (by omega)]

theorem load_congr {m m' : Bytes} {off n : Nat} (h : ∀ a, off ≤ a → a < off + n → m a = m' a) :
    load m off n = load m' off n := by
  induction n generalizing off with
  | zero => rfl
  | succ n ih =>
    rw [load, load, h off (Nat.le_refl _) (by omega), ih fun a h1 h2 => h a (by omega) (by omega)]

theorem load_store_self (m : Bytes) (off : Nat) {n v : Nat} (hv : v < 256 ^ n) :
    load (store m off n v) off n = v := by
  induction n generalizing m off v with
  | zero => simp only [Nat.pow_zero] at hv; simp only [load]; omega
  | succ n ih =>
    have hd : v / 256 < 256 ^ n := by
      rw [Nat.pow_succ] at hv
      exact Nat.div_lt_of_lt_mul (by omega)
    have hlow : store m off (n + 1) v off = UInt8.ofNat (v % 256) := by
      rw [store, store_of_lt_or_le _ (by omega), Function.update_self]
    rw [load, hlow, store, ih _ _ hd, UInt8.toNat_ofNat']
    omega

/-- Stores and loads at disjoint places do not interact. -/
theorem load_store_of_disjoint (m : Bytes) {off off' n n' v : Nat}
    (h : off + n ≤ off' ∨ off' + n' ≤ off) :
    load (store m off n v) off' n' = load m off' n' :=
  load_congr fun _ h1 h2 => store_of_lt_or_le m (by omega)

theorem load_zero {m : Bytes} {off n : Nat} (h : ∀ a, off ≤ a → a < off + n → m a = 0) :
    load m off n = 0 := by
  induction n generalizing off with
  | zero => rfl
  | succ n ih =>
    rw [load, h off (Nat.le_refl _) (by omega), ih fun a h1 h2 => h a (by omega) (by omega)]
    rfl

theorem load_lt (m : Bytes) (off n : Nat) : load m off n < 256 ^ n := by
  induction n generalizing off with
  | zero => simp [load]
  | succ n ih =>
    have h1 := ih (off + 1)
    have h2 := (m off).toNat_lt
    rw [load, Nat.pow_succ]
    omega

end ToyOS.Lib.Words
