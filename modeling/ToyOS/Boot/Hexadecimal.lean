import Mathlib.Data.List.Range
import Mathlib.Tactic.Ring
import ToyOS.Boot.Screen

/-! # Numbers on the screen

`print_hex_string` prints a 64-bit number as `0x` and sixteen digits. Reading the
digits gives the number back.
-/
namespace ToyOS.Boot.Hexadecimal
open ToyOS.Lib.CStrings ToyOS.Lib.Loop ToyOS.Lib.Words ToyOS.Boot.Screen

/-- The `char` of a number below 16. -/
def hexDigit (hexNumber : Nat) : UInt8 := UInt8.ofNat (if 9 < hexNumber then hexNumber + 87 else hexNumber + 48)

/-- One pass of the loop, with `index` counted down from 17. -/
def hexStep (i : Nat) (s : Bytes × Nat) : Bytes × Nat :=
  (Function.update s.1 (17 - i) (hexDigit (s.2 &&& 0xf)), s.2 >>> 4)

/-- `hex_str`, with what lies on the stack before. -/
def hexStr (stack : Bytes) (data : Nat) : Bytes :=
  let hexStr := Function.update (Function.update (Function.update stack 0 48) 1 120) 18 0
  (loop hexStep 0 16 (hexStr, data)).1

/-- The string in a buffer of 19 bytes. -/
def hexText (stack : Bytes) (data : Nat) : Str := cstr ((List.range 19).map (hexStr stack data))

def printHexString (con : Console) (stack : Bytes) (data : Nat) : Console := print con (hexText stack data)

/-! ## Reading a number -/

/-- The value of a digit. -/
def digitValue (c : UInt8) : Option Nat :=
  if 48 ≤ c.toNat ∧ c.toNat ≤ 57 then some (c.toNat - 48)
  else if 97 ≤ c.toNat ∧ c.toNat ≤ 102 then some (c.toNat - 87)
  else none

def readDigits : Nat → Str → Option Nat
  | n, [] => some n
  | n, c :: s => (digitValue c).bind fun d => readDigits (16 * n + d) s

/-- `0x` and digits. -/
def readHex : Str → Option Nat
  | 48 :: 120 :: s => readDigits 0 s
  | _ => none

theorem digitValue_hexDigit : ∀ d, d < 16 → digitValue (hexDigit d) = some d := by decide

theorem hexDigit_ne_zero : ∀ d, d < 16 → hexDigit d ≠ 0 := by decide

/-! ## The digits that are printed -/

/-- Digit `i` of a number, counted from the last. -/
def digit (data i : Nat) : Nat := data / 16 ^ i % 16

theorem digit_lt (data i : Nat) : digit data i < 16 := Nat.mod_lt _ (by decide)

theorem hexStep_eq (i : Nat) (s : Bytes × Nat) :
    hexStep i s = (Function.update s.1 (17 - i) (hexDigit (s.2 % 16)), s.2 / 16) := by
  have hand : s.2 &&& 0xf = s.2 % 16 := Nat.and_two_pow_sub_one_eq_mod s.2 4
  have hshift : s.2 >>> 4 = s.2 / 16 := Nat.shiftRight_eq_div_pow s.2 4
  unfold hexStep
  rw [hand, hshift]

/-- The bytes of `hex_str`, digits where the loop has been. -/
theorem hexStr_apply (stack : Bytes) (data j : Nat) (hj : 2 ≤ j) (hj' : j < 18) :
    hexStr stack data j = hexDigit (digit data (17 - j)) := by
  have h := loop_inv (fun i (s : Bytes × Nat) => s.2 = data / 16 ^ i ∧
      ∀ j, 17 - i < j → j < 18 → s.1 j = hexDigit (digit data (17 - j)))
    (f := hexStep) (a := 0) (n := 16)
    (s := (Function.update (Function.update (Function.update stack 0 48) 1 120) 18 0, data)) ?_ ?_
  · exact h.2 j (by omega) hj'
  · exact ⟨(Nat.div_one data).symm, fun j h1 h2 => by omega⟩
  · rintro i s - hi ⟨hdata, hbytes⟩
    rw [hexStep_eq]
    refine ⟨?_, fun j h1 h2 => ?_⟩
    · rw [hdata, Nat.pow_succ, Nat.div_div_eq_div_mul]
    · dsimp only
      by_cases hj : j = 17 - i
      · rw [hj, Function.update_self, hdata, digit, Nat.sub_sub_self (by omega)]
      · rw [Function.update_of_ne hj]
        exact hbytes j (by omega) h2

/-- The loop leaves the two first bytes and the end of the string. -/
theorem hexStr_rest (stack : Bytes) (data : Nat) :
    hexStr stack data 0 = 48 ∧ hexStr stack data 1 = 120 ∧ hexStr stack data 18 = 0 := by
  refine loop_inv (fun _ (s : Bytes × Nat) => s.1 0 = 48 ∧ s.1 1 = 120 ∧ s.1 18 = 0) ⟨rfl, rfl, rfl⟩ ?_
  rintro i s - hi ⟨h0, h1, h18⟩
  rw [hexStep_eq]
  dsimp only
  refine ⟨?_, ?_, ?_⟩
  · rw [Function.update_of_ne (by omega), h0]
  · rw [Function.update_of_ne (by omega), h1]
  · rw [Function.update_of_ne (by omega), h18]

/-- The last `n` digits, from the first of them on. -/
def digits (data : Nat) : Nat → Str
  | 0 => []
  | n + 1 => hexDigit (digit data n) :: digits data n

theorem zero_notMem_digits (data n : Nat) : 0 ∉ digits data n := by
  induction n with
  | zero => exact List.not_mem_nil
  | succ n ih =>
    rw [digits, List.mem_cons, not_or]
    exact ⟨(hexDigit_ne_zero _ (digit_lt data n)).symm, ih⟩

theorem readDigits_digits (data n m : Nat) :
    readDigits m (digits data n) = some (m * 16 ^ n + data % 16 ^ n) := by
  induction n generalizing m with
  | zero =>
    rw [digits, readDigits, pow_zero, Nat.mul_one, Nat.mod_one, Nat.add_zero]
  | succ n ih =>
    rw [digits, readDigits, digitValue_hexDigit _ (digit_lt data n), Option.bind_some, ih, Nat.mod_pow_succ,
      digit]
    congr 1
    ring

theorem hexText_eq (stack : Bytes) (data : Nat) : hexText stack data = 48 :: 120 :: digits data 16 := by
  obtain ⟨h0, h1, h18⟩ := hexStr_rest stack data
  have hrange : List.range 19 = 0 :: 1 :: ((List.range 16).map (· + 2) ++ [18]) := rfl
  have hmid : ((List.range 16).map (· + 2)).map (hexStr stack data) = digits data 16 := by
    have hlist : digits data 16 = (List.range 16).map fun i => hexDigit (digit data (15 - i)) := rfl
    rw [hlist, List.map_map]
    refine List.map_congr_left fun i hi => ?_
    rw [List.mem_range] at hi
    exact (hexStr_apply stack data (i + 2) (by omega) (by omega)).trans (congrArg _ (by congr 1; omega))
  unfold hexText
  rw [hrange, List.map_cons, List.map_cons, List.map_append, hmid, List.map_singleton, h0, h1, h18]
  refine cstr_append_zero (s := 48 :: 120 :: digits data 16) ?_ []
  simp [zero_notMem_digits]

/-- What is printed for a number is that number. -/
theorem hex_round_trip (stack : Bytes) (data : Nat) (h : data < 2 ^ 64) :
    readHex (hexText stack data) = some data := by
  rw [hexText_eq]
  show readDigits 0 (digits data 16) = some data
  rw [readDigits_digits, Nat.zero_mul, Nat.zero_add, Nat.mod_eq_of_lt (show data < 16 ^ 16 from h)]

/-- 3 GB. -/
theorem hex_round_trip_small : readHex (hexText (fun _ => 0) 0xC0000000) = some 0xC0000000 :=
  hex_round_trip _ _ (by decide)

end ToyOS.Boot.Hexadecimal
