import Mathlib.Logic.Function.Basic
import Mathlib.Data.List.TakeWhile

/-! # C strings

A string is the list of its bytes before the terminating zero. A buffer is the
list of the bytes of an allocation, zero or not; `cstr` is the string a buffer
holds. `strEq` compares a string with memory the way `strcmp` does: it never
reads past the first difference or the common terminator.
-/
namespace ToyOS.Lib.CStrings

abbrev Str := List UInt8

/-- The string a buffer holds: the bytes before its first zero. -/
def cstr (buf : List UInt8) : Str := buf.takeWhile (· != 0)

/-- `memset(buf, 0, strlen(buf))`: clears up to the first zero and no further. -/
def clearStr (buf : List UInt8) : List UInt8 :=
  List.replicate (cstr buf).length 0 ++ buf.drop (cstr buf).length

def strcpy (dst : List UInt8) (src : Str) : List UInt8 :=
  src ++ 0 :: dst.drop (src.length + 1)

/-- `strncpy(dst, src, n)`; no terminator is stored when `src` has `n` bytes or more. -/
def strncpy (dst : List UInt8) (src : Str) (n : Nat) : List UInt8 :=
  src.take n ++ List.replicate (n - src.length) 0 ++ dst.drop n

/-- `strcmp(m + off, s) == 0`. -/
def strEq (m : Nat → UInt8) : Nat → Str → Bool
  | off, [] => m off == 0
  | off, c :: s => m off == c && strEq m (off + 1) s

theorem strEq_iff {m : Nat → UInt8} {off : Nat} {s : Str} :
    strEq m off s = true ↔
      (∀ i c, s[i]? = some c → m (off + i) = c) ∧ m (off + s.length) = 0 := by
  induction s generalizing off with
  | nil => simp [strEq]
  | cons c s ih =>
    simp only [strEq, Bool.and_eq_true, beq_iff_eq, ih, List.length_cons]
    rw [show off + (s.length + 1) = off + 1 + s.length by omega]
    constructor
    · rintro ⟨h0, hs, hz⟩
      refine ⟨fun i d hd => ?_, hz⟩
      cases i with
      | zero => simp at hd; rw [← hd]; exact h0
      | succ i => rw [show off + (i + 1) = off + 1 + i by omega]; exact hs i d (by simpa using hd)
    · rintro ⟨h, hz⟩
      refine ⟨h 0 c rfl, fun i d hd => ?_, hz⟩
      rw [show off + 1 + i = off + (i + 1) by omega]
      exact h (i + 1) d (by simpa using hd)

/-- Only the bytes of the string and its terminator are read. -/
theorem strEq_congr {m m' : Nat → UInt8} {off : Nat} {s : Str}
    (h : ∀ a, off ≤ a → a ≤ off + s.length → m a = m' a) : strEq m off s = strEq m' off s := by
  induction s generalizing off with
  | nil => simp [strEq, h off (Nat.le_refl _) (by simp)]
  | cons c s ih =>
    rw [strEq, strEq, h off (Nat.le_refl _) (by omega)]
    rw [ih fun a h1 h2 => h a (by omega) (by simp only [List.length_cons]; omega)]

/-- A string without zeros is compared no further than the first zero in memory. -/
theorem strEq_congr_of_zero {m m' : Nat → UInt8} {off z : Nat} {s : Str} (hs : 0 ∉ s)
    (hz : m (off + z) = 0) (h : ∀ a, a ≤ z → m (off + a) = m' (off + a)) :
    strEq m off s = strEq m' off s := by
  induction s generalizing off z with
  | nil => simpa [strEq] using congrArg (· == 0) (h 0 (Nat.zero_le _))
  | cons c s ih =>
    have h0 : m off = m' off := h 0 (Nat.zero_le _)
    rw [strEq, strEq, h0]
    cases z with
    | zero =>
      have hc : (m' off == c) = false := by
        rw [← h0, show m off = 0 from hz]
        exact beq_eq_false_iff_ne.mpr fun e => hs (by simp [← e])
      rw [hc, Bool.false_and, Bool.false_and]
    | succ z =>
      rw [ih (z := z) (fun hm => hs (List.mem_cons_of_mem _ hm))
        (by rw [show off + 1 + z = off + (z + 1) by omega]; exact hz)
        fun a ha => by rw [show off + 1 + a = off + (a + 1) by omega]; exact h _ (by omega)]

/-- Two strings without zeros that equal the same memory are the same. -/
theorem strEq_unique {m : Nat → UInt8} {off : Nat} {s t : Str} (hs : 0 ∉ s) (ht : 0 ∉ t)
    (h : strEq m off s = true) (h' : strEq m off t = true) : s = t := by
  induction s generalizing off t with
  | nil =>
    cases t with
    | nil => rfl
    | cons d t =>
      simp only [strEq, beq_iff_eq, Bool.and_eq_true] at h h'
      exact absurd (h.symm.trans h'.1) fun e => ht (by simp [← e])
  | cons c s ih =>
    cases t with
    | nil =>
      simp only [strEq, beq_iff_eq, Bool.and_eq_true] at h h'
      exact absurd (h'.symm.trans h.1) fun e => hs (by simp [← e])
    | cons d t =>
      simp only [strEq, beq_iff_eq, Bool.and_eq_true] at h h'
      rw [← h.1, ← h'.1, ih (by simp_all) (by simp_all) h.2 h'.2]

/-- `strcpy(m + off, s)`. -/
def copyStr (m : Nat → UInt8) : Nat → Str → Nat → UInt8
  | off, [] => Function.update m off 0
  | off, c :: s => copyStr (Function.update m off c) (off + 1) s

/-- A copy touches only the bytes of the string and its terminator. -/
theorem copyStr_of_lt_or_gt (m : Nat → UInt8) {off a : Nat} {s : Str}
    (h : a < off ∨ off + s.length < a) : copyStr m off s a = m a := by
  induction s generalizing m off with
  | nil => exact Function.update_of_ne (by simp at h; omega) _ _
  | cons c s ih =>
    rw [List.length_cons] at h
    rw [copyStr, ih _ (by omega), Function.update_of_ne (by omega)]

theorem strEq_copyStr (m : Nat → UInt8) (off : Nat) (s : Str) :
    strEq (copyStr m off s) off s = true := by
  induction s generalizing m off with
  | nil => simp [copyStr, strEq]
  | cons c s ih =>
    rw [copyStr, strEq, ih, copyStr_of_lt_or_gt _ (.inl (by omega)), Function.update_self]
    simp

theorem copyStr_end (m : Nat → UInt8) (off : Nat) (s : Str) :
    copyStr m off s (off + s.length) = 0 := (strEq_iff.mp (strEq_copyStr m off s)).2

theorem cstr_append_zero {s : Str} (hs : 0 ∉ s) (rest : List UInt8) : cstr (s ++ 0 :: rest) = s := by
  unfold cstr
  rw [List.takeWhile_append_of_pos fun a ha => by
    simpa using fun e : a = 0 => hs (e ▸ ha)]
  simp

theorem cstr_of_notMem {s : Str} (hs : 0 ∉ s) : cstr s = s := by
  rw [cstr, List.takeWhile_eq_self_iff]
  exact fun a ha => by simpa using fun e : a = 0 => hs (e ▸ ha)

theorem cstr_strcpy {s : Str} (hs : 0 ∉ s) (dst : List UInt8) : cstr (strcpy dst s) = s :=
  cstr_append_zero hs _

theorem zero_notMem_cstr (buf : List UInt8) : 0 ∉ cstr buf := by
  intro h
  have := List.all_takeWhile (p := (· != 0)) (l := buf)
  simpa using List.all_eq_true.mp this 0 h

end ToyOS.Lib.CStrings
