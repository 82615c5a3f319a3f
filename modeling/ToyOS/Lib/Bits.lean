import Mathlib.Data.Finset.Card
import Mathlib.Logic.Function.Basic
import ToyOS.Lib.Words

/-! # Bit maps in memory

A map of bits packed eight to a byte, lowest bit first: reading, setting and
clearing one bit, the number of clear bits below a bound, and the search for
the least clear bit that skips bytes of all ones.
-/
namespace ToyOS.Lib.Bits
open ToyOS.Lib.Words

/-- Bit `b` of the map. -/
def bit (m : Bytes) (b : Nat) : Bool := (m (b / 8)).toNat.testBit (b % 8)

/-- The byte with only bit `o` set. -/
def mask (o : Nat) : UInt8 := 1 <<< UInt8.ofNat o

def setBit (m : Bytes) (b : Nat) : Bytes :=
  Function.update m (b / 8) (m (b / 8) ||| mask (b % 8))

def clearBit (m : Bytes) (b : Nat) : Bytes :=
  Function.update m (b / 8) (m (b / 8) &&& ~~~mask (b % 8))

theorem toNat_mask {o : Nat} (ho : o < 8) : (mask o).toNat = 2 ^ o := by
  have h : (UInt8.ofNat o).toNat % 8 = o := by simp; omega
  simp only [mask, UInt8.toNat_shiftLeft, h, UInt8.toNat_one, Nat.one_shiftLeft]
  exact Nat.mod_eq_of_lt (Nat.pow_lt_pow_right (by omega) ho)

theorem testBit_or_mask (m : UInt8) {o j : Nat} (ho : o < 8) :
    (m ||| mask o).toNat.testBit j = (m.toNat.testBit j || decide (j = o)) := by
  rw [UInt8.toNat_or, Nat.testBit_or, toNat_mask ho, Nat.testBit_two_pow]
  simp [eq_comm]

theorem testBit_and_not_mask (m : UInt8) {o j : Nat} (ho : o < 8) (hj : j < 8) :
    (m &&& ~~~mask o).toNat.testBit j = (m.toNat.testBit j && !decide (j = o)) := by
  have hlt : 2 ^ o < 2 ^ 8 := Nat.pow_lt_pow_right (by omega) ho
  rw [UInt8.toNat_and, Nat.testBit_and, UInt8.toNat_not, toNat_mask ho,
    show UInt8.size - 1 - 2 ^ o = 2 ^ 8 - (2 ^ o + 1) by simp only [UInt8.size]; omega,
    Nat.testBit_two_pow_sub_succ hlt, Nat.testBit_two_pow]
  simp [hj, eq_comm]

theorem bit_setBit (m : Bytes) (b c : Nat) :
    bit (setBit m b) c = (bit m c || decide (c = b)) := by
  by_cases h : c / 8 = b / 8
  · simp only [bit, setBit, h, Function.update_self, testBit_or_mask _ (Nat.mod_lt b (by omega))]
    congr 2
    exact propext ⟨fun _ => by omega, fun e => by rw [e]⟩
  · have hne : c ≠ b := fun e => h (by rw [e])
    simp [bit, setBit, Function.update_of_ne h, hne]

theorem bit_clearBit (m : Bytes) (b c : Nat) :
    bit (clearBit m b) c = (bit m c && !decide (c = b)) := by
  by_cases h : c / 8 = b / 8
  · simp only [bit, clearBit, h, Function.update_self,
      testBit_and_not_mask _ (Nat.mod_lt b (by omega)) (Nat.mod_lt c (by omega))]
    congr 3
    exact propext ⟨fun _ => by omega, fun e => by rw [e]⟩
  · have hne : c ≠ b := fun e => h (by rw [e])
    simp [bit, clearBit, Function.update_of_ne h, hne]

@[simp] theorem bit_setBit_self (m : Bytes) (b : Nat) : bit (setBit m b) b = true := by
  simp [bit_setBit]

@[simp] theorem bit_clearBit_self (m : Bytes) (b : Nat) : bit (clearBit m b) b = false := by
  simp [bit_clearBit]

theorem bit_of_lt (m : Bytes) (i : Nat) {j : Nat} (hj : j < 8) :
    bit m (i * 8 + j) = (m i).toNat.testBit j := by
  rw [bit, show (i * 8 + j) / 8 = i by omega, show (i * 8 + j) % 8 = j by omega]

/-- Maps are equal when their bits are. -/
theorem eq_of_bit_eq {m m' : Bytes} (h : ∀ b, bit m b = bit m' b) : m = m' := by
  funext i
  refine UInt8.toNat_inj.mp (Nat.eq_of_testBit_eq fun j => ?_)
  by_cases hj : j < 8
  · rw [← bit_of_lt m i hj, ← bit_of_lt m' i hj, h]
  · have hpow : 2 ^ 8 ≤ 2 ^ j := Nat.pow_le_pow_right (by omega) (by omega)
    rw [Nat.testBit_lt_two_pow (Nat.lt_of_lt_of_le (m i).toNat_lt hpow),
      Nat.testBit_lt_two_pow (Nat.lt_of_lt_of_le (m' i).toNat_lt hpow)]

theorem clearBit_setBit {m : Bytes} {b : Nat} (h : bit m b = false) : clearBit (setBit m b) b = m := by
  refine eq_of_bit_eq fun c => ?_
  rw [bit_clearBit, bit_setBit]
  by_cases hc : c = b
  · rw [hc, h]
    simp
  · simp [hc]

/-- Clear bits among the first `n`, for any way of reading a bit. -/
def clearCount (used : Nat → Bool) (n : Nat) : Nat :=
  ((Finset.range n).filter fun b => used b = false).card

theorem clearCount_congr {u v : Nat → Bool} {n : Nat} (h : ∀ b, b < n → u b = v b) :
    clearCount u n = clearCount v n := by
  unfold clearCount
  congr 1
  exact Finset.filter_congr fun b hb => by rw [h b (Finset.mem_range.mp hb)]

/-- Setting a clear bit takes one from the count. -/
theorem clearCount_set {u v : Nat → Bool} {n b : Nat} (hb : b < n) (hu : u b = false)
    (hv : ∀ c, v c = (u c || decide (c = b))) : clearCount v n + 1 = clearCount u n := by
  have he : ((Finset.range n).filter fun c => v c = false) =
      ((Finset.range n).filter fun c => u c = false).erase b := by
    ext c
    simp only [Finset.mem_filter, Finset.mem_range, Finset.mem_erase, hv, Bool.or_eq_false_iff,
      decide_eq_false_iff_not]
    tauto
  have hm : b ∈ (Finset.range n).filter fun c => u c = false := by
    simp [hb, hu]
  unfold clearCount
  rw [he]
  exact Finset.card_erase_add_one hm

/-- Clearing a set bit adds one to the count. -/
theorem clearCount_clear {u v : Nat → Bool} {n b : Nat} (hb : b < n) (hu : u b = true)
    (hv : ∀ c, v c = (u c && !decide (c = b))) : clearCount v n = clearCount u n + 1 := by
  refine (clearCount_set (u := v) (v := u) hb (by simp [hv]) fun c => ?_).symm
  by_cases h : c = b
  · subst h; simp [hu]
  · simp [hv, h]

theorem clearCount_mono {u v : Nat → Bool} {n : Nat} (h : ∀ c, v c = true → u c = true) :
    clearCount u n ≤ clearCount v n := by
  refine Finset.card_le_card fun c hc => ?_
  simp only [Finset.mem_filter, Finset.mem_range] at hc ⊢
  exact ⟨hc.1, Bool.eq_false_iff.mpr fun e => by simp [h c e] at hc⟩

/-- The bits of `bs` cleared, all of which were set. -/
theorem clearCount_without {u v : Nat → Bool} {n : Nat} {bs : List Nat} (hd : bs.Nodup)
    (hlt : ∀ b ∈ bs, b < n) (hset : ∀ b ∈ bs, u b = true)
    (hv : ∀ c, v c = true ↔ u c = true ∧ c ∉ bs) : clearCount v n = clearCount u n + bs.length := by
  have hdisj : Disjoint ((Finset.range n).filter fun b => u b = false) bs.toFinset := by
    refine Finset.disjoint_left.mpr fun b hb hmem => ?_
    rw [List.mem_toFinset] at hmem
    simp [hset b hmem] at hb
  have heq : ((Finset.range n).filter fun b => v b = false) =
      ((Finset.range n).filter fun b => u b = false) ∪ bs.toFinset := by
    ext c
    have hc := hv c
    simp only [Finset.mem_filter, Finset.mem_range, Finset.mem_union, List.mem_toFinset]
    rw [← Bool.not_eq_true, ← Bool.not_eq_true, hc]
    have hlt := hlt c
    tauto
  unfold clearCount
  rw [heq, Finset.card_union_of_disjoint hdisj, List.toFinset_card_of_nodup hd]

/-- A byte other than all ones has a clear bit. -/
theorem exists_clear_of_ne {m : UInt8} (h : m ≠ 255) : ∃ o, o < 8 ∧ m.toNat.testBit o = false := by
  by_contra hn
  push Not at hn
  refine h (UInt8.toNat_inj.mp (Nat.eq_of_testBit_eq fun i => ?_))
  have hm : m.toNat < 2 ^ 8 := m.toNat_lt
  rw [show (255 : UInt8).toNat = 2 ^ 8 - 1 by rfl, Nat.testBit_two_pow_sub_one]
  by_cases hi : i < 8
  · simpa [hi] using hn i hi
  · rw [Nat.testBit_lt_two_pow (Nat.lt_of_lt_of_le hm (Nat.pow_le_pow_right (by omega) (by omega)))]
    simp [hi]

end ToyOS.Lib.Bits
