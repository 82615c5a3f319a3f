import Mathlib.Tactic.Common

/-! # The positions a stage visits

Each stage of `rd_write` and `rd_read` runs through the blocks `m`, …,
`m + c - 1` of the file, through every one of them from the same offset `o` on.
`Visits` says that the positions `loc` do the same, `Seamless` that the stages
that begin at a position go through consecutive positions.
-/
namespace ToyOS.Ramdisk.Ranges

variable {n t m o c i : Nat}

/-- From the `t`-th of `n` bytes on, `loc` runs through the blocks `m`, …,
`m + c - 1`, through each from offset `o` to its end. -/
def Visits (loc : Nat → Nat) (n t m o c : Nat) : Prop :=
  ∀ i j, i < c → j < 256 - o → t + i * (256 - o) + j < n →
    loc (t + i * (256 - o) + j) = 256 * (m + i) + (o + j)

theorem Visits.from {loc : Nat → Nat} {n t m o c : Nat} (h : Visits loc n t m o c) {d e : Nat}
    (hd : d + e ≤ c) : Visits loc n (t + d * (256 - o)) (m + d) o e := by
  intro i j hi hj hlt
  have := h (d + i) j (by omega) hj
  rw [Nat.add_mul] at this
  rw [show t + d * (256 - o) + i * (256 - o) + j = t + (d * (256 - o) + i * (256 - o)) + j by omega]
    at hlt ⊢
  rw [this hlt]
  omega

theorem Visits.head {loc : Nat → Nat} {n t m o c : Nat} (h : Visits loc n t m o c) (hc : 0 < c)
    (ho : o < 256) (ht : t < n) : loc t = 256 * m + o := by
  have := h 0 0 hc (by omega) (by omega)
  simpa using this

/-- The writes, and reads, of `n` bytes from position `c` on that the stages
carry out at the positions `c`, …, `c + n - 1`: they begin at a block boundary
up to the first double-indirect block, or in the last block of a stage, or stay
inside one block that the stages can find. -/
def Seamless (c n : Nat) : Prop :=
  (c % 256 = 0 ∧ c ≤ 18432) ∨ c / 256 = 7 ∨ c / 256 = 71 ∨
    (c % 256 + n ≤ 256 ∧ c / 256 ≤ 72)

theorem seamless_zero (n : Nat) : Seamless 0 n := .inl ⟨rfl, Nat.zero_le _⟩

/-- One stage of a seamless write: blocks `m`, …, `m + c - 1` from offset `o` on. -/
theorem visits_seamless {a : Nat} (hm : a + t = 256 * m + o) (ho : o < 256)
    (h : o = 0 ∨ c ≤ 1 ∨ n ≤ t + (256 - o)) : Visits (a + ·) n t m o c := by
  intro i j hi hj hlt
  show a + (t + i * (256 - o) + j) = _
  rcases h with rfl | hc | hn
  · simp only [Nat.sub_zero] at hlt ⊢
    omega
  · obtain rfl : i = 0 := by omega
    simp only [Nat.zero_mul] at hlt ⊢
    omega
  · have hi0 : i = 0 := by
      by_contra hne
      have : 1 * (256 - o) ≤ i * (256 - o) := Nat.mul_le_mul_right _ (by omega)
      omega
    subst hi0
    simp only [Nat.zero_mul] at hlt ⊢
    omega

/-- Where such a stage ends if bytes are left. -/
theorem seamless_end {a : Nat} (hm : a + t = 256 * m + o) (ho : o < 256) (hc : 0 < c)
    (h : o = 0 ∨ c ≤ 1 ∨ n ≤ t + (256 - o)) (ht : t + c * (256 - o) < n) :
    a + (t + c * (256 - o)) = 256 * (m + c) := by
  rcases h with rfl | hc' | hn
  · simp only [Nat.sub_zero] at ht ⊢
    omega
  · obtain rfl : c = 1 := by omega
    omega
  · have : 1 * (256 - o) ≤ c * (256 - o) := Nat.mul_le_mul_right _ hc
    omega

/-! ## One stage by itself -/

/-- The block a stage begins with when block `q` is meant: the double-indirect
stages take the number of the index block for the number within the first one. -/
def startBlock (q : Nat) : Nat := if q < 72 then q else 72 + (q - 72) / 64

/-- The `i`-th position from block `m` on, from offset `o` in each. -/
def stageLoc (m o i : Nat) : Nat := 256 * (m + i / (256 - o)) + (o + i % (256 - o))

theorem visits_stageLoc : Visits (stageLoc m o) n 0 m o c := by
  intro i j _ hj _
  have hw : 0 < 256 - o := by omega
  have hd : (0 + i * (256 - o) + j) / (256 - o) = i := by
    rw [Nat.zero_add, Nat.mul_comm, Nat.mul_add_div hw, Nat.div_eq_of_lt hj, Nat.add_zero]
  have hr : (0 + i * (256 - o) + j) % (256 - o) = j := by
    rw [Nat.zero_add, Nat.mul_comm, Nat.mul_add_mod, Nat.mod_eq_of_lt hj]
  rw [stageLoc, hd, hr]

/-- The bytes below the starting offset are skipped in every block. -/
theorem stageLoc_offset (ho : o < 256) (i : Nat) : o ≤ stageLoc m o i % 256 := by
  have : i % (256 - o) < 256 - o := Nat.mod_lt _ (by omega)
  unfold stageLoc
  omega

/-- Without an offset, or within one block, the positions are consecutive. -/
theorem stageLoc_run (h : o = 0 ∨ i < 256 - o) : stageLoc m o i = 256 * m + o + i := by
  unfold stageLoc
  rcases h with rfl | h
  · simp only [Nat.sub_zero]; omega
  · rw [Nat.div_eq_of_lt h, Nat.mod_eq_of_lt h]; omega

end ToyOS.Ramdisk.Ranges
