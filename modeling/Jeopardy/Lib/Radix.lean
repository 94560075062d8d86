import Mathlib

/-!
# Blocks and digits

Positional notation of machine words in base `2 ^ d`. The block of `i` at bit `s` is
`i / 2 ^ s`; a block is one digit below the block `d` bits higher. The mask laws say what
clearing and setting the bits below a position do to the block and the digits.
-/

namespace Jeopardy.Radix

/-- The `d`-bit digit of `i` at bit `s`. -/
def digit (d s i : Nat) : Nat := i / 2 ^ s % 2 ^ d

/-- Blocks nest. -/
theorem div_two_pow_add (i s d : Nat) : i / 2 ^ (s + d) = i / 2 ^ s / 2 ^ d := by
  rw [Nat.pow_add, Nat.div_div_eq_div_mul]

/-- A block is the block above it with one digit appended. -/
theorem div_eq_append (d s i : Nat) :
    i / 2 ^ s = 2 ^ d * (i / 2 ^ (s + d)) + digit d s i := by
  rw [div_two_pow_add, digit]
  exact (Nat.div_add_mod _ _).symm

/-- Two numbers share a block exactly if they share the block above and the digit. -/
theorem div_eq_iff (d s i j : Nat) :
    i / 2 ^ s = j / 2 ^ s ↔ i / 2 ^ (s + d) = j / 2 ^ (s + d) ∧ digit d s i = digit d s j := by
  constructor
  · intro h
    simp only [div_two_pow_add, digit, h, and_self]
  · rintro ⟨hb, hd⟩
    rw [div_eq_append d s i, div_eq_append d s j, hb, hd]

/-- Within one block the order is the order of the blocks below. -/
theorem digit_le_of_le {d s i j : Nat} (hb : i / 2 ^ (s + d) = j / 2 ^ (s + d)) (h : i ≤ j) :
    digit d s i ≤ digit d s j := by
  have hle : i / 2 ^ s ≤ j / 2 ^ s := Nat.div_le_div_right h
  rw [div_eq_append d s i, div_eq_append d s j, hb] at hle
  exact Nat.le_of_add_le_add_left hle

/-- A number below the start of a block at digit `o` has a smaller digit there. -/
theorem digit_lt_of_lt {d s j b o : Nat} (hb : j / 2 ^ (s + d) = b)
    (h : j < b * 2 ^ (s + d) + o * 2 ^ s) : digit d s j < o := by
  have hs : 0 < 2 ^ s := by positivity
  have hlt : j / 2 ^ s < 2 ^ d * b + o := by
    rw [Nat.div_lt_iff_lt_mul hs]
    calc j < b * 2 ^ (s + d) + o * 2 ^ s := h
      _ = (2 ^ d * b + o) * 2 ^ s := by rw [Nat.pow_add]; ring
  rw [div_eq_append d s j, hb] at hlt
  omega

/-- The first number of a block. -/
theorem mul_div_two_pow_add {d s b o : Nat} (ho : o < 2 ^ d) :
    (b * 2 ^ (s + d) + o * 2 ^ s) / 2 ^ (s + d) = b := by
  have hlt : o * 2 ^ s < 2 ^ (s + d) := by
    rw [Nat.pow_add, Nat.mul_comm (2 ^ s)]
    exact Nat.mul_lt_mul_of_pos_right ho (by positivity)
  rw [Nat.mul_comm, Nat.mul_add_div (by positivity), Nat.div_eq_of_lt hlt, Nat.add_zero]

theorem digit_mul_add {d s b o : Nat} (ho : o < 2 ^ d) :
    digit d s (b * 2 ^ (s + d) + o * 2 ^ s) = o := by
  have hform : b * 2 ^ (s + d) + o * 2 ^ s = (b * 2 ^ d + o) * 2 ^ s := by
    rw [Nat.pow_add]; ring
  rw [digit, hform, Nat.mul_div_cancel _ (by positivity), Nat.mul_comm, Nat.mul_add_mod,
    Nat.mod_eq_of_lt ho]

/-- The lowest `n` digits of a number make up its part below bit `d * n`. -/
theorem sum_digit (d n i : Nat) :
    ((List.range n).map (fun k ↦ digit d (d * k) i * 2 ^ (d * k))).sum = i % 2 ^ (d * n) := by
  induction n with
  | zero => simp [Nat.mod_one]
  | succ n ih =>
    rw [List.range_succ, List.map_append, List.sum_append, ih, List.map_singleton,
      List.sum_singleton, Nat.mul_succ, Nat.pow_add, Nat.mod_mul, digit, Nat.mul_comm (2 ^ (d * n))]

section Words

variable {w : Nat}

/-- The word with the bits below `k` set. -/
def lowMask (w k : Nat) : BitVec w := BitVec.ofNat w (2 ^ k - 1)

theorem toNat_shiftRight_and_lowMask (x : BitVec w) (s d : Nat) (hd : d ≤ w) :
    ((x >>> s) &&& lowMask w d).toNat = digit d s x.toNat := by
  have hlt : 2 ^ d - 1 < 2 ^ w :=
    (Nat.sub_lt (by positivity) Nat.one_pos).trans_le (Nat.pow_le_pow_right (by decide) hd)
  rw [BitVec.toNat_and, BitVec.toNat_ushiftRight, Nat.shiftRight_eq_div_pow, lowMask,
    BitVec.toNat_ofNat, Nat.mod_eq_of_lt hlt, Nat.and_two_pow_sub_one_eq_mod, digit]

private theorem testBit_lowMask (k j : Nat) :
    (lowMask w k).toNat.testBit j = (decide (j < k) && decide (j < w)) := by
  rw [lowMask, BitVec.toNat_ofNat, Nat.testBit_mod_two_pow, Nat.testBit_two_pow_sub_one,
    Bool.and_comm]

/-- A word exceeds the mask exactly if it does not fit below bit `k`. -/
theorem lowMask_lt_iff (x : BitVec w) (k : Nat) : lowMask w k < x ↔ 2 ^ k ≤ x.toNat := by
  rw [BitVec.lt_def, lowMask, BitVec.toNat_ofNat]
  have hx := x.isLt
  have hk : 0 < 2 ^ k := by positivity
  rcases Nat.lt_or_ge k w with hkw | hkw
  · have hlt : 2 ^ k < 2 ^ w := Nat.pow_lt_pow_right (by decide) hkw
    rw [Nat.mod_eq_of_lt (by omega)]
    omega
  · have hle : 2 ^ w ≤ 2 ^ k := Nat.pow_le_pow_right (by decide) hkw
    obtain ⟨c, hc⟩ := Nat.exists_eq_add_of_le hkw
    have hones : (2 ^ k - 1) % 2 ^ w = 2 ^ w - 1 := by
      apply Nat.eq_of_testBit_eq
      intro j
      rw [Nat.testBit_mod_two_pow, Nat.testBit_two_pow_sub_one, Nat.testBit_two_pow_sub_one]
      by_cases hj : j < w
      · simp [hj, hj.trans_le hkw]
      · simp [hj]
    omega

/-- Clearing the low bits leaves the start of the block. -/
theorem toNat_and_not_lowMask (x : BitVec w) (k : Nat) :
    (x &&& ~~~lowMask w k).toNat = x.toNat / 2 ^ k * 2 ^ k := by
  apply Nat.eq_of_testBit_eq
  intro j
  have hleft : (x &&& ~~~lowMask w k).toNat.testBit j
      = (x.toNat.testBit j && (decide (j < w) && !(decide (j < k) && decide (j < w)))) := by
    rw [← testBit_lowMask]
    simp only [BitVec.toNat_and, Nat.testBit_and, BitVec.testBit_toNat, BitVec.getLsbD_not]
  rw [hleft, ← Nat.shiftLeft_eq, Nat.testBit_shiftLeft, Nat.testBit_div_two_pow]
  by_cases hk : k ≤ j
  · have hjk : j - k + k = j := by omega
    by_cases hw : j < w
    · simp [hk, hw, hjk, Nat.not_lt.mpr hk]
    · have hbig : x.toNat.testBit j = false :=
        Nat.testBit_lt_two_pow (x.isLt.trans_le (Nat.pow_le_pow_right (by decide) (by omega)))
      simp [hk, hw, hjk, hbig]
  · by_cases hw : j < w
    · simp [hk, hw, Nat.lt_of_not_le hk]
    · simp [hk, hw]

/-- Setting the low bits gives the end of the block. -/
theorem toNat_or_lowMask (x : BitVec w) {k : Nat} (hk : k ≤ w) :
    (x ||| lowMask w k).toNat = x.toNat / 2 ^ k * 2 ^ k + (2 ^ k - 1) := by
  have hk0 : 0 < 2 ^ k := by positivity
  rw [Nat.mul_comm, Nat.two_pow_add_eq_or_of_lt (by omega)]
  apply Nat.eq_of_testBit_eq
  intro j
  rw [BitVec.toNat_or, Nat.testBit_or, Nat.testBit_or, testBit_lowMask,
    Nat.testBit_two_pow_sub_one, Nat.mul_comm, ← Nat.shiftLeft_eq, Nat.testBit_shiftLeft,
    Nat.testBit_div_two_pow]
  by_cases hjk : j < k
  · simp [hjk, hjk.trans_le hk]
  · have hj : j - k + k = j := by omega
    simp [hjk, hj, Nat.le_of_not_lt hjk]

end Words

end Jeopardy.Radix
