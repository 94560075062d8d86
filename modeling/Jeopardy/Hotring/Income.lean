import Jeopardy.Hotring.Hottest

/-!
# Incomes in floating point

The incomes are sums of rounded products of rounded quotients. Rounding to nearest errs by at
most one part in `2 ^ 53`, so an income of at most 100000 terms stays close to the cost on the
line over the total counter, and a comparison with the sentinel is decided by the exact value
up to one unit. A total counter of 0 is another matter: then every income is a NaN.
-/

namespace Jeopardy.Hotring

open Fault Distance

/-- The error of rounding a number of moderate size to the nearest `double`. -/
def roundingError (x : ℚ) : ℚ := |x| / 2 ^ 53 + 1 / 2 ^ 200

/-- What the hot-spot code relies on of finite `double`s: integers of 53 bits are exact, results
of moderate size are rounded to nearest, and comparisons are those of the values. -/
class RoundedDouble (D : Type) [DoubleArith D] where
  val : D → Option ℚ
  val_ofNat : ∀ n : Nat, n ≤ 2 ^ 53 → val (DoubleArith.ofNat n) = some (n : ℚ)
  val_add : ∀ {a b : D} {x y : ℚ}, val a = some x → val b = some y → |x + y| ≤ 2 ^ 200 →
    ∃ z, val (DoubleArith.add a b) = some z ∧ |z - (x + y)| ≤ roundingError (x + y)
  val_mul : ∀ {a b : D} {x y : ℚ}, val a = some x → val b = some y → |x * y| ≤ 2 ^ 200 →
    ∃ z, val (DoubleArith.mul a b) = some z ∧ |z - x * y| ≤ roundingError (x * y)
  val_div : ∀ {a b : D} {x y : ℚ}, val a = some x → val b = some y → y ≠ 0 →
    |x / y| ≤ 2 ^ 200 →
    ∃ z, val (DoubleArith.div a b) = some z ∧ |z - x / y| ≤ roundingError (x / y)
  lt_iff : ∀ {a b : D} {x y : ℚ}, val a = some x → val b = some y →
    (DoubleArith.lt a b = true ↔ x < y)

theorem roundingError_nonneg (x : ℚ) : 0 ≤ roundingError x := by
  unfold roundingError
  positivity

instance : RoundedDouble ℚ where
  val := some
  val_ofNat _ _ := rfl
  val_add := by
    rintro a b x y ⟨⟩ ⟨⟩ -
    exact ⟨_, rfl, by simpa [DoubleArith.add] using roundingError_nonneg _⟩
  val_mul := by
    rintro a b x y ⟨⟩ ⟨⟩ -
    exact ⟨_, rfl, by simpa [DoubleArith.mul] using roundingError_nonneg _⟩
  val_div := by
    rintro a b x y ⟨⟩ ⟨⟩ - -
    exact ⟨_, rfl, by simpa [DoubleArith.div] using roundingError_nonneg _⟩
  lt_iff := by
    rintro a b x y ⟨⟩ ⟨⟩
    exact decide_eq_true_iff

/-! ### One term -/

/-- The error of a rounded product with a rounded quotient. -/
theorem term_error {q p r e d B : ℚ} (hr : 0 ≤ r) (hd : 0 ≤ d) (hd' : d ≤ 2 ^ 17)
    (he : e = r * d) (heB : e ≤ B) (hB : 1 ≤ B) (hq : |q - r| ≤ roundingError r)
    (hp : |p - q * d| ≤ roundingError (q * d)) : |p - e| ≤ 4 * B / 2 ^ 53 := by
  have he0 : 0 ≤ e := he ▸ mul_nonneg hr hd
  have hqd : |q * d - e| ≤ e / 2 ^ 53 + d / 2 ^ 200 := by
    have h : |q * d - e| = |q - r| * d := by
      rw [he, ← sub_mul, abs_mul, abs_of_nonneg hd]
    have hmul := mul_le_mul_of_nonneg_right hq hd
    rw [roundingError, abs_of_nonneg hr] at hmul
    rw [h]
    refine hmul.trans_eq ?_
    rw [he]
    ring
  have habs : |q * d| ≤ e + e / 2 ^ 53 + d / 2 ^ 200 := by
    have h := abs_sub_abs_le_abs_sub (q * d) e
    rw [abs_of_nonneg he0] at h
    linarith
  have htri : |p - e| ≤ |p - q * d| + |q * d - e| := abs_sub_le p (q * d) e
  rw [roundingError] at hp
  norm_num at *
  linarith

/-- A rounded sum does not leave the range of what it approximates by much. -/
theorem sum_range {v p e E B : ℚ} {n : Nat} (hn : n ≤ 100000) (hB : 1 ≤ B) (hE : 0 ≤ E)
    (he : 0 ≤ e) (hEB : E + e ≤ B) (hv : |v - E| ≤ n * (B / 2 ^ 50))
    (hp : |p - e| ≤ 4 * B / 2 ^ 53) :
    |v + p - (E + e)| ≤ n * (B / 2 ^ 50) + 4 * B / 2 ^ 53 ∧ |v + p| ≤ 2 * B := by
  have hn' : (n : ℚ) * (B / 2 ^ 50) ≤ 100000 * (B / 2 ^ 50) := by
    apply mul_le_mul_of_nonneg_right
    · exact_mod_cast hn
    · positivity
  have hsum : |v + p - (E + e)| ≤ |v - E| + |p - e| := by
    rw [show v + p - (E + e) = (v - E) + (p - e) by ring]
    exact abs_add_le _ _
  have h := abs_sub_abs_le_abs_sub (v + p) (E + e)
  rw [abs_of_nonneg (add_nonneg hE he)] at h
  refine ⟨by linarith, ?_⟩
  norm_num at *
  linarith

/-- The error of a rounded sum. -/
theorem sum_error {v p w e E B : ℚ} {n : Nat} (hn : n ≤ 100000) (hB : 1 ≤ B) (hE : 0 ≤ E)
    (he : 0 ≤ e) (hEB : E + e ≤ B) (hv : |v - E| ≤ n * (B / 2 ^ 50)) (hp : |p - e| ≤ 4 * B / 2 ^ 53)
    (hw : |w - (v + p)| ≤ roundingError (v + p)) :
    |w - (E + e)| ≤ (n + 1 : Nat) * (B / 2 ^ 50) := by
  obtain ⟨hsum, habs⟩ := sum_range hn hB hE he hEB hv hp
  have htri := abs_sub_le w (v + p) (E + e)
  rw [roundingError] at hw
  push_cast
  rw [add_mul, one_mul]
  generalize (n : ℚ) * (B / 2 ^ 50) = δ at *
  norm_num at *
  linarith

variable {D : Type} [DoubleArith D] [RoundedDouble D]

/-- A rounded term of an income. -/
theorem val_term {a N d : Nat} {B : ℚ} (hN : 0 < N) (hN' : N ≤ 2 ^ 53) (ha : a ≤ 2 ^ 53)
    (hd : d ≤ 2 ^ 17) (hB : 1 ≤ B) (heB : (a * d : Nat) / (N : ℚ) ≤ B) :
    ∃ p, RoundedDouble.val (DoubleArith.mul
        (DoubleArith.div (DoubleArith.ofNat a) (DoubleArith.ofNat N)) (DoubleArith.ofNat d) : D)
        = some p ∧ |p - (a * d : Nat) / (N : ℚ)| ≤ 4 * B / 2 ^ 53 := by
  have hN1 : (1 : ℚ) ≤ N := by exact_mod_cast hN
  have hr : (0 : ℚ) ≤ a / N := by positivity
  have hr' : (a : ℚ) / N ≤ 2 ^ 53 := by
    have ha' : (a : ℚ) ≤ 2 ^ 53 := by exact_mod_cast ha
    exact (div_le_self (by positivity) hN1).trans ha'
  have hd' : (d : ℚ) ≤ 2 ^ 17 := by exact_mod_cast hd
  have he : ((a * d : Nat) : ℚ) / N = a / N * d := by
    push_cast
    ring
  obtain ⟨q, hq, hqe⟩ := RoundedDouble.val_div (RoundedDouble.val_ofNat (D := D) a ha)
    (RoundedDouble.val_ofNat (D := D) N hN') (by positivity)
    (by rw [abs_of_nonneg hr]; exact hr'.trans (by norm_num))
  have hqd : |q * d| ≤ 2 ^ 200 := by
    have h := abs_sub_abs_le_abs_sub q (a / N : ℚ)
    rw [roundingError, abs_of_nonneg hr] at hqe
    rw [abs_of_nonneg hr] at h
    have hq' : |q| ≤ 2 ^ 54 := by
      norm_num at *
      linarith
    rw [abs_mul, Nat.abs_cast]
    calc |q| * d ≤ 2 ^ 54 * 2 ^ 17 := mul_le_mul hq' hd' (Nat.cast_nonneg d) (by positivity)
      _ ≤ 2 ^ 200 := by norm_num
  obtain ⟨p, hp, hpe⟩ := RoundedDouble.val_mul hq
    (RoundedDouble.val_ofNat (D := D) d (hd.trans (by norm_num))) hqd
  exact ⟨p, hp, term_error hr (Nat.cast_nonneg d) hd' he heB hB hqe hpe⟩

/-! ### The income -/

/-- A computed income is close to the cost on the line over the total counter. -/
theorem val_income {counters : List Nat} {N t : Nat} {B : ℚ} (hN : 0 < N) (hN' : N ≤ 2 ^ 53)
    (hc : ∀ i, counterAt counters i ≤ 2 ^ 53) (hlen : counters.length ≤ 100000)
    (ht : t < counters.length) (hB : 1 ≤ B) (hB' : B ≤ 2 ^ 100)
    (hcost : (linearCost (counterAt counters) counters.length t : ℚ) / N ≤ B) :
    ∃ v, RoundedDouble.val (income (DoubleArith.ofNat N : D) counters t) = some v ∧
      |v - linearCost (counterAt counters) counters.length t / N|
        ≤ counters.length * (B / 2 ^ 50) := by
  let part (n : Nat) : Nat := ∑ i ∈ Finset.range n, counterAt counters i * ((i : Int) - t).natAbs
  have hpart (n : Nat) (hn : n ≤ counters.length) : (part n : ℚ) / N ≤ B := by
    refine (div_le_div_of_nonneg_right ?_ (Nat.cast_nonneg N)).trans hcost
    exact_mod_cast Finset.sum_le_sum_of_subset (Finset.range_subset_range.mpr hn)
  have hsum (n : Nat) (hn : n ≤ counters.length) : ∃ v,
      RoundedDouble.val ((List.range n).foldl (fun acc i ↦ DoubleArith.add acc (DoubleArith.mul
        (DoubleArith.div (DoubleArith.ofNat (counters.getD i 0)) (DoubleArith.ofNat N))
        (DoubleArith.ofNat (Int.tmod ((i : Int) - (t : Int)) (counters.length : Int)).natAbs)))
        (DoubleArith.ofNat 0 : D)) = some v ∧ |v - part n / N| ≤ n * (B / 2 ^ 50) := by
    induction n with
    | zero =>
      exact ⟨0, by simpa using RoundedDouble.val_ofNat (D := D) 0 (by norm_num), by simp [part]⟩
    | succ n ih =>
      obtain ⟨v, hv, hve⟩ := ih (by omega)
      have hstep : (part (n + 1) : ℚ) / N
          = part n / N + (counterAt counters n * ((n : Int) - t).natAbs : Nat) / (N : ℚ) := by
        rw [← add_div, ← Nat.cast_add]
        exact congrArg (fun k : Nat ↦ (k : ℚ) / N) (Finset.sum_range_succ _ n)
      have hle := hpart (n + 1) hn
      rw [hstep] at hle
      have hE : (0 : ℚ) ≤ part n / N := by positivity
      have he : (0 : ℚ) ≤ (counterAt counters n * ((n : Int) - t).natAbs : Nat) / (N : ℚ) := by
        positivity
      obtain ⟨p, hp, hpe⟩ := val_term (D := D) hN hN' (hc n)
        (show ((n : Int) - t).natAbs ≤ 2 ^ 17 by omega) hB ((le_add_of_nonneg_left hE).trans hle)
      have hrange := (sum_range (by omega) hB hE he hle hve hpe).2
      obtain ⟨w, hw, hwe⟩ := RoundedDouble.val_add hv hp (hrange.trans (by norm_num at *; linarith))
      refine ⟨w, ?_, ?_⟩
      · rw [List.range_succ, List.foldl_append, List.foldl_cons, List.foldl_nil,
          natAbs_tmod_sub (by omega) ht]
        exact hw
      · rw [hstep]
        exact sum_error (by omega) hB hE he hle hve hpe hwe
  exact hsum counters.length le_rfl

end Jeopardy.Hotring
