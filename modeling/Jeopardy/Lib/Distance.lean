import Mathlib

/-!
# Weighted distances on a line and on a ring

Positions `0, …, m - 1` carry weights. On the line, the sum of the weighted distances to a
position is least, for the first time, at the lower median of the weights. On the ring, where
steps go forward only, it is an affine function of the position and of the weight before it,
and no median decides it.
-/

namespace Jeopardy.Distance

open Finset

variable (c : Nat → Nat) (m : Nat)

/-- The weight of the positions before `t`. -/
def before (t : Nat) : Nat := ∑ i ∈ range t, c i

/-- The weighted distances to `t` on the line. -/
def linearCost (t : Nat) : Nat := ∑ i ∈ range m, c i * ((i : Int) - t).natAbs

/-- The weighted numbers of steps forward from `t` on the ring. -/
def cyclicCost (t : Nat) : Nat := ∑ i ∈ range m, c i * (((i : Int) - t) % m).toNat

/-- `t` is the first position up to which at least half of the weight lies. -/
structure IsMedian (t : Nat) : Prop where
  lt : t < m
  half : before c m ≤ 2 * before c (t + 1)
  first : ∀ s < t, 2 * before c (s + 1) < before c m

variable {c m} {s t : Nat}

theorem before_mono (h : s ≤ t) : before c s ≤ before c t :=
  sum_le_sum_of_subset (range_subset_range.mpr h)

/-- One step along the line comes closer to what lies ahead and leaves the rest behind. -/
theorem linearCost_succ (ht : t < m) :
    linearCost c m (t + 1) + before c m = linearCost c m t + 2 * before c (t + 1) := by
  have ht' : t + 1 ≤ m := ht
  have hbehind : ∀ i ∈ range (t + 1), c i * ((i : Int) - (t + 1 : Nat)).natAbs + c i
      = c i * ((i : Int) - t).natAbs + 2 * c i := by
    intro i hi
    rw [mem_range] at hi
    rw [show ((i : Int) - (t + 1 : Nat)).natAbs = ((i : Int) - t).natAbs + 1 by omega]
    ring
  have hahead : ∀ i ∈ Ico (t + 1) m, c i * ((i : Int) - (t + 1 : Nat)).natAbs + c i
      = c i * ((i : Int) - t).natAbs := by
    intro i hi
    rw [mem_Ico] at hi
    rw [show ((i : Int) - t).natAbs = ((i : Int) - (t + 1 : Nat)).natAbs + 1 by omega]
    ring
  rw [linearCost, linearCost, before, before, ← sum_add_distrib,
    ← sum_range_add_sum_Ico _ ht', sum_congr rfl hbehind, sum_congr rfl hahead,
    sum_add_distrib, ← mul_sum, ← sum_range_add_sum_Ico (fun i ↦ c i * ((i : Int) - t).natAbs) ht']
  omega

/-- Of the positions with least cost on the line the first is the lower median. -/
theorem isMedian_of_first_least (ht : t < m) (hle : ∀ s < m, linearCost c m t ≤ linearCost c m s)
    (hlt : ∀ s < t, linearCost c m t < linearCost c m s) : IsMedian c m t := by
  refine ⟨ht, ?_, ?_⟩
  · rcases Nat.lt_or_ge (t + 1) m with h | h
    · have hstep := linearCost_succ (c := c) ht
      have hnext := hle (t + 1) h
      omega
    · rw [show m = t + 1 by omega]
      omega
  · intro s hs
    obtain ⟨t, rfl⟩ : ∃ u, t = u + 1 := ⟨t - 1, by omega⟩
    have hstep := linearCost_succ (c := c) (show t < m by omega)
    have hprev := hlt t (Nat.lt_succ_self t)
    have hmono := before_mono (c := c) (show s + 1 ≤ t + 1 by omega)
    omega

/-- There is one lower median. -/
theorem IsMedian.unique (h : IsMedian c m s) (h' : IsMedian c m t) : s = t := by
  rcases Nat.lt_trichotomy s t with hlt | heq | hgt
  · exact absurd h.half (not_le.mpr (h'.first s hlt))
  · exact heq
  · exact absurd h'.half (not_le.mpr (h.first t hgt))

/-- What the ring costs from `t` in terms of the weight before `t`. -/
theorem cyclicCost_eq (ht : t ≤ m) :
    cyclicCost c m t + t * before c m = cyclicCost c m 0 + m * before c t := by
  have hbehind : ∀ i ∈ range t, c i * (((i : Int) - t) % m).toNat + t * c i
      = c i * (((i : Int) - (0 : Nat)) % m).toNat + m * c i := by
    intro i hi
    rw [mem_range] at hi
    have h1 : ((i : Int) - t) % m = i - t + m := by
      rw [← Int.add_emod_right, Int.emod_eq_of_lt (by omega) (by omega)]
    have h0 : ((i : Int) - (0 : Nat)) % m = i := by
      rw [Nat.cast_zero, sub_zero, Int.emod_eq_of_lt (by omega) (by omega)]
    rw [h1, h0, Int.toNat_natCast]
    obtain ⟨d, hd⟩ : ∃ d : Nat, (i : Int) - t + m = d := ⟨i + m - t, by omega⟩
    rw [hd, Int.toNat_natCast, Nat.mul_comm t, ← Nat.mul_add, Nat.mul_comm m, ← Nat.mul_add]
    congr 1
    omega
  have hahead : ∀ i ∈ Ico t m, c i * (((i : Int) - t) % m).toNat + t * c i
      = c i * (((i : Int) - (0 : Nat)) % m).toNat := by
    intro i hi
    rw [mem_Ico] at hi
    have h1 : ((i : Int) - t) % m = i - t := Int.emod_eq_of_lt (by omega) (by omega)
    have h0 : ((i : Int) - (0 : Nat)) % m = i := by
      rw [Nat.cast_zero, sub_zero, Int.emod_eq_of_lt (by omega) (by omega)]
    rw [h1, h0, Int.toNat_natCast, Nat.mul_comm t, ← Nat.mul_add]
    congr 1
    omega
  rw [cyclicCost, cyclicCost, before, before, mul_sum, ← sum_add_distrib,
    ← sum_range_add_sum_Ico _ ht, sum_congr rfl hbehind, sum_congr rfl hahead,
    sum_add_distrib, ← mul_sum,
    ← sum_range_add_sum_Ico (fun i ↦ c i * (((i : Int) - (0 : Nat)) % m).toNat) ht]
  omega

/-- One position of the ring costs at most as much as another exactly when the weights before
them say so. -/
theorem cyclicCost_le_iff (hs : s ≤ m) (ht : t ≤ m) : cyclicCost c m t ≤ cyclicCost c m s ↔
    m * before c t + s * before c m ≤ m * before c s + t * before c m := by
  have h1 := cyclicCost_eq (c := c) hs
  have h2 := cyclicCost_eq (c := c) ht
  omega

/-! ### Bounds -/

/-- No position is further than the line is long. -/
theorem linearCost_le (ht : t < m) : linearCost c m t ≤ m * before c m := by
  rw [linearCost, before, mul_sum]
  apply sum_le_sum
  intro i hi
  rw [mem_range] at hi
  rw [Nat.mul_comm m]
  exact Nat.mul_le_mul_left _ (by omega)

/-- The median depends on the weights of the positions only. -/
theorem IsMedian.congr {c' : Nat → Nat} (h : IsMedian c m t) (hc : ∀ i < m, c' i = c i) :
    IsMedian c' m t := by
  have hbefore (u : Nat) (hu : u ≤ m) : before c' u = before c u := by
    apply sum_congr rfl
    intro i hi
    exact hc i ((mem_range.mp hi).trans_le hu)
  refine ⟨h.lt, ?_, ?_⟩
  · rw [hbefore m le_rfl, hbefore (t + 1) h.lt]
    exact h.half
  · intro s hs
    rw [hbefore m le_rfl, hbefore (s + 1) (hs.trans h.lt)]
    exact h.first s hs

end Jeopardy.Distance
