import Mathlib

/-!
# Strides

A counter that starts at 0 and moves by a fixed step modulo `M`: what it can reach, and what it has
passed when it first reaches a bound.
-/

namespace Jeopardy.Stride

variable {M s n c j k : Nat}

/-- The counter after `k` steps. -/
def stride (M s k : Nat) : Nat := k * s % M

@[simp] theorem stride_zero (M s : Nat) : stride M s 0 = 0 := by
  rw [stride, Nat.zero_mul, Nat.zero_mod]

theorem stride_succ (M s k : Nat) : stride M s (k + 1) = (stride M s k + s) % M := by
  rw [stride, stride, Nat.add_mul, Nat.one_mul, Nat.mod_add_mod]

theorem stride_mod (M s k : Nat) : stride M s (k % M) = stride M s k := by
  rw [stride, stride, Nat.mod_mul_mod]

/-- The counter stays below the modulus by a multiple of the common divisor. -/
theorem stride_le (hM : 0 < M) (s k : Nat) : stride M s k + s.gcd M ≤ M := by
  have hdvd : s.gcd M ∣ stride M s k :=
    (Nat.dvd_mod_iff (Nat.gcd_dvd_right s M)).mpr ((Nat.gcd_dvd_left s M).mul_left k)
  have hlt : stride M s k < M := Nat.mod_lt _ hM
  have hsub : s.gcd M ≤ M - stride M s k :=
    Nat.le_of_dvd (by omega) (Nat.dvd_sub (Nat.gcd_dvd_right s M) hdvd)
  omega

/-- It gets that far. -/
theorem exists_stride_eq (hM : 0 < M) (s : Nat) : ∃ k, stride M s k = M - s.gcd M := by
  obtain ⟨q, hq⟩ := Nat.gcd_dvd_right s M
  have hle : s.gcd M ≤ M := Nat.le_of_dvd hM (Nat.gcd_dvd_right s M)
  have hg : 0 < s.gcd M := Nat.gcd_pos_of_pos_right s hM
  rcases Nat.lt_or_eq_of_le hle with hlt | heq
  · obtain ⟨m, -, hm⟩ := Nat.exists_mul_mod_eq_gcd hlt
    refine ⟨(q - 1) * m, ?_⟩
    have hmul : s.gcd M * (q - 1) = M - s.gcd M := by
      rw [Nat.mul_sub, ← hq, Nat.mul_one]
    calc stride M s ((q - 1) * m) = (q - 1) * (s * m) % M := by
          rw [stride, Nat.mul_assoc, Nat.mul_comm m s]
      _ = (q - 1) * s.gcd M % M := by rw [Nat.mul_mod, hm, Nat.mod_mul_mod]
      _ = M - s.gcd M := by
          rw [Nat.mul_comm, hmul]
          exact Nat.mod_eq_of_lt (by omega)
  · exact ⟨0, by rw [stride_zero, heq, Nat.sub_self]⟩

/-- Which bounds the counter reaches. -/
theorem exists_stride_ge_iff (hM : 0 < M) :
    (∃ k, n ≤ stride M s k) ↔ n + s.gcd M ≤ M := by
  constructor
  · rintro ⟨k, hk⟩
    have := stride_le hM s k
    omega
  · intro hn
    obtain ⟨k, hk⟩ := exists_stride_eq hM s
    exact ⟨k, by omega⟩

/-- The counter is at or above `n` for the first time. -/
def Reaches (M s n c : Nat) : Prop := n ≤ stride M s c ∧ ∀ k < c, stride M s k < n

theorem exists_reaches (hM : 0 < M) (hn : n + s.gcd M ≤ M) : ∃ c < M, Reaches M s n c := by
  have hex : ∃ k, n ≤ stride M s k := (exists_stride_ge_iff hM).mpr hn
  classical
  have hfirst : Reaches M s n (Nat.find hex) :=
    ⟨Nat.find_spec hex, fun k hk ↦ not_le.mp (Nat.find_min hex hk)⟩
  refine ⟨Nat.find hex, ?_, hfirst⟩
  by_contra hge
  have hmod : Nat.find hex % M < Nat.find hex :=
    (Nat.mod_lt _ hM).trans_le (not_lt.mp hge)
  have := hfirst.2 _ hmod
  rw [stride_mod] at this
  exact absurd hfirst.1 (not_le.mpr this)

/-- Before that it has been nowhere twice: else it would keep going round below `n`. -/
theorem Reaches.injOn (h : Reaches M s n c) : Set.InjOn (stride M s) (Set.Iio c) := by
  have hne : ∀ j k, j < k → k < c → stride M s j ≠ stride M s k := by
    intro j k hjk hk heq
    have hback : stride M s (c - k + j) = stride M s c := by
      calc stride M s (c - k + j) = (stride M s (c - k) + stride M s j) % M := by
            rw [stride, Nat.add_mul, Nat.add_mod]
            rfl
        _ = (stride M s (c - k) + stride M s k) % M := by rw [heq]
        _ = stride M s (c - k + k) := by
            rw [stride, stride, stride, ← Nat.add_mod, Nat.add_mul]
        _ = stride M s c := by rw [Nat.sub_add_cancel hk.le]
    have := h.2 (c - k + j) (by omega)
    rw [hback] at this
    exact absurd h.1 (not_le.mpr this)
  intro j hj k hk heq
  by_contra hjk
  rcases Nat.lt_or_gt_of_ne hjk with hlt | hgt
  · exact hne j k hlt hk heq
  · exact hne k j hgt hj heq.symm

/-- So it has taken at most `n` steps. -/
theorem Reaches.le (h : Reaches M s n c) : c ≤ n := by
  have hmaps : ∀ k ∈ Finset.range c, stride M s k ∈ Finset.range n := by
    intro k hk
    rw [Finset.mem_range] at hk ⊢
    exact h.2 k hk
  have hinj : Set.InjOn (stride M s) (Finset.range c : Set Nat) := by
    rw [Finset.coe_range]
    exact h.injOn
  have hcard := Finset.card_le_card_of_injOn (stride M s) hmaps hinj
  rwa [Finset.card_range, Finset.card_range] at hcard

end Jeopardy.Stride
