import Mathlib

/-!
# Counting occupied slots

An array of slots over a distinguished empty value, and the number of its slots that are
occupied. The laws say how the number follows a store into one slot.
-/

namespace Jeopardy.Slots

variable {α : Type} [DecidableEq α] {n : Nat}

/-- The number of slots that do not hold the empty value. -/
def occupied (empty : α) (slots : Fin n → α) : Nat :=
  (Finset.univ.filter (fun o ↦ slots o ≠ empty)).card

theorem occupied_le (empty : α) (slots : Fin n → α) : occupied empty slots ≤ n := by
  calc occupied empty slots ≤ (Finset.univ : Finset (Fin n)).card := Finset.card_filter_le _ _
    _ = n := by rw [Finset.card_univ, Fintype.card_fin]

theorem occupied_eq_zero_iff {empty : α} {slots : Fin n → α} :
    occupied empty slots = 0 ↔ ∀ o, slots o = empty := by
  rw [occupied, Finset.card_eq_zero, Finset.filter_eq_empty_iff]
  simp

theorem occupied_const (empty : α) : occupied empty (fun _ : Fin n ↦ empty) = 0 :=
  occupied_eq_zero_iff.mpr (fun _ ↦ rfl)

/-- Only which slots are empty matters. -/
theorem occupied_congr {β : Type} [DecidableEq β] {empty : α} {empty' : β} {slots : Fin n → α}
    {slots' : Fin n → β} (h : ∀ o, slots o = empty ↔ slots' o = empty') :
    occupied empty slots = occupied empty' slots' := by
  have hset : Finset.univ.filter (fun o ↦ slots o ≠ empty) =
      Finset.univ.filter (fun o ↦ slots' o ≠ empty') :=
    Finset.filter_congr (fun o _ ↦ not_congr (h o))
  rw [occupied, hset, occupied]

/-- Filling an empty slot adds one. -/
theorem occupied_fill {empty x : α} {slots : Fin n → α} {o : Fin n} (ho : slots o = empty)
    (hx : x ≠ empty) :
    occupied empty (Function.update slots o x) = occupied empty slots + 1 := by
  have hset : Finset.univ.filter (fun i ↦ Function.update slots o x i ≠ empty)
      = insert o (Finset.univ.filter (fun i ↦ slots i ≠ empty)) := by
    ext i
    by_cases hi : i = o
    · subst hi
      simp [hx]
    · simp [hi]
  rw [occupied, hset, Finset.card_insert_of_notMem (by simp [ho]), occupied]

/-- Clearing an occupied slot takes one away. -/
theorem occupied_clear {empty : α} {slots : Fin n → α} {o : Fin n} (ho : slots o ≠ empty) :
    occupied empty (Function.update slots o empty) + 1 = occupied empty slots := by
  have hback : Function.update (Function.update slots o empty) o (slots o) = slots := by
    rw [Function.update_idem, Function.update_eq_self]
  have h := occupied_fill (Function.update_self o empty slots) ho
  rw [hback] at h
  exact h.symm

/-- A single occupied slot is the only one. -/
theorem occupied_eq_one {empty : α} {slots : Fin n → α} {o i : Fin n}
    (h : occupied empty slots = 1) (ho : slots o ≠ empty) (hi : i ≠ o) : slots i = empty := by
  have hclear := occupied_clear ho
  have hzero : occupied empty (Function.update slots o empty) = 0 := by omega
  have hval := occupied_eq_zero_iff.mp hzero i
  rwa [Function.update_of_ne hi] at hval

/-- Two or more occupied slots leave one apart from any given slot. -/
theorem exists_occupied_ne {empty : α} {slots : Fin n → α} (o : Fin n)
    (h : 2 ≤ occupied empty slots) : ∃ i, i ≠ o ∧ slots i ≠ empty := by
  by_contra hcon
  have hall : ∀ i, i ≠ o → slots i = empty := fun i hi ↦ by
    by_contra hne
    exact hcon ⟨i, hi, hne⟩
  by_cases ho : slots o = empty
  · have hzero := occupied_eq_zero_iff.mpr (fun i ↦ by
      by_cases hi : i = o
      · exact hi ▸ ho
      · exact hall i hi)
    omega
  · have hclear := occupied_clear ho
    have hzero : occupied empty (Function.update slots o empty) = 0 :=
      occupied_eq_zero_iff.mpr (fun i ↦ by
        by_cases hi : i = o
        · rw [hi, Function.update_self]
        · rw [Function.update_of_ne hi, hall i hi])
    omega

theorem exists_occupied {empty : α} {slots : Fin n → α} (h : occupied empty slots ≠ 0) :
    ∃ o, slots o ≠ empty := by
  by_contra hcon
  exact h (occupied_eq_zero_iff.mpr (fun o ↦ by
    by_contra ho
    exact hcon ⟨o, ho⟩))

end Jeopardy.Slots
