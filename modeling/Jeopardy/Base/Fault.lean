import Mathlib

/-!
# Faults of C code

Operations of the models are functions into `Except Fault`. A fault stands for a step on
which the C program has no defined result: a wild or null dereference, an access outside
an array, a read of an unset variable, an undefined shift, or a loop that never ends.
-/

namespace Jeopardy

/-- Why a C execution has no result. -/
inductive Fault where
  | nullDeref
  | badPointer
  | outOfBounds
  | uninitialized
  | badShift
  | diverges
deriving DecidableEq, Repr

namespace Fault

variable {α β : Type}

@[simp] theorem ok_bind (a : α) (f : α → Except Fault β) : (Except.ok a >>= f) = f a := rfl

@[simp] theorem error_bind (e : Fault) (f : α → Except Fault β) :
    (Except.error e >>= f) = .error e := rfl

/-- A sequence completes exactly when both of its parts do. -/
theorem bind_eq_ok {x : Except Fault α} {f : α → Except Fault β} {b : β} :
    (x >>= f) = .ok b ↔ ∃ a, x = .ok a ∧ f a = .ok b := by
  cases x with
  | error e => simp
  | ok a => simp

/-- What every completed round of a loop keeps, the completed loop keeps. -/
theorem foldlM_invariant {P : β → Prop} {f : β → α → Except Fault β} {b b' : β} {as : List α}
    (hf : ∀ (b : β) (a : α) (b' : β), P b → f b a = .ok b' → P b') (hb : P b)
    (h : as.foldlM f b = .ok b') : P b' := by
  induction as generalizing b with
  | nil =>
    rw [List.foldlM_nil] at h
    simp only [pure, Except.pure, Except.ok.injEq] at h
    exact h ▸ hb
  | cons a as ih =>
    rw [List.foldlM_cons, bind_eq_ok] at h
    obtain ⟨b₁, h1, h2⟩ := h
    exact ih (hf b a b₁ hb h1) h2

/-- The same for a counting loop whose invariant depends on the counter. -/
theorem foldlM_range_invariant {P : Nat → β → Prop} {f : β → Nat → Except Fault β} {b b' : β}
    {n : Nat} (hf : ∀ (i : Nat) (b b' : β), i < n → P i b → f b i = .ok b' → P (i + 1) b')
    (hb : P 0 b) (h : (List.range n).foldlM f b = .ok b') : P n b' := by
  induction n generalizing b' with
  | zero =>
    rw [List.range_zero, List.foldlM_nil] at h
    simp only [pure, Except.pure, Except.ok.injEq] at h
    exact h ▸ hb
  | succ n ih =>
    rw [List.range_succ, List.foldlM_append, bind_eq_ok] at h
    obtain ⟨b₁, h1, h2⟩ := h
    rw [List.foldlM_cons, bind_eq_ok] at h2
    obtain ⟨b₂, h2, h3⟩ := h2
    rw [List.foldlM_nil] at h3
    simp only [pure, Except.pure, Except.ok.injEq] at h3
    subst h3
    exact hf n b₁ b₂ (Nat.lt_succ_self n)
      (ih (fun i b b' hi ↦ hf i b b' (hi.trans (Nat.lt_succ_self n))) h1) h2

/-- A counting loop completes if each of its rounds does. -/
theorem foldlM_range_total {P : Nat → β → Prop} {f : β → Nat → Except Fault β} {b : β} {n : Nat}
    (hf : ∀ (i : Nat) (b : β), i < n → P i b → ∃ b', f b i = .ok b' ∧ P (i + 1) b')
    (hb : P 0 b) : ∃ b', (List.range n).foldlM f b = .ok b' ∧ P n b' := by
  induction n with
  | zero => exact ⟨b, rfl, hb⟩
  | succ n ih =>
    obtain ⟨b₁, h1, hp⟩ := ih (fun i b hi ↦ hf i b (hi.trans (Nat.lt_succ_self n)))
    obtain ⟨b₂, h2, hp'⟩ := hf n b₁ (Nat.lt_succ_self n) hp
    refine ⟨b₂, ?_, hp'⟩
    rw [List.range_succ, List.foldlM_append, h1, ok_bind, List.foldlM_cons, h2]
    rfl

/-- A counting loop faults exactly when it comes to a round that does. -/
theorem foldlM_range_eq_error {f : β → Nat → Except Fault β} {b : β} {n : Nat} {e : Fault} :
    (List.range n).foldlM f b = .error e ↔
      ∃ i < n, ∃ b₁, (List.range i).foldlM f b = .ok b₁ ∧ f b₁ i = .error e := by
  induction n with
  | zero => simp [pure, Except.pure]
  | succ n ih =>
    rw [List.range_succ, List.foldlM_append]
    cases hn : (List.range n).foldlM f b with
    | error e' =>
      rw [error_bind, ← hn, ih]
      constructor
      · rintro ⟨i, hi, h⟩
        exact ⟨i, hi.trans (Nat.lt_succ_self n), h⟩
      · rintro ⟨i, hi, b₁, h₁, he⟩
        rcases Nat.lt_succ_iff_lt_or_eq.mp hi with hlt | rfl
        · exact ⟨i, hlt, b₁, h₁, he⟩
        · rw [hn] at h₁
          cases h₁
    | ok bₙ =>
      rw [ok_bind, List.foldlM_cons]
      simp only [List.foldlM_nil]
      constructor
      · intro h
        refine ⟨n, Nat.lt_succ_self n, bₙ, hn, ?_⟩
        cases hr : f bₙ n with
        | error e' =>
          rw [hr, error_bind] at h
          exact congrArg _ (Except.error.inj h)
        | ok b' =>
          rw [hr] at h
          cases h
      · rintro ⟨i, hi, b₁, h₁, he⟩
        rcases Nat.lt_succ_iff_lt_or_eq.mp hi with hlt | rfl
        · rw [ih.mpr ⟨i, hlt, b₁, h₁, he⟩] at hn
          cases hn
        · rw [h₁, Except.ok.injEq] at hn
          rw [← hn, he, error_bind]

/-- A counting loop that completes had each of its rounds complete. -/
theorem foldlM_range_round {f : β → Nat → Except Fault β} {b b₁ b' : β} {i n : Nat}
    (h : (List.range n).foldlM f b = .ok b') (hi : i < n)
    (h₁ : (List.range i).foldlM f b = .ok b₁) : ∃ b₂, f b₁ i = .ok b₂ := by
  cases hr : f b₁ i with
  | ok b₂ => exact ⟨b₂, rfl⟩
  | error e =>
    rw [foldlM_range_eq_error.mpr ⟨i, hi, b₁, h₁, hr⟩] at h
    cases h

/-- A loop that collects completes if its rounds, which do not depend on each other, do. -/
theorem mapM_eq {f : α → Except Fault β} {g : α → β} {as : List α}
    (hf : ∀ a ∈ as, f a = .ok (g a)) : as.mapM f = .ok (as.map g) := by
  induction as with
  | nil => rfl
  | cons a as ih =>
    rw [List.mapM_cons, hf a List.mem_cons_self, ok_bind,
      ih (fun a' ha' ↦ hf a' (List.mem_cons_of_mem a ha'))]
    rfl

end Fault

/-- `a - b` on `unsigned long`. -/
def ulSub (a b : Nat) : Nat := (a + 2 ^ 64 - b) % 2 ^ 64

/-- `1 << s` on `int`: defined while the result is an `int`. -/
def intShl (s : Nat) : Except Fault Nat := if s ≤ 30 then .ok (2 ^ s) else .error .badShift

/-- `(unsigned long)1 << s`: defined below the width. -/
def ulShl (s : Nat) : Except Fault Nat := if s ≤ 63 then .ok (2 ^ s) else .error .badShift

/-- Without wrap-around the machine difference is the difference. -/
theorem ulSub_eq {a b : Nat} (hb : b ≤ a) (ha : a < 2 ^ 64) : ulSub a b = a - b := by
  unfold ulSub
  omega

theorem intShl_eq {s : Nat} (hs : s ≤ 30) : intShl s = .ok (2 ^ s) := by
  rw [intShl, if_pos hs]

theorem ulShl_eq {s : Nat} (hs : s ≤ 63) : ulShl s = .ok (2 ^ s) := by
  rw [ulShl, if_pos hs]

theorem intShl_eq_ok {s r : Nat} : intShl s = .ok r ↔ s ≤ 30 ∧ r = 2 ^ s := by
  unfold intShl
  split
  · next hs => simp [hs, eq_comm]
  · next hs => simp [hs]

end Jeopardy
