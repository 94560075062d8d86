import Mathlib

/-!
# Ownership

Objects at addresses, each held under exactly one key. An object is allocated when a key gets it
and freed when the key loses it: nothing leaks, and nothing is freed twice.
-/

namespace Jeopardy.Ownership

variable {ι A B : Type*} {live live' : A → Option B} {store : ι → Option A} {i : ι} {a : A} {b : B}

/-- The live objects are those that `store` holds, each of them under one key. -/
structure Owned (live : A → Option B) (store : ι → Option A) : Prop where
  live_of : ∀ i a, store i = some a → live a ≠ none
  exists_key : ∀ a, live a ≠ none → ∃ i, store i = some a
  key_unique : ∀ i j a, store i = some a → store j = some a → i = j

theorem Owned.empty : Owned (fun _ ↦ none : A → Option B) (fun _ ↦ none : ι → Option A) where
  live_of _ _ h := by cases h
  exists_key _ h := absurd rfl h
  key_unique _ _ _ h := by cases h

/-- What is stored in the objects does not matter. -/
theorem Owned.congr (h : Owned live store) (hlive : ∀ a, live' a = none ↔ live a = none) :
    Owned live' store where
  live_of i a hi := mt (hlive a).mp (h.live_of i a hi)
  exists_key a ha := h.exists_key a (mt (hlive a).mpr ha)
  key_unique := h.key_unique

theorem Owned.ne_of_dead (h : Owned live store) (ha : live a = none) (i : ι) :
    store i ≠ some a := by
  intro hi
  exact h.live_of i a hi ha

/-- There are no more live objects than keys that hold one. -/
theorem Owned.ncard_le (h : Owned live store) (hfin : {i | store i ≠ none}.Finite) :
    {a | live a ≠ none}.ncard ≤ {i | store i ≠ none}.ncard := by
  have himage : some '' {a | live a ≠ none} = store '' {i | store i ≠ none} := by
    ext1 o
    constructor
    · rintro ⟨a, ha, rfl⟩
      obtain ⟨i, hi⟩ := h.exists_key a ha
      exact ⟨i, by rw [Set.mem_ofPred_eq, hi]; simp, hi⟩
    · rintro ⟨i, hi, rfl⟩
      obtain ⟨a, ha⟩ := Option.ne_none_iff_exists'.mp hi
      exact ⟨a, h.live_of i a ha, ha.symm⟩
  rw [← Set.ncard_image_of_injective _ (Option.some_injective A), himage]
  exact Set.ncard_image_le hfin

section Update

variable [DecidableEq A]

/-- A free key gets a new object. -/
theorem Owned.put [DecidableEq ι] (h : Owned live store) (ha : live a = none)
    (hi : store i = none) :
    Owned (Function.update live a (some b)) (Function.update store i (some a)) where
  live_of j c hj := by
    by_cases hji : j = i
    · subst hji
      rw [Function.update_self, Option.some.injEq] at hj
      rw [← hj, Function.update_self]
      exact Option.some_ne_none b
    · rw [Function.update_of_ne hji] at hj
      have hca : c ≠ a := by
        rintro rfl
        exact h.ne_of_dead ha j hj
      rw [Function.update_of_ne hca]
      exact h.live_of j c hj
  exists_key c hc := by
    by_cases hca : c = a
    · exact ⟨i, by rw [hca, Function.update_self]⟩
    · rw [Function.update_of_ne hca] at hc
      obtain ⟨j, hj⟩ := h.exists_key c hc
      have hji : j ≠ i := by
        rintro rfl
        rw [hi] at hj
        cases hj
      exact ⟨j, by rw [Function.update_of_ne hji, hj]⟩
  key_unique j k c hj hk := by
    by_cases hca : c = a
    · subst hca
      have honly : ∀ l, Function.update store i (some c) l = some c → l = i := by
        intro l hl
        by_contra hli
        rw [Function.update_of_ne hli] at hl
        exact h.ne_of_dead ha l hl
      rw [honly j hj, honly k hk]
    · have hold : ∀ l, Function.update store i (some a) l = some c → store l = some c := by
        intro l hl
        by_cases hli : l = i
        · rw [hli, Function.update_self, Option.some.injEq] at hl
          exact absurd hl.symm hca
        · rwa [Function.update_of_ne hli] at hl
      exact h.key_unique j k c (hold j hj) (hold k hk)

/-- A key gives its object back. -/
theorem Owned.take [DecidableEq ι] (h : Owned live store) (hi : store i = some a) :
    Owned (Function.update live a none) (Function.update store i none) := by
  have hold : ∀ j c, Function.update store i none j = some c → store j = some c ∧ c ≠ a := by
    intro j c hj
    by_cases hji : j = i
    · rw [hji, Function.update_self] at hj
      cases hj
    · rw [Function.update_of_ne hji] at hj
      refine ⟨hj, ?_⟩
      rintro rfl
      exact hji (h.key_unique j i c hj hi)
  refine ⟨fun j c hj ↦ ?_, fun c hc ↦ ?_, fun j k c hj hk ↦ ?_⟩
  · obtain ⟨hj, hca⟩ := hold j c hj
    rw [Function.update_of_ne hca]
    exact h.live_of j c hj
  · have hca : c ≠ a := by
      rintro rfl
      exact hc (Function.update_self _ _ _)
    rw [Function.update_of_ne hca] at hc
    obtain ⟨j, hj⟩ := h.exists_key c hc
    have hji : j ≠ i := by
      rintro rfl
      exact hca (Option.some.inj (hj.symm.trans hi))
    exact ⟨j, by rw [Function.update_of_ne hji, hj]⟩
  · exact h.key_unique j k c (hold j c hj).1 (hold k c hk).1

/-- Frees the objects at some addresses one after another, unless one of them is dead by then. -/
def releaseAll (live : A → Option B) : List A → Option (A → Option B)
  | [] => some live
  | a :: as => (live a).bind fun _ ↦ releaseAll (Function.update live a none) as

theorem releaseAll_eq {as : List A} (hnd : as.Nodup) (hlive : ∀ a ∈ as, live a ≠ none) :
    releaseAll live as = some fun a ↦ if a ∈ as then none else live a := by
  induction as generalizing live with
  | nil => simp [releaseAll]
  | cons a as ih =>
    obtain ⟨b, hb⟩ := Option.ne_none_iff_exists'.mp (hlive a List.mem_cons_self)
    obtain ⟨ha, hnd⟩ := List.nodup_cons.mp hnd
    have hrest : ∀ c ∈ as, Function.update live a none c ≠ none := by
      intro c hc
      rw [Function.update_of_ne (ne_of_mem_of_not_mem hc ha)]
      exact hlive c (List.mem_cons_of_mem a hc)
    rw [releaseAll, hb, Option.bind_some, ih hnd hrest]
    congr 1
    ext1 c
    by_cases hca : c = a
    · rw [hca, Function.update_self, ite_self, if_pos List.mem_cons_self]
    · simp only [List.mem_cons, hca, false_or, Function.update_of_ne hca]

/-- Freeing what each key holds, key after key, frees everything and nothing twice. -/
theorem Owned.releaseAll_eq (h : Owned live store) {keys : List ι} (hnd : keys.Nodup)
    (hkeys : ∀ i, store i ≠ none → i ∈ keys) :
    releaseAll live (keys.filterMap store) = some fun _ ↦ none := by
  have hdistinct : (keys.filterMap store).Nodup := by
    apply hnd.filterMap
    intro i j a hi hj
    exact h.key_unique i j a hi hj
  have hlive : ∀ a ∈ keys.filterMap store, live a ≠ none := by
    intro a ha
    obtain ⟨i, -, hi⟩ := List.mem_filterMap.mp ha
    exact h.live_of i a hi
  rw [Ownership.releaseAll_eq hdistinct hlive]
  congr 1
  ext1 a
  split
  · rfl
  · next ha =>
    by_contra hne
    obtain ⟨i, hi⟩ := h.exists_key a hne
    exact ha (List.mem_filterMap.mpr ⟨i, hkeys i (by rw [hi]; simp), hi⟩)

end Update

end Jeopardy.Ownership
