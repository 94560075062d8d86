import Jeopardy.Lib.CyclicSorted

/-!
# Cyclic order by three elements

A list with different keys is cyclically sorted when any three of its elements, read from left
to right, are in cyclic order. So two keys sort one list alike when they put any three elements
in the same cyclic order. A walk around a cyclically sorted list climbs to a largest element and
knows it by the fall behind it.
-/

namespace Jeopardy.Rings

variable {α : Type*} {β : Type*} {γ : Type*} [LinearOrder β] [LinearOrder γ]

/-- Three elements of a cyclically sorted list, read from left to right. -/
theorem CyclicSorted.between {f : α → β} {xs : List α} {a b c : α} (h : CyclicSorted f xs)
    (hn : (xs.map f).Nodup) (hs : [a, b, c].Sublist xs) : Between (f a) (f b) (f c) := by
  obtain ⟨p, q, he, hp⟩ := h.sublist hs
  have hd : ([f a, f b, f c] : List β).Nodup := hn.sublist (hs.map f)
  have hab : f a ≠ f b := fun h ↦ by simp [h] at hd
  have hbc : f b ≠ f c := fun h ↦ by simp [h] at hd
  have hac : f a ≠ f c := fun h ↦ by simp [h] at hd
  -- the ascent starts at one of the three
  rcases p with _ | ⟨x, _ | ⟨y, _ | ⟨z, p⟩⟩⟩
  · obtain rfl : q = [a, b, c] := he.symm
    simp only [List.append_nil, List.pairwise_cons, List.mem_cons, forall_eq_or_imp] at hp
    exact Or.inl ⟨lt_of_le_of_ne hp.1.1 hab, lt_of_le_of_ne hp.2.1.1 hbc⟩
  · simp only [List.cons_append, List.nil_append, List.cons.injEq] at he
    obtain ⟨rfl, rfl⟩ := he
    simp only [List.cons_append, List.nil_append, List.pairwise_cons, List.mem_cons,
      forall_eq_or_imp] at hp
    exact Or.inr (Or.inl ⟨lt_of_le_of_ne hp.1.1 hbc, lt_of_le_of_ne hp.2.1.1 hac.symm⟩)
  · simp only [List.cons_append, List.nil_append, List.cons.injEq] at he
    obtain ⟨rfl, rfl, rfl⟩ := he
    simp only [List.cons_append, List.nil_append, List.pairwise_cons, List.mem_cons,
      forall_eq_or_imp] at hp
    exact Or.inr (Or.inr ⟨lt_of_le_of_ne hp.1.1 hac.symm, lt_of_le_of_ne hp.2.1.1 hab⟩)
  · simp only [List.cons_append, List.cons.injEq, List.nil_eq, List.append_eq_nil_iff] at he
    obtain ⟨rfl, rfl, rfl, rfl, rfl⟩ := he
    simp only [List.nil_append, List.pairwise_cons, List.mem_cons, forall_eq_or_imp] at hp
    exact Or.inl ⟨lt_of_le_of_ne hp.1.1 hab, lt_of_le_of_ne hp.2.1.1 hbc⟩

private theorem between_of_descent {x y z : β} (hb : Between x y z) (hlt : y < x) :
    y < z ∧ z < x := by
  rcases hb with ⟨hxy, -⟩ | hb | ⟨-, hxy⟩
  · exact absurd hxy hlt.not_gt
  · exact hb
  · exact absurd hxy hlt.not_gt

theorem Between.rotate {x y z : β} (hb : Between x y z) : Between y z x := by
  unfold Between at hb ⊢
  tauto

/-- If any three elements are in cyclic order, the list is cyclically sorted. -/
theorem cyclicSorted_of_between {f : α → β} {xs : List α}
    (h : ∀ a b c, [a, b, c].Sublist xs → Between (f a) (f b) (f c)) : CyclicSorted f xs := by
  by_cases hch : xs.IsChain (fun a b ↦ f a ≤ f b)
  · exact cyclicSorted_of_pairwise hch.pairwise
  -- the list starts over behind the descent from `a` to `b`
  rw [List.isChain_iff_forall_rel_of_append_cons_cons] at hch
  push Not at hch
  obtain ⟨a, b, p, q, rfl, hlt⟩ := hch
  have hpab : (p ++ [a, b]).Sublist (p ++ a :: b :: q) := by simp
  have habq : (a :: b :: q).Sublist (p ++ a :: b :: q) := List.sublist_append_right p _
  have hq (x : α) (hx : x ∈ q) : f b < f x ∧ f x < f a := by
    have hs : [a, b, x].Sublist (a :: b :: q) := by simpa using hx
    exact between_of_descent (h a b x (hs.trans habq)) hlt
  have hp (y : α) (hy : y ∈ p) : f b < f y ∧ f y < f a := by
    have hs : [y, a, b].Sublist (p ++ [a, b]) :=
      (List.singleton_sublist.mpr hy).append (List.Sublist.refl _)
    exact between_of_descent (h y a b (hs.trans hpab)).rotate hlt
  have hqq : q.Pairwise (fun x y ↦ f x ≤ f y) := by
    apply List.pairwise_iff_forall_sublist.mpr
    intro x y hxy
    have hx := hq x (hxy.subset (by simp))
    have hs : [a, x, y].Sublist (a :: b :: q) := (hxy.cons b).cons_cons a
    exact (between_of_descent (h a x y (hs.trans habq)) hx.2).1.le
  have hpp : p.Pairwise (fun x y ↦ f x ≤ f y) := by
    apply List.pairwise_iff_forall_sublist.mpr
    intro x y hxy
    have hy := hp y (hxy.subset (by simp))
    have hs : [x, y, b].Sublist (p ++ [a, b]) := hxy.append (by simp)
    exact (between_of_descent (h x y b (hs.trans hpab)).rotate hy.1).2.le
  have hqp (x : α) (hx : x ∈ q) (y : α) (hy : y ∈ p) : f x ≤ f y := by
    have hs : [y, b, x].Sublist (p ++ a :: b :: q) :=
      (List.singleton_sublist.mpr hy).append
        (by simpa using List.Sublist.cons a (by simpa using hx))
    exact (between_of_descent (h y b x hs) (hp y hy).1).2.le
  refine ⟨p ++ [a], b :: q, by simp, List.pairwise_append.mpr ⟨?_, ?_, ?_⟩⟩
  · exact List.pairwise_cons.mpr ⟨fun x hx ↦ (hq x hx).1.le, hqq⟩
  · exact List.pairwise_append.mpr ⟨hpp, List.pairwise_singleton _ _,
      fun y hy z hz ↦ List.mem_singleton.mp hz ▸ (hp y hy).2.le⟩
  · intro x hx y hy
    rw [List.mem_append, List.mem_singleton] at hy
    rcases List.mem_cons.mp hx with rfl | hx <;> rcases hy with hy | rfl
    · exact (hp y hy).1.le
    · exact hlt.le
    · exact hqp x hx y hy
    · exact (hq x hx).2.le

/-- Three elements of a strictly ascending list stand in it in their order. -/
theorem sublist_of_ascending {f : α → β} {xs : List α} (hs : xs.Pairwise (fun a b ↦ f a < f b))
    {a b c : α} (ha : a ∈ xs) (hb : b ∈ xs) (hc : c ∈ xs) (hab : f a < f b) (hbc : f b < f c) :
    [a, b, c].Sublist xs := by
  obtain ⟨p, q, rfl⟩ := List.append_of_mem hb
  obtain ⟨-, hq, hpq⟩ := List.pairwise_append.mp hs
  have hap : a ∈ p := by
    rcases List.mem_append.mp ha with ha | ha
    · exact ha
    · rcases List.mem_cons.mp ha with rfl | ha
      · exact absurd hab (lt_irrefl _)
      · exact absurd hab ((List.pairwise_cons.mp hq).1 a ha).not_gt
  have hcq : c ∈ q := by
    rcases List.mem_append.mp hc with hc | hc
    · exact absurd hbc (hpq c hc b List.mem_cons_self).not_gt
    · rcases List.mem_cons.mp hc with rfl | hc
      · exact absurd hbc (lt_irrefl _)
      · exact hc
  exact (List.singleton_sublist.mpr hap).append
    ((List.singleton_sublist.mpr hcq).cons_cons b)

/-- A list that is cyclically sorted by one key is so by another exactly when the other puts any
three of its elements in the same cyclic order. -/
theorem cyclicSorted_iff_between {f : α → β} {g : α → γ} {xs : List α} (hs : CyclicSorted f xs)
    (hf : (xs.map f).Nodup) (hg : (xs.map g).Nodup) :
    CyclicSorted g xs ↔ ∀ a ∈ xs, ∀ b ∈ xs, ∀ c ∈ xs, f a < f b → f b < f c →
      Between (g a) (g b) (g c) := by
  obtain ⟨p, q, rfl, hp⟩ := hs
  have hmem (x : α) : x ∈ p ++ q ↔ x ∈ q ++ p := List.perm_append_comm.mem_iff
  have hperm : ((q ++ p).map g).Perm ((p ++ q).map g) := List.perm_append_comm.map g
  have hstrict : (q ++ p).Pairwise (fun a b ↦ f a < f b) := by
    have hne : ((q ++ p).map f).Nodup := (List.perm_append_comm.map f).nodup_iff.mp hf
    exact (hp.and (List.pairwise_map.mp hne)).imp (fun h ↦ lt_of_le_of_ne h.1 h.2)
  constructor
  · intro h a ha b hb c hc hab hbc
    apply (cyclicSorted_append_comm h).between (hperm.nodup_iff.mpr hg)
    exact sublist_of_ascending hstrict ((hmem a).mp ha) ((hmem b).mp hb) ((hmem c).mp hc) hab hbc
  · intro h
    apply cyclicSorted_append_comm
    apply cyclicSorted_of_between
    intro a b c habc
    have hpw := hstrict.sublist habc
    simp only [List.pairwise_cons, List.mem_cons, forall_eq_or_imp] at hpw
    exact h a ((hmem a).mpr (habc.subset (by simp))) b ((hmem b).mpr (habc.subset (by simp)))
      c ((hmem c).mpr (habc.subset (by simp))) hpw.1.1 hpw.2.1.1

/-- The images of a list are sorted as the list is by what is read off the images. -/
theorem CyclicSorted.map {δ : Type*} {g : δ → α} {f : α → β} {xs : List δ}
    (h : CyclicSorted (f ∘ g) xs) : CyclicSorted f (xs.map g) := by
  obtain ⟨p, q, rfl, hp⟩ := h
  refine ⟨p.map g, q.map g, List.map_append, ?_⟩
  rw [← List.map_append, List.pairwise_map]
  exact hp

/-! ### Climbing -/

/-- Where a walk from `c` through `xs` stops in front of its first fall. -/
def summit (f : α → β) : α → List α → α
  | c, [] => c
  | c, x :: xs => if f x < f c then c else summit f x xs

theorem summit_mem (f : α → β) (c : α) (xs : List α) : summit f c xs ∈ c :: xs := by
  induction xs generalizing c with
  | nil => exact List.mem_singleton_self c
  | cons x xs ih =>
    rw [summit]
    split
    · exact List.mem_cons_self
    · exact List.mem_cons_of_mem c (ih x)

/-- Behind the only fall of a circle nothing is larger than what stands before it. -/
theorem CyclicSorted.le_of_fall {f : α → β} {c x a : α} {xs : List α}
    (h : CyclicSorted f (c :: x :: xs)) (hf : f x < f c) (ha : a ∈ xs) : f a ≤ f c := by
  have hs : [c, x, a].Sublist (c :: x :: xs) :=
    ((List.singleton_sublist.mpr ha).cons_cons x).cons_cons c
  have hd := cyclicSorted_iff_descents.mp (h.sublist hs)
  rw [descents_cons, falls, if_pos hf, falls, falls] at hd
  by_contra hlt
  rw [if_pos (not_le.mp hlt)] at hd
  omega

/-- A walk around a cyclically sorted circle stops at a largest element, wherever it starts. -/
theorem CyclicSorted.le_summit {f : α → β} {c a : α} {xs : List α}
    (h : CyclicSorted f (c :: xs)) (ha : a ∈ c :: xs) : f a ≤ f (summit f c xs) := by
  induction xs generalizing c a with
  | nil => rw [List.mem_singleton.mp ha, summit]
  | cons x xs ih =>
    rw [summit]
    split
    · next hf =>
      rcases List.mem_cons.mp ha with rfl | ha
      · exact le_rfl
      · rcases List.mem_cons.mp ha with rfl | ha
        · exact hf.le
        · exact h.le_of_fall hf ha
    · next hf =>
      have hx : CyclicSorted f (x :: xs) := h.sublist (List.sublist_cons_self c _)
      rcases List.mem_cons.mp ha with rfl | ha
      · exact (not_lt.mp hf).trans (ih hx List.mem_cons_self)
      · exact ih hx ha

end Jeopardy.Rings
