import Mathlib

/-!
# Cyclically sorted lists

A list read around a circle from an arbitrary starting point is cyclically sorted when
some rotation of it ascends. Two one-pass algorithms over such lists live here: a search
that gives up as soon as the sought key lies strictly between two neighbours, and an
insertion that stops at the first fitting gap. Nothing here depends on how the circle is
stored; keys are values of an arbitrary linear order.
-/

namespace Jeopardy.Rings

variable {α : Type*} {β : Type*} [LinearOrder β]

/-- A rotation exchanges two parts of a list. -/
theorem exists_append_of_isRotated {xs ys : List α} (h : xs.IsRotated ys) :
    ∃ p q, xs = p ++ q ∧ ys = q ++ p := by
  obtain ⟨n, hn, rfl⟩ := List.isRotated_iff_mod.mp h
  exact ⟨xs.take n, xs.drop n, (List.take_append_drop n xs).symm,
    List.rotate_eq_drop_append_take hn⟩

/-- Some rotation of `xs` ascends by `f`: at most one descent around the circle. -/
def CyclicSorted (f : α → β) (xs : List α) : Prop :=
  ∃ p q, xs = p ++ q ∧ (q ++ p).Pairwise (fun a b ↦ f a ≤ f b)

/-- The cyclic order of a list does not depend on where reading starts. -/
theorem cyclicSorted_append_comm {f : α → β} {xs ys : List α}
    (h : CyclicSorted f (xs ++ ys)) : CyclicSorted f (ys ++ xs) := by
  obtain ⟨p, q, he, hs⟩ := h
  rcases List.append_eq_append_iff.mp he with ⟨r, rfl, rfl⟩ | ⟨r, rfl, rfl⟩
  · exact ⟨r, q ++ xs, by simp, by simpa using hs⟩
  · exact ⟨ys ++ p, r, by simp, by simpa using hs⟩

theorem CyclicSorted.isRotated {f : α → β} {xs ys : List α} (h : CyclicSorted f xs)
    (hr : xs.IsRotated ys) : CyclicSorted f ys := by
  obtain ⟨p, q, rfl, rfl⟩ := exists_append_of_isRotated hr
  exact cyclicSorted_append_comm h

/-- Cyclic order depends on how the keys compare only. -/
theorem CyclicSorted.of_le_iff {γ : Type*} [LinearOrder γ] {f : α → β} {g : α → γ} {xs : List α}
    (h : CyclicSorted f xs) (hfg : ∀ a ∈ xs, ∀ b ∈ xs, f a ≤ f b ↔ g a ≤ g b) :
    CyclicSorted g xs := by
  obtain ⟨p, q, rfl, hs⟩ := h
  refine ⟨p, q, rfl, hs.imp_of_mem ?_⟩
  intro a b ha hb hab
  have hm (c : α) (hc : c ∈ q ++ p) : c ∈ p ++ q := by
    simpa [or_comm] using hc
  exact (hfg a (hm a ha) b (hm b hb)).mp hab

/-- Cyclic order depends on the keys only. -/
theorem CyclicSorted.congr {f g : α → β} {xs : List α} (h : CyclicSorted f xs)
    (hfg : ∀ a ∈ xs, g a = f a) : CyclicSorted g xs := by
  apply h.of_le_iff
  intro a ha b hb
  rw [hfg a ha, hfg b hb]

/-- A sublist of a cyclically sorted list is cyclically sorted. -/
theorem CyclicSorted.sublist {f : α → β} {xs ys : List α} (h : CyclicSorted f ys)
    (hs : xs.Sublist ys) : CyclicSorted f xs := by
  obtain ⟨p, q, rfl, hp⟩ := h
  obtain ⟨p', q', rfl, hp', hq'⟩ := List.sublist_append_iff.mp hs
  exact ⟨p', q', rfl, hp.sublist (hq'.append hp')⟩

theorem cyclicSorted_of_pairwise {f : α → β} {xs : List α}
    (h : xs.Pairwise (fun a b ↦ f a ≤ f b)) : CyclicSorted f xs :=
  ⟨xs, [], by simp, by simpa using h⟩

theorem cyclicSorted_singleton (f : α → β) (a : α) : CyclicSorted f [a] :=
  cyclicSorted_of_pairwise (by simp)

/-- The two ascending runs of a cyclically sorted list, the first one not empty. -/
theorem CyclicSorted.runs {f : α → β} {c : α} {xs : List α} (h : CyclicSorted f (c :: xs)) :
    ∃ p q, xs = p ++ q ∧ (c :: p).Pairwise (fun a b ↦ f a ≤ f b) ∧
      q.Pairwise (fun a b ↦ f a ≤ f b) ∧ ∀ b ∈ q, ∀ a ∈ c :: p, f b ≤ f a := by
  obtain ⟨p, q, he, hs⟩ := h
  cases p with
  | nil =>
    rw [List.nil_append] at he
    subst he
    exact ⟨xs, [], by simp, by simpa using hs, by simp, by simp⟩
  | cons a p =>
    rw [List.cons_append, List.cons.injEq] at he
    obtain ⟨rfl, rfl⟩ := he
    obtain ⟨hq, hp, hqp⟩ := List.pairwise_append.mp hs
    exact ⟨p, q, rfl, hp, hq, hqp⟩

/-- Two ascending runs, the second one below the first, form a cyclically sorted list. -/
theorem cyclicSorted_of_runs {f : α → β} {p q : List α}
    (hp : p.Pairwise (fun a b ↦ f a ≤ f b)) (hq : q.Pairwise (fun a b ↦ f a ≤ f b))
    (hqp : ∀ b ∈ q, ∀ a ∈ p, f b ≤ f a) : CyclicSorted f (p ++ q) :=
  ⟨p, q, rfl, List.pairwise_append.mpr ⟨hq, hp, hqp⟩⟩

/-! ### Descents -/

/-- The descents around the circle: the neighbours, last and first included, at which `f` falls. -/
def descents (f : α → β) (xs : List α) : Nat :=
  (xs.zip (xs.rotate 1)).countP (fun p ↦ f p.2 < f p.1)

/-- The falls on the way from `a` through `xs` to `b`. -/
def falls (f : α → β) : α → List α → α → Nat
  | a, [], b => if f b < f a then 1 else 0
  | a, x :: xs, b => falls f x xs b + if f x < f a then 1 else 0

theorem descents_cons (f : α → β) (c : α) (xs : List α) :
    descents f (c :: xs) = falls f c xs c := by
  have hzip (a : α) (ys : List α) :
      ((a :: ys).zip (ys ++ [c])).countP (fun p ↦ f p.2 < f p.1) = falls f a ys c := by
    induction ys generalizing a with
    | nil => simp [falls, List.countP_singleton]
    | cons y ys ih =>
      rw [List.cons_append, List.zip_cons_cons, List.countP_cons, ih, falls]
      simp
  rw [descents, List.rotate_cons_succ, List.rotate_zero]
  exact hzip c xs

theorem pairwise_of_falls {f : α → β} {a b : α} {xs : List α} (h : falls f a xs b = 0) :
    (a :: (xs ++ [b])).Pairwise (fun x y ↦ f x ≤ f y) := by
  induction xs generalizing a with
  | nil =>
    rw [falls] at h
    split at h
    · cases h
    · next hle => simpa using hle
  | cons x xs ih =>
    rw [falls, Nat.add_eq_zero_iff] at h
    have hax : f a ≤ f x := by
      by_contra hlt
      rw [if_pos (not_le.mp hlt)] at h
      cases h.2
    have hs := ih h.1
    refine List.pairwise_cons.mpr ⟨?_, hs⟩
    intro y hy
    rcases List.mem_cons.mp hy with rfl | hy
    · exact hax
    · exact hax.trans ((List.pairwise_cons.mp hs).1 y hy)

/-- A walk with at most one fall ascends before and behind it. -/
theorem runs_of_falls {f : α → β} {a b : α} {xs : List α} (h : falls f a xs b ≤ 1) :
    ∃ p q, xs = p ++ q ∧ (a :: p).Pairwise (fun x y ↦ f x ≤ f y) ∧
      (q ++ [b]).Pairwise (fun x y ↦ f x ≤ f y) := by
  induction xs generalizing a with
  | nil => exact ⟨[], [], rfl, by simp, by simp⟩
  | cons x xs ih =>
    rw [falls] at h
    split at h
    · exact ⟨[], x :: xs, rfl, by simp, pairwise_of_falls (by omega)⟩
    · next hle =>
      obtain ⟨p, q, rfl, hp, hq⟩ := ih h
      refine ⟨x :: p, q, rfl, List.pairwise_cons.mpr ⟨?_, hp⟩, hq⟩
      intro y hy
      rcases List.mem_cons.mp hy with rfl | hy
      · exact not_lt.mp hle
      · exact (not_lt.mp hle).trans ((List.pairwise_cons.mp hp).1 y hy)

theorem falls_le_one {f : α → β} {a b : α} {xs : List α}
    (h : (a :: xs).Pairwise (fun x y ↦ f x ≤ f y)) : falls f a xs b ≤ 1 := by
  induction xs generalizing a with
  | nil =>
    rw [falls]
    split <;> omega
  | cons x xs ih =>
    obtain ⟨hax, hxs⟩ := List.pairwise_cons.mp h
    rw [falls, if_neg (not_lt.mpr (hax x List.mem_cons_self))]
    exact ih hxs

theorem descents_append_comm (f : α → β) (xs ys : List α) :
    descents f (xs ++ ys) = descents f (ys ++ xs) := by
  have hrot := List.zipWith_rotate_distrib Prod.mk (ys ++ xs) ((ys ++ xs).rotate 1) ys.length
    (by simp)
  rw [List.rotate_rotate, Nat.add_comm, ← List.rotate_rotate, List.rotate_append_length_eq] at hrot
  rw [descents, descents, List.zip, ← hrot]
  exact (List.rotate_perm _ _).countP_eq _

/-- Cyclic order is at most one descent around the circle. -/
theorem cyclicSorted_iff_descents {f : α → β} {xs : List α} :
    CyclicSorted f xs ↔ descents f xs ≤ 1 := by
  constructor
  · rintro ⟨p, q, rfl, hs⟩
    rw [descents_append_comm]
    cases hc : q ++ p with
    | nil => exact Nat.zero_le 1
    | cons c ys =>
      rw [descents_cons]
      exact falls_le_one (hc ▸ hs)
  · intro h
    cases xs with
    | nil => exact cyclicSorted_of_pairwise .nil
    | cons c xs =>
      rw [descents_cons] at h
      obtain ⟨p, q, rfl, hp, hq⟩ := runs_of_falls h
      obtain ⟨hq, -, hqc⟩ := List.pairwise_append.mp hq
      refine ⟨c :: p, q, rfl, List.pairwise_append.mpr ⟨hq, hp, ?_⟩⟩
      intro b hb a ha
      have hbc := hqc b hb c List.mem_cons_self
      rcases List.mem_cons.mp ha with rfl | ha
      · exact hbc
      · exact hbc.trans ((List.pairwise_cons.mp hp).1 a ha)

/-! ### Search with early exit -/

/-- `k` lies strictly between the neighbours `x` and `y` in the cyclic order of keys. -/
def Between (x k y : β) : Prop := (x < k ∧ k < y) ∨ (k < y ∧ y < x) ∨ (y < x ∧ x < k)

instance (x k y : β) : Decidable (Between x k y) := by
  unfold Between
  infer_instance

/-- One pass behind `prev` for a key equal to `k`, given up between two neighbours that
enclose `k`. Answers the element found and its predecessor. -/
def search (f : α → β) (k : β) : α → List α → Option (α × α)
  | _, [] => none
  | prev, x :: xs =>
    if f x = k then some (x, prev)
    else if Between (f prev) k (f x) then none
    else search f k x xs

/-- The same pass without the early exit. -/
def scan (f : α → β) (k : β) : α → List α → Option (α × α)
  | _, [] => none
  | prev, x :: xs => if f x = k then some (x, prev) else scan f k x xs

theorem scan_eq_none {f : α → β} {k : β} {c : α} {xs : List α}
    (h : ∀ x ∈ xs, f x ≠ k) : scan f k c xs = none := by
  induction xs generalizing c with
  | nil => rfl
  | cons x xs ih =>
    rw [scan, if_neg (h x (by simp))]
    exact ih (fun y hy ↦ h y (by simp [hy]))

/-- The pass finds what a plain search finds. -/
theorem map_fst_scan (f : α → β) (k : β) (c : α) (xs : List α) :
    (scan f k c xs).map Prod.fst = xs.find? (fun x ↦ f x = k) := by
  induction xs generalizing c with
  | nil => rfl
  | cons x xs ih =>
    rw [scan, List.find?_cons]
    by_cases hx : f x = k
    · simp [hx]
    · simp [hx, ih]

/-- Behind two neighbours that enclose `k`, a cyclically sorted list does not hold `k`. -/
private theorem ne_of_between {f : α → β} {k : β} {prev x : α} {xs : List α}
    (hs : CyclicSorted f (prev :: x :: xs)) (hb : Between (f prev) k (f x)) :
    ∀ y ∈ xs, f y ≠ k := by
  intro y hy he
  subst he
  obtain ⟨p, q, hpq, hp, hq, hqp⟩ := hs.runs
  cases p with
  | nil =>
    rw [List.nil_append] at hpq
    subst hpq
    have hxp := hqp x (by simp) prev (by simp)
    have hyp := hqp y (by simp [hy]) prev (by simp)
    have hxy := (List.pairwise_cons.mp hq).1 y hy
    rcases hb with ⟨h1, h2⟩ | ⟨h1, h2⟩ | ⟨h1, h2⟩ <;> order
  | cons a p =>
    rw [List.cons_append, List.cons.injEq] at hpq
    obtain ⟨rfl, rfl⟩ := hpq
    have hpx := (List.pairwise_cons.mp hp).1 x (by simp)
    rcases List.mem_append.mp hy with hy | hy
    · have hxy := (List.pairwise_cons.mp (List.pairwise_cons.mp hp).2).1 y hy
      rcases hb with ⟨h1, h2⟩ | ⟨h1, h2⟩ | ⟨h1, h2⟩ <;> order
    · have hyp := hqp y hy prev (by simp)
      rcases hb with ⟨h1, h2⟩ | ⟨h1, h2⟩ | ⟨h1, h2⟩ <;> order

private theorem tail_sorted {f : α → β} {prev x : α} {xs : List α}
    (hs : CyclicSorted f (prev :: x :: xs)) : CyclicSorted f (x :: xs) :=
  hs.sublist (List.sublist_cons_self _ _)

/-- On a cyclically sorted list the early exit never changes the answer. -/
theorem search_eq_scan {f : α → β} {c : α} {xs : List α} (hs : CyclicSorted f (c :: xs)) (k : β) :
    search f k c xs = scan f k c xs := by
  induction xs generalizing c with
  | nil => rfl
  | cons x xs ih =>
    rw [search, scan]
    split
    · rfl
    · split
      · next hb => exact (scan_eq_none (ne_of_between hs hb)).symm
      · exact ih (tail_sorted hs)

/-- Where a search ends: at the first element with the key, right behind its answer. -/
theorem search_eq_some {f : α → β} {k : β} {c x y : α} {xs : List α}
    (h : search f k c xs = some (x, y)) :
    ∃ p q, c :: xs = p ++ y :: x :: q ∧ f x = k := by
  induction xs generalizing c with
  | nil => simp [search] at h
  | cons z zs ih =>
    rw [search] at h
    split at h
    · next hz =>
      simp only [Option.some.injEq, Prod.mk.injEq] at h
      obtain ⟨rfl, rfl⟩ := h
      exact ⟨[], zs, rfl, hz⟩
    · split at h
      · simp at h
      · obtain ⟨p, q, he, hx⟩ := ih h
        exact ⟨c :: p, q, by simp [he], hx⟩

theorem scan_isSome {f : α → β} {k : β} {c x : α} {xs : List α} (hx : x ∈ xs) (hk : f x = k) :
    (scan f k c xs).isSome := by
  induction xs generalizing c with
  | nil => simp at hx
  | cons z zs ih =>
    rw [scan]
    split
    · rfl
    · next hz =>
      rcases List.mem_cons.mp hx with rfl | hx
      · exact absurd hk hz
      · exact ih hx

/-- A key held behind the start of a cyclically sorted list is found. -/
theorem search_isSome {f : α → β} {c x : α} {xs : List α} (hs : CyclicSorted f (c :: xs))
    (hx : x ∈ xs) : (search f (f x) c xs).isSome := by
  rw [search_eq_scan hs]
  exact scan_isSome hx rfl

/-- If the search finds every key behind the start, the list is cyclically sorted. -/
theorem cyclicSorted_of_search {f : α → β} {c : α} {xs : List α}
    (hn : ((c :: xs).map f).Nodup) (h : ∀ x ∈ xs, (search f (f x) c xs).isSome) :
    CyclicSorted f (c :: xs) := by
  induction xs generalizing c with
  | nil => exact cyclicSorted_singleton f c
  | cons y ys ih =>
    have hn' := (List.nodup_cons.mp (by simpa using hn : (f c :: f y :: ys.map f).Nodup)).2
    have hcy : f c ≠ f y := by
      intro he
      simp [he] at hn
    have hstep (z : α) (hz : z ∈ ys) :
        ¬ Between (f c) (f z) (f y) ∧ (search f (f z) y ys).isSome := by
      have hyz : f y ≠ f z := by
        intro he
        have hm : f z ∈ ys.map f := List.mem_map_of_mem hz
        rw [he] at hn'
        exact (List.nodup_cons.mp hn').1 hm
      have hs := h z (by simp [hz])
      rw [search, if_neg hyz] at hs
      split at hs
      · simp at hs
      · next hb => exact ⟨hb, hs⟩
    obtain ⟨p, q, rfl, hp, hq, hqp⟩ := (ih hn' (fun z hz ↦ (hstep z hz).2)).runs
    have hzc (z : α) (hz : z ∈ p ++ q) : f z ≠ f c := by
      intro he
      have hm : f c ∈ (y :: (p ++ q)).map f := he ▸ List.mem_map_of_mem (by simp [hz])
      exact (List.nodup_cons.mp hn).1 hm
    have hyz (z : α) (hz : z ∈ p ++ q) : f z ≠ f y := by
      intro he
      have hm : f y ∈ (p ++ q).map f := he ▸ List.mem_map_of_mem hz
      exact (List.nodup_cons.mp hn').1 hm
    have hpy := (List.pairwise_cons.mp hp).1
    have hout (z : α) (hz : z ∈ p ++ q) := (hstep z hz).1
    simp only [Between, not_or, not_and, not_lt] at hout
    rcases lt_or_gt_of_ne hcy with hlt | hgt
    · -- an ascent: the first run starts one element earlier
      have hqc (z : α) (hz : z ∈ q) : f z ≤ f c := by
        have h1 := hqp z hz y (by simp)
        have h2 := (hout z (by simp [hz])).1
        have h3 := hyz z (by simp [hz])
        by_contra hcz
        exact h3 (le_antisymm h1 (h2 (not_le.mp hcz)))
      refine cyclicSorted_of_runs (p := c :: y :: p) ?_ hq ?_
      · refine List.pairwise_cons.mpr ⟨?_, hp⟩
        intro z hz
        rcases List.mem_cons.mp hz with rfl | hz
        · exact hlt.le
        · exact hlt.le.trans (hpy z hz)
      · intro z hz a ha
        rcases List.mem_cons.mp ha with rfl | ha
        · exact hqc z hz
        · exact hqp z hz a ha
    · -- a descent: everything behind it lies between the two keys
      have hbig (z : α) (hz : z ∈ p ++ q) : f y ≤ f z := by
        by_contra hzy
        have := (hout z hz).2.1 (not_le.mp hzy)
        order
      have hq0 (z : α) (hz : z ∈ q) : False := by
        have h1 := hqp z hz y (by simp)
        exact hyz z (by simp [hz]) (le_antisymm h1 (hbig z (by simp [hz])))
      have hnil : q = [] := List.eq_nil_iff_forall_not_mem.mpr (fun z hz ↦ hq0 z hz)
      subst hnil
      refine cyclicSorted_of_runs (p := [c]) (q := y :: (p ++ [])) (by simp)
        (by simpa using hp) ?_
      intro z hz a ha
      rw [List.mem_singleton] at ha
      subst ha
      rcases List.mem_cons.mp hz with rfl | hz
      · exact hgt.le
      · exact (hout z hz).2.2 hgt

/-! ### Insertion into the first fitting gap -/

/-- The gap behind `x` and before `y` takes `t`: it is the descent of the circle and `t` is
outside the ascending part, or `t` lies above `x` and not above `y`. -/
def Fits (x t y : β) : Prop := (y < x ∧ (t ≤ y ∨ x < t)) ∨ (x < t ∧ t ≤ y)

instance (x t y : β) : Decidable (Fits x t y) := by
  unfold Fits
  infer_instance

/-- One pass behind `prev` that puts `a` into the first gap fitting `t`, else at the end. -/
def insertGap (f : α → β) (t : β) (a : α) : α → List α → List α
  | _, [] => [a]
  | prev, x :: xs =>
    if Fits (f prev) t (f x) then a :: x :: xs else x :: insertGap f t a x xs

/-- The element behind which the pass inserts. -/
def gapAfter (f : α → β) (t : β) : α → List α → α
  | prev, [] => prev
  | prev, x :: xs => if Fits (f prev) t (f x) then prev else gapAfter f t x xs

/-- The insertion adds one element behind `gapAfter`; every gap passed over did not fit. -/
theorem insertGap_split (f : α → β) (t : β) (a c : α) (xs : List α) :
    ∃ p q, c :: xs = p ++ gapAfter f t c xs :: q ∧
      c :: insertGap f t a c xs = p ++ gapAfter f t c xs :: a :: q ∧
      (p ++ [gapAfter f t c xs]).IsChain (fun x y ↦ ¬ Fits (f x) t (f y)) ∧
      ∀ y ∈ q.head?, Fits (f (gapAfter f t c xs)) t (f y) := by
  induction xs generalizing c with
  | nil => exact ⟨[], [], by simp [gapAfter, insertGap]⟩
  | cons x xs ih =>
    by_cases hf : Fits (f c) t (f x)
    · refine ⟨[], x :: xs, ?_⟩
      simp [gapAfter, insertGap, hf]
    · obtain ⟨p, q, h1, h2, h3, h4⟩ := ih x
      simp only [gapAfter, insertGap, if_neg hf]
      refine ⟨c :: p, q, by rw [h1]; rfl, by rw [h2]; rfl, ?_, h4⟩
      cases p with
      | nil =>
        rw [List.nil_append, List.cons.injEq] at h1
        rw [← h1.1]
        simpa using hf
      | cons y p =>
        rw [List.cons_append, List.cons.injEq] at h1
        obtain ⟨rfl, -⟩ := h1
        exact List.IsChain.cons_cons hf h3

theorem mem_insertGap {f : α → β} {t : β} {a c b : α} {xs : List α} :
    b ∈ insertGap f t a c xs ↔ b = a ∨ b ∈ xs := by
  induction xs generalizing c with
  | nil => simp [insertGap]
  | cons x xs ih =>
    rw [insertGap]
    split
    · simp
    · rw [List.mem_cons, ih, List.mem_cons]
      tauto

/-- The insertion reads the keys of the list only. -/
theorem insertGap_congr {f g : α → β} {t : β} {a c : α} {xs : List α}
    (h : ∀ x ∈ c :: xs, g x = f x) : insertGap g t a c xs = insertGap f t a c xs := by
  induction xs generalizing c with
  | nil => rfl
  | cons x xs ih =>
    rw [insertGap, insertGap, h c (by simp), h x (by simp),
      ih (fun y hy ↦ h y (List.mem_cons_of_mem c hy))]

theorem gapAfter_mem (f : α → β) (t : β) (c : α) (xs : List α) : gapAfter f t c xs ∈ c :: xs := by
  obtain ⟨p, q, h, -⟩ := insertGap_split f t c c xs
  rw [h]
  simp

/-- A new element put into a gap that encloses it leaves the circle sorted. -/
theorem CyclicSorted.insert {f : α → β} {c y a : α} {xs : List α}
    (h : CyclicSorted f (c :: y :: xs))
    (hg : (f c ≤ f a ∧ f a ≤ f y) ∨ (f y < f c ∧ (f c ≤ f a ∨ f a ≤ f y))) :
    CyclicSorted f (c :: a :: y :: xs) := by
  obtain ⟨p, q, hpq, hp, hq, hqp⟩ := h.runs
  cases p with
  | nil =>
    rw [List.nil_append] at hpq
    subst hpq
    have hyc := hqp y (by simp) c (by simp)
    have hle (b : α) (hb : b ∈ y :: xs) : f y ≤ f b := by
      rcases List.mem_cons.mp hb with rfl | hb
      · exact le_rfl
      · exact (List.pairwise_cons.mp hq).1 b hb
    by_cases hca : f c ≤ f a
    · refine cyclicSorted_of_runs (p := [c, a]) (by simpa using hca) hq ?_
      intro b hb d hd
      have hbc := hqp b hb c (by simp)
      simp only [List.mem_cons, List.not_mem_nil, or_false] at hd
      rcases hd with rfl | rfl
      · exact hbc
      · exact hbc.trans hca
    · have hay : f a ≤ f y := by
        rcases hg with ⟨h1, _⟩ | ⟨_, h1 | h1⟩
        · exact absurd h1 hca
        · exact absurd h1 hca
        · exact h1
      refine cyclicSorted_of_runs (p := [c]) (q := a :: y :: xs) (by simp) ?_ ?_
      · exact List.pairwise_cons.mpr ⟨fun b hb ↦ hay.trans (hle b hb), hq⟩
      · intro b hb d hd
        rw [List.mem_singleton] at hd
        subst hd
        rcases List.mem_cons.mp hb with rfl | hb
        · exact (not_le.mp hca).le
        · exact hqp b hb _ (by simp)
  | cons y' p =>
    rw [List.cons_append, List.cons.injEq] at hpq
    obtain ⟨rfl, rfl⟩ := hpq
    have hcy := (List.pairwise_cons.mp hp).1 y (by simp)
    have hca : f c ≤ f a ∧ f a ≤ f y := by
      rcases hg with hg | ⟨hg, -⟩
      · exact hg
      · exact absurd hcy (not_le.mpr hg)
    have hyp := (List.pairwise_cons.mp hp).2
    refine cyclicSorted_of_runs (p := c :: a :: y :: p) ?_ hq ?_
    · refine List.pairwise_cons.mpr ⟨?_, List.pairwise_cons.mpr ⟨?_, hyp⟩⟩
      · intro b hb
        rcases List.mem_cons.mp hb with rfl | hb
        · exact hca.1
        · exact (List.pairwise_cons.mp hp).1 b hb
      · intro b hb
        rcases List.mem_cons.mp hb with rfl | hb
        · exact hca.2
        · exact hca.2.trans ((List.pairwise_cons.mp hyp).1 b hb)
    · intro b hb d hd
      rcases List.mem_cons.mp hd with rfl | hd
      · exact hqp b hb d (by simp)
      · rcases List.mem_cons.mp hd with rfl | hd
        · exact (hqp b hb c (by simp)).trans hca.1
        · exact hqp b hb d (by simp [hd])

private theorem all_lt_of_noGap {f : α → β} {t : β} {c : α} {xs : List α}
    (h : (c :: xs).IsChain (fun x y ↦ ¬ Fits (f x) t (f y))) (hc : f c < t) :
    ∀ x ∈ xs, f x < t := by
  induction xs generalizing c with
  | nil => simp
  | cons y ys ih =>
    obtain ⟨hcy, hys⟩ := List.isChain_cons_cons.mp h
    have hy : f y < t := by
      by_contra hty
      exact hcy (Or.inr ⟨hc, not_lt.mp hty⟩)
    intro x hx
    rcases List.mem_cons.mp hx with rfl | hx
    · exact hy
    · exact ih hys hy x hx

/-- A cyclically sorted list ascends, or it is two runs with one strict descent between. -/
private theorem pairwise_or_descent {f : α → β} {c : α} {xs : List α}
    (h : CyclicSorted f (c :: xs)) :
    (c :: xs).Pairwise (fun a b ↦ f a ≤ f b) ∨
      ∃ r z y q, c :: xs = (r ++ [z]) ++ y :: q ∧ f y < f z ∧
        (r ++ [z]).Pairwise (fun a b ↦ f a ≤ f b) ∧ (y :: q).Pairwise (fun a b ↦ f a ≤ f b) ∧
        ∀ b ∈ y :: q, ∀ a ∈ r ++ [z], f b ≤ f a := by
  obtain ⟨p, q, rfl, hp, hq, hqp⟩ := h.runs
  cases q with
  | nil => exact Or.inl (by simpa using hp)
  | cons y q =>
    obtain ⟨r, z, hrz⟩ : ∃ r z, c :: p = r ++ [z] :=
      ⟨(c :: p).dropLast, (c :: p).getLast (by simp), (List.dropLast_append_getLast _).symm⟩
    have he : c :: (p ++ y :: q) = (r ++ [z]) ++ y :: q := by rw [← hrz]; rfl
    rw [hrz] at hp hqp
    rcases lt_or_ge (f y) (f z) with hlt | hge
    · exact Or.inr ⟨r, z, y, q, he, hlt, hp, hq, hqp⟩
    · left
      rw [he]
      refine List.pairwise_append.mpr ⟨hp, hq, ?_⟩
      intro b hb d hd
      have hbz : f b ≤ f z := by
        rcases List.mem_append.mp hb with hb | hb
        · exact (List.pairwise_append.mp hp).2.2 b hb z (by simp)
        · rw [List.mem_singleton.mp hb]
      have hyd : f y ≤ f d := by
        rcases List.mem_cons.mp hd with rfl | hd
        · exact le_rfl
        · exact (List.pairwise_cons.mp hq).1 d hd
      exact hbz.trans (hge.trans hyd)

private theorem pairwise_concat {f : α → β} {a : α} {xs : List α}
    (h : xs.Pairwise (fun a b ↦ f a ≤ f b)) (ha : ∀ b ∈ xs, f b ≤ f a) :
    (xs ++ [a]).Pairwise (fun a b ↦ f a ≤ f b) := by
  refine List.pairwise_append.mpr ⟨h, by simp, ?_⟩
  intro b hb d hd
  rw [List.mem_singleton.mp hd]
  exact ha b hb

/-- Where no gap of a cyclically sorted list fits, the end takes the new element. -/
private theorem sorted_end {f : α → β} {a c : α} {xs : List α}
    (h : CyclicSorted f (c :: xs))
    (hn : (c :: xs).IsChain (fun x y ↦ ¬ Fits (f x) (f a) (f y))) :
    CyclicSorted f (c :: xs ++ [a]) := by
  rcases pairwise_or_descent h with hs | ⟨r, z, y, q, he, hyz, hp, hq, hqp⟩
  · by_cases hc : f c < f a
    · apply cyclicSorted_of_pairwise
      apply pairwise_concat hs
      intro b hb
      rcases List.mem_cons.mp hb with rfl | hb
      · exact hc.le
      · exact (all_lt_of_noGap hn hc b hb).le
    · apply cyclicSorted_of_runs hs (by simp)
      intro b hb d hd
      rw [List.mem_singleton.mp hb]
      rcases List.mem_cons.mp hd with rfl | hd
      · exact not_lt.mp hc
      · exact (not_lt.mp hc).trans ((List.pairwise_cons.mp hs).1 d hd)
  · -- the descent itself does not fit, so the key is above the second run only
    rw [he] at hn ⊢
    have hch : (z :: y :: q).IsChain (fun x y ↦ ¬ Fits (f x) (f a) (f y)) := by
      rw [List.append_assoc] at hn
      exact (List.isChain_append.mp hn).2.1
    have hzy := (List.isChain_cons_cons.mp hch).1
    have hya : f y < f a := by
      by_contra hlt
      exact hzy (Or.inl ⟨hyz, Or.inl (not_lt.mp hlt)⟩)
    have haz : f a ≤ f z := by
      by_contra hlt
      exact hzy (Or.inl ⟨hyz, Or.inr (not_le.mp hlt)⟩)
    have hqa (b : α) (hb : b ∈ y :: q) : f b < f a := by
      rcases List.mem_cons.mp hb with rfl | hb
      · exact hya
      · exact all_lt_of_noGap (List.isChain_cons_cons.mp hch).2 hya b hb
    have hpa (b : α) (hb : b ∈ r ++ [z]) : f a ≤ f b := by
      by_contra hba
      obtain ⟨d, w, hdw⟩ : ∃ d w, r ++ [z] = d :: w :=
        List.exists_cons_of_ne_nil (by simp)
      have hdb : f d ≤ f b := by
        rw [hdw] at hb hp
        rcases List.mem_cons.mp hb with rfl | hb
        · exact le_rfl
        · exact (List.pairwise_cons.mp hp).1 b hb
      have hda : f d < f a := hdb.trans_lt (not_le.mp hba)
      have hchp := (List.isChain_append.mp hn).1
      rw [hdw] at hchp
      have hall (e : α) (he : e ∈ r ++ [z]) : f e < f a := by
        rw [hdw] at he
        rcases List.mem_cons.mp he with rfl | he
        · exact hda
        · exact all_lt_of_noGap hchp hda e he
      exact (hall z (by simp)).not_ge haz
    rw [List.append_assoc]
    apply cyclicSorted_of_runs hp (pairwise_concat hq (fun b hb ↦ (hqa b hb).le))
    intro b hb d hd
    rcases List.mem_append.mp hb with hb | hb
    · exact hqp b hb d hd
    · rw [List.mem_singleton.mp hb]
      exact hpa d hd

/-- Insertion by the first fitting gap keeps a circle cyclically sorted, wherever the pass
started and however many equal keys the circle holds. -/
theorem CyclicSorted.insertGap {f : α → β} {a c : α} {xs : List α}
    (h : CyclicSorted f (c :: xs)) : CyclicSorted f (c :: insertGap f (f a) a c xs) := by
  obtain ⟨p, q, h1, h2, h3, h4⟩ := insertGap_split f (f a) a c xs
  rw [h2]
  cases q with
  | nil =>
    rw [h1] at h
    obtain ⟨d, w, hdw⟩ : ∃ d w, p ++ [gapAfter f (f a) c xs] = d :: w :=
      List.exists_cons_of_ne_nil (by simp)
    have he : p ++ [gapAfter f (f a) c xs, a] = (p ++ [gapAfter f (f a) c xs]) ++ [a] := by simp
    rw [he, hdw]
    rw [hdw] at h h3
    exact sorted_end h h3
  | cons y q =>
    have hf := h4 y (by simp)
    have hr : CyclicSorted f (gapAfter f (f a) c xs :: y :: q ++ p) := by
      apply cyclicSorted_append_comm
      rw [← h1]
      exact h
    have hi : CyclicSorted f (gapAfter f (f a) c xs :: a :: y :: (q ++ p)) := by
      apply hr.insert
      rcases hf with ⟨hyx, hf⟩ | ⟨hx, hy⟩
      · exact Or.inr ⟨hyx, hf.symm.imp_left le_of_lt⟩
      · exact Or.inl ⟨hx.le, hy⟩
    have hc : CyclicSorted f ((gapAfter f (f a) c xs :: a :: y :: q) ++ p) := by
      simpa using hi
    exact cyclicSorted_append_comm hc

end Jeopardy.Rings
