import Jeopardy.Lib.CyclicSorted

/-!
# Gaps of a circle

Where the insertion pass puts a new element, independent of the point where it starts to
read, and how far a search gets along a part of the circle without a descent.
-/

namespace Jeopardy.Rings

variable {α : Type*} {β : Type*} [LinearOrder β] {f : α → β} {t k : β} {a c : α} {xs w : List α}

/-! ### The place of an insertion -/

/-- If only the gap that closes the rotation `w` fits, the pass inserts there. -/
theorem insertGap_isRotated (hr : (c :: xs).IsRotated w)
    (hno : w.IsChain (fun x y ↦ ¬ Fits (f x) t (f y)))
    (hfit : 2 ≤ w.length → ∀ x ∈ w.getLast?, ∀ y ∈ w.head?, Fits (f x) t (f y)) :
    (c :: insertGap f t a c xs).IsRotated (a :: w) := by
  obtain ⟨p, q, h1, h2, h3, h4⟩ := insertGap_split f t a c xs
  generalize gapAfter f t c xs = g at h1 h2 h3 h4
  have hrot : (c :: xs).IsRotated (q ++ (p ++ [g])) := by
    rw [h1, show p ++ g :: q = (p ++ [g]) ++ q by simp]
    exact List.isRotated_append
  have hw : w = q ++ (p ++ [g]) := by
    obtain ⟨w₁, w₂, rfl, he⟩ := exists_append_of_isRotated (hr.symm.trans hrot)
    rcases List.eq_nil_or_concat w₁ with rfl | ⟨u, x, rfl⟩
    · rw [he]
      simp
    · cases w₂ with
      | nil =>
        rw [he]
        simp
      | cons y v =>
        exfalso
        rw [List.concat_eq_append] at he hno hfit
        cases q with
        | nil =>
          -- the pass met the closing gap of `w` and left it
          rw [List.nil_append] at he
          rw [he] at h3
          obtain ⟨z, hz⟩ := Option.isSome_iff_exists.mp
            (show (y :: v).getLast?.isSome by simp)
          obtain ⟨b, hb⟩ := Option.isSome_iff_exists.mp
            (show (u ++ [x]).head?.isSome by simp)
          have hne := (List.isChain_append.mp h3).2.2 z (by simpa using hz) b (by simpa using hb)
          refine hne (hfit (by simp only [List.length_append, List.length_cons]; omega) z ?_ b ?_)
          · rw [List.getLast?_append, hz]
            simp
          · rw [List.head?_append, hb]
            simp
        | cons y' q =>
          -- the pass inserted into a gap inside `w`
          rw [List.cons_append, List.cons_append, List.cons.injEq] at he
          obtain ⟨rfl, he⟩ := he
          have hx : g = x := by
            have := congrArg List.getLast? he
            simpa [← List.append_assoc] using this
          subst hx
          have hne := (List.isChain_append.mp hno).2.2 g (by simp) y' (by simp)
          exact hne (h4 y' (by simp))
  rw [h2, hw, show p ++ g :: a :: q = (p ++ [g]) ++ (a :: q) by simp]
  exact List.isRotated_append

/-- Into an ascending circle the pass puts the new element behind the smaller ones. -/
theorem insertGap_between {us vs : List α} (hr : (c :: xs).IsRotated (us ++ vs))
    (hs : (us ++ vs).Pairwise (fun x y ↦ f x < f y)) (hu : ∀ x ∈ us, f x < t)
    (hv : ∀ y ∈ vs, t ≤ f y) : (c :: insertGap f t a c xs).IsRotated (us ++ a :: vs) := by
  obtain ⟨hsu, hsv, huv⟩ := List.pairwise_append.mp hs
  have hrot : (c :: insertGap f t a c xs).IsRotated (a :: (vs ++ us)) := by
    apply insertGap_isRotated (hr.trans List.isRotated_append)
    · refine List.isChain_append.mpr ⟨?_, ?_, ?_⟩
      · apply List.Pairwise.isChain
        refine hsv.imp_of_mem ?_
        rintro x y hx _ hxy (⟨hyx, -⟩ | ⟨hxt, -⟩)
        · exact hyx.not_gt hxy
        · exact (hv x hx).not_gt hxt
      · apply List.Pairwise.isChain
        refine hsu.imp_of_mem ?_
        rintro x y _ hy hxy (⟨hyx, -⟩ | ⟨-, hty⟩)
        · exact hyx.not_gt hxy
        · exact hty.not_gt (hu y hy)
      · rintro x hx y hy (⟨-, hty | hxt⟩ | ⟨hxt, -⟩)
        · exact hty.not_gt (hu y (List.mem_of_mem_head? hy))
        · exact (hv x (List.mem_of_mem_getLast? hx)).not_gt hxt
        · exact (hv x (List.mem_of_mem_getLast? hx)).not_gt hxt
    · intro hlen x hx y hy
      rcases List.eq_nil_or_concat us with rfl | ⟨us', u, rfl⟩
      · rw [List.append_nil] at hx hy hlen
        cases vs with
        | nil => simp at hy
        | cons v vs =>
          rcases List.eq_nil_or_concat vs with rfl | ⟨vs', z, rfl⟩
          · simp at hlen
          · simp only [List.concat_eq_append, List.head?_cons, Option.mem_some_iff] at hx hy hsv hv
            rw [← List.cons_append, List.getLast?_append] at hx
            simp only [List.getLast?_singleton, Option.some_or, Option.mem_some_iff] at hx
            subst hx hy
            exact Or.inl ⟨(List.pairwise_cons.mp hsv).1 z (by simp), Or.inl (hv v (by simp))⟩
      · rw [List.concat_eq_append] at hx hy hu huv
        rw [← List.append_assoc, List.getLast?_append] at hx
        simp only [List.getLast?_singleton, Option.some_or, Option.mem_some_iff] at hx
        subst hx
        have hut := hu u (by simp)
        cases vs with
        | cons v vs =>
          rw [List.cons_append, List.head?_cons, Option.mem_some_iff] at hy
          exact Or.inr ⟨hut, hy ▸ hv v (by simp)⟩
        | nil =>
          cases us' with
          | nil => simp at hlen
          | cons b us' =>
            simp only [List.nil_append, List.cons_append, List.head?_cons, Option.mem_some_iff,
              List.concat_eq_append] at hy hsu
            subst hy
            exact Or.inl ⟨(List.pairwise_cons.mp hsu).1 u (by simp), Or.inr hut⟩
  have hswap : (a :: (vs ++ us)).IsRotated (us ++ a :: vs) := by
    rw [← List.cons_append]
    exact List.isRotated_append
  exact hrot.trans hswap

/-- At a descent the pass puts an element below the whole circle. -/
theorem insertGap_front (hr : (c :: xs).IsRotated w) (hs : w.Pairwise (fun x y ↦ f x ≤ f y))
    (ht : ∀ x ∈ w, t ≤ f x)
    (hd : 2 ≤ w.length → ∀ x ∈ w.getLast?, ∀ y ∈ w.head?, f y < f x) :
    (c :: insertGap f t a c xs).IsRotated (a :: w) := by
  apply insertGap_isRotated hr
  · apply List.Pairwise.isChain
    refine hs.imp_of_mem ?_
    rintro x y hx _ hxy (⟨hyx, -⟩ | ⟨hxt, -⟩)
    · exact hyx.not_ge hxy
    · exact (ht x hx).not_gt hxt
  · intro hlen x hx y hy
    exact Or.inl ⟨hd hlen x hx y hy, Or.inl (ht y (List.mem_of_mem_head? hy))⟩

/-! ### The gap that a key needs -/

/-- `k` is strictly between the neighbours `x` and `y`, or they are the ends of the circle and
`k` is outside; a single element is a neighbour of itself. -/
def Encloses (x k y : β) : Prop := (x < k ∧ k < y) ∨ (y ≤ x ∧ (x < k ∨ k < y))

instance (x k y : β) : Decidable (Encloses x k y) := by
  unfold Encloses
  infer_instance

/-- A part of a circle with distinct keys ascends if its last key is not below its first. -/
theorem CyclicSorted.ascending {z : α} (h : CyclicSorted f (c :: xs))
    (hn : ((c :: xs).map f).Nodup) (hz : (c :: xs).getLast? = some z) (hcz : f c ≤ f z) :
    (c :: xs).Pairwise (fun x y ↦ f x < f y) := by
  obtain ⟨p, q, rfl, hp, -, hqp⟩ := h.runs
  have hq : q = [] := by
    rcases List.eq_nil_or_concat q with rfl | ⟨q', b, rfl⟩
    · rfl
    · rw [List.concat_eq_append] at hz hqp hn
      rw [← List.append_assoc, ← List.cons_append, List.getLast?_append] at hz
      simp only [List.getLast?_singleton, Option.some_or, Option.some.injEq] at hz
      subst hz
      have hbc := le_antisymm (hqp b (by simp) c (by simp)) hcz
      rw [List.map_cons, List.nodup_cons] at hn
      exact absurd (List.mem_map.mpr ⟨b, by simp, hbc⟩) hn.1
  subst hq
  rw [List.append_nil] at hn ⊢
  rw [List.Nodup, List.pairwise_map] at hn
  exact (hp.and hn).imp (fun h ↦ lt_of_le_of_ne h.1 h.2)

/-! ### How far a search gets -/

/-- A search passes elements with other keys, if no two neighbours enclose its key. -/
theorem search_append {ys : List α} (hne : ∀ x ∈ xs, f x ≠ k)
    (hb : (c :: xs).IsChain (fun x y ↦ ¬ Between (f x) k (f y))) :
    search f k c (xs ++ ys) = search f k (xs.getLastD c) ys := by
  induction xs generalizing c with
  | nil => rfl
  | cons x xs ih =>
    obtain ⟨hcx, hxs⟩ := List.isChain_cons_cons.mp hb
    rw [List.cons_append, search, if_neg (hne x (by simp)), if_neg hcx,
      ih (fun y hy ↦ hne y (by simp [hy])) hxs, List.getLastD_cons]

/-- Along an ascent not below the key a search is never given up. -/
theorem chain_not_between_of_le {xs : List α} (hs : xs.Pairwise (fun x y ↦ f x ≤ f y))
    (hk : ∀ x ∈ xs, k ≤ f x) : xs.IsChain (fun x y ↦ ¬ Between (f x) k (f y)) := by
  apply List.Pairwise.isChain
  refine hs.imp_of_mem ?_
  rintro x y hx _ hxy (⟨h1, -⟩ | ⟨-, h2⟩ | ⟨h1, -⟩)
  · exact h1.not_ge (hk x hx)
  · exact h2.not_ge hxy
  · exact h1.not_ge hxy

/-- Along an ascent below the key a search is never given up. -/
theorem chain_not_between_of_lt {xs : List α} (hs : xs.Pairwise (fun x y ↦ f x ≤ f y))
    (hk : ∀ x ∈ xs, f x < k) : xs.IsChain (fun x y ↦ ¬ Between (f x) k (f y)) := by
  apply List.Pairwise.isChain
  refine hs.imp_of_mem ?_
  rintro x y _ hy hxy (⟨-, h2⟩ | ⟨h1, -⟩ | ⟨h1, -⟩)
  · exact h2.not_gt (hk y hy)
  · exact h1.not_gt (hk y hy)
  · exact h1.not_ge hxy

/-! ### Reading a circle -/

/-- A list with strictly ascending keys is cut by a threshold. -/
theorem exists_threshold (f : α → β) (t : β) {xs : List α}
    (hs : xs.Pairwise (fun x y ↦ f x < f y)) :
    ∃ us vs, xs = us ++ vs ∧ (∀ x ∈ us, f x < t) ∧ ∀ y ∈ vs, t ≤ f y := by
  induction xs with
  | nil => exact ⟨[], [], rfl, by simp, by simp⟩
  | cons x xs ih =>
    obtain ⟨hx, hxs⟩ := List.pairwise_cons.mp hs
    rcases lt_or_ge (f x) t with hlt | hge
    · obtain ⟨us, vs, rfl, hu, hv⟩ := ih hxs
      refine ⟨x :: us, vs, rfl, ?_, hv⟩
      intro y hy
      rcases List.mem_cons.mp hy with rfl | hy
      · exact hlt
      · exact hu y hy
    · refine ⟨[], x :: xs, rfl, by simp, ?_⟩
      intro y hy
      rcases List.mem_cons.mp hy with rfl | hy
      · exact hge
      · exact hge.trans (hx y hy).le

/-- The order in which a circle without repetitions is read from one of its elements. -/
theorem tail_of_isRotated {p q : List α} (hn : (p ++ c :: q).Nodup)
    (hr : (c :: xs).IsRotated (p ++ c :: q)) : xs = q ++ p := by
  obtain ⟨u, v, he, hw⟩ := exists_append_of_isRotated hr
  rw [List.nodup_append] at hn
  have hcp (hm : c ∈ p) : False := hn.2.2 c hm c (by simp) rfl
  cases u with
  | nil =>
    rw [List.nil_append] at he
    rw [List.append_nil, ← he] at hw
    cases p with
    | nil =>
      rw [List.nil_append, List.cons.injEq] at hw
      rw [← hw.2, List.append_nil]
    | cons b p =>
      rw [List.cons_append, List.cons.injEq] at hw
      exact (hcp (by simp [hw.1])).elim
  | cons b u =>
    rw [List.cons_append, List.cons.injEq] at he
    obtain ⟨rfl, rfl⟩ := he
    rcases List.append_eq_append_iff.mp hw with ⟨r, hr1, hr2⟩ | ⟨r, hr1, hr2⟩
    · cases r with
      | nil =>
        rw [List.nil_append, List.cons.injEq] at hr2
        rw [hr1, hr2.2, List.append_nil]
      | cons d r =>
        rw [List.cons_append, List.cons.injEq] at hr2
        exact absurd (hr2.2 ▸ (by simp : c ∈ r ++ c :: u)) (List.nodup_cons.mp hn.2.1).1
    · cases r with
      | nil =>
        rw [List.nil_append, List.cons.injEq] at hr2
        rw [hr1, hr2.2, List.append_nil]
      | cons d r =>
        rw [List.cons_append, List.cons.injEq] at hr2
        exact (hcp (by simp [hr1, hr2.1])).elim

end Jeopardy.Rings
