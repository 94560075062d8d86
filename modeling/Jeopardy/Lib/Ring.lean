import Mathlib

/-!
# Rings of linked cells

A successor function `next` links cells into a ring when following it from the first cell
of a duplicate-free list visits the list in order and comes back. A ring may be read from
any of its cells. The surgery laws cover what pointer code does to a circular list:
linking a cell in, unlinking a cell, and cutting one ring into two.
-/

namespace Jeopardy.Rings

variable {α : Type*}

/-- Following `next` from `a` visits `xs` in order and then arrives at `b`. -/
def Links (next : α → Option α) : α → List α → α → Prop
  | a, [], b => next a = some b
  | a, x :: xs, b => next a = some x ∧ Links next x xs b

/-- Following `next` from the first cell of `xs` visits `xs` in order and returns. -/
def IsRing (next : α → Option α) : List α → Prop
  | [] => True
  | a :: xs => (a :: xs).Nodup ∧ Links next a xs a

variable {next next' : α → Option α}

theorem links_append {a b y : α} {xs ys : List α} :
    Links next a (xs ++ y :: ys) b ↔ Links next a xs y ∧ Links next y ys b := by
  induction xs generalizing a with
  | nil => rfl
  | cons x xs ih => simp only [List.cons_append, Links, ih, and_assoc]

/-- Only the links of the cells before the end matter. -/
theorem Links.congr {a b : α} {xs : List α} (h : Links next a xs b)
    (hn : ∀ c ∈ a :: xs, next' c = next c) : Links next' a xs b := by
  induction xs generalizing a with
  | nil => exact (hn a (by simp)).trans h
  | cons x xs ih =>
    refine ⟨(hn a (by simp)).trans h.1, ih h.2 ?_⟩
    intro c hc
    exact hn c (by simp [hc])

/-- Redirecting the link of the last cell redirects the walk. -/
theorem Links.redirect {a b c z : α} {xs ys : List α} (h : Links next a xs b)
    (hz : a :: xs = ys ++ [z]) (hd : (a :: xs).Nodup) (hnz : next' z = some c)
    (hn : ∀ d ∈ ys, next' d = next d) : Links next' a xs c := by
  induction xs generalizing a ys with
  | nil =>
    have he : a = z := by
      cases ys with
      | nil => simpa using hz
      | cons y ys => simp at hz
    rw [he]
    exact hnz
  | cons x xs ih =>
    cases ys with
    | nil => simp at hz
    | cons y ys =>
      rw [List.cons_append, List.cons.injEq] at hz
      obtain ⟨rfl, hz⟩ := hz
      exact ⟨(hn _ (by simp)).trans h.1, ih h.2 hz (List.nodup_cons.mp hd).2
        (fun d hd ↦ hn d (by simp [hd]))⟩

/-- The last cell of a walk links to its end. -/
theorem Links.next_last {a b z : α} {xs ys : List α} (h : Links next a xs b)
    (hz : a :: xs = ys ++ [z]) : next z = some b := by
  induction xs generalizing a ys with
  | nil =>
    have he : a = z := by
      cases ys with
      | nil => simpa using hz
      | cons y ys => simp at hz
    rw [← he]
    exact h
  | cons x xs ih =>
    cases ys with
    | nil => simp at hz
    | cons y ys =>
      rw [List.cons_append, List.cons.injEq] at hz
      exact ih h.2 hz.2

/-- Every cell of a walk links to a later cell of it or to its end. -/
theorem Links.next_mem {a b c : α} {xs : List α} (h : Links next a xs b) (hc : c ∈ a :: xs) :
    ∃ d, next c = some d ∧ (d ∈ xs ∨ d = b) := by
  induction xs generalizing a with
  | nil =>
    rw [List.mem_singleton.mp hc]
    exact ⟨b, h, Or.inr rfl⟩
  | cons x xs ih =>
    rcases List.mem_cons.mp hc with rfl | hc
    · exact ⟨x, h.1, Or.inl (by simp)⟩
    · obtain ⟨d, hd, hm⟩ := ih h.2 hc
      exact ⟨d, hd, hm.imp_left (fun hm ↦ by simp [hm])⟩

theorem isRing_nil : IsRing next [] := trivial

theorem isRing_singleton {a : α} : IsRing next [a] ↔ next a = some a := by
  simp [IsRing, Links]

theorem IsRing.nodup {xs : List α} (h : IsRing next xs) : xs.Nodup := by
  cases xs with
  | nil => exact List.nodup_nil
  | cons a xs => exact h.1

/-- Reading a ring from another of its cells. -/
theorem IsRing.rotate {xs ys : List α} (h : IsRing next (xs ++ ys)) :
    IsRing next (ys ++ xs) := by
  cases xs with
  | nil => simpa using h
  | cons a xs =>
    cases ys with
    | nil => simpa using h
    | cons b ys =>
      obtain ⟨hd, hl⟩ := h
      obtain ⟨h1, h2⟩ := links_append.mp hl
      have hp : (a :: xs ++ b :: ys).Perm (b :: ys ++ a :: xs) := List.perm_append_comm
      exact ⟨hp.nodup_iff.mp hd, links_append.mpr ⟨h2, h1⟩⟩

theorem IsRing.isRotated {xs ys : List α} (h : IsRing next xs) (hr : xs.IsRotated ys) :
    IsRing next ys := by
  obtain ⟨n, hn, rfl⟩ := List.isRotated_iff_mod.mp hr
  rw [List.rotate_eq_drop_append_take hn]
  apply IsRing.rotate
  rwa [List.take_append_drop]

/-- Following one link of a ring reads it from the next cell. -/
theorem IsRing.advance {xs : List α} {a : α} (h : IsRing next (a :: xs)) :
    ∃ b ys, next a = some b ∧ (a :: xs).IsRotated (b :: ys) := by
  cases xs with
  | nil => exact ⟨a, [], isRing_singleton.mp h, List.IsRotated.refl _⟩
  | cons x xs => exact ⟨x, xs ++ [a], h.2.1, 1, by simp⟩

/-- Only the links of the ring's own cells matter. -/
theorem IsRing.congr {xs : List α} (h : IsRing next xs) (hn : ∀ a ∈ xs, next' a = next a) :
    IsRing next' xs := by
  cases xs with
  | nil => trivial
  | cons a xs => exact ⟨h.1, h.2.congr hn⟩

/-- The link between neighbours of a ring. -/
theorem IsRing.next_eq {xs ys : List α} {a b : α} (h : IsRing next (xs ++ a :: b :: ys)) :
    next a = some b := h.rotate.2.1

/-- The link closing a ring. -/
theorem IsRing.next_last {xs : List α} {a b : α} (h : IsRing next (a :: xs ++ [b])) :
    next b = some a := h.rotate.2.1

/-- Every cell of a ring links to a cell of the ring. -/
theorem IsRing.next_mem {xs : List α} {a : α} (h : IsRing next xs) (ha : a ∈ xs) :
    ∃ b ∈ xs, next a = some b := by
  cases xs with
  | nil => simp at ha
  | cons c xs =>
    obtain ⟨d, hd, hm⟩ := h.2.next_mem ha
    refine ⟨d, ?_, hd⟩
    rcases hm with hm | rfl <;> simp [*]

/-- No two cells of a ring link to the same cell. -/
theorem IsRing.next_inj {xs : List α} {a b : α} (h : IsRing next xs) (ha : a ∈ xs) (hb : b ∈ xs)
    (he : next a = next b) : a = b := by
  by_contra hab
  obtain ⟨p, q, rfl⟩ := List.append_of_mem ha
  have hbq : b ∈ q ++ p := by
    simp only [List.mem_append, List.mem_cons] at hb ⊢
    tauto
  obtain ⟨us, vs, hsplit⟩ := List.append_of_mem hbq
  have hr : IsRing next (a :: us ++ b :: vs) := by
    rw [List.cons_append, ← hsplit]
    exact h.rotate
  have hna : ∃ c ∈ us ++ [b], next a = some c := by
    cases us with
    | nil => exact ⟨b, by simp, hr.2.1⟩
    | cons u us => exact ⟨u, by simp, hr.2.1⟩
  have hnb : ∃ d ∈ vs ++ [a], next b = some d := by
    cases vs with
    | nil => exact ⟨a, by simp, hr.next_last⟩
    | cons v vs => exact ⟨v, by simp, hr.next_eq⟩
  obtain ⟨c, hc, hnc⟩ := hna
  obtain ⟨d, hd, hnd⟩ := hnb
  rw [hnc, hnd, Option.some.injEq] at he
  subst he
  have hn := hr.nodup
  rw [List.cons_append, List.nodup_cons, List.nodup_append, List.nodup_cons] at hn
  simp only [List.mem_append, List.mem_cons, List.not_mem_nil, or_false, not_or] at hc hd hn
  rcases hc with hc | rfl
  · rcases hd with hd | rfl
    · exact hn.2.2.2 c hc c (Or.inr hd) rfl
    · exact hn.1.1 hc
  · rcases hd with hd | rfl
    · exact hn.2.2.1.1 hd
    · exact hab rfl

private theorem links_unique {a c : α} {xs ys : List α} (hx : Links next c xs a)
    (hy : Links next c ys a) (hax : a ∉ xs) (hay : a ∉ ys) : xs = ys := by
  induction xs generalizing c ys with
  | nil =>
    cases ys with
    | nil => rfl
    | cons y ys =>
      have he : y = a := Option.some.inj (hy.1.symm.trans hx)
      simp [he] at hay
  | cons x xs ih =>
    cases ys with
    | nil =>
      have he : x = a := Option.some.inj (hx.1.symm.trans hy)
      simp [he] at hax
    | cons y ys =>
      have he : x = y := Option.some.inj (hx.1.symm.trans hy.1)
      subst he
      rw [ih hx.2 hy.2 (fun hm ↦ hax (by simp [hm])) (fun hm ↦ hay (by simp [hm]))]

/-- A walk that meets its end only once visits no cell twice. -/
theorem Links.nodup {a c : α} {xs : List α} (h : Links next c xs a) (ha : a ∉ c :: xs) :
    (c :: xs).Nodup := by
  induction xs generalizing c with
  | nil => exact List.nodup_singleton c
  | cons x xs ih =>
    have hx : a ∉ x :: xs := fun hm ↦ ha (List.mem_cons_of_mem c hm)
    refine List.nodup_cons.mpr ⟨?_, ih h.2 hx⟩
    intro hc
    obtain ⟨us, vs, hsplit⟩ := List.append_of_mem hc
    have hvs : Links next c vs a := (links_append.mp (hsplit ▸ h)).2
    have hmem : a ∉ vs := fun hm ↦ hx (hsplit ▸ by simp [hm])
    have hlen := congrArg List.length (links_unique h hvs hx hmem)
    rw [hsplit, List.length_append, List.length_cons] at hlen
    omega

/-- Following `next` from a cell until it comes back visits a ring. -/
theorem isRing_of_links {a : α} {xs : List α} (h : Links next a xs a) (ha : a ∉ xs) :
    IsRing next (a :: xs) := by
  refine ⟨List.nodup_cons.mpr ⟨ha, ?_⟩, h⟩
  cases xs with
  | nil => exact List.nodup_nil
  | cons x xs => exact h.2.nodup ha

/-- Two rings read from one cell agree. -/
theorem IsRing.unique {a : α} {xs ys : List α} (hx : IsRing next (a :: xs))
    (hy : IsRing next (a :: ys)) : xs = ys :=
  links_unique hx.2 hy.2 (List.nodup_cons.mp hx.1).1 (List.nodup_cons.mp hy.1).1

/-- Linking a fresh cell `x` in behind the first cell. -/
theorem IsRing.insert {a x : α} {xs : List α} (h : IsRing next (a :: xs)) (hx : x ∉ a :: xs)
    (hxn : next' x = next a) (han : next' a = some x) (hn : ∀ b ∈ xs, next' b = next b) :
    IsRing next' (a :: x :: xs) := by
  obtain ⟨hd, hl⟩ := h
  obtain ⟨hax, hxs⟩ := List.nodup_cons.mp hd
  simp only [List.mem_cons, not_or] at hx
  refine ⟨?_, han, ?_⟩
  · refine List.nodup_cons.mpr ⟨?_, List.nodup_cons.mpr ⟨hx.2, hxs⟩⟩
    simp only [List.mem_cons, not_or]
    exact ⟨fun he ↦ hx.1 he.symm, hax⟩
  · cases xs with
    | nil => exact hxn.trans hl
    | cons y ys => exact ⟨hxn.trans hl.1, hl.2.congr hn⟩

/-- Linking a fresh cell `x` in behind any cell. -/
theorem IsRing.insert_behind {a x : α} {us vs : List α} (h : IsRing next (us ++ a :: vs))
    (hx : x ∉ us ++ a :: vs) (hxn : next' x = next a) (han : next' a = some x)
    (hn : ∀ b, b ≠ a → b ≠ x → next' b = next b) : IsRing next' (us ++ a :: x :: vs) := by
  have hrot : IsRing next (a :: (vs ++ us)) := h.rotate
  have hfresh : x ∉ a :: (vs ++ us) := by
    simp only [List.mem_append, List.mem_cons] at hx ⊢
    tauto
  have hins : IsRing next' (a :: x :: (vs ++ us)) := by
    refine hrot.insert hfresh hxn han (fun b hb ↦ hn b ?_ ?_)
    · rintro rfl
      exact (List.nodup_cons.mp hrot.nodup).1 hb
    · rintro rfl
      exact hfresh (List.mem_cons_of_mem a hb)
  exact IsRing.rotate (show IsRing next' ((a :: x :: vs) ++ us) from hins)

/-- Unlinking the cell behind the first one. -/
theorem IsRing.erase {a x : α} {xs : List α} (h : IsRing next (a :: x :: xs))
    (han : next' a = next x) (hn : ∀ b ∈ xs, next' b = next b) : IsRing next' (a :: xs) := by
  obtain ⟨hd, -, hl⟩ := h
  refine ⟨hd.sublist (by simp), ?_⟩
  cases xs with
  | nil => exact han.trans hl
  | cons y ys => exact ⟨han.trans hl.1, hl.2.congr hn⟩

/-- Cutting a ring in two: the last cell of each part links back to its first. -/
theorem IsRing.cut {a b y z : α} {xs ys us vs : List α} (h : IsRing next (a :: xs ++ b :: ys))
    (hz : a :: xs = us ++ [z]) (hy : b :: ys = vs ++ [y]) (hnz : next' z = some a)
    (hny : next' y = some b) (hn : ∀ c ∈ us ++ vs, next' c = next c) :
    IsRing next' (a :: xs) ∧ IsRing next' (b :: ys) := by
  obtain ⟨hd, hl⟩ := h
  obtain ⟨h1, h2⟩ := links_append.mp hl
  obtain ⟨hd1, hd2, -⟩ := List.nodup_append.mp (show (a :: xs ++ b :: ys).Nodup from hd)
  refine ⟨⟨hd1, ?_⟩, ⟨hd2, ?_⟩⟩
  · exact h1.redirect hz hd1 hnz (fun d hd ↦ hn d (by simp [hd]))
  · exact h2.redirect hy hd2 hny (fun d hd ↦ hn d (by simp [hd]))

/-! ### Rings linked both ways -/

/-- The cells `c :: xs` form a ring along `next`, and along `prev` the same ring backwards. -/
structure IsDoubleRing (next prev : α → Option α) (c : α) (xs : List α) : Prop where
  next : IsRing next (c :: xs)
  prev : IsRing prev (c :: xs.reverse)

/-- The cell that `prev` leads to from the first one is the last one of the ring. -/
theorem IsDoubleRing.last {prev : α → Option α} {c z : α} {xs : List α}
    (h : IsDoubleRing next prev c xs) (hz : prev c = some z) :
    ∃ us, c :: xs = us ++ [z] ∧ next z = some c := by
  rcases List.eq_nil_or_concat xs with rfl | ⟨us, y, rfl⟩
  · have hc : prev c = some c := isRing_singleton.mp h.prev
    obtain rfl : c = z := Option.some.inj (hc.symm.trans hz)
    exact ⟨[], rfl, isRing_singleton.mp h.next⟩
  · rw [List.concat_eq_append] at h ⊢
    have hprev := h.prev
    rw [List.reverse_append, List.reverse_singleton, List.singleton_append] at hprev
    obtain rfl : y = z := Option.some.inj (hprev.2.1.symm.trans hz)
    exact ⟨c :: us, rfl, h.next.next_last⟩

/-- Linking a fresh cell in between the last one and the first one. -/
theorem IsDoubleRing.append {prev prev' : α → Option α} {c x z : α} {xs : List α}
    (h : IsDoubleRing next prev c xs) (hx : x ∉ c :: xs) (hz : prev c = some z)
    (hxn : next' x = some c) (hzn : next' z = some x) (hxp : prev' x = some z)
    (hcp : prev' c = some x) (hn : ∀ b, b ≠ x → b ≠ z → next' b = next b)
    (hp : ∀ b, b ≠ x → b ≠ c → prev' b = prev b) : IsDoubleRing next' prev' c (xs ++ [x]) := by
  have hne (b : α) (hb : b ∈ c :: xs) : b ≠ x := fun he ↦ hx (he ▸ hb)
  obtain ⟨us, hus, hzc⟩ := h.last hz
  refine ⟨?_, ?_⟩
  · have hring : IsRing next (z :: us) := by
      have hnext := h.next
      rw [hus] at hnext
      exact hnext.rotate
    have hmem (b : α) (hb : b ∈ us) : b ∈ c :: xs := by
      rw [hus]
      exact List.mem_append_left _ hb
    have hins : IsRing next' (z :: x :: us) := by
      refine hring.insert ?_ (hxn.trans hzc.symm) hzn ?_
      · rw [hus] at hx
        simpa [or_comm] using hx
      · rintro b hb
        refine hn b (hne b (hmem b hb)) ?_
        rintro rfl
        exact (List.nodup_cons.mp hring.nodup).1 hb
    rw [← List.cons_append, hus, List.append_assoc]
    exact IsRing.rotate (show IsRing next' ([z, x] ++ us) from hins)
  · rw [List.reverse_append, List.reverse_singleton, List.singleton_append]
    refine h.prev.insert (by simpa using hx) (hxp.trans hz.symm) hcp ?_
    intro b hb
    refine hp b (hne b ?_) ?_
    · exact List.mem_cons_of_mem c (List.mem_reverse.mp hb)
    · rintro rfl
      exact (List.nodup_cons.mp h.prev.nodup).1 hb

/-- Only the links of the ring's own cells matter. -/
theorem IsDoubleRing.congr {prev prev' : α → Option α} {c : α} {xs : List α}
    (h : IsDoubleRing next prev c xs) (hn : ∀ a ∈ c :: xs, next' a = next a ∧ prev' a = prev a) :
    IsDoubleRing next' prev' c xs := by
  refine ⟨h.next.congr (fun a ha ↦ (hn a ha).1), h.prev.congr (fun a ha ↦ (hn a ?_).2)⟩
  simpa using ha

end Jeopardy.Rings
