import Jeopardy.Lib.Ring

/-!
# Circular singly linked lists

The rings that a successor function links, as a family of duplicate-free lists, and the
operations of a plain circular list: a cell is linked in behind another one, unlinked, or
moved. Each redirects two or three links, and on the family it inserts or erases one cell.
-/

namespace Jeopardy.Rings

variable {α : Type*} {next next' : α → Option α} {rs : List (List α)} {r xs : List α}
  {a p q e x : α}

/-- The lists of `rs` are rings of `next` without a common cell. -/
structure AreRings (next : α → Option α) (rs : List (List α)) : Prop where
  disjoint : rs.Pairwise List.Disjoint
  ring : ∀ r ∈ rs, IsRing next r

theorem AreRings.eq_of_mem {r' : List α} (h : AreRings next rs) (hr : r ∈ rs) (hr' : r' ∈ rs)
    (ha : a ∈ r) (ha' : a ∈ r') : r = r' := by
  have hsymm : Std.Symm (List.Disjoint (α := α)) := ⟨fun _ _ hd ↦ hd.symm⟩
  by_contra hne
  exact h.disjoint.forall hr hr' hne ha ha'

theorem AreRings.mem_of_next (h : AreRings next rs) (hr : r ∈ rs) (he : e ∈ r)
    (hp : p ∈ rs.flatten) (hpe : next p = some e) : p ∈ r := by
  obtain ⟨r', hr', hpr⟩ := List.mem_flatten.mp hp
  obtain ⟨e', he', hpe'⟩ := (h.ring r' hr').next_mem hpr
  obtain rfl : e' = e := Option.some.inj (hpe'.symm.trans hpe)
  exact h.eq_of_mem hr' hr he' he ▸ hpr

/-- A cell links to itself exactly if it is alone on its ring. -/
theorem AreRings.next_self_iff (h : AreRings next rs) (hx : x ∈ rs.flatten) :
    next x = some x ↔ [x] ∈ rs := by
  constructor
  · intro hn
    obtain ⟨r, hr, hxr⟩ := List.mem_flatten.mp hx
    obtain ⟨us, vs, rfl⟩ := List.append_of_mem hxr
    have hrot : IsRing next (x :: (vs ++ us)) := (h.ring _ hr).rotate
    have hnil : vs ++ us = [] := hrot.unique (isRing_singleton.mpr hn)
    obtain ⟨rfl, rfl⟩ := List.append_eq_nil_iff.mp hnil
    exact hr
  · intro hr
    exact isRing_singleton.mp (h.ring _ hr)

theorem AreRings.cons_singleton (h : AreRings next rs) (hx : x ∉ rs.flatten)
    (hn : next x = some x) : AreRings next ([x] :: rs) where
  disjoint := by
    refine List.pairwise_cons.mpr ⟨?_, h.disjoint⟩
    intro r hr a ha har
    rw [List.mem_singleton.mp ha] at har
    exact hx (List.mem_flatten.mpr ⟨r, hr, har⟩)
  ring r hr := by
    rcases List.mem_cons.mp hr with rfl | hr
    · exact isRing_singleton.mpr hn
    · exact h.ring r hr

section Lists

variable [DecidableEq α]

/-! ### Insertion -/

/-- The list with `x` put behind `p`. -/
def insertAfter (p x : α) : List α → List α
  | [] => []
  | a :: as => if a = p then a :: x :: as else a :: insertAfter p x as

theorem insertAfter_of_notMem (h : p ∉ xs) : insertAfter p x xs = xs := by
  induction xs with
  | nil => rfl
  | cons a as ih =>
    rw [List.mem_cons, not_or] at h
    rw [insertAfter, if_neg (Ne.symm h.1), ih h.2]

theorem insertAfter_append {us vs : List α} (h : p ∉ us) :
    insertAfter p x (us ++ p :: vs) = us ++ p :: x :: vs := by
  induction us with
  | nil => exact if_pos rfl
  | cons a us ih =>
    rw [List.mem_cons, not_or] at h
    rw [List.cons_append, insertAfter, if_neg (Ne.symm h.1), ih h.2, List.cons_append]

theorem mem_insertAfter (h : a ∈ insertAfter p x xs) : a ∈ xs ∨ a = x ∧ p ∈ xs := by
  by_cases hp : p ∈ xs
  · obtain ⟨us, vs, rfl, hus⟩ := List.eq_append_cons_of_mem hp
    rw [insertAfter_append hus] at h
    simp only [List.mem_append, List.mem_cons] at h ⊢
    tauto
  · rw [insertAfter_of_notMem hp] at h
    exact Or.inl h

/-- Linking a fresh cell in behind any cell of a ring. -/
theorem IsRing.insertAfter (h : IsRing next xs) (hp : p ∈ xs) (hx : x ∉ xs)
    (hxn : next' x = next p) (hpn : next' p = some x)
    (hn : ∀ b, b ≠ p → b ≠ x → next' b = next b) : IsRing next' (insertAfter p x xs) := by
  obtain ⟨us, vs, rfl, hus⟩ := List.eq_append_cons_of_mem hp
  rw [insertAfter_append hus]
  exact h.insert_behind hx hxn hpn hn

theorem AreRings.insertAfter (h : AreRings next rs) (hx : x ∉ rs.flatten)
    (hxn : next' x = next p) (hpn : next' p = some x)
    (hn : ∀ b, b ≠ p → b ≠ x → next' b = next b) :
    AreRings next' (rs.map (insertAfter p x)) where
  disjoint := by
    rw [List.pairwise_map]
    refine h.disjoint.imp_of_mem ?_
    intro r r' hr hr' hd a ha ha'
    have hxr : x ∉ r := fun hm ↦ hx (List.mem_flatten.mpr ⟨r, hr, hm⟩)
    have hxr' : x ∉ r' := fun hm ↦ hx (List.mem_flatten.mpr ⟨r', hr', hm⟩)
    rcases mem_insertAfter ha with ha | ⟨hax, hp⟩
    · rcases mem_insertAfter ha' with ha' | ⟨hax, -⟩
      · exact hd ha ha'
      · exact hxr (hax ▸ ha)
    · rcases mem_insertAfter ha' with ha' | ⟨-, hp'⟩
      · exact hxr' (hax ▸ ha')
      · exact hd hp hp'
  ring r' hr' := by
    obtain ⟨r, hr, rfl⟩ := List.mem_map.mp hr'
    have hxr : x ∉ r := fun hm ↦ hx (List.mem_flatten.mpr ⟨r, hr, hm⟩)
    by_cases hp : p ∈ r
    · exact (h.ring r hr).insertAfter hp hxr hxn hpn hn
    · rw [insertAfter_of_notMem hp]
      refine (h.ring r hr).congr (fun b hb ↦ hn b ?_ ?_)
      · rintro rfl
        exact hp hb
      · rintro rfl
        exact hxr hb

/-! ### Erasure -/

/-- Unlinking any cell of a ring, or emptying a ring of one cell. -/
theorem IsRing.erase_of_next (h : IsRing next xs) (hp : p ∈ xs) (hpe : next p = some e)
    (hpn : p ≠ e → next' p = next e) (hn : ∀ b, b ≠ p → b ≠ e → next' b = next b) :
    IsRing next' (xs.erase e) := by
  obtain ⟨us, vs, rfl, hus⟩ := List.eq_append_cons_of_mem hp
  have hrot : IsRing next (p :: (vs ++ us)) := h.rotate
  have hkeep {ws : List α} (hd : (p :: e :: ws).Nodup) : ∀ b ∈ ws, next' b = next b := by
    intro b hb
    refine hn b ?_ ?_
    · rintro rfl
      exact (List.nodup_cons.mp hd).1 (List.mem_cons_of_mem e hb)
    · rintro rfl
      exact (List.nodup_cons.mp (List.nodup_cons.mp hd).2).1 hb
  cases vs with
  | cons v vs =>
    obtain rfl : v = e := Option.some.inj (hrot.2.1.symm.trans hpe)
    have hne : p ≠ v := by
      rintro rfl
      exact (List.nodup_cons.mp hrot.nodup).1 (by simp)
    have hvu : v ∉ us := by
      have hd := h.nodup
      rw [List.nodup_append] at hd
      intro hv
      exact hd.2.2 v hv v (by simp) rfl
    have hdel : IsRing next' (p :: (vs ++ us)) := hrot.erase (hpn hne) (hkeep hrot.nodup)
    rw [List.erase_append_right _ hvu, List.erase_cons_tail (by simpa using hne),
      List.erase_cons_head]
    exact IsRing.rotate (show IsRing next' ((p :: vs) ++ us) from hdel)
  | nil =>
    cases us with
    | nil =>
      obtain rfl : p = e := Option.some.inj ((isRing_singleton.mp h).symm.trans hpe)
      simpa using isRing_nil
    | cons u us =>
      obtain rfl : u = e := Option.some.inj (hrot.2.1.symm.trans hpe)
      have hne : p ≠ u := by
        rintro rfl
        exact hus (by simp)
      have hdel : IsRing next' (p :: us) := hrot.erase (hpn hne) (hkeep hrot.nodup)
      rw [List.cons_append, List.erase_cons_head]
      exact IsRing.rotate (show IsRing next' ([p] ++ us) from hdel)

theorem AreRings.erase (h : AreRings next rs) (hp : p ∈ rs.flatten) (hpe : next p = some e)
    (hpn : p ≠ e → next' p = next e) (hn : ∀ b, b ≠ p → b ≠ e → next' b = next b) :
    AreRings next' (rs.map (·.erase e)) where
  disjoint := by
    rw [List.pairwise_map]
    refine h.disjoint.imp ?_
    intro r r' hd a ha ha'
    exact hd (List.mem_of_mem_erase ha) (List.mem_of_mem_erase ha')
  ring r' hr' := by
    obtain ⟨r, hr, rfl⟩ := List.mem_map.mp hr'
    by_cases hpr : p ∈ r
    · exact (h.ring r hr).erase_of_next hpr hpe hpn hn
    · have her : e ∉ r := fun he ↦ hpr (h.mem_of_next hr he hp hpe)
      rw [List.erase_of_not_mem her]
      refine (h.ring r hr).congr (fun b hb ↦ hn b ?_ ?_)
      · rintro rfl
        exact hpr hb
      · rintro rfl
        exact her hb

theorem AreRings.notMem_erase (h : AreRings next rs) : e ∉ (rs.map (·.erase e)).flatten := by
  intro he
  obtain ⟨r', hr', her⟩ := List.mem_flatten.mp he
  obtain ⟨r, hr, rfl⟩ := List.mem_map.mp hr'
  exact (h.ring r hr).nodup.not_mem_erase her

/-! ### The plain list -/

/-- Link `x` in behind `p`. -/
def linkIn (next : α → Option α) (x p : α) : α → Option α :=
  Function.update (Function.update next x (next p)) p (some x)

/-- Unlink `e`, to which `p` links, and leave the link `z` in it. -/
def unlink (next : α → Option α) (p e : α) (z : Option α) : α → Option α :=
  Function.update (Function.update next p (next e)) e z

/-- Unlink `e`, to which `p` links, and link it in behind `q`. -/
def moveBehind (next : α → Option α) (p e q : α) : α → Option α :=
  linkIn (Function.update next p (next e)) e q

theorem AreRings.linkIn (h : AreRings next rs) (hp : p ∈ rs.flatten) (hx : x ∉ rs.flatten) :
    AreRings (linkIn next x p) (rs.map (Rings.insertAfter p x)) := by
  have hne : x ≠ p := by
    rintro rfl
    exact hx hp
  refine h.insertAfter hx ?_ ?_ ?_
  · rw [Rings.linkIn, Function.update_of_ne hne, Function.update_self]
  · rw [Rings.linkIn, Function.update_self]
  · intro b hbp hbx
    rw [Rings.linkIn, Function.update_of_ne hbp, Function.update_of_ne hbx]

theorem AreRings.unlink (h : AreRings next rs) (hp : p ∈ rs.flatten) (hpe : next p = some e)
    (z : Option α) : AreRings (unlink next p e z) (rs.map (·.erase e)) := by
  refine h.erase hp hpe ?_ ?_
  · intro hne
    rw [Rings.unlink, Function.update_of_ne hne, Function.update_self]
  · intro b hbp hbe
    rw [Rings.unlink, Function.update_of_ne hbe, Function.update_of_ne hbp]

/-- An unlinked cell that links to itself is a ring of its own. -/
theorem AreRings.unlink_self (h : AreRings next rs) (hp : p ∈ rs.flatten)
    (hpe : next p = some e) :
    AreRings (Rings.unlink next p e (some e)) ([e] :: rs.map (·.erase e)) :=
  (h.unlink hp hpe (some e)).cons_singleton h.notMem_erase (Function.update_self _ _ _)

theorem AreRings.moveBehind (h : AreRings next rs) (hp : p ∈ rs.flatten) (hpe : next p = some e)
    (hq : q ∈ rs.flatten) (hqe : q ≠ e) :
    AreRings (moveBehind next p e q) ((rs.map (·.erase e)).map (Rings.insertAfter q e)) := by
  have herase : AreRings (Function.update next p (next e)) (rs.map (·.erase e)) := by
    refine h.erase hp hpe (fun _ ↦ Function.update_self _ _ _) ?_
    intro b hbp _
    exact Function.update_of_ne hbp _ _
  refine herase.linkIn ?_ h.notMem_erase
  obtain ⟨r, hr, hqr⟩ := List.mem_flatten.mp hq
  exact List.mem_flatten.mpr ⟨r.erase e, List.mem_map_of_mem hr,
    (List.mem_erase_of_ne hqe).mpr hqr⟩

end Lists

end Jeopardy.Rings
