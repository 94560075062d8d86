import Jeopardy.Lib.Circular

/-!
# Circular lists linked both ways

A family of rings of `next` whose links `prev` undoes. The surgeries are those of the singly
linked lists along `next`; `prev` follows cell by cell, since no two cells link to the same one.
A list may also be spliced into another one as a whole.
-/

namespace Jeopardy.Rings

variable {α : Type*} {next prev next' prev' : α → Option α} {rs : List (List α)} {r xs : List α}
  {a b e f l p q x y z : α}

/-- The lists of `rs` are rings of `next` without a common cell, and `prev` leads back. -/
structure AreLinked (next prev : α → Option α) (rs : List (List α)) : Prop where
  rings : AreRings next rs
  back : ∀ a ∈ rs.flatten, ∀ b, next a = some b → prev b = some a

/-! ### Predecessors -/

theorem AreRings.next_mem (h : AreRings next rs) (ha : a ∈ rs.flatten) :
    ∃ b ∈ rs.flatten, next a = some b := by
  obtain ⟨r, hr, har⟩ := List.mem_flatten.mp ha
  obtain ⟨b, hb, hab⟩ := (h.ring r hr).next_mem har
  exact ⟨b, List.mem_flatten.mpr ⟨r, hr, hb⟩, hab⟩

/-- No two cells of the family link to the same cell. -/
theorem AreRings.next_inj (h : AreRings next rs) (ha : a ∈ rs.flatten) (hb : b ∈ rs.flatten)
    (he : next a = next b) : a = b := by
  obtain ⟨r, hr, har⟩ := List.mem_flatten.mp ha
  obtain ⟨c, hc, hac⟩ := (h.ring r hr).next_mem har
  exact (h.ring r hr).next_inj har (h.mem_of_next hr hc hb (he ▸ hac)) he

/-- Every cell of a ring is linked to from a cell of the ring. -/
theorem IsRing.exists_pred (h : IsRing next xs) (hb : b ∈ xs) : ∃ a ∈ xs, next a = some b := by
  obtain ⟨us, vs, rfl⟩ := List.append_of_mem hb
  have hrot : IsRing next (b :: (vs ++ us)) := h.rotate
  rcases List.eq_nil_or_concat (vs ++ us) with hnil | ⟨ws, c, hws⟩
  · rw [hnil] at hrot
    exact ⟨b, hb, isRing_singleton.mp hrot⟩
  · have hc : c ∈ vs ++ us := by rw [hws]; simp
    rw [hws, List.concat_eq_append] at hrot
    refine ⟨c, ?_, hrot.next_last⟩
    simp only [List.mem_append, List.mem_cons] at hc ⊢
    tauto

theorem AreLinked.exists_pred (h : AreLinked next prev rs) (hb : b ∈ rs.flatten) :
    ∃ a ∈ rs.flatten, next a = some b ∧ prev b = some a := by
  obtain ⟨r, hr, hbr⟩ := List.mem_flatten.mp hb
  obtain ⟨a, ha, hab⟩ := (h.rings.ring r hr).exists_pred hbr
  have hmem : a ∈ rs.flatten := List.mem_flatten.mpr ⟨r, hr, ha⟩
  exact ⟨a, hmem, hab, h.back a hmem b hab⟩

theorem AreLinked.next_of_prev (h : AreLinked next prev rs) (hb : b ∈ rs.flatten)
    (hp : prev b = some a) : a ∈ rs.flatten ∧ next a = some b := by
  obtain ⟨c, hc, hcb, hpb⟩ := h.exists_pred hb
  obtain rfl : c = a := Option.some.inj (hpb.symm.trans hp)
  exact ⟨hc, hcb⟩

/-- A walk along `next`, read backwards. -/
theorem Links.reverse (h : Links next a xs b)
    (hback : ∀ c ∈ a :: xs, ∀ d, next c = some d → prev d = some c) :
    Links prev b xs.reverse a := by
  induction xs generalizing a with
  | nil => exact hback a (List.mem_singleton_self a) b h
  | cons x xs ih =>
    rw [List.reverse_cons, links_append]
    exact ⟨ih h.2 (fun c hc ↦ hback c (List.mem_cons_of_mem a hc)),
      hback a List.mem_cons_self x h.1⟩

/-- A ring read from its first cell forwards and backwards. -/
theorem AreLinked.doubleRing (h : AreLinked next prev rs) (hr : a :: xs ∈ rs) :
    IsDoubleRing next prev a xs := by
  have hring := h.rings.ring _ hr
  refine ⟨hring, List.nodup_cons.mpr ⟨?_, ?_⟩, ?_⟩
  · rw [List.mem_reverse]
    exact (List.nodup_cons.mp hring.nodup).1
  · exact List.nodup_reverse.mpr (List.nodup_cons.mp hring.nodup).2
  · exact hring.2.reverse (fun c hc ↦ h.back c (List.mem_flatten.mpr ⟨_, hr, hc⟩))

theorem AreLinked.cons_singleton (h : AreLinked next prev rs) (hx : x ∉ rs.flatten)
    (hn : next x = some x) (hp : prev x = some x) : AreLinked next prev ([x] :: rs) where
  rings := h.rings.cons_singleton hx hn
  back a ha b hab := by
    rw [List.flatten_cons, List.mem_append, List.mem_singleton] at ha
    rcases ha with rfl | ha
    · obtain rfl : a = b := Option.some.inj (hn.symm.trans hab)
      exact hp
    · exact h.back a ha b hab

/-- Only the links of the cells of the family matter. -/
theorem AreLinked.congr (h : AreLinked next prev rs) (hn : ∀ a ∈ rs.flatten, next' a = next a)
    (hp : ∀ a ∈ rs.flatten, prev' a = prev a) : AreLinked next' prev' rs where
  rings := ⟨h.rings.disjoint, fun r hr ↦ (h.rings.ring r hr).congr
    (fun a ha ↦ hn a (List.mem_flatten.mpr ⟨r, hr, ha⟩))⟩
  back a ha b hab := by
    rw [hn a ha] at hab
    obtain ⟨c, hc, hac⟩ := h.rings.next_mem ha
    obtain rfl : c = b := Option.some.inj (hac.symm.trans hab)
    rw [hp c hc]
    exact h.back a ha c hab

section Lists

variable [DecidableEq α]

/-- The links of a cell outside the family do not matter. -/
theorem AreLinked.update_of_notMem (h : AreLinked next prev rs) (he : e ∉ rs.flatten)
    (u v : Option α) : AreLinked (Function.update next e u) (Function.update prev e v) rs :=
  h.congr (fun a ha ↦ Function.update_of_ne (fun heq : a = e ↦ he (heq ▸ ha)) _ _)
    (fun a ha ↦ Function.update_of_ne (fun heq : a = e ↦ he (heq ▸ ha)) _ _)

theorem mem_flatten_erase (hp : p ∈ rs.flatten) (hpe : p ≠ e) :
    p ∈ (rs.map (·.erase e)).flatten := by
  obtain ⟨r, hr, hpr⟩ := List.mem_flatten.mp hp
  exact List.mem_flatten.mpr ⟨r.erase e, List.mem_map_of_mem hr,
    (List.mem_erase_of_ne hpe).mpr hpr⟩

/-! ### Insertion behind and in front of a cell -/

/-- Linking a fresh cell `x` in between `p` and the next cell `q`. -/
theorem AreLinked.insertAfter (h : AreLinked next prev rs) (hp : p ∈ rs.flatten)
    (hx : x ∉ rs.flatten) (hpq : next p = some q) (hxn : next' x = some q)
    (hpn : next' p = some x) (hn : ∀ c, c ≠ p → c ≠ x → next' c = next c)
    (hxp : prev' x = some p) (hqp : prev' q = some x)
    (hb : ∀ c, c ≠ q → c ≠ x → prev' c = prev c) :
    AreLinked next' prev' (rs.map (insertAfter p x)) where
  rings := h.rings.insertAfter hx (hxn.trans hpq.symm) hpn hn
  back a ha b hab := by
    have ha' : a ∈ rs.flatten ∨ a = x := by
      obtain ⟨r', hr', har⟩ := List.mem_flatten.mp ha
      obtain ⟨r, hr, rfl⟩ := List.mem_map.mp hr'
      exact (mem_insertAfter har).imp (fun har ↦ List.mem_flatten.mpr ⟨r, hr, har⟩) And.left
    by_cases hap : a = p
    · subst hap
      obtain rfl : x = b := Option.some.inj (hpn.symm.trans hab)
      exact hxp
    · by_cases hax : a = x
      · subst hax
        obtain rfl : q = b := Option.some.inj (hxn.symm.trans hab)
        exact hqp
      · have ha := ha'.resolve_right hax
        rw [hn a hap hax] at hab
        obtain ⟨c, hc, hac⟩ := h.rings.next_mem ha
        obtain rfl : c = b := Option.some.inj (hac.symm.trans hab)
        rw [hb c ?_ ?_]
        · exact h.back a ha c hab
        · rintro rfl
          exact hap (h.rings.next_inj ha hp (hab.trans hpq.symm))
        · rintro rfl
          exact hx hc

/-- The list with `x` put in front of `p`. -/
def insertInFront (p x : α) : List α → List α
  | [] => []
  | a :: as => if a = p then x :: a :: as else a :: insertInFront p x as

/-- The circular list with `x` put in front of `p`; it begins with the same cell. -/
def insertBefore (p x : α) : List α → List α
  | [] => []
  | a :: as => if a = p then a :: as ++ [x] else a :: insertInFront p x as

theorem insertInFront_of_notMem (h : p ∉ xs) : insertInFront p x xs = xs := by
  induction xs with
  | nil => rfl
  | cons a as ih =>
    rw [List.mem_cons, not_or] at h
    rw [insertInFront, if_neg (Ne.symm h.1), ih h.2]

theorem insertInFront_append {us vs : List α} (h : p ∉ us) :
    insertInFront p x (us ++ p :: vs) = us ++ x :: p :: vs := by
  induction us with
  | nil => exact if_pos rfl
  | cons a us ih =>
    rw [List.mem_cons, not_or] at h
    rw [List.cons_append, insertInFront, if_neg (Ne.symm h.1), ih h.2, List.cons_append]

theorem insertBefore_of_notMem (h : p ∉ xs) : insertBefore p x xs = xs := by
  cases xs with
  | nil => rfl
  | cons a as =>
    rw [List.mem_cons, not_or] at h
    rw [insertBefore, if_neg (Ne.symm h.1), insertInFront_of_notMem h.2]

/-- In front of a cell is behind the cell that links to it. -/
theorem IsRing.insertAfter_pred (h : IsRing next xs) (hz : z ∈ xs) (hzp : next z = some p) :
    Rings.insertAfter z x xs = insertBefore p x xs := by
  obtain ⟨us, vs, rfl, hus⟩ := List.eq_append_cons_of_mem hz
  rw [insertAfter_append hus]
  have hrot : IsRing next (z :: (vs ++ us)) := h.rotate
  cases vs with
  | cons v vs =>
    obtain rfl : v = p := Option.some.inj (hrot.2.1.symm.trans hzp)
    have hvu : v ∉ us ++ [z] := by
      have hd := h.nodup
      rw [List.append_cons, List.nodup_append] at hd
      exact fun hv ↦ hd.2.2 v hv v List.mem_cons_self rfl
    cases us with
    | nil =>
      have hne : z ≠ v := fun he ↦ hvu (he ▸ List.mem_singleton_self z)
      rw [List.nil_append, List.nil_append, insertBefore, if_neg hne, insertInFront, if_pos rfl]
    | cons u us =>
      rw [List.cons_append, List.mem_cons, not_or] at hvu
      rw [List.cons_append, List.cons_append, insertBefore, if_neg (Ne.symm hvu.1),
        List.append_cons us z (x :: v :: vs), List.append_cons us z (v :: vs),
        insertInFront_append hvu.2]
  | nil =>
    cases us with
    | nil =>
      obtain rfl : z = p := Option.some.inj ((isRing_singleton.mp h).symm.trans hzp)
      rw [List.nil_append, List.nil_append, insertBefore, if_pos rfl]
      rfl
    | cons u us =>
      obtain rfl : u = p := Option.some.inj (hrot.2.1.symm.trans hzp)
      rw [List.cons_append, List.cons_append, insertBefore, if_pos rfl]
      simp

/-- Linking a fresh cell `x` in between the cell `z` that links to `p`, and `p`. -/
theorem AreLinked.insertBefore (h : AreLinked next prev rs) (hz : z ∈ rs.flatten)
    (hx : x ∉ rs.flatten) (hzp : next z = some p) (hxn : next' x = some p)
    (hzn : next' z = some x) (hn : ∀ c, c ≠ z → c ≠ x → next' c = next c)
    (hxp : prev' x = some z) (hpp : prev' p = some x)
    (hb : ∀ c, c ≠ p → c ≠ x → prev' c = prev c) :
    AreLinked next' prev' (rs.map (insertBefore p x)) := by
  have hmap : rs.map (Rings.insertBefore p x) = rs.map (Rings.insertAfter z x) := by
    refine List.map_congr_left (fun r hr ↦ ?_)
    by_cases hzr : z ∈ r
    · exact ((h.rings.ring r hr).insertAfter_pred hzr hzp).symm
    · have hpr : p ∉ r := fun hp ↦ hzr (h.rings.mem_of_next hr hp hz hzp)
      rw [insertAfter_of_notMem hzr, insertBefore_of_notMem hpr]
  rw [hmap]
  exact h.insertAfter hz hx hzp hxn hzn hn hxp hpp hb

/-! ### Erasure -/

/-- Unlinking `e` from between `z` and `y`. -/
theorem AreLinked.erase (h : AreLinked next prev rs) (hz : z ∈ rs.flatten)
    (hze : next z = some e) (hey : next e = some y) (hzn : z ≠ e → next' z = some y)
    (hn : ∀ c, c ≠ z → c ≠ e → next' c = next c) (hyp : y ≠ e → prev' y = some z)
    (hb : ∀ c, c ≠ y → c ≠ e → prev' c = prev c) :
    AreLinked next' prev' (rs.map (·.erase e)) where
  rings := h.rings.erase hz hze (fun hne ↦ (hzn hne).trans hey.symm) hn
  back a ha b hab := by
    have he : e ∈ rs.flatten := by
      obtain ⟨c, hc, hzc⟩ := h.rings.next_mem hz
      obtain rfl : c = e := Option.some.inj (hzc.symm.trans hze)
      exact hc
    have hae : a ≠ e := by
      rintro rfl
      exact h.rings.notMem_erase ha
    have hold : a ∈ rs.flatten := by
      obtain ⟨r', hr', har⟩ := List.mem_flatten.mp ha
      obtain ⟨r, hr, rfl⟩ := List.mem_map.mp hr'
      exact List.mem_flatten.mpr ⟨r, hr, List.mem_of_mem_erase har⟩
    by_cases haz : a = z
    · subst haz
      obtain rfl : y = b := Option.some.inj ((hzn hae).symm.trans hab)
      refine hyp ?_
      rintro rfl
      exact hae (h.rings.next_inj hold he (hze.trans hey.symm))
    · rw [hn a haz hae] at hab
      rw [hb b ?_ ?_]
      · exact h.back a hold b hab
      · rintro rfl
        exact hae (h.rings.next_inj hold he (hab.trans hey.symm))
      · rintro rfl
        exact haz (h.rings.next_inj hold hz (hab.trans hze.symm))

/-! ### Splicing -/

/-- The list with `xs` put behind `p`. -/
def spliceAfter (p : α) (xs : List α) : List α → List α
  | [] => []
  | a :: as => if a = p then a :: (xs ++ as) else a :: spliceAfter p xs as

theorem spliceAfter_of_notMem (h : p ∉ r) : spliceAfter p xs r = r := by
  induction r with
  | nil => rfl
  | cons a as ih =>
    rw [List.mem_cons, not_or] at h
    rw [spliceAfter, if_neg (Ne.symm h.1), ih h.2]

theorem spliceAfter_append {us vs : List α} (h : p ∉ us) :
    spliceAfter p xs (us ++ p :: vs) = us ++ p :: (xs ++ vs) := by
  induction us with
  | nil => exact if_pos rfl
  | cons a us ih =>
    rw [List.mem_cons, not_or] at h
    rw [List.cons_append, spliceAfter, if_neg (Ne.symm h.1), ih h.2, List.cons_append]

theorem mem_spliceAfter (h : a ∈ spliceAfter p xs r) : a ∈ r ∨ a ∈ xs ∧ p ∈ r := by
  by_cases hp : p ∈ r
  · obtain ⟨us, vs, rfl, hus⟩ := List.eq_append_cons_of_mem hp
    rw [spliceAfter_append hus] at h
    simp only [List.mem_append, List.mem_cons] at h ⊢
    tauto
  · rw [spliceAfter_of_notMem hp] at h
    exact .inl h

/-- The cells behind the first cell `l` of one ring put behind the cell `p` of another. -/
theorem IsRing.spliceAfter (h : IsRing next r) (hl : IsRing next (l :: xs)) (hp : p ∈ r)
    (hd : r.Disjoint (l :: xs)) (hf : xs.head? = some f) (hz : xs.getLast? = some z)
    (hpn : next' p = some f) (hzn : next' z = next p)
    (hn : ∀ c, c ≠ p → c ≠ z → c ≠ l → next' c = next c) :
    IsRing next' (Rings.spliceAfter p xs r) := by
  obtain ⟨us, vs, rfl, hus⟩ := List.eq_append_cons_of_mem hp
  have hrot : IsRing next (p :: (vs ++ us)) := h.rotate
  obtain ⟨ws, rfl⟩ := List.getLast?_eq_some_iff.mp hz
  have hdis : ∀ c ∈ p :: (vs ++ us), c ∉ l :: (ws ++ [z]) := by
    intro c hc
    refine fun hc' ↦ hd ?_ hc'
    simp only [List.mem_append, List.mem_cons] at hc ⊢
    tauto
  -- the walk from the first spliced cell now ends where `p` linked to
  obtain ⟨ts, hts⟩ := List.head?_eq_some_iff.mp hf
  have hwalk : ∀ c, next p = some c → Links next' f ts c := by
    intro c hc
    have hnodup := (List.nodup_cons.mp hl.nodup)
    have hlinks := hl.2
    rw [hts] at hlinks hnodup
    have hmem : ∀ d ∈ ws, d ∈ l :: (ws ++ [z]) := fun d hd ↦
      List.mem_cons_of_mem l (List.mem_append_left _ hd)
    refine hlinks.2.redirect hts.symm hnodup.2 (hzn.trans hc) (fun d hdw ↦ hn d ?_ ?_ ?_)
    · rintro rfl
      exact hdis d List.mem_cons_self (hmem d hdw)
    · rintro rfl
      rw [← hts, List.nodup_append] at hnodup
      exact hnodup.2.2.2 d hdw d (List.mem_singleton_self d) rfl
    · rintro rfl
      rw [← hts] at hnodup
      exact hnodup.1 (List.mem_append_left _ hdw)
  have hkeep : ∀ c ∈ vs ++ us, next' c = next c := by
    intro c hc
    have hcl := hdis c (List.mem_cons_of_mem p hc)
    refine hn c ?_ ?_ ?_
    · rintro rfl
      exact (List.nodup_cons.mp hrot.nodup).1 hc
    · rintro rfl
      exact hcl (by simp)
    · rintro rfl
      exact hcl List.mem_cons_self
  have hnew : IsRing next' (p :: ((ws ++ [z]) ++ (vs ++ us))) := by
    refine ⟨?_, ?_⟩
    · have hperm : (p :: ((ws ++ [z]) ++ (vs ++ us))).Perm ((p :: (vs ++ us)) ++ (ws ++ [z])) :=
        (List.perm_append_comm).cons p
      rw [hperm.nodup_iff, List.nodup_append]
      refine ⟨hrot.nodup, (List.nodup_cons.mp hl.nodup).2, fun c hc d hd' he ↦ ?_⟩
      subst he
      exact hdis c hc (List.mem_cons_of_mem l hd')
    · rw [hts]
      cases hvu : vs ++ us with
      | nil =>
        rw [hvu] at hrot
        rw [List.append_nil]
        exact ⟨hpn, hwalk p (isRing_singleton.mp hrot)⟩
      | cons w rest =>
        rw [hvu] at hrot hkeep
        refine ⟨hpn, links_append.mpr ⟨hwalk w hrot.2.1, hrot.2.2.congr hkeep⟩⟩
  rw [spliceAfter_append hus]
  have hback : IsRing next' ((p :: ((ws ++ [z]) ++ vs)) ++ us) := by
    rw [List.cons_append, List.append_assoc]
    exact hnew
  exact hback.rotate

/-- A ring shares no cell with the others. -/
theorem AreRings.disjoint_of_mem_erase {r' : List α} (h : AreRings next rs) (hr : r ∈ rs)
    (hr' : r' ∈ rs.erase r) : r'.Disjoint r := by
  have hpair := h.disjoint
  rw [(List.perm_cons_erase hr).pairwise_iff (fun hd ↦ hd.symm)] at hpair
  exact ((List.pairwise_cons.mp hpair).1 r' hr').symm

/-- A splice brings no new cells. -/
theorem mem_flatten_splice (hl : l :: xs ∈ rs)
    (ha : a ∈ ((rs.erase (l :: xs)).map (spliceAfter p xs)).flatten) : a ∈ rs.flatten := by
  obtain ⟨r', hr', har⟩ := List.mem_flatten.mp ha
  obtain ⟨r, hr, rfl⟩ := List.mem_map.mp hr'
  rcases mem_spliceAfter har with har | ⟨hax, -⟩
  · exact List.mem_flatten.mpr ⟨r, List.mem_of_mem_erase hr, har⟩
  · exact List.mem_flatten.mpr ⟨_, hl, List.mem_cons_of_mem l hax⟩

/-- The cell that a splice leaves behind is in none of the rings. -/
theorem AreRings.notMem_splice (h : AreRings next rs) (hl : l :: xs ∈ rs) :
    l ∉ ((rs.erase (l :: xs)).map (spliceAfter p xs)).flatten := by
  intro hm
  obtain ⟨r', hr', hlr⟩ := List.mem_flatten.mp hm
  obtain ⟨r, hr, rfl⟩ := List.mem_map.mp hr'
  rcases mem_spliceAfter hlr with hlr | ⟨hlx, -⟩
  · exact h.disjoint_of_mem_erase hl hr hlr List.mem_cons_self
  · exact (List.nodup_cons.mp (h.ring _ hl).nodup).1 hlx

/-- The cells behind the first cell `l` of a ring put behind the cell `p` of another ring. -/
theorem AreRings.splice (h : AreRings next rs) (hl : l :: xs ∈ rs) (hf : xs.head? = some f)
    (hz : xs.getLast? = some z) (hpn : next' p = some f) (hzn : next' z = next p)
    (hn : ∀ c, c ≠ p → c ≠ z → c ≠ l → next' c = next c) :
    AreRings next' ((rs.erase (l :: xs)).map (spliceAfter p xs)) := by
  have hdis {r : List α} (hr : r ∈ rs.erase (l :: xs)) : r.Disjoint (l :: xs) :=
    h.disjoint_of_mem_erase hl hr
  refine ⟨?_, fun r' hr' ↦ ?_⟩
  · rw [List.pairwise_map]
    refine (h.disjoint.sublist List.erase_sublist).imp_of_mem ?_
    intro r r' hr hr' hd a ha ha'
    rcases mem_spliceAfter ha with ha | ⟨hax, hpr⟩
    · rcases mem_spliceAfter ha' with ha' | ⟨hax, -⟩
      · exact hd ha ha'
      · exact hdis hr ha (List.mem_cons_of_mem l hax)
    · rcases mem_spliceAfter ha' with ha' | ⟨-, hpr'⟩
      · exact hdis hr' ha' (List.mem_cons_of_mem l hax)
      · exact hd hpr hpr'
  · obtain ⟨r, hr, rfl⟩ := List.mem_map.mp hr'
    have hring := h.ring r (List.mem_of_mem_erase hr)
    by_cases hpr : p ∈ r
    · exact hring.spliceAfter (h.ring _ hl) hpr (hdis hr) hf hz hpn hzn hn
    · rw [spliceAfter_of_notMem hpr]
      refine hring.congr (fun c hc ↦ hn c ?_ ?_ ?_)
      · rintro rfl
        exact hpr hc
      · rintro rfl
        exact hdis hr hc (List.mem_cons_of_mem l (List.mem_of_mem_getLast? hz))
      · rintro rfl
        exact hdis hr hc List.mem_cons_self

/-- The same with the backward links. -/
theorem AreLinked.splice (h : AreLinked next prev rs) (hl : l :: xs ∈ rs)
    (hf : xs.head? = some f) (hz : xs.getLast? = some z) (hp : p ∈ rs.flatten)
    (hpy : next p = some y) (hpn : next' p = some f) (hzn : next' z = some y)
    (hn : ∀ c, c ≠ p → c ≠ z → c ≠ l → next' c = next c) (hfp : prev' f = some p)
    (hyp : prev' y = some z) (hb : ∀ c, c ≠ f → c ≠ y → c ≠ l → prev' c = prev c) :
    AreLinked next' prev' ((rs.erase (l :: xs)).map (spliceAfter p xs)) := by
  have hring := h.rings.ring _ hl
  have hmemL : ∀ c ∈ l :: xs, c ∈ rs.flatten := fun c hc ↦ List.mem_flatten.mpr ⟨_, hl, hc⟩
  have hlf : next l = some f := by
    obtain ⟨ts, rfl⟩ := List.head?_eq_some_iff.mp hf
    exact hring.2.1
  have hzl : next z = some l := by
    obtain ⟨ws, rfl⟩ := List.getLast?_eq_some_iff.mp hz
    exact hring.next_last
  have hzmem : z ∈ xs := List.mem_of_mem_getLast? hz
  refine ⟨h.rings.splice hl hf hz hpn (hzn.trans hpy.symm) hn, fun a ha b hab ↦ ?_⟩
  have hold : a ∈ rs.flatten := mem_flatten_splice hl ha
  have hal : a ≠ l := by
    rintro rfl
    exact h.rings.notMem_splice hl ha
  by_cases hap : a = p
  · subst hap
    obtain rfl : f = b := Option.some.inj (hpn.symm.trans hab)
    exact hfp
  by_cases haz : a = z
  · subst haz
    obtain rfl : y = b := Option.some.inj (hzn.symm.trans hab)
    exact hyp
  rw [hn a hap haz hal] at hab
  rw [hb b ?_ ?_ ?_]
  · exact h.back a hold b hab
  · rintro rfl
    exact hal (h.rings.next_inj hold (hmemL _ List.mem_cons_self) (hab.trans hlf.symm))
  · rintro rfl
    exact hap (h.rings.next_inj hold hp (hab.trans hpy.symm))
  · rintro rfl
    exact haz (h.rings.next_inj hold (hmemL z (List.mem_cons_of_mem _ hzmem)) (hab.trans hzl.symm))

end Lists

end Jeopardy.Rings
