import Jeopardy.Hotring.Bucket
import Jeopardy.Lib.Gap

/-!
# Milestones in a ring

A rehash puts two milestone nodes into a ring by their tags and looks for them by their
keys. This module finds the condition on the ring under which the milestones enclose the
two halves of the bucket and both searches reach them.
-/

namespace Jeopardy.Hotring

open Rings

/-- The ring read from `c` can be split at `base` and `base + half`: keys and tags ascend
around it, tags agree with keys in the bits of the bucket, the tag tells the half, the head
holds no milestone's key, and no descent of keys lies between the head and the greatest
tag. -/
structure Splittable (key tag : Nat → Nat) (base half c : Nat) (xs : List Nat) : Prop where
  half_pos : 0 < half
  key_sorted : CyclicSorted key (c :: xs)
  tag_sorted : CyclicSorted tag (c :: xs)
  keys_nodup : ((c :: xs).map key).Nodup
  range : ∀ a ∈ c :: xs, base ≤ key a
  residue : ∀ a ∈ c :: xs, tag a % (2 * half) = key a - base
  sides : ∀ a ∈ c :: xs, half ≤ tag a ↔ base + half ≤ key a
  head_ne : key c ≠ base ∧ key c ≠ base + half
  top : ∀ z ∈ c :: xs, (∀ a ∈ c :: xs, tag a ≤ tag z) → key c ≤ key z

/-- The two halves of a ring around its milestones, as the searches for them see it. -/
structure Halves (key tag : Nat → Nat) (base half lo hi : Nat) (xs ys A B : List Nat) : Prop where
  whole : xs.IsRotated (A ++ B)
  ordered : (A ++ B).Pairwise (fun x y ↦ tag x < tag y)
  lower : ∀ a ∈ A, tag a < half
  upper : ∀ b ∈ B, half ≤ tag b
  marked : ys.IsRotated (lo :: A ++ hi :: B)
  get_lo : ringGet key base ys = ⟨.accessCold, some lo, B.getLastD hi⟩
  get_hi : ringGet key (base + half) ys = ⟨.accessCold, some hi, A.getLastD lo⟩

variable {key tag : Nat → Nat} {base half c lo hi : Nat} {xs : List Nat}

namespace Splittable

/-- Whether a ring can be split is a matter of the keys and tags of its nodes. -/
theorem congr {key' tag' : Nat → Nat} (s : Splittable key tag base half c xs)
    (hk : ∀ a ∈ c :: xs, key' a = key a) (ht : ∀ a ∈ c :: xs, tag' a = tag a) :
    Splittable key' tag' base half c xs := by
  refine ⟨s.half_pos, s.key_sorted.congr hk, s.tag_sorted.congr ht, ?_, ?_, ?_, ?_, ?_, ?_⟩
  · rw [List.map_congr_left hk]
    exact s.keys_nodup
  · intro a ha
    rw [hk a ha]
    exact s.range a ha
  · intro a ha
    rw [hk a ha, ht a ha]
    exact s.residue a ha
  · intro a ha
    rw [hk a ha, ht a ha]
    exact s.sides a ha
  · rw [hk c List.mem_cons_self]
    exact s.head_ne
  · intro z hz hle
    rw [hk c List.mem_cons_self, hk z hz]
    apply s.top z hz
    intro a ha
    rw [← ht a ha, ← ht z hz]
    exact hle a ha

theorem tags_nodup (s : Splittable key tag base half c xs) : ((c :: xs).map tag).Nodup := by
  apply List.Nodup.map_on _ s.keys_nodup.of_map
  intro a ha b hb he
  have h1 := s.residue a ha
  have h2 := s.residue b hb
  have h3 := s.range a ha
  have h4 := s.range b hb
  rw [he] at h1
  exact List.inj_on_of_nodup_map s.keys_nodup ha hb (by omega)

/-- The ring read in the order of its tags, cut at the half. -/
theorem exists_order (s : Splittable key tag base half c xs) :
    ∃ A B, (c :: xs).IsRotated (A ++ B) ∧ (A ++ B).Pairwise (fun x y ↦ tag x < tag y) ∧
      (∀ a ∈ A, tag a < half) ∧ ∀ b ∈ B, half ≤ tag b := by
  obtain ⟨p, q, he, hs⟩ := s.tag_sorted
  have hrot : (c :: xs).IsRotated (q ++ p) := he ▸ List.isRotated_append
  have hn : ((q ++ p).map tag).Nodup := (hrot.perm.map tag).nodup_iff.mp s.tags_nodup
  rw [List.Nodup, List.pairwise_map] at hn
  have hlt : (q ++ p).Pairwise (fun x y ↦ tag x < tag y) :=
    (hs.and hn).imp (fun h ↦ lt_of_le_of_ne h.1 h.2)
  obtain ⟨A, B, hAB, hA, hB⟩ := exists_threshold tag half hlt
  exact ⟨A, B, hAB ▸ hrot, hAB ▸ hlt, hA, hB⟩

section Order

variable {A B : List Nat}

theorem mem_iff (hw : (c :: xs).IsRotated (A ++ B)) {a : Nat} :
    a ∈ c :: xs ↔ a ∈ A ∨ a ∈ B := by
  rw [hw.mem_iff, List.mem_append]

theorem lower (s : Splittable key tag base half c xs) (hw : (c :: xs).IsRotated (A ++ B))
    (hA : ∀ a ∈ A, tag a < half) {a : Nat} (ha : a ∈ A) : key a < base + half := by
  have h1 := s.sides a ((mem_iff hw).mpr (Or.inl ha))
  have h2 := hA a ha
  omega

theorem upper (s : Splittable key tag base half c xs) (hw : (c :: xs).IsRotated (A ++ B))
    (hB : ∀ b ∈ B, half ≤ tag b) {b : Nat} (hb : b ∈ B) : base + half ≤ key b :=
  (s.sides b ((mem_iff hw).mpr (Or.inr hb))).mp (hB b hb)

/-- A single node is no second milestone. -/
theorem lt_last (s : Splittable key tag base half c xs) (hw : (c :: xs).IsRotated (A ++ B))
    (hs : (A ++ B).Pairwise (fun x y ↦ tag x < tag y)) (hA : ∀ a ∈ A, tag a < half)
    (hB : ∀ b ∈ B, half ≤ tag b) (hhi : tag hi = half) :
    ∀ x ∈ (A ++ hi :: B).getLast?, ∀ y ∈ (A ++ hi :: B).head?, tag y < tag x := by
  intro x hx y hy
  cases A with
  | cons a A =>
    rw [List.cons_append, List.head?_cons, Option.mem_some_iff] at hy
    subst hy
    have hya := hA a (by simp)
    rcases List.mem_cons.mp (show x ∈ hi :: B by
      rw [List.cons_append, ← List.cons_append, List.getLast?_append] at hx
      cases hB : (hi :: B).getLast? with
      | none => simp at hB
      | some z =>
        rw [hB, Option.some_or, Option.mem_some_iff] at hx
        exact hx ▸ List.mem_of_getLast? hB) with rfl | hxB
    · rw [hhi]
      exact hya
    · exact hya.trans_le (hB x hxB)
  | nil =>
    rw [List.nil_append] at hw hs hx hy
    rw [List.head?_cons, Option.mem_some_iff] at hy
    subst hy
    rw [hhi]
    rcases List.eq_nil_or_concat B with rfl | ⟨B', b, rfl⟩
    · exact absurd (hw.mem_iff.mp (by simp : c ∈ c :: xs)) (by simp)
    · rw [List.concat_eq_append] at *
      rw [← List.cons_append, List.getLast?_append] at hx
      simp only [List.getLast?_singleton, Option.some_or, Option.mem_some_iff] at hx
      subst hx
      have hbm : b ∈ c :: xs := hw.mem_iff.mpr (by simp)
      apply lt_of_le_of_ne (hB b (by simp))
      intro he
      have hB' : B' = [] := by
        rw [List.eq_nil_iff_forall_not_mem]
        intro d hd
        have h1 := (List.pairwise_append.mp hs).2.2 d hd b (by simp)
        have h2 := hB d (by simp [hd])
        omega
      subst hB'
      have hcb : c = b := by
        have := hw.mem_iff.mp (by simp : c ∈ c :: xs)
        simpa using this
      have h1 := s.residue b hbm
      have h2 := s.range b hbm
      have h3 := s.half_pos
      rw [← he, Nat.mod_eq_of_lt (by omega)] at h1
      exact s.head_ne.2 (by rw [hcb]; omega)

/-- Where the two creations put the milestones. -/
theorem marked (s : Splittable key tag base half c xs) (lo : Nat)
    (hw : (c :: xs).IsRotated (A ++ B)) (hs : (A ++ B).Pairwise (fun x y ↦ tag x < tag y))
    (hA : ∀ a ∈ A, tag a < half) (hB : ∀ b ∈ B, half ≤ tag b) (hhi : tag hi = half) :
    (newRing tag 0 lo (newRing tag half hi (c :: xs))).IsRotated (lo :: A ++ hi :: B) := by
  rw [newRing, newRing]
  have hmid := insertGap_between (a := hi) hw hs hA hB
  apply insertGap_front hmid
  · obtain ⟨hsA, hsB, hAB⟩ := List.pairwise_append.mp hs
    refine List.pairwise_append.mpr ⟨hsA.imp le_of_lt,
      List.pairwise_cons.mpr ⟨?_, hsB.imp le_of_lt⟩, ?_⟩
    · intro b hb
      rw [hhi]
      exact hB b hb
    · intro a ha b hb
      rcases List.mem_cons.mp hb with rfl | hb
      · rw [hhi]
        exact (hA a ha).le
      · exact (hAB a ha b hb).le
  · simp
  · intro _
    exact s.lt_last hw hs hA hB hhi

/-- The keys ascend from the head to the greatest tag. -/
theorem ascending (s : Splittable key tag base half c xs) {p q : List Nat}
    (hw : (c :: xs).IsRotated (p ++ c :: q))
    (hs : (p ++ c :: q).Pairwise (fun x y ↦ tag x < tag y)) :
    (c :: q).Pairwise (fun x y ↦ key x < key y) := by
  obtain ⟨z, hz⟩ := Option.isSome_iff_exists.mp (show (c :: q).getLast?.isSome by simp)
  have hzm : z ∈ c :: q := List.mem_of_getLast? hz
  have hks := (s.key_sorted.isRotated hw).sublist (List.sublist_append_right p (c :: q))
  have hkn : ((c :: q).map key).Nodup := by
    have := (hw.perm.map key).nodup_iff.mp s.keys_nodup
    exact this.sublist ((List.sublist_append_right p (c :: q)).map key)
  refine hks.ascending hkn hz (s.top z (hw.mem_iff.mpr (by simp [List.mem_cons.mp hzm])) ?_)
  intro a ha
  rw [hw.mem_iff] at ha
  obtain ⟨u, hu⟩ : ∃ u, c :: q = u ++ [z] := List.getLast?_eq_some_iff.mp hz
  rw [hu, ← List.append_assoc] at ha hs
  rcases List.mem_append.mp ha with ha | ha
  · exact ((List.pairwise_append.mp hs).2.2 a ha z (by simp)).le
  · rw [List.mem_singleton.mp ha]

end Order

theorem getLastD_append_cons (us vs : List Nat) (a d : Nat) :
    (us ++ a :: vs).getLastD d = vs.getLastD a := by
  rw [List.getLastD_eq_getLast?, List.getLastD_eq_getLast?, List.getLast?_append,
    List.getLast?_cons, Option.some_or, Option.getD_some]

theorem ringGet_behind {q prev x : Nat} {ys : List Nat} (us vs : List Nat) (hc : key c ≠ q)
    (hys : ys = us ++ x :: vs) (hx : key x = q) (hne : ∀ y ∈ us, key y ≠ q)
    (hb : (c :: us).IsChain (fun x y ↦ ¬ Between (key x) q (key y)))
    (hprev : us.getLastD c = prev) :
    ringGet key q (c :: ys) = ⟨.accessCold, some x, prev⟩ := by
  rw [ringGet, if_neg hc, hys, search_append hne hb, search, if_pos hx, hprev]
  rfl

section Found

variable {A B : List Nat}

/-- The ring with its milestones has no node twice. -/
theorem marked_nodup (s : Splittable key tag base half c xs) (hw : (c :: xs).IsRotated (A ++ B))
    (hlo : lo ∉ c :: xs) (hhi : hi ∉ c :: xs) (hlohi : lo ≠ hi) : (lo :: A ++ hi :: B).Nodup := by
  have hAB := hw.perm.nodup_iff.mp s.keys_nodup.of_map
  have h1 : lo ∉ A ++ B := fun h ↦ hlo (hw.mem_iff.mpr h)
  have h2 : hi ∉ A ++ B := fun h ↦ hhi (hw.mem_iff.mpr h)
  simp only [List.mem_append, not_or] at h1 h2
  rw [List.nodup_append] at hAB
  simp only [List.cons_append, List.nodup_cons, List.nodup_append, List.mem_append,
    List.mem_cons, not_or]
  refine ⟨⟨h1.1, hlohi, h1.2⟩, hAB.1, ⟨h2.2, hAB.2.1⟩, ?_⟩
  intro a ha b hb
  rcases hb with rfl | hb
  · rintro rfl
    exact h2.1 ha
  · exact hAB.2.2 a ha b hb

/-- From a head in the lower half the keys ascend through the second milestone. -/
theorem ascending_lower {A₂ : List Nat} (hasc : (c :: (A₂ ++ B)).Pairwise (fun x y ↦ key x < key y))
    (hA : ∀ a ∈ c :: A₂, key a < base + half) (hB : ∀ b ∈ B, base + half ≤ key b)
    (khi : key hi = base + half) :
    (c :: (A₂ ++ hi :: B)).Pairwise (fun x y ↦ key x ≤ key y) := by
  rw [← List.cons_append, List.pairwise_append] at hasc ⊢
  obtain ⟨hsA, hsB, -⟩ := hasc
  refine ⟨hsA.imp le_of_lt, List.pairwise_cons.mpr ⟨?_, hsB.imp le_of_lt⟩, ?_⟩
  · intro b hb
    rw [khi]
    exact hB b hb
  · intro a ha b hb
    rcases List.mem_cons.mp hb with rfl | hb
    · rw [khi]
      exact (hA a ha).le
    · exact (hA a ha).le.trans (hB b hb)

/-- The searches for the milestones when the head is in the lower half. -/
theorem found_lower (s : Splittable key tag base half c xs) {A₁ A₂ : List Nat}
    (hw : (c :: xs).IsRotated (A₁ ++ c :: A₂ ++ B))
    (hs : (A₁ ++ c :: A₂ ++ B).Pairwise (fun x y ↦ tag x < tag y))
    (hA : ∀ a ∈ A₁ ++ c :: A₂, tag a < half) (hB : ∀ b ∈ B, half ≤ tag b) (klo : key lo = base)
    (khi : key hi = base + half) :
    ringGet key base (c :: (A₂ ++ hi :: B ++ lo :: A₁)) =
        ⟨.accessCold, some lo, B.getLastD hi⟩ ∧
      ringGet key (base + half) (c :: (A₂ ++ hi :: B ++ lo :: A₁)) =
        ⟨.accessCold, some hi, (A₁ ++ c :: A₂).getLastD lo⟩ := by
  have hlower {a : Nat} (ha : a ∈ A₁ ++ c :: A₂) : key a < base + half := s.lower hw hA ha
  have hupper {b : Nat} (hb : b ∈ B) : base + half ≤ key b := s.upper hw hB hb
  have hpos := s.half_pos
  have hcb := s.range c (by simp)
  have hasc : (c :: (A₂ ++ B)).Pairwise (fun x y ↦ key x < key y) := by
    have he : A₁ ++ c :: A₂ ++ B = A₁ ++ c :: (A₂ ++ B) := by simp
    exact s.ascending (he ▸ hw) (he ▸ hs)
  obtain ⟨hcA, -⟩ := List.pairwise_cons.mp hasc
  have hle := ascending_lower hasc (fun a ha ↦ hlower (List.mem_append_right A₁ ha))
    (fun b hb ↦ hupper hb) khi
  constructor
  · have hge (x : Nat) (hx : x ∈ A₂ ++ hi :: B) : base < key x := by
      rcases List.mem_append.mp hx with hx | hx
      · exact hcb.trans_lt (hcA x (by simp [hx]))
      · rcases List.mem_cons.mp hx with rfl | hx
        · omega
        · have := hupper hx
          omega
    apply ringGet_behind _ _ s.head_ne.1 rfl klo (fun x hx ↦ (hge x hx).ne')
    · apply chain_not_between_of_le hle
      intro x hx
      rcases List.mem_cons.mp hx with rfl | hx
      · exact hcb
      · exact (hge x hx).le
    · exact getLastD_append_cons A₂ B hi c
  · have hlt (x : Nat) (hx : x ∈ c :: A₂) : key x < base + half :=
      hlower (List.mem_append_right A₁ hx)
    apply ringGet_behind A₂ (B ++ lo :: A₁) s.head_ne.2 (by simp) khi
      (fun x hx ↦ (hlt x (by simp [hx])).ne)
    · apply chain_not_between_of_lt _ hlt
      exact hle.sublist ((List.sublist_append_left A₂ (hi :: B)).cons_cons c)
    · exact (getLastD_append_cons A₁ A₂ c lo).symm

/-- With the head in the upper half the descent of the keys is at the end of the circle, so the
lower half ascends. -/
theorem ascending_upper (s : Splittable key tag base half c xs) {B₁ B₂ : List Nat}
    (hw : (c :: xs).IsRotated (A ++ (B₁ ++ c :: B₂))) (hA : ∀ a ∈ A, key a < base + half)
    (hcu : base + half ≤ key c) : A.Pairwise (fun x y ↦ key x ≤ key y) := by
  have hcA : CyclicSorted key (c :: A) := by
    have hsub : (A ++ [c]).Sublist (A ++ (B₁ ++ c :: B₂)) :=
      (List.Sublist.refl A).append (List.singleton_sublist.mpr (by simp))
    exact cyclicSorted_append_comm ((s.key_sorted.isRotated hw).sublist hsub)
  obtain ⟨p, q, he, hp, hq, -⟩ := hcA.runs
  have hnil : p = [] := by
    rw [List.eq_nil_iff_forall_not_mem]
    intro a ha
    have h1 := (List.pairwise_cons.mp hp).1 a ha
    have h2 := hA a (by simp [he, ha])
    omega
  rw [hnil, List.nil_append] at he
  exact he ▸ hq

/-- The searches for the milestones when the head is in the upper half. -/
theorem found_upper (s : Splittable key tag base half c xs) {B₁ B₂ : List Nat}
    (hw : (c :: xs).IsRotated (A ++ (B₁ ++ c :: B₂)))
    (hs : (A ++ (B₁ ++ c :: B₂)).Pairwise (fun x y ↦ tag x < tag y))
    (hA : ∀ a ∈ A, tag a < half) (hB : ∀ b ∈ B₁ ++ c :: B₂, half ≤ tag b) (klo : key lo = base)
    (khi : key hi = base + half) :
    ringGet key base (c :: (B₂ ++ lo :: (A ++ hi :: B₁))) =
        ⟨.accessCold, some lo, (B₁ ++ c :: B₂).getLastD hi⟩ ∧
      ringGet key (base + half) (c :: (B₂ ++ lo :: (A ++ hi :: B₁))) =
        ⟨.accessCold, some hi, A.getLastD lo⟩ := by
  have hlower {a : Nat} (ha : a ∈ A) : key a < base + half := s.lower hw hA ha
  have hcu : base + half ≤ key c := s.upper hw hB (by simp)
  have hpos := s.half_pos
  have hasc : (c :: B₂).Pairwise (fun x y ↦ key x < key y) := by
    have he : A ++ (B₁ ++ c :: B₂) = (A ++ B₁) ++ c :: B₂ := by simp
    exact s.ascending (he ▸ hw) (he ▸ hs)
  obtain ⟨hcB, hsB⟩ := List.pairwise_cons.mp hasc
  have hgt (x : Nat) (hx : x ∈ c :: B₂) : base + half < key x := by
    have hck := s.head_ne.2
    rcases List.mem_cons.mp hx with rfl | hx
    · omega
    · have := hcB x hx
      omega
  have hle := hasc.imp (fun {x y} (h : key x < key y) ↦ h.le)
  have hsA : (lo :: A).Pairwise (fun x y ↦ key x ≤ key y) := by
    refine List.pairwise_cons.mpr ⟨?_, s.ascending_upper hw (fun a ha ↦ hlower ha) hcu⟩
    intro a ha
    rw [klo]
    exact s.range a ((mem_iff hw).mpr (Or.inl ha))
  constructor
  · apply ringGet_behind _ _ s.head_ne.1 rfl klo
    · intro x hx
      have := hgt x (by simp [hx])
      omega
    · apply chain_not_between_of_le hle
      intro x hx
      have := hgt x hx
      omega
    · exact (getLastD_append_cons B₁ B₂ c hi).symm
  · have hlt (x : Nat) (hx : x ∈ lo :: A) : key x < base + half := by
      rcases List.mem_cons.mp hx with rfl | hx
      · omega
      · exact hlower hx
    apply ringGet_behind (B₂ ++ lo :: A) B₁ s.head_ne.2 (by simp) khi
    · intro x hx
      rcases List.mem_append.mp hx with hx | hx
      · exact (hgt x (by simp [hx])).ne'
      · exact (hlt x hx).ne
    · rw [← List.cons_append]
      refine List.isChain_append.mpr ⟨?_, chain_not_between_of_lt hsA hlt, ?_⟩
      · apply chain_not_between_of_le hle
        intro x hx
        exact (hgt x hx).le
      · rintro x hx y hy (⟨h1, -⟩ | ⟨h1, -⟩ | ⟨-, h1⟩)
        · exact h1.not_gt (hgt x (List.mem_of_getLast? hx))
        · exact h1.not_gt (hlt y (List.mem_of_mem_head? hy))
        · exact h1.not_gt (hgt x (List.mem_of_getLast? hx))
    · exact getLastD_append_cons B₂ A lo c

end Found

/-- The milestones put into a ring that can be split enclose its two halves, and the
searches find them there. -/
theorem halves (s : Splittable key tag base half c xs) (hlo : lo ∉ c :: xs) (hhi : hi ∉ c :: xs)
    (hlohi : lo ≠ hi) (klo : key lo = base) (khi : key hi = base + half) (thi : tag hi = half) :
    ∃ A B, Halves key tag base half lo hi (c :: xs)
      (newRing tag 0 lo (newRing tag half hi (c :: xs))) A B := by
  obtain ⟨A, B, hw, hs, hA, hB⟩ := s.exists_order
  have hm := s.marked lo hw hs hA hB thi
  have hn := s.marked_nodup hw hlo hhi hlohi
  suffices hget : ringGet key base (newRing tag 0 lo (newRing tag half hi (c :: xs))) =
        ⟨.accessCold, some lo, B.getLastD hi⟩ ∧
      ringGet key (base + half) (newRing tag 0 lo (newRing tag half hi (c :: xs))) =
        ⟨.accessCold, some hi, A.getLastD lo⟩ from
    ⟨A, B, hw, hs, hA, hB, hm, hget.1, hget.2⟩
  rw [newRing, newRing] at hm ⊢
  generalize insertGap tag 0 lo c (insertGap tag half hi c xs) = ys at hm ⊢
  rcases (mem_iff hw).mp (show c ∈ c :: xs by simp) with hc | hc
  · obtain ⟨A₁, A₂, rfl⟩ := List.append_of_mem hc
    have hys : ys = (A₂ ++ hi :: B) ++ lo :: A₁ := by
      have he : lo :: (A₁ ++ c :: A₂) ++ hi :: B = (lo :: A₁) ++ c :: (A₂ ++ hi :: B) := by simp
      exact tail_of_isRotated (he ▸ hn) (he ▸ hm)
    rw [hys]
    exact s.found_lower hw hs hA hB klo khi
  · obtain ⟨B₁, B₂, rfl⟩ := List.append_of_mem hc
    have hys : ys = B₂ ++ lo :: (A ++ hi :: B₁) := by
      have he : lo :: A ++ hi :: (B₁ ++ c :: B₂) = (lo :: (A ++ hi :: B₁)) ++ c :: B₂ := by simp
      exact tail_of_isRotated (he ▸ hn) (he ▸ hm)
    rw [hys]
    exact s.found_upper hw hs hA hB klo khi

end Splittable

end Jeopardy.Hotring
