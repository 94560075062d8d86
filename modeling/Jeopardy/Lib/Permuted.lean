import Jeopardy.Lib.Ring

/-!
# Cells that their links permute

A finite set of cells is permuted when every cell of it links to a cell of it, and no two of them
to the same. Then each of its cells lies on a ring within the set, however many rings there are.
Exchanging two links may join or part rings, and keeps a set permuted either way.
-/

namespace Jeopardy.Rings

variable {α : Type*} {next next' : α → Option α} {S : Finset α} {xs ys : List α} {a b p q : α}

/-- The links of the cells of `S` are a permutation of `S`. -/
structure Permuted (next : α → Option α) (S : Finset α) : Prop where
  next_mem : ∀ a ∈ S, ∃ b ∈ S, next a = some b
  inj : ∀ a ∈ S, ∀ b ∈ S, next a = next b → a = b

/-- Every cell of a ring is linked from a cell of the ring. -/
theorem IsRing.exists_prev (h : IsRing next xs) (ha : a ∈ xs) : ∃ b ∈ xs, next b = some a := by
  obtain ⟨us, vs, rfl⟩ := List.append_of_mem ha
  have hrot : IsRing next (a :: (vs ++ us)) := h.rotate
  rcases List.eq_nil_or_concat (vs ++ us) with hnil | ⟨ws, z, hz⟩
  · rw [hnil] at hrot
    exact ⟨a, ha, isRing_singleton.mp hrot⟩
  · rw [List.concat_eq_append] at hz
    rw [hz] at hrot
    refine ⟨z, ?_, hrot.next_last⟩
    have hmem : z ∈ vs ++ us := hz ▸ by simp
    rw [List.mem_append] at hmem ⊢
    rcases hmem with hmem | hmem
    · exact Or.inr (List.mem_cons_of_mem a hmem)
    · exact Or.inl hmem

namespace Permuted

theorem empty : Permuted next ∅ := ⟨by simp, by simp⟩

/-- Only the links of its own cells matter. -/
theorem congr (h : Permuted next S) (hn : ∀ a ∈ S, next' a = next a) : Permuted next' S := by
  constructor
  · intro a ha
    rw [hn a ha]
    exact h.next_mem a ha
  · intro a ha b hb he
    rw [hn a ha, hn b hb] at he
    exact h.inj a ha b hb he

/-- Exchanging the links of two cells. -/
theorem swap [DecidableEq α] (h : Permuted next S) (hp : p ∈ S) (hq : q ∈ S)
    (hnp : next' p = next q) (hnq : next' q = next p)
    (hn : ∀ a, a ≠ p → a ≠ q → next' a = next a) : Permuted next' S := by
  have heq (a : α) : next' a = next (Equiv.swap p q a) := by
    rcases eq_or_ne a p with rfl | hap
    · rw [Equiv.swap_apply_left, hnp]
    · rcases eq_or_ne a q with rfl | haq
      · rw [Equiv.swap_apply_right, hnq]
      · rw [Equiv.swap_apply_of_ne_of_ne hap haq, hn a hap haq]
  have hmem (a : α) (ha : a ∈ S) : Equiv.swap p q a ∈ S := by
    rw [Equiv.swap_apply_def]
    split
    · exact hq
    · split
      · exact hp
      · exact ha
  constructor
  · intro a ha
    rw [heq]
    exact h.next_mem _ (hmem a ha)
  · intro a ha b hb he
    rw [heq, heq] at he
    exact (Equiv.swap p q).injective (h.inj _ (hmem a ha) _ (hmem b hb) he)

/-- Replacing one of its rings by a ring of some of the same cells and of new ones. -/
theorem replace [DecidableEq α] (h : Permuted next S) (hxs : IsRing next xs)
    (hxS : ∀ a ∈ xs, a ∈ S) (hys : IsRing next' ys) (hsub : ∀ a ∈ ys, a ∈ xs ∨ a ∉ S)
    (hn : ∀ a ∈ S, a ∉ xs → next' a = next a) :
    Permuted next' (S \ xs.toFinset ∪ ys.toFinset) := by
  -- the cells outside the ring link to cells outside it
  have hout (a : α) (ha : a ∈ S) (hax : a ∉ xs) : ∃ b ∈ S, b ∉ xs ∧ next' a = some b := by
    obtain ⟨b, hb, hnb⟩ := h.next_mem a ha
    refine ⟨b, hb, fun hbx ↦ hax ?_, (hn a ha hax).trans hnb⟩
    obtain ⟨c, hc, hnc⟩ := hxs.exists_prev hbx
    exact h.inj c (hxS c hc) a ha (hnc.trans hnb.symm) ▸ hc
  have hmem {a : α} : a ∈ S \ xs.toFinset ∪ ys.toFinset ↔ (a ∈ S ∧ a ∉ xs) ∨ a ∈ ys := by
    simp
  have hmixed {a b : α} (ha : a ∈ S) (hax : a ∉ xs) (hb : b ∈ ys) : next' a ≠ next' b := by
    obtain ⟨c, hc, hcx, hnc⟩ := hout a ha hax
    obtain ⟨d, hd, hnd⟩ := hys.next_mem hb
    intro he
    rw [hnc, hnd, Option.some.injEq] at he
    subst he
    rcases hsub c hd with hcx' | hcS
    · exact hcx hcx'
    · exact hcS hc
  constructor
  · intro a ha
    rcases hmem.mp ha with ⟨haS, hax⟩ | hay
    · obtain ⟨b, hb, hbx, hnb⟩ := hout a haS hax
      exact ⟨b, hmem.mpr (Or.inl ⟨hb, hbx⟩), hnb⟩
    · obtain ⟨b, hb, hnb⟩ := hys.next_mem hay
      exact ⟨b, hmem.mpr (Or.inr hb), hnb⟩
  · intro a ha b hb he
    rcases hmem.mp ha with ⟨haS, hax⟩ | hay
    · rcases hmem.mp hb with ⟨hbS, hbx⟩ | hby
      · rw [hn a haS hax, hn b hbS hbx] at he
        exact h.inj a haS b hbS he
      · exact absurd he (hmixed haS hax hby)
    · rcases hmem.mp hb with ⟨hbS, hbx⟩ | hby
      · exact absurd he.symm (hmixed hbS hbx hay)
      · exact hys.next_inj hay hby he

/-- Every cell begins a ring within the set. -/
theorem exists_ring (h : Permuted next S) (ha : a ∈ S) :
    ∃ xs, IsRing next (a :: xs) ∧ ∀ b ∈ a :: xs, b ∈ S := by
  choose f hfS hf using h.next_mem
  let g (x : S) : S := ⟨f x x.2, hfS x x.2⟩
  have hinj : Function.Injective g := by
    rintro ⟨x, hx⟩ ⟨y, hy⟩ he
    have hxy : f x hx = f y hy := congrArg Subtype.val he
    exact Subtype.ext (h.inj x hx y hy (by rw [hf x hx, hf y hy, hxy]))
  let orbit (i : Nat) : α := (g^[i] ⟨a, ha⟩ : S)
  have hstep (i : Nat) : next (orbit i) = some (orbit (i + 1)) := by
    simp only [orbit, Function.iterate_succ_apply']
    exact hf _ _
  -- the orbit of the cell comes back to it for the first time after its period
  obtain ⟨p, hp⟩ : ∃ p, Function.minimalPeriod g ⟨a, ha⟩ = p + 1 :=
    Nat.exists_eq_succ_of_ne_zero (Function.minimalPeriod_pos_of_mem_periodicPts
      (hinj.mem_periodicPts ⟨a, ha⟩)).ne'
  have hback : orbit (p + 1) = a := by
    simp only [orbit, ← hp, Function.iterate_minimalPeriod]
  have hlinks (j i : Nat) :
      Links next (orbit i) ((List.range' (i + 1) j).map orbit) (orbit (i + 1 + j)) := by
    induction j generalizing i with
    | zero => exact hstep i
    | succ j ih =>
      rw [List.range'_succ, List.map_cons, show i + 1 + (j + 1) = i + 1 + 1 + j by omega]
      exact ⟨hstep i, ih (i + 1)⟩
  refine ⟨(List.range' (0 + 1) p).map orbit, isRing_of_links ?_ ?_, ?_⟩
  · have hring := hlinks p 0
    rwa [Nat.zero_add, Nat.add_comm 1 p, hback] at hring
  · intro hm
    obtain ⟨l, hl, he⟩ := List.mem_map.mp hm
    rw [List.mem_range'_1] at hl
    have hper : Function.IsPeriodicPt g l ⟨a, ha⟩ := Subtype.ext he
    have := hper.minimalPeriod_le (by omega)
    omega
  · intro b hb
    rcases List.mem_cons.mp hb with rfl | hb
    · exact ha
    · obtain ⟨l, -, rfl⟩ := List.mem_map.mp hb
      exact (g^[l] ⟨a, ha⟩).2

/-- A ring within the set is no longer than the set. -/
theorem length_le_card (hr : IsRing next xs) (hxS : ∀ a ∈ xs, a ∈ S) : xs.length ≤ S.card := by
  classical
  rw [← List.toFinset_card_of_nodup hr.nodup]
  exact Finset.card_le_card (fun a ha ↦ hxS a (List.mem_toFinset.mp ha))

end Permuted

end Jeopardy.Rings
