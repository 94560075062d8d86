import Jeopardy.RadixTree.Accounting

/-!
# How many nodes a tree has

With enough memory every node of a tree is on the way of a present index or of index 0. So the
number of nodes is bounded by the number of present indices, whatever the indices are and however
many calls have come and gone.
-/

namespace Jeopardy.RadixTree

/-- The addresses of the nodes that have been allocated and not been freed. -/
def Tree.live (t : Tree) : Set Nat := {p | t.node p ≠ none}

/-- The indices that a map holds. -/
def present (f : BitVec 64 → Option Item) : Set (BitVec 64) := {i | f i ≠ none}

theorem WF.live_finite {t : Tree} (h : WF t) : t.live.Finite :=
  (Set.finite_lt_nat t.next).subset (fun p hp ↦ by
    by_contra hge
    exact hp (h.fresh p (not_lt.mp hge)))

theorem present_finite (f : BitVec 64 → Option Item) : (present f).Finite :=
  have : Finite (BitVec 64) :=
    Finite.of_injective BitVec.toFin (fun _ _ h ↦ BitVec.eq_of_toFin_eq h)
  Set.toFinite _

section Marks

variable {t : Tree} {f : BitVec 64 → Option Item}

/-- The mark `m` is that of a block: no index for the leftmost one, else a present index in it. -/
def MarksBlock (f : BitVec 64 → Option Item) (s b : Nat) : Option (BitVec 64) → Prop
  | none => b = 0
  | some i => f i ≠ none ∧ i.toNat / 2 ^ (s + 6) = b

/-- Every node has a level and a mark. -/
theorem Stands.exists_mark (h : Stands t f) (hl : Slim t) {p : Nat} (hp : p ∈ t.live) :
    ∃ nd b m, t.node p = some nd ∧ Covers t p b ∧ MarksBlock f nd.shift b m := by
  obtain ⟨nd, hnd⟩ := Option.ne_none_iff_exists'.mp hp
  obtain ⟨b, hb⟩ := h.wf.exists_covers hnd
  by_cases hb0 : b = 0
  · exact ⟨nd, b, none, hnd, hb, hb0⟩
  · obtain ⟨i, x, hx, hblock⟩ := exists_holds h.wf hl hnd hb hb0
    refine ⟨nd, b, some i, hnd, hb, ?_, hblock⟩
    rw [(h.holds i x).mp hx]
    exact Option.some_ne_none x

/-- A mark says which block it is. -/
theorem MarksBlock.unique {s b b' : Nat} {m : Option (BitVec 64)} (h : MarksBlock f s b m)
    (h' : MarksBlock f s b' m) : b = b' := by
  cases m with
  | none => exact h.trans h'.symm
  | some i => exact h.2.symm.trans h'.2

/-- Level and mark determine the node, so there are no more nodes than levels and marks. -/
theorem Stands.live_ncard_le (h : Stands t f) (hl : Slim t) :
    t.live.ncard ≤ LEVELS * ((present f).ncard + 1) := by
  have : Nonempty Node := ⟨emptyNode 0 0 none⟩
  choose! nd b m hnd hb hm using fun p (hp : p ∈ t.live) ↦ h.exists_mark hl hp
  have hlevels : (Set.Iio LEVELS).ncard = LEVELS := by
    rw [Set.ncard_eq_toFinset_card', Set.toFinset_Iio, Nat.card_Iio]
  have hmarks : (insert none (some '' present f)).ncard ≤ (present f).ncard + 1 := by
    refine (Set.ncard_insert_le _ _).trans (Nat.succ_le_succ ?_)
    exact Set.ncard_image_le (present_finite f)
  have hinj : Set.InjOn (fun p ↦ ((nd p).shift / 6, m p)) t.live := by
    intro p hp q hq heq
    obtain ⟨hlevel, hmark⟩ := Prod.mk.inj heq
    have hs : (nd p).shift = (nd q).shift := by
      obtain ⟨c, hc⟩ := h.wf.shift_dvd (hnd p hp)
      obtain ⟨d, hd⟩ := h.wf.shift_dvd (hnd q hq)
      omega
    have hmq := hm q hq
    rw [← hmark, ← hs] at hmq
    refine h.wf.covers_inj (hnd p hp) (hnd q hq) hs (hb p hp) ?_
    rw [(hm p hp).unique hmq]
    exact hb q hq
  calc t.live.ncard
      ≤ (Set.Iio LEVELS ×ˢ insert none (some '' present f)).ncard := by
        refine Set.ncard_le_ncard_of_injOn _ (fun p hp ↦ ⟨?_, ?_⟩) hinj
          ((Set.finite_Iio LEVELS).prod (((present_finite f).image some).insert none))
        · have hle := h.wf.shift_le (hnd p hp)
          show (nd p).shift / 6 < 11
          omega
        · have hmp := hm p hp
          cases hc : m p with
          | none => exact Set.mem_insert _ _
          | some i =>
            rw [hc] at hmp
            exact Set.mem_insert_of_mem _ ⟨i, hmp.1, rfl⟩
    _ = LEVELS * (insert none (some '' present f)).ncard := by rw [Set.ncard_prod, hlevels]
    _ ≤ LEVELS * ((present f).ncard + 1) := Nat.mul_le_mul_left _ hmarks

/-- An emptied tree has its leftmost leaf, or no node. -/
theorem Stands.live_ncard_le_one (h : Stands t f) (hl : Slim t) (ht : Tall t)
    (hempty : present f = ∅) : t.live.ncard ≤ 1 := by
  have hnone : ∀ i x, ¬ Holds t i x := by
    intro i x hx
    have hmem : i ∈ present f := by
      show f i ≠ none
      rw [(h.holds i x).mp hx]
      exact Option.some_ne_none x
    rw [hempty] at hmem
    exact hmem
  -- without an index there is no block but the first on any level, and no level but the lowest
  have hleaf : ∀ p nd, t.node p = some nd → nd.shift = 0 ∧ Covers t p 0 := by
    intro p nd hp
    refine hl p nd hp ?_
    by_contra hu
    obtain ⟨r, nr, hr, hnr, hor⟩ := h.wf.root_above (h.wf.exists_covers hp).choose_spec hp
    by_cases hs : nr.shift = 0
    · obtain ⟨o, ho⟩ := Slots.exists_occupied hu
      have hz : nd.shift = 0 := by
        rcases hor with rfl | hlt
        · rw [Option.some.inj (hp.symm.trans hnr), hs]
        · omega
      obtain ⟨b, hb⟩ := h.wf.exists_covers hp
      obtain ⟨i, hon, hoff, -⟩ := exists_index h.wf hp hz hb o
      cases hx : nd.slots o with
      | null => exact ho hx
      | node q => exact h.wf.leaf hp hz hx
      | item x => exact hnone i x ((h.wf.holds_of_leaf hon hz x).mpr (by rw [hoff, hx]))
    · obtain ⟨o, ho, hslot⟩ := ht r nr hr hnr hs
      obtain ⟨q, nc, -, hq, -, hpar, hoff⟩ := h.wf.child hnr hs hslot
      have ho' : o.val ≠ 0 := fun h0 ↦ ho (Fin.ext h0)
      have hcov := Covers.child hq hpar (h.wf.root_covers hr)
      rw [hoff] at hcov
      obtain ⟨i, x, hx, -⟩ := exists_holds h.wf hl hq hcov (by omega)
      exact hnone i x hx
  refine (Set.ncard_le_one h.wf.live_finite).mpr (fun p hp q hq ↦ ?_)
  obtain ⟨nd, hnd⟩ := Option.ne_none_iff_exists'.mp hp
  obtain ⟨nq, hnq⟩ := Option.ne_none_iff_exists'.mp hq
  obtain ⟨hz, hb⟩ := hleaf p nd hnd
  obtain ⟨hz', hb'⟩ := hleaf q nq hnq
  exact h.wf.covers_inj hnd hnq (hz.trans hz'.symm) hb hb'

end Marks

/-- **Space.** After any program of insertions and deletions of present indices, with enough
memory, the tree has at most eleven nodes for each present index and eleven more; one that has
been emptied has at most one. No node is left behind, however long the program was. -/
theorem live_ncard_run {t₀ : Tree} {calls : List Call}
    (h0 : radixTreeRootAlloc (fun _ ↦ false) = some t₀)
    (htidy : Along Call.tidy t₀ calls = true) :
    ∃ t rs, run t₀ calls = .ok (t, rs) ∧ t.live.Finite ∧
      t.live.ncard ≤ LEVELS * ((present (history calls rs)).ncard + 1) ∧
      (present (history calls rs) = ∅ → t.live.ncard ≤ 1) := by
  obtain rfl := rootAlloc_eq h0 rfl
  obtain ⟨hst, hl, ht⟩ := stands_emptyTree (fun _ ↦ false)
  obtain ⟨t, rs, hrun, hst', hl', ht', -⟩ := run_total (P := Call.tidy)
    (I := fun t f ↦ Stands t f ∧ Slim t ∧ Tall t ∧ ∀ n, t.oom n = false)
    (fun t f c h hc ↦ by
      obtain ⟨t', r, hrun, hst', hoom, hshape, -⟩ := h.1.step_tidy hc
      obtain ⟨hl', ht'⟩ := hshape h.2.2.2 h.2.1 h.2.2.1
      exact ⟨t', r, hrun, hst', hl', ht', fun n ↦ by rw [hoom, h.2.2.2]⟩)
    ⟨hst, hl, ht, fun _ ↦ rfl⟩ htidy
  exact ⟨t, rs, hrun, hst'.wf.live_finite, hst'.live_ncard_le hl',
    hst'.live_ncard_le_one hl' ht'⟩

/-- `live_ncard_run` of a tree that grows by two levels and is emptied again. -/
theorem live_ncard_run_emptied :
    ∃ t rs, run (emptyTree (fun _ ↦ false)) [.insert 70 ⟨4, by decide⟩,
        .insert 5000 ⟨8, by decide⟩, .delete 70, .delete 5000] = .ok (t, rs) ∧ t.live.Finite ∧
      t.live.ncard ≤ LEVELS * ((present (history [.insert 70 ⟨4, by decide⟩,
        .insert 5000 ⟨8, by decide⟩, .delete 70, .delete 5000] rs)).ncard + 1) ∧
      (present (history [.insert 70 ⟨4, by decide⟩, .insert 5000 ⟨8, by decide⟩, .delete 70,
        .delete 5000] rs) = ∅ → t.live.ncard ≤ 1) :=
  live_ncard_run (show radixTreeRootAlloc (fun _ ↦ false) = some (emptyTree _) from rfl)
    (by decide +kernel)

end Jeopardy.RadixTree
