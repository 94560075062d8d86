import Jeopardy.RadixTree.Program

/-!
# The radix tree as a map

Insertions alone build a map over all 64-bit indices. Deletions keep to it as long as they expect
an item, or are of an index that is present or beyond the nodes: a deletion of any other index
counts a slot as emptied that never was filled.
-/

namespace Jeopardy.RadixTree

/-! ### Insertions -/

/-- The item of the first insertion at an index. -/
def firstItem (inserts : List (BitVec 64 × Item)) (i : BitVec 64) : Option Item :=
  (inserts.find? (fun p ↦ p.1 = i)).map Prod.snd

/-- The tree answers as the map `f` does: lookups find the items of `f`, an insertion at an index
of `f` is refused and changes nothing, and every index of `f`, and no other, has a slot of its
own. -/
structure IsMap (t : Tree) (f : BitVec 64 → Option Item) : Prop where
  lookup : ∀ i, radixTreeLookup t i = .ok (answer (f i))
  again : ∀ i x, (f i).isSome → radixTreeInsert t i x = .ok (t, -EEXIST)
  slot : ∀ i, ∃ s, radixTreeLookupSlot t i = .ok s ∧ (s = none ↔ f i = none)
  slot_inj : ∀ i j s, radixTreeLookupSlot t i = .ok (some s) →
    radixTreeLookupSlot t j = .ok (some s) → i = j

/-- The slot that a lookup answers holds the stored item. -/
inductive SlotOf (t : Tree) (i : BitVec 64) : Slot → Prop where
  | root (hi : i = 0) : SlotOf t i .root
  | node {p : Nat} {nd : Node} (hp : On t i p nd) (hz : nd.shift = 0) :
      SlotOf t i (.node p (slotOffset i 0))

theorem SlotOf.index_unique {t : Tree} {i j : BitVec 64} {s : Slot} (hi : SlotOf t i s)
    (hj : SlotOf t j s) : i = j := by
  cases hi with
  | root hi =>
    cases hj with
    | root hj => rw [hi, hj]
  | @node p nd hp hz =>
    generalize ho : slotOffset i 0 = o at hj
    cases hj with
    | node hp' hz' =>
      have he := hp.eq_of_node hp'
      subst he
      have hb := hp.block_eq hp'
      rw [hz] at hb
      exact eq_of_block_offset hb ho

/-- `radix_tree_lookup_slot` answers `NULL`, or a slot of the index. -/
theorem radixTreeLookupSlot_spec {t : Tree} {f : BitVec 64 → Option Item} (h : Stands t f)
    (i : BitVec 64) : ∃ s, radixTreeLookupSlot t i = .ok s ∧ (s = none ↔ f i = none) ∧
      ∀ sl, s = some sl → SlotOf t i sl := by
  obtain ⟨e, out, hrun, hf⟩ := rawRadixTreeLookup_spec h.wf i
  have he := hf.entry_eq h.wf (h.holds i)
  rw [radixTreeLookupSlot, hrun, Fault.ok_bind]
  by_cases hnull : e = .null
  · refine ⟨none, if_pos hnull, iff_of_true rfl ?_, fun sl hsl ↦ (nomatch hsl)⟩
    exact answer_eq_null.mp (he.symm.trans hnull)
  · have hsome : f i ≠ none := fun hn ↦ hnull (he.trans (answer_eq_null.mpr hn))
    simp only [if_neg hnull]
    cases hf with
    | beyond hnone => exact absurd rfl hnull
    | root hr hi =>
      refine ⟨some .root, rfl, iff_of_false (by simp) hsome, fun sl hsl ↦ ?_⟩
      obtain rfl := Option.some.inj hsl
      exact .root hi
    | @node p nd hp hend =>
      have hz := hend.resolve_right hnull
      refine ⟨_, rfl, iff_of_false (by simp) hsome, fun sl hsl ↦ ?_⟩
      obtain rfl := Option.some.inj hsl
      rw [hz]
      exact .node hp hz

/-- Tagged items do no harm while the root is a node and memory suffices. -/
structure Filling (t : Tree) (f : BitVec 64 → Option Item) : Prop where
  stands : Stands t f
  root : ∃ r, t.rnode = .node r
  oom : ∀ n, t.oom n = false

/-- One insertion, with the outcome that memory allows. -/
theorem Filling.insert {t : Tree} {f : BitVec 64 → Option Item} (h : Filling t f) (i : BitVec 64)
    (x : Item) :
    (f i = none ∧ ∃ t', radixTreeInsert t i x = .ok (t', 0) ∧
        Filling t' (Function.update f i (some x))) ∨
      ((f i).isSome ∧ radixTreeInsert t i x = .ok (t, -EEXIST)) := by
  obtain ⟨t', e, hrun, hi⟩ := radixTreeInsert_spec h.stands.wf i (.inr h.root)
  have hst := h.stands.of_inserted hi
  cases hi with
  | enomem hk hs hr hnone hoom =>
    have hfailed := hoom.2
    rw [h.oom] at hfailed
    cases hfailed
  | @present y hy =>
    exact .inr ⟨by rw [(h.stands.holds i y).mp hy]; rfl, hrun⟩
  | stored hwf hoom hnext hs hr hnone hholds hslim htall =>
    have hf : f i = none := by
      cases hf : f i with
      | none => rfl
      | some y => exact absurd ((h.stands.holds i y).mpr hf) (hnone y)
    rw [Call.effect, if_neg (by rw [hf]; simp [ENOMEM])] at hst
    obtain ⟨r, hroot⟩ := h.root
    exact .inl ⟨hf, t', hrun, hst, hr r hroot, fun n ↦ by rw [hoom, h.oom]⟩

theorem Filling.isMap {t : Tree} {f : BitVec 64 → Option Item} (h : Filling t f) : IsMap t f where
  lookup := h.stands.lookup_eq
  again i x hi := by
    rcases h.insert i x with ⟨hn, -⟩ | ⟨-, hrun⟩
    · rw [hn] at hi
      cases hi
    · exact hrun
  slot i := by
    obtain ⟨s, hs, hiff, -⟩ := radixTreeLookupSlot_spec h.stands i
    exact ⟨s, hs, hiff⟩
  slot_inj i j s hi hj := by
    obtain ⟨si, hsi, -, hslot⟩ := radixTreeLookupSlot_spec h.stands i
    obtain ⟨sj, hsj, -, hslot'⟩ := radixTreeLookupSlot_spec h.stands j
    rw [hsi, Except.ok.injEq] at hi
    rw [hsj, Except.ok.injEq] at hj
    exact (hslot s hi).index_unique (hslot' s hj)

/-- Insertions add to the map what it lacks. -/
theorem Filling.run {t : Tree} {f : BitVec 64 → Option Item} (h : Filling t f)
    (inserts : List (BitVec 64 × Item)) :
    ∃ t' rs, run t (inserts.map (fun p ↦ .insert p.1 p.2)) = .ok (t', rs) ∧
      Filling t' (fun i ↦ (f i).or (firstItem inserts i)) := by
  induction inserts generalizing t f with
  | nil => exact ⟨t, [], rfl, by simpa [firstItem] using h⟩
  | cons p inserts ih =>
    obtain ⟨i, x⟩ := p
    have hfirst : ∀ j, firstItem ((i, x) :: inserts) j
        = if i = j then some x else firstItem inserts j := by
      intro j
      by_cases hij : i = j <;> simp [firstItem, hij]
    -- the rest of the insertions from whatever the first one leaves
    have hrest : ∀ {t₁ : Tree} {f₁ : BitVec 64 → Option Item} {e : Int}, Filling t₁ f₁ →
        radixTreeInsert t i x = .ok (t₁, e) →
        (∀ j, (f₁ j).or (firstItem inserts j) = (f j).or (firstItem ((i, x) :: inserts) j)) →
        ∃ t' rs, RadixTree.run t (((i, x) :: inserts).map (fun p ↦ .insert p.1 p.2))
            = .ok (t', rs) ∧
          Filling t' (fun j ↦ (f j).or (firstItem ((i, x) :: inserts) j)) := by
      intro t₁ f₁ e hf hins hmap
      obtain ⟨t', rs, hrun, hf'⟩ := ih hf
      refine ⟨t', .code e :: rs, ?_, ?_⟩
      · rw [List.map_cons, RadixTree.run, Call.step, hins, Fault.ok_bind]
        simp only [pure, Except.pure, Fault.ok_bind, hrun]
      · rw [funext hmap] at hf'
        exact hf'
    rcases h.insert i x with ⟨hn, t₁, hins, hf⟩ | ⟨hs, hins⟩
    · refine hrest hf hins (fun j ↦ ?_)
      rw [hfirst, Function.update_apply]
      by_cases hij : j = i
      · rw [if_pos hij, if_pos hij.symm, hij, hn, Option.some_or, Option.none_or]
      · rw [if_neg hij, if_neg (Ne.symm hij)]
    · refine hrest h hins (fun j ↦ ?_)
      rw [hfirst]
      by_cases hij : i = j
      · obtain ⟨y, hy⟩ := Option.isSome_iff_exists.mp hs
        rw [← hij, hy, Option.some_or, Option.some_or]
      · rw [if_neg hij]

/-- **Insertions build a map.** After any insertions into a new tree, at any 64-bit indices, the
tree answers as the map of the first item inserted at each index. -/
theorem isMap_of_inserts (inserts : List (BitVec 64 × Item)) :
    ∃ t₀ t rs, radixTreeRootAlloc (fun _ ↦ false) = some t₀ ∧
      run t₀ (inserts.map (fun p ↦ .insert p.1 p.2)) = .ok (t, rs) ∧
      IsMap t (firstItem inserts) := by
  have h0 : Filling (emptyTree (fun _ ↦ false)) (fun _ ↦ none) :=
    ⟨(stands_emptyTree _).1, ⟨1, rfl⟩, fun _ ↦ rfl⟩
  obtain ⟨t, rs, hrun, hf⟩ := h0.run inserts
  exact ⟨_, t, rs, rfl, hrun, hf.isMap⟩

/-! ### Deletions -/

/-- **Deletion.** After a program whose deletions are careful, lookups follow the calls, and a
further deletion of an index that is present or beyond the nodes answers the stored item and
changes the answer at that index only. -/
theorem radixTreeDelete_law {oom : Nat → Bool} {t₀ : Tree} {calls : List Call}
    (h0 : radixTreeRootAlloc oom = some t₀) (h1 : oom 1 = false)
    (hcare : Along Call.careful t₀ calls = true) :
    ∃ t rs, run t₀ calls = .ok (t, rs) ∧
      (∀ i, radixTreeLookup t i = .ok (answer (history calls rs i))) ∧
      ∀ i, isPresent t i ∨ isBeyond t i →
        ∃ t', radixTreeDelete t i = .ok (t', answer (history calls rs i)) ∧
          radixTreeLookup t' i = .ok .null ∧
          ∀ j, j ≠ i → radixTreeLookup t' j = radixTreeLookup t j := by
  obtain rfl := rootAlloc_eq h0 h1
  obtain ⟨t, rs, hrun, hst⟩ := run_total (P := Call.careful) (I := Stands)
    (fun _ _ _ h hc ↦ h.step hc) (stands_emptyTree oom).1 hcare
  refine ⟨t, rs, hrun, hst.lookup_eq, fun i hi ↦ ?_⟩
  obtain ⟨t', hdel, -, hst'⟩ := hst.deleteItem i none
    (.inr (hst.deleteSafe ((Bool.or_eq_true _ _).mpr hi)))
  rw [if_neg (by simp)] at hst'
  refine ⟨t', ?_, ?_, fun j hj ↦ ?_⟩
  · rw [deleteAnswer, if_neg (by simp)] at hdel
    exact hdel
  · rw [hst'.lookup_eq, Function.update_self]
    rfl
  · rw [hst'.lookup_eq, hst.lookup_eq, Function.update_of_ne hj]

/-- `radixTreeDelete_law` after insertions at two indices and the deletion of one, of two levels. -/
theorem radixTreeDelete_law_two_levels :
    ∃ t rs, run (emptyTree (fun _ ↦ false))
        [.insert 1 ⟨4, by decide⟩, .insert 70 ⟨8, by decide⟩, .delete 70] = .ok (t, rs) ∧
      (∀ i, radixTreeLookup t i = .ok (answer (history
        [.insert 1 ⟨4, by decide⟩, .insert 70 ⟨8, by decide⟩, .delete 70] rs i))) ∧
      ∀ i, isPresent t i ∨ isBeyond t i →
        ∃ t', radixTreeDelete t i = .ok (t', answer (history
            [.insert 1 ⟨4, by decide⟩, .insert 70 ⟨8, by decide⟩, .delete 70] rs i)) ∧
          radixTreeLookup t' i = .ok .null ∧
          ∀ j, j ≠ i → radixTreeLookup t' j = radixTreeLookup t j :=
  radixTreeDelete_law (show radixTreeRootAlloc (fun _ ↦ false) = some (emptyTree _) from rfl) rfl
    (by decide +kernel)

/-- Deleting the absent index 2 frees the leaf that holds index 1. -/
theorem radixTreeDelete_loses_leaf :
    ∃ t rs t', run (emptyTree (fun _ ↦ false)) [.insert 1 ⟨4, by decide⟩] = .ok (t, rs) ∧
      radixTreeLookup t 1 = .ok (.item ⟨4, by decide⟩) ∧ radixTreeLookup t 2 = .ok .null ∧
      radixTreeDelete t 2 = .ok (t', .null) ∧ radixTreeLookup t' 1 = .ok .null :=
  ⟨_, _, _, rfl, rfl, rfl, rfl, rfl⟩

end Jeopardy.RadixTree
