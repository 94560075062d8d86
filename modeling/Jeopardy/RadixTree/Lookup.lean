import Jeopardy.RadixTree.Shape

/-!
# Lookups

What `__radix_tree_lookup` answers on a well-formed tree: the last node on the way of the
index and its slot, or the root pointer, or nothing for an index beyond the largest one.
-/

namespace Jeopardy.RadixTree

/-- The possible outcomes of `__radix_tree_lookup` for index `i`. -/
inductive Found (t : Tree) (i : BitVec 64) : Entry → Option (Option Nat × Slot) → Prop where
  | beyond (hnone : ∀ x, ¬ Holds t i x) : Found t i .null none
  | root (hr : ∀ r, t.rnode ≠ .node r) (hi : i = 0) : Found t i t.rnode (some (none, .root))
  | node {p : Nat} {nd : Node} (hp : On t i p nd)
      (hend : nd.shift = 0 ∨ nd.slots (slotOffset i nd.shift) = .null) :
      Found t i (nd.slots (slotOffset i nd.shift))
        (some (some p, .node p (slotOffset i nd.shift)))

theorem WF.isInternalNode_eq {t : Tree} (h : WF t) (hr : ∀ r, t.rnode ≠ .node r) :
    t.rnode.isInternalNode = false := by
  cases hroot : t.rnode with
  | null => rfl
  | item x => exact h.raw hroot
  | node r => exact absurd hroot (hr r)

theorem radixTreeLoadRoot_node {t : Tree} {r : Nat} {nr : Node} (hr : t.rnode = .node r)
    (hnr : t.node r = some nr) :
    radixTreeLoadRoot t = .ok (.node r, nodeMaxindex nr, nr.shift + 6) := by
  rw [radixTreeLoadRoot, hr, if_pos (isInternalNode_node r), entryToNode, Fault.ok_bind,
    Tree.read_eq hnr]
  rfl

theorem radixTreeLoadRoot_raw {t : Tree} (h : WF t) (hr : ∀ r, t.rnode ≠ .node r) :
    radixTreeLoadRoot t = .ok (t.rnode, 0, 0) := by
  rw [radixTreeLoadRoot, h.isInternalNode_eq hr, if_neg Bool.false_ne_true]
  rfl

/-- Induction on the level of the present node: each round either ends or goes one down. -/
theorem lookupLoop_spec {t : Tree} (h : WF t) {i : BitVec 64} {fuel : Nat} {p : Nat} {nd : Node}
    (hp : On t i p nd) (hfuel : nd.shift < 6 * fuel) (parent : Option Nat) (slot : Slot) :
    ∃ q nq, On t i q nq ∧ (nq.shift = 0 ∨ nq.slots (slotOffset i nq.shift) = .null) ∧
      lookupLoop t i fuel (.node p) parent slot
        = .ok (nq.slots (slotOffset i nq.shift), some q, .node q (slotOffset i nq.shift)) := by
  induction fuel generalizing p nd parent slot with
  | zero => omega
  | succ fuel ih =>
    rw [lookupLoop, if_pos (isInternalNode_node p), entryToNode,
      Fault.ok_bind, Tree.read_eq hp.1, Fault.ok_bind]
    simp only [radixTreeDescend]
    by_cases hs : nd.shift = 0
    · rw [if_pos hs]
      exact ⟨p, nd, hp, .inl hs, rfl⟩
    · rw [if_neg hs]
      by_cases hnull : nd.slots (slotOffset i nd.shift) = .null
      · obtain ⟨a, ha⟩ := h.shift_dvd hp.1
        obtain ⟨fuel, rfl⟩ := Nat.exists_eq_add_of_le (show 1 ≤ fuel by omega)
        refine ⟨p, nd, hp, .inr hnull, ?_⟩
        rw [hnull, Nat.add_comm, lookupLoop, isInternalNode_null, if_neg Bool.false_ne_true]
        rfl
      · obtain ⟨q, nq, hslot, hq, hsq⟩ := h.on_child hp hs hnull
        rw [hslot]
        exact ih hq (by omega) _ _

/-- A lookup completes, with one of the outcomes. -/
theorem rawRadixTreeLookup_spec {t : Tree} (h : WF t) (i : BitVec 64) :
    ∃ e out, rawRadixTreeLookup t i = .ok (e, out) ∧ Found t i e out := by
  by_cases hroot : ∃ r, t.rnode = .node r
  · obtain ⟨r, hr⟩ := hroot
    obtain ⟨nr, hnr, -, -⟩ := h.root hr
    rw [rawRadixTreeLookup, radixTreeLoadRoot_node hr hnr, Fault.ok_bind]
    by_cases hi : nodeMaxindex nr < i
    · refine ⟨.null, none, if_pos hi, .beyond ?_⟩
      rintro x (⟨hx, -⟩ | ⟨p, nd, hp, -, -⟩)
      · rw [hr] at hx
        exact absurd hx (by simp)
      · exact h.not_maxindex_lt hp hr hnr hi
    · have hle := h.shift_le hnr
      obtain ⟨q, nq, hq, hend, hloop⟩ := lookupLoop_spec h (h.on_root hr hnr hi)
        (show nr.shift < 6 * (LEVELS + 1) by unfold LEVELS; omega) none .root
      exact ⟨_, _, (if_neg hi).trans (by rw [hloop]; rfl), .node hq hend⟩
  · have hr : ∀ r, t.rnode ≠ .node r := fun r hr ↦ hroot ⟨r, hr⟩
    rw [rawRadixTreeLookup, radixTreeLoadRoot_raw h hr, Fault.ok_bind]
    by_cases hi : i = 0
    · subst hi
      refine ⟨t.rnode, some (none, .root), (if_neg (by simp)).trans ?_, .root hr rfl⟩
      rw [lookupLoop, h.isInternalNode_eq hr, if_neg Bool.false_ne_true]
      rfl
    · have hpos : (0 : BitVec 64) < i := by
        rw [BitVec.lt_def]
        have hne : i.toNat ≠ 0 := fun hz ↦ hi (BitVec.eq_of_toNat_eq hz)
        exact Nat.pos_of_ne_zero hne
      refine ⟨.null, none, if_pos hpos, .beyond ?_⟩
      intro x hx
      exact hi ((h.holds_of_raw hr i x).mp hx).2

/-- The entry of a lookup is the stored item. -/
theorem Found.entry_iff {t : Tree} (h : WF t) {i : BitVec 64} {e : Entry}
    {out : Option (Option Nat × Slot)} (hf : Found t i e out) (x : Item) :
    e = .item x ↔ Holds t i x := by
  cases hf with
  | beyond hnone => exact ⟨fun hx ↦ absurd hx (by simp), fun hx ↦ absurd hx (hnone x)⟩
  | root hr hi => rw [h.holds_of_raw hr, and_iff_left hi]
  | @node p nd hp hend =>
    by_cases hs : nd.shift = 0
    · rw [h.holds_of_leaf hp hs, hs]
    · have hnull := hend.resolve_left hs
      rw [hnull]
      exact ⟨fun hx ↦ absurd hx (by simp), fun hx ↦ absurd hx (h.not_holds_of_null hp hnull x)⟩

/-- No lookup answers with a node. -/
theorem Found.entry_ne_node {t : Tree} (h : WF t) {i : BitVec 64} {e : Entry}
    {out : Option (Option Nat × Slot)} (hf : Found t i e out) (q : Nat) : e ≠ .node q := by
  cases hf with
  | beyond _ => simp
  | root hr _ => exact hr q
  | @node p nd hp hend =>
    rcases hend with hs | hnull
    · exact h.leaf hp.1 hs
    · rw [hnull]
      simp

theorem Found.entry_null_iff {t : Tree} (h : WF t) {i : BitVec 64} {e : Entry}
    {out : Option (Option Nat × Slot)} (hf : Found t i e out) :
    e = .null ↔ ∀ x, ¬ Holds t i x := by
  cases he : e with
  | null =>
    subst he
    exact iff_of_true rfl (fun x hx ↦ absurd ((hf.entry_iff h x).mpr hx) (by simp))
  | item x =>
    subst he
    exact iff_of_false (by simp) (fun hn ↦ hn x ((hf.entry_iff h x).mp rfl))
  | node q => exact absurd he (hf.entry_ne_node h q)

/-- What `radix_tree_lookup` answers for a tree that stores `stored` at the index. -/
def answer (stored : Option Item) : Entry := stored.elim .null .item

@[simp] theorem answer_none : answer none = .null := rfl

@[simp] theorem answer_some (x : Item) : answer (some x) = .item x := rfl

theorem answer_eq_item {o : Option Item} {x : Item} : answer o = .item x ↔ o = some x := by
  cases o <;> simp

theorem answer_eq_null {o : Option Item} : answer o = .null ↔ o = none := by
  cases o <;> simp

theorem Found.entry_eq {t : Tree} (h : WF t) {i : BitVec 64} {e : Entry}
    {out : Option (Option Nat × Slot)} (hf : Found t i e out) {stored : Option Item}
    (hst : ∀ x, Holds t i x ↔ stored = some x) : e = answer stored := by
  cases hs : stored with
  | none =>
    rw [answer_none, hf.entry_null_iff h]
    intro x
    rw [hst, hs]
    simp
  | some x => rw [answer_some, hf.entry_iff h, hst, hs]

/-- `radix_tree_lookup` answers the stored item. -/
theorem radixTreeLookup_eq {t : Tree} (h : WF t) {i : BitVec 64} {stored : Option Item}
    (hst : ∀ x, Holds t i x ↔ stored = some x) : radixTreeLookup t i = .ok (answer stored) := by
  obtain ⟨e, out, hrun, hf⟩ := rawRadixTreeLookup_spec h i
  rw [radixTreeLookup, hrun, Fault.ok_bind, hf.entry_eq h hst]
  rfl

end Jeopardy.RadixTree
