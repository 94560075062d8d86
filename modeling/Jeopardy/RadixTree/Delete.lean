import Jeopardy.RadixTree.Create

/-!
# Deletion

`delete_node` takes empty nodes away bottom up, and `radix_tree_shrink` takes roots away whose
only child is the leftmost one. Neither touches the contents, and together they restore what
`radix_tree_insert` relies on. `radix_tree_delete_item` clears the slot before that; at an absent
index it goes on with a slot of whatever node the lookup ended at.
-/

namespace Jeopardy.RadixTree

/-! ### Shrinking -/

section Shrink

variable {t : Tree} {r : Nat} {nr : Node}

theorem Slim.lower (h : WF t) (hr : t.rnode = .node r) (hnr : t.node r = some nr)
    (hu : nr.used = 1) {c : Nat} {nc : Node} (hc : nr.slots 0 = .node c) (hnc : t.node c = some nc)
    (hcr : c ≠ r) (hcov : Covers t c 0) (hl : Slim t) : Slim (t.lower r c nc) := by
  intro x nx hx hux
  obtain ⟨hxr, ⟨rfl, rfl⟩ | ⟨-, hx⟩⟩ := lower_eq_some hx
  · obtain ⟨hz, hb⟩ := hl x nc hnc hux
    exact ⟨hz, hcov.lower h hr hnr hu hc hcr hb hxr⟩
  · obtain ⟨hz, hb⟩ := hl x nx hx hux
    exact ⟨hz, hcov.lower h hr hnr hu hc hcr hb hxr⟩

/-- A root that `radix_tree_shrink` keeps has a second child. -/
theorem Tall.of_kept_root (h : WF t) (hr : t.rnode = .node r) (hnr : t.node r = some nr)
    (hkeep : nr.count ≠ 1 ∨ nr.slots 0 = .null ∨ nr.shift = 0) (hl : Slim t) : Tall t := by
  intro r' nr' hr' hnr' hs
  rw [hr, Entry.node.injEq] at hr'
  subst hr'
  rw [hnr, Option.some.injEq] at hnr'
  subst hnr'
  have hu : nr.used ≠ 0 := fun hu ↦ hs (hl r nr hnr hu).1
  rcases hkeep with hc | hnull | hz
  · exact Slots.exists_occupied_ne 0 (by
      have h1 := mt (h.count_eq_one_iff hnr).mpr hc
      show 2 ≤ nr.used
      omega)
  · obtain ⟨o, ho⟩ := Slots.exists_occupied hu
    exact ⟨o, fun h0 ↦ ho (h0 ▸ hnull), ho⟩
  · exact absurd hz hs

/-- One round that takes the root away. -/
theorem radixTreeShrink_lower (hr : t.rnode = .node r) (hnr : t.node r = some nr)
    (hgo : ¬ (nr.count ≠ 1 ∨ nr.slots 0 = .null ∨ nr.shift = 0)) {c : Nat} {nc : Node}
    (hc : nr.slots 0 = .node c) (hnc : t.node c = some nc) (hcr : c ≠ r) (fuel : Nat)
    (shrunk : Bool) :
    radixTreeShrink (fuel + 1) t shrunk = radixTreeShrink fuel (t.lower r c nc) true := by
  have hr₁ : ({ t.setNode c (some { nc with parent := none }) with rnode := .node c } : Tree).node r
      = some nr := by
    rw [← hnr]
    exact Tree.setNode_of_ne hcr.symm _
  rw [radixTreeShrink, hr, if_pos (isInternalNode_node r), entryToNode, Fault.ok_bind,
    Tree.read_eq hnr, Fault.ok_bind]
  simp only [if_neg hgo]
  rw [hc, if_pos (isInternalNode_node c), Tree.setParent, Tree.modify_eq hnc, Fault.ok_bind,
    Tree.store, Fault.ok_bind, Tree.modify_eq hr₁, Fault.ok_bind,
    Tree.free_eq (Tree.setNode_self _ _ _), Fault.ok_bind, Tree.setNode_setNode]
  rfl

/-- Induction on the level of the root. -/
theorem radixTreeShrink_spec (h : WF t) (hr : t.rnode = .node r) (hnr : t.node r = some nr)
    {fuel : Nat} (hfuel : nr.shift < 6 * fuel) (shrunk : Bool) :
    ∃ t' s, radixTreeShrink fuel t shrunk = .ok (t', s) ∧ Kept t t' ∧
      t'.itemStores = t.itemStores ∧ (Slim t → Slim t' ∧ Tall t') := by
  induction fuel generalizing t r nr shrunk with
  | zero => omega
  | succ fuel ih =>
    by_cases hstop : nr.count ≠ 1 ∨ nr.slots 0 = .null ∨ nr.shift = 0
    · refine ⟨t, shrunk, ?_, .refl h, rfl, fun hl ↦ ⟨hl, .of_kept_root h hr hnr hstop hl⟩⟩
      rw [radixTreeShrink, hr, if_pos (isInternalNode_node r), entryToNode, Fault.ok_bind,
        Tree.read_eq hnr, Fault.ok_bind]
      exact if_pos hstop
    · have hgo := hstop
      rw [not_or, not_or, not_not] at hgo
      obtain ⟨hone, hchild, hs⟩ := hgo
      obtain ⟨c, nc, hc, hnc, hsc, hpar, hoff, hcr, hcov⟩ := h.root_child hr hnr hs hchild
      have hu := (h.count_eq_one_iff hnr).mp hone
      have hwf := h.lower hr hnr hu hc hnc hpar hoff hcr
      have hk : Kept t (t.lower r c nc) :=
        ⟨hwf, lower_holds h hr hnr hs hu hc hnc hcr hcov, rfl, le_rfl⟩
      obtain ⟨t', s, hrun, hk', hst, hl⟩ := ih hwf rfl (lower_child t hcr)
        (show nc.shift < 6 * fuel by omega) true
      refine ⟨t', s, ?_, hk.trans hk', hst, fun hslim ↦
        hl (hslim.lower h hr hnr hu hc hnc hcr hcov)⟩
      rw [radixTreeShrink_lower hr hnr hstop hc hnc hcr]
      exact hrun

end Shrink

/-! ### Taking empty nodes away -/

section DeleteNode

variable {t : Tree} {p q : Nat} {nd nq : Node}

/-- The parent may be the next empty node. -/
theorem Bare.prune (h : WF t) (hp : t.node p = some nd) (hu : nd.used = 0)
    (hq : t.node q = some nq) {o : Fin 64} (hb : Bare t p) : Bare (t.prune p q nq o) q := by
  intro x nx hx hux
  obtain ⟨hxp, ⟨hxq, -⟩ | ⟨-, hx⟩⟩ := prune_eq_some hx
  · exact .inl hxq
  · obtain ⟨hz, hc⟩ := (hb x nx hx hux).resolve_left hxp
    exact .inr ⟨hz, hc.prune h hp hu hq hxp⟩

theorem Tall.prune {o : Fin 64} (ht : Tall t) :
    Tall (t.prune p q nq o) ∨ (t.prune p q nq o).rnode = .node q := by
  by_cases hrq : t.rnode = .node q
  · exact .inr hrq
  · refine .inl (fun r nr hr hnr hs ↦ ?_)
    obtain ⟨-, ⟨rfl, -⟩ | ⟨-, hx⟩⟩ := prune_eq_some hnr
    · exact absurd hr hrq
    · exact ht r nr hr hx hs

/-- The empty root taken away leaves no node. -/
theorem clearRoot_spec (h : WF t) (hr : t.rnode = .node p) (hp : t.node p = some nd)
    (hu : nd.used = 0) : Kept t (({ t with rnode := .null } : Tree).setNode p none) ∧
      Slim (({ t with rnode := .null } : Tree).setNode p none) ∧
      Tall (({ t with rnode := .null } : Tree).setNode p none) := by
  have hnone : ∀ x, (({ t with rnode := .null } : Tree).setNode p none).node x = none := by
    intro x
    rw [Tree.setNode_node]
    split
    · rfl
    · next hx =>
      change t.node x = none
      cases hnx : t.node x with
      | none => rfl
      | some nx => exact absurd (h.eq_root_of_used hr hp hu hnx) hx
  have hraw : ∀ r, (({ t with rnode := .null } : Tree).setNode p none).rnode ≠ .node r :=
    fun r hr ↦ nomatch hr
  have hwf := WF.of_no_node hnone hraw (fun x hx ↦ nomatch hx)
  refine ⟨⟨hwf, fun i x ↦ ?_, rfl, le_rfl⟩, fun x nx hx ↦ ?_, fun r nr hr ↦ absurd hr (hraw r)⟩
  · rw [hwf.holds_of_raw hraw]
    refine iff_of_false (fun hx ↦ nomatch hx.1) ?_
    rintro (⟨hx, -⟩ | ⟨y, ny, hy, -, hslot⟩)
    · rw [hr] at hx
      cases hx
    · have hyp := h.eq_root_of_used hr hp hu hy.1
      have hy1 := hy.1
      rw [hyp, hp, Option.some.injEq] at hy1
      rw [← hy1, Slots.occupied_eq_zero_iff.mp hu] at hslot
      cases hslot
  · rw [hnone] at hx
    cases hx

/-- Induction on the levels above the node. -/
theorem deleteNode_spec (h : WF t) (hp : t.node p = some nd) {fuel : Nat}
    (hfuel : 60 < nd.shift + 6 * fuel) (deleted : Bool) :
    ∃ t' d, deleteNode fuel t p deleted = .ok (t', d) ∧ Kept t t' ∧
      t'.itemStores = t.itemStores ∧ (Bare t p → Slim t') ∧
      (Bare t p → Tall t ∨ t.rnode = .node p → Tall t') := by
  induction fuel generalizing t p nd deleted with
  | zero =>
    have := h.shift_le hp
    omega
  | succ fuel ih =>
    have hle := h.shift_le hp
    rw [deleteNode, Tree.read_eq hp, Fault.ok_bind]
    by_cases hcount : nd.count ≠ 0
    · rw [if_pos hcount]
      have hu : nd.used ≠ 0 := mt (h.count_eq_zero_iff hp).mpr hcount
      -- the node is not empty, so none but the leftmost leaf is
      have hslim : Bare t p → Slim t := fun hb x nx hx hux ↦ by
        refine (hb x nx hx hux).resolve_left (fun hxp ↦ hu ?_)
        rw [hxp, hp, Option.some.injEq] at hx
        rw [hx]
        exact hux
      by_cases hroot : nodeToEntry p = t.rnode
      · obtain ⟨t', s, hrun, hk, hst, hl⟩ := radixTreeShrink_spec h hroot.symm hp
          (show nd.shift < 6 * LEVELS by unfold LEVELS; omega) false
        refine ⟨t', deleted || s, ?_, hk, hst, fun hb ↦ (hl (hslim hb)).1,
          fun hb _ ↦ (hl (hslim hb)).2⟩
        rw [if_pos hroot, hrun]
        rfl
      · refine ⟨t, deleted, by rw [if_neg hroot]; rfl, .refl h, rfl, hslim, fun _ ht ↦ ?_⟩
        exact ht.resolve_right (fun hr ↦ hroot hr.symm)
    · rw [if_neg hcount]
      have hu : nd.used = 0 := (h.count_eq_zero_iff hp).mp (not_not.mp hcount)
      cases hpar : nd.parent with
      | none =>
        have hr := h.orphan hp hpar
        obtain ⟨hk, hl, ht⟩ := clearRoot_spec h hr hp hu
        refine ⟨_, true, ?_, hk, rfl, fun _ ↦ hl, fun _ _ ↦ ht⟩
        simp only [Tree.store, Fault.ok_bind,
          Tree.free_eq (show ({ t with rnode := .null } : Tree).node p = some nd from hp)]
        rfl
      | some q =>
        obtain ⟨nq, hq, hs, hslot⟩ := h.parent hp hpar
        have hqp : p ≠ q := by
          rintro rfl
          rw [hp, Option.some.injEq] at hq
          rw [hq] at hs
          omega
        have hwf := h.prune hp hu hpar hq
        have hk : Kept t (t.prune p q nq nd.offset) :=
          ⟨hwf, prune_holds h hp hu hpar hq, rfl, le_rfl⟩
        have hq' : (t.prune p q nq nd.offset).node q = some (nq.detach nd.offset) := by
          rw [Tree.prune_node, if_neg hqp.symm, if_pos rfl]
        obtain ⟨t', d, hrun, hk', hst, hl, ht⟩ := ih hwf hq'
          (show 60 < nq.shift + 6 * fuel by omega) true
        refine ⟨t', d, ?_, hk.trans hk', hst, fun hb ↦ hl (hb.prune h hp hu hq), fun hb htall ↦
          ht (hb.prune h hp hu hq) ?_⟩
        · have hfree : (t.setNode q (some (nq.detach nd.offset))).free p
              = .ok (t.prune p q nq nd.offset) :=
            Tree.free_eq (by rw [Tree.setNode_of_ne hqp, hp])
          simp only [Tree.modify_eq hq, Fault.ok_bind]
          change ((t.setNode q (some (nq.detach nd.offset))).free p >>= _) = _
          rw [hfree, Fault.ok_bind]
          exact hrun
        · refine (htall.resolve_right (fun hr ↦ ?_)).prune
          obtain ⟨nd', hnd', hpar', -⟩ := h.root hr
          rw [hp, Option.some.injEq] at hnd'
          rw [← hnd', hpar] at hpar'
          cases hpar'

end DeleteNode

/-! ### Clearing the slot -/

/-- A leaf with one item less. -/
def Node.clear (nd : Node) (o : Fin 64) (values : Int) : Node :=
  { nd with
    count := nd.count - 1
    nr_values := nd.nr_values + BitVec.ofInt 32 values
    slots := Function.update nd.slots o .null }

theorem add_ofInt_neg_one (c : BitVec 32) : c + BitVec.ofInt 32 (-1) = c - 1 := by
  rw [BitVec.sub_eq_add_neg]
  rfl

theorem Node.clear_used {nd : Node} {o : Fin 64} (ho : nd.slots o ≠ .null) (values : Int) :
    (nd.clear o values).used + 1 = nd.used :=
  Slots.occupied_clear ho

theorem Node.OK.clear {nd : Node} (h : nd.OK) (hz : nd.shift = 0) {o : Fin 64}
    (ho : nd.slots o ≠ .null) (values : Int) : (nd.clear o values).OK where
  shift_le := h.shift_le
  shift_dvd := h.shift_dvd
  count_eq := by
    show nd.count - 1 = BitVec.ofNat 32 (nd.clear o values).used
    rw [h.count_eq, ← Node.clear_used ho values, BitVec.ofNat_add]
    exact BitVec.add_sub_cancel _ _
  leaf _ o' q := by
    rw [show (nd.clear o values).slots o' = if o' = o then .null else nd.slots o' from
      Function.update_apply _ _ _ _]
    split
    · simp
    · exact h.leaf hz o' q
  top h60 := absurd (show nd.shift = 60 from h60) (by omega)

/-- The outcome of a deletion at index `i` that answers `e`: with a non-`NULL` answer the index is
gone, otherwise nothing has changed. -/
structure Deleted (t : Tree) (i : BitVec 64) (e : Entry) (t' : Tree) : Prop where
  wf : WF t'
  oom : t'.oom = t.oom
  next : t.next ≤ t'.next
  stores : t'.itemStores = t.itemStores
  holds : ∀ j x, Holds t' j x ↔ ¬ (j = i ∧ e ≠ .null) ∧ Holds t j x
  slim : Slim t → Slim t'
  tall : Slim t → Tall t → Tall t'

theorem Deleted.none {t : Tree} (h : WF t) (i : BitVec 64) : Deleted t i .null t :=
  ⟨h, rfl, le_rfl, rfl, fun _ _ ↦ by simp, id, fun _ ↦ id⟩

/-- The index is present, or a lookup ends at the root pointer or beyond the largest index: then
no count goes wrong. -/
def DeleteSafe (t : Tree) (i : BitVec 64) : Prop :=
  (∃ x, Holds t i x) ∨ ∀ r nr, t.rnode = .node r → t.node r = some nr → nodeMaxindex nr < i

section DeleteItem

variable {t : Tree} {i : BitVec 64}

/-- Deletion of the item in a leaf: the slot is cleared, and the leaf goes if it is empty. -/
theorem rawRadixTreeDelete_leaf_eq {p : Nat} {nd : Node} (hp : t.node p = some nd) {o : Fin 64}
    {x : Item} (hx : nd.slots o = .item x) : rawRadixTreeDelete t (some p) (.node p o)
      = deleteNode LEVELS
          (t.setNode p (some (nd.clear o (if xaIsValue (.item x) then -1 else 0)))) p false := by
  rw [rawRadixTreeDelete, Tree.load_eq hp, Fault.ok_bind, hx]
  simp only [replaceSlot, if_pos (show (-1 : Int) ≠ 0 ∨
    (if xaIsValue (.item x) then (-1 : Int) else 0) ≠ 0 from .inl (by decide)),
    Tree.modify_eq hp, Fault.ok_bind, Tree.store_eq (Tree.setNode_self _ _ _),
    Tree.setNode_setNode, add_ofInt_neg_one]
  rfl

theorem rawRadixTreeDelete_leaf (h : WF t) {p : Nat} {nd : Node} (hp : On t i p nd)
    (hz : nd.shift = 0) {x : Item} (hx : nd.slots (slotOffset i 0) = .item x) :
    ∃ t' d, rawRadixTreeDelete t (some p) (.node p (slotOffset i 0)) = .ok (t', d) ∧
      Deleted t i (.item x) t' := by
  have ho : nd.slots (slotOffset i 0) ≠ .null := by rw [hx]; simp
  -- the tree with the slot cleared
  have hclear : ∀ values : Int, ∃ t' d,
      deleteNode LEVELS (t.setNode p (some (nd.clear (slotOffset i 0) values))) p false
        = .ok (t', d) ∧ Deleted t i (.item x) t' := by
    intro values
    have hok := (h.ok hp.1).clear hz ho values
    have hs : (nd.clear (slotOffset i 0) values).shift = nd.shift := rfl
    have hwf := h.setLeaf hp.1 hz hok hs rfl rfl
    obtain ⟨t', d, hrun, hk, hst, hl, ht⟩ := deleteNode_spec hwf (Tree.setNode_self _ _ _)
      (show 60 < nd.shift + 6 * LEVELS by unfold LEVELS; omega) false
    have hbare : Slim t → Bare (t.setNode p (some (nd.clear (slotOffset i 0) values))) p := by
      intro hslim y ny hy hu
      rw [Tree.setNode_node] at hy
      split at hy
      · next hyp => exact .inl hyp
      · obtain ⟨hzy, hc⟩ := hslim y ny hy hu
        exact .inr ⟨hzy, hc.stays (leaf_stays hp.1 hs rfl rfl)⟩
    refine ⟨t', d, hrun, hk.wf, hk.oom, hk.next, hst, fun j y ↦ ?_, fun hslim ↦ hl (hbare hslim),
      fun hslim htall ↦ ht (hbare hslim) (.inl (htall.setLeaf hz))⟩
    rw [hk.holds, setLeaf_holds h hp hz hs rfl rfl hok rfl]
    by_cases hj : j = i
    · simp [hj]
    · simp [hj]
  obtain ⟨t', d, hrun, hd⟩ := hclear (if xaIsValue (.item x) then -1 else 0)
  exact ⟨t', d, (rawRadixTreeDelete_leaf_eq hp.1 hx).trans hrun, hd⟩

/-- A leaf that keeps an item stays, and with it the rest of the tree. -/
theorem rawRadixTreeDelete_leaf_kept (h : WF t) {p : Nat} {nd : Node} (hp : t.node p = some nd)
    (hz : nd.shift = 0) {o : Fin 64} {x : Item} (hx : nd.slots o = .item x) (hu : nd.used ≠ 1) :
    ∃ values, rawRadixTreeDelete t (some p) (.node p o)
      = .ok (t.setNode p (some (nd.clear o values)), false) := by
  refine ⟨if xaIsValue (.item x) then -1 else 0, ?_⟩
  rw [rawRadixTreeDelete_leaf_eq hp hx]
  generalize (if xaIsValue (.item x) then (-1 : Int) else 0) = values
  have ho : nd.slots o ≠ .null := by rw [hx]; simp
  have hwf := h.setLeaf hp hz ((h.ok hp).clear hz ho values) rfl rfl rfl
  have hself := Tree.setNode_self t p (some (nd.clear o values))
  have hcount : (nd.clear o values).count ≠ 0 := by
    rw [Ne, hwf.count_eq_zero_iff hself]
    have := Node.clear_used ho values
    omega
  rw [LEVELS, deleteNode, Tree.read_eq hself, Fault.ok_bind, if_pos hcount]
  by_cases hroot : nodeToEntry p = t.rnode
  · rw [Tree.setNode_rnode, if_pos hroot, LEVELS, radixTreeShrink, Tree.setNode_rnode, ← hroot,
      nodeToEntry, if_pos (isInternalNode_node p), entryToNode, Fault.ok_bind,
      Tree.read_eq hself, Fault.ok_bind]
    simp only [show (nd.clear o values).shift = 0 from hz, or_true, if_true]
    rfl
  · rw [Tree.setNode_rnode, if_neg hroot]
    rfl

/-- Once a node has been freed, `delete_node` says so. -/
theorem deleteNode_deleted {fuel : Nat} {t' : Tree} {p : Nat} {d : Bool}
    (hrun : deleteNode fuel t p true = .ok (t', d)) : d = true := by
  induction fuel generalizing t p with
  | zero => cases hrun
  | succ fuel ih =>
    rw [deleteNode] at hrun
    obtain ⟨nd, -, hrun⟩ := Fault.bind_eq_ok.mp hrun
    split at hrun
    · split at hrun
      · obtain ⟨⟨t₁, s⟩, -, hrun⟩ := Fault.bind_eq_ok.mp hrun
        cases hrun
        rfl
      · cases hrun
        rfl
    · split at hrun
      · obtain ⟨t₁, -, hrun⟩ := Fault.bind_eq_ok.mp hrun
        obtain ⟨t₂, -, hrun⟩ := Fault.bind_eq_ok.mp hrun
        exact ih hrun
      · obtain ⟨t₁, -, hrun⟩ := Fault.bind_eq_ok.mp hrun
        obtain ⟨t₂, -, hrun⟩ := Fault.bind_eq_ok.mp hrun
        cases hrun
        rfl

/-- A leaf that loses its only item is freed. -/
theorem rawRadixTreeDelete_leaf_freed (h : WF t) {t' : Tree} {p : Nat} {nd : Node} {d : Bool}
    (hp : t.node p = some nd) (hz : nd.shift = 0) {o : Fin 64} {x : Item}
    (hx : nd.slots o = .item x) (hu : nd.used = 1)
    (hrun : rawRadixTreeDelete t (some p) (.node p o) = .ok (t', d)) : d = true := by
  rw [rawRadixTreeDelete_leaf_eq hp hx] at hrun
  generalize (if xaIsValue (.item x) then (-1 : Int) else 0) = values at hrun
  have ho : nd.slots o ≠ .null := by rw [hx]; simp
  have hwf := h.setLeaf hp hz ((h.ok hp).clear hz ho values) rfl rfl rfl
  have hself := Tree.setNode_self t p (some (nd.clear o values))
  have hcount : (nd.clear o values).count = 0 := by
    rw [hwf.count_eq_zero_iff hself]
    have := Node.clear_used ho values
    omega
  rw [LEVELS, deleteNode, Tree.read_eq hself, Fault.ok_bind, if_neg (not_not.mpr hcount)] at hrun
  split at hrun
  · obtain ⟨t₁, -, hrun⟩ := Fault.bind_eq_ok.mp hrun
    obtain ⟨t₂, -, hrun⟩ := Fault.bind_eq_ok.mp hrun
    exact deleteNode_deleted hrun
  · obtain ⟨t₁, -, hrun⟩ := Fault.bind_eq_ok.mp hrun
    obtain ⟨t₂, -, hrun⟩ := Fault.bind_eq_ok.mp hrun
    cases hrun
    rfl

/-- Deletion through the root pointer of a tree without nodes. -/
theorem rawRadixTreeDelete_root (h : WF t) (hr : ∀ r, t.rnode ≠ .node r) :
    rawRadixTreeDelete t none .root = .ok ({ t with rnode := .null }, false) ∧
      Deleted t 0 t.rnode { t with rnode := .null } := by
  have hnone := h.node_eq_none hr
  have hraw : ∀ r, ({ t with rnode := .null } : Tree).rnode ≠ .node r := fun r hr ↦ nomatch hr
  have hwf : WF { t with rnode := .null } := .of_no_node hnone hraw (fun x hx ↦ nomatch hx)
  refine ⟨rfl, hwf, rfl, le_rfl, rfl, fun j x ↦ ?_, fun _ x nx hx ↦ ?_,
    fun _ _ r nr hr ↦ absurd hr (hraw r)⟩
  · rw [hwf.holds_of_raw hraw, h.holds_of_raw hr]
    refine iff_of_false (fun hx ↦ nomatch hx.1) ?_
    rintro ⟨hn, hx, hj⟩
    exact hn ⟨hj, by rw [hx]; simp⟩
  · exact absurd ((hnone x).symm.trans hx) (by simp)

/-- Deletion where a lookup has ended. -/
theorem rawRadixTreeDelete_found (h : WF t) {e : Entry} {node : Option Nat} {slot : Slot}
    (hf : Found t i e (some (node, slot))) (hsafe : e ≠ .null ∨ DeleteSafe t i) :
    ∃ t' d, rawRadixTreeDelete t node slot = .ok (t', d) ∧ Deleted t i e t' := by
  have hitem := hf.entry_iff h
  cases hf with
  | root hr hi =>
    subst hi
    obtain ⟨hrun, hd⟩ := rawRadixTreeDelete_root h hr
    exact ⟨_, _, hrun, hd⟩
  | @node p nd hp hend =>
    have hpresent : ∃ x, nd.slots (slotOffset i nd.shift) = .item x := by
      rcases hsafe with hne | ⟨x, hx⟩ | hbeyond
      · have hz : nd.shift = 0 := hend.resolve_right hne
        cases hx : nd.slots (slotOffset i nd.shift) with
        | null => exact absurd hx hne
        | node q => exact absurd hx (h.leaf hp.1 hz)
        | item x => exact ⟨x, rfl⟩
      · exact ⟨x, (hitem x).mpr hx⟩
      · obtain ⟨r, nr, hr, hnr, -⟩ := h.root_above hp.2 hp.1
        exact absurd (hbeyond r nr hr hnr) (h.not_maxindex_lt hp hr hnr)
    obtain ⟨x, hx⟩ := hpresent
    have hz : nd.shift = 0 := hend.resolve_right (by rw [hx]; simp)
    rw [hx]
    rw [hz] at hx ⊢
    exact rawRadixTreeDelete_leaf h hp hz hx

/-- What a deletion answers: the stored item, unless another one is expected. -/
def deleteAnswer (stored item : Option Item) : Entry :=
  if item.isSome ∧ item ≠ stored then .null else answer stored

/-- Every deletion that expects an item or is safe completes with `deleteAnswer`, and does what
the answer says. -/
theorem radixTreeDeleteItem_spec (h : WF t) {stored : Option Item}
    (hst : ∀ x, Holds t i x ↔ stored = some x) (item : Option Item)
    (hsafe : item.isSome ∨ DeleteSafe t i) :
    ∃ t', radixTreeDeleteItem t i item = .ok (t', deleteAnswer stored item) ∧
      Deleted t i (deleteAnswer stored item) t' := by
  obtain ⟨e, out, hrun, hf⟩ := rawRadixTreeLookup_spec h i
  have he := hf.entry_eq h hst
  subst he
  rw [radixTreeDeleteItem, hrun, Fault.ok_bind]
  cases out with
  | none =>
    -- the index is beyond the largest one
    have hnull : answer stored = .null := by
      generalize answer stored = e at hf
      cases hf
      rfl
    have hans : deleteAnswer stored item = .null := by
      rw [deleteAnswer, hnull, ite_self]
    rw [hans]
    exact ⟨t, rfl, .none h i⟩
  | some out =>
    obtain ⟨node, slot⟩ := out
    cases item with
    | none =>
      have hans : deleteAnswer stored none = answer stored := if_neg (by simp)
      rw [hans]
      obtain ⟨t', d, hdel, hd⟩ := rawRadixTreeDelete_found h hf
        (.inr (hsafe.resolve_left (by simp)))
      refine ⟨t', ?_, hd⟩
      simp only [hdel, Fault.ok_bind]
      rfl
    | some y =>
      by_cases hy : stored = some y
      · have hans : deleteAnswer stored (some y) = answer stored := if_neg (by simp [hy])
        rw [hans]
        obtain ⟨t', d, hdel, hd⟩ := rawRadixTreeDelete_found h hf (.inl (by rw [hy]; simp))
        refine ⟨t', ?_, hd⟩
        simp only [if_neg (not_not.mpr (answer_eq_item.mpr hy)), hdel, Fault.ok_bind]
        rfl
      · have hans : deleteAnswer stored (some y) = .null := if_pos ⟨rfl, fun h ↦ hy h.symm⟩
        rw [hans]
        refine ⟨t, ?_, .none h i⟩
        simp only [if_pos (mt answer_eq_item.mp hy)]
        rfl

end DeleteItem

end Jeopardy.RadixTree
