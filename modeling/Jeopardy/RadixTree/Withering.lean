import Jeopardy.RadixTree.Canonical

/-!
# Withering, one node at a time

The counterpart of `Jeopardy.RadixTree.Growth` for deletions: `delete_node` and
`radix_tree_shrink` only take empty nodes from their parents, take the last node away, or make the
only child of the root the root. Every such step keeps the counts of value entries.
-/

namespace Jeopardy.RadixTree

/-- What `delete_node` makes of a tree, one freed node after another. -/
inductive Withers (t : Tree) : Tree → Prop where
  | refl : Withers t t
  | prune {t' : Tree} {p q : Nat} {nd nq : Node} (h : Withers t t') (hp : t'.node p = some nd)
      (hu : nd.used = 0) (hpar : nd.parent = some q) (hq : t'.node q = some nq) :
      Withers t (t'.prune p q nq nd.offset)
  | clear {t' : Tree} {p : Nat} {nd : Node} (h : Withers t t') (hr : t'.rnode = .node p)
      (hp : t'.node p = some nd) (hu : nd.used = 0) :
      Withers t (({ t' with rnode := .null } : Tree).setNode p none)
  | lower {t' : Tree} {r c : Nat} {nr nc : Node} (h : Withers t t') (hr : t'.rnode = .node r)
      (hnr : t'.node r = some nr) (hs : nr.shift ≠ 0) (hu : nr.used = 1)
      (hc : nr.slots 0 = .node c) (hnc : t'.node c = some nc) : Withers t (t'.lower r c nc)

namespace Withers

variable {t t' t'' : Tree}

theorem trans (h : Withers t t') (h' : Withers t' t'') : Withers t t'' := by
  induction h' with
  | refl => exact h
  | prune _ hp hu hpar hq ih => exact .prune ih hp hu hpar hq
  | clear _ hr hp hu ih => exact .clear ih hr hp hu
  | lower _ hr hnr hs hu hc hnc ih => exact .lower ih hr hnr hs hu hc hnc

theorem wf (h : Withers t t') (hw : WF t) : WF t' := by
  induction h with
  | refl => exact hw
  | prune _ hp hu hpar hq ih => exact ih.prune hp hu hpar hq
  | clear _ hr hp hu ih => exact (clearRoot_spec ih hr hp hu).1.wf
  | lower _ hr hnr hs hu hc hnc ih =>
    obtain ⟨c', nc', hc', hnc', -, hpar, hoff, hcr, -⟩ :=
      ih.root_child hr hnr hs (by rw [hc]; simp)
    obtain rfl := Entry.node.inj (hc'.symm.trans hc)
    obtain rfl := Option.some.inj (hnc'.symm.trans hnc)
    exact ih.lower hr hnr hu hc hnc hpar hoff hcr

/-- Nothing is allocated. -/
theorem next_eq (h : Withers t t') : t'.next = t.next := by
  induction h with
  | refl => rfl
  | prune _ _ _ _ _ ih => exact ih
  | clear _ _ _ _ ih => exact ih
  | lower _ _ _ _ _ _ _ ih => exact ih

end Withers

/-! ### The two loops -/

section Loops

variable {t t' : Tree}

theorem radixTreeShrink_withers (h : WF t) {r fuel : Nat} {nr : Node} {s s' : Bool}
    (hr : t.rnode = .node r) (hnr : t.node r = some nr)
    (hrun : radixTreeShrink fuel t s = .ok (t', s')) : Withers t t' := by
  induction fuel generalizing t r nr s with
  | zero => cases hrun
  | succ fuel ih =>
    by_cases hstop : nr.count ≠ 1 ∨ nr.slots 0 = .null ∨ nr.shift = 0
    · rw [radixTreeShrink, hr, if_pos (isInternalNode_node r), entryToNode, Fault.ok_bind,
        Tree.read_eq hnr, Fault.ok_bind] at hrun
      simp only [if_pos hstop, pure, Except.pure, Except.ok.injEq, Prod.mk.injEq] at hrun
      obtain ⟨rfl, -⟩ := hrun
      exact .refl
    · have hgo := hstop
      rw [not_or, not_or, not_not] at hgo
      obtain ⟨hone, hchild, hs⟩ := hgo
      obtain ⟨c, nc, hc, hnc, -, hpar, hoff, hcr, -⟩ := h.root_child hr hnr hs hchild
      have hu := (h.count_eq_one_iff hnr).mp hone
      rw [radixTreeShrink_lower hr hnr hstop hc hnc hcr] at hrun
      have hrest := ih (h.lower hr hnr hu hc hnc hpar hoff hcr) rfl (lower_child t hcr) hrun
      exact (Withers.lower .refl hr hnr hs hu hc hnc).trans hrest

/-- Induction on the levels above the node, as in `deleteNode_spec`. -/
theorem deleteNode_withers (h : WF t) {p fuel : Nat} {nd : Node} {d d' : Bool}
    (hp : t.node p = some nd) (hrun : deleteNode fuel t p d = .ok (t', d')) : Withers t t' := by
  induction fuel generalizing t p nd d with
  | zero => cases hrun
  | succ fuel ih =>
    rw [deleteNode, Tree.read_eq hp, Fault.ok_bind] at hrun
    by_cases hcount : nd.count ≠ 0
    · rw [if_pos hcount] at hrun
      split at hrun
      · next hroot =>
        obtain ⟨⟨t₁, s⟩, hshrink, hrun⟩ := Fault.bind_eq_ok.mp hrun
        simp only [pure, Except.pure, Except.ok.injEq, Prod.mk.injEq] at hrun
        obtain ⟨rfl, -⟩ := hrun
        exact radixTreeShrink_withers h hroot.symm hp hshrink
      · simp only [pure, Except.pure, Except.ok.injEq, Prod.mk.injEq] at hrun
        obtain ⟨rfl, -⟩ := hrun
        exact .refl
    · rw [if_neg hcount] at hrun
      have hu : nd.used = 0 := (h.count_eq_zero_iff hp).mp (not_not.mp hcount)
      cases hpar : nd.parent with
      | none =>
        simp only [hpar, Tree.store, Fault.ok_bind,
          Tree.free_eq (show ({ t with rnode := .null } : Tree).node p = some nd from hp), pure,
          Except.pure, Except.ok.injEq, Prod.mk.injEq] at hrun
        obtain ⟨rfl, -⟩ := hrun
        exact .clear .refl (h.orphan hp hpar) hp hu
      | some q =>
        obtain ⟨nq, hq, hs, -⟩ := h.parent hp hpar
        have hqp : p ≠ q := by
          rintro rfl
          rw [hp, Option.some.injEq] at hq
          rw [hq] at hs
          omega
        have hfree : (t.setNode q (some (nq.detach nd.offset))).free p
            = .ok (t.prune p q nq nd.offset) :=
          Tree.free_eq (by rw [Tree.setNode_of_ne hqp, hp])
        have hq' : (t.prune p q nq nd.offset).node q = some (nq.detach nd.offset) := by
          rw [Tree.prune_node, if_neg hqp.symm, if_pos rfl]
        simp only [hpar, Tree.modify_eq hq, Fault.ok_bind] at hrun
        change ((t.setNode q (some (nq.detach nd.offset))).free p >>= _) = _ at hrun
        rw [hfree, Fault.ok_bind] at hrun
        exact (Withers.prune .refl hp hu hpar hq).trans (ih (h.prune hp hu hpar hq) hq' hrun)

end Loops

/-! ### Counts of value entries -/

theorem detach_values {nd : Node} {o : Fin 64} (ho : xaIsValue (nd.slots o) = false) :
    (nd.detach o).values = nd.values := by
  have hsame : (fun o' ↦ xaIsValue ((nd.detach o).slots o'))
      = fun o' ↦ xaIsValue (nd.slots o') := by
    funext o'
    rw [Node.detach_slots]
    split
    · next h => rw [h, ho]; rfl
    · rfl
  rw [Node.values, hsame, Node.values]

theorem clear_values {nd : Node} {o : Fin 64} (values : Int) :
    (nd.clear o values).values + (if xaIsValue (nd.slots o) then 1 else 0) = nd.values := by
  have hclear : (fun o' ↦ xaIsValue ((nd.clear o values).slots o')) =
      Function.update (fun o' ↦ xaIsValue (nd.slots o')) o false := by
    funext o'
    rw [show (nd.clear o values).slots o' = if o' = o then .null else nd.slots o' from
      Function.update_apply _ _ _ _, Function.update_apply]
    split <;> rfl
  rw [Node.values, hclear, Node.values]
  cases ho : xaIsValue (nd.slots o) with
  | true =>
    have hold : (fun o' ↦ xaIsValue (nd.slots o')) o ≠ false := by
      change xaIsValue (nd.slots o) ≠ false
      rw [ho]
      decide
    exact Slots.occupied_clear hold
  | false => rw [Function.update_eq_self_iff.mpr ho.symm]; rfl

/-- The count of a leaf follows the slot that `__radix_tree_delete` clears. -/
theorem clear_valuesCounted {t : Tree} (hv : ValuesCounted t) {p : Nat} {nd : Node} {o : Fin 64}
    (hp : t.node p = some nd) : ValuesCounted
      (t.setNode p (some (nd.clear o (if xaIsValue (nd.slots o) then -1 else 0)))) := by
  intro x nx hx
  rw [Tree.setNode_node] at hx
  split at hx
  · cases hx
    show nd.nr_values + BitVec.ofInt 32 (if xaIsValue (nd.slots o) then -1 else 0) = _
    generalize hval : (if xaIsValue (nd.slots o) then (-1 : Int) else 0) = values
    rw [hv p nd hp, ← clear_values (o := o) values, BitVec.ofNat_add, ← hval]
    split
    · rw [add_ofInt_neg_one]
      exact BitVec.add_sub_cancel _ _
    · simp
  · exact hv x nx hx

theorem Withers.valuesCounted {t t' : Tree} (h : Withers t t') (hw : WF t)
    (hv : ValuesCounted t) : ValuesCounted t' := by
  induction h with
  | refl => exact hv
  | @prune t₁ p q nd nq h₁ hp hu hpar hq ih =>
    intro x nx hx
    obtain ⟨-, ⟨-, rfl⟩ | ⟨-, hx⟩⟩ := prune_eq_some hx
    · obtain ⟨nq', hq', -, hslot⟩ := (h₁.wf hw).parent hp hpar
      obtain rfl := Option.some.inj (hq'.symm.trans hq)
      rw [detach_values (by rw [hslot]; rfl)]
      exact ih q _ hq
    · exact ih x nx hx
  | @clear t₁ p nd h₁ hr hp hu ih =>
    intro x nx hx
    rw [Tree.setNode_node] at hx
    split at hx
    · cases hx
    · exact ih x nx hx
  | @lower t₁ r c nr nc h₁ hr hnr hs hu hc hnc ih =>
    intro x nx hx
    obtain ⟨-, ⟨-, rfl⟩ | ⟨-, hx⟩⟩ := lower_eq_some hx
    · exact ih c nc hnc
    · exact ih x nx hx

end Jeopardy.RadixTree
