import Jeopardy.RadixTree.Accounting

/-!
# Leaves

The leaves of a tree as a map from addresses to slots. Growing adds an empty leaf at most, on the
way of the index it grows for; withering takes away the leaf it starts at, if that is empty, and
leaves the others as they are.
-/

namespace Jeopardy.RadixTree

/-- The slots of the leaf at an address. -/
def Tree.leaf (t : Tree) (p : Nat) : Option (Fin 64 → Entry) :=
  (t.node p).bind fun nd ↦ if nd.shift = 0 then some nd.slots else none

section Leaf

variable {t t' : Tree} {p q r : Nat} {nd nq nr : Node}

theorem leaf_eq (hp : t.node p = some nd) (hz : nd.shift = 0) : t.leaf p = some nd.slots := by
  rw [Tree.leaf, hp, Option.bind_some, if_pos hz]

theorem leaf_eq_none (hp : t.node p = some nd) (hs : nd.shift ≠ 0) : t.leaf p = none := by
  rw [Tree.leaf, hp, Option.bind_some, if_neg hs]

theorem leaf_of_free (hp : t.node p = none) : t.leaf p = none := by
  rw [Tree.leaf, hp, Option.bind_none]

theorem leaf_congr (h : t'.node p = t.node p) : t'.leaf p = t.leaf p := by
  rw [Tree.leaf, h, Tree.leaf]

theorem exists_of_leaf {slots : Fin 64 → Entry} (h : t.leaf p = some slots) :
    ∃ nd, t.node p = some nd ∧ nd.shift = 0 ∧ nd.slots = slots := by
  obtain ⟨nd, hp, hnd⟩ := Option.bind_eq_some_iff.mp h
  split at hnd
  · next hz => exact ⟨nd, hp, hz, Option.some.inj hnd⟩
  · cases hnd

/-- A new root is no leaf, and the old one keeps its slots. -/
theorem raise_leaf (h : WF t) (hnr : t.node r = some nr) : (t.raise r nr).leaf = t.leaf := by
  ext1 x
  rw [Tree.leaf, Tree.raise_node]
  by_cases hxr : x = r
  · rw [if_pos hxr, hxr, Tree.leaf, hnr]
    rfl
  · rw [if_neg hxr]
    by_cases hx : x = t.next
    · rw [if_pos hx, hx, leaf_of_free (h.fresh _ le_rfl)]
      rfl
    · rw [if_neg hx, Tree.leaf]

/-- A node taken from its parent. -/
theorem prune_leaf (hq : t.node q = some nq) (hs : nq.shift ≠ 0) (o : Fin 64) :
    (t.prune p q nq o).leaf = Function.update t.leaf p none := by
  ext1 x
  rw [Tree.leaf, Tree.prune_node, Function.update_apply]
  by_cases hxp : x = p
  · rw [if_pos hxp, if_pos hxp, Option.bind_none]
  · rw [if_neg hxp, if_neg hxp]
    by_cases hxq : x = q
    · rw [if_pos hxq, hxq, leaf_eq_none hq hs]
      exact if_neg hs
    · rw [if_neg hxq, Tree.leaf]

/-- The only child of the root becomes the root. -/
theorem lower_leaf {c : Nat} {nc : Node} (hnr : t.node r = some nr) (hs : nr.shift ≠ 0)
    (hnc : t.node c = some nc) : (t.lower r c nc).leaf = t.leaf := by
  ext1 x
  rw [Tree.leaf, Tree.lower_node]
  by_cases hxr : x = r
  · rw [if_pos hxr, hxr, leaf_eq_none hnr hs, Option.bind_none]
  · rw [if_neg hxr]
    by_cases hxc : x = c
    · rw [if_pos hxc, hxc, Tree.leaf, hnc]
      rfl
    · rw [if_neg hxc, Tree.leaf]

/-- An empty node under a node that is no leaf. -/
theorem hang_leaf (h : WF t) (hp : t.node p = some nd) (hs : nd.shift ≠ 0) (o : Fin 64) (x : Nat) :
    (t.hang p nd o).leaf x = t.leaf x ∨ x = t.next ∧ nd.shift = 6 ∧ t.leaf x = none := by
  by_cases hxp : x = p
  · subst hxp
    left
    have hpost : (t.hang x nd o).node x = some (nd.attach o t.next) := by
      rw [Tree.hang_node, if_pos rfl]
    rw [leaf_eq_none hp hs, leaf_eq_none hpost (show (nd.attach o t.next).shift ≠ 0 from hs)]
  · by_cases hx : x = t.next
    · subst hx
      rw [leaf_of_free (h.fresh _ le_rfl)]
      by_cases h6 : nd.shift = 6
      · exact .inr ⟨rfl, h6, rfl⟩
      · left
        have hpost : (t.hang p nd o).node t.next = some (emptyNode (nd.shift - 6) o (some p)) := by
          rw [Tree.hang_node, if_neg hxp, if_pos rfl]
        apply leaf_eq_none hpost
        obtain ⟨a, ha⟩ := h.shift_dvd hp
        show nd.shift - 6 ≠ 0
        omega
    · left
      apply leaf_congr
      rw [Tree.hang_node, if_neg hxp, if_neg hx]

end Leaf

/-! ### Growing -/

/-- Every leaf was there before, or is on the way of `i`. -/
def LeavesGrow (i : BitVec 64) (t t' : Tree) : Prop :=
  ∀ x, t'.leaf x = t.leaf x ∨ t.leaf x = none ∧ ∃ nx, On t' i x nx ∧ nx.shift = 0

section Grow

variable {t t' : Tree} {i : BitVec 64}

theorem extendLoop_leaf (h : WF t) {r m fuel : Nat} {nr : Node} {out : Option Nat}
    (hr : t.rnode = .node r) (hnr : t.node r = some nr) (hm : m ≤ 60) (hle : nr.shift + 6 ≤ m)
    (hrun : extendLoop m fuel t (.node r) (nr.shift + 6) = .ok (t', out)) : t'.leaf = t.leaf := by
  induction fuel generalizing t r nr with
  | zero => cases hrun
  | succ fuel ih =>
    by_cases hoom : t.oom t.next = true
    · rw [extendLoop_fail hoom, Except.ok.injEq, Prod.mk.injEq] at hrun
      rw [← hrun.1]
      rfl
    · rw [Bool.not_eq_true] at hoom
      rw [extendLoop_node h hnr hoom] at hrun
      rw [← raise_leaf h hnr]
      split at hrun
      · next hmore => exact ih (h.raise hr hnr (by omega)) rfl (raise_top h hnr) hmore hrun
      · rw [Except.ok.injEq, Prod.mk.injEq] at hrun
        rw [hrun.1]

/-- Induction on the level of the present node, as in `createLoop_spec`. -/
theorem createLoop_leaf (h : WF t) {p fuel : Nat} {np : Node} {out : Option (Option Nat × Slot)}
    (hp : On t i p np)
    (hrun : createLoop i fuel t (some p) (.node p (slotOffset i np.shift))
      (np.slots (slotOffset i np.shift)) np.shift (slotOffset i np.shift) = .ok (t', out)) :
    LeavesGrow i t t' := by
  induction fuel generalizing t p np with
  | zero => cases hrun
  | succ fuel ih =>
    rw [createLoop] at hrun
    by_cases hs : np.shift = 0
    · rw [if_pos hs] at hrun
      simp only [pure, Except.pure, Except.ok.injEq, Prod.mk.injEq] at hrun
      rw [← hrun.1]
      exact fun _ ↦ .inl rfl
    · rw [if_neg hs] at hrun
      simp only [MAP_SHIFT] at hrun
      by_cases ho : np.slots (slotOffset i np.shift) = .null
      · rw [if_pos ho] at hrun
        by_cases hoom : t.oom t.next = true
        · rw [createChild_fail _ _ _ _ hoom] at hrun
          simp only [Fault.ok_bind, pure, Except.pure, Except.ok.injEq, Prod.mk.injEq] at hrun
          rw [← hrun.1]
          exact fun _ ↦ .inl rfl
        · rw [Bool.not_eq_true] at hoom
          have htop : np.shift = 60 → (slotOffset i np.shift).val < 16 :=
            fun h60 ↦ h60 ▸ slotOffset_top i
          have hon := hang_on h hp hs
          rw [createChild_hang h hp.1 _ hoom] at hrun
          simp only [Fault.ok_bind, Tree.read_eq hon.1, radixTreeDescend] at hrun
          have hrest := ih (h.hang hp.1 hs ho htop) hon hrun
          intro x
          rcases hang_leaf h hp.1 hs (slotOffset i np.shift) x with heq | ⟨rfl, h6, hnone⟩
          · rw [← heq]
            exact hrest x
          · -- the new node is a leaf, and the loop ends there
            have hz : np.shift - 6 = 0 := by omega
            refine .inr ⟨hnone, ?_⟩
            cases fuel with
            | zero => cases hrun
            | succ fuel =>
              rw [createLoop, if_pos hz] at hrun
              simp only [pure, Except.pure, Except.ok.injEq, Prod.mk.injEq] at hrun
              rw [← hrun.1]
              exact ⟨_, hon, hz⟩
      · rw [if_neg ho] at hrun
        obtain ⟨q, nq, hslot, hq, hsq⟩ := h.on_child hp hs ho
        rw [hslot] at hrun
        simp only [entryToNode, Fault.ok_bind, Tree.read_eq hq.1, radixTreeDescend, pure,
          Except.pure] at hrun
        rw [show np.shift - 6 = nq.shift by omega] at hrun
        exact ih h hq hrun

theorem createLoop_root_leaf (h : WF t) {r : Nat} {nr : Node} {out : Option (Option Nat × Slot)}
    (hr : On t i r nr)
    (hrun : createLoop i (LEVELS + 1) t none .root (.node r) (nr.shift + 6) 0 = .ok (t', out)) :
    LeavesGrow i t t' := by
  rw [createLoop, if_neg (by omega)] at hrun
  simp only [if_neg (show Entry.node r ≠ .null by simp), entryToNode, Fault.ok_bind,
    Tree.read_eq hr.1, radixTreeDescend, pure, Except.pure, MAP_SHIFT] at hrun
  rw [show nr.shift + 6 - 6 = nr.shift by omega] at hrun
  exact createLoop_leaf h hr hrun

/-- `__radix_tree_create` on a tree with a root node. -/
theorem rawRadixTreeCreate_leaf (h : WF t) {r : Nat} {out : Option (Option Nat × Slot)}
    (hr : t.rnode = .node r) (hrun : rawRadixTreeCreate t i = .ok (t', out)) :
    LeavesGrow i t t' := by
  obtain ⟨nr, hnr, -, -⟩ := h.root hr
  rw [rawRadixTreeCreate, radixTreeLoadRoot_node hr hnr, Fault.ok_bind] at hrun
  by_cases hi : nodeMaxindex nr < i
  · simp only [if_pos hi] at hrun
    obtain ⟨⟨t₁, out₁⟩, hext, hrun⟩ := Fault.bind_eq_ok.mp hrun
    obtain ⟨m, hgrow, hext⟩ := Fault.bind_eq_ok.mp hext
    rw [hr, if_neg (by simp)] at hext
    have hle := h.shift_le hnr
    obtain ⟨a, ha⟩ := h.shift_dvd hnr
    have h54 : nr.shift ≤ 54 := by
      have hi' := hi
      rw [nodeMaxindex, shiftMaxindex_lt_iff] at hi'
      by_contra hgt
      have h60 : nr.shift = 60 := by omega
      rw [h60] at hi'
      exact absurd (hi'.trans_lt i.isLt) (by decide)
    obtain ⟨m', hgrow', hdvd, hsm, hm60, hlt, -⟩ := growShift_spec i LEVELS
      (show nr.shift + 6 ≤ 60 by omega) (by omega) (by unfold LEVELS; omega)
    obtain rfl : m' = m := Except.ok.inj (hgrow'.symm.trans hgrow)
    have hleaf := extendLoop_leaf h hr hnr hm60 hsm hext
    obtain ⟨t₂, out₂, hext₂, he⟩ := extendLoop_spec h LEVELS hr hnr hm60 hdvd hsm
      (by unfold LEVELS; omega)
    rw [hext, Except.ok.injEq, Prod.mk.injEq] at hext₂
    obtain ⟨rfl, rfl⟩ := hext₂
    rw [LeavesGrow, ← hleaf]
    cases he with
    | enomem hk hs hr' hoom =>
      simp only [pure, Except.pure, Except.ok.injEq, Prod.mk.injEq] at hrun
      rw [hrun.1]
      exact fun _ ↦ .inl rfl
    | @done r' nr' hk hs hr' hnr' hm' hl =>
      subst hm'
      simp only [hr'] at hrun
      exact createLoop_root_leaf hk.wf (on_of_lt hk.wf hr' hnr' hlt) hrun
  · simp only [if_neg hi] at hrun
    exact createLoop_root_leaf h (h.on_root hr hnr hi) hrun

/-- Growth moves no block. -/
theorem Grows.covers {b : Bool} (h : Grows t t' b) (hw : WF t) {x c : Nat} (hx : Covers t x c) :
    Covers t' x c := by
  induction h with
  | refl => exact hx
  | fail _ _ ih => exact ih.skip
  | raise h₁ hr hnr _ _ ih => exact ih.raise (h₁.wf hw) hr hnr
  | hang h₁ hq _ _ _ _ ih => exact ih.stays (stays_hang (h₁.wf hw) hq)

end Grow

/-! ### Withering -/

section Wither

variable {t t' : Tree}

theorem radixTreeShrink_leaf (h : WF t) {r fuel : Nat} {nr : Node} {s s' : Bool}
    (hr : t.rnode = .node r) (hnr : t.node r = some nr)
    (hrun : radixTreeShrink fuel t s = .ok (t', s')) : t'.leaf = t.leaf := by
  induction fuel generalizing t r nr s with
  | zero => cases hrun
  | succ fuel ih =>
    by_cases hstop : nr.count ≠ 1 ∨ nr.slots 0 = .null ∨ nr.shift = 0
    · rw [radixTreeShrink, hr, if_pos (isInternalNode_node r), entryToNode, Fault.ok_bind,
        Tree.read_eq hnr, Fault.ok_bind] at hrun
      simp only [if_pos hstop, pure, Except.pure, Except.ok.injEq, Prod.mk.injEq] at hrun
      rw [hrun.1]
    · have hgo := hstop
      rw [not_or, not_or, not_not] at hgo
      obtain ⟨hone, hchild, hs⟩ := hgo
      obtain ⟨c, nc, hc, hnc, -, hpar, hoff, hcr, -⟩ := h.root_child hr hnr hs hchild
      have hu := (h.count_eq_one_iff hnr).mp hone
      rw [radixTreeShrink_lower hr hnr hstop hc hnc hcr] at hrun
      rw [← lower_leaf hnr hs hnc]
      exact ih (h.lower hr hnr hu hc hnc hpar hoff hcr) rfl (lower_child t hcr) hrun

/-- Induction on the levels above the node, as in `deleteNode_spec`: the nodes above are no
leaves. -/
theorem deleteNode_leaf (h : WF t) {p fuel : Nat} {nd : Node} {d d' : Bool}
    (hp : t.node p = some nd) (hrun : deleteNode fuel t p d = .ok (t', d')) :
    t'.leaf = if nd.used = 0 then Function.update t.leaf p none else t.leaf := by
  induction fuel generalizing t p nd d with
  | zero => cases hrun
  | succ fuel ih =>
    rw [deleteNode, Tree.read_eq hp, Fault.ok_bind] at hrun
    by_cases hcount : nd.count ≠ 0
    · rw [if_pos hcount] at hrun
      rw [if_neg (mt (h.count_eq_zero_iff hp).mpr hcount)]
      split at hrun
      · next hroot =>
        obtain ⟨⟨t₁, s⟩, hshrink, hrun⟩ := Fault.bind_eq_ok.mp hrun
        simp only [pure, Except.pure, Except.ok.injEq, Prod.mk.injEq] at hrun
        rw [← hrun.1]
        exact radixTreeShrink_leaf h hroot.symm hp hshrink
      · simp only [pure, Except.pure, Except.ok.injEq, Prod.mk.injEq] at hrun
        rw [hrun.1]
    · rw [if_neg hcount] at hrun
      have hu : nd.used = 0 := (h.count_eq_zero_iff hp).mp (not_not.mp hcount)
      rw [if_pos hu]
      cases hpar : nd.parent with
      | none =>
        simp only [hpar, Tree.store, Fault.ok_bind,
          Tree.free_eq (show ({ t with rnode := .null } : Tree).node p = some nd from hp), pure,
          Except.pure, Except.ok.injEq, Prod.mk.injEq] at hrun
        rw [← hrun.1]
        ext1 x
        rw [Tree.leaf, Tree.setNode_node, Function.update_apply]
        by_cases hxp : x = p
        · rw [if_pos hxp, if_pos hxp, Option.bind_none]
        · rw [if_neg hxp, if_neg hxp, Tree.leaf]
      | some q =>
        obtain ⟨nq, hq, hs, -⟩ := h.parent hp hpar
        have hqp : p ≠ q := by
          rintro rfl
          rw [hp, Option.some.injEq] at hq
          rw [hq] at hs
          omega
        have hfree : (t.setNode q (some (nq.detach nd.offset))).free p
            = .ok (t.prune p q nq nd.offset) :=
          Tree.free_eq (by rw [Tree.setNode_of_ne hqp, hp])
        have hq' : (t.prune p q nq nd.offset).node q = some (nq.detach nd.offset) := by
          rw [Tree.prune_node, if_neg hqp.symm, if_pos rfl]
        simp only [hpar, Tree.modify_eq hq, Fault.ok_bind] at hrun
        change ((t.setNode q (some (nq.detach nd.offset))).free p >>= _) = _ at hrun
        rw [hfree, Fault.ok_bind] at hrun
        have hrest := ih (h.prune hp hu hpar hq) hq' hrun
        have hnone : (t.prune p q nq nd.offset).leaf q = none :=
          leaf_eq_none hq' (show nq.shift ≠ 0 by omega)
        rw [← prune_leaf hq (by omega) nd.offset, hrest]
        split
        · exact Function.update_eq_self_iff.mpr hnone.symm
        · rfl

end Wither

end Jeopardy.RadixTree
