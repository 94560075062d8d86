import Jeopardy.RadixTree.Map

/-!
# Growth, one allocation at a time

On a tree with a root node `__radix_tree_create` only stacks roots and hangs empty nodes under
free slots, one for each allocation that succeeds; the first allocation that fails ends it. This
module follows the nodes themselves where the earlier ones follow the contents.
-/

namespace Jeopardy.RadixTree

/-- What `__radix_tree_create` makes of a tree with a root node, one allocation after another. The
answer tells whether the last of them failed. -/
inductive Grows (t : Tree) : Tree → Bool → Prop where
  | refl : Grows t t false
  | fail {t' : Tree} (h : Grows t t' false) (hoom : t'.oom t'.next = true) : Grows t t'.skip true
  | raise {t' : Tree} {r : Nat} {nr : Node} (h : Grows t t' false) (hr : t'.rnode = .node r)
      (hnr : t'.node r = some nr) (hs : nr.shift + 6 ≤ 60) (hoom : t'.oom t'.next = false) :
      Grows t (t'.raise r nr) false
  | hang {t' : Tree} {p : Nat} {np : Node} {o : Fin 64} (h : Grows t t' false)
      (hp : t'.node p = some np) (hs : np.shift ≠ 0) (ho : np.slots o = .null)
      (htop : np.shift = 60 → o.val < 16) (hoom : t'.oom t'.next = false) :
      Grows t (t'.hang p np o) false

namespace Grows

variable {t t' t'' : Tree} {b : Bool}

theorem trans (h : Grows t t' false) (h' : Grows t' t'' b) : Grows t t'' b := by
  induction h' with
  | refl => exact h
  | fail _ hoom ih => exact .fail ih hoom
  | raise _ hr hnr hs hoom ih => exact .raise ih hr hnr hs hoom
  | hang _ hp hs ho htop hoom ih => exact .hang ih hp hs ho htop hoom

theorem wf (h : Grows t t' b) (hw : WF t) : WF t' := by
  induction h with
  | refl => exact hw
  | fail _ _ ih => exact ih.skip
  | raise _ hr hnr hs _ ih => exact ih.raise hr hnr hs
  | hang _ hp hs ho htop _ ih => exact ih.hang hp hs ho htop

theorem oom_eq (h : Grows t t' b) : t'.oom = t.oom := by
  induction h with
  | refl => rfl
  | fail _ _ ih => exact ih
  | raise _ _ _ _ _ ih => exact ih
  | hang _ _ _ _ _ _ ih => exact ih

/-- Every allocation but a failed last one has got its memory. -/
theorem oom_of_lt (h : Grows t t' b) {n : Nat} (hn : t.next ≤ n) (hlt : n < t'.next)
    (hb : b = false) : t.oom n = false := by
  induction h with
  | refl => omega
  | fail _ _ _ => cases hb
  | @raise t₁ r nr h₁ _ _ _ hoom ih =>
    have hlt' : n < t₁.next + 1 := hlt
    by_cases he : n = t₁.next
    · rw [he, ← h₁.oom_eq, hoom]
    · exact ih (by omega) rfl
  | @hang t₁ p np o h₁ _ _ _ _ hoom ih =>
    have hlt' : n < t₁.next + 1 := hlt
    by_cases he : n = t₁.next
    · rw [he, ← h₁.oom_eq, hoom]
    · exact ih (by omega) rfl

end Grows

/-! ### The two loops -/

section Loops

variable {t t' : Tree} {i : BitVec 64}

theorem extendLoop_grows (h : WF t) {r m fuel : Nat} {nr : Node} {out : Option Nat}
    (hr : t.rnode = .node r) (hnr : t.node r = some nr) (hm : m ≤ 60) (hle : nr.shift + 6 ≤ m)
    (hrun : extendLoop m fuel t (.node r) (nr.shift + 6) = .ok (t', out)) :
    Grows t t' out.isNone := by
  induction fuel generalizing t r nr with
  | zero => cases hrun
  | succ fuel ih =>
    by_cases hoom : t.oom t.next = true
    · rw [extendLoop_fail hoom, Except.ok.injEq, Prod.mk.injEq] at hrun
      obtain ⟨rfl, rfl⟩ := hrun
      exact .fail .refl hoom
    · rw [Bool.not_eq_true] at hoom
      have hstep : Grows t (t.raise r nr) false := .raise .refl hr hnr (by omega) hoom
      rw [extendLoop_node h hnr hoom] at hrun
      split at hrun
      · next hmore =>
        exact hstep.trans (ih (h.raise hr hnr (by omega)) rfl (raise_top h hnr) hmore hrun)
      · rw [Except.ok.injEq, Prod.mk.injEq] at hrun
        obtain ⟨rfl, rfl⟩ := hrun
        exact hstep

/-- Induction on the level of the present node, as in `createLoop_spec`. -/
theorem createLoop_grows (h : WF t) {p fuel : Nat} {np : Node} {out : Option (Option Nat × Slot)}
    (hp : On t i p np)
    (hrun : createLoop i fuel t (some p) (.node p (slotOffset i np.shift))
      (np.slots (slotOffset i np.shift)) np.shift (slotOffset i np.shift) = .ok (t', out)) :
    Grows t t' out.isNone := by
  induction fuel generalizing t p np with
  | zero => cases hrun
  | succ fuel ih =>
    rw [createLoop] at hrun
    by_cases hs : np.shift = 0
    · rw [if_pos hs] at hrun
      simp only [pure, Except.pure, Except.ok.injEq, Prod.mk.injEq] at hrun
      obtain ⟨rfl, rfl⟩ := hrun
      exact .refl
    · rw [if_neg hs] at hrun
      simp only [MAP_SHIFT] at hrun
      by_cases ho : np.slots (slotOffset i np.shift) = .null
      · rw [if_pos ho] at hrun
        by_cases hoom : t.oom t.next = true
        · rw [createChild_fail _ _ _ _ hoom] at hrun
          simp only [Fault.ok_bind, pure, Except.pure, Except.ok.injEq, Prod.mk.injEq] at hrun
          obtain ⟨rfl, rfl⟩ := hrun
          exact .fail .refl hoom
        · rw [Bool.not_eq_true] at hoom
          have htop : np.shift = 60 → (slotOffset i np.shift).val < 16 :=
            fun h60 ↦ h60 ▸ slotOffset_top i
          have hon := hang_on h hp hs
          rw [createChild_hang h hp.1 _ hoom] at hrun
          simp only [Fault.ok_bind, Tree.read_eq hon.1, radixTreeDescend] at hrun
          exact (Grows.hang .refl hp.1 hs ho htop hoom).trans
            (ih (h.hang hp.1 hs ho htop) hon hrun)
      · rw [if_neg ho] at hrun
        obtain ⟨q, nq, hslot, hq, hsq⟩ := h.on_child hp hs ho
        rw [hslot] at hrun
        simp only [entryToNode, Fault.ok_bind, Tree.read_eq hq.1, radixTreeDescend, pure,
          Except.pure] at hrun
        rw [show np.shift - 6 = nq.shift by omega] at hrun
        exact ih h hq hrun

theorem createLoop_root_grows (h : WF t) {r : Nat} {nr : Node} {out : Option (Option Nat × Slot)}
    (hr : On t i r nr)
    (hrun : createLoop i (LEVELS + 1) t none .root (.node r) (nr.shift + 6) 0 = .ok (t', out)) :
    Grows t t' out.isNone := by
  rw [createLoop, if_neg (by omega)] at hrun
  simp only [if_neg (show Entry.node r ≠ .null by simp), entryToNode, Fault.ok_bind,
    Tree.read_eq hr.1, radixTreeDescend, pure, Except.pure, MAP_SHIFT] at hrun
  rw [show nr.shift + 6 - 6 = nr.shift by omega] at hrun
  exact createLoop_grows h hr hrun

/-- `__radix_tree_create` on a tree with a root node. -/
theorem rawRadixTreeCreate_grows (h : WF t) {r : Nat} {out : Option (Option Nat × Slot)}
    (hr : t.rnode = .node r) (hrun : rawRadixTreeCreate t i = .ok (t', out)) :
    Grows t t' out.isNone := by
  obtain ⟨nr, hnr, -, -⟩ := h.root hr
  rw [rawRadixTreeCreate, radixTreeLoadRoot_node hr hnr, Fault.ok_bind] at hrun
  by_cases hi : nodeMaxindex nr < i
  · simp only [if_pos hi] at hrun
    obtain ⟨⟨t₁, out₁⟩, hext, hrun⟩ := Fault.bind_eq_ok.mp hrun
    obtain ⟨m, hgrow, hext⟩ := Fault.bind_eq_ok.mp hext
    rw [hr, if_neg (by simp)] at hext
    have hle := h.shift_le hnr
    obtain ⟨a, ha⟩ := h.shift_dvd hnr
    have h54 : nr.shift ≤ 54 := by
      have hi' := hi
      rw [nodeMaxindex, shiftMaxindex_lt_iff] at hi'
      by_contra hgt
      have h60 : nr.shift = 60 := by omega
      rw [h60] at hi'
      exact absurd (hi'.trans_lt i.isLt) (by decide)
    obtain ⟨m', hgrow', hdvd, hsm, hm60, hlt, -⟩ := growShift_spec i LEVELS
      (show nr.shift + 6 ≤ 60 by omega) (by omega) (by unfold LEVELS; omega)
    obtain rfl : m' = m := Except.ok.inj (hgrow'.symm.trans hgrow)
    have hg := extendLoop_grows h hr hnr hm60 hsm hext
    obtain ⟨t₂, out₂, hext₂, he⟩ := extendLoop_spec h LEVELS hr hnr hm60 hdvd hsm
      (by unfold LEVELS; omega)
    rw [hext, Except.ok.injEq, Prod.mk.injEq] at hext₂
    obtain ⟨rfl, rfl⟩ := hext₂
    cases he with
    | enomem hk hs hr' hoom =>
      simp only [pure, Except.pure, Except.ok.injEq, Prod.mk.injEq] at hrun
      obtain ⟨rfl, rfl⟩ := hrun
      exact hg
    | @done r' nr' hk hs hr' hnr' hm' hl =>
      subst hm'
      simp only [hr'] at hrun
      exact hg.trans (createLoop_root_grows hk.wf (on_of_lt hk.wf hr' hnr' hlt) hrun)
  · simp only [if_neg hi] at hrun
    exact createLoop_root_grows h (h.on_root hr hnr hi) hrun

end Loops

/-- The outcomes of `radix_tree_insert` on a tree with a root node, in terms of its nodes. -/
inductive GrowsInto (t : Tree) (x : Item) : Tree → Int → Prop where
  | enomem {t' : Tree} (hg : Grows t t' true) : GrowsInto t x t' (-ENOMEM)
  | present {t' : Tree} (hg : Grows t t' false) : GrowsInto t x t' (-EEXIST)
  | stored {t' : Tree} {q : Nat} {nq : Node} {o : Fin 64} (hg : Grows t t' false)
      (hq : t'.node q = some nq) (hz : nq.shift = 0) (ho : nq.slots o = .null) :
      GrowsInto t x (t'.setNode q (some (nq.fill o x))) 0

theorem radixTreeInsert_grows {t t' : Tree} (h : WF t) {i : BitVec 64} {x : Item} {r : Nat}
    {e : Int} (hr : t.rnode = .node r) (hrun : radixTreeInsert t i x = .ok (t', e)) :
    GrowsInto t x t' e := by
  obtain ⟨⟨t₁, out⟩, hc, hrun⟩ := Fault.bind_eq_ok.mp hrun
  have hg := rawRadixTreeCreate_grows h hr hc
  obtain ⟨t₂, out₂, hc₂, hcreated⟩ := rawRadixTreeCreate_spec h i
  rw [hc, Except.ok.injEq, Prod.mk.injEq] at hc₂
  obtain ⟨rfl, rfl⟩ := hc₂
  cases hcreated with
  | enomem hk hs hr' hnone hoom =>
    simp only [pure, Except.pure, Except.ok.injEq, Prod.mk.injEq] at hrun
    obtain ⟨rfl, rfl⟩ := hrun
    exact .enomem hg
  | root hnode hi => exact absurd hr (hnode r)
  | @leaf _ q r' nq hk hs hr' hq hz hsame hbare htall =>
    by_cases ho : nq.slots (slotOffset i 0) = .null
    · simp only [insertEntries_leaf hq.1 ho, Fault.ok_bind, pure, Except.pure] at hrun
      rw [if_neg (by decide), Except.ok.injEq, Prod.mk.injEq] at hrun
      obtain ⟨rfl, rfl⟩ := hrun
      exact .stored hg hq.1 hz ho
    · simp only [insertEntries, Tree.load_eq hq.1, Fault.ok_bind, if_pos ho, pure,
        Except.pure] at hrun
      rw [if_pos (by decide), Except.ok.injEq, Prod.mk.injEq] at hrun
      obtain ⟨rfl, rfl⟩ := hrun
      exact .present hg

end Jeopardy.RadixTree
