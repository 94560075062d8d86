import Jeopardy.RadixTree.Root

/-!
# Growing the tree

`radix_tree_extend` finds the smallest level that can hold the index and stacks new roots up
to it. Stacked on a node they leave the contents as they are; stacked on a raw item the first
of them also overwrites a word of the item.
-/

namespace Jeopardy.RadixTree

/-- A change that keeps the invariant and the contents. -/
structure Kept (t t' : Tree) : Prop where
  wf : WF t'
  holds : ∀ i x, Holds t' i x ↔ Holds t i x
  oom : t'.oom = t.oom
  next : t.next ≤ t'.next

theorem Kept.refl {t : Tree} (h : WF t) : Kept t t :=
  ⟨h, fun _ _ ↦ Iff.rfl, rfl, le_rfl⟩

theorem Kept.trans {t t' t'' : Tree} (h : Kept t t') (h' : Kept t' t'') : Kept t t'' :=
  ⟨h'.wf, fun i x ↦ (h'.holds i x).trans (h.holds i x), h'.oom.trans h.oom, h.next.trans h'.next⟩

/-- Of the allocations between the trees the last one has failed. -/
def LastFailed (t t' : Tree) : Prop := t.next < t'.next ∧ t.oom (t'.next - 1) = true

theorem LastFailed.of_kept {t t' t'' : Tree} (hk : Kept t t') (h : LastFailed t' t'') :
    LastFailed t t'' :=
  ⟨hk.next.trans_lt h.1, hk.oom ▸ h.2⟩

/-- Only the node at `p` and the leftmost leaf may be without children. -/
def Bare (t : Tree) (p : Nat) : Prop :=
  ∀ x nx, t.node x = some nx → nx.used = 0 → x = p ∨ nx.shift = 0 ∧ Covers t x 0

/-- Only the leftmost leaf may be without children. -/
def Slim (t : Tree) : Prop :=
  ∀ x nx, t.node x = some nx → nx.used = 0 → nx.shift = 0 ∧ Covers t x 0

/-- A root above the leaf level has a child apart from the leftmost one. -/
def Tall (t : Tree) : Prop :=
  ∀ r nr, t.rnode = .node r → t.node r = some nr → nr.shift ≠ 0 → ∃ o, o ≠ 0 ∧ nr.slots o ≠ .null

theorem Slim.bare {t : Tree} (h : Slim t) (p : Nat) : Bare t p :=
  fun x nx hx hu ↦ .inr (h x nx hx hu)

/-! ### Allocation -/

/-- The tree after an allocation that failed. -/
def Tree.skip (t : Tree) : Tree := { t with next := t.next + 1 }

theorem radixTreeNodeAlloc_fail {t : Tree} (h : t.oom t.next = true) (parent : Option Nat)
    (shift : Nat) (offset : Fin 64) (count nr_values : BitVec 32) :
    radixTreeNodeAlloc t parent shift offset count nr_values = (t.skip, none) := by
  rw [radixTreeNodeAlloc, if_pos h]
  rfl

theorem radixTreeNodeAlloc_ok {t : Tree} (h : t.oom t.next = false) (parent : Option Nat)
    (shift : Nat) (offset : Fin 64) (count nr_values : BitVec 32) :
    radixTreeNodeAlloc t parent shift offset count nr_values
      = (t.push ⟨count, shift, offset, nr_values, parent, fun _ ↦ .null⟩, some t.next) := by
  rw [radixTreeNodeAlloc, h, if_neg Bool.false_ne_true]
  rfl

theorem LastFailed.skip {t : Tree} (h : t.oom t.next = true) : LastFailed t t.skip :=
  ⟨Nat.lt_succ_self _, h⟩

theorem Covers.skip {t : Tree} {p b : Nat} (h : Covers t p b) : Covers t.skip p b :=
  h.stays (fun _ ↦ .of_eq rfl)

theorem WF.skip {t : Tree} (h : WF t) : WF t.skip :=
  ⟨fun p hp ↦ h.fresh p (Nat.le_of_succ_le hp), fun hp ↦ h.ok hp, fun hp ↦ h.child hp,
    fun hp ↦ h.parent hp, fun hp ↦ h.orphan hp, fun hr ↦ h.root hr, fun hr ↦ h.raw hr⟩

theorem Kept.skip {t : Tree} (h : WF t) : Kept t t.skip :=
  ⟨h.skip, holds_congr h (fun _ ↦ Iff.rfl) (fun _ hb ↦ hb.skip) (fun _ _ _ ↦ Iff.rfl), rfl,
    Nat.le_succ _⟩

/-! ### The new height -/

/-- The loop stops at the first level that can hold the index. -/
theorem growShift_spec (i : BitVec 64) (fuel : Nat) {s : Nat} (hs : s ≤ 60) (hdvd : 6 ∣ s)
    (hfuel : 60 < s + 6 * fuel) : ∃ m, growShift i fuel s = .ok m ∧ 6 ∣ m ∧ s ≤ m ∧ m ≤ 60 ∧
      i.toNat < 2 ^ (m + 6) ∧ (m = s ∨ 2 ^ m ≤ i.toNat) := by
  induction fuel generalizing s with
  | zero => omega
  | succ fuel ih =>
    by_cases hi : shiftMaxindex s < i
    · have hle := (shiftMaxindex_lt_iff i s).mp hi
      have hs54 : s ≠ 60 := by
        rintro rfl
        exact absurd (hle.trans_lt i.isLt) (by decide)
      obtain ⟨m, hm, hdm, hsm, hm60, hlt, hor⟩ := ih (s := s + 6) (by omega) (by omega) (by omega)
      refine ⟨m, ?_, hdm, by omega, hm60, hlt, .inr ?_⟩
      · rw [growShift, if_pos hi]
        exact hm
      · rcases hor with rfl | hle'
        · exact hle
        · exact hle'
    · refine ⟨s, ?_, hdvd, Nat.le_refl _, hs, ?_, .inl rfl⟩
      · rw [growShift, if_neg hi]
      · rw [shiftMaxindex_lt_iff] at hi
        omega

/-! ### Stacking roots -/

section Extend

variable {t : Tree}

theorem raise_eq {r : Nat} {nr : Node} (hrn : r ≠ t.next) :
    ({ (((t.push ⟨1, nr.shift + 6, 0, 0, none, fun _ ↦ .null⟩).setNode r
        (some { nr with parent := some t.next })).setNode t.next
          (some (topNode (nr.shift + 6) (.node r)))) with rnode := .node t.next } : Tree)
      = t.raise r nr := by
  simp only [Tree.raise, Tree.push, Tree.setNode, Tree.mk.injEq, and_true]
  rw [Function.update_comm hrn, Function.update_idem]

/-- One round on top of a node. -/
theorem extendLoop_node (h : WF t) {r : Nat} {nr : Node} (hnr : t.node r = some nr)
    (hoom : t.oom t.next = false) (m fuel : Nat) :
    extendLoop m (fuel + 1) t (.node r) (nr.shift + 6) =
      if nr.shift + 6 + 6 ≤ m
      then extendLoop m fuel (t.raise r nr) (.node t.next) (nr.shift + 6 + 6)
      else .ok (t.raise r nr, some (m + 6)) := by
  have hrn : r ≠ t.next := (h.lt_next hnr).ne
  have hpush : (t.push ⟨1, nr.shift + 6, 0, 0, none, fun _ ↦ .null⟩).node r = some nr := by
    rw [← hnr]
    exact Function.update_of_ne hrn _ _
  have hnew : ((t.push ⟨1, nr.shift + 6, 0, 0, none, fun _ ↦ .null⟩).setNode r
      (some { nr with parent := some t.next })).node t.next
        = some ⟨1, nr.shift + 6, 0, 0, none, fun _ ↦ .null⟩ := by
    rw [Tree.setNode_of_ne hrn.symm]
    exact Function.update_self _ _ _
  rw [extendLoop, radixTreeNodeAlloc_ok hoom]
  simp only [Tree.setParent]
  rw [Tree.modify_eq hpush, Fault.ok_bind, Tree.store_eq hnew, Fault.ok_bind]
  simp only [Tree.store, nodeToEntry, Fault.ok_bind, MAP_SHIFT]
  rw [← raise_eq hrn]
  rfl

/-- One round on top of a raw item: the store to its `parent` field lands in the item. -/
theorem extendLoop_item (x : Item) (hoom : t.oom t.next = false) (m fuel : Nat) :
    extendLoop m (fuel + 1) t (.item x) 0 =
      if 6 ≤ m
      then extendLoop m fuel (({ t with itemStores := x :: t.itemStores } : Tree).sole
        (topNode 0 (.item x))) (.node t.next) 6
      else .ok (({ t with itemStores := x :: t.itemStores } : Tree).sole (topNode 0 (.item x)),
        some (m + 6)) := by
  have hnew : ({ t.push ⟨1, 0, 0, 0, none, fun _ ↦ .null⟩ with
      itemStores := x :: t.itemStores } : Tree).node t.next
        = some ⟨1, 0, 0, 0, none, fun _ ↦ .null⟩ := Function.update_self _ _ _
  have hsole : ({ ({ t.push ⟨1, 0, 0, 0, none, fun _ ↦ .null⟩ with
      itemStores := x :: t.itemStores } : Tree).setNode t.next (some (topNode 0 (.item x))) with
        rnode := .node t.next } : Tree)
      = ({ t with itemStores := x :: t.itemStores } : Tree).sole (topNode 0 (.item x)) := by
    simp only [Tree.sole, Tree.push, Tree.setNode, Function.update_idem]
  rw [extendLoop, radixTreeNodeAlloc_ok hoom]
  simp only [Tree.setParent, Fault.ok_bind]
  rw [show (t.push ⟨1, 0, 0, 0, none, fun _ ↦ .null⟩).itemStores = t.itemStores from rfl,
    Tree.store_eq hnew, Fault.ok_bind]
  simp only [Tree.store, nodeToEntry, Fault.ok_bind, MAP_SHIFT]
  rw [← hsole]
  rfl

theorem extendLoop_fail (hoom : t.oom t.next = true) (m fuel : Nat) (e : Entry) (s : Nat) :
    extendLoop m (fuel + 1) t e s = .ok (t.skip, none) := by
  rw [extendLoop, radixTreeNodeAlloc_fail hoom]
  rfl

theorem Slim.raise (h : WF t) {r : Nat} {nr : Node} (hr : t.rnode = .node r)
    (hnr : t.node r = some nr) (hl : Slim t) : Slim (t.raise r nr) := by
  intro x nx hx hu
  rcases raise_eq_some hx with ⟨rfl, rfl⟩ | ⟨-, ⟨-, rfl⟩ | ⟨-, hx⟩⟩
  · obtain ⟨hz, hb⟩ := hl x nr hnr hu
    exact ⟨hz, hb.raise h hr hnr⟩
  · rw [topNode_used _ (by simp)] at hu
    exact absurd hu (by simp)
  · obtain ⟨hz, hb⟩ := hl x nx hx hu
    exact ⟨hz, hb.raise h hr hnr⟩

/-- The outcomes of stacking roots up to level `m`. -/
inductive Extended (t : Tree) (m : Nat) : Tree → Option Nat → Prop where
  | enomem {t' : Tree} (hk : Kept t t') (hs : t'.itemStores = t.itemStores)
      (hr : ∃ r, t'.rnode = .node r) (hoom : LastFailed t t') : Extended t m t' none
  | done {t' : Tree} {r : Nat} {nr : Node} (hk : Kept t t') (hs : t'.itemStores = t.itemStores)
      (hr : t'.rnode = .node r) (hnr : t'.node r = some nr) (hm : nr.shift = m)
      (hl : Slim t → Slim t') : Extended t m t' (some (m + 6))

theorem Extended.of_kept {t t' t'' : Tree} {m : Nat} {out : Option Nat} (hk : Kept t t')
    (hs : t'.itemStores = t.itemStores) (hl : Slim t → Slim t') (h : Extended t' m t'' out) :
    Extended t m t'' out := by
  cases h with
  | enomem hk' hs' hr hoom => exact .enomem (hk.trans hk') (hs'.trans hs) hr (hoom.of_kept hk)
  | done hk' hs' hr hnr hm hl' =>
    exact .done (hk.trans hk') (hs'.trans hs) hr hnr hm (fun hlt ↦ hl' (hl hlt))

/-- Induction on the levels still to be stacked. -/
theorem extendLoop_spec (h : WF t) {r m : Nat} (fuel : Nat) {nr : Node} (hr : t.rnode = .node r)
    (hnr : t.node r = some nr) (hm : m ≤ 60) (hdvd : 6 ∣ m) (hlt : nr.shift + 6 ≤ m)
    (hfuel : m < nr.shift + 6 + 6 * fuel) : ∃ t' out,
      extendLoop m fuel t (.node r) (nr.shift + 6) = .ok (t', out) ∧ Extended t m t' out := by
  induction fuel generalizing t r nr with
  | zero => omega
  | succ fuel ih =>
    by_cases hoom : t.oom t.next = true
    · exact ⟨t.skip, none, extendLoop_fail hoom m fuel _ _,
        .enomem (.skip h) rfl ⟨r, hr⟩ (.skip hoom)⟩
    · have hwf := h.raise hr hnr (by omega)
      have hk : Kept t (t.raise r nr) := ⟨hwf, raise_holds h hr hnr, rfl, Nat.le_succ _⟩
      have hl : Slim t → Slim (t.raise r nr) := Slim.raise h hr hnr
      rw [extendLoop_node h hnr (Bool.not_eq_true _ ▸ hoom)]
      obtain ⟨a, ha⟩ := h.shift_dvd hnr
      by_cases hmore : nr.shift + 6 + 6 ≤ m
      · rw [if_pos hmore]
        obtain ⟨t', out, hrun, hext⟩ := ih hwf rfl (raise_top h hnr) hmore (by
          show m < nr.shift + 6 + 6 + 6 * fuel
          omega)
        exact ⟨t', out, hrun, hext.of_kept hk rfl hl⟩
      · rw [if_neg hmore]
        refine ⟨_, _, rfl, .done hk rfl rfl (raise_top h hnr) ?_ hl⟩
        show nr.shift + 6 = m
        omega

end Extend

end Jeopardy.RadixTree
