import Jeopardy.RadixTree.Grow
import Jeopardy.RadixTree.Lookup

/-!
# Insertion

`__radix_tree_create` descends from the root and allocates the nodes that are missing on the
way of the index; `radix_tree_insert` then fills the slot unless it is taken. Each outcome is
described against the contents before the call.
-/

namespace Jeopardy.RadixTree

/-! ### The way down -/

/-- The outcomes of descending for index `i` from the node at `p`. -/
inductive Descended (t : Tree) (i : BitVec 64) (p : Nat) :
    Tree → Option (Option Nat × Slot) → Prop where
  | enomem {t' : Tree} (hk : Kept t t') (hs : t'.itemStores = t.itemStores)
      (hr : t'.rnode = t.rnode) (hnone : ∀ x nx, On t i x nx → nx.shift ≠ 0)
      (hoom : LastFailed t t') : Descended t i p t' none
  | slot {t' : Tree} {q : Nat} {nq : Node} (hk : Kept t t') (hs : t'.itemStores = t.itemStores)
      (hr : t'.rnode = t.rnode) (hq : On t' i q nq) (hz : nq.shift = 0)
      (hsame : ∀ x nx, On t i x nx → nx.shift = 0 → t' = t)
      (hbare : Bare t p → Bare t' q)
      (htall : Tall t ∨ t.rnode = .node p ∧
        (∀ np, t.node p = some np → np.shift ≠ 0 → slotOffset i np.shift ≠ 0) → Tall t') :
      Descended t i p t' (some (some q, .node q (slotOffset i 0)))

section Hang

variable {t : Tree} {p : Nat} {np : Node} {i : BitVec 64}

theorem createChild_hang (h : WF t) (hp : t.node p = some np) (o : Fin 64)
    (hoom : t.oom t.next = false) :
    createChild t (some p) (.node p o) (np.shift - 6) o = .ok (t.hang p np o, some t.next) := by
  have hpn : p ≠ t.next := (h.lt_next hp).ne
  have hpush : (t.push (emptyNode (np.shift - 6) o (some p))).node p = some np := by
    rw [← hp]
    exact Function.update_of_ne hpn _ _
  rw [createChild, radixTreeNodeAlloc_ok hoom]
  simp only []
  rw [show (⟨0, np.shift - 6, o, 0, some p, fun _ ↦ .null⟩ : Node)
      = emptyNode (np.shift - 6) o (some p) from rfl, Tree.store_eq hpush, Fault.ok_bind,
    Tree.modify_eq (Tree.setNode_self _ _ _), Fault.ok_bind, Tree.setNode_setNode]
  rfl

theorem createChild_fail (node : Option Nat) (slot : Slot) (s : Nat) (o : Fin 64)
    (hoom : t.oom t.next = true) : createChild t node slot s o = .ok (t.skip, none) := by
  rw [createChild, radixTreeNodeAlloc_fail hoom]
  rfl

theorem hang_on (h : WF t) (hp : On t i p np) (hs : np.shift ≠ 0) :
    On (t.hang p np (slotOffset i np.shift)) i t.next
      (emptyNode (np.shift - 6) (slotOffset i np.shift) (some p)) := by
  obtain ⟨a, ha⟩ := h.shift_dvd hp.1
  refine ⟨hang_new h hp.1, ?_⟩
  have hsh : (emptyNode (np.shift - 6) (slotOffset i np.shift) (some p)).shift + 6 = np.shift := by
    show np.shift - 6 + 6 = np.shift
    omega
  rw [hsh, div_eq_offset]
  exact .child (hang_new h hp.1) rfl (hp.2.stays (stays_hang h hp.1))

theorem Bare.hang (h : WF t) (hp : t.node p = some np) {o : Fin 64} (ho : np.slots o = .null)
    (hb : Bare t p) : Bare (t.hang p np o) t.next := by
  intro x nx hx hu
  rw [Tree.hang_node] at hx
  split at hx
  · cases hx
    rw [Node.attach_used ho] at hu
    exact absurd hu (by simp)
  · next hxp =>
    split at hx
    · next hxn => exact .inl hxn
    · next hxn =>
      obtain ⟨hz, hc⟩ := (hb x nx hx hu).resolve_left hxp
      exact .inr ⟨hz, hc.stays (stays_hang h hp)⟩

theorem Bare.child {o : Fin 64} {q : Nat} (hp : t.node p = some np) (ho : np.slots o ≠ .null)
    (hb : Bare t p) : Bare t q := by
  intro x nx hx hu
  rcases hb x nx hx hu with rfl | hleft
  · rw [hp, Option.some.injEq] at hx
    subst hx
    exact absurd (Slots.occupied_eq_zero_iff.mp hu o) ho
  · exact .inr hleft

theorem Tall.hang (h : WF t) (hp : t.node p = some np) {o : Fin 64}
    (ht : Tall t ∨ t.rnode = .node p ∧ o ≠ 0) : Tall (t.hang p np o) := by
  intro r nr hr hnr hs
  have hr' : t.rnode = .node r := hr
  rw [Tree.hang_node] at hnr
  split at hnr
  · next hrp =>
    cases hnr
    rcases ht with ht | ⟨-, ho0⟩
    · obtain ⟨o', ho', hsl⟩ := ht r np hr' (hrp ▸ hp) hs
      refine ⟨o', ho', ?_⟩
      rw [Node.attach_slots]
      split
      · simp
      · exact hsl
    · refine ⟨o, ho0, ?_⟩
      rw [Node.attach_slots, if_pos rfl]
      simp
  · next hrp =>
    obtain ⟨nr', hnr', -, -⟩ := h.root hr'
    rcases ht with ht | ⟨hroot, -⟩
    · rw [if_neg (h.lt_next hnr').ne] at hnr
      exact ht r nr hr' hnr hs
    · rw [hr', Entry.node.injEq] at hroot
      exact absurd hroot hrp

end Hang

/-- One step of the descent that meets a free slot, and the rest below it. -/
theorem Descended.of_hang {t t' : Tree} {p : Nat} {np : Node} {i : BitVec 64}
    {out : Option (Option Nat × Slot)} (h : WF t) (hp : On t i p np) (hs : np.shift ≠ 0)
    (ho : np.slots (slotOffset i np.shift) = .null)
    (hd : Descended (t.hang p np (slotOffset i np.shift)) i t.next t' out) :
    Descended t i p t' out := by
  have hk : Kept t (t.hang p np (slotOffset i np.shift)) :=
    ⟨h.hang hp.1 hs ho (fun h60 ↦ h60 ▸ slotOffset_top i), hang_holds h hp.1 hs, rfl,
      Nat.le_succ _⟩
  have hleaf (x : Nat) (nx : Node) (hx : On t i x nx) : nx.shift ≠ 0 :=
    fun hzx ↦ h.on_below hp hx (by omega) ho
  cases hd with
  | enomem hk' hs' hr _ hoom => exact .enomem (hk.trans hk') hs' hr hleaf (hoom.of_kept hk)
  | slot hk' hs' hr hq hz hsame hbare htall =>
    refine .slot (hk.trans hk') hs' hr hq hz ?_ (fun hb ↦ hbare (hb.hang h hp.1 ho)) ?_
    · exact fun x nx hx hzx ↦ absurd hzx (hleaf x nx hx)
    · intro ht
      exact htall (.inl (Tall.hang h hp.1 (ht.imp_right (fun ht ↦ ⟨ht.1, ht.2 np hp.1 hs⟩))))

theorem Descended.of_child {t t' : Tree} {p q : Nat} {np : Node} {i : BitVec 64}
    {out : Option (Option Nat × Slot)} (hp : On t i p np) (hs : np.shift ≠ 0)
    (ho : np.slots (slotOffset i np.shift) ≠ .null) (hd : Descended t i q t' out) :
    Descended t i p t' out := by
  cases hd with
  | enomem hk' hs' hr hnone hoom => exact .enomem hk' hs' hr hnone hoom
  | slot hk' hs' hr hq hz hsame hbare htall =>
    refine .slot hk' hs' hr hq hz hsame (fun hb ↦ hbare (hb.child hp.1 ho)) ?_
    intro ht
    refine htall (.inl ?_)
    rcases ht with ht | ⟨hroot, hoff⟩
    · exact ht
    · intro r nr hr' hnr _
      rw [hroot, Entry.node.injEq] at hr'
      subst hr'
      rw [hp.1, Option.some.injEq] at hnr
      subst hnr
      exact ⟨_, hoff np hp.1 hs, ho⟩

/-- Induction on the level of the present node. -/
theorem createLoop_spec {t : Tree} (h : WF t) {i : BitVec 64} {p fuel : Nat} {np : Node}
    (hp : On t i p np) (hfuel : np.shift < 6 * fuel) : ∃ t' out,
      createLoop i fuel t (some p) (.node p (slotOffset i np.shift))
        (np.slots (slotOffset i np.shift)) np.shift (slotOffset i np.shift) = .ok (t', out) ∧
      Descended t i p t' out := by
  induction fuel generalizing t p np with
  | zero => omega
  | succ fuel ih =>
    rw [createLoop]
    by_cases hs : np.shift = 0
    · rw [if_pos hs, hs]
      refine ⟨t, _, rfl, .slot (.refl h) rfl rfl hp hs (fun _ _ _ _ ↦ rfl) id ?_⟩
      rintro (ht | ⟨hroot, -⟩)
      · exact ht
      · intro r nr hr hnr hsr
        rw [hroot, Entry.node.injEq] at hr
        subst hr
        rw [hp.1, Option.some.injEq] at hnr
        exact absurd (hnr ▸ hs) hsr
    · rw [if_neg hs]
      simp only [MAP_SHIFT]
      obtain ⟨a, ha⟩ := h.shift_dvd hp.1
      by_cases ho : np.slots (slotOffset i np.shift) = .null
      · rw [if_pos ho]
        by_cases hoom : t.oom t.next = true
        · rw [createChild_fail _ _ _ _ hoom]
          exact ⟨t.skip, none, rfl, .enomem (.skip h) rfl rfl
            (fun x nx hx hz ↦ h.on_below hp hx (by omega) ho) (.skip hoom)⟩
        · rw [createChild_hang h hp.1 _ (Bool.not_eq_true _ ▸ hoom)]
          have hon := hang_on h hp hs
          have hwf := h.hang hp.1 hs ho (fun h60 ↦ h60 ▸ slotOffset_top i)
          obtain ⟨t', out, hrun, hd⟩ := ih hwf hon (by
            show np.shift - 6 < 6 * fuel
            omega)
          refine ⟨t', out, ?_, hd.of_hang h hp hs ho⟩
          simp only [Fault.ok_bind, Tree.read_eq hon.1, radixTreeDescend]
          exact hrun
      · rw [if_neg ho]
        obtain ⟨q, nq, hslot, hq, hsq⟩ := h.on_child hp hs ho
        obtain ⟨t', out, hrun, hd⟩ := ih h hq (by omega)
        refine ⟨t', out, ?_, hd.of_child hp hs ho⟩
        rw [hslot]
        simp only [entryToNode, Fault.ok_bind, Tree.read_eq hq.1, radixTreeDescend, pure,
          Except.pure]
        rw [show np.shift - 6 = nq.shift by omega]
        exact hrun

end Jeopardy.RadixTree
