import Jeopardy.RadixTree.Shape

/-!
# Elementary changes of a tree

The functions of `radix_tree/radix-tree.c` change a tree in six ways only: they fill or clear
a slot of a leaf, hang an empty node under a free slot, take an empty node away, put a root
on top of the root, and take the root away. Each way keeps the invariant, the blocks of the
nodes that stay, and, but for the leaf slot, the contents.
-/

namespace Jeopardy.RadixTree

/-- A node as `calloc` leaves it. -/
def emptyNode (shift : Nat) (offset : Fin 64) (parent : Option Nat) : Node :=
  ⟨0, shift, offset, 0, parent, fun _ ↦ .null⟩

@[simp] theorem emptyNode_used (shift : Nat) (offset : Fin 64) (parent : Option Nat) :
    (emptyNode shift offset parent).used = 0 := Slots.occupied_const _

namespace Node

/-- The node after a child has been linked into a free slot. -/
def attach (nd : Node) (o : Fin 64) (c : Nat) : Node :=
  { nd with count := nd.count + 1, slots := Function.update nd.slots o (.node c) }

/-- The node after a slot has been set to `NULL`. -/
def detach (nd : Node) (o : Fin 64) : Node :=
  { nd with count := nd.count - 1, slots := Function.update nd.slots o .null }

theorem attach_slots (nd : Node) (o : Fin 64) (c : Nat) (o' : Fin 64) :
    (nd.attach o c).slots o' = if o' = o then .node c else nd.slots o' := by
  exact Function.update_apply _ _ _ _

theorem detach_slots (nd : Node) (o o' : Fin 64) :
    (nd.detach o).slots o' = if o' = o then .null else nd.slots o' := by
  exact Function.update_apply _ _ _ _

theorem attach_used {nd : Node} {o : Fin 64} (ho : nd.slots o = .null) (c : Nat) :
    (nd.attach o c).used = nd.used + 1 :=
  Slots.occupied_fill ho (by simp)

theorem detach_used {nd : Node} {o : Fin 64} (ho : nd.slots o ≠ .null) :
    (nd.detach o).used + 1 = nd.used :=
  Slots.occupied_clear ho

theorem OK.empty {shift : Nat} (hle : shift ≤ 60) (hdvd : 6 ∣ shift) (offset : Fin 64)
    (parent : Option Nat) : (emptyNode shift offset parent).OK where
  shift_le := hle
  shift_dvd := hdvd
  count_eq := by rw [emptyNode_used]; rfl
  leaf _ _ _ := by simp [emptyNode]
  top _ _ _ := rfl

theorem OK.attach {nd : Node} (h : nd.OK) {o : Fin 64} (ho : nd.slots o = .null)
    (hs : nd.shift ≠ 0) (htop : nd.shift = 60 → o.val < 16) (c : Nat) : (nd.attach o c).OK where
  shift_le := h.shift_le
  shift_dvd := h.shift_dvd
  count_eq := by
    rw [attach_used ho, BitVec.ofNat_add, ← h.count_eq]
    rfl
  leaf hz := absurd hz hs
  top h60 o' ho' := by
    have hne : o' ≠ o := by
      rintro rfl
      exact absurd (htop h60) (Nat.not_lt.mpr ho')
    rw [attach_slots, if_neg hne]
    exact h.top h60 o' ho'

theorem OK.detach {nd : Node} (h : nd.OK) {o : Fin 64} (ho : nd.slots o ≠ .null) :
    (nd.detach o).OK where
  shift_le := h.shift_le
  shift_dvd := h.shift_dvd
  count_eq := by
    show nd.count - 1 = _
    rw [h.count_eq, ← detach_used ho, BitVec.ofNat_add]
    exact BitVec.add_sub_cancel _ _
  leaf hz o' q := by
    rw [detach_slots]
    split
    · simp
    · exact h.leaf hz o' q
  top h60 o' ho' := by
    rw [detach_slots]
    split
    · rfl
    · exact h.top h60 o' ho'

end Node

namespace Tree

/-- The tree after a successful allocation. -/
def push (t : Tree) (nd : Node) : Tree :=
  { t with node := Function.update t.node t.next (some nd), next := t.next + 1 }

/-- An empty node under slot `o` of the node `np` at `p`. -/
def hang (t : Tree) (p : Nat) (np : Node) (o : Fin 64) : Tree :=
  (t.push (emptyNode (np.shift - 6) o (some p))).setNode p (some (np.attach o t.next))

/-- The node at `p` taken out of slot `o` of its parent `nq` at `q`. -/
def prune (t : Tree) (p q : Nat) (nq : Node) (o : Fin 64) : Tree :=
  (t.setNode q (some (nq.detach o))).setNode p none

theorem hang_node (t : Tree) (p : Nat) (np : Node) (o : Fin 64) (x : Nat) :
    (t.hang p np o).node x = if x = p then some (np.attach o t.next)
      else if x = t.next then some (emptyNode (np.shift - 6) o (some p)) else t.node x := by
  rw [hang, setNode_node, push]
  congr 1
  exact Function.update_apply _ _ _ _

theorem prune_node (t : Tree) (p q : Nat) (nq : Node) (o : Fin 64) (x : Nat) :
    (t.prune p q nq o).node x = if x = p then none
      else if x = q then some (nq.detach o) else t.node x := by
  rw [prune, setNode_node, setNode_node]

end Tree

/-- The contents agree when the leaves that hold items do. -/
theorem holds_congr {t t' : Tree} (h : WF t)
    (hraw : ∀ x, t'.rnode = .item x ↔ t.rnode = .item x)
    (hcov : ∀ {p nd b}, t'.node p = some nd → Covers t p b → Covers t' p b)
    (hleaf : ∀ p o x, (∃ nd, t'.node p = some nd ∧ nd.shift = 0 ∧ nd.slots o = .item x) ↔
      ∃ nd, t.node p = some nd ∧ nd.shift = 0 ∧ nd.slots o = .item x) (i : BitVec 64) (x : Item) :
    Holds t' i x ↔ Holds t i x := by
  constructor
  · rintro (⟨hx, hi⟩ | ⟨p, nd', ⟨hp', hb'⟩, hs', hx⟩)
    · exact .inl ⟨(hraw x).mp hx, hi⟩
    · obtain ⟨nd, hp, hs, hslot⟩ := (hleaf p _ x).mp ⟨nd', hp', hs', hx⟩
      obtain ⟨b, hb⟩ := h.exists_covers hp
      have heq := (hcov hp' hb).block_unique hb'
      exact .inr ⟨p, nd, ⟨hp, by rw [hs, ← hs', ← heq]; exact hb⟩, hs, hslot⟩
  · rintro (⟨hx, hi⟩ | ⟨p, nd, ⟨hp, hb⟩, hs, hx⟩)
    · exact .inl ⟨(hraw x).mpr hx, hi⟩
    · obtain ⟨nd', hp', hs', hslot⟩ := (hleaf p _ x).mpr ⟨nd, hp, hs, hx⟩
      exact .inr ⟨p, nd', ⟨hp', by rw [hs', ← hs]; exact hcov hp' hb⟩, hs', hslot⟩

/-- The node at `p` stays in its place in `t'`, whatever happens to its slots. -/
def Stays (t t' : Tree) (p : Nat) : Prop :=
  ∀ nd, t.node p = some nd → ∃ nd', t'.node p = some nd' ∧ nd'.shift = nd.shift ∧
    nd'.parent = nd.parent ∧ nd'.offset = nd.offset

theorem Stays.of_eq {t t' : Tree} {p : Nat} (h : t'.node p = t.node p) : Stays t t' p :=
  fun nd hp ↦ ⟨nd, h.trans hp, rfl, rfl, rfl⟩

/-- Nodes whose ancestors stay in place keep their blocks. -/
theorem Covers.stays {t t' : Tree} {p b : Nat} (hb : Covers t p b) (h : ∀ q, Stays t t' q) :
    Covers t' p b := by
  induction hb with
  | root hp hn =>
    obtain ⟨nd', hp', -, hpar, -⟩ := h _ _ hp
    exact .root hp' (hpar.trans hn)
  | child hp hq hb ih =>
    obtain ⟨nd', hp', -, hpar, hoff⟩ := h _ _ hp
    rw [← hoff]
    exact .child hp' (hpar.trans hq) ih

/-! ### Hanging an empty node -/

section Hang

variable {t : Tree} {p : Nat} {np : Node} {o : Fin 64}

theorem stays_hang (h : WF t) (hp : t.node p = some np) (x : Nat) : Stays t (t.hang p np o) x := by
  intro nd hx
  by_cases hxp : x = p
  · subst hxp
    rw [hp, Option.some.injEq] at hx
    subst hx
    exact ⟨np.attach o t.next, by rw [Tree.hang_node, if_pos rfl], rfl, rfl, rfl⟩
  · have hne := (h.lt_next hx).ne
    exact ⟨nd, by rw [Tree.hang_node, if_neg hxp, if_neg hne, hx], rfl, rfl, rfl⟩

theorem hang_new (h : WF t) (hp : t.node p = some np) :
    (t.hang p np o).node t.next = some (emptyNode (np.shift - 6) o (some p)) := by
  rw [Tree.hang_node, if_neg (h.lt_next hp).ne', if_pos rfl]

theorem hang_self (t : Tree) : (t.hang p np o).node p = some (np.attach o t.next) := by
  rw [Tree.hang_node, if_pos rfl]

theorem hang_eq_some {x : Nat} {nx : Node} (hx : (t.hang p np o).node x = some nx) :
    (x = p ∧ nx = np.attach o t.next) ∨
      (x = t.next ∧ nx = emptyNode (np.shift - 6) o (some p)) ∨ t.node x = some nx := by
  rw [Tree.hang_node] at hx
  split at hx
  · next hxp => exact .inl ⟨hxp, (Option.some.inj hx).symm⟩
  · split at hx
    · next hxn => exact .inr (.inl ⟨hxn, (Option.some.inj hx).symm⟩)
    · exact .inr (.inr hx)

theorem WF.hang_child (h : WF t) (hp : t.node p = some np) (hs : np.shift ≠ 0) {x : Nat} {nx : Node}
    {o' : Fin 64} (hx : (t.hang p np o).node x = some nx) (hsx : nx.shift ≠ 0)
    (ho' : nx.slots o' ≠ .null) : ∃ q nc, nx.slots o' = .node q ∧
      (t.hang p np o).node q = some nc ∧ nc.shift + 6 = nx.shift ∧ nc.parent = some x ∧
        nc.offset = o' := by
  have hold (nd : Node) (hnd : t.node x = some nd) (hslot : nd.slots o' = nx.slots o')
      (hshift : nd.shift = nx.shift) : ∃ q nc, nx.slots o' = .node q ∧
        (t.hang p np o).node q = some nc ∧ nc.shift + 6 = nx.shift ∧ nc.parent = some x ∧
          nc.offset = o' := by
    rw [← hslot] at ho' ⊢
    rw [← hshift] at hsx ⊢
    obtain ⟨q, nc, hq, hnc, hsc, hpar, hoff⟩ := h.child hnd hsx ho'
    obtain ⟨nc', hnc', hsc', hpar', hoff'⟩ := stays_hang (o := o) h hp q nc hnc
    exact ⟨q, nc', hq, hnc', by omega, hpar'.trans hpar, hoff'.trans hoff⟩
  have hdvd := h.shift_dvd hp
  rcases hang_eq_some hx with ⟨rfl, rfl⟩ | ⟨-, rfl⟩ | hx
  · by_cases hoo : o' = o
    · subst hoo
      refine ⟨t.next, _, by rw [Node.attach_slots, if_pos rfl], hang_new h hp, ?_, rfl, rfl⟩
      show np.shift - 6 + 6 = np.shift
      omega
    · exact hold np hp (by rw [Node.attach_slots, if_neg hoo]) rfl
  · exact absurd rfl ho'
  · exact hold nx hx rfl rfl

theorem WF.hang_parent (h : WF t) (hp : t.node p = some np) (hs : np.shift ≠ 0)
    (ho : np.slots o = .null) {x q : Nat} {nx : Node} (hx : (t.hang p np o).node x = some nx)
    (hq : nx.parent = some q) : ∃ nq, (t.hang p np o).node q = some nq ∧
      nx.shift + 6 = nq.shift ∧ nq.slots nx.offset = .node x := by
  have hold (nd : Node) (hnd : t.node x = some nd) (hpar : nd.parent = some q) :
      ∃ nq, (t.hang p np o).node q = some nq ∧ nd.shift + 6 = nq.shift ∧
        nq.slots nd.offset = .node x := by
    obtain ⟨nq, hnq, hsq, hslot⟩ := h.parent hnd hpar
    by_cases hqp : q = p
    · subst hqp
      rw [hp, Option.some.injEq] at hnq
      subst hnq
      have hoo : nd.offset ≠ o := by
        intro hoo
        rw [hoo, ho] at hslot
        exact absurd hslot (by simp)
      exact ⟨_, hang_self t, hsq, by rw [Node.attach_slots, if_neg hoo, hslot]⟩
    · exact ⟨nq, by rw [Tree.hang_node, if_neg hqp, if_neg (h.lt_next hnq).ne, hnq], hsq, hslot⟩
  have hdvd := h.shift_dvd hp
  rcases hang_eq_some hx with ⟨rfl, rfl⟩ | ⟨rfl, rfl⟩ | hx
  · exact hold np hp hq
  · cases hq
    refine ⟨_, hang_self t, ?_, (Node.attach_slots _ _ _ _).trans (if_pos rfl)⟩
    show np.shift - 6 + 6 = np.shift
    omega
  · exact hold nx hx hq

theorem WF.hang (h : WF t) (hp : t.node p = some np) (hs : np.shift ≠ 0)
    (ho : np.slots o = .null) (htop : np.shift = 60 → o.val < 16) : WF (t.hang p np o) := by
  constructor
  case fresh =>
    intro x hx
    have hx' : t.next + 1 ≤ x := hx
    have hlt := h.lt_next hp
    rw [Tree.hang_node, if_neg (by omega), if_neg (by omega)]
    exact h.fresh x (by omega)
  case ok =>
    intro x nx hx
    have hdvd := h.shift_dvd hp
    have hle := h.shift_le hp
    rcases hang_eq_some hx with ⟨-, rfl⟩ | ⟨-, rfl⟩ | hx
    · exact (h.ok hp).attach ho hs htop _
    · exact .empty (by omega) (by omega) _ _
    · exact h.ok hx
  case child => exact fun hx hsx ho' ↦ h.hang_child hp hs hx hsx ho'
  case parent => exact fun hx hq ↦ h.hang_parent hp hs ho hx hq
  case orphan =>
    intro x nx hx hn
    rcases hang_eq_some hx with ⟨rfl, rfl⟩ | ⟨-, rfl⟩ | hx
    · have hn' : np.parent = none := hn
      exact h.orphan hp hn'
    · exact absurd hn (by simp [emptyNode])
    · exact h.orphan hx hn
  case root =>
    intro x hx
    obtain ⟨nx, hnx, hpar, hoff⟩ := h.root hx
    obtain ⟨nx', hnx', -, hpar', hoff'⟩ := stays_hang (o := o) h hp x nx hnx
    exact ⟨nx', hnx', hpar'.trans hpar, hoff'.trans hoff⟩
  case raw => exact h.raw

theorem hang_holds (h : WF t) (hp : t.node p = some np) (hs : np.shift ≠ 0) (i : BitVec 64)
    (x : Item) : Holds (t.hang p np o) i x ↔ Holds t i x := by
  apply holds_congr h
  · exact fun x ↦ Iff.rfl
  · exact fun _ hb ↦ hb.stays (stays_hang h hp)
  · intro q o' x
    rw [Tree.hang_node]
    split
    · next hqp =>
      rw [hqp, hp]
      constructor
      · rintro ⟨nd, hnd, hz, -⟩
        cases hnd
        exact absurd hz hs
      · rintro ⟨nd, hnd, hz, -⟩
        cases hnd
        exact absurd hz hs
    · split
      · next hqn =>
        rw [hqn, h.fresh _ (Nat.le_refl _)]
        constructor
        · rintro ⟨nd, hnd, -, hx⟩
          cases hnd
          exact absurd hx (by simp [emptyNode])
        · rintro ⟨nd, hnd, -⟩
          exact absurd hnd (by simp)
      · exact Iff.rfl

end Hang

/-! ### Taking an empty node away -/

section Prune

variable {t : Tree} {p q : Nat} {nd nq : Node}

theorem prune_stays (hq : t.node q = some nq) {o : Fin 64} {x : Nat} (hxp : x ≠ p) :
    Stays t (t.prune p q nq o) x := by
  intro nx hx
  by_cases hxq : x = q
  · subst hxq
    rw [hq, Option.some.injEq] at hx
    subst hx
    exact ⟨nq.detach o, by rw [Tree.prune_node, if_neg hxp, if_pos rfl], rfl, rfl, rfl⟩
  · exact ⟨nx, by rw [Tree.prune_node, if_neg hxp, if_neg hxq, hx], rfl, rfl, rfl⟩

theorem prune_eq_some {o : Fin 64} {x : Nat} {nx : Node}
    (hx : (t.prune p q nq o).node x = some nx) :
    x ≠ p ∧ (x = q ∧ nx = nq.detach o ∨ x ≠ q ∧ t.node x = some nx) := by
  rw [Tree.prune_node] at hx
  split at hx
  · exact absurd hx (by simp)
  · next hxp =>
    split at hx
    · next hxq => exact ⟨hxp, .inl ⟨hxq, (Option.some.inj hx).symm⟩⟩
    · next hxq => exact ⟨hxp, .inr ⟨hxq, hx⟩⟩

/-- A node whose slots are free is nobody's parent. -/
theorem WF.parent_ne_of_used (h : WF t) (hp : t.node p = some nd) (hu : nd.used = 0) {x y : Nat}
    {nx : Node} (hx : t.node x = some nx) (hy : nx.parent = some y) : y ≠ p := by
  rintro rfl
  obtain ⟨ny, hny, -, hslot⟩ := h.parent hx hy
  rw [hp, Option.some.injEq] at hny
  rw [← hny, Slots.occupied_eq_zero_iff.mp hu] at hslot
  cases hslot

/-- Blocks are read off the ancestors, and a node without children is nobody's ancestor. -/
theorem Covers.prune (h : WF t) (hp : t.node p = some nd) (hu : nd.used = 0)
    (hq : t.node q = some nq) {o : Fin 64} {x b : Nat} (hb : Covers t x b) (hx : x ≠ p) :
    Covers (t.prune p q nq o) x b := by
  induction hb with
  | root hx' hn =>
    obtain ⟨nx, hnx, -, hpar, -⟩ := prune_stays (o := o) hq hx _ hx'
    exact .root hnx (hpar.trans hn)
  | @child x y b nx hx' hy hb ih =>
    obtain ⟨nx', hnx, -, hpar, hoff⟩ := prune_stays (o := o) hq hx _ hx'
    rw [← hoff]
    exact .child hnx (hpar.trans hy) (ih (h.parent_ne_of_used hp hu hx' hy))

theorem WF.prune_child (h : WF t) (hp : t.node p = some nd) (hpar : nd.parent = some q)
    (hq : t.node q = some nq) {x : Nat} {nx : Node} {o : Fin 64}
    (hx : (t.prune p q nq nd.offset).node x = some nx) (hsx : nx.shift ≠ 0)
    (ho : nx.slots o ≠ .null) : ∃ y nc, nx.slots o = .node y ∧
      (t.prune p q nq nd.offset).node y = some nc ∧ nc.shift + 6 = nx.shift ∧ nc.parent = some x ∧
        nc.offset = o := by
  have hold (ny : Node) (hny : t.node x = some ny) (hshift : ny.shift = nx.shift)
      (hsl : ny.slots o = nx.slots o) (hne : x = q → o ≠ nd.offset) : ∃ y nc,
        nx.slots o = .node y ∧ (t.prune p q nq nd.offset).node y = some nc ∧
          nc.shift + 6 = nx.shift ∧ nc.parent = some x ∧ nc.offset = o := by
    rw [← hsl] at ho ⊢
    rw [← hshift] at hsx ⊢
    obtain ⟨y, nc, hy, hnc, hsc, hparc, hoff⟩ := h.child hny hsx ho
    have hyp : y ≠ p := by
      rintro rfl
      rw [hp, Option.some.injEq] at hnc
      subst hnc
      rw [hpar, Option.some.injEq] at hparc
      exact hne hparc.symm hoff.symm
    obtain ⟨nc', hnc', hsc', hparc', hoff'⟩ := prune_stays (o := nd.offset) hq hyp nc hnc
    exact ⟨y, nc', hy, hnc', by omega, hparc'.trans hparc, hoff'.trans hoff⟩
  obtain ⟨-, ⟨hxq, rfl⟩ | ⟨hxq, hx⟩⟩ := prune_eq_some hx
  · have hoo : o ≠ nd.offset := by
      rintro rfl
      exact ho (by rw [Node.detach_slots, if_pos rfl])
    exact hold nq (hxq ▸ hq) rfl (by rw [Node.detach_slots, if_neg hoo]) (fun _ ↦ hoo)
  · exact hold nx hx rfl rfl (fun hxq' ↦ absurd hxq' hxq)

theorem WF.prune_parent (h : WF t) (hp : t.node p = some nd) (hu : nd.used = 0)
    (hq : t.node q = some nq) (hslot : nq.slots nd.offset = .node p) {x y : Nat} {nx : Node}
    (hx : (t.prune p q nq nd.offset).node x = some nx) (hy : nx.parent = some y) :
    ∃ ny, (t.prune p q nq nd.offset).node y = some ny ∧ nx.shift + 6 = ny.shift ∧
      ny.slots nx.offset = .node x := by
  obtain ⟨hxp, hor⟩ := prune_eq_some hx
  have hold : ∃ nx', t.node x = some nx' ∧ nx'.shift = nx.shift ∧ nx'.parent = nx.parent ∧
      nx'.offset = nx.offset := by
    rcases hor with ⟨rfl, rfl⟩ | ⟨-, hx⟩
    · exact ⟨nq, hq, rfl, rfl, rfl⟩
    · exact ⟨nx, hx, rfl, rfl, rfl⟩
  obtain ⟨nx', hnx', hsx, hparx, hoffx⟩ := hold
  have hyp := h.parent_ne_of_used hp hu hnx' (hparx.trans hy)
  obtain ⟨ny, hny, hsy, hsloty⟩ := h.parent hnx' (hparx.trans hy)
  rw [hsx] at hsy
  rw [hoffx] at hsloty
  by_cases hyq : y = q
  · subst hyq
    rw [hq, Option.some.injEq] at hny
    subst hny
    have hoo : nx.offset ≠ nd.offset := by
      intro hoo
      rw [hoo, hslot, Entry.node.injEq] at hsloty
      exact hxp hsloty.symm
    refine ⟨nq.detach nd.offset, by rw [Tree.prune_node, if_neg hyp, if_pos rfl], hsy, ?_⟩
    rw [Node.detach_slots, if_neg hoo, hsloty]
  · exact ⟨ny, by rw [Tree.prune_node, if_neg hyp, if_neg hyq, hny], hsy, hsloty⟩

theorem WF.prune (h : WF t) (hp : t.node p = some nd) (hu : nd.used = 0)
    (hpar : nd.parent = some q) (hq : t.node q = some nq) : WF (t.prune p q nq nd.offset) := by
  obtain ⟨nq', hnq', hs, hslot⟩ := h.parent hp hpar
  rw [hq, Option.some.injEq] at hnq'
  subst hnq'
  constructor
  case fresh =>
    intro x hx
    have hx' : t.next ≤ x := hx
    rw [Tree.prune_node]
    split
    · rfl
    · rw [if_neg ((h.lt_next hq).trans_le hx').ne']
      exact h.fresh x hx'
  case ok =>
    intro x nx hx
    obtain ⟨-, ⟨-, rfl⟩ | ⟨-, hx⟩⟩ := prune_eq_some hx
    · exact (h.ok hq).detach (by rw [hslot]; simp)
    · exact h.ok hx
  case child => exact fun hx hsx ho ↦ h.prune_child hp hpar hq hx hsx ho
  case parent => exact fun hx hy ↦ h.prune_parent hp hu hq hslot hx hy
  case orphan =>
    intro x nx hx hn
    obtain ⟨-, ⟨rfl, rfl⟩ | ⟨-, hx⟩⟩ := prune_eq_some hx
    · have hn' : nq.parent = none := hn
      exact h.orphan hq hn'
    · exact h.orphan hx hn
  case root =>
    intro x hx
    obtain ⟨nx, hnx, hparx, hoff⟩ := h.root hx
    have hxp : x ≠ p := by
      rintro rfl
      rw [hp, Option.some.injEq] at hnx
      rw [← hnx, hpar] at hparx
      exact absurd hparx (by simp)
    obtain ⟨nx', hnx', -, hpar', hoff'⟩ := prune_stays (o := nd.offset) hq hxp nx hnx
    exact ⟨nx', hnx', hpar'.trans hparx, hoff'.trans hoff⟩
  case raw => exact h.raw

theorem prune_holds (h : WF t) (hp : t.node p = some nd) (hu : nd.used = 0)
    (hpar : nd.parent = some q) (hq : t.node q = some nq) (i : BitVec 64) (x : Item) :
    Holds (t.prune p q nq nd.offset) i x ↔ Holds t i x := by
  obtain ⟨nq', hnq', hs, -⟩ := h.parent hp hpar
  rw [hq, Option.some.injEq] at hnq'
  subst hnq'
  apply holds_congr h
  · exact fun x ↦ Iff.rfl
  · exact fun hx hb ↦ hb.prune h hp hu hq (prune_eq_some hx).1
  · intro y o x
    constructor
    · rintro ⟨ny, hny, hz, hslot⟩
      obtain ⟨-, ⟨-, rfl⟩ | ⟨-, hny⟩⟩ := prune_eq_some hny
      · have hz' : nq.shift = 0 := hz
        omega
      · exact ⟨ny, hny, hz, hslot⟩
    · rintro ⟨ny, hny, hz, hslot⟩
      have hyp : y ≠ p := by
        rintro rfl
        rw [hp, Option.some.injEq] at hny
        rw [← hny, Slots.occupied_eq_zero_iff.mp hu] at hslot
        exact absurd hslot (by simp)
      have hyq : y ≠ q := by
        rintro rfl
        rw [hq, Option.some.injEq] at hny
        rw [hny] at hs
        omega
      exact ⟨ny, by rw [Tree.prune_node, if_neg hyp, if_neg hyq, hny], hz, hslot⟩

end Prune

end Jeopardy.RadixTree
