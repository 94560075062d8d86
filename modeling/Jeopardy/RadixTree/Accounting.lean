import Jeopardy.RadixTree.Withering

/-!
# What calls do to the nodes

Every call of a program either leaves the nodes as they are, grows the tree and fills one slot of
a leaf, or clears one slot of a leaf and lets the tree wither from there. The counts of occupied
slots and of value entries follow every such step, failed allocations among them.
-/

namespace Jeopardy.RadixTree

/-! ### Insertions -/

/-- The tree with a root node that an insertion works on: the tree itself, or an empty one that
has got its first node. -/
inductive Planted (t : Tree) : Tree → Prop where
  | node {r : Nat} (hr : t.rnode = .node r) : Planted t t
  | sole {m : Nat} (hr : t.rnode = .null) (hm : m ≤ 60) (hdvd : 6 ∣ m)
      (hoom : t.oom t.next = false) : Planted t (t.sole (emptyNode m 0 none))

section Planted

variable {t t₁ : Tree}

theorem Planted.wf (hp : Planted t t₁) (h : WF t) : WF t₁ := by
  cases hp with
  | node _ => exact h
  | sole hr hm hdvd _ =>
    exact WF.sole (h.node_eq_none (fun r hr' ↦ by rw [hr] at hr'; cases hr'))
      (.empty hm hdvd 0 none) rfl rfl (fun _ _ ↦ rfl)

theorem Planted.root (hp : Planted t t₁) : ∃ r, t₁.rnode = .node r := by
  cases hp with
  | @node r hr => exact ⟨r, hr⟩
  | sole hr hm hdvd hoom => exact ⟨t.next, rfl⟩

theorem Planted.oom_eq (hp : Planted t t₁) : t₁.oom = t.oom := by
  cases hp <;> rfl

theorem Planted.valuesCounted (hp : Planted t t₁) (h : WF t) (hv : ValuesCounted t) :
    ValuesCounted t₁ := by
  cases hp with
  | node _ => exact hv
  | sole hr _ _ _ =>
    have hnone := h.node_eq_none (fun r hr' ↦ by rw [hr] at hr'; cases hr')
    intro p nd hp
    obtain ⟨-, rfl⟩ := sole_eq_some hnone hp
    rw [values_of_not_value (fun _ ↦ rfl)]
    rfl

end Planted

/-- `radix_tree_insert` on an empty tree is `radix_tree_insert` on its first node. -/
theorem radixTreeInsert_sole {t : Tree} (h : WF t) {i : BitVec 64} (hr : t.rnode = .null)
    (hi : i ≠ 0) (hoom : t.oom t.next = false) (x : Item) :
    ∃ m, m ≤ 60 ∧ 6 ∣ m ∧ i.toNat < 2 ^ (m + 6) ∧
      radixTreeInsert t i x = radixTreeInsert (t.sole (emptyNode m 0 none)) i x := by
  have hraw : ∀ r, t.rnode ≠ .node r := fun r ↦ by rw [hr]; simp
  obtain ⟨m, hgrow, hdvd, hm60, hlt, -⟩ := growShift_raw (i := i)
  have hext : radixTreeExtend t i 0 = .ok (t, some (m + 6)) := by
    rw [radixTreeExtend, hgrow, Fault.ok_bind, if_pos hr]
    rfl
  have hnew := sole_new t (emptyNode m 0 none)
  have hmax : ¬ nodeMaxindex (emptyNode m 0 none) < i := by
    rw [nodeMaxindex, shiftMaxindex_lt_iff]
    exact not_le.mpr hlt
  have hcreate : rawRadixTreeCreate t i
      = rawRadixTreeCreate (t.sole (emptyNode m 0 none)) i := by
    rw [rawRadixTreeCreate, radixTreeLoadRoot_raw h hraw, rawRadixTreeCreate,
      radixTreeLoadRoot_node rfl hnew, Fault.ok_bind, Fault.ok_bind]
    simp only [if_pos (pos_of_ne_zero hi), if_neg hmax, hext, Fault.ok_bind, hr]
    exact createLoop_null hoom i m LEVELS
  exact ⟨m, hm60, hdvd, hlt, by rw [radixTreeInsert, hcreate, radixTreeInsert]⟩

/-- What an insertion does to the nodes. -/
inductive NodesAfterInsert (t : Tree) (x : Item) : Tree → Int → Prop where
  | same {t' : Tree} {e : Int} (hnode : t'.node = t.node) : NodesAfterInsert t x t' e
  | grows {t₁ t' : Tree} {e : Int} (hp : Planted t t₁) (hg : GrowsInto t₁ x t' e) :
      NodesAfterInsert t x t' e

theorem radixTreeInsert_nodes {t t' : Tree} (h : WF t) {i : BitVec 64} {x : Item} {e : Int}
    (hsparing : (Call.insert i x).sparing t = true)
    (hrun : radixTreeInsert t i x = .ok (t', e)) : NodesAfterInsert t x t' e := by
  cases hr : t.rnode with
  | node r => exact .grows (.node hr) (radixTreeInsert_grows h hr hrun)
  | null =>
    have hraw : ∀ r, t.rnode ≠ .node r := fun r ↦ by rw [hr]; simp
    by_cases hi : i = 0
    · subst hi
      rw [radixTreeInsert, rawRadixTreeCreate_zero h hraw, Fault.ok_bind] at hrun
      simp only [insertEntries, Tree.load, Tree.store, hr, Fault.ok_bind, ne_eq, not_true_eq_false,
        if_false, pure, Except.pure] at hrun
      rw [if_neg (by decide), Except.ok.injEq, Prod.mk.injEq] at hrun
      obtain ⟨rfl, -⟩ := hrun
      exact .same rfl
    · by_cases hoom : t.oom t.next = true
      · obtain ⟨m, hgrow, -⟩ := growShift_raw (i := i)
        have hext : radixTreeExtend t i 0 = .ok (t, some (m + 6)) := by
          rw [radixTreeExtend, hgrow, Fault.ok_bind, if_pos hr]
          rfl
        rw [radixTreeInsert, rawRadixTreeCreate, radixTreeLoadRoot_raw h hraw,
          Fault.ok_bind] at hrun
        simp only [if_pos (pos_of_ne_zero hi), hext, Fault.ok_bind, hr] at hrun
        rw [createLoop, if_neg (by omega)] at hrun
        simp only [if_true, createChild_fail _ _ _ _ hoom, Fault.ok_bind, pure, Except.pure,
          Except.ok.injEq, Prod.mk.injEq] at hrun
        obtain ⟨rfl, -⟩ := hrun
        exact .same rfl
      · have hoom' := eq_false_of_ne_true hoom
        obtain ⟨m, hm, hdvd, -, heq⟩ := radixTreeInsert_sole h hr hi hoom' x
        have hp : Planted t (t.sole (emptyNode m 0 none)) := .sole hr hm hdvd hoom'
        rw [heq] at hrun
        exact .grows hp (radixTreeInsert_grows (hp.wf h) rfl hrun)
  | item y =>
    have hraw : ∀ r, t.rnode ≠ .node r := fun r ↦ by rw [hr]; simp
    by_cases hi : i = 0
    · subst hi
      rw [radixTreeInsert, rawRadixTreeCreate_zero h hraw, Fault.ok_bind] at hrun
      simp only [insertEntries, Tree.load, hr, Fault.ok_bind, ne_eq, reduceCtorEq,
        not_false_eq_true, if_true, pure, Except.pure] at hrun
      rw [if_pos (by decide), Except.ok.injEq, Prod.mk.injEq] at hrun
      obtain ⟨rfl, -⟩ := hrun
      exact .same rfl
    · have hoom : t.oom t.next = true := by
        rw [Call.sparing, hr] at hsparing
        exact (Bool.or_eq_true_iff.mp hsparing).resolve_left (mt beq_iff_eq.mp hi)
      obtain ⟨m, hgrow, -⟩ := growShift_raw (i := i)
      have hext : radixTreeExtend t i 0 = .ok (t.skip, none) := by
        rw [radixTreeExtend, hgrow, Fault.ok_bind, hr, if_neg (by simp), LEVELS,
          extendLoop_fail hoom]
      rw [radixTreeInsert, rawRadixTreeCreate, radixTreeLoadRoot_raw h hraw, Fault.ok_bind] at hrun
      simp only [if_pos (pos_of_ne_zero hi), hext, Fault.ok_bind, pure, Except.pure,
        Except.ok.injEq, Prod.mk.injEq] at hrun
      obtain ⟨rfl, -⟩ := hrun
      exact .same rfl

theorem GrowsInto.valuesCounted {t t' : Tree} {x : Item} {e : Int} (hg : GrowsInto t x t' e)
    (hv : ValuesCounted t) : ValuesCounted t' := by
  cases hg with
  | enomem hg => exact hg.valuesCounted hv
  | present hg => exact hg.valuesCounted hv
  | @stored t₁ q nq o hg hq hz ho =>
    have hval := hg.valuesCounted hv
    intro y ny hy
    rw [Tree.setNode_node] at hy
    split at hy
    · cases hy
      rw [fill_values ho, BitVec.ofNat_add, ← hval q nq hq, Node.fill]
      simp only []
      split <;> simp
    · exact hval y ny hy

/-! ### Deletions -/

/-- What a deletion does to the nodes. -/
inductive NodesAfterDelete (t : Tree) : Tree → Prop where
  | same {t' : Tree} (hnode : t'.node = t.node) : NodesAfterDelete t t'
  | clears {t' : Tree} {p : Nat} {nd : Node} {o : Fin 64} {x : Item} {d : Bool}
      (hp : t.node p = some nd) (hz : nd.shift = 0) (hx : nd.slots o = .item x)
      (hrun : deleteNode LEVELS
        (t.setNode p (some (nd.clear o (if xaIsValue (nd.slots o) then -1 else 0)))) p false
          = .ok (t', d)) : NodesAfterDelete t t'

theorem rawRadixTreeDelete_nodes {t t' : Tree} (h : WF t) {i : BitVec 64} {e : Entry} {d : Bool}
    {node : Option Nat} {slot : Slot} (hf : Found t i e (some (node, slot)))
    (hsafe : e ≠ .null ∨ DeleteSafe t i) (hrun : rawRadixTreeDelete t node slot = .ok (t', d)) :
    NodesAfterDelete t t' := by
  have hitem := hf.entry_iff h
  cases hf with
  | root hr hi =>
    rw [(rawRadixTreeDelete_root h hr).1, Except.ok.injEq, Prod.mk.injEq] at hrun
    obtain ⟨rfl, -⟩ := hrun
    exact .same rfl
  | @node p nd hp hend =>
    have hne : nd.slots (slotOffset i nd.shift) ≠ .null := by
      rcases hsafe with hne | ⟨x, hx⟩ | hbeyond
      · exact hne
      · rw [(hitem x).mpr hx]
        simp
      · obtain ⟨r, nr, hr, hnr, -⟩ := h.root_above hp.2 hp.1
        exact absurd (hbeyond r nr hr hnr) (h.not_maxindex_lt hp hr hnr)
    have hz : nd.shift = 0 := hend.resolve_right hne
    cases hx : nd.slots (slotOffset i nd.shift) with
    | null => exact absurd hx hne
    | node q => exact absurd hx (h.leaf hp.1 hz)
    | item x =>
      rw [hz] at hx hrun
      rw [rawRadixTreeDelete_leaf_eq hp.1 hx, ← hx] at hrun
      exact .clears hp.1 hz hx hrun

theorem radixTreeDeleteItem_nodes {t t' : Tree} (h : WF t) {i : BitVec 64} {item : Option Item}
    {e : Entry} (hsafe : item.isSome ∨ DeleteSafe t i)
    (hrun : radixTreeDeleteItem t i item = .ok (t', e)) : NodesAfterDelete t t' := by
  obtain ⟨e₀, out, hlook, hf⟩ := rawRadixTreeLookup_spec h i
  rw [radixTreeDeleteItem, hlook, Fault.ok_bind] at hrun
  cases out with
  | none =>
    cases hrun
    exact .same rfl
  | some out =>
    obtain ⟨node, slot⟩ := out
    cases item with
    | none =>
      obtain ⟨⟨t₁, d⟩, hdel, hrun⟩ := Fault.bind_eq_ok.mp hrun
      cases hrun
      exact rawRadixTreeDelete_nodes h hf (.inr (hsafe.resolve_left (by simp))) hdel
    | some y =>
      simp only at hrun
      split at hrun
      · cases hrun
        exact .same rfl
      · next hy =>
        obtain ⟨⟨t₁, d⟩, hdel, hrun⟩ := Fault.bind_eq_ok.mp hrun
        cases hrun
        exact rawRadixTreeDelete_nodes h hf (.inl (by rw [not_not.mp hy]; simp)) hdel

/-- A leaf with one item less. -/
theorem WF.clearLeaf {t : Tree} (h : WF t) {p : Nat} {nd : Node} {o : Fin 64} {x : Item}
    (hp : t.node p = some nd) (hz : nd.shift = 0) (hx : nd.slots o = .item x) (values : Int) :
    WF (t.setNode p (some (nd.clear o values))) :=
  h.setLeaf hp hz ((h.ok hp).clear hz (by rw [hx]; simp) values) rfl rfl rfl

theorem NodesAfterDelete.valuesCounted {t t' : Tree} (hd : NodesAfterDelete t t') (h : WF t)
    (hv : ValuesCounted t) : ValuesCounted t' := by
  cases hd with
  | same hnode =>
    intro p nd hp
    exact hv p nd (hnode ▸ hp)
  | @clears p nd o x d hp hz hx hrun =>
    have hwf := h.clearLeaf hp hz hx (if xaIsValue (nd.slots o) then -1 else 0)
    exact (deleteNode_withers hwf (Tree.setNode_self _ _ _) hrun).valuesCounted hwf
      (clear_valuesCounted hv hp)

/-! ### Programs -/

/-- The value entries of every node stay counted. -/
theorem step_valuesCounted {t t' : Tree} {f : BitVec 64 → Option Item} (h : Stands t f) {c : Call}
    {r : Reply} (hc : c.careful t = true) (hs : c.sparing t = true) (hv : ValuesCounted t)
    (hrun : c.step t = .ok (t', r)) : ValuesCounted t' := by
  cases c with
  | insert i x =>
    obtain ⟨⟨t₁, e⟩, hins, hrun⟩ := Fault.bind_eq_ok.mp hrun
    cases hrun
    cases radixTreeInsert_nodes h.wf hs hins with
    | same hnode =>
      intro p nd hp
      exact hv p nd (hnode ▸ hp)
    | grows hp hg => exact hg.valuesCounted (hp.valuesCounted h.wf hv)
  | delete i =>
    obtain ⟨⟨t₁, e⟩, hdel, hrun⟩ := Fault.bind_eq_ok.mp hrun
    cases hrun
    exact (radixTreeDeleteItem_nodes h.wf (.inr (h.deleteSafe hc)) hdel).valuesCounted h.wf hv
  | deleteItem i item =>
    obtain ⟨⟨t₁, e⟩, hdel, hrun⟩ := Fault.bind_eq_ok.mp hrun
    cases hrun
    have hsafe : item.isSome ∨ DeleteSafe t i := by
      rw [Call.careful, Bool.or_assoc, Bool.or_eq_true] at hc
      exact hc.imp_right h.deleteSafe
    exact (radixTreeDeleteItem_nodes h.wf hsafe hdel).valuesCounted h.wf hv

/-- What the counters of a node say. -/
structure Node.Counted (nd : Node) : Prop where
  count : nd.count.toNat = nd.used
  values : nd.nr_values.toNat = nd.values
  le : nd.nr_values.toNat ≤ nd.count.toNat

theorem Node.values_le (nd : Node) : nd.values ≤ nd.used := by
  rw [Node.values, Slots.occupied, Node.used, Slots.occupied]
  refine Finset.card_le_card (fun o ho ↦ ?_)
  rw [Finset.mem_filter] at ho ⊢
  refine ⟨ho.1, fun hnull ↦ ho.2 ?_⟩
  rw [hnull]
  rfl

theorem WF.counted {t : Tree} (h : WF t) (hv : ValuesCounted t) {p : Nat} {nd : Node}
    (hp : t.node p = some nd) : nd.Counted := by
  have hle := WF.used_le nd
  have hvle := nd.values_le
  have hcount := h.count_toNat hp
  have hvalues : nd.nr_values.toNat = nd.values := by
    rw [hv p nd hp, BitVec.toNat_ofNat, Nat.mod_eq_of_lt (by omega)]
  exact ⟨hcount, hvalues, by omega⟩

/-- **Accounting.** After any program of insertions and careful deletions, allocations that fail
among them, in which no insertion grows the tree over a raw item, every node counts its occupied
slots and its value entries. -/
theorem nodesCounted_run {oom : Nat → Bool} {t₀ : Tree} {calls : List Call}
    (h0 : radixTreeRootAlloc oom = some t₀) (h1 : oom 1 = false)
    (hcare : Along (fun t c ↦ c.careful t && c.sparing t) t₀ calls = true) :
    ∃ t rs, run t₀ calls = .ok (t, rs) ∧ ∀ p nd, t.node p = some nd → nd.Counted := by
  obtain rfl := rootAlloc_eq h0 h1
  obtain ⟨t, rs, hrun, hst, hv⟩ := run_total (P := fun t c ↦ c.careful t && c.sparing t)
    (I := fun t f ↦ Stands t f ∧ ValuesCounted t) (fun t f c h hc ↦ by
      rw [Bool.and_eq_true] at hc
      obtain ⟨t', r, hrun, hst⟩ := h.1.step hc.1
      exact ⟨t', r, hrun, hst, step_valuesCounted h.1 hc.1 hc.2 h.2 hrun⟩)
    ⟨(stands_emptyTree oom).1, (neat_emptyTree oom).values⟩ hcare
  exact ⟨t, rs, hrun, fun p nd hp ↦ hst.wf.counted hv hp⟩

/-- `nodesCounted_run` of a program with a value entry, a failed allocation and two deletions. -/
theorem nodesCounted_run_value_entry :
    ∃ t rs, run (emptyTree (fun n ↦ n == 4)) [.insert 5 ⟨1, by decide⟩, .insert 70 ⟨8, by decide⟩,
        .insert 5000 ⟨3, by decide⟩, .delete 5, .delete 70] = .ok (t, rs) ∧
      ∀ p nd, t.node p = some nd → nd.Counted :=
  nodesCounted_run (show radixTreeRootAlloc (fun n ↦ n == 4) = some (emptyTree _) from rfl) rfl
    (by decide +kernel)

end Jeopardy.RadixTree
