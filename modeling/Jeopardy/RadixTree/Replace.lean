import Jeopardy.RadixTree.Accounting
import Jeopardy.RadixTree.KillTree

/-!
# Replacing entries

`__radix_tree_replace` is for use with `__radix_tree_lookup`: it stores into the slot found and
accounts for the store against the node found. On a present index it is an update of the map, and
with `NULL` a deletion.
-/

namespace Jeopardy.RadixTree

/-- `__radix_tree_lookup` and `__radix_tree_replace` with the node and the slot it has found; an
index beyond the largest one leaves both unset. -/
def lookupReplace (t : Tree) (i : BitVec 64) (item : Option Item) : Except Fault Tree := do
  let (_, out) ← rawRadixTreeLookup t i
  match out with
  | none => .error .uninitialized
  | some (node, slot) => rawRadixTreeReplace t node slot (answer item)

/-- A call of a program that also replaces entries. -/
inductive Update where
  | call (c : Call)
  | replace (i : BitVec 64) (item : Option Item)
deriving DecidableEq

/-- One call. -/
def Update.step (t : Tree) : Update → Except Fault (Tree × Reply)
  | .call c => c.step t
  | .replace i item => do
    let t ← lookupReplace t i item
    return (t, .code 0)

/-- The finite map after a call on a tree that stands for `f`. -/
def Update.effect (f : BitVec 64 → Option Item) : Update → Reply → BitVec 64 → Option Item
  | .call c, r => c.effect f r
  | .replace i item, _ => Function.update f i item

/-- A careful call that spares items, or the replacement of a present entry by an item that is not
tagged as a node or by `NULL`. -/
def Update.careful (t : Tree) : Update → Bool
  | .call c => c.careful t && c.sparing t
  | .replace i item => isPresent t i && item.all (fun x ↦ !x.tagged)

/-- A sequence of calls. -/
def runUpdates : Tree → List Update → Except Fault (Tree × List Reply)
  | t, [] => .ok (t, [])
  | t, u :: us => do
    let (t, r) ← u.step t
    let (t, rs) ← runUpdates t us
    return (t, r :: rs)

/-- The finite map after a sequence of calls with their answers. -/
def replayUpdates (f : BitVec 64 → Option Item) (us : List Update) (rs : List Reply) :
    BitVec 64 → Option Item :=
  (us.zip rs).foldl (fun f ur ↦ ur.1.effect f ur.2) f

/-- Every call is careful when it is made. -/
def AlongUpdates : Tree → List Update → Bool
  | _, [] => true
  | t, u :: us => u.careful t && match u.step t with
    | .ok (t, _) => AlongUpdates t us
    | .error _ => true

/-! ### The store into a leaf -/

section Leaf

variable {t : Tree} {p : Nat} {nd : Node} {o : Fin 64} {x y : Item}

theorem add_ofInt_zero (c : BitVec 32) : c + BitVec.ofInt 32 0 = c := BitVec.add_zero c

/-- A leaf with another item in a slot: one is taken out, one put in. -/
def Node.put (nd : Node) (o : Fin 64) (y : Item) : Node :=
  (nd.clear o (if xaIsValue (nd.slots o) then -1 else 0)).fill o y

theorem Node.put_count (nd : Node) (o : Fin 64) (y : Item) : (nd.put o y).count = nd.count :=
  BitVec.sub_add_cancel _ _

theorem Node.put_slots (nd : Node) (o : Fin 64) (y : Item) :
    (nd.put o y).slots = Function.update nd.slots o (.item y) :=
  Function.update_idem _ _ _

theorem clear_slots_self (nd : Node) (o : Fin 64) (values : Int) :
    (nd.clear o values).slots o = .null := Function.update_self _ _ _

/-- The count of value entries follows a replacement. -/
theorem Node.put_values (nd : Node) (o : Fin 64) (y : Item) :
    (nd.put o y).nr_values = nd.nr_values + BitVec.ofInt 32
      ((if xaIsValue (.item y) then 1 else 0) - (if xaIsValue (nd.slots o) then 1 else 0)) := by
  show (if xaIsValue (.item y) then
      nd.nr_values + BitVec.ofInt 32 (if xaIsValue (nd.slots o) then -1 else 0) + 1
    else nd.nr_values + BitVec.ofInt 32 (if xaIsValue (nd.slots o) then -1 else 0)) = _
  cases xaIsValue (.item y) <;> cases xaIsValue (nd.slots o)
  · rfl
  · rfl
  · show nd.nr_values + 0#32 + 1 = nd.nr_values + 1
    rw [BitVec.add_zero]
  · show nd.nr_values + BitVec.ofInt 32 (-1) + 1 = nd.nr_values + 0#32
    rw [add_ofInt_neg_one, BitVec.sub_add_cancel, BitVec.add_zero]

theorem Node.OK.put (h : nd.OK) (hz : nd.shift = 0) (hx : nd.slots o = .item x) (y : Item) :
    (nd.put o y).OK :=
  (h.clear hz (by rw [hx]; simp) _).fill hz (clear_slots_self nd o _) y

/-- A replacement of the item in a leaf counts what a deletion and an insertion count. -/
theorem rawRadixTreeReplace_leaf_eq (hp : t.node p = some nd) (hx : nd.slots o = .item x)
    (y : Item) : rawRadixTreeReplace t (some p) (.node p o) (.item y)
      = (deleteNode LEVELS (t.setNode p (some (nd.put o y))) p false).map Prod.fst := by
  generalize hv : ((if xaIsValue (.item y) then 1 else 0) -
    (if xaIsValue (nd.slots o) then 1 else 0) : Int) = values
  have hput : nd.put o y = { nd with
      nr_values := nd.nr_values + BitVec.ofInt 32 values
      slots := Function.update nd.slots o (.item y) } := by
    rw [← hv, ← Node.put_values, ← Node.put_slots]
    conv_rhs => rw [← Node.put_count nd o y]
    rfl
  have hstore : replaceSlot t (.node p o) (.item y) (some p) 0 values
      = .ok (t.setNode p (some (nd.put o y))) := by
    rw [replaceSlot]
    by_cases h0 : values = 0
    · simp only [h0, ne_eq, not_true_eq_false, or_self, if_false, pure, Except.pure, Fault.ok_bind,
        Tree.store_eq hp]
      rw [hput, h0, add_ofInt_zero]
    · simp only [ne_eq, h0, not_true_eq_false, not_false_eq_true, or_true, if_true,
        Tree.modify_eq hp, Fault.ok_bind, Tree.store_eq (Tree.setNode_self _ _ _),
        Tree.setNode_setNode, add_ofInt_zero]
      rw [hput]
  have hcount : calculateCount (.item y) (nd.slots o) = 0 := by
    rw [calculateCount, hx]
    rfl
  rw [rawRadixTreeReplace, Tree.load_eq hp, Fault.ok_bind]
  simp only [hcount, hv, hstore, Fault.ok_bind]
  cases deleteNode LEVELS (t.setNode p (some (nd.put o y))) p false <;> rfl

end Leaf

/-! ### One replacement -/

section Replace

variable {t : Tree} {f : BitVec 64 → Option Item} {i : BitVec 64}

/-- A lookup's slot holds its entry. -/
theorem Found.load_eq {e : Entry} {node : Option Nat} {slot : Slot}
    (hf : Found t i e (some (node, slot))) : t.load slot = .ok e := by
  cases hf with
  | root hr hi => rfl
  | node hp hend => exact Tree.load_eq hp.1 _

/-- A replacement by `NULL` does what a deletion does. -/
theorem rawRadixTreeReplace_null {node : Option Nat} {slot : Slot} {old : Entry}
    (hold : t.load slot = .ok old) (hne : old ≠ .null) :
    rawRadixTreeReplace t node slot .null = (rawRadixTreeDelete t node slot).map Prod.fst := by
  have hcount : calculateCount .null old = -1 := by
    rw [calculateCount, if_pos rfl, if_neg hne]
    rfl
  have hvalues : ((if xaIsValue .null then 1 else 0) - (if xaIsValue old then 1 else 0) : Int)
      = if xaIsValue old then -1 else 0 := by
    rw [if_neg (show ¬ xaIsValue .null = true from Bool.false_ne_true)]
    split <;> rfl
  rw [rawRadixTreeReplace, rawRadixTreeDelete, hold, Fault.ok_bind, Fault.ok_bind]
  simp only [hcount, hvalues]
  cases replaceSlot t slot .null node (-1) (if xaIsValue old then -1 else 0) with
  | error e => rfl
  | ok t₁ =>
    cases node with
    | none => rfl
    | some p =>
      simp only [Fault.ok_bind]
      cases deleteNode LEVELS t₁ p false <;> rfl

/-- A present index is found in a slot. -/
theorem Stands.found (h : Stands t f) {x : Item} (hx : f i = some x) :
    ∃ node slot, rawRadixTreeLookup t i = .ok (.item x, some (node, slot)) ∧
      Found t i (.item x) (some (node, slot)) := by
  obtain ⟨e, out, hrun, hf⟩ := rawRadixTreeLookup_spec h.wf i
  obtain rfl : e = .item x := (hf.entry_iff h.wf x).mpr ((h.holds i x).mpr hx)
  cases out with
  | none =>
    generalize he : Entry.item x = e at hf
    cases hf
    cases he
  | some out => exact ⟨out.1, out.2, hrun, hf⟩

/-- A replacement of a present entry by `NULL`. -/
theorem Stands.replace_null (h : Stands t f) {x : Item} (hx : f i = some x) :
    ∃ t', lookupReplace t i none = .ok t' ∧ Stands t' (Function.update f i none) ∧
      (ValuesCounted t → ValuesCounted t') := by
  obtain ⟨node, slot, hlook, hf⟩ := h.found hx
  have hne : Entry.item x ≠ .null := by simp
  obtain ⟨t', d, hdel, hd⟩ := rawRadixTreeDelete_found h.wf hf (.inl hne)
  have hst := h.of_deleted hd
  rw [if_neg hne] at hst
  refine ⟨t', ?_, hst, (rawRadixTreeDelete_nodes h.wf hf (.inl hne) hdel).valuesCounted h.wf⟩
  rw [lookupReplace, hlook, Fault.ok_bind]
  simp only [answer_none]
  rw [rawRadixTreeReplace_null hf.load_eq hne, hdel]
  rfl

/-- The counts of a leaf with another item in a slot. -/
theorem put_valuesCounted {p : Nat} {nd : Node} {o : Fin 64} (hv : ValuesCounted t)
    (hp : t.node p = some nd) (y : Item) :
    ValuesCounted (t.setNode p (some (nd.put o y))) := by
  have hclear := clear_valuesCounted (o := o) hv hp
  have hmid := hclear p _ (Tree.setNode_self _ _ _)
  intro q nq hq
  rw [Tree.setNode_node] at hq
  split at hq
  · cases hq
    rw [Node.put, fill_values (clear_slots_self nd o _), BitVec.ofNat_add, ← hmid, Node.fill]
    simp only []
    split <;> simp
  · exact hv q nq hq

/-- Another item in the root pointer. -/
theorem Stands.storeRoot (h : Stands t f) (hr : ∀ r, t.rnode ≠ .node r) {y : Item}
    (hy : y.tagged = false) :
    Stands { t with rnode := .item y } (Function.update f 0 (some y)) := by
  obtain ⟨hwf, -⟩ := storeRoot_spec h.wf hr hy
  have hraw : ∀ r, ({ t with rnode := .item y } : Tree).rnode ≠ .node r := fun r ↦ by simp
  refine ⟨hwf, fun j z ↦ ?_⟩
  rw [hwf.holds_of_raw hraw, Function.update_apply]
  by_cases hj : j = 0
  · rw [if_pos hj, and_iff_left hj, Entry.item.injEq, Option.some.injEq]
  · rw [if_neg hj, ← h.holds, h.wf.holds_of_raw hr]
    exact iff_of_false (fun hz ↦ hj hz.2) (fun hz ↦ hj hz.2)

/-- Another item in a slot of a leaf. -/
theorem Stands.storeLeaf (h : Stands t f) {p : Nat} {nd nd' : Node} (hp : On t i p nd)
    (hz : nd.shift = 0) (hok : nd'.OK) (hs : nd'.shift = nd.shift)
    (hpar : nd'.parent = nd.parent) (hoff : nd'.offset = nd.offset) {y : Item}
    (hslots : nd'.slots = Function.update nd.slots (slotOffset i 0) (.item y)) :
    Stands (t.setNode p (some nd')) (Function.update f i (some y)) := by
  refine ⟨h.wf.setLeaf hp.1 hz hok hs hpar hoff, fun j z ↦ ?_⟩
  rw [setLeaf_holds h.wf hp hz hs hpar hoff hok hslots, h.holds, Function.update_apply]
  by_cases hj : j = i
  · rw [if_pos hj, if_pos hj, Entry.item.injEq, Option.some.injEq]
  · rw [if_neg hj, if_neg hj]

/-- A replacement of a present entry by an item. -/
theorem Stands.replace_item (h : Stands t f) {x y : Item} (hx : f i = some x)
    (hy : y.tagged = false) :
    ∃ t', lookupReplace t i (some y) = .ok t' ∧ Stands t' (Function.update f i (some y)) ∧
      (ValuesCounted t → ValuesCounted t') := by
  obtain ⟨node, slot, hlook, hf⟩ := h.found hx
  have hrun : lookupReplace t i (some y) = rawRadixTreeReplace t node slot (.item y) := by
    rw [lookupReplace, hlook, Fault.ok_bind]
    rfl
  rw [hrun]
  generalize he : Entry.item x = e at hf
  cases hf with
  | root hr hi =>
    subst hi
    exact ⟨{ t with rnode := .item y }, rfl, h.storeRoot hr hy, id⟩
  | @node p nd hp hend =>
    have hz : nd.shift = 0 := hend.resolve_right (by rw [← he]; simp)
    rw [hz] at he ⊢
    have hs : (nd.put (slotOffset i 0) y).shift = nd.shift := rfl
    have hst := h.storeLeaf hp hz ((h.wf.ok hp.1).put hz he.symm y) hs rfl rfl
      (Node.put_slots nd _ y)
    obtain ⟨t', d, hdel, hk, -⟩ := deleteNode_spec hst.wf (Tree.setNode_self _ _ _)
      (show 60 < nd.shift + 6 * LEVELS by unfold LEVELS; omega) false
    refine ⟨t', ?_, hst.of_kept hk, fun hv ↦ ?_⟩
    · rw [rawRadixTreeReplace_leaf_eq hp.1 he.symm, hdel]
      rfl
    · exact (deleteNode_withers hst.wf (Tree.setNode_self _ _ _) hdel).valuesCounted hst.wf
        (put_valuesCounted hv hp.1 y)

end Replace

/-! ### Programs -/

/-- A careful call keeps tree, map and counts together. -/
theorem Stands.update_step {t : Tree} {f : BitVec 64 → Option Item} (h : Stands t f)
    (hv : ValuesCounted t) {u : Update} (hu : u.careful t = true) :
    ∃ t' r, u.step t = .ok (t', r) ∧ Stands t' (u.effect f r) ∧ ValuesCounted t' := by
  cases u with
  | call c =>
    rw [Update.careful, Bool.and_eq_true] at hu
    obtain ⟨t', r, hrun, hst⟩ := h.step hu.1
    exact ⟨t', r, hrun, hst, step_valuesCounted h hu.1 hu.2 hv hrun⟩
  | replace i item =>
    rw [Update.careful, Bool.and_eq_true, h.isPresent_eq, Option.isSome_iff_exists] at hu
    obtain ⟨⟨x, hx⟩, htag⟩ := hu
    have hone : ∃ t', lookupReplace t i item = .ok t' ∧ Stands t' (Function.update f i item) ∧
        (ValuesCounted t → ValuesCounted t') := by
      cases item with
      | none => exact h.replace_null hx
      | some y => exact h.replace_item hx (by simpa using htag)
    obtain ⟨t', hrun, hst, hval⟩ := hone
    refine ⟨t', .code 0, ?_, hst, hval hv⟩
    rw [Update.step, hrun]
    rfl

/-- Induction on the program. -/
theorem Stands.run_updates {t : Tree} {f : BitVec 64 → Option Item} {us : List Update}
    (h : Stands t f) (hv : ValuesCounted t) (hus : AlongUpdates t us = true) :
    ∃ t' rs, runUpdates t us = .ok (t', rs) ∧ Stands t' (replayUpdates f us rs) ∧
      ValuesCounted t' := by
  induction us generalizing t f with
  | nil => exact ⟨t, [], rfl, h, hv⟩
  | cons u us ih =>
    rw [AlongUpdates, Bool.and_eq_true] at hus
    obtain ⟨t₁, r, hrun, h₁, hv₁⟩ := h.update_step hv hus.1
    rw [hrun] at hus
    obtain ⟨t', rs, hrun', h'⟩ := ih h₁ hv₁ hus.2
    refine ⟨t', r :: rs, ?_, h'⟩
    rw [runUpdates, hrun, Fault.ok_bind]
    simp only [hrun', Fault.ok_bind]
    rfl

/-- **Replacement.** Any program of insertions, careful deletions and replacements of present
entries, by items or by `NULL`, completes; the tree then answers as the updated map does, and every
node counts its occupied slots and its value entries. -/
theorem runUpdates_map {oom : Nat → Bool} {t₀ : Tree} {us : List Update}
    (h0 : radixTreeRootAlloc oom = some t₀) (h1 : oom 1 = false)
    (hcare : AlongUpdates t₀ us = true) :
    ∃ t rs, runUpdates t₀ us = .ok (t, rs) ∧
      (∀ i, radixTreeLookup t i = .ok (answer (replayUpdates (fun _ ↦ none) us rs i))) ∧
      ∀ p nd, t.node p = some nd → nd.Counted := by
  obtain rfl := rootAlloc_eq h0 h1
  obtain ⟨t, rs, hrun, hst, hv⟩ :=
    (stands_emptyTree oom).1.run_updates (neat_emptyTree oom).values hcare
  exact ⟨t, rs, hrun, hst.lookup_eq, fun p nd hp ↦ hst.wf.counted hv hp⟩

/-- `runUpdates_map` of a program that replaces an item by a value entry, that one by an item, and
that by `NULL`, which takes the leaf away. -/
theorem runUpdates_map_twice :
    ∃ t rs, runUpdates (emptyTree (fun _ ↦ false))
        [.call (.insert 5 ⟨8, by decide⟩), .call (.insert 70 ⟨16, by decide⟩),
          .replace 70 (some ⟨3, by decide⟩), .replace 70 (some ⟨24, by decide⟩),
          .replace 70 none] = .ok (t, rs) ∧
      (∀ i, radixTreeLookup t i = .ok (answer (replayUpdates (fun _ ↦ none)
        [.call (.insert 5 ⟨8, by decide⟩), .call (.insert 70 ⟨16, by decide⟩),
          .replace 70 (some ⟨3, by decide⟩), .replace 70 (some ⟨24, by decide⟩),
          .replace 70 none] rs i))) ∧
      ∀ p nd, t.node p = some nd → nd.Counted :=
  runUpdates_map (show radixTreeRootAlloc (fun _ ↦ false) = some (emptyTree _) from rfl) rfl
    (by decide +kernel)

end Jeopardy.RadixTree
