import Jeopardy.RadixTree.Invariant

/-!
# Trees that calls lead to

Insertions of any items and deletions of present indices leave a tree in good order, or they leave
an item tagged as a node in the root pointer. So does `radix_tree_root_alloc` when its own node
gets no memory. Every call on such a tree takes the item for a node.
-/

namespace Jeopardy.RadixTree

/-- Any insertion, or a deletion of a present index. -/
def Call.ordinary (t : Tree) : Call → Bool
  | .insert _ _ => true
  | .delete i => isPresent t i
  | .deleteItem _ _ => false

/-- The tree is in good order, or stuck on an item tagged as a node. -/
inductive Standing (t : Tree) : Prop where
  | good {f : BitVec 64 → Option Item} (h : Stands t f)
  | stuck {x : Item} (hr : t.rnode = .item x) (hx : x.tagged = true)

theorem Along.mono {P Q : Tree → Call → Bool} (hPQ : ∀ t c, P t c = true → Q t c = true)
    {t : Tree} {calls : List Call} (h : Along P t calls = true) : Along Q t calls = true := by
  induction calls generalizing t with
  | nil => rfl
  | cons c calls ih =>
    rw [Along, Bool.and_eq_true] at h ⊢
    refine ⟨hPQ t c h.1, ?_⟩
    cases hstep : c.step t with
    | error e => rfl
    | ok out =>
      rw [hstep] at h
      exact ih h.2

section Stuck

variable {t : Tree} {x : Item}

theorem radixTreeLoadRoot_stuck (hr : t.rnode = .item x) (hx : x.tagged = true) :
    radixTreeLoadRoot t = .error .badPointer := by
  rw [radixTreeLoadRoot, hr, if_pos (show (Entry.item x).isInternalNode = true from hx)]
  rfl

/-- No call on a stuck tree completes. -/
theorem step_stuck (hr : t.rnode = .item x) (hx : x.tagged = true) (c : Call) :
    c.step t = .error .badPointer := by
  have hload := radixTreeLoadRoot_stuck hr hx
  cases c with
  | insert i y =>
    rw [Call.step, radixTreeInsert, rawRadixTreeCreate, hload]
    rfl
  | delete i =>
    rw [Call.step, radixTreeDelete, radixTreeDeleteItem, rawRadixTreeLookup, hload]
    rfl
  | deleteItem i item =>
    rw [Call.step, radixTreeDeleteItem, rawRadixTreeLookup, hload]
    rfl

/-- So no program that completes has made one. -/
theorem run_stuck (hr : t.rnode = .item x) (hx : x.tagged = true) {t' : Tree} {calls : List Call}
    {rs : List Reply} (hrun : run t calls = .ok (t', rs)) : t' = t := by
  cases calls with
  | nil =>
    cases hrun
    rfl
  | cons c calls =>
    rw [run, step_stuck hr hx] at hrun
    cases hrun

end Stuck

namespace Standing

/-- A call that completes. -/
theorem step {t t' : Tree} {c : Call} {r : Reply} (h : Standing t) (hc : c.ordinary t = true)
    (hrun : c.step t = .ok (t', r)) : Standing t' := by
  cases h with
  | stuck hr hx =>
    rw [step_stuck hr hx] at hrun
    cases hrun
  | good h =>
    cases c with
    | insert i y =>
      obtain ⟨t₁, e, hins, hcase⟩ := radixTreeInsert_cases h.wf i y
      rw [Call.step, hins, Fault.ok_bind] at hrun
      cases hrun
      rcases hcase with hi | ⟨hnull, rfl, rfl, rfl⟩
      · exact .good (h.of_inserted hi)
      · by_cases hy : y.tagged = true
        · exact .stuck rfl hy
        · obtain ⟨t₂, e₂, hins₂, hi₂⟩ :=
            radixTreeInsert_spec h.wf 0 (.inl (eq_false_of_ne_true hy))
          rw [hins, Except.ok.injEq, Prod.mk.injEq] at hins₂
          rw [← hins₂.1, ← hins₂.2] at hi₂
          exact .good (h.of_inserted hi₂)
    | delete i =>
      obtain ⟨t₂, r', hstep, hst, -⟩ := h.step_tidy (c := .delete i) hc
      rw [hstep] at hrun
      cases hrun
      exact .good hst
    | deleteItem i item => cases hc

/-- Induction on the program. -/
theorem run {t t' : Tree} {calls : List Call} {rs : List Reply} (h : Standing t)
    (hc : Along Call.ordinary t calls = true) (hrun : RadixTree.run t calls = .ok (t', rs)) :
    Standing t' := by
  induction calls generalizing t rs with
  | nil =>
    cases hrun
    exact h
  | cons c calls ih =>
    rw [Along, Bool.and_eq_true] at hc
    rw [RadixTree.run] at hrun
    obtain ⟨⟨t₁, r⟩, hstep, hrest⟩ := Fault.bind_eq_ok.mp hrun
    obtain ⟨⟨t₂, rs'⟩, hrun', hret⟩ := Fault.bind_eq_ok.mp hrest
    cases hret
    rw [hstep] at hc
    exact ih (h.step hc.1 hstep) hc.2 hrun'

end Standing

/-- `radix_tree_root_alloc` without its own node. -/
theorem rootAlloc_stuck {oom : Nat → Bool} {t : Tree} (h0 : radixTreeRootAlloc oom = some t)
    (h1 : oom 1 = true) : ∃ x, t.rnode = .item x ∧ x.tagged = true := by
  rw [radixTreeRootAlloc, radixTreeNodeAlloc, if_pos h1] at h0
  simp only at h0
  split at h0
  · cases h0
  · cases h0
    exact ⟨⟨2, by decide⟩, rfl, by decide⟩

/-- A tree from `radix_tree_root_alloc`. -/
theorem standing_rootAlloc {oom : Nat → Bool} {t : Tree} (h0 : radixTreeRootAlloc oom = some t) :
    Standing t := by
  by_cases h1 : oom 1 = true
  · obtain ⟨x, hr, hx⟩ := rootAlloc_stuck h0 h1
    exact .stuck hr hx
  · obtain rfl := rootAlloc_eq h0 (eq_false_of_ne_true h1)
    exact .good (stands_emptyTree oom).1

end Jeopardy.RadixTree
