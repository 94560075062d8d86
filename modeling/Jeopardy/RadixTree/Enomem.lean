import Jeopardy.RadixTree.Growth

/-!
# Insertions that run out of memory

A call of `radix_tree_insert` gives up at the first allocation that fails and leaves what it has
linked in by then. That may be roots and empty nodes, but the tree they are part of holds what it
held before, in good order, and takes the insertion when there is memory again.
-/

namespace Jeopardy.RadixTree

/-- The counts and the links of the nodes are what the slots say. -/
structure Consistent (t : Tree) : Prop extends Nested t where
  parent : ∀ p nd q, t.node p = some nd → nd.parent = some q →
    ∃ nq, t.node q = some nq ∧ nd.shift + 6 = nq.shift ∧ nq.slots nd.offset = .node p
  root : ∀ p nd, t.node p = some nd → (nd.parent = none ↔ t.rnode = .node p)

theorem WF.consistent {t : Tree} (h : WF t) : Consistent t where
  toNested := h.nested
  parent p nd q hp := h.parent hp
  root p nd hp := by
    refine ⟨h.orphan hp, fun hr ↦ ?_⟩
    obtain ⟨nd', hp', hpar, -⟩ := h.root hr
    rw [hp, Option.some.injEq] at hp'
    exact hp' ▸ hpar

/-- The tree when no allocation fails any more. -/
def Tree.replenish (t : Tree) : Tree := { t with oom := fun _ ↦ false }

/-- The call that led from `t` to `t'` has done no harm: every lookup answers as before, the nodes
are in good order, and the same insertion, with memory, answers and leaves behind what it would
have from `t`. -/
structure Harmless (t t' : Tree) (i : BitVec 64) (x : Item) : Prop where
  lookup : ∀ j, ∃ e, radixTreeLookup t j = .ok e ∧ radixTreeLookup t' j = .ok e
  consistent : Consistent t'
  again : ∃ t₁ t₂ e, radixTreeInsert t.replenish i x = .ok (t₁, e) ∧
    radixTreeInsert t'.replenish i x = .ok (t₂, e) ∧ e ≠ -ENOMEM ∧ Consistent t₂ ∧
    ∀ j, ∃ y, radixTreeLookup t₁ j = .ok y ∧ radixTreeLookup t₂ j = .ok y

section Replenish

variable {t : Tree}

theorem Covers.replenish {p b : Nat} (h : Covers t p b) : Covers t.replenish p b :=
  h.stays (fun _ ↦ .of_eq rfl)

theorem WF.replenish (h : WF t) : WF t.replenish :=
  ⟨h.fresh, h.ok, h.child, h.parent, h.orphan, h.root, h.raw⟩

theorem replenish_holds (h : WF t) (i : BitVec 64) (x : Item) :
    Holds t.replenish i x ↔ Holds t i x := by
  apply holds_congr h
  · exact fun _ ↦ Iff.rfl
  · exact fun _ hb ↦ hb.replenish
  · exact fun _ _ _ ↦ Iff.rfl

theorem Stands.replenish {f : BitVec 64 → Option Item} (h : Stands t f) :
    Stands t.replenish f :=
  ⟨h.wf.replenish, fun i x ↦ (replenish_holds h.wf i x).trans (h.holds i x)⟩

/-- With memory an insertion into a tree with a root node follows the map. -/
theorem Stands.filling {f : BitVec 64 → Option Item} (h : Stands t f) {r : Nat}
    (hr : t.rnode = .node r) : Filling t.replenish f :=
  ⟨h.replenish, ⟨r, hr⟩, fun _ ↦ rfl⟩

end Replenish

/-- Two trees that hold the same take the same insertion alike, with memory. -/
theorem Stands.insert_alike {t t' : Tree} {f : BitVec 64 → Option Item} (h : Stands t f)
    (h' : Stands t' f) {r r' : Nat} (hr : t.rnode = .node r) (hr' : t'.rnode = .node r')
    (i : BitVec 64) (x : Item) : ∃ t₁ t₂ e g, radixTreeInsert t.replenish i x = .ok (t₁, e) ∧
      radixTreeInsert t'.replenish i x = .ok (t₂, e) ∧ e ≠ -ENOMEM ∧ Stands t₁ g ∧
      Stands t₂ g := by
  rcases (h.filling hr).insert i x with ⟨hn, t₁, hrun, h₁⟩ | ⟨hs, hrun⟩
  · rcases (h'.filling hr').insert i x with ⟨-, t₂, hrun', h₂⟩ | ⟨hs, -⟩
    · exact ⟨t₁, t₂, 0, _, hrun, hrun', by decide, h₁.stands, h₂.stands⟩
    · rw [hn] at hs
      cases hs
  · rcases (h'.filling hr').insert i x with ⟨hn, -⟩ | ⟨-, hrun'⟩
    · rw [hn] at hs
      cases hs
    · exact ⟨_, _, _, f, hrun, hrun', by decide, h.replenish, h'.replenish⟩

/-- One insertion into a tree with a root node. -/
theorem Stands.insert_harmless {t : Tree} {f : BitVec 64 → Option Item} (h : Stands t f) {r : Nat}
    (hr : t.rnode = .node r) (i : BitVec 64) (x : Item) :
    ∃ t' e, radixTreeInsert t i x = .ok (t', e) ∧
      ((∃ n, t.next ≤ n ∧ n < t'.next ∧ t.oom n = true) → e = -ENOMEM ∧ Harmless t t' i x) := by
  obtain ⟨t', e, hrun, hins⟩ := radixTreeInsert_spec h.wf i (x := x) (.inr ⟨r, hr⟩)
  refine ⟨t', e, hrun, ?_⟩
  rintro ⟨n, hn, hlt, hoom⟩
  have hfail {t₁ : Tree} (hg : Grows t t₁ false) (he : t'.next = t₁.next) : False := by
    rw [hg.oom_of_lt hn (he ▸ hlt) rfl] at hoom
    cases hoom
  have he : e = -ENOMEM := by
    cases radixTreeInsert_grows h.wf hr hrun with
    | enomem _ => rfl
    | present hg => exact (hfail hg rfl).elim
    | stored hg _ _ _ => exact (hfail hg rfl).elim
  refine ⟨he, ?_⟩
  cases hins with
  | enomem hk hs hroot hnone hoom' =>
    obtain ⟨r', hr'⟩ := hroot r hr
    have h' := h.of_kept hk
    obtain ⟨t₁, t₂, e, g, hrun₁, hrun₂, hne, h₁, h₂⟩ := h.insert_alike h' hr hr' i x
    exact ⟨fun j ↦ ⟨_, h.lookup_eq j, h'.lookup_eq j⟩, hk.wf.consistent,
      t₁, t₂, e, hrun₁, hrun₂, hne, h₂.wf.consistent,
      fun j ↦ ⟨_, h₁.lookup_eq j, h₂.lookup_eq j⟩⟩
  | present hy => exact absurd he (by decide)
  | stored hwf hoom' hnext hs hroot hnone hholds hslim htall => exact absurd he (by decide)

/-- The calls of a program that only inserts. -/
def insertions (inserts : List (BitVec 64 × Item)) : List Call :=
  inserts.map (fun p ↦ .insert p.1 p.2)

/-- Insertions, whether memory suffices or not, keep a root node. -/
theorem Stands.run_insertions {t : Tree} {f : BitVec 64 → Option Item} (h : Stands t f)
    (hr : ∃ r, t.rnode = .node r) (inserts : List (BitVec 64 × Item)) :
    ∃ t' rs g, run t (insertions inserts) = .ok (t', rs) ∧ Stands t' g ∧
      ∃ r, t'.rnode = .node r := by
  induction inserts generalizing t f with
  | nil => exact ⟨t, [], f, rfl, h, hr⟩
  | cons p inserts ih =>
    obtain ⟨i, x⟩ := p
    obtain ⟨t₁, e, hrun, hins⟩ := radixTreeInsert_spec h.wf i (x := x) (.inr hr)
    have hr₁ : ∃ r, t₁.rnode = .node r := by
      obtain ⟨r, hr⟩ := hr
      cases hins with
      | enomem _ _ hroot _ _ => exact hroot r hr
      | present _ => exact ⟨r, hr⟩
      | stored _ _ _ _ hroot _ _ _ _ => exact hroot r hr
    obtain ⟨t', rs, g, hrun', h', hr'⟩ := ih (h.of_inserted hins) hr₁
    refine ⟨t', .code e :: rs, g, ?_, h', hr'⟩
    rw [insertions, List.map_cons, run, Call.step, hrun, Fault.ok_bind]
    simp only [pure, Except.pure, Fault.ok_bind]
    rw [← insertions, hrun', Fault.ok_bind]

/-- A root whose own node got no memory: every insertion reads through `NULL` at once. -/
theorem rootAlloc_without_node {oom : Nat → Bool} {t : Tree}
    (h0 : radixTreeRootAlloc oom = some t) (h1 : oom 1 = true) (i : BitVec 64) (x : Item) :
    radixTreeInsert t i x = .error .badPointer := by
  have halloc : radixTreeNodeAlloc ⟨fun _ ↦ none, 1, oom, .null, []⟩ none 0 0 0 0
      = (⟨fun _ ↦ none, 2, oom, .null, []⟩, none) := by
    rw [radixTreeNodeAlloc, if_pos h1]
  rw [radixTreeRootAlloc] at h0
  simp only [halloc] at h0
  split at h0
  · cases h0
  · obtain rfl := Option.some.inj h0
    rfl

/-- **Running out of memory.** After any insertions into a new tree, failed ones among them, an
insertion completes, and if one of its allocations fails it answers `-ENOMEM` and does no harm.
The other case is a root whose own node was not allocated: there the insertion does not come to an
allocation. -/
theorem insert_enomem {oom : Nat → Bool} {t₀ t : Tree} {inserts : List (BitVec 64 × Item)}
    {rs : List Reply} (h0 : radixTreeRootAlloc oom = some t₀)
    (hrun : run t₀ (insertions inserts) = .ok (t, rs)) (i : BitVec 64) (x : Item) :
    (oom 1 = true ∧ t = t₀ ∧ radixTreeInsert t i x = .error .badPointer) ∨
      ∃ t' e, radixTreeInsert t i x = .ok (t', e) ∧
        ((∃ n, t.next ≤ n ∧ n < t'.next ∧ t.oom n = true) →
          e = -ENOMEM ∧ Harmless t t' i x) := by
  by_cases h1 : oom 1 = true
  · left
    cases inserts with
    | nil =>
      obtain ⟨rfl, -⟩ := Prod.mk.inj (Except.ok.inj hrun)
      exact ⟨h1, rfl, rootAlloc_without_node h0 h1 i x⟩
    | cons p inserts =>
      rw [insertions, List.map_cons, run, Call.step, rootAlloc_without_node h0 h1] at hrun
      cases hrun
  · right
    obtain rfl := rootAlloc_eq h0 (Bool.not_eq_true _ ▸ h1)
    obtain ⟨t', rs', g, hrun', hst, r, hr⟩ :=
      (stands_emptyTree oom).1.run_insertions ⟨1, rfl⟩ inserts
    rw [hrun, Except.ok.injEq, Prod.mk.injEq] at hrun'
    obtain ⟨rfl, rfl⟩ := hrun'
    exact hst.insert_harmless hr i x

/-- `insert_enomem` of an insertion that stacks one root and gets no memory for the second. -/
theorem insert_enomem_second_root :
    ∃ t', radixTreeInsert (emptyTree (fun n ↦ n == 3)) 5000 ⟨4, by decide⟩ = .ok (t', -ENOMEM) ∧
      t'.next = 4 ∧ Harmless (emptyTree (fun n ↦ n == 3)) t' 5000 ⟨4, by decide⟩ := by
  rcases insert_enomem (show radixTreeRootAlloc (fun n ↦ n == 3) = some (emptyTree _) from rfl)
    (show run _ (insertions []) = .ok (_, []) from rfl) 5000 ⟨4, by decide⟩ with
    ⟨h1, -, -⟩ | ⟨t', e, hrun, himp⟩
  · cases h1
  · have hnext : (radixTreeInsert (emptyTree (fun n ↦ n == 3)) 5000 ⟨4, by decide⟩).map
        (fun r ↦ r.1.next) = .ok 4 := rfl
    rw [hrun] at hnext
    have h4 : t'.next = 4 := Except.ok.inj hnext
    obtain ⟨rfl, hharm⟩ := himp ⟨3, by decide, by omega, rfl⟩
    exact ⟨t', hrun, h4, hharm⟩

end Jeopardy.RadixTree
