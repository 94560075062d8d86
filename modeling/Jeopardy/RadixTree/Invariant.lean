import Jeopardy.RadixTree.Program

/-!
# Representation invariant, minimum height, and stores into items

With enough memory, and deletions of present indices only, no node but the leftmost leaf is
empty, and the root is no higher than the largest index needs. The one way a store reaches an
item is a tree that has been emptied, has taken an item into its root pointer, and then grows.
-/

namespace Jeopardy.RadixTree

/-- An insertion of an item that is not tagged as a node, or a deletion of a present index. -/
def Call.tidy (t : Tree) : Call → Bool
  | .insert _ x => !x.tagged
  | .delete i => isPresent t i
  | .deleteItem _ _ => false

/-! ### The invariant -/

/-- The representation invariant as `tree_verify_min_height`, `radix_tree/test.c:275–292`, and the
fields of the nodes mean it. -/
structure Representation (t : Tree) : Prop extends Nested t where
  /-- The node is the leaf on the way of index 0. -/
  empty : ∀ p nd, t.node p = some nd → nd.count = 0 → nd.shift = 0 ∧ On t 0 p nd
  height : ∀ r nr, t.rnode = .node r → t.node r = some nr → nr.shift ≠ 0 →
    ∃ i x, radixTreeLookup t i = .ok (.item x) ∧ shiftMaxindex (nr.shift - 6) < i

section Block

variable {t : Tree}

/-- The index of a slot of a leaf. -/
theorem exists_index (h : WF t) {p b : Nat} {nd : Node} (hp : t.node p = some nd)
    (hz : nd.shift = 0) (hb : Covers t p b) (o : Fin 64) :
    ∃ i, On t i p nd ∧ slotOffset i 0 = o ∧ i.toNat / 2 ^ 6 = b := by
  have hlt := h.block_lt hp hb
  rw [hz] at hlt
  have ho := o.isLt
  have hval : (BitVec.ofNat 64 (64 * b + o)).toNat = 64 * b + o := by
    rw [BitVec.toNat_ofNat, Nat.mod_eq_of_lt (by omega)]
  have hblock : (BitVec.ofNat 64 (64 * b + o)).toNat / 2 ^ 6 = b := by
    rw [hval]
    omega
  refine ⟨BitVec.ofNat 64 (64 * b + o), ⟨hp, by rw [hz, Nat.zero_add, hblock]; exact hb⟩, ?_,
    hblock⟩
  apply Fin.ext
  rw [slotOffset_val, Radix.digit, hval]
  omega

/-- A node off the leftmost way has an item under it. -/
theorem exists_holds (h : WF t) (hl : Slim t) {p b : Nat} {nd : Node} (hp : t.node p = some nd)
    (hb : Covers t p b) (hb0 : b ≠ 0) :
    ∃ i x, Holds t i x ∧ i.toNat / 2 ^ (nd.shift + 6) = b := by
  induction hn : nd.shift using Nat.strong_induction_on generalizing p b nd with
  | _ n ih =>
    have hu : nd.used ≠ 0 := by
      intro hu
      exact hb0 (hb.block_unique (hl p nd hp hu).2)
    obtain ⟨o, ho⟩ := Slots.exists_occupied hu
    by_cases hz : nd.shift = 0
    · obtain ⟨i, hon, hoff, hblock⟩ := exists_index h hp hz hb o
      cases hx : nd.slots o with
      | null => exact absurd hx ho
      | node q => exact absurd hx (h.leaf hp hz)
      | item x =>
        refine ⟨i, x, (h.holds_of_leaf hon hz x).mpr (by rw [hoff, hx]), ?_⟩
        rw [← hn, hz]
        exact hblock
    · obtain ⟨q, nc, -, hq, hs, hpar, hoff⟩ := h.child hp hz ho
      have hcov := Covers.child hq hpar hb
      obtain ⟨i, x, hx, hblock⟩ := ih nc.shift (by omega) hq hcov (by omega) rfl
      refine ⟨i, x, hx, ?_⟩
      rw [hs] at hblock
      have hlt := nc.offset.isLt
      have hsplit := div_eq_offset i nd.shift
      have hlt' := (slotOffset i nd.shift).isLt
      rw [← hn]
      omega

theorem WF.representation {f : BitVec 64 → Option Item} (h : Stands t f) (hl : Slim t)
    (ht : Tall t) : Representation t where
  toNested := h.wf.nested
  empty p nd hp hc := by
    obtain ⟨hz, hb⟩ := hl p nd hp ((h.wf.count_eq_zero_iff hp).mp hc)
    refine ⟨hz, hp, ?_⟩
    rw [show (0 : BitVec 64).toNat = 0 from rfl, Nat.zero_div]
    exact hb
  height r nr hr hnr hs := by
    obtain ⟨o, ho, hslot⟩ := ht r nr hr hnr hs
    obtain ⟨q, nc, -, hq, hsc, hpar, hoff⟩ := h.wf.child hnr hs hslot
    have ho' : o.val ≠ 0 := fun h0 ↦ ho (Fin.ext h0)
    have hcov := Covers.child hq hpar (h.wf.root_covers hr)
    rw [hoff] at hcov
    obtain ⟨i, x, hx, hblock⟩ := exists_holds h.wf hl hq hcov (by omega)
    refine ⟨i, x, by rw [h.lookup_eq, (h.holds i x).mp hx]; rfl, ?_⟩
    rw [shiftMaxindex_lt_iff, show nr.shift - 6 + 6 = nc.shift + 6 by omega]
    by_contra hlt
    rw [Nat.div_eq_of_lt (by omega)] at hblock
    omega

end Block

/-- The items whose object a call writes to. -/
def Call.spill (t : Tree) : Call → List Item
  | .insert i _ => RadixTree.spill t i
  | _ => []

/-- One tidy call. -/
theorem Stands.step_tidy {t : Tree} {f : BitVec 64 → Option Item} (h : Stands t f) {c : Call}
    (hc : c.tidy t = true) : ∃ t' r, c.step t = .ok (t', r) ∧ Stands t' (c.effect f r) ∧
      t'.oom = t.oom ∧ ((∀ n, t.oom n = false) → Slim t → Tall t → Slim t' ∧ Tall t') ∧
      t'.itemStores = c.spill t ++ t.itemStores := by
  cases c with
  | insert i x =>
    have hx : x.tagged = false := by simpa [Call.tidy] using hc
    obtain ⟨t', e, hrun, hi⟩ := radixTreeInsert_spec h.wf i (.inl hx)
    have hst := h.of_inserted hi
    refine ⟨t', .code e, by rw [Call.step, hrun]; rfl, hst, ?_⟩
    cases hi with
    | enomem hk hs hr hnone hoom =>
      refine ⟨hk.oom, fun hmem ↦ ?_, hs⟩
      have hfailed := hoom.2
      rw [hmem] at hfailed
      cases hfailed
    | @present y hy =>
      refine ⟨rfl, fun _ hl ht ↦ ⟨hl, ht⟩, ?_⟩
      -- a present index needs no growth
      have hspill : spill t i = [] := by
        rcases hy with ⟨hroot, rfl⟩ | ⟨p, np, hp, -, -⟩
        · rw [spill, hroot]
          exact if_pos (.inl rfl)
        · obtain ⟨r, nr, hr, -⟩ := h.wf.root_above hp.2 hp.1
          exact spill_of_node hr i
      show t.itemStores = spill t i ++ t.itemStores
      rw [hspill, List.nil_append]
    | stored hwf hoom hnext hs hr hnone hholds hslim htall =>
      exact ⟨hoom, fun _ hl ht ↦ ⟨hslim hl, htall ht⟩, hs⟩
  | delete i =>
    have hsafe : DeleteSafe t i := h.deleteSafe ((Bool.or_eq_true _ _).mpr (.inl hc))
    obtain ⟨t', hrun, hd, hst⟩ := h.deleteItem i none (.inr hsafe)
    rw [if_neg (by simp)] at hst
    refine ⟨t', .entry (deleteAnswer (f i) none), ?_, hst, hd.oom,
      fun _ hl ht ↦ ⟨hd.slim hl, hd.tall hl ht⟩, hd.stores⟩
    rw [Call.step, radixTreeDelete, hrun]
    rfl
  | deleteItem i item => exact absurd hc Bool.false_ne_true

/-- A tidy program. -/
theorem Stands.run_tidy {t : Tree} {f : BitVec 64 → Option Item} (h : Stands t f)
    {calls : List Call} (htidy : Along Call.tidy t calls = true) :
    ∃ t' rs, run t calls = .ok (t', rs) ∧ Stands t' (replay f calls rs) :=
  run_total (P := Call.tidy) (I := Stands)
    (fun _ _ _ h hc ↦ by
      obtain ⟨t', r, hrun, hst, -⟩ := h.step_tidy hc
      exact ⟨t', r, hrun, hst⟩) h htidy

/-- **Representation.** Every program of insertions and of deletions of present indices, with
enough memory, completes in a tree that meets the representation invariant and is no higher than
its largest index needs. -/
theorem representation_run {t₀ : Tree} {calls : List Call}
    (h0 : radixTreeRootAlloc (fun _ ↦ false) = some t₀)
    (htidy : Along Call.tidy t₀ calls = true) :
    ∃ t rs, run t₀ calls = .ok (t, rs) ∧ Representation t := by
  obtain rfl := rootAlloc_eq h0 rfl
  obtain ⟨hst, hl, ht⟩ := stands_emptyTree (fun _ ↦ false)
  obtain ⟨t, rs, hrun, hst', hl', ht', -⟩ := run_total (P := Call.tidy)
    (I := fun t f ↦ Stands t f ∧ Slim t ∧ Tall t ∧ ∀ n, t.oom n = false)
    (fun t f c h hc ↦ by
      obtain ⟨t', r, hrun, hst', hoom, hshape, -⟩ := h.1.step_tidy hc
      obtain ⟨hl', ht'⟩ := hshape h.2.2.2 h.2.1 h.2.2.1
      exact ⟨t', r, hrun, hst', hl', ht', fun n ↦ by rw [hoom, h.2.2.2]⟩)
    ⟨hst, hl, ht, fun _ ↦ rfl⟩ htidy
  exact ⟨t, rs, hrun, WF.representation hst' hl' ht'⟩

/-- `representation_run` of a tree that grows by two levels and shrinks by one. -/
theorem representation_run_shrunk :
    ∃ t rs, run (emptyTree (fun _ ↦ false)) [.insert 70 ⟨4, by decide⟩,
        .insert 5000 ⟨8, by decide⟩, .delete 5000] = .ok (t, rs) ∧ Representation t :=
  representation_run (show radixTreeRootAlloc (fun _ ↦ false) = some (emptyTree _) from rfl)
    (by decide +kernel)

/-! ### Stores into items -/

/-- An insertion finds no raw item at the root, or is at index 0, or gets no memory for the node
it would put over the item. -/
def Call.sparing (t : Tree) : Call → Bool
  | .insert i _ => match t.rnode with
    | .item _ => i == 0 || t.oom t.next
    | _ => true
  | _ => true

theorem Call.spill_eq_nil (t : Tree) (c : Call) : c.spill t = [] ↔ c.sparing t = true := by
  cases c with
  | insert i x =>
    rw [Call.spill, RadixTree.spill, Call.sparing]
    cases t.rnode with
    | null => simp
    | node r => simp
    | item y =>
      rw [Bool.or_eq_true, beq_iff_eq]
      change (if i = 0 ∨ t.oom t.next = true then [] else [y]) = [] ↔ _
      by_cases hor : i = 0 ∨ t.oom t.next = true
      · exact iff_of_true (if_pos hor) hor
      · rw [if_neg hor]
        exact iff_of_false (List.cons_ne_nil y []) hor
  | delete i => simp [Call.spill, Call.sparing]
  | deleteItem i item => simp [Call.spill, Call.sparing]

/-- Induction on the program: the record of stores only grows. -/
theorem itemStores_of_run {t : Tree} {f : BitVec 64 → Option Item} (h : Stands t f)
    {calls : List Call} (htidy : Along Call.tidy t calls = true) :
    ∃ t' rs, run t calls = .ok (t', rs) ∧ Stands t' (replay f calls rs) ∧
      (t'.itemStores = [] ↔ t.itemStores = [] ∧ Along Call.sparing t calls = true) := by
  induction calls generalizing t f with
  | nil => exact ⟨t, [], rfl, h, by simp [Along]⟩
  | cons c calls ih =>
    rw [Along, Bool.and_eq_true] at htidy
    obtain ⟨t₁, r, hrun, hst, -, -, hstores⟩ := h.step_tidy htidy.1
    rw [hrun] at htidy
    obtain ⟨t', rs, hrun', hst', hiff⟩ := ih hst htidy.2
    refine ⟨t', r :: rs, ?_, hst', ?_⟩
    · rw [run, hrun, Fault.ok_bind]
      simp only [hrun', Fault.ok_bind]
      rfl
    · rw [hiff, hstores, List.append_eq_nil_iff, Call.spill_eq_nil, Along, hrun, Bool.and_eq_true]
      constructor
      · rintro ⟨⟨hc, hs⟩, hrest⟩
        exact ⟨hs, hc, hrest⟩
      · rintro ⟨hs, hc, hrest⟩
        exact ⟨⟨hc, hs⟩, hrest⟩

/-- **Stores into items.** A program of insertions and of deletions of present indices never
stores into an item, in any state it passes, exactly if none of its insertions has to grow the
tree over a raw item at the root. -/
theorem itemStores_run {oom : Nat → Bool} {t₀ : Tree} {calls : List Call}
    (h0 : radixTreeRootAlloc oom = some t₀) (h1 : oom 1 = false)
    (htidy : Along Call.tidy t₀ calls = true) :
    ∃ t rs, run t₀ calls = .ok (t, rs) ∧
      (t.itemStores = [] ↔ Along Call.sparing t₀ calls = true) := by
  obtain rfl := rootAlloc_eq h0 h1
  obtain ⟨t, rs, hrun, -, hiff⟩ := itemStores_of_run (stands_emptyTree oom).1 htidy
  exact ⟨t, rs, hrun, hiff.trans (and_iff_right rfl)⟩

/-- `itemStores_run` of a program that deletes one of two items. -/
theorem itemStores_run_kept_root :
    ∃ t rs, run (emptyTree (fun _ ↦ false)) [.insert 0 ⟨4, by decide⟩,
        .insert 70 ⟨8, by decide⟩, .delete 0] = .ok (t, rs) ∧
      (t.itemStores = [] ↔ Along Call.sparing (emptyTree (fun _ ↦ false))
        [.insert 0 ⟨4, by decide⟩, .insert 70 ⟨8, by decide⟩, .delete 0] = true) :=
  itemStores_run (show radixTreeRootAlloc (fun _ ↦ false) = some (emptyTree _) from rfl) rfl
    (by decide +kernel)

/-- A tree that has been emptied takes an item into its root pointer, and the next insertion
writes into it. -/
theorem itemStores_after_emptied :
    ∃ t rs, run (emptyTree (fun _ ↦ false)) [.insert 0 ⟨4, by decide⟩, .delete 0,
        .insert 0 ⟨8, by decide⟩, .insert 5 ⟨12, by decide⟩] = .ok (t, rs) ∧
      Along Call.tidy (emptyTree (fun _ ↦ false)) [.insert 0 ⟨4, by decide⟩, .delete 0,
        .insert 0 ⟨8, by decide⟩, .insert 5 ⟨12, by decide⟩] = true ∧
      t.itemStores = [⟨8, by decide⟩] :=
  ⟨_, _, rfl, by decide +kernel, rfl⟩

end Jeopardy.RadixTree
