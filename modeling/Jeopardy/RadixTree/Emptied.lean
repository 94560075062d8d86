import Jeopardy.RadixTree.KillTree
import Jeopardy.RadixTree.Leaves

/-!
# Emptied trees

`radix_tree_root_alloc` makes a tree with an empty leaf. That leaf stays until an index below 64 is
inserted, and from then on no leaf is empty again. So what a program has inserted decides what is
left of the tree when everything has been deleted, and what the assertion that closes
`item_kill_tree` finds.
-/

namespace Jeopardy.RadixTree

/-- Some leaf is empty. -/
def Idle (t : Tree) : Prop := ∃ p, t.leaf p = some fun _ ↦ .null

/-- An insertion in the range of the first leaf. -/
def Call.low : Call → Bool
  | .insert i _ => decide (i.toNat < 64)
  | .delete _ | .deleteItem _ _ => false

section Idle

variable {t t' : Tree} {f : BitVec 64 → Option Item} {i : BitVec 64} {x : Item}

theorem Idle.root (hi : Idle t) (h : WF t) : ∃ r, t.rnode = .node r := by
  obtain ⟨p, hp⟩ := hi
  obtain ⟨nd, hnd, -⟩ := exists_of_leaf hp
  by_contra hr
  rw [not_exists] at hr
  rw [h.node_eq_none hr] at hnd
  cases hnd

/-- The empty leaf is the first one. -/
theorem Slim.covers (hl : Slim t) {p : Nat} (hp : t.leaf p = some fun _ ↦ .null) :
    ∃ nd, t.node p = some nd ∧ nd.shift = 0 ∧ nd.slots = (fun _ ↦ .null) ∧ Covers t p 0 := by
  obtain ⟨nd, hnd, hz, hslots⟩ := exists_of_leaf hp
  have hu : nd.used = 0 := by
    rw [Node.used, hslots]
    exact Slots.occupied_const _
  exact ⟨nd, hnd, hz, hslots, (hl p nd hnd hu).2⟩

/-- A present index below 64 is in the first leaf. -/
theorem Stands.not_idle (h : Stands t f) (hl : Slim t) (hi : i.toNat < 64) (hf : f i = some x) :
    ¬ Idle t := by
  rintro ⟨p, hp⟩
  obtain ⟨nd, hnd, hz, hslots, hc⟩ := hl.covers hp
  have hon : On t i p nd := by
    refine ⟨hnd, ?_⟩
    rw [hz, Nat.zero_add, Nat.div_eq_of_lt (show i.toNat < 2 ^ 6 from hi)]
    exact hc
  have hx := (h.wf.holds_of_leaf hon hz x).mp ((h.holds i x).mpr hf)
  rw [hslots] at hx
  cases hx

/-- An insertion changes no leaf but that of its index. -/
theorem radixTreeInsert_leaf (h : WF t) {r : Nat} {e : Int} (hr : t.rnode = .node r)
    (hrun : radixTreeInsert t i x = .ok (t', e)) :
    (∀ y, t'.leaf y = t.leaf y ∨ ∃ ny, On t' i y ny ∧ ny.shift = 0) ∧
      ∀ y, Covers t y 0 → 64 ≤ i.toNat → t.leaf y ≠ none → t'.leaf y = t.leaf y := by
  obtain ⟨⟨t₁, out⟩, hc, hrun⟩ := Fault.bind_eq_ok.mp hrun
  have hg := rawRadixTreeCreate_grows h hr hc
  have hleaf := rawRadixTreeCreate_leaf h hr hc
  -- what holds of the tree that has only grown
  have hgrown : (∀ y, t₁.leaf y = t.leaf y ∨ ∃ ny, On t₁ i y ny ∧ ny.shift = 0) ∧
      ∀ y, Covers t y 0 → 64 ≤ i.toNat → t.leaf y ≠ none → t₁.leaf y = t.leaf y :=
    ⟨fun y ↦ (hleaf y).imp_right And.right, fun y _ _ hy ↦
      (hleaf y).resolve_right fun hn ↦ hy hn.1⟩
  obtain ⟨t₂, out₂, hc₂, hcreated⟩ := rawRadixTreeCreate_spec h i
  rw [hc, Except.ok.injEq, Prod.mk.injEq] at hc₂
  obtain ⟨rfl, rfl⟩ := hc₂
  cases hcreated with
  | enomem hk hs hr' hnone hoom =>
    simp only [pure, Except.pure, Except.ok.injEq, Prod.mk.injEq] at hrun
    rw [← hrun.1]
    exact hgrown
  | root hnode hi => exact absurd hr (hnode r)
  | @leaf _ q r' nq hk hs hr' hq hz hsame hbare htall =>
    by_cases ho : nq.slots (slotOffset i 0) = .null
    · simp only [insertEntries_leaf hq.1 ho, Fault.ok_bind, pure, Except.pure] at hrun
      rw [if_neg (by decide), Except.ok.injEq, Prod.mk.injEq] at hrun
      rw [← hrun.1]
      have hother : ∀ y, y ≠ q →
          (t₁.setNode q (some (nq.fill (slotOffset i 0) x))).leaf y = t₁.leaf y := by
        intro y hy
        apply leaf_congr
        exact Tree.setNode_of_ne hy _
      have hstay := leaf_stays hq.1 (show (nq.fill (slotOffset i 0) x).shift = nq.shift from rfl)
        rfl rfl
      constructor
      · intro y
        by_cases hy : y = q
        · subst hy
          exact .inr ⟨_, ⟨Tree.setNode_self _ _ _, hq.2.stays hstay⟩, hz⟩
        · rw [hother y hy]
          refine (hgrown.1 y).imp_right ?_
          rintro ⟨ny, hny, hzy⟩
          exact ⟨ny, ⟨(Tree.setNode_of_ne hy _).trans hny.1, hny.2.stays hstay⟩, hzy⟩
      · intro y hcy hi hy
        have hyq : y ≠ q := by
          rintro rfl
          have hblock := (hg.covers h hcy).block_unique hq.2
          rw [hz] at hblock
          omega
        rw [hother y hyq, hgrown.2 y hcy hi hy]
    · simp only [insertEntries, Tree.load_eq hq.1, Fault.ok_bind, if_pos ho, pure,
        Except.pure] at hrun
      rw [if_pos (by decide), Except.ok.injEq, Prod.mk.injEq] at hrun
      rw [← hrun.1]
      exact hgrown

/-- On a tree with a root node the leaf of the index is not empty afterwards. -/
theorem idle_of_insert (h : WF t) {r : Nat} {e : Int} (hr : t.rnode = .node r)
    (hrun : radixTreeInsert t i x = .ok (t', e)) (hwf : WF t') (hx : Holds t' i x)
    (hi : Idle t') : Idle t := by
  obtain ⟨p, hp⟩ := hi
  rcases (radixTreeInsert_leaf h hr hrun).1 p with heq | ⟨np, hon, hz⟩
  · exact ⟨p, heq ▸ hp⟩
  · rw [leaf_eq hon.1 hz, Option.some.injEq] at hp
    have hslot := (hwf.holds_of_leaf hon hz x).mp hx
    rw [hp] at hslot
    cases hslot

/-- An insertion uses the empty leaf, if its index is below 64. -/
theorem Stands.idle_insert (h : Stands t f) (hl : Slim t) (hmem : ∀ n, t.oom n = false)
    (hx : x.tagged = false) {e : Int} (hrun : radixTreeInsert t i x = .ok (t', e)) :
    Idle t' ↔ Idle t ∧ 64 ≤ i.toNat := by
  obtain ⟨t₂, e₂, hrun₂, hins⟩ := radixTreeInsert_spec h.wf i (.inl hx)
  rw [hrun, Except.ok.injEq, Prod.mk.injEq] at hrun₂
  obtain ⟨rfl, rfl⟩ := hrun₂
  have hst := h.of_inserted hins
  cases hins with
  | enomem hk hs hr hnone hoom =>
    have hfailed := hoom.2
    rw [hmem] at hfailed
    cases hfailed
  | @present y hy =>
    refine ⟨fun hi ↦ ⟨hi, ?_⟩, And.left⟩
    by_contra hlt
    exact h.not_idle hl (not_le.mp hlt) ((h.holds i y).mp hy) hi
  | stored hwf hoom hnext hs hr hnone hholds hslim htall =>
    have hold : Holds t' i x := (hholds i x).mpr (by rw [if_pos rfl])
    constructor
    · intro hi
      have hge : 64 ≤ i.toNat := by
        by_contra hlt
        exact hst.not_idle (hslim hl) (not_le.mp hlt) ((hst.holds i x).mp hold) hi
      refine ⟨?_, hge⟩
      cases hroot : t.rnode with
      | node r => exact idle_of_insert h.wf hroot hrun hwf hold hi
      | item y =>
        -- the item at the root is at index 0
        have hzero : Holds t' 0 y := by
          rw [hholds, if_neg (by rintro rfl; exact absurd hge (by decide))]
          exact .inl ⟨hroot, rfl⟩
        exact absurd hi (hst.not_idle (hslim hl) (by decide) ((hst.holds 0 y).mp hzero))
      | null =>
        obtain ⟨m, hm, hdvd, hlt, heq⟩ := radixTreeInsert_sole h.wf hroot
          (show i ≠ 0 by rintro rfl; exact absurd hge (by decide)) (hmem t.next) x
        have hp : Planted t (t.sole (emptyNode m 0 none)) := .sole hroot hm hdvd (hmem _)
        rw [heq] at hrun
        obtain ⟨p, hp'⟩ := idle_of_insert (hp.wf h.wf) rfl hrun hwf hold hi
        obtain ⟨nd, hnd, hz, -⟩ := exists_of_leaf hp'
        have hnone := h.wf.node_eq_none (fun r hr' ↦ by rw [hroot] at hr'; cases hr')
        obtain ⟨-, rfl⟩ := sole_eq_some hnone hnd
        obtain rfl : m = 0 := hz
        omega
    · rintro ⟨⟨p, hp⟩, hge⟩
      obtain ⟨r, hroot⟩ := Idle.root ⟨p, hp⟩ h.wf
      obtain ⟨nd, -, -, -, hc⟩ := hl.covers hp
      have hkeep := (radixTreeInsert_leaf h.wf hroot hrun).2 p hc hge (by rw [hp]; simp)
      exact ⟨p, hkeep.trans hp⟩

/-- A deletion takes a leaf that becomes empty away. -/
theorem NodesAfterDelete.idle_iff (hd : NodesAfterDelete t t') (h : WF t) :
    Idle t' ↔ Idle t := by
  cases hd with
  | same hnode =>
    have hsame : t'.leaf = t.leaf := funext fun y ↦ leaf_congr (by rw [hnode])
    rw [Idle, hsame, Idle]
  | @clears p nd o x d hp hz hx hrun =>
    generalize (if xaIsValue (nd.slots o) then (-1 : Int) else 0) = values at hrun
    have hwf := h.clearLeaf hp hz hx values
    have hleaf := deleteNode_leaf hwf (Tree.setNode_self _ _ _) hrun
    have hne : t.leaf p ≠ some fun _ ↦ .null := by
      rw [leaf_eq hp hz]
      intro hnull
      rw [Option.some.inj hnull] at hx
      cases hx
    have hother : ∀ y, y ≠ p → t'.leaf y = t.leaf y := by
      intro y hy
      have hcleared : (t.setNode p (some (nd.clear o values))).leaf y = t.leaf y :=
        leaf_congr (Tree.setNode_of_ne hy _)
      rw [hleaf]
      split
      · rw [Function.update_of_ne hy, hcleared]
      · exact hcleared
    have hself : t'.leaf p ≠ some fun _ ↦ .null := by
      rw [hleaf]
      split
      · rw [Function.update_self]
        exact fun hnull ↦ by cases hnull
      · next hu =>
        rw [leaf_eq (Tree.setNode_self _ _ _) (show (nd.clear o values).shift = 0 from hz)]
        intro hnull
        apply hu
        rw [Node.used, Option.some.inj hnull]
        exact Slots.occupied_const _
    constructor
    · rintro ⟨y, hy⟩
      have hyp : y ≠ p := fun hyp ↦ hself (hyp ▸ hy)
      exact ⟨y, (hother y hyp).symm.trans hy⟩
    · rintro ⟨y, hy⟩
      have hyp : y ≠ p := fun hyp ↦ hne (hyp ▸ hy)
      exact ⟨y, (hother y hyp).trans hy⟩

end Idle

/-! ### Programs -/

section Programs

variable {t t' : Tree} {f : BitVec 64 → Option Item}

/-- One tidy call with enough memory. -/
theorem Stands.step_idle (h : Stands t f) (hl : Slim t) (hmem : ∀ n, t.oom n = false) {c : Call}
    (hc : c.tidy t = true) {r : Reply} (hrun : c.step t = .ok (t', r)) :
    Idle t' ↔ Idle t ∧ c.low = false := by
  cases c with
  | insert i x =>
    obtain ⟨⟨t₁, e⟩, hins, hret⟩ := Fault.bind_eq_ok.mp hrun
    cases hret
    have hx : x.tagged = false := by simpa [Call.tidy] using hc
    rw [h.idle_insert hl hmem hx hins, Call.low, decide_eq_false_iff_not, not_lt]
  | delete i =>
    obtain ⟨⟨t₁, e⟩, hdel, hret⟩ := Fault.bind_eq_ok.mp hrun
    cases hret
    have hsafe : DeleteSafe t i := h.deleteSafe ((Bool.or_eq_true _ _).mpr (.inl hc))
    rw [(radixTreeDeleteItem_nodes h.wf (.inr hsafe) hdel).idle_iff h.wf]
    exact (and_iff_left rfl).symm
  | deleteItem i item => exact absurd hc Bool.false_ne_true

/-- Tidy calls with enough memory. -/
theorem Stands.run_idle (h : Stands t f) (hl : Slim t) (ht : Tall t) (hmem : ∀ n, t.oom n = false)
    {calls : List Call} (htidy : Along Call.tidy t calls = true) {rs : List Reply}
    (hrun : run t calls = .ok (t', rs)) :
    (∃ f', Stands t' f') ∧ Slim t' ∧ (Idle t' ↔ Idle t ∧ calls.any Call.low = false) := by
  induction calls generalizing t f rs with
  | nil =>
    cases hrun
    exact ⟨⟨f, h⟩, hl, (and_iff_left rfl).symm⟩
  | cons c calls ih =>
    rw [Along, Bool.and_eq_true] at htidy
    obtain ⟨t₁, r, hstep, hst, hoom, hshape, -⟩ := h.step_tidy htidy.1
    have hidle := h.step_idle hl hmem htidy.1 hstep
    obtain ⟨hl₁, ht₁⟩ := hshape hmem hl ht
    rw [run, hstep, Fault.ok_bind] at hrun
    obtain ⟨⟨t₂, rs'⟩, hrest, hret⟩ := Fault.bind_eq_ok.mp hrun
    cases hret
    rw [hstep] at htidy
    obtain ⟨hex, hl₂, hidle₂⟩ := ih hst hl₁ ht₁ (fun n ↦ by rw [hoom, hmem]) htidy.2 hrest
    refine ⟨hex, hl₂, ?_⟩
    rw [hidle₂, hidle, List.any_cons, Bool.or_eq_false_iff, and_assoc]

/-- Without an empty node every node leads to an item. -/
theorem exists_holds_below (h : WF t) (hbusy : ∀ p nd, t.node p = some nd → nd.used ≠ 0) {p : Nat}
    {nd : Node} (hp : t.node p = some nd) : ∃ i x, Holds t i x := by
  induction hn : nd.shift using Nat.strong_induction_on generalizing p nd with
  | _ n ih =>
    obtain ⟨o, ho⟩ := Slots.exists_occupied (hbusy p nd hp)
    by_cases hz : nd.shift = 0
    · obtain ⟨b, hb⟩ := h.exists_covers hp
      obtain ⟨i, hon, hoff, -⟩ := exists_index h hp hz hb o
      cases hx : nd.slots o with
      | null => exact absurd hx ho
      | node q => exact absurd hx (h.leaf hp hz)
      | item x => exact ⟨i, x, (h.holds_of_leaf hon hz x).mpr (by rw [hoff, hx])⟩
    · obtain ⟨q, nc, -, hq, hs, -⟩ := h.child hp hz ho
      exact ih nc.shift (by omega) hq rfl

/-- An emptied tree has no node, unless its first leaf has never been used. -/
theorem Stands.root_iff_idle (h : Stands t f) (hl : Slim t) (hempty : ∀ i, f i = none) :
    (∃ r, t.rnode = .node r) ↔ Idle t := by
  refine ⟨?_, fun hi ↦ hi.root h.wf⟩
  rintro ⟨r, hr⟩
  by_contra hidle
  have hbusy : ∀ p nd, t.node p = some nd → nd.used ≠ 0 := by
    intro p nd hp hu
    refine hidle ⟨p, ?_⟩
    rw [leaf_eq hp (hl p nd hp hu).1]
    congr 1
    ext1 o
    exact Slots.occupied_eq_zero_iff.mp hu o
  obtain ⟨nr, hnr, -⟩ := h.wf.root hr
  obtain ⟨i, x, hx⟩ := exists_holds_below h.wf hbusy hnr
  rw [h.holds, hempty] at hx
  cases hx

end Programs

/-- **Emptied trees.** After any program of insertions and deletions of present indices, with enough
memory, that leaves nothing behind, `item_kill_tree` visits nothing, and its assertion holds exactly
if the program has inserted at an index below 64. -/
theorem emptied_run {t₀ t : Tree} {calls : List Call} {rs : List Reply}
    (h0 : radixTreeRootAlloc (fun _ ↦ false) = some t₀)
    (htidy : Along Call.tidy t₀ calls = true) (hrun : run t₀ calls = .ok (t, rs))
    (hempty : ∀ i, radixTreeLookup t i = .ok .null) {fuel : Nat} (hfuel : 2 ^ 64 < fuel) :
    ∃ t', itemKillTree t fuel = .ok (t', [], calls.any Call.low) := by
  obtain rfl := rootAlloc_eq h0 rfl
  obtain ⟨hst, hl, ht⟩ := stands_emptyTree (fun _ ↦ false)
  have hstart : Idle (emptyTree fun _ ↦ false) := ⟨1, rfl⟩
  obtain ⟨⟨f, hst'⟩, hl', hidle⟩ := hst.run_idle hl ht (fun _ ↦ rfl) htidy hrun
  rw [and_iff_right hstart] at hidle
  have hf : ∀ i, f i = none := by
    intro i
    have hlook := hempty i
    rw [hst'.lookup_eq, Except.ok.injEq] at hlook
    exact answer_eq_null.mp hlook
  have hvisits : ∀ visits : List (BitVec 64 × Entry),
      (∀ i e, (i, e) ∈ visits ↔ e ≠ .null ∧ radixTreeLookup t i = .ok e) → visits = [] := by
    intro visits hmem
    rw [List.eq_nil_iff_forall_not_mem]
    rintro ⟨i, e⟩ hie
    obtain ⟨hne, hlook⟩ := (hmem i e).mp hie
    rw [hempty, Except.ok.injEq] at hlook
    exact hne hlook.symm
  cases hlow : calls.any Call.low with
  | false =>
    obtain ⟨r, hr⟩ := (hidle.mpr hlow).root hst'.wf
    obtain ⟨t', visits, hkill, -, -, hmem, -⟩ := itemKillTree_node hst' hr hfuel
      (fun i x hx ↦ by rw [hf] at hx; cases hx)
    rw [hvisits visits hmem] at hkill
    exact ⟨t', hkill⟩
  | true =>
    have hnode : ∀ r, t.rnode ≠ .node r := by
      intro r hr
      have hfalse := hidle.mp ((hst'.root_iff_idle hl' hf).mp ⟨r, hr⟩)
      rw [hlow] at hfalse
      cases hfalse
    have hnull : t.rnode = .null := by
      cases hr : t.rnode with
      | null => rfl
      | node r => exact absurd hr (hnode r)
      | item x =>
        have hx := (hst'.holds 0 x).mp (.inl ⟨hr, rfl⟩)
        rw [hf] at hx
        cases hx
    obtain ⟨t', visits, hkill, -, hmem, -⟩ := killLaw_null hst'.wf hnull hfuel
    rw [hvisits visits hmem] at hkill
    exact ⟨t', hkill⟩

/-- `emptied_run` of a tree that keeps its first leaf. -/
theorem emptied_run_high : ∃ t rs t', run (emptyTree (fun _ ↦ false)) [.insert 70 ⟨4, by decide⟩,
    .delete 70] = .ok (t, rs) ∧ itemKillTree t (2 ^ 64 + 1) = .ok (t', [], false) := by
  have htidy : Along Call.tidy (emptyTree (fun _ ↦ false))
      [.insert 70 ⟨4, by decide⟩, .delete 70] = true := by decide +kernel
  obtain ⟨t, rs, hrun, hst⟩ := (stands_emptyTree (fun _ ↦ false)).1.run_tidy htidy
  have hreplies : (run (emptyTree (fun _ ↦ false)) [.insert 70 ⟨4, by decide⟩, .delete 70]).map
      Prod.snd = .ok [.code 0, .entry (.item ⟨4, by decide⟩)] := by decide +kernel
  have hempty : ∀ i, radixTreeLookup t i = .ok .null := by
    intro i
    rw [hrun] at hreplies
    obtain rfl := Except.ok.inj hreplies
    have hnone : replay (fun _ ↦ none) [.insert 70 ⟨4, by decide⟩, .delete 70]
        [.code 0, .entry (.item ⟨4, by decide⟩)] = fun _ ↦ none := by
      exact (Function.update_idem _ _ _).trans (Stands.update_none_of_eq rfl)
    rw [hst.lookup_eq, hnone]
    rfl
  obtain ⟨t', hkill⟩ := emptied_run
    (show radixTreeRootAlloc (fun _ ↦ false) = some (emptyTree _) from rfl) htidy hrun hempty
    (show 2 ^ 64 < 2 ^ 64 + 1 from Nat.lt_succ_self _)
  exact ⟨t, rs, t', hrun, hkill⟩

end Jeopardy.RadixTree
