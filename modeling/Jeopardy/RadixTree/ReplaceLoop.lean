import Jeopardy.RadixTree.Replace

/-!
# Replacing entries in a loop

A loop `radix_tree_for_each_slot` whose body replaces entries by `radix_tree_replace_slot`. An item
for an item leaves the tree in good order at every visit, though without a node at hand the
replacement counts nothing; the loop goes on as if nothing had happened.
-/

namespace Jeopardy.RadixTree

/-- The body of a loop that replaces the item at each index, by `radix_tree_replace_slot`. -/
def replaceWith (g : BitVec 64 → Item → Item) (t : Tree) (slot : Slot) (iter : Iter) :
    Except Fault (Tree × Option Slot × Iter) := do
  match ← t.load slot with
  | .item x =>
    let t ← radixTreeReplaceSlot t slot (.item (g iter.index x))
    return (t, some slot, iter)
  | _ => return (t, some slot, iter)

/-- The map with the items from `a` on, but below `b`, replaced. -/
def replacedBelow (g : BitVec 64 → Item → Item) (f : BitVec 64 → Option Item) (a b : Nat)
    (i : BitVec 64) : Option Item :=
  if a ≤ i.toNat ∧ i.toNat < b then (f i).map (g i) else f i

section Loop

variable {t s : Tree} {f : BitVec 64 → Option Item} {g : BitVec 64 → Item → Item}
  {iter : Iter} {slot : Slot} {a b start : Nat}

/-- A leaf with another item in a slot, uncounted. -/
def Node.swap (nd : Node) (o : Fin 64) (y : Item) : Node :=
  { nd with slots := Function.update nd.slots o (.item y) }

theorem Node.OK.swap {nd : Node} (h : nd.OK) (hz : nd.shift = 0) {o : Fin 64} {x : Item}
    (hx : nd.slots o = .item x) (y : Item) : (nd.swap o y).OK where
  shift_le := h.shift_le
  shift_dvd := h.shift_dvd
  count_eq := by
    have hput := (h.put hz hx y).count_eq
    rw [Node.put_count, Node.used, Node.put_slots] at hput
    exact hput
  leaf _ := by
    have hput := (h.put hz hx y).leaf hz
    rw [Node.put_slots] at hput
    exact hput
  top h60 := absurd (show nd.shift = 60 from h60) (by omega)

/-- The iterator stays where it is when its item is replaced. -/
theorem At.replace (h : Stands s f) (hat : At s iter slot) {y : Item} (hy : y.tagged = false) :
    ∃ s', radixTreeReplaceSlot s slot (.item y) = .ok s' ∧
      Stands s' (Function.update f iter.index (some y)) ∧ At s' iter slot := by
  cases hat with
  | root hr =>
    exact ⟨_, radixTreeReplaceSlot_root s _,
      h.storeRoot (fun r hr' ↦ by rw [hr] at hr'; cases hr') hy, .root rfl⟩
  | @leaf q nq i next x hq hz hx hn =>
    have hs : (nq.swap (slotOffset i 0) y).shift = nq.shift := rfl
    have hstay := leaf_stays hq.1 hs rfl rfl
    have hq' : On (s.setNode q (some (nq.swap (slotOffset i 0) y))) i q
        (nq.swap (slotOffset i 0) y) :=
      ⟨Tree.setNode_self _ _ _, by rw [hs]; exact hq.2.stays hstay⟩
    exact ⟨_, radixTreeReplaceSlot_node hq.1 _ _,
      h.storeLeaf hq hz ((h.wf.ok hq.1).swap hz hx y) hs rfl rfl rfl,
      .leaf hq' hz (Function.update_self _ _ _) hn⟩

theorem replacedBelow_self (g : BitVec 64 → Item → Item) (f : BitVec 64 → Option Item) (a : Nat) :
    replacedBelow g f a a = f := by
  funext i
  exact if_neg (fun hi ↦ Nat.not_lt.mpr hi.1 hi.2)

theorem replacedBelow_of_le {i : BitVec 64} (hi : b ≤ i.toNat) :
    replacedBelow g f a b i = f i := if_neg (fun hc ↦ Nat.not_lt.mpr hi hc.2)

/-- A replacement leaves the same indices present. -/
theorem replacedBelow_isSome (i : BitVec 64) :
    (replacedBelow g f a b i).isSome = (f i).isSome := by
  rw [replacedBelow]
  split
  · exact Option.isSome_map
  · rfl

/-- The tree the loop works on is vacant where the tree it was is. -/
theorem Vacant.of_replaced (ht : Stands t f) (hs : Stands s (replacedBelow g f start b)) {a c : Nat}
    (hv : Vacant s a c) : Vacant t a c := by
  intro j x hx ha
  have hsome : (replacedBelow g f start b j).isSome := by
    rw [replacedBelow_isSome, (ht.holds j x).mp hx]
    rfl
  obtain ⟨y, hy⟩ := Option.isSome_iff_exists.mp hsome
  exact hv j y ((hs.holds j y).mpr hy) ha

/-- Over vacant indices nothing is to be replaced. -/
theorem replacedBelow_of_vacant (ht : Stands t f) {c : Nat} (hv : Vacant t b c) (hbc : b ≤ c) :
    replacedBelow g f a b = replacedBelow g f a c := by
  funext j
  by_cases hj : b ≤ j.toNat ∧ j.toNat < c
  · have hnone : f j = none := by
      cases hfj : f j with
      | none => rfl
      | some x => exact absurd (hv j x ((ht.holds j x).mpr hfj) hj.1) (Nat.not_le.mpr hj.2)
    rw [replacedBelow, replacedBelow, hnone]
    simp
  · have hiff : (a ≤ j.toNat ∧ j.toNat < b) ↔ (a ≤ j.toNat ∧ j.toNat < c) := by omega
    rw [replacedBelow, replacedBelow]
    exact if_congr hiff rfl rfl

/-- The next replacement. -/
theorem update_replacedBelow {i : BitVec 64} {x : Item} (hx : f i = some x) (ha : a ≤ i.toNat) :
    Function.update (replacedBelow g f a i.toNat) i (some (g i x))
      = replacedBelow g f a (i.toNat + 1) := by
  funext j
  rw [Function.update_apply, replacedBelow, replacedBelow]
  by_cases hj : j = i
  · subst hj
    rw [if_pos rfl, if_pos ⟨ha, Nat.lt_succ_self _⟩, hx]
    rfl
  · have hne : j.toNat ≠ i.toNat := fun h ↦ hj (BitVec.eq_of_toNat_eq h)
    have hiff : (a ≤ j.toNat ∧ j.toNat < i.toNat) ↔ (a ≤ j.toNat ∧ j.toNat < i.toNat + 1) := by
      omega
    rw [if_neg hj]
    exact if_congr hiff rfl rfl

/-- One visit. -/
theorem replaceWith_spec (ht : Stands t f) (hs : Stands s (replacedBelow g f start a))
    (hg : ∀ i x, f i = some x → (g i x).tagged = false) (hstart : start ≤ a)
    (hat : At s iter slot) (hle : a ≤ iter.index.toNat) (hv : Vacant s a iter.index.toNat) :
    ∃ x s', f iter.index = some x ∧ s.load slot = .ok (.item x) ∧
      replaceWith g s slot iter = .ok (s', some slot, iter) ∧
      Stands s' (replacedBelow g f start (iter.index.toNat + 1)) ∧ At s' iter slot := by
  obtain ⟨x, hload, hx⟩ := hat.load_eq
  rw [replacedBelow_of_vacant ht (.of_replaced ht hs hv) hle] at hs
  have hfx := (hs.holds _ x).mp hx
  rw [replacedBelow_of_le (Nat.le_refl _)] at hfx
  obtain ⟨s', hrun, hs', hat'⟩ := hat.replace hs (hg _ _ hfx)
  rw [update_replacedBelow hfx (hstart.trans hle)] at hs'
  refine ⟨x, s', hfx, hload, ?_, hs', hat'⟩
  rw [replaceWith, hload, Fault.ok_bind]
  simp only [hrun, Fault.ok_bind]
  rfl

/-- Induction on the fuel. The tree changes at every visit, and is in good order at each. -/
theorem replaceWith_loop (ht : Stands t f) (hg : ∀ i x, f i = some x → (g i x).tagged = false)
    {restarts fuel : Nat} {slot : Option Slot} (hs : Stands s (replacedBelow g f start a))
    (hstart : start ≤ a) (hrestarts : 2 ^ 64 ≤ restarts) (hleft : Left s a iter slot)
    (hfuel : 2 ^ 64 < a + fuel) (ha : a ≤ 2 ^ 64) :
    ∃ s' visits, eachSlotLoop (replaceWith g) restarts fuel s slot iter = .ok (s', visits) ∧
      Visits t a visits ∧ Stands s' (replacedBelow g f start (2 ^ 64)) := by
  induction fuel generalizing s a iter slot with
  | zero => omega
  | succ fuel ih =>
    have hbody : ∀ {iter : Iter} {slot : Slot}, At s iter slot → a ≤ iter.index.toNat →
        Vacant s a iter.index.toNat → ∃ s' visits,
          eachSlotLoop (replaceWith g) restarts (fuel + 1) s (some slot) iter = .ok (s', visits) ∧
          Visits t a visits ∧ Stands s' (replacedBelow g f start (2 ^ 64)) := by
      intro iter slot hat hle hv
      have hi := iter.index.isLt
      obtain ⟨x, s₁, hfx, hload, hrun, hs₁, hat₁⟩ :=
        replaceWith_spec ht hs hg hstart hat hle hv
      obtain ⟨iter', slot', hnext, hleft'⟩ := radixTreeNextSlot_spec hs₁.wf hat₁
      obtain ⟨s', visits, hloop, hvis, hs'⟩ := ih hs₁ (by omega) hleft' (by omega) (by omega)
      refine ⟨s', (iter.index, .item x) :: visits, ?_,
        hvis.cons ht.wf hle (.of_replaced ht hs hv) ((ht.holds _ x).mpr hfx), hs'⟩
      rw [eachSlotLoop_some, hload, Fault.ok_bind, hrun, Fault.ok_bind]
      simp only [radixTreeNextSlotOf, hnext, Fault.ok_bind, hloop]
      rfl
    cases hleft with
    | here hat hle hv => exact hbody hat hle hv
    | @pending b hp hle hv =>
      obtain ⟨iter', slot', hchunk, hre⟩ := radixTreeNextChunk_spec hs.wf hrestarts hp
      cases slot' with
      | none =>
        cases hre with
        | none hv' =>
          have hvac := Vacant.of_replaced ht hs (hv.trans hv')
          refine ⟨s, [], eachSlotLoop_end fuel hchunk, .nil hvac, ?_⟩
          rw [← replacedBelow_of_vacant ht hvac ha]
          exact hs
      | some slot' =>
        cases hre with
        | some hat hle' hv' =>
          rw [eachSlotLoop_chunk fuel hchunk]
          exact hbody hat (hle.trans hle') (hv.trans hv')

end Loop

/-- **Replacing in a loop.** After every program of insertions and of deletions of present indices,
a loop from any index on that replaces each item it meets by one not tagged as a node ends. It
visits exactly the present indices from there on, each once and in ascending order, with their old
items; afterwards every lookup from there on answers the new item, and no other has changed. -/
theorem replaceWith_run {oom : Nat → Bool} {t₀ : Tree} {calls : List Call}
    (h0 : radixTreeRootAlloc oom = some t₀) (h1 : oom 1 = false)
    (htidy : Along Call.tidy t₀ calls = true) {g : BitVec 64 → Item → Item}
    (hg : ∀ i x, (g i x).tagged = false) (start : BitVec 64) {fuel : Nat} (hfuel : 2 ^ 64 < fuel) :
    ∃ t rs t' visits, run t₀ calls = .ok (t, rs) ∧
      eachSlotLoop (replaceWith g) fuel fuel t none (radixTreeIterInit start)
        = .ok (t', visits) ∧
      (visits.map Prod.fst).Pairwise (· < ·) ∧
      (∀ i e, (i, e) ∈ visits ↔ start ≤ i ∧ e ≠ .null ∧ radixTreeLookup t i = .ok e) ∧
      (∀ i, radixTreeLookup t' i = .ok (answer (if start ≤ i then (history calls rs i).map (g i)
        else history calls rs i))) ∧
      ∀ p nd, t'.node p = some nd → nd.count.toNat = nd.used := by
  obtain rfl := rootAlloc_eq h0 h1
  obtain ⟨t, rs, hrun, hst⟩ := (stands_emptyTree oom).1.run_tidy htidy
  change Stands t (history calls rs) at hst
  have hs : Stands t (replacedBelow g (history calls rs) start.toNat start.toNat) := by
    rw [replacedBelow_self]
    exact hst
  obtain ⟨t', visits, hloop, hvis, hst'⟩ := replaceWith_loop hst (fun i x _ ↦ hg i x) hs
    (Nat.le_refl _) hfuel.le (.pending (pending_init start) (Nat.le_refl _) (.refl t _))
    (show 2 ^ 64 < start.toNat + fuel by omega) start.isLt.le
  refine ⟨t, rs, t', visits, hrun, hloop, hvis.ascending, fun i e ↦ ?_, fun i ↦ ?_,
    fun p nd hp ↦ ?_⟩
  · rw [hvis.mem_iff hst, BitVec.le_def]
  · rw [hst'.lookup_eq, replacedBelow]
    exact congrArg (fun x ↦ Except.ok (answer x))
      (if_congr ((and_iff_left i.isLt).trans BitVec.le_def.symm) rfl rfl)
  · exact hst'.wf.count_toNat hp

/-- `replaceWith_run` over two leaves, from an absent index on. -/
theorem replaceWith_run_two_leaves :
    ∃ t rs t' visits, run (emptyTree (fun _ ↦ false))
        [.insert 5 ⟨4, by decide⟩, .insert 70 ⟨8, by decide⟩] = .ok (t, rs) ∧
      eachSlotLoop (replaceWith (fun _ _ ↦ ⟨12, by decide⟩)) (2 ^ 64 + 1) (2 ^ 64 + 1) t none
        (radixTreeIterInit 6) = .ok (t', visits) ∧
      ∀ i, radixTreeLookup t' i = .ok (answer (if 6 ≤ i then (history [.insert 5 ⟨4, by decide⟩,
          .insert 70 ⟨8, by decide⟩] rs i).map (fun _ ↦ ⟨12, by decide⟩)
        else history [.insert 5 ⟨4, by decide⟩, .insert 70 ⟨8, by decide⟩] rs i)) := by
  have hcalls : Along Call.tidy (emptyTree (fun _ ↦ false))
      [.insert 5 ⟨4, by decide⟩, .insert 70 ⟨8, by decide⟩] = true := by decide +kernel
  obtain ⟨t, rs, t', visits, hrun, hloop, -, -, hlook, -⟩ :=
    replaceWith_run (g := fun _ _ ↦ ⟨12, by decide⟩)
      (show radixTreeRootAlloc (fun _ ↦ false) = some (emptyTree _) from rfl) rfl hcalls
      (fun _ _ ↦ by decide) 6 (Nat.lt_succ_self (2 ^ 64))
  exact ⟨t, rs, t', visits, hrun, hloop, hlook⟩

end Jeopardy.RadixTree
