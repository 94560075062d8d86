import Jeopardy.RadixTree.EachSlot

/-!
# Clearing a tree

Model of `item_kill_tree` in `radix_tree/test.c` and of `radix_tree_replace_slot` in
`radix_tree/radix-tree.c`. The replacement goes without a node, so no count follows it and no node
is taken away: a tree with a node at its root is swept clean and keeps all its nodes.
-/

namespace Jeopardy.RadixTree

/-- `calculate_count`, `radix_tree/radix-tree.c:541–557`. -/
def calculateCount (item old : Entry) : Int :=
  (if item = .null then 0 else 1) - (if old = .null then 0 else 1)

/-- `__radix_tree_replace`, `radix_tree/radix-tree.c:569–591`. -/
def rawRadixTreeReplace (t : Tree) (node : Option Nat) (slot : Slot) (item : Entry) :
    Except Fault Tree := do
  let old ← t.load slot
  let values : Int := (if xaIsValue item then 1 else 0) - (if xaIsValue old then 1 else 0)
  let count := calculateCount item old
  let t ← replaceSlot t slot item node count values
  match node with
  | none => return t
  | some node =>
    let (t, _) ← deleteNode LEVELS t node false
    return t

/-- `radix_tree_replace_slot`, `radix_tree/radix-tree.c:593–597`. -/
def radixTreeReplaceSlot (t : Tree) (slot : Slot) (item : Entry) : Except Fault Tree :=
  rawRadixTreeReplace t none slot item

/-- `free(*slot)`. Whether an untagged word is the address of an object is up to the caller; a
value entry is none. -/
def freeItem (entry : Entry) : Except Fault Unit :=
  if xaIsValue entry then .error .badPointer else .ok ()

/-- The body of the loop `radix_tree/test.c:264–269`. Its test `xa_is_value(slot)` is of the slot's
address, which is even, and never holds. -/
def itemKill (t : Tree) (slot : Slot) (iter : Iter) :
    Except Fault (Tree × Option Slot × Iter) := do
  freeItem (← t.load slot)
  let t ← radixTreeReplaceSlot t slot .null
  return (t, some slot, iter)

/-- `item_kill_tree`, `radix_tree/test.c:258–272`: the tree it leaves, its visits, and what its
closing assertion finds. -/
def itemKillTree (t : Tree) (fuel : Nat) :
    Except Fault (Tree × List (BitVec 64 × Entry) × Bool) := do
  let (t, visits) ← eachSlotLoop itemKill fuel fuel t none (radixTreeIterInit 0)
  return (t, visits, decide (t.rnode = .null))

/-- `item_kill_tree` ends, visits every stored entry once, leaves nothing behind, and its assertion
holds. -/
def KillLaw (t : Tree) (fuel : Nat) : Prop :=
  ∃ t' visits, itemKillTree t fuel = .ok (t', visits, true) ∧
    (visits.map Prod.fst).Pairwise (· < ·) ∧
    (∀ i e, (i, e) ∈ visits ↔ e ≠ .null ∧ radixTreeLookup t i = .ok e) ∧
    ∀ i, radixTreeLookup t' i = .ok .null

/-- A store of `NULL` to a slot in use changes the slot alone. -/
theorem radixTreeReplaceSlot_node {t : Tree} {p : Nat} {nd : Node} (hp : t.node p = some nd)
    (o : Fin 64) (item : Entry) : radixTreeReplaceSlot t (.node p o) item
      = .ok (t.setNode p (some { nd with slots := Function.update nd.slots o item })) := by
  rw [radixTreeReplaceSlot, rawRadixTreeReplace, Tree.load_eq hp, Fault.ok_bind]
  simp only [replaceSlot, pure, Except.pure, Fault.ok_bind, Tree.store_eq hp]

theorem radixTreeReplaceSlot_root (t : Tree) (item : Entry) :
    radixTreeReplaceSlot t .root item = .ok { t with rnode := item } := rfl

/-! ### A tree that has been swept up to an index -/

/-- `slots` are those of the node at `p` with the ones of the indices below `a` cleared. -/
structure SweptSlots (t : Tree) (a p : Nat) (nd : Node) (slots : Fin 64 → Entry) : Prop where
  inner : nd.shift ≠ 0 → slots = nd.slots
  leaf : nd.shift = 0 → ∀ i, On t i p nd →
    slots (slotOffset i 0) = if i.toNat < a then .null else nd.slots (slotOffset i 0)

/-- `s` is `t` with the slots of the indices below `a` cleared, and nothing else. -/
structure Swept (t s : Tree) (a : Nat) : Prop where
  rnode : s.rnode = t.rnode
  node : ∀ p nd, t.node p = some nd →
    ∃ slots, s.node p = some { nd with slots := slots } ∧ SweptSlots t a p nd slots

section Sweep

variable {t s : Tree} {a p : Nat} {nd : Node} {slots : Fin 64 → Entry} {i : BitVec 64}

namespace SweptSlots

/-- Over vacant indices nothing is to be cleared. -/
theorem mono (h : WF t) (hp : t.node p = some nd) (hs : SweptSlots t a p nd slots) {b : Nat}
    (hab : a ≤ b) (hv : Vacant t a b) : SweptSlots t b p nd slots := by
  refine ⟨hs.inner, fun hz i hi ↦ ?_⟩
  rw [hs.leaf hz i hi]
  by_cases hlt : i.toNat < a
  · rw [if_pos hlt, if_pos (by omega)]
  · rw [if_neg hlt]
    by_cases hb : i.toNat < b
    · rw [if_pos hb]
      cases hx : nd.slots (slotOffset i 0) with
      | null => rfl
      | node q => exact absurd hx (h.leaf hp hz)
      | item x =>
        have := hv i x ((h.holds_of_leaf hi hz x).mpr hx) (by omega)
        omega
    · rw [if_neg hb]

/-- The index just passed is not one of the node. -/
theorem succ_of_ne (hs : SweptSlots t a p nd slots)
    (hne : nd.shift = 0 → ∀ i, On t i p nd → i.toNat ≠ a) : SweptSlots t (a + 1) p nd slots := by
  refine ⟨hs.inner, fun hz i hi ↦ ?_⟩
  rw [hs.leaf hz i hi]
  have := hne hz i hi
  by_cases hlt : i.toNat < a
  · rw [if_pos hlt, if_pos (by omega)]
  · rw [if_neg hlt, if_neg (by omega)]

/-- The index just passed is one of the leaf. -/
theorem clear (hs : SweptSlots t i.toNat p nd slots) (hp : On t i p nd) (hz : nd.shift = 0) :
    SweptSlots t (i.toNat + 1) p nd (Function.update slots (slotOffset i 0) .null) := by
  refine ⟨fun hn ↦ absurd hz hn, fun _ j hj ↦ ?_⟩
  rw [Function.update_apply]
  by_cases hij : slotOffset j 0 = slotOffset i 0
  · have hb := hj.block_eq hp
    rw [hz] at hb
    obtain rfl := eq_of_block_offset hb hij
    rw [if_pos rfl, if_pos (by omega)]
  · rw [if_neg hij, hs.leaf hz j hj]
    have hne : j.toNat ≠ i.toNat := fun hji ↦ hij (by rw [BitVec.eq_of_toNat_eq hji])
    by_cases hlt : j.toNat < i.toNat
    · rw [if_pos hlt, if_pos (by omega)]
    · rw [if_neg hlt, if_neg (by omega)]

/-- The slot of an index not yet passed. -/
theorem eq_of_le (hs : SweptSlots t a p nd slots) (hi : On t i p nd) (ha : a ≤ i.toNat) :
    slots (slotOffset i nd.shift) = nd.slots (slotOffset i nd.shift) := by
  by_cases hz : nd.shift = 0
  · rw [hz, hs.leaf hz i hi, if_neg (by omega)]
  · rw [hs.inner hz]

/-- The slots behind that of an index not yet passed. -/
theorem eq_of_lt (h : WF t) (hs : SweptSlots t a p nd slots) (hi : On t i p nd)
    (ha : a ≤ i.toNat) (k : Fin 64) (hk : (slotOffset i nd.shift).val < k.val) :
    slots k = nd.slots k := by
  by_cases hz : nd.shift = 0
  · obtain ⟨j, hj, rfl, hblock⟩ := exists_index h hi.1 hz hi.2 k
    rw [hz, slotOffset_zero, slotOffset_zero] at hk
    rw [hz] at hblock
    rw [hs.leaf hz j hj, if_neg (by omega)]
  · rw [hs.inner hz]

end SweptSlots

namespace Swept

theorem refl (t : Tree) : Swept t t 0 :=
  ⟨rfl, fun _ nd hp ↦ ⟨nd.slots, hp, fun _ ↦ rfl, fun _ _ _ ↦ (if_neg (Nat.not_lt_zero _)).symm⟩⟩

theorem mono (h : WF t) (hs : Swept t s a) {b : Nat} (hab : a ≤ b) (hv : Vacant t a b) :
    Swept t s b := by
  refine ⟨hs.rnode, fun p nd hp ↦ ?_⟩
  obtain ⟨slots, hsp, hsw⟩ := hs.node p nd hp
  exact ⟨slots, hsp, hsw.mono h hp hab hv⟩

/-- Storing `NULL` at the next index. -/
theorem clear (h : WF t) (hs : Swept t s i.toNat) (hp : On t i p nd) (hz : nd.shift = 0) :
    ∃ s', radixTreeReplaceSlot s (.node p (slotOffset i 0)) .null = .ok s' ∧
      Swept t s' (i.toNat + 1) := by
  obtain ⟨slots, hsp, hsw⟩ := hs.node p nd hp.1
  refine ⟨_, radixTreeReplaceSlot_node hsp _ _, hs.rnode, fun q nq hq ↦ ?_⟩
  rw [Tree.setNode_node]
  by_cases hqp : q = p
  · subst hqp
    obtain rfl : nd = nq := Option.some.inj (hp.1.symm.trans hq)
    exact ⟨_, if_pos rfl, hsw.clear hp hz⟩
  · obtain ⟨slots', hsq, hsw'⟩ := hs.node q nq hq
    refine ⟨slots', (if_neg hqp).trans hsq, hsw'.succ_of_ne (fun hzq j hj hji ↦ ?_)⟩
    obtain rfl := BitVec.eq_of_toNat_eq hji
    exact hqp (h.on_unique hj hp (hzq.trans hz.symm))

end Swept

end Sweep

/-! ### The iteration does not see what has been swept -/

theorem scanHole_congr {nd ns : Node} {fuel offset : Nat}
    (h : ∀ k : Fin 64, offset < k.val → ns.slots k = nd.slots k) :
    scanHole ns fuel offset = scanHole nd fuel offset := by
  induction fuel generalizing offset with
  | zero => rfl
  | succ fuel ih =>
    rw [scanHole, scanHole, ih (fun k hk ↦ h k (by omega))]
    by_cases hlt : offset + 1 < 64
    · rw [dif_pos hlt, dif_pos hlt, h ⟨offset + 1, hlt⟩ (Nat.lt_succ_self offset)]
    · rw [dif_neg hlt, dif_neg hlt]

theorem passHole_congr {nd : Node} {slots : Fin 64 → Entry} {offset : Fin 64}
    (h : ∀ k : Fin 64, offset.val < k.val → slots k = nd.slots k) (i : BitVec 64) :
    passHole { nd with slots := slots } offset i = passHole nd offset i := by
  obtain ⟨hlow, -⟩ := scanHole_spec nd 64 offset.isLt (by omega)
  have hscan : scanHole { nd with slots := slots } 64 offset = scanHole nd 64 offset :=
    scanHole_congr h
  simp only [passHole, hscan]
  by_cases ho : scanHole nd 64 offset < 64
  · simp only [dif_pos ho, h ⟨_, ho⟩ hlow]
    rfl
  · simp only [dif_neg ho]
    rfl

namespace Swept

variable {t s : Tree} {a p : Nat} {nd : Node} {i : BitVec 64}

/-- Induction on the fuel, along the descent in the tree that was. -/
theorem chunkLoop_eq (h : WF t) (hs : Swept t s a) (fuel : Nat) (hp : On t i p nd)
    (ha : a ≤ i.toNat) : chunkLoop s fuel (.node p) i = chunkLoop t fuel (.node p) i := by
  induction fuel generalizing p nd i with
  | zero => rfl
  | succ fuel ih =>
    obtain ⟨slots, hsp, hsw⟩ := hs.node p nd hp.1
    rw [chunkLoop_node hp.1, chunkLoop_node hsp]
    -- at a slot in use
    have hused : ∀ j, On t j p nd → a ≤ j.toNat → nd.slots (slotOffset j nd.shift) ≠ .null →
        (if nd.shift ≠ 0 ∧ (slots (slotOffset j nd.shift)).isInternalNode = true
          then chunkLoop s fuel (slots (slotOffset j nd.shift)) j
          else .ok (.found (chunkAt p { nd with slots := slots } (slotOffset j nd.shift) j)
            (.node p (slotOffset j nd.shift))))
        = if nd.shift ≠ 0 ∧ (nd.slots (slotOffset j nd.shift)).isInternalNode = true
          then chunkLoop t fuel (nd.slots (slotOffset j nd.shift)) j
          else .ok (.found (chunkAt p nd (slotOffset j nd.shift) j)
            (.node p (slotOffset j nd.shift))) := by
      intro j hj haj hne
      rw [hsw.eq_of_le hj haj]
      by_cases hz : nd.shift = 0
      · rw [if_neg (fun hc ↦ hc.1 hz), if_neg (fun hc ↦ hc.1 hz)]
        rfl
      · obtain ⟨q, nq, hslot, hq, -⟩ := h.on_child hj hz hne
        rw [hslot, ih hq haj]
        rfl
    rw [show ({ nd with slots := slots } : Node).slots (slotOffset i nd.shift)
        = nd.slots (slotOffset i nd.shift) from hsw.eq_of_le hp ha,
      show passHole { nd with slots := slots } (slotOffset i nd.shift) i
        = passHole nd (slotOffset i nd.shift) i from passHole_congr (hsw.eq_of_lt h hp ha) i]
    by_cases hnull : nd.slots (slotOffset i nd.shift) = .null
    · rw [if_pos hnull]
      have hpass := passHole_spec h hp hnull
      generalize passHole nd (slotOffset i nd.shift) i = pos at hpass
      cases hpass with
      | ended hc => rfl
      | next hj hne hlt hv => exact hused _ hj (by omega) hne
    · rw [if_neg hnull]
      exact hused i hp ha hnull

theorem radixTreeLoadRoot_eq (h : WF t) (hs : Swept t s a) :
    radixTreeLoadRoot s = radixTreeLoadRoot t := by
  rw [radixTreeLoadRoot, radixTreeLoadRoot, hs.rnode]
  cases hr : t.rnode with
  | null => rfl
  | item x => rfl
  | node r =>
    obtain ⟨nr, hnr, -⟩ := h.root hr
    obtain ⟨slots, hsr, -⟩ := hs.node r nr hnr
    rw [if_pos (isInternalNode_node r), if_pos (isInternalNode_node r), entryToNode, Fault.ok_bind,
      Fault.ok_bind, Tree.read_eq hnr, Tree.read_eq hsr]
    rfl

/-- Every restart is at a larger index. -/
theorem restartLoop_eq (h : WF t) (hs : Swept t s a) {r : Nat} (hr : t.rnode = .node r)
    (fuel : Nat) (ha : a ≤ i.toNat) : restartLoop s fuel i = restartLoop t fuel i := by
  induction fuel generalizing i with
  | zero => rfl
  | succ fuel ih =>
    obtain ⟨nr, hnr, -⟩ := h.root hr
    rw [restartLoop, restartLoop, hs.radixTreeLoadRoot_eq h, radixTreeLoadRoot_node hr hnr,
      Fault.ok_bind, Fault.ok_bind]
    by_cases hi : nodeMaxindex nr < i
    · exact (if_pos hi).trans (if_pos hi).symm
    · have hon := h.on_root hr hnr hi
      obtain ⟨c, hc, hch⟩ := chunkLoop_spec h (LEVELS + 1) hon (by
        have := h.shift_le hnr
        unfold LEVELS
        omega)
      simp only [if_neg hi, if_neg (show Entry.node r ≠ .null by simp), isInternalNode_node,
        if_true, hs.chunkLoop_eq h (LEVELS + 1) hon ha, hc, Fault.ok_bind]
      cases hch with
      | null hv => rfl
      | restart hlt hv => exact ih (by omega)
      | found hat hle hv => rfl

theorem radixTreeNextChunk_eq (h : WF t) (hs : Swept t s a) {r : Nat} (hr : t.rnode = .node r)
    (restarts : Nat) {iter : Iter} {b : Nat} (hp : Pending iter b) (hab : a ≤ b) :
    radixTreeNextChunk s restarts iter = radixTreeNextChunk t restarts iter := by
  rw [Pending] at hp
  rw [radixTreeNextChunk, radixTreeNextChunk]
  by_cases hc : iter.next_index = 0 ∧ iter.index ≠ 0
  · rw [if_pos hc, if_pos hc]
  · rw [if_neg hc] at hp
    rw [if_neg hc, if_neg hc, hs.restartLoop_eq h hr restarts (by omega)]

/-- The loop inside a chunk loads only slots behind the present one. -/
theorem nextSlotLoop_congr {q count : Nat} {o : Fin 64} {iter : Iter}
    (h : ∀ k : Fin 64, o.val < k.val → s.load (.node q k) = t.load (.node q k)) :
    nextSlotLoop s count (.node q o) iter = nextSlotLoop t count (.node q o) iter := by
  induction count generalizing o iter with
  | zero => rfl
  | succ count ih =>
    rw [nextSlotLoop, nextSlotLoop, Slot.succ]
    by_cases ho : o.val + 1 < 64
    · rw [dif_pos ho, Fault.ok_bind, Fault.ok_bind]
      simp only [h ⟨o.val + 1, ho⟩ (Nat.lt_succ_self _)]
      rw [ih (o := ⟨o.val + 1, ho⟩) (fun k hk ↦ h k (Nat.lt_of_succ_lt hk))]
    · rw [dif_neg ho]
      rfl

theorem radixTreeNextSlot_eq (h : WF t) (hs : Swept t s (i.toNat + 1)) (hp : On t i p nd)
    (hz : nd.shift = 0) (iter : Iter) :
    radixTreeNextSlot s (.node p (slotOffset i 0)) iter
      = radixTreeNextSlot t (.node p (slotOffset i 0)) iter := by
  refine nextSlotLoop_congr (fun k hk ↦ ?_)
  obtain ⟨slots, hsp, hsw⟩ := hs.node p nd hp.1
  obtain ⟨j, hj, rfl, hblock⟩ := exists_index h hp.1 hz hp.2 k
  rw [Tree.load_eq hp.1, Tree.load_eq hsp, Except.ok.injEq]
  rw [slotOffset_zero, slotOffset_zero] at hk
  rw [hz] at hblock
  exact (hsw.leaf hz j hj).trans (if_neg (by omega))

/-- Induction on the fuel, down to a slot that has been cleared. -/
theorem lookupLoop_null (h : WF t) (hs : Swept t s a) (hi : i.toNat < a) {fuel : Nat}
    (hp : On t i p nd) (hfuel : nd.shift < 6 * fuel) (parent : Option Nat) (slot : Slot) :
    ∃ out, lookupLoop s i fuel (.node p) parent slot = .ok (.null, out) := by
  induction fuel generalizing p nd parent slot with
  | zero => omega
  | succ fuel ih =>
    obtain ⟨slots, hsp, hsw⟩ := hs.node p nd hp.1
    rw [lookupLoop, if_pos (isInternalNode_node p), entryToNode, Fault.ok_bind, Tree.read_eq hsp,
      Fault.ok_bind]
    simp only [radixTreeDescend]
    by_cases hz : nd.shift = 0
    · have hnull : slots (slotOffset i nd.shift) = .null := by
        rw [hz, hsw.leaf hz i hp, if_pos hi]
      rw [if_pos hz, hnull]
      exact ⟨_, rfl⟩
    · rw [if_neg hz, hsw.inner hz]
      by_cases hnull : nd.slots (slotOffset i nd.shift) = .null
      · obtain ⟨b, hb⟩ := h.shift_dvd hp.1
        obtain ⟨fuel, rfl⟩ := Nat.exists_eq_add_of_le (show 1 ≤ fuel by omega)
        rw [hnull, Nat.add_comm, lookupLoop, isInternalNode_null, if_neg Bool.false_ne_true]
        exact ⟨_, rfl⟩
      · obtain ⟨q, nq, hslot, hq, hsq⟩ := h.on_child hp hz hnull
        rw [hslot]
        exact ih hq (by omega) _ _

/-- A tree swept to the end answers every lookup with `NULL`. -/
theorem lookup_null (h : WF t) (hs : Swept t s (2 ^ 64)) {r : Nat} (hr : t.rnode = .node r)
    (i : BitVec 64) : radixTreeLookup s i = .ok .null := by
  obtain ⟨nr, hnr, -⟩ := h.root hr
  have hle := h.shift_le hnr
  rw [radixTreeLookup, rawRadixTreeLookup, hs.radixTreeLoadRoot_eq h,
    radixTreeLoadRoot_node hr hnr, Fault.ok_bind]
  by_cases hi : nodeMaxindex nr < i
  · simp only [if_pos hi]
    rfl
  · obtain ⟨out, hout⟩ := hs.lookupLoop_null h i.isLt (h.on_root hr hnr hi)
      (show nr.shift < 6 * (LEVELS + 1) by unfold LEVELS; omega) none .root
    simp only [if_neg hi, hout, Fault.ok_bind]
    rfl

end Swept

/-! ### The loop -/

section Kill

variable {t s : Tree} {restarts fuel a : Nat}

/-- One visit of a tree with a node at its root: a value entry ends it, any other is cleared. -/
theorem itemKill_leaf (h : WF t) {q : Nat} {nq : Node} {i : BitVec 64} (hs : Swept t s i.toNat)
    (hq : On t i q nq) (hz : nq.shift = 0) {x : Item} (hx : nq.slots (slotOffset i 0) = .item x)
    (iter : Iter) : s.load (.node q (slotOffset i 0)) = .ok (.item x) ∧
      if xaIsValue (.item x) then itemKill s (.node q (slotOffset i 0)) iter = .error .badPointer
      else ∃ s', itemKill s (.node q (slotOffset i 0)) iter
        = .ok (s', some (.node q (slotOffset i 0)), iter) ∧ Swept t s' (i.toNat + 1) := by
  obtain ⟨slots, hsq, hsw⟩ := hs.node q nq hq.1
  have hload : s.load (.node q (slotOffset i 0)) = .ok (.item x) := by
    rw [Tree.load_eq hsq, Except.ok.injEq]
    exact (hsw.leaf hz i hq).trans ((if_neg (Nat.lt_irrefl _)).trans hx)
  refine ⟨hload, ?_⟩
  rw [itemKill, hload, Fault.ok_bind, freeItem]
  by_cases hv : xaIsValue (.item x) = true
  · rw [if_pos hv, if_pos hv]
    rfl
  · obtain ⟨s', hrun, hs'⟩ := hs.clear h hq hz
    rw [if_neg hv]
    refine ⟨s', ?_, hs'⟩
    rw [if_neg hv, Fault.ok_bind, hrun]
    rfl

/-- Induction on the fuel. The loop over the tree being swept does what the loop over the tree
that was does, until it meets a value entry. -/
theorem itemKill_loop (h : WF t) {r : Nat} (hr : t.rnode = .node r) (hs : Swept t s a)
    {iter : Iter} {slot : Option Slot} (hrestarts : 2 ^ 64 ≤ restarts)
    (hleft : Left t a iter slot) (hfuel : 2 ^ 64 < a + fuel) (ha : a ≤ 2 ^ 64) :
    (eachSlotLoop itemKill restarts fuel s slot iter = .error .badPointer ∧
      ∃ i x, Holds t i x ∧ xaIsValue (.item x) = true) ∨
    ∃ s' visits, eachSlotLoop itemKill restarts fuel s slot iter = .ok (s', visits) ∧
      Visits t a visits ∧ Swept t s' (2 ^ 64) := by
  induction fuel generalizing s a iter slot with
  | zero => omega
  | succ fuel ih =>
    have hbody : ∀ {iter : Iter} {slot : Slot}, At t iter slot → a ≤ iter.index.toNat →
        Vacant t a iter.index.toNat →
        (eachSlotLoop itemKill restarts (fuel + 1) s (some slot) iter = .error .badPointer ∧
          ∃ i x, Holds t i x ∧ xaIsValue (.item x) = true) ∨
        ∃ s' visits, eachSlotLoop itemKill restarts (fuel + 1) s (some slot) iter
          = .ok (s', visits) ∧ Visits t a visits ∧ Swept t s' (2 ^ 64) := by
      intro iter slot hat hle hv
      cases hat with
      | root hx =>
        rw [hr] at hx
        cases hx
      | @leaf q nq i next x hq hz hx hn =>
        have hi := i.isLt
        have hold : Holds t i x := (h.holds_of_leaf hq hz x).mpr hx
        obtain ⟨hload, hkill⟩ := itemKill_leaf h (hs.mono h hle hv) hq hz hx ⟨i, next, some q⟩
        rw [eachSlotLoop_some, hload, Fault.ok_bind]
        by_cases hval : xaIsValue (.item x) = true
        · rw [if_pos hval] at hkill
          rw [hkill]
          exact .inl ⟨rfl, i, x, hold, hval⟩
        · rw [if_neg hval] at hkill
          obtain ⟨s₁, hrun, hs₁⟩ := hkill
          obtain ⟨iter', slot', hnext, hleft'⟩ := radixTreeNextSlot_leaf h hq hz hn
          rw [hrun, Fault.ok_bind]
          simp only [radixTreeNextSlotOf, hs₁.radixTreeNextSlot_eq h hq hz, hnext, Fault.ok_bind]
          rcases ih hs₁ hleft' (by omega) (by omega) with
            ⟨herr, hbad⟩ | ⟨s', visits, hloop, hvis, hs'⟩
          · rw [herr]
            exact .inl ⟨rfl, hbad⟩
          · rw [hloop]
            exact .inr ⟨s', _, rfl, hvis.cons h hle hv hold, hs'⟩
    cases hleft with
    | here hat hle hv => exact hbody hat hle hv
    | @pending b hp hle hv =>
      obtain ⟨iter', slot', hchunk, hre⟩ := radixTreeNextChunk_spec h hrestarts hp
      rw [← hs.radixTreeNextChunk_eq h hr restarts hp hle] at hchunk
      cases slot' with
      | none =>
        cases hre with
        | none hv' =>
          rw [eachSlotLoop_end fuel hchunk]
          exact .inr ⟨s, [], rfl, .nil (hv.trans hv'), hs.mono h ha (hv.trans hv')⟩
      | some slot' =>
        cases hre with
        | some hat hle' hv' =>
          rw [eachSlotLoop_chunk fuel hchunk]
          exact hbody hat (hle.trans hle') (hv.trans hv')

end Kill

/-! ### When the assertion holds -/

section Law

variable {t : Tree} {f : BitVec 64 → Option Item} {fuel : Nat}

/-- With a node at the root the assertion is reached, unless a value entry is stored, and fails. -/
theorem itemKillTree_cases (h : WF t) {r : Nat} (hr : t.rnode = .node r) (hfuel : 2 ^ 64 < fuel) :
    (itemKillTree t fuel = .error .badPointer ∧ ∃ i x, Holds t i x ∧ xaIsValue (.item x) = true) ∨
    ∃ t' visits, itemKillTree t fuel = .ok (t', visits, false) ∧ Visits t 0 visits ∧
      Swept t t' (2 ^ 64) := by
  rw [itemKillTree]
  rcases itemKill_loop h hr (.refl t) hfuel.le (.pending (pending_init 0) le_rfl (.refl t _))
    (show 2 ^ 64 < (0 : BitVec 64).toNat + fuel by omega) (Nat.zero_le _) with
    ⟨herr, hbad⟩ | ⟨t', visits, hok, hvis, hs⟩
  · rw [herr]
    exact .inl ⟨rfl, hbad⟩
  · have hroot : t'.rnode ≠ .null := by rw [hs.rnode, hr]; simp
    refine .inr ⟨t', visits, ?_, hvis, hs⟩
    rw [hok, Fault.ok_bind]
    simp only [hroot, decide_false]
    rfl

/-- With a node at the root and no value entry stored, everything is visited and cleared, and the
root pointer stays. -/
theorem itemKillTree_node (h : Stands t f) {r : Nat} (hr : t.rnode = .node r)
    (hfuel : 2 ^ 64 < fuel) (hvalue : ∀ i x, f i = some x → xaIsValue (.item x) = false) :
    ∃ t' visits, itemKillTree t fuel = .ok (t', visits, false) ∧ t'.rnode = t.rnode ∧
      (visits.map Prod.fst).Pairwise (· < ·) ∧
      (∀ i e, (i, e) ∈ visits ↔ e ≠ .null ∧ radixTreeLookup t i = .ok e) ∧
      ∀ i, radixTreeLookup t' i = .ok .null := by
  rcases itemKillTree_cases h.wf hr hfuel with ⟨-, i, x, hx, hv⟩ | ⟨t', visits, hrun, hvis, hs⟩
  · rw [hvalue i x ((h.holds i x).mp hx)] at hv
    cases hv
  · refine ⟨t', visits, hrun, hs.rnode, hvis.ascending, fun i e ↦ ?_, hs.lookup_null h.wf hr⟩
    rw [hvis.mem_iff h, and_iff_right (Nat.zero_le _)]

theorem not_killLaw_node (h : WF t) {r : Nat} (hr : t.rnode = .node r) (hfuel : 2 ^ 64 < fuel) :
    ¬ KillLaw t fuel := by
  rintro ⟨t', visits, hrun, -⟩
  rcases itemKillTree_cases h hr hfuel with ⟨herr, -⟩ | ⟨t₁, visits₁, hok, -⟩
  · rw [herr] at hrun
    cases hrun
  · rw [hok] at hrun
    cases hrun

/-- The lookups in a tree whose root pointer is `NULL`. -/
theorem lookup_of_null (h : WF t) (hr : t.rnode = .null) (i : BitVec 64) :
    (∀ x, ¬ Holds t i x) ∧ radixTreeLookup t i = .ok .null := by
  have hempty : ∀ x, ¬ Holds t i x := by
    intro x hx
    rw [h.holds_of_raw (fun r hr' ↦ by rw [hr] at hr'; cases hr'), hr] at hx
    cases hx.1
  exact ⟨hempty, radixTreeLookup_eq h (show ∀ x, Holds t i x ↔ (none : Option Item) = some x from
    fun x ↦ iff_of_false (hempty x) (by simp))⟩

theorem killLaw_null (h : WF t) (hr : t.rnode = .null) (hfuel : 2 ^ 64 < fuel) :
    KillLaw t fuel := by
  obtain ⟨n, rfl⟩ := Nat.exists_eq_add_of_le' (show 1 ≤ fuel by omega)
  refine ⟨t, [], ?_, .nil, fun i e ↦ ?_, fun i ↦ (lookup_of_null h hr i).2⟩
  · rw [itemKillTree, eachSlotLoop_empty h (fun i ↦ (lookup_of_null h hr i).1) hfuel.le n
      (pending_init 0), Fault.ok_bind]
    simp only [hr, decide_true]
    rfl
  · rw [(lookup_of_null h hr i).2, Except.ok.injEq]
    exact iff_of_false List.not_mem_nil (fun hc ↦ hc.1 hc.2.symm)

/-- An item in the root pointer is visited and cleared, unless it is a value entry. -/
theorem itemKillTree_item (h : WF t) {x : Item} (hr : t.rnode = .item x) (hfuel : 2 ^ 64 < fuel) :
    itemKillTree t fuel = if xaIsValue (.item x) then .error .badPointer
      else .ok ({ t with rnode := .null }, [(0, .item x)], true) := by
  have hraw : ∀ r, t.rnode ≠ .node r := fun r hr' ↦ by rw [hr] at hr'; cases hr'
  obtain ⟨n, rfl⟩ := Nat.exists_eq_add_of_le' (show 2 ≤ fuel by omega)
  obtain ⟨iter, slot, hchunk, hre⟩ := radixTreeNextChunk_spec h hfuel.le (pending_init 0)
  rw [itemKillTree]
  cases slot with
  | none =>
    cases hre with
    | none hv => exact absurd (hv 0 x (.inl ⟨hr, rfl⟩) le_rfl) (by decide)
  | some slot =>
    cases hre with
    | some hat hle hv =>
      cases hat with
      | leaf hq hz hx hn => exact absurd hq.1 (by rw [h.node_eq_none hraw]; simp)
      | root hr' =>
        rw [eachSlotLoop_chunk (n + 1) hchunk, eachSlotLoop_some, Tree.load, Fault.ok_bind,
          itemKill, Tree.load, Fault.ok_bind, hr, freeItem]
        by_cases hval : xaIsValue (.item x) = true
        · rw [if_pos hval, if_pos hval]
          rfl
        · obtain ⟨hdel, hd⟩ := rawRadixTreeDelete_root h hraw
          have hrest : eachSlotLoop itemKill (n + 2) (n + 1) { t with rnode := .null } none
              ⟨0, 1, none⟩ = .ok ({ t with rnode := .null }, []) :=
            eachSlotLoop_empty hd.wf (fun i ↦ (lookup_of_null hd.wf rfl i).1) hfuel.le n
              (show Pending ⟨0, 1, none⟩ 1 from rfl)
          rw [if_neg hval, if_neg hval, Fault.ok_bind, radixTreeReplaceSlot_root]
          change (do
            let (t, visits) ← (do
              let (t, visits) ← eachSlotLoop itemKill (n + 2) (n + 1) { t with rnode := .null } none
                ⟨0, 1, none⟩
              return (t, ((0 : BitVec 64), Entry.item x) :: visits))
            return (t, visits, decide (t.rnode = Entry.null))) = _
          rw [hrest]
          rfl

theorem killLaw_item (h : Stands t f) {x : Item} (hr : t.rnode = .item x)
    (hv : xaIsValue (.item x) = false) (hfuel : 2 ^ 64 < fuel) : KillLaw t fuel := by
  have hraw : ∀ r, t.rnode ≠ .node r := fun r hr' ↦ by rw [hr] at hr'; cases hr'
  obtain ⟨-, hd⟩ := rawRadixTreeDelete_root h.wf hraw
  refine ⟨_, _, (itemKillTree_item h.wf hr hfuel).trans (if_neg (ne_true_of_eq_false hv)),
    List.pairwise_singleton _ _, fun i e ↦ ?_, fun i ↦ (lookup_of_null hd.wf rfl i).2⟩
  rw [List.mem_singleton, Prod.mk.injEq, h.lookup_eq, Except.ok.injEq]
  constructor
  · rintro ⟨rfl, rfl⟩
    exact ⟨by simp, answer_eq_item.mpr ((h.holds 0 x).mp (.inl ⟨hr, rfl⟩))⟩
  · rintro ⟨hne, rfl⟩
    obtain ⟨y, hy⟩ := Option.ne_none_iff_exists'.mp (mt answer_eq_null.mpr hne)
    have hold := (h.wf.holds_of_raw hraw i y).mp ((h.holds i y).mpr hy)
    rw [hr, Entry.item.injEq] at hold
    rw [hy, answer_some, hold.1]
    exact ⟨hold.2, rfl⟩

/-- On a tree in good order: exactly if the root pointer is `NULL` or an ordinary pointer. -/
theorem killLaw_iff (h : Stands t f) (hfuel : 2 ^ 64 < fuel) :
    KillLaw t fuel ↔ t.rnode.isInternalNode = false ∧ xaIsValue t.rnode = false := by
  cases hr : t.rnode with
  | null => exact iff_of_true (killLaw_null h.wf hr hfuel) ⟨rfl, rfl⟩
  | node r =>
    exact iff_of_false (not_killLaw_node h.wf hr hfuel) (fun hc ↦ nomatch hc.1)
  | item x =>
    by_cases hv : xaIsValue (.item x) = true
    · refine iff_of_false ?_ (fun hc ↦ by rw [hv] at hc; cases hc.2)
      rintro ⟨t', visits, hrun, -⟩
      rw [itemKillTree_item h.wf hr hfuel, if_pos hv] at hrun
      cases hrun
    · have hv' := eq_false_of_ne_true hv
      exact iff_of_true (killLaw_item h hr hv' hfuel) ⟨h.wf.raw hr, hv'⟩

end Law

/-! ### Reachable trees -/

/-- **Clearing a tree.** On every tree that insertions and deletions of present indices lead to,
`item_kill_tree` visits every stored entry once, leaves nothing behind and finds the root pointer
`NULL` at the end, exactly if the root pointer was `NULL` or an ordinary pointer before. -/
theorem itemKillTree_run {oom : Nat → Bool} {t₀ t : Tree} {calls : List Call} {rs : List Reply}
    (h0 : radixTreeRootAlloc oom = some t₀) (hcalls : Along Call.ordinary t₀ calls = true)
    (hrun : run t₀ calls = .ok (t, rs)) {fuel : Nat} (hfuel : 2 ^ 64 < fuel) :
    KillLaw t fuel ↔ t.rnode.isInternalNode = false ∧ xaIsValue t.rnode = false := by
  cases (standing_rootAlloc h0).run hcalls hrun with
  | good h => exact killLaw_iff h hfuel
  | stuck hr hx =>
    refine iff_of_false ?_ (fun hc ↦ by rw [hr, isInternalNode_item, hx] at hc; cases hc.1)
    obtain ⟨n, rfl⟩ := Nat.exists_eq_add_of_le' (show 1 ≤ fuel by omega)
    rintro ⟨t', visits, hkill, -⟩
    rw [itemKillTree, eachSlotLoop_stuck hr hx (by omega)] at hkill
    cases hkill

/-- `itemKillTree_run` of a tree that has been emptied and has taken an item into its root
pointer. -/
theorem itemKillTree_run_refilled :
    ∃ t rs, run (emptyTree (fun _ ↦ false)) [.insert 5 ⟨8, by decide⟩, .delete 5,
        .insert 0 ⟨4, by decide⟩] = .ok (t, rs) ∧
      (KillLaw t (2 ^ 64 + 1) ↔ t.rnode.isInternalNode = false ∧ xaIsValue t.rnode = false) := by
  have hcalls : Along Call.ordinary (emptyTree (fun _ ↦ false)) [.insert 5 ⟨8, by decide⟩,
      .delete 5, .insert 0 ⟨4, by decide⟩] = true := by decide +kernel
  exact ⟨_, _, rfl, itemKillTree_run (show radixTreeRootAlloc (fun _ ↦ false) = some (emptyTree _)
    from rfl) hcalls rfl (Nat.lt_succ_self _)⟩

/-- One item at index 5 is visited and cleared, and the tree keeps its leaf. -/
theorem itemKillTree_one_item :
    ∃ t rs, run (emptyTree (fun _ ↦ false)) [.insert 5 ⟨8, by decide⟩] = .ok (t, rs) ∧
      Along Call.ordinary (emptyTree (fun _ ↦ false)) [.insert 5 ⟨8, by decide⟩] = true ∧
      ∀ fuel, 2 ^ 64 < fuel → ¬ KillLaw t fuel := by
  have hcalls : Along Call.ordinary (emptyTree (fun _ ↦ false)) [.insert 5 ⟨8, by decide⟩]
      = true := by decide +kernel
  refine ⟨_, _, rfl, hcalls, fun fuel hfuel ↦ ?_⟩
  have hst := (standing_rootAlloc (show radixTreeRootAlloc (fun _ ↦ false) = some (emptyTree _)
    from rfl)).run hcalls rfl
  cases hst with
  | good h => exact not_killLaw_node h.wf rfl hfuel
  | stuck hr hx => cases hr

end Jeopardy.RadixTree
