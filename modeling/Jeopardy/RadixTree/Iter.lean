import Jeopardy.RadixTree.Lookup

/-!
# Iteration

Model of `radix_tree_next_chunk` in `radix_tree/radix-tree.c` and of `radix_tree_next_slot` and
`radix_tree_for_each_slot` in `radix_tree/radix-tree.h`, for the flags 0 that the loop passes. A
loop body that does not change the tree is left out; the loop answers what it visits. Restarts
and visits take a unit of fuel each.
-/

namespace Jeopardy.RadixTree

/-- `struct radix_tree_iter`, `radix_tree/radix-tree.h:95–100`, without the tags, which a
non-tagged iteration does not read. -/
structure Iter where
  index : BitVec 64
  next_index : BitVec 64
  node : Option Nat
deriving DecidableEq

/-- `radix_tree_iter_init`, `radix_tree/radix-tree.h:154–170`. -/
def radixTreeIterInit (start : BitVec 64) : Iter := ⟨0, start, none⟩

/-- The offset at which the loop `radix_tree/radix-tree.c:714–719` stops. -/
def scanHole (nd : Node) : Nat → Nat → Nat
  | 0, offset => offset
  | fuel + 1, offset =>
    if h : offset + 1 < 64 then
      if nd.slots ⟨offset + 1, h⟩ ≠ .null then offset + 1 else scanHole nd fuel (offset + 1)
    else offset + 1

/-- How the descent of `radix_tree_next_chunk` ends: `return NULL`, `goto restart`, or a slot. -/
inductive ChunkStep where
  | null
  | restart (index : BitVec 64)
  | found (iter : Iter) (slot : Slot)
deriving DecidableEq

/-- The iterator state at the end of `radix_tree_next_chunk`, `radix_tree/radix-tree.c:735–738`. -/
def chunkAt (node : Nat) (nd : Node) (offset : Fin 64) (index : BitVec 64) : Iter where
  index := (index &&& ~~~nodeMaxindex nd) ||| BitVec.ofNat 64 offset
  next_index := (index ||| nodeMaxindex nd) + 1
  node := some node

/-- The branch for a hole, `radix_tree/radix-tree.c:709–729`: how the descent ends, or the offset
and the index it goes on with. -/
def passHole (nd : Node) (offset : Fin 64) (index : BitVec 64) : ChunkStep ⊕ (Fin 64 × BitVec 64) :=
  let offset := scanHole nd 64 offset
  let index := (index &&& ~~~nodeMaxindex nd) + (BitVec.ofNat 64 offset <<< nd.shift)
  if index = 0 then .inl .null
  else if h : offset < 64 then
    if nd.slots ⟨offset, h⟩ = .null then .inl (.restart index) else .inr (⟨offset, h⟩, index)
  else .inl (.restart index)

/-- The descent, `radix_tree/radix-tree.c:704–733`. -/
def chunkLoop (t : Tree) : Nat → Entry → BitVec 64 → Except Fault ChunkStep
  | 0, _, _ => .error .diverges
  | fuel + 1, child, index => do
    let node ← entryToNode child
    let nd ← t.read node
    let (offset, child) := radixTreeDescend nd index
    match (if child = .null then passHole nd offset index else .inr (offset, index)) with
    | .inl r => return r
    | .inr (offset, index) =>
      let child := nd.slots offset
      if nd.shift ≠ 0 ∧ child.isInternalNode then chunkLoop t fuel child index
      else return .found (chunkAt node nd offset index) (.node node offset)

/-- The part of `radix_tree_next_chunk` from the label `restart` on. -/
def restartLoop (t : Tree) : Nat → BitVec 64 → Except Fault (Option (Iter × Slot))
  | 0, _ => .error .diverges
  | fuel + 1, index => do
    let (child, maxindex, _) ← radixTreeLoadRoot t
    if index > maxindex then return none
    else if child = .null then return none
    else if child.isInternalNode then
      match ← chunkLoop t (LEVELS + 1) child index with
      | .null => return none
      | .restart index => restartLoop t fuel index
      | .found iter slot => return some (iter, slot)
    else return some (⟨index, maxindex + 1, none⟩, .root)

/-- `radix_tree_next_chunk`, `radix_tree/radix-tree.c:667–748`. -/
def radixTreeNextChunk (t : Tree) (fuel : Nat) (iter : Iter) :
    Except Fault (Iter × Option Slot) := do
  if iter.next_index = 0 ∧ iter.index ≠ 0 then return (iter, none)
  else
    match ← restartLoop t fuel iter.next_index with
    | none => return (iter, none)
    | some (iter, slot) => return (iter, some slot)

/-- `radix_tree_chunk_size`, `radix_tree/radix-tree.h:264–268`, a `long`. -/
def radixTreeChunkSize (iter : Iter) : Int := (iter.next_index - iter.index).toInt

/-- `slot++`. There is nothing behind the root pointer or the last slot of a node. -/
def Slot.succ : Slot → Except Fault Slot
  | .root => .error .outOfBounds
  | .node p o => if h : o.val + 1 < 64 then .ok (.node p ⟨o.val + 1, h⟩) else .error .outOfBounds

/-- The loop of `radix_tree_next_slot`, `radix_tree/radix-tree.h:314–327`, with the number of
rounds left. -/
def nextSlotLoop (t : Tree) : Nat → Slot → Iter → Except Fault (Iter × Option Slot)
  | 0, _, iter => .ok (iter, none)
  | count + 1, slot, iter => do
    let slot ← slot.succ
    let iter := { iter with index := iter.index + 1 }
    let entry ← t.load slot
    if entry ≠ .null then return (iter, some slot) else nextSlotLoop t count slot iter

/-- `radix_tree_next_slot`, `radix_tree/radix-tree.h:292–335`. -/
def radixTreeNextSlot (t : Tree) (slot : Slot) (iter : Iter) : Except Fault (Iter × Option Slot) :=
  nextSlotLoop t (radixTreeChunkSize iter - 1).toNat slot iter

/-- The loop `radix_tree_for_each_slot`, `radix_tree/radix-tree.h:348–351`: `iter.index` and
`*slot` at each visit. -/
def forEachLoop (t : Tree) (restarts : Nat) :
    Nat → Option Slot → Iter → Except Fault (List (BitVec 64 × Entry))
  | 0, _, _ => .error .diverges
  | fuel + 1, slot, iter => do
    let (iter, slot) ← (match slot with
      | some slot => return (iter, some slot)
      | none => radixTreeNextChunk t restarts iter)
    match slot with
    | none => return []
    | some slot =>
      let entry ← t.load slot
      let (iter', slot') ← radixTreeNextSlot t slot iter
      let visits ← forEachLoop t restarts fuel slot' iter'
      return (iter.index, entry) :: visits

/-- A whole loop from `start` on. -/
def forEachSlot (t : Tree) (fuel : Nat) (start : BitVec 64) :
    Except Fault (List (BitVec 64 × Entry)) :=
  forEachLoop t fuel fuel none (radixTreeIterInit start)

/-! ### Holes -/

/-- No index of the range is present. -/
def Vacant (t : Tree) (a b : Nat) : Prop := ∀ j x, Holds t j x → a ≤ j.toNat → b ≤ j.toNat

theorem Vacant.refl (t : Tree) (a : Nat) : Vacant t a a := fun _ _ _ h ↦ h

theorem Vacant.trans {t : Tree} {a b c : Nat} (h : Vacant t a b) (h' : Vacant t b c) :
    Vacant t a c := fun j x hx ha ↦ h' j x hx (h j x hx ha)

/-- The scan stops at the next slot in use, or behind the last one. -/
theorem scanHole_spec (nd : Node) (fuel : Nat) {offset : Nat} (ho : offset < 64)
    (hfuel : 64 ≤ offset + fuel) :
    offset < scanHole nd fuel offset ∧ scanHole nd fuel offset ≤ 64 ∧
      (∀ o : Fin 64, offset < o.val → o.val < scanHole nd fuel offset → nd.slots o = .null) ∧
      ∀ h : scanHole nd fuel offset < 64, nd.slots ⟨scanHole nd fuel offset, h⟩ ≠ .null := by
  induction fuel generalizing offset with
  | zero => omega
  | succ fuel ih =>
    by_cases hlt : offset + 1 < 64
    · by_cases hne : nd.slots ⟨offset + 1, hlt⟩ ≠ .null
      · have he : scanHole nd (fuel + 1) offset = offset + 1 := by
          rw [scanHole, dif_pos hlt, if_pos hne]
        refine ⟨by omega, by omega, fun o h1 h2 ↦ by omega, fun h ↦ ?_⟩
        simp only [he]
        exact hne
      · have he : scanHole nd (fuel + 1) offset = scanHole nd fuel (offset + 1) := by
          rw [scanHole, dif_pos hlt, if_neg hne]
        obtain ⟨h1, h2, h3, h4⟩ := ih hlt (by omega)
        simp only [he]
        refine ⟨by omega, h2, fun o ho1 ho2 ↦ ?_, h4⟩
        by_cases heq : o.val = offset + 1
        · rw [show o = ⟨offset + 1, hlt⟩ from Fin.ext heq]
          exact not_not.mp hne
        · exact h3 o (by omega) ho2
    · have he : scanHole nd (fuel + 1) offset = offset + 1 := by
        rw [scanHole, dif_neg hlt]
      refine ⟨by omega, by omega, fun o h1 h2 ↦ by omega, fun h ↦ by omega⟩

section Hole

variable {t : Tree} {p : Nat} {nd : Node} {i : BitVec 64}

/-- The index at offset `o` of the block that holds `i`. -/
theorem toNat_blockIndex (i : BitVec 64) (nd : Node) {o : Nat} (ho : o ≤ 64) :
    ((i &&& ~~~nodeMaxindex nd) + (BitVec.ofNat 64 o <<< nd.shift)).toNat
      = (i.toNat / 2 ^ (nd.shift + 6) * 2 ^ (nd.shift + 6) + o * 2 ^ nd.shift) % 2 ^ 64 := by
  rw [nodeMaxindex, shiftMaxindex_eq, BitVec.toNat_add, Radix.toNat_and_not_lowMask,
    BitVec.toNat_shiftLeft, BitVec.toNat_ofNat, Nat.shiftLeft_eq, Nat.add_mod_mod,
    Nat.mod_eq_of_lt (show o < 2 ^ 64 by omega)]

/-- Between the offset of `i` and the next slot in use nothing is stored. -/
theorem vacant_hole (h : WF t) (hp : On t i p nd) {o : Nat} (ho : o ≤ 64)
    (hnull : ∀ k : Fin 64, (slotOffset i nd.shift).val ≤ k.val → k.val < o →
      nd.slots k = .null) :
    Vacant t i.toNat (i.toNat / 2 ^ (nd.shift + 6) * 2 ^ (nd.shift + 6) + o * 2 ^ nd.shift) := by
  intro j x hx hij
  by_contra hlt
  rw [not_le] at hlt
  have hb : j.toNat / 2 ^ (nd.shift + 6) = i.toNat / 2 ^ (nd.shift + 6) := by
    apply Nat.le_antisymm
    · rw [← Nat.lt_succ_iff, Nat.div_lt_iff_lt_mul (by positivity)]
      calc j.toNat < _ := hlt
        _ ≤ i.toNat / 2 ^ (nd.shift + 6) * 2 ^ (nd.shift + 6) + 64 * 2 ^ nd.shift := by gcongr
        _ = (i.toNat / 2 ^ (nd.shift + 6) + 1) * 2 ^ (nd.shift + 6) := by
          rw [Nat.pow_add]
          ring
    · exact Nat.div_le_div_right hij
  have hj : On t j p nd := hp.congr hb.symm
  have hlow := Radix.digit_le_of_le hb.symm hij
  have hup := Radix.digit_lt_of_lt hb hlt
  rw [← slotOffset_val, ← slotOffset_val] at hlow
  rw [← slotOffset_val] at hup
  exact h.not_holds_of_null hj (hnull _ hlow hup) x hx

end Hole

/-! ### The next chunk -/

/-- The iterator stands at the slot of a present index. -/
inductive At (t : Tree) : Iter → Slot → Prop where
  | root {x : Item} (hr : t.rnode = .item x) : At t ⟨0, 1, none⟩ .root
  | leaf {q : Nat} {nq : Node} {i next : BitVec 64} {x : Item} (hq : On t i q nq)
      (hz : nq.shift = 0) (hx : nq.slots (slotOffset i 0) = .item x)
      (hn : next = (i ||| Radix.lowMask 64 6) + 1) :
      At t ⟨i, next, some q⟩ (.node q (slotOffset i 0))

/-- How the descent for an index may end. -/
inductive Chunk (t : Tree) (i : BitVec 64) : ChunkStep → Prop where
  | null (hv : Vacant t i.toNat (2 ^ 64)) : Chunk t i .null
  | restart {j : BitVec 64} (hlt : i.toNat < j.toNat) (hv : Vacant t i.toNat j.toNat) :
      Chunk t i (.restart j)
  | found {iter : Iter} {slot : Slot} (hat : At t iter slot) (hle : i.toNat ≤ iter.index.toNat)
      (hv : Vacant t i.toNat iter.index.toNat) : Chunk t i (.found iter slot)

theorem Chunk.of_vacant {t : Tree} {i j : BitVec 64} {r : ChunkStep} (hlt : i.toNat < j.toNat)
    (hv : Vacant t i.toNat j.toNat) (h : Chunk t j r) : Chunk t i r := by
  cases h with
  | null hv' => exact .null (hv.trans hv')
  | restart hlt' hv' => exact .restart (hlt.trans hlt') (hv.trans hv')
  | found hat hle hv' => exact .found hat (hlt.le.trans hle) (hv.trans hv')

section Descent

variable {t : Tree} {p : Nat} {nd : Node} {i : BitVec 64}

/-- The state at a slot of a leaf is that of its index. -/
theorem chunkAt_leaf (p : Nat) (hz : nd.shift = 0) (i : BitVec 64) :
    chunkAt p nd (slotOffset i 0) i = ⟨i, (i ||| Radix.lowMask 64 6) + 1, some p⟩ := by
  rw [chunkAt, nodeMaxindex, shiftMaxindex_eq, hz, Nat.zero_add, Iter.mk.injEq]
  refine ⟨?_, rfl, rfl⟩
  apply BitVec.eq_of_toNat_eq
  have ho := (slotOffset i 0).isLt
  have hoff : (BitVec.ofNat 64 (slotOffset i 0).val).toNat = i.toNat % 2 ^ 6 := by
    rw [BitVec.toNat_ofNat, Nat.mod_eq_of_lt (by omega), slotOffset_val, Radix.digit, Nat.pow_zero,
      Nat.div_one]
  rw [BitVec.toNat_or, Radix.toNat_and_not_lowMask, hoff, Nat.mul_comm,
    ← Nat.two_pow_add_eq_or_of_lt (Nat.mod_lt _ (by decide))]
  exact Nat.div_add_mod _ _

/-- An index whose slot at the present node is in use: down to the child, or done at a leaf. -/
theorem chunk_of_used (h : WF t) (hp : On t i p nd) (hne : nd.slots (slotOffset i nd.shift) ≠ .null)
    {fuel : Nat} (hdown : ∀ {q : Nat} {nq : Node}, On t i q nq → nq.shift + 6 = nd.shift →
      ∃ r, chunkLoop t fuel (.node q) i = .ok r ∧ Chunk t i r) :
    ∃ r, (if nd.shift ≠ 0 ∧ (nd.slots (slotOffset i nd.shift)).isInternalNode
        then chunkLoop t fuel (nd.slots (slotOffset i nd.shift)) i
        else .ok (.found (chunkAt p nd (slotOffset i nd.shift) i)
          (.node p (slotOffset i nd.shift)))) = .ok r ∧ Chunk t i r := by
  by_cases hz : nd.shift = 0
  · rw [if_neg (fun hc ↦ hc.1 hz)]
    refine ⟨_, rfl, ?_⟩
    rw [hz] at hne ⊢
    rw [chunkAt_leaf p hz]
    cases hx : nd.slots (slotOffset i 0) with
    | null => exact absurd hx hne
    | node q => exact absurd hx (h.leaf hp.1 hz)
    | item x => exact .found (.leaf hp hz hx rfl) le_rfl (.refl t _)
  · obtain ⟨q, nq, hslot, hq, hs⟩ := h.on_child hp hz hne
    rw [hslot, if_pos ⟨hz, isInternalNode_node q⟩]
    exact hdown hq hs

/-- The first index of a slot in use. -/
theorem blockIndex_lt (h : WF t) (hp : On t i p nd) {o : Fin 64} (ho : nd.slots o ≠ .null) :
    i.toNat / 2 ^ (nd.shift + 6) * 2 ^ (nd.shift + 6) + o.val * 2 ^ nd.shift < 2 ^ 64 := by
  have hlt := o.isLt
  have hb := h.block_lt hp.1 hp.2
  by_cases hz : nd.shift = 0
  · rw [hz] at hb ⊢
    generalize i.toNat / 2 ^ (0 + 6) = b at hb ⊢
    omega
  · obtain ⟨q, nc, hslot, hq, hs, hpar, hoff⟩ := h.child hp.1 hz ho
    have hc := h.block_lt hq (.child hq hpar hp.2)
    rw [hs, hoff] at hc
    calc _ = (64 * (i.toNat / 2 ^ (nd.shift + 6)) + o.val) * 2 ^ nd.shift := by
          rw [Nat.pow_add]
          ring
      _ < 2 ^ 64 := hc

/-- The end of a block is no index only if it is the end of all indices. -/
theorem blockEnd_lt (h : WF t) (hp : On t i p nd)
    (hne : (i.toNat / 2 ^ (nd.shift + 6) * 2 ^ (nd.shift + 6) + 64 * 2 ^ nd.shift) % 2 ^ 64 ≠ 0) :
    i.toNat / 2 ^ (nd.shift + 6) * 2 ^ (nd.shift + 6) + 64 * 2 ^ nd.shift < 2 ^ 64 := by
  have hb := h.block_lt hp.1 hp.2
  have hle := h.shift_le hp.1
  obtain ⟨a, ha⟩ := h.shift_dvd hp.1
  have hend : i.toNat / 2 ^ (nd.shift + 6) * 2 ^ (nd.shift + 6) + 64 * 2 ^ nd.shift
      = (i.toNat / 2 ^ (nd.shift + 6) + 1) * 2 ^ (nd.shift + 6) := by
    rw [Nat.pow_add]
    ring
  rw [hend] at hne ⊢
  generalize i.toNat / 2 ^ (nd.shift + 6) = b at hb hne ⊢
  by_cases h60 : nd.shift = 60
  · rw [h60] at hb hne
    have hb0 : b = 0 := by omega
    rw [hb0] at hne
    exact absurd rfl hne
  · obtain ⟨c, hc⟩ := Nat.exists_eq_add_of_le (show nd.shift + 6 ≤ 64 by omega)
    have hsplit : 2 ^ 64 = 2 ^ c * 2 ^ (nd.shift + 6) := by rw [← Nat.pow_add, hc, Nat.add_comm]
    rw [hsplit] at hb hne ⊢
    have hbc : b < 2 ^ c := Nat.lt_of_mul_lt_mul_right hb
    have hne' : b + 1 ≠ 2 ^ c := by
      intro he
      rw [he, Nat.mod_self] at hne
      exact hne rfl
    exact Nat.mul_lt_mul_of_pos_right (by omega) (by positivity)

/-- A hole: over it to the next slot in use, or out of the node. -/
inductive Passed (t : Tree) (i : BitVec 64) (p : Nat) (nd : Node) :
    ChunkStep ⊕ (Fin 64 × BitVec 64) → Prop where
  | ended {r : ChunkStep} (hc : Chunk t i r) : Passed t i p nd (.inl r)
  | next {j : BitVec 64} (hj : On t j p nd) (hne : nd.slots (slotOffset j nd.shift) ≠ .null)
      (hlt : i.toNat < j.toNat) (hv : Vacant t i.toNat j.toNat) :
      Passed t i p nd (.inr (slotOffset j nd.shift, j))

theorem passHole_spec (h : WF t) (hp : On t i p nd)
    (hnull : nd.slots (slotOffset i nd.shift) = .null) :
    Passed t i p nd (passHole nd (slotOffset i nd.shift) i) := by
  obtain ⟨hlow, hhigh, hbetween, hstop⟩ :=
    scanHole_spec nd 64 (slotOffset i nd.shift).isLt (by omega)
  have hval := toNat_blockIndex i nd hhigh
  rw [passHole]
  generalize scanHole nd 64 (slotOffset i nd.shift) = o at hlow hhigh hbetween hstop hval ⊢
  generalize (i &&& ~~~nodeMaxindex nd) + (BitVec.ofNat 64 o <<< nd.shift) = j at hval ⊢
  have hv := vacant_hole h hp hhigh (fun k h1 h2 ↦ by
    rcases Nat.eq_or_lt_of_le h1 with he | hgt
    · rw [show k = slotOffset i nd.shift from Fin.ext he.symm, hnull]
    · exact hbetween k hgt h2)
  -- the new index is past the old one
  have hgt : i.toNat < i.toNat / 2 ^ (nd.shift + 6) * 2 ^ (nd.shift + 6) + o * 2 ^ nd.shift := by
    have hdig := div_eq_offset i nd.shift
    have hsplit : i.toNat / 2 ^ (nd.shift + 6) * 2 ^ (nd.shift + 6) + o * 2 ^ nd.shift
        = (64 * (i.toNat / 2 ^ (nd.shift + 6)) + o) * 2 ^ nd.shift := by
      rw [Nat.pow_add]
      ring
    rw [hsplit, ← Nat.div_lt_iff_lt_mul (by positivity), hdig]
    omega
  by_cases hj0 : j = 0
  · rw [if_pos hj0]
    refine .ended (.null (fun k x hx hik ↦ ?_))
    rw [hj0] at hval
    have hle := hv k x hx hik
    have hval' : (i.toNat / 2 ^ (nd.shift + 6) * 2 ^ (nd.shift + 6) + o * 2 ^ nd.shift) % 2 ^ 64
        = 0 := hval.symm
    omega
  · rw [if_neg hj0]
    have hne : (i.toNat / 2 ^ (nd.shift + 6) * 2 ^ (nd.shift + 6) + o * 2 ^ nd.shift) % 2 ^ 64
        ≠ 0 := by
      rw [← hval]
      exact fun hz ↦ hj0 (BitVec.eq_of_toNat_eq hz)
    by_cases ho : o < 64
    · rw [dif_pos ho, if_neg (hstop ho)]
      have hlt : i.toNat / 2 ^ (nd.shift + 6) * 2 ^ (nd.shift + 6) + o * 2 ^ nd.shift < 2 ^ 64 :=
        blockIndex_lt h hp (hstop ho)
      rw [Nat.mod_eq_of_lt hlt] at hval
      have hblock : j.toNat / 2 ^ (nd.shift + 6) = i.toNat / 2 ^ (nd.shift + 6) := by
        rw [hval]
        exact Radix.mul_div_two_pow_add (d := 6) ho
      have hoff : slotOffset j nd.shift = ⟨o, ho⟩ := by
        apply Fin.ext
        rw [slotOffset_val, hval]
        exact Radix.digit_mul_add (d := 6) ho
      rw [← hoff]
      exact .next (hp.congr hblock.symm) (by rw [hoff]; exact hstop ho) (by omega)
        (by rw [hval]; exact hv)
    · rw [dif_neg ho]
      obtain rfl : o = 64 := by omega
      rw [Nat.mod_eq_of_lt (blockEnd_lt h hp hne)] at hval
      exact .ended (.restart (by omega) (by rw [hval]; exact hv))

theorem chunkLoop_node (hp : t.node p = some nd) (fuel : Nat) (i : BitVec 64) :
    chunkLoop t (fuel + 1) (.node p) i =
      match (if nd.slots (slotOffset i nd.shift) = .null then passHole nd (slotOffset i nd.shift) i
        else .inr (slotOffset i nd.shift, i)) with
      | .inl r => .ok r
      | .inr (offset, index) =>
        if nd.shift ≠ 0 ∧ (nd.slots offset).isInternalNode
        then chunkLoop t fuel (nd.slots offset) index
        else .ok (.found (chunkAt p nd offset index) (.node p offset)) := by
  rw [chunkLoop, entryToNode, Fault.ok_bind, Tree.read_eq hp, Fault.ok_bind]
  rfl

/-- Induction on the level of the present node. -/
theorem chunkLoop_spec (h : WF t) (fuel : Nat) (hp : On t i p nd) (hfuel : nd.shift < 6 * fuel) :
    ∃ r, chunkLoop t fuel (.node p) i = .ok r ∧ Chunk t i r := by
  induction fuel generalizing i p nd with
  | zero => omega
  | succ fuel ih =>
    rw [chunkLoop_node hp.1]
    by_cases hnull : nd.slots (slotOffset i nd.shift) = .null
    · rw [if_pos hnull]
      have hpass := passHole_spec h hp hnull
      generalize passHole nd (slotOffset i nd.shift) i = pos at hpass
      cases hpass with
      | ended hc => exact ⟨_, rfl, hc⟩
      | next hj hne hlt hv =>
        obtain ⟨r, hr, hc⟩ := chunk_of_used h hj hne (fun hq hs ↦ ih hq (by omega))
        exact ⟨r, hr, hc.of_vacant hlt hv⟩
    · rw [if_neg hnull]
      exact chunk_of_used h hp hnull (fun hq hs ↦ ih hq (by omega))

end Descent

end Jeopardy.RadixTree
