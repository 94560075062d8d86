import Jeopardy.RadixTree.Iterate
import Jeopardy.RadixTree.Standing

/-!
# Loops whose body changes the tree

The loop `radix_tree_for_each_slot` of `radix_tree/radix-tree.h` around a body that may change the
tree, the slot pointer and the iterator. Each round takes a unit of fuel.
-/

namespace Jeopardy.RadixTree

/-- `radix_tree_next_slot`, `radix_tree/radix-tree.h:292–335`, for a slot pointer that the body
may have set to `NULL`. -/
def radixTreeNextSlotOf (t : Tree) (slot : Option Slot) (iter : Iter) :
    Except Fault (Iter × Option Slot) :=
  match slot with
  | some slot => radixTreeNextSlot t slot iter
  | none => if 1 < radixTreeChunkSize iter then .error .nullDeref else .ok (iter, none)

/-- The loop `radix_tree_for_each_slot`, `radix_tree/radix-tree.h:348–351`, around `body`: the
tree it leaves, and `iter.index` and `*slot` at each visit. -/
def eachSlotLoop (body : Tree → Slot → Iter → Except Fault (Tree × Option Slot × Iter))
    (restarts : Nat) :
    Nat → Tree → Option Slot → Iter → Except Fault (Tree × List (BitVec 64 × Entry))
  | 0, _, _, _ => .error .diverges
  | fuel + 1, t, slot, iter => do
    let (iter, slot) ← (match slot with
      | some slot => return (iter, some slot)
      | none => radixTreeNextChunk t restarts iter)
    match slot with
    | none => return (t, [])
    | some slot =>
      let entry ← t.load slot
      let (t, slot', iter') ← body t slot iter
      let (iter', slot') ← radixTreeNextSlotOf t slot' iter'
      let (t, visits) ← eachSlotLoop body restarts fuel t slot' iter'
      return (t, (iter.index, entry) :: visits)

section Loop

variable {body : Tree → Slot → Iter → Except Fault (Tree × Option Slot × Iter)} {restarts : Nat}
  {t : Tree} {iter iter' : Iter}

/-- Between two chunks. -/
theorem eachSlotLoop_none (fuel : Nat) :
    eachSlotLoop body restarts (fuel + 1) t none iter = (do
      let (iter, slot) ← radixTreeNextChunk t restarts iter
      match slot with
      | none => return (t, [])
      | some slot => eachSlotLoop body restarts (fuel + 1) t (some slot) iter) := rfl

theorem eachSlotLoop_end (fuel : Nat)
    (hchunk : radixTreeNextChunk t restarts iter = .ok (iter', none)) :
    eachSlotLoop body restarts (fuel + 1) t none iter = .ok (t, []) := by
  rw [eachSlotLoop_none, hchunk]
  rfl

theorem eachSlotLoop_chunk {slot : Slot} (fuel : Nat)
    (hchunk : radixTreeNextChunk t restarts iter = .ok (iter', some slot)) :
    eachSlotLoop body restarts (fuel + 1) t none iter
      = eachSlotLoop body restarts (fuel + 1) t (some slot) iter' := by
  rw [eachSlotLoop_none, hchunk]
  rfl

/-- At a slot: the visit, the body, the step to the next slot, and the rest. -/
theorem eachSlotLoop_some (slot : Slot) (fuel : Nat) :
    eachSlotLoop body restarts (fuel + 1) t (some slot) iter = (do
      let entry ← t.load slot
      let (t, slot', iter') ← body t slot iter
      let (iter', slot') ← radixTreeNextSlotOf t slot' iter'
      let (t, visits) ← eachSlotLoop body restarts fuel t slot' iter'
      return (t, (iter.index, entry) :: visits)) := rfl

/-- A body that changes nothing gives the plain loop. -/
theorem eachSlotLoop_pure (fuel : Nat) (slot : Option Slot) :
    eachSlotLoop (fun t slot iter ↦ .ok (t, some slot, iter)) restarts fuel t slot iter
      = (do return (t, ← forEachLoop t restarts fuel slot iter)) := by
  induction fuel generalizing slot iter with
  | zero => rfl
  | succ fuel ih =>
    have hsome : ∀ (slot : Slot) (iter : Iter),
        eachSlotLoop (fun t slot iter ↦ .ok (t, some slot, iter)) restarts (fuel + 1) t (some slot)
          iter = (do return (t, ← forEachLoop t restarts (fuel + 1) (some slot) iter)) := by
      intro slot iter
      rw [eachSlotLoop_some]
      change _ = (do
        let visits ← (do
          let entry ← t.load slot
          let (iter', slot') ← radixTreeNextSlot t slot iter
          let visits ← forEachLoop t restarts fuel slot' iter'
          return (iter.index, entry) :: visits)
        return (t, visits))
      cases t.load slot with
      | error e => rfl
      | ok entry =>
        simp only [Fault.ok_bind, radixTreeNextSlotOf]
        cases radixTreeNextSlot t slot iter with
        | error e => rfl
        | ok out =>
          simp only [Fault.ok_bind, ih]
          cases forEachLoop t restarts fuel out.2 out.1 <;> rfl
    cases slot with
    | some slot => exact hsome slot iter
    | none =>
      rw [eachSlotLoop_none]
      cases hchunk : radixTreeNextChunk t restarts iter with
      | error e => rw [forEachLoop_none, hchunk]; rfl
      | ok out =>
        obtain ⟨iter', slot'⟩ := out
        cases slot' with
        | none => rw [forEachLoop_none, hchunk]; rfl
        | some slot' =>
          rw [forEachLoop_none, hchunk]
          exact hsome slot' iter'

/-- Over an empty tree the loop ends at once. -/
theorem eachSlotLoop_empty (h : WF t) (hempty : ∀ i x, ¬ Holds t i x)
    (hrestarts : 2 ^ 64 ≤ restarts) (fuel : Nat) {b : Nat} (hp : Pending iter b) :
    eachSlotLoop body restarts (fuel + 1) t none iter = .ok (t, []) := by
  obtain ⟨iter', slot', hchunk, hre⟩ := radixTreeNextChunk_spec h hrestarts hp
  cases slot' with
  | none => exact eachSlotLoop_end fuel hchunk
  | some slot' =>
    cases hre with
    | some hat hle hv =>
      obtain ⟨x, -, hx⟩ := hat.load_eq
      exact absurd hx (hempty _ x)

/-- On a stuck tree the loop fails at once. -/
theorem eachSlotLoop_stuck {x : Item} (hr : t.rnode = .item x) (hx : x.tagged = true)
    (hrestarts : 0 < restarts) (fuel : Nat) (start : BitVec 64) :
    eachSlotLoop body restarts (fuel + 1) t none (radixTreeIterInit start)
      = .error .badPointer := by
  obtain ⟨n, rfl⟩ := Nat.exists_eq_add_of_le' hrestarts
  rw [eachSlotLoop_none, radixTreeNextChunk, if_neg (fun hc ↦ hc.2 rfl), restartLoop,
    radixTreeLoadRoot_stuck hr hx]
  rfl

end Loop

end Jeopardy.RadixTree
