import Jeopardy.Hotring.Hash

/-!
# Rehash

Model of `hotring_delete_head`, `hotring_rehash_init`, `hotring_rehash` and `display` in
`hotring/hotring.c`. A rehash links two milestone nodes into every ring, finds them again
by key, cuts the ring at their predecessors, and takes the milestones out.
-/

namespace Jeopardy.Hotring

/-- Store to `h->slots[index]`. -/
def Hash.store (h : Hash) (index : Nat) (v : Option Head) : Except Fault Hash :=
  if index < h.size then .ok (h.setSlot index v) else .error .outOfBounds

/-- `hotring_delete_head`, `hotring/hotring.c:386–423`. The test for a single node compares
the whole link word with the address; `prev` is unset when the loop has no round. -/
def hotringDeleteHead (m : Mem) (h : Hash) (index : Nat) : Except Fault (Mem × Hash × Bool) := do
  match ← h.slot index with
  | none => .error .nullDeref
  | some head =>
    let headNode ← m.read head.addr
    if headNode.list = .ofPtr head.addr then
      let m ← hotringNodeFree m head.addr
      let h ← hotringHeadFreeByIndex h index
      return (m, h, true)
    else
      let h ← h.store index (some (.ofPtr headNode.list.addr))
      let (m, prev) ← listForEach (fun m p _ ↦ .ok (.yield (m, some p))) m head.addr none
      match prev with
      | none => .error .uninitialized
      | some prev =>
        let m ← listDel m prev head.addr
        let m ← hotringNodeFree m head.addr
        return (m, h, true)

/-- `i << hash_tag_bits` as an `unsigned long`: the `int` shift wraps around, and the
conversion extends the sign. -/
def milestone (i hash_tag_bits : Nat) : Nat :=
  ((BitVec.ofNat 32 i <<< hash_tag_bits).signExtend 64).toNat

/-- `(i << hash_tag_bits) + halfTag` on `unsigned long`. -/
def milestoneHalf (i hash_tag_bits halfTag : Nat) : Nat :=
  (milestone i hash_tag_bits + halfTag) % 2 ^ 64

/-- `(unsigned long)1 << (hash_tag_bits - 1)`; for no tag bits the shift count is negative. -/
def halfTagOf (hash_tag_bits : Nat) : Except Fault Nat :=
  if hash_tag_bits = 0 then .error .badShift else ulShl (hash_tag_bits - 1)

/-- One round of the loop of `hotring_rehash_init`, `hotring/hotring.c:470–486`. -/
def rehashInitStep (hash_tag_bits halfTag : Nat) (s : Mem × Hash × Hash) (i : Nat) :
    Except Fault (Mem × Hash × Hash) := do
  let (m, h, new) := s
  match ← h.slot i with
  | none => return (m, h, new)
  | some _ =>
    -- insert tag T/2 node
    let (m, h, node) ← rawHashCreate m h i halfTag
    let (m, _) ← insertEntries m node (milestoneHalf i hash_tag_bits halfTag) halfTag 0
    let new ← new.store (i * 2 + 1) (some (.ofPtr node))
    -- insert tag 0 node
    let (m, h, node) ← rawHashCreate m h i 0
    let (m, _) ← insertEntries m node (milestone i hash_tag_bits) 0 0
    let new ← new.store (i * 2) (some (.ofPtr node))
    return (m, h, new)

/-- `hotring_rehash_init`, `hotring/hotring.c:451–489`. Answers the memory, the old table
and the new one. -/
def hotringRehashInit (m : Mem) (h : Hash) : Except Fault (Mem × Hash × Hash) := do
  let hash_tag_bits := ulSub h.n h.k
  let _ ← ulShl hash_tag_bits
  let halfTag ← halfTagOf hash_tag_bits
  let new ← hashAlloc NBITS (h.k + 1)
  (List.range h.size).foldlM (rehashInitStep hash_tag_bits halfTag) (m, h, new)

/-- `p->list.next = &q->list`: the whole link word is overwritten. -/
def storeNext (m : Mem) (p q : Nat) : Except Fault Mem :=
  m.modify p (fun nd ↦ { nd with list := .ofPtr q })

/-- One round of the split loop of `hotring_rehash`, `hotring/hotring.c:507–514`. A search
that fails leaves its tail pointer `NULL`, so the round ends in a null dereference. -/
def rehashSplitStep (hash_tag_bits halfTag : Nat) (s : Mem × Hash) (i : Nat) :
    Except Fault (Mem × Hash) := do
  let (m, h) := s
  match ← h.slot i with
  | none => return (m, h)
  | some _ =>
    let (m, h, r1) ← rawHashGet m h (milestone i hash_tag_bits)
    let (m, h, r2) ← rawHashGet m h (milestoneHalf i hash_tag_bits halfTag)
    match r1.node, r2.node with
    | some ring1_head, some ring2_head =>
      let m ← storeNext m r2.prev ring1_head
      let m ← storeNext m r1.prev ring2_head
      return (m, h)
    | _, _ => .error .nullDeref

/-- One round of the deletion loop of `hotring_rehash`, `hotring/hotring.c:517–521`. -/
def rehashDeleteStep (s : Mem × Hash) (i : Nat) : Except Fault (Mem × Hash) := do
  let (m, new) := s
  match ← new.slot i with
  | none => return (m, new)
  | some _ =>
    let (m, new, _) ← hotringDeleteHead m new i
    return (m, new)

/-- One round of `display`, `hotring/hotring.c:534–546`, as far as it touches memory: the
ring of a slot is walked once around whatever the verbosity. -/
def displayStep (h : Hash) (m : Mem) (i : Nat) : Except Fault Mem := do
  match ← h.slot i with
  | none => return m
  | some head =>
    let (m, _) ← listForEach (fun m _ (_ : Unit) ↦ .ok (.yield (m, ()))) m head.addr ()
    return m

/-- `display`, `hotring/hotring.c:528–548`. -/
def display (m : Mem) (h : Hash) : Except Fault Mem :=
  (List.range h.size).foldlM (displayStep h) m

/-- `hotring_rehash`, `hotring/hotring.c:492–526`. Answers the memory and the new table. -/
def hotringRehash (m : Mem) (h : Hash) : Except Fault (Mem × Hash) := do
  let (m, h, new) ← hotringRehashInit m h
  let hash_tag_bits := ulSub h.n h.k
  let halfTag ← halfTagOf hash_tag_bits
  let (m, _) ← (List.range h.size).foldlM (rehashSplitStep hash_tag_bits halfTag) (m, h)
  let (m, new) ← (List.range new.size).foldlM rehashDeleteStep (m, new)
  let m ← display m new
  return (m, new)

end Jeopardy.Hotring
