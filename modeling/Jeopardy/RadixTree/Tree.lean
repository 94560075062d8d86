import Jeopardy.RadixTree.Node

/-!
# Operations of the radix tree

Model of `radix_tree_extend`, `__radix_tree_create`, `radix_tree_insert`,
`__radix_tree_lookup`, `delete_node`, `radix_tree_shrink` and the deletion functions in
`radix_tree/radix-tree.c`. Each loop takes one unit of fuel a round; the tree has at most
`LEVELS` levels.
-/

namespace Jeopardy.RadixTree

/-- The number of levels that 64-bit indices can need. -/
def LEVELS : Nat := 11

/-! ### Growing -/

/-- The loop at `radix_tree/radix-tree.c:216–218`. -/
def growShift (index : BitVec 64) : Nat → Nat → Except Fault Nat
  | 0, _ => .error .diverges
  | fuel + 1, maxshift =>
    if index > shiftMaxindex maxshift then growShift index fuel (maxshift + MAP_SHIFT)
    else .ok maxshift

/-- The loop at `radix_tree/radix-tree.c:226–241`. The answer is `none` for `-ENOMEM`. -/
def extendLoop (maxshift : Nat) :
    Nat → Tree → Entry → Nat → Except Fault (Tree × Option Nat)
  | 0, _, _, _ => .error .diverges
  | fuel + 1, t, entry, shift =>
    match radixTreeNodeAlloc t none shift 0 1 0 with
    | (t, none) => return (t, none)
    | (t, some node) => do
      let t ← t.setParent entry (some node)
      let t ← t.store (.node node 0) entry
      let entry := nodeToEntry node
      let t ← t.store .root entry
      let shift := shift + MAP_SHIFT
      if shift ≤ maxshift then extendLoop maxshift fuel t entry shift
      else return (t, some (maxshift + MAP_SHIFT))

/-- `radix_tree_extend`, `radix_tree/radix-tree.c:208–244`: the new shift, or `none` for
`-ENOMEM`. -/
def radixTreeExtend (t : Tree) (index : BitVec 64) (shift : Nat) :
    Except Fault (Tree × Option Nat) := do
  let maxshift ← growShift index LEVELS shift
  let entry := t.rnode
  if entry = .null then return (t, some (maxshift + MAP_SHIFT))
  else extendLoop maxshift LEVELS t entry shift

/-! ### Inserting -/

/-- The missing child of `__radix_tree_create`, `radix_tree/radix-tree.c:374–383`. -/
def createChild (t : Tree) (node : Option Nat) (slot : Slot) (shift : Nat) (offset : Fin 64) :
    Except Fault (Tree × Option Nat) :=
  match radixTreeNodeAlloc t node shift offset 0 0 with
  | (t, none) => return (t, none)
  | (t, some child) => do
    let t ← t.store slot (nodeToEntry child)
    match node with
    | none => return (t, some child)
    | some node =>
      let t ← t.modify node (fun nd ↦ { nd with count := nd.count + 1 })
      return (t, some child)

/-- The loop at `radix_tree/radix-tree.c:372–389`: node and slot, or `none` for `-ENOMEM`. -/
def createLoop (index : BitVec 64) :
    Nat → Tree → Option Nat → Slot → Entry → Nat → Fin 64 →
      Except Fault (Tree × Option (Option Nat × Slot))
  | 0, _, _, _, _, _, _ => .error .diverges
  | fuel + 1, t, node, slot, child, shift, offset =>
    if shift = 0 then return (t, some (node, slot))
    else do
      let shift := shift - MAP_SHIFT
      let (t, child) ← (if child = .null then createChild t node slot shift offset
        else do return (t, some (← entryToNode child)))
      match child with
      | none => return (t, none)
      | some node => do
        -- go a level down
        let nd ← t.read node
        let (offset, child) := radixTreeDescend nd index
        createLoop index fuel t (some node) (.node node offset) child shift offset

/-- `__radix_tree_create`, `radix_tree/radix-tree.c:347–396`. -/
def rawRadixTreeCreate (t : Tree) (index : BitVec 64) :
    Except Fault (Tree × Option (Option Nat × Slot)) := do
  let (child, maxindex, shift) ← radixTreeLoadRoot t
  if index > maxindex then
    match ← radixTreeExtend t index shift with
    | (t, none) => return (t, none)
    | (t, some shift) => createLoop index (LEVELS + 1) t none .root t.rnode shift 0
  else createLoop index (LEVELS + 1) t none .root child shift 0

/-- `insert_entries`, `radix_tree/radix-tree.c:399–412`. -/
def insertEntries (t : Tree) (node : Option Nat) (slot : Slot) (item : Entry) :
    Except Fault (Tree × Int) := do
  if (← t.load slot) ≠ .null then return (t, -EEXIST)
  else
    let t ← t.store slot item
    match node with
    | none => return (t, 1)
    | some node =>
      let t ← t.modify node (fun nd ↦ { nd with
        count := nd.count + 1
        nr_values := if xaIsValue item then nd.nr_values + 1 else nd.nr_values })
      return (t, 1)

/-- `radix_tree_insert`, `radix_tree/radix-tree.c:422–443`. -/
def radixTreeInsert (t : Tree) (index : BitVec 64) (item : Item) : Except Fault (Tree × Int) := do
  match ← rawRadixTreeCreate t index with
  | (t, none) => return (t, -ENOMEM)
  | (t, some (node, slot)) =>
    let (t, error) ← insertEntries t node slot (.item item)
    if error < 0 then return (t, error) else return (t, 0)

/-! ### Looking up -/

/-- The loop at `radix_tree/radix-tree.c:475–485`: the entry, its node and its slot. -/
def lookupLoop (t : Tree) (index : BitVec 64) :
    Nat → Entry → Option Nat → Slot → Except Fault (Entry × Option Nat × Slot)
  | 0, _, _, _ => .error .diverges
  | fuel + 1, node, parent, slot =>
    if node.isInternalNode then do
      let parent ← entryToNode node
      let nd ← t.read parent
      let (offset, node) := radixTreeDescend nd index
      if nd.shift = 0 then return (node, some parent, .node parent offset)
      else lookupLoop t index fuel node (some parent) (.node parent offset)
    else return (node, parent, slot)

/-- `__radix_tree_lookup`, `radix_tree/radix-tree.c:460–492`. An index beyond the largest one
leaves `*nodep` and `*slotp` as they were, here `none`. -/
def rawRadixTreeLookup (t : Tree) (index : BitVec 64) :
    Except Fault (Entry × Option (Option Nat × Slot)) := do
  let (node, maxindex, _) ← radixTreeLoadRoot t
  if index > maxindex then return (.null, none)
  else
    let (node, parent, slot) ← lookupLoop t index (LEVELS + 1) node none .root
    return (node, some (parent, slot))

/-- `radix_tree_lookup_slot`, `radix_tree/radix-tree.c:507–515`. The local `slot` is read only
after a lookup that has set it. -/
def radixTreeLookupSlot (t : Tree) (index : BitVec 64) : Except Fault (Option Slot) := do
  let (entry, out) ← rawRadixTreeLookup t index
  if entry = .null then return none
  else
    match out with
    | none => .error .uninitialized
    | some (_, slot) => return some slot

/-- `radix_tree_lookup`, `radix_tree/radix-tree.c:517–520`. -/
def radixTreeLookup (t : Tree) (index : BitVec 64) : Except Fault Entry := do
  let (entry, _) ← rawRadixTreeLookup t index
  return entry

/-! ### Deleting -/

/-- `replace_slot`, `radix_tree/radix-tree.c:522–532`. The counters are unsigned. -/
def replaceSlot (t : Tree) (slot : Slot) (item : Entry) (node : Option Nat) (count values : Int) :
    Except Fault Tree := do
  let t ← (match node with
    | none => return t
    | some node =>
      if count ≠ 0 ∨ values ≠ 0 then t.modify node (fun nd ↦ { nd with
        count := nd.count + BitVec.ofInt 32 count
        nr_values := nd.nr_values + BitVec.ofInt 32 values })
      else return t)
  t.store slot item

/-- `radix_tree_shrink`, `radix_tree/radix-tree.c:250–293`. -/
def radixTreeShrink : Nat → Tree → Bool → Except Fault (Tree × Bool)
  | 0, _, _ => .error .diverges
  | fuel + 1, t, shrunk =>
    if t.rnode.isInternalNode then do
      let node ← entryToNode t.rnode
      let nd ← t.read node
      let child := nd.slots 0
      if nd.count ≠ 1 ∨ child = .null ∨ nd.shift = 0 then return (t, shrunk)
      else
        let t ← (if child.isInternalNode then t.setParent child none else return t)
        let t ← t.store .root child
        let t ← t.modify node (fun nd ↦ { nd with count := 0 })
        let t ← t.free node
        radixTreeShrink fuel t true
    else return (t, shrunk)

/-- `delete_node`, `radix_tree/radix-tree.c:296–329`. -/
def deleteNode : Nat → Tree → Nat → Bool → Except Fault (Tree × Bool)
  | 0, _, _, _ => .error .diverges
  | fuel + 1, t, node, deleted => do
    let nd ← t.read node
    if nd.count ≠ 0 then
      if nodeToEntry node = t.rnode then
        let (t, shrunk) ← radixTreeShrink LEVELS t false
        return (t, deleted || shrunk)
      else return (t, deleted)
    else
      match nd.parent with
      | some parent =>
        let t ← t.modify parent (fun np ↦ { np with
          slots := Function.update np.slots nd.offset .null
          count := np.count - 1 })
        let t ← t.free node
        deleteNode fuel t parent true
      | none =>
        let t ← t.store .root .null
        let t ← t.free node
        return (t, true)

/-- `__radix_tree_delete`, `radix_tree/radix-tree.c:750–766`. -/
def rawRadixTreeDelete (t : Tree) (node : Option Nat) (slot : Slot) :
    Except Fault (Tree × Bool) := do
  let old ← t.load slot
  let values : Int := if xaIsValue old then -1 else 0
  let t ← replaceSlot t slot .null node (-1) values
  match node with
  | none => return (t, false)
  | some node => deleteNode LEVELS t node false

/-- `radix_tree_delete_item`, `radix_tree/radix-tree.c:799–821`. No expected item stands for
`NULL`. -/
def radixTreeDeleteItem (t : Tree) (index : BitVec 64) (item : Option Item) :
    Except Fault (Tree × Entry) := do
  let (entry, out) ← rawRadixTreeLookup t index
  match out with
  | none => return (t, .null)
  | some (node, slot) =>
    match item with
    | some item =>
      if entry ≠ .item item then return (t, .null)
      else
        let (t, _) ← rawRadixTreeDelete t node slot
        return (t, entry)
    | none =>
      let (t, _) ← rawRadixTreeDelete t node slot
      return (t, entry)

/-- `radix_tree_delete`, `radix_tree/radix-tree.c:832–835`. -/
def radixTreeDelete (t : Tree) (index : BitVec 64) : Except Fault (Tree × Entry) :=
  radixTreeDeleteItem t index none

end Jeopardy.RadixTree
