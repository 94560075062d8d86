import Jeopardy.Base.Fault
import Jeopardy.Lib.Radix
import Jeopardy.Lib.Slots

/-!
# Nodes, entries and slots of the radix tree

The data of `radix_tree/radix-tree.h` and the accesses that `radix_tree/radix-tree.c` makes
to it. Nodes live at addresses and are found through entries, which carry a tag in their
low two bits. Items are opaque words; the object behind an item is no part of the tree, and
a store that reaches it is recorded.
-/

namespace Jeopardy.RadixTree

/-- `ENOMEM` and `EEXIST`, `radix_tree/error.h:12,17`. -/
def ENOMEM : Int := 12

def EEXIST : Int := 17

/-- `RADIX_TREE_MAP_SHIFT`, `radix_tree/radix-tree.h:66`. -/
def MAP_SHIFT : Nat := 6

/-- A non-`NULL` word that is not the entry of one of the tree's nodes. -/
structure Item where
  word : BitVec 64
  ne_zero : word ≠ 0
deriving DecidableEq

/-- The content of a slot. `node p` is `node_to_entry` of the node at `p`. -/
inductive Entry where
  | null
  | item (x : Item)
  | node (p : Nat)
deriving DecidableEq

/-- The low two bits of the word are `RADIX_TREE_INTERNAL_NODE`. -/
def Item.tagged (x : Item) : Bool := x.word &&& 3 == 2

/-- `radix_tree_is_internal_node`, `radix_tree/radix-tree.h:36–40`. -/
def Entry.isInternalNode : Entry → Bool
  | .null => false
  | .item x => x.tagged
  | .node _ => true

@[simp] theorem isInternalNode_null : Entry.null.isInternalNode = false := rfl

@[simp] theorem isInternalNode_item (x : Item) : (Entry.item x).isInternalNode = x.tagged := rfl

@[simp] theorem isInternalNode_node (p : Nat) : (Entry.node p).isInternalNode = true := rfl

/-- `xa_is_value`, `radix_tree/radix-tree.h:61–64`. Node addresses are even. -/
def xaIsValue : Entry → Bool
  | .item x => x.word &&& 1 == 1
  | _ => false

/-- A node has slots, so `0` is the offset of one. -/
instance slotsNeZero : NeZero 64 := ⟨by decide⟩

/-- `struct radix_tree_node`, `radix_tree/radix-tree.h:103–114`, without the fields for tags
and deferred freeing, which nothing reads. -/
structure Node where
  count : BitVec 32
  shift : Nat
  offset : Fin 64
  nr_values : BitVec 32
  parent : Option Nat
  slots : Fin 64 → Entry

/-- A tree with its memory: the allocated nodes, the number of `calloc` calls so far, which of
the calls fail, the root pointer, and the items whose object a store has hit. The `n`-th
allocation, if it succeeds, is at address `n`. -/
structure Tree where
  node : Nat → Option Node
  next : Nat
  oom : Nat → Bool
  rnode : Entry
  itemStores : List Item

/-- A pointer to a slot: `&root->rnode` or `&node->slots[o]`. -/
inductive Slot where
  | root
  | node (p : Nat) (o : Fin 64)
deriving DecidableEq

/-- `entry_to_node`, `radix_tree/radix-tree.c:18–21`, where the result is read through. -/
def entryToNode : Entry → Except Fault Nat
  | .null => .error .nullDeref
  | .item _ => .error .badPointer
  | .node p => .ok p

/-- `node_to_entry`, `radix_tree/radix-tree.c:23–26`. -/
def nodeToEntry (p : Nat) : Entry := .node p

namespace Tree

/-- Load of a whole node. -/
def read (t : Tree) (p : Nat) : Except Fault Node :=
  match t.node p with
  | none => .error .badPointer
  | some nd => .ok nd

/-- The tree with the node at `p` replaced. -/
def setNode (t : Tree) (p : Nat) (nd : Option Node) : Tree :=
  { t with node := Function.update t.node p nd }

/-- Store to fields of an allocated node. -/
def modify (t : Tree) (p : Nat) (f : Node → Node) : Except Fault Tree := do
  let nd ← t.read p
  return t.setNode p (some (f nd))

/-- Load through a slot pointer. -/
def load (t : Tree) : Slot → Except Fault Entry
  | .root => .ok t.rnode
  | .node p o => do
    let nd ← t.read p
    return nd.slots o

/-- Store through a slot pointer. -/
def store (t : Tree) (slot : Slot) (e : Entry) : Except Fault Tree :=
  match slot with
  | .root => .ok { t with rnode := e }
  | .node p o => t.modify p (fun nd ↦ { nd with slots := Function.update nd.slots o e })

/-- `entry_to_node(entry)->parent = parent`. For an entry that is no node this writes into the
object of the item. -/
def setParent (t : Tree) (entry : Entry) (parent : Option Nat) : Except Fault Tree :=
  match entry with
  | .null => .error .nullDeref
  | .item x => .ok { t with itemStores := x :: t.itemStores }
  | .node p => t.modify p (fun nd ↦ { nd with parent := parent })

/-- `radix_tree_node_free`, `radix_tree/radix-tree.c:169–175`. The memory is given back after
a grace period; nothing may use it from here on. -/
def free (t : Tree) (p : Nat) : Except Fault Tree := do
  let _ ← t.read p
  return t.setNode p none

variable {t : Tree} {p : Nat} {nd : Node}

theorem read_eq (hp : t.node p = some nd) : t.read p = .ok nd := by rw [read, hp]

theorem modify_eq (hp : t.node p = some nd) (f : Node → Node) :
    t.modify p f = .ok (t.setNode p (some (f nd))) := by
  rw [modify, read_eq hp]
  rfl

theorem load_eq (hp : t.node p = some nd) (o : Fin 64) : t.load (.node p o) = .ok (nd.slots o) := by
  rw [load, read_eq hp]
  rfl

theorem store_eq (hp : t.node p = some nd) (o : Fin 64) (e : Entry) :
    t.store (.node p o) e
      = .ok (t.setNode p (some { nd with slots := Function.update nd.slots o e })) :=
  modify_eq hp _

theorem free_eq (hp : t.node p = some nd) : t.free p = .ok (t.setNode p none) := by
  rw [free, read_eq hp]
  rfl

@[simp] theorem setNode_self (t : Tree) (p : Nat) (nd : Option Node) :
    (t.setNode p nd).node p = nd := Function.update_self _ _ _

theorem setNode_of_ne {q : Nat} (h : q ≠ p) (nd : Option Node) :
    (t.setNode p nd).node q = t.node q := Function.update_of_ne h _ _

theorem setNode_node (t : Tree) (p q : Nat) (nd : Option Node) :
    (t.setNode p nd).node q = if q = p then nd else t.node q := by
  by_cases h : q = p
  · rw [h, setNode_self, if_pos rfl]
  · rw [setNode_of_ne h, if_neg h]

@[simp] theorem setNode_next (t : Tree) (p : Nat) (nd : Option Node) :
    (t.setNode p nd).next = t.next := rfl

@[simp] theorem setNode_oom (t : Tree) (p : Nat) (nd : Option Node) :
    (t.setNode p nd).oom = t.oom := rfl

@[simp] theorem setNode_rnode (t : Tree) (p : Nat) (nd : Option Node) :
    (t.setNode p nd).rnode = t.rnode := rfl

@[simp] theorem setNode_itemStores (t : Tree) (p : Nat) (nd : Option Node) :
    (t.setNode p nd).itemStores = t.itemStores := rfl

theorem setNode_setNode (t : Tree) (p : Nat) (nd nd' : Option Node) :
    (t.setNode p nd).setNode p nd' = t.setNode p nd' := by
  simp only [setNode, Function.update_idem]

end Tree

/-- `radix_tree_node_alloc`, `radix_tree/radix-tree.c:112–133`. -/
def radixTreeNodeAlloc (t : Tree) (parent : Option Nat) (shift : Nat) (offset : Fin 64)
    (count nr_values : BitVec 32) : Tree × Option Nat :=
  if t.oom t.next then ({ t with next := t.next + 1 }, none)
  else
    ({ t with
        node := Function.update t.node t.next
          (some ⟨count, shift, offset, nr_values, parent, fun _ ↦ .null⟩)
        next := t.next + 1 },
      some t.next)

/-- `radix_tree_root_alloc`, `radix_tree/radix-tree.c:135–150`, for a run in which the calls
of `calloc` that `oom` names fail. Without the node the root points to `node_to_entry(NULL)`.
The member `height` is written here and never read. -/
def radixTreeRootAlloc (oom : Nat → Bool) : Option Tree :=
  let t : Tree := ⟨fun _ ↦ none, 1, oom, .null, []⟩
  match radixTreeNodeAlloc t none 0 0 0 0 with
  | (t, none) => if oom 0 then none else some { t with rnode := .item ⟨2, by decide⟩ }
  | (t, some node) => if oom 0 then none else some { t with rnode := nodeToEntry node }

/-- `shift_maxindex`, `radix_tree/radix-tree.c:93–96`. The shift is by less than the width. -/
def shiftMaxindex (shift : Nat) : BitVec 64 := (64#64 <<< shift) - 1

/-- `node_maxindex`, `radix_tree/radix-tree.c:98–101`. -/
def nodeMaxindex (nd : Node) : BitVec 64 := shiftMaxindex nd.shift

/-- `(index >> shift) & RADIX_TREE_MAP_MASK`. -/
def slotOffset (index : BitVec 64) (shift : Nat) : Fin 64 :=
  ⟨((index >>> shift) &&& 63).toNat, by
    rw [BitVec.toNat_and]
    exact Nat.lt_succ_of_le Nat.and_le_right⟩

/-- `radix_tree_descend`, `radix_tree/radix-tree.c:34–42`: the offset and the child. -/
def radixTreeDescend (parent : Node) (index : BitVec 64) : Fin 64 × Entry :=
  (slotOffset index parent.shift, parent.slots (slotOffset index parent.shift))

/-- `radix_tree_load_root`, `radix_tree/radix-tree.c:177–192`: the root entry, the largest
index, and the shift above the root. -/
def radixTreeLoadRoot (t : Tree) : Except Fault (Entry × BitVec 64 × Nat) :=
  if t.rnode.isInternalNode then do
    let node ← entryToNode t.rnode
    let nd ← t.read node
    return (t.rnode, nodeMaxindex nd, nd.shift + MAP_SHIFT)
  else
    return (t.rnode, 0, 0)

end Jeopardy.RadixTree
