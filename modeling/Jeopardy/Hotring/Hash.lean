import Jeopardy.Hotring.List

/-!
# The hash table of rings

Model of `hotring/hotring.h` and of creation, search, insertion and deletion in
`hotring/hotring.c`. Every slot owns the head structure it points to, so a slot holds the
head itself; the nodes live in the node memory and may be linked from two tables while a
rehash runs.
-/

namespace Jeopardy.Hotring

/-- `struct head`, `hotring/hotring.h:35–44`. -/
structure Head where
  addr : Nat
  counter : BitVec 15
  active : Bool
deriving DecidableEq, Repr

/-- The head that assigning the whole word `node` leaves. -/
def Head.ofPtr (p : Nat) : Head := ⟨p, 0, false⟩

/-- `struct hash`, `hotring/hotring.h:46–51`. -/
structure Hash where
  n : Nat
  k : Nat
  size : Nat
  slots : Nat → Option Head

/-- Read of `h->slots[index]`. -/
def Hash.slot (h : Hash) (index : Nat) : Except Fault (Option Head) :=
  if index < h.size then .ok (h.slots index) else .error .outOfBounds

theorem slot_eq_ok {h : Hash} {i : Nat} {v : Option Head} (hs : h.slot i = .ok v) :
    i < h.size ∧ h.slots i = v := by
  unfold Hash.slot at hs
  split at hs
  · next hi => exact ⟨hi, Except.ok.inj hs⟩
  · cases hs

/-- Store to `h->slots[index]`, or to the head the slot points to. -/
def Hash.setSlot (h : Hash) (index : Nat) (v : Option Head) : Hash :=
  { h with slots := fun i ↦ if i = index then v else h.slots i }

/-- `NBITS`, `hotring/hotring.h:10`. -/
def NBITS : Nat := 32

/-- `EEXIST` of `hotring/error.h`. -/
def EEXIST : Int := 17

/-- `hashCode`, `hotring/hotring.h:69–73`: the slot index and the tag of a key. -/
def hashCode (h : Hash) (key : Nat) : Except Fault (Nat × Nat) := do
  let range ← ulShl h.n
  let tags ← intShl (ulSub h.n h.k)
  let hash_value := key % range
  return (key / tags, hash_value % tags)

/-- `hash_alloc`, `hotring/hotring.c:44–64`. For `kbits` beyond 30 the size is no `int`. -/
def hashAlloc (nbits kbits : Nat) : Except Fault Hash := do
  let size ← intShl kbits
  return { n := nbits, k := kbits, size := size, slots := fun _ ↦ none }

/-- `hash_node_alloc`, `hotring/hotring.c:26–42`: the address and the memory with the
zeroed node. -/
def hashNodeAlloc (m : Mem) : Nat × Mem :=
  (m.brk, m.alloc { list := .ofPtr 0, tag := 0, key := 0, value := 0 })

/-- `hash_get_t`, `hotring/hotring.c:145–150`. -/
inductive HashGet where
  | notFound
  | success
  | accessHot
  | accessCold
deriving DecidableEq, Repr

/-- What a get answers: its code, `*nodep` if it was assigned, and `*prevp`. -/
structure GetResult where
  ret : HashGet
  node : Option Nat
  prev : Nat
deriving DecidableEq, Repr

/-- The outcome `not_found` of `__hash_get`. -/
def GetResult.absent : GetResult := ⟨.notFound, none, 0⟩

/-- `list.counter++` on the node at `p`. -/
def bumpCounter (m : Mem) (p : Nat) : Except Fault Mem :=
  m.modify p (fun nd ↦ { nd with list := { nd.list with counter := nd.list.counter + 1 } })

/-- The body of the search loop, `hotring/hotring.c:182–197`. Its state is `prev` and the
result, once there is one. -/
def getBody (key : Nat) (m : Mem) (p : Nat) (s : Nat × Option GetResult) :
    Except Fault (ForInStep (Mem × (Nat × Option GetResult))) := do
  let tmp ← m.read p
  if tmp.key = key then
    let m ← bumpCounter m p
    return .done (m, (s.1, some ⟨.accessCold, some p, s.1⟩))
  else
    let prev ← m.read s.1
    if prev.key < key ∧ key < tmp.key then return .done (m, (s.1, some .absent))
    else if key < tmp.key ∧ tmp.key < prev.key then return .done (m, (s.1, some .absent))
    else if tmp.key < prev.key ∧ prev.key < key then return .done (m, (s.1, some .absent))
    else return .yield (m, (p, none))

/-- `__hash_get`, `hotring/hotring.c:159–204`. -/
def rawHashGet (m : Mem) (h : Hash) (key : Nat) : Except Fault (Mem × Hash × GetResult) := do
  let (hashIndex, _) ← hashCode h key
  match ← h.slot hashIndex with
  | none => return (m, h, .absent)
  | some head =>
    let h := h.setSlot hashIndex (some { head with counter := head.counter + 1 })
    let headNode ← m.read head.addr
    if headNode.key = key then
      let m ← bumpCounter m head.addr
      return (m, h, ⟨.accessHot, some head.addr, 0⟩)
    else
      let (m, _, result) ← listForEach (getBody key) m head.addr (head.addr, none)
      return (m, h, result.getD .absent)

/-- The body of the insertion loop, `hotring/hotring.c:256–279`. Its state is `prev` and
whether the new node has been added. -/
def createBody (tag : Nat) (node : Nat) (m : Mem) (p : Nat) (s : Nat × Bool) :
    Except Fault (ForInStep (Mem × (Nat × Bool))) := do
  let next ← m.read p
  let prev ← m.read s.1
  if next.tag < prev.tag ∧ (tag ≤ next.tag ∨ prev.tag < tag) then
    let m ← listAdd m node s.1
    return .done (m, (s.1, true))
  else if prev.tag < tag ∧ tag ≤ next.tag then
    let m ← listAdd m node s.1
    return .done (m, (s.1, true))
  else return .yield (m, (p, s.2))

/-- The insertion loop and the addition at the end, `hotring/hotring.c:253–282`. -/
def insertByTag (m : Mem) (node head tag : Nat) : Except Fault Mem := do
  let (m, prev, added) ← listForEach (createBody tag node) m head (head, false)
  if added then .ok m else listAdd m node prev

/-- `node->list.counter = 1`, `hotring/hotring.c:295`. -/
def setCounterOne (m : Mem) (p : Nat) : Except Fault Mem :=
  m.modify p (fun nd ↦ { nd with list := { nd.list with counter := 1 } })

/-- `__hash_create`, `hotring/hotring.c:232–300`: links a new node into the ring of a slot
by its tag, and answers its address. -/
def rawHashCreate (m : Mem) (h : Hash) (index tag : Nat) :
    Except Fault (Mem × Hash × Nat) := do
  match ← h.slot index with
  | some head =>
    let (node, m) := hashNodeAlloc m
    let m ← insertByTag m node head.addr tag
    let m ← setCounterOne m node
    return (m, h, node)
  | none =>
    let (node, m) := hashNodeAlloc m
    let m ← initListHead m node
    let h := h.setSlot index (some (.ofPtr node))
    let m ← setCounterOne m node
    return (m, h, node)

/-- `insert_entries`, `hotring/hotring.c:302–311`. -/
def insertEntries (m : Mem) (node : Nat) (key tag value : Nat) : Except Fault (Mem × Int) := do
  let nd ← m.read node
  if nd.value ≠ 0 then return (m, -EEXIST)
  else
    let m ← m.modify node (fun nd ↦ { nd with key := key, tag := tag, value := value })
    return (m, 1)

/-- `hash_insert`, `hotring/hotring.c:314–332`. -/
def hashInsert (m : Mem) (h : Hash) (key value : Nat) : Except Fault (Mem × Hash × Int) := do
  let (hashIndex, hashTag) ← hashCode h key
  let (m, h, node) ← rawHashCreate m h hashIndex hashTag
  let (m, error) ← insertEntries m node key hashTag value
  if error < 0 then return (m, h, error) else return (m, h, 0)

/-- `hotring_head_free_by_index`, `hotring/hotring.c:366–375`; freeing `NULL` does nothing. -/
def hotringHeadFreeByIndex (h : Hash) (index : Nat) : Except Fault Hash := do
  let _ ← h.slot index
  return h.setSlot index none

/-- `hotring_head_free`, `hotring/hotring.c:347–359`. -/
def hotringHeadFree (h : Hash) (key : Nat) : Except Fault Hash := do
  let (hashIndex, _) ← hashCode h key
  hotringHeadFreeByIndex h hashIndex

/-- `hotring_node_free`, `hotring/hotring.c:378–384`. -/
def hotringNodeFree (m : Mem) (node : Nat) : Except Fault Mem := do
  let _ ← m.read node
  return m.free node

/-- `hotring_delete`, `hotring/hotring.c:427–449`. -/
def hotringDelete (m : Mem) (h : Hash) (key : Nat) : Except Fault (Mem × Hash × Bool) := do
  let (m, h, r) ← rawHashGet m h key
  if r.ret ≠ .notFound then
    match r.node with
    | none => .error .uninitialized
    | some target =>
      let m ← (if r.prev ≠ 0 then listDel m r.prev target else .ok m)
      let m ← hotringNodeFree m target
      let h ← (if r.prev = 0 then hotringHeadFree h key else .ok h)
      return (m, h, true)
  else return (m, h, false)

end Jeopardy.Hotring
