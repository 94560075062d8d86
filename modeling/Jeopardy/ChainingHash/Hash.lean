import Jeopardy.Base.Fault

/-!
# The chaining hash table

Model of `chaining_hash/hash.c`, `chaining_hash/hash.h` and the parts of
`chaining_hash/list.h` it uses. A slot points to a head structure, the head to the first node
of the bucket, and the nodes form a doubly linked ring without a sentinel. Allocations are
assumed to succeed.
-/

namespace Jeopardy.ChainingHash

variable {α : Type}

/-- `struct hash_node`, `chaining_hash/hash.h:47–50`; `none` is a `NULL` item. -/
structure HashNode (α : Type) where
  item : Option α
  next : Nat
  prev : Nat

/-- The allocated nodes and the next unused address. -/
structure Mem (α : Type) where
  node : Nat → Option (HashNode α)
  brk : Nat

/-- `struct hash`, `chaining_hash/hash.h:42–45`. A slot owns the head structure it points to;
of that only the member `node` is used. -/
structure Hash where
  size : Nat
  slots : Nat → Option Nat

/-- What a memory word of interest can hold. -/
inductive Word (α : Type) where
  | item (x : Option α)
  | node (p : Nat)
deriving DecidableEq

/-- A pointer handed out by a lookup: to the `item` member of a node, or to the head structure
of a slot. -/
inductive Ptr where
  | itemOf (p : Nat)
  | headOf (index : Nat)
deriving DecidableEq

/-- `EEXIST`, `chaining_hash/error.h`. -/
def EEXIST : Int := 17

/-- `hashCode`, `chaining_hash/hash.h:58–60`: the key is cut to `int`, taken modulo the size as
`unsigned long`, and the result cut to `int`. -/
def hashCode (h : Hash) (key : Nat) : Int :=
  (BitVec.ofNat 32 (((BitVec.ofNat 32 key).signExtend 64).toNat % h.size)).toInt

/-- `hash_alloc`, `chaining_hash/hash.c:33–51`. Its loop only sets a local variable; for a size of
`2^31` or more its `int` counter overflows, which is taken to wrap around. -/
def hashAlloc (size : Nat) : Hash := ⟨size, fun _ ↦ none⟩

/-- Read of `h->slots[index]`. -/
def Hash.slot (h : Hash) (index : Int) : Except Fault (Option Nat) :=
  if 0 ≤ index ∧ index < h.size then .ok (h.slots index.toNat) else .error .outOfBounds

/-- Load of a whole node. -/
def Mem.read (m : Mem α) (p : Nat) : Except Fault (HashNode α) :=
  match m.node p with
  | none => .error .badPointer
  | some nd => .ok nd

/-- Store to fields of an allocated node. -/
def Mem.modify (m : Mem α) (p : Nat) (f : HashNode α → HashNode α) : Except Fault (Mem α) := do
  let nd ← m.read p
  return { m with node := Function.update m.node p (some (f nd)) }

/-- `hash_node_alloc`, `chaining_hash/hash.c:21–31`: the address and the memory with the zeroed
node. -/
def hashNodeAlloc (m : Mem α) : Nat × Mem α :=
  (m.brk, ⟨Function.update m.node m.brk (some ⟨none, 0, 0⟩), m.brk + 1⟩)

/-- `INIT_LIST_HEAD`, `chaining_hash/list.h:64–66`. -/
def initListHead (m : Mem α) (p : Nat) : Except Fault (Mem α) :=
  m.modify p (fun nd ↦ { nd with next := p, prev := p })

/-- `__list_add`, `chaining_hash/list.h:74–82`. -/
def rawListAdd (m : Mem α) (new prev next : Nat) : Except Fault (Mem α) := do
  let m ← m.modify next (fun nd ↦ { nd with prev := new })
  let m ← m.modify new (fun nd ↦ { nd with next := next })
  let m ← m.modify new (fun nd ↦ { nd with prev := prev })
  m.modify prev (fun nd ↦ { nd with next := new })

/-- `list_add_tail`, `chaining_hash/list.h:105–108`. -/
def listAddTail (m : Mem α) (new head : Nat) : Except Fault (Mem α) := do
  let nd ← m.read head
  rawListAdd m new nd.prev head

/-- `__hash_create`, `chaining_hash/hash.c:86–114`: a new node at the end of its bucket. -/
def rawHashCreate (m : Mem α) (h : Hash) (index : Int) : Except Fault (Mem α × Hash × Nat) := do
  match ← h.slot index with
  | some head_node =>
    let (node, m) := hashNodeAlloc m
    let m ← listAddTail m node head_node
    return (m, h, node)
  | none =>
    let (node, m) := hashNodeAlloc m
    let m ← initListHead m node
    return (m, { h with slots := Function.update h.slots index.toNat (some node) }, node)

/-- `insert_entries`, `chaining_hash/hash.c:116–123`, of an item that may be `NULL`. -/
def insertEntries (m : Mem α) (node : Nat) (item : Option α) : Except Fault (Mem α × Int) := do
  let nd ← m.read node
  if nd.item.isSome then return (m, -EEXIST)
  else
    let m ← m.modify node (fun nd ↦ { nd with item := item })
    return (m, 1)

/-- `hash_insert`, `chaining_hash/hash.c:125–142`, of an item that may be `NULL`. -/
def hashInsert (m : Mem α) (h : Hash) (key : Nat) (item : Option α) :
    Except Fault (Mem α × Hash × Int) := do
  let (m, h, node) ← rawHashCreate m h (hashCode h key)
  let (m, error) ← insertEntries m node item
  if error < 0 then return (m, h, error) else return (m, h, 0)

/-- `hash_get`, `chaining_hash/hash.c:58–70`: the node, if the answer is 1. -/
def hashGet (h : Hash) (key : Nat) : Except Fault (Option Nat) := h.slot (hashCode h key)

/-- `hash_lookup`, `chaining_hash/hash.c:72–83`. The slot, a pointer to a head structure, is
taken for a pointer to a node, whose member `item` is at offset 0. -/
def hashLookup (h : Hash) (key : Nat) : Except Fault (Option Ptr) := do
  match ← h.slot (hashCode h key) with
  | some _ => return some (.headOf (hashCode h key).toNat)
  | none => return none

/-- The word a lookup's pointer points to. -/
def load (m : Mem α) (h : Hash) : Ptr → Option (Word α)
  | .itemOf p => (m.node p).map (fun nd ↦ .item nd.item)
  | .headOf index => (h.slots index).map .node

/-- A sequence of insertions into a new table. -/
def runItems (size : Nat) (calls : List (Nat × Option α)) : Except Fault (Mem α × Hash) :=
  calls.foldlM (fun (s : Mem α × Hash) call ↦ do
    let (m, h, _) ← hashInsert s.1 s.2 call.1 call.2
    return (m, h)) (⟨fun _ ↦ none, 1⟩, hashAlloc size)

/-- A sequence of insertions of items that are not `NULL`. -/
def run (size : Nat) (calls : List (Nat × α)) : Except Fault (Mem α × Hash) :=
  runItems size (calls.map (Prod.map id some))

/-! ### Slots and hash codes -/

theorem slot_eq {h : Hash} {index : Int} (h0 : 0 ≤ index) (h1 : index < h.size) :
    h.slot index = .ok (h.slots index.toNat) := by
  rw [Hash.slot, if_pos ⟨h0, h1⟩]

/-- The key `key` hashes to the slot `index`. -/
def HashesTo (size : Nat) (index : Int) (call : Nat × α) : Bool :=
  hashCode (hashAlloc size) call.1 = index

/-- A number below `2^31` comes back from `int`. -/
theorem toNat_signExtend_ofNat {key : Nat} (hk : key < 2 ^ 31) :
    ((BitVec.ofNat 32 key).signExtend 64).toNat = key := by
  rw [BitVec.toNat_signExtend, BitVec.msb_eq_decide, BitVec.toNat_ofNat,
    Nat.mod_eq_of_lt (by omega : key < 2 ^ 32), decide_eq_false (by omega)]
  rw [BitVec.toNat_setWidth, BitVec.toNat_ofNat, Nat.mod_eq_of_lt (by omega : key < 2 ^ 32),
    Nat.mod_eq_of_lt (by omega : key < 2 ^ 64)]
  rfl

/-- A key below `2^31` hashes to its remainder. -/
theorem hashCode_eq {h : Hash} {key : Nat} (hk : key < 2 ^ 31) :
    hashCode h key = ((key % h.size : Nat) : Int) := by
  have hle : key % h.size ≤ key := Nat.mod_le _ _
  rw [hashCode, toNat_signExtend_ofNat hk,
    BitVec.toInt_eq_toNat_of_lt (by rw [BitVec.toNat_ofNat]; omega),
    BitVec.toNat_ofNat, Nat.mod_eq_of_lt (by omega : key % h.size < 2 ^ 32)]

theorem hashCode_congr {h : Hash} (h' : Hash) (hs : h.size = h'.size) (key : Nat) :
    hashCode h key = hashCode h' key := by
  rw [hashCode, hashCode, hs]

/-! ### Stores -/

section Memory

variable {m : Mem α} {p : Nat} {nd : HashNode α}

theorem read_eq (hp : m.node p = some nd) : m.read p = .ok nd := by rw [Mem.read, hp]

theorem modify_eq (hp : m.node p = some nd) (f : HashNode α → HashNode α) :
    m.modify p f = .ok { m with node := Function.update m.node p (some (f nd)) } := by
  rw [Mem.modify, read_eq hp]
  rfl

end Memory

/-- The item of an allocated node. -/
def Mem.itemAt (m : Mem α) (p : Nat) : Option (Option α) := (m.node p).map HashNode.item

/-- A change of the links of `m'` against `m`: the items stay, and the memory is as large. -/
structure Relinked (m m' : Mem α) : Prop where
  items : ∀ p, m'.itemAt p = m.itemAt p
  brk : m'.brk = m.brk

/-- A node whose fields `f` changes keeps its item if `f` does. -/
theorem Relinked.modify {m : Mem α} {p : Nat} (hp : (m.node p).isSome)
    (f : HashNode α → HashNode α) (hf : ∀ nd, (f nd).item = nd.item) :
    ∃ m', m.modify p f = .ok m' ∧ Relinked m m' ∧ m'.node p = (m.node p).map f ∧
      ∀ q, q ≠ p → m'.node q = m.node q := by
  obtain ⟨nd, hnd⟩ := Option.isSome_iff_exists.mp hp
  refine ⟨_, modify_eq hnd f, ⟨fun q ↦ ?_, rfl⟩, ?_, fun q hq ↦ Function.update_of_ne hq _ _⟩
  · by_cases hq : q = p
    · subst hq
      change ((Function.update m.node q (some (f nd)) q).map _) = _
      rw [Function.update_self, Mem.itemAt, hnd, Option.map_some, Option.map_some, hf]
    · change ((Function.update m.node p (some (f nd)) q).map _) = _
      rw [Function.update_of_ne hq, Mem.itemAt]
  · change Function.update m.node p (some (f nd)) p = _
    rw [Function.update_self, hnd, Option.map_some]

theorem Relinked.trans {m₁ m₂ m₃ : Mem α} (h1 : Relinked m₁ m₂) (h2 : Relinked m₂ m₃) :
    Relinked m₁ m₃ :=
  ⟨fun p ↦ (h2.items p).trans (h1.items p), h2.brk.trans h1.brk⟩

theorem Relinked.isSome {m m' : Mem α} (h : Relinked m m') (p : Nat) :
    (m'.node p).isSome = (m.node p).isSome := by
  have hi := congrArg Option.isSome (h.items p)
  rwa [Mem.itemAt, Mem.itemAt, Option.isSome_map, Option.isSome_map] at hi

theorem alloc_self (m : Mem α) : (hashNodeAlloc m).2.node m.brk = some ⟨none, 0, 0⟩ :=
  Function.update_self _ _ _

theorem alloc_of_ne (m : Mem α) {p : Nat} (hp : p ≠ m.brk) :
    (hashNodeAlloc m).2.node p = m.node p :=
  Function.update_of_ne hp _ _

end Jeopardy.ChainingHash
