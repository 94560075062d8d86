import Jeopardy.Base.Fault
import Jeopardy.Lib.Ring

/-!
# Node memory and the packed list

Model of `hotring/list.h` over the nodes of `hotring/hotring.h`. A link is one 64-bit
word: a 48-bit address and the bits that the hot-spot code keeps beside it; the member
`next` overlays the whole word. The list head is the first member of a node, so a node and
its link have the same address. Addresses are natural numbers with `NULL` as zero; an
allocation takes the next unused one and is assumed to succeed.
-/

namespace Jeopardy.Hotring

/-- `struct list_head`, `hotring/list.h:56–66`. -/
structure ListHead where
  addr : Nat
  counter : BitVec 14
  occupied : Bool
  rehash : Bool
deriving DecidableEq, Repr

/-- The link word that storing the plain pointer `p` through `next` leaves. -/
def ListHead.ofPtr (p : Nat) : ListHead := ⟨p, 0, false, false⟩

/-- `LIST_POISON1`, `hotring/list.h:44`. -/
def listPoison1 : Nat := 0x00100100

/-- `struct hash_node`, `hotring/hotring.h:53–61`. -/
structure HashNode where
  list : ListHead
  tag : Nat
  key : Nat
  value : Nat
deriving DecidableEq, Repr

/-- The allocated nodes. Nothing lives at `NULL` or at an address not yet handed out. -/
structure Mem where
  node : Nat → Option HashNode
  brk : Nat
  brk_pos : 0 < brk
  null_free : node 0 = none
  fresh : ∀ a, brk ≤ a → node a = none

namespace Mem

/-- Memory before the first allocation. -/
def init : Mem := ⟨fun _ ↦ none, 1, by decide, rfl, fun _ _ ↦ rfl⟩

/-- Overwrite the node at `p`, if there is one. -/
def update (m : Mem) (p : Nat) (f : HashNode → HashNode) : Mem where
  node a := if a = p then (m.node a).map f else m.node a
  brk := m.brk
  brk_pos := m.brk_pos
  null_free := by simp [m.null_free]
  fresh a ha := by simp [m.fresh a ha]

/-- `calloc` of one node with the given contents, at an unused address. -/
def alloc (m : Mem) (nd : HashNode) : Mem where
  node a := if a = m.brk then some nd else m.node a
  brk := m.brk + 1
  brk_pos := Nat.succ_pos _
  null_free := by
    have hb := m.brk_pos
    simp [m.null_free, Nat.ne_of_lt hb]
  fresh a ha := by
    have hne : a ≠ m.brk := by omega
    simp [hne, m.fresh a (by omega)]

/-- `free` of the node at `p`. -/
def free (m : Mem) (p : Nat) : Mem where
  node a := if a = p then none else m.node a
  brk := m.brk
  brk_pos := m.brk_pos
  null_free := by simp [m.null_free]
  fresh a ha := by simp [m.fresh a ha]

/-- Dereference of `p`. -/
def read (m : Mem) (p : Nat) : Except Fault HashNode :=
  match m.node p with
  | some nd => .ok nd
  | none => .error (if p = 0 then .nullDeref else .badPointer)

/-- Store through `p`. -/
def modify (m : Mem) (p : Nat) (f : HashNode → HashNode) : Except Fault Mem := do
  let _ ← m.read p
  return m.update p f

/-- The address held by the link of `a`. -/
def next (m : Mem) (a : Nat) : Option Nat := (m.node a).map (·.list.addr)

end Mem

/-! ### `hotring/list.h` -/

/-- `INIT_LIST_HEAD`, `hotring/list.h:73–75`. -/
def initListHead (m : Mem) (p : Nat) : Except Fault Mem :=
  m.modify p (fun nd ↦ { nd with list := .ofPtr p })

/-- `__list_add`, `hotring/list.h:85–92`: the new link takes the whole word `next`, the
predecessor keeps its bits. -/
def rawListAdd (m : Mem) (new prev : Nat) (next : ListHead) : Except Fault Mem := do
  let m ← m.modify new (fun nd ↦ { nd with list := next })
  m.modify prev (fun nd ↦ { nd with list := { nd.list with addr := new } })

/-- `list_add`, `hotring/list.h:102–105`. -/
def listAdd (m : Mem) (new head : Nat) : Except Fault Mem := do
  let hd ← m.read head
  rawListAdd m new head hd.list

/-- `__list_del_by_addr`, `hotring/list.h:119–122`. -/
def rawListDelByAddr (m : Mem) (prev iptr : Nat) : Except Fault Mem :=
  m.modify prev (fun nd ↦ { nd with list := { nd.list with addr := iptr } })

/-- `list_del`, `hotring/list.h:130–134`. -/
def listDel (m : Mem) (prev entry : Nat) : Except Fault Mem := do
  let e ← m.read entry
  let m ← rawListDelByAddr m prev e.list.addr
  m.modify entry (fun nd ↦ { nd with list := .ofPtr listPoison1 })

section Loop

variable {σ : Type}

/-- The loop of `list_for_each`, `hotring/list.h:226–228`, from position `pos` on. The
body may store to memory, and the position moves along the link it then finds. A loop that
does not come back to `head` within `fuel` positions never does: there are no more nodes. -/
def listForEachFrom (body : Mem → Nat → σ → Except Fault (ForInStep (Mem × σ))) (head : Nat) :
    Nat → Mem → Nat → σ → Except Fault (Mem × σ)
  | 0, _, _, _ => .error .diverges
  | fuel + 1, m, pos, s =>
    if pos = head then .ok (m, s)
    else do
      match ← body m pos s with
      | .done r => .ok r
      | .yield (m, s) =>
        let nd ← m.read pos
        listForEachFrom body head fuel m nd.list.addr s

/-- `list_for_each(pos, head)`. -/
def listForEach (body : Mem → Nat → σ → Except Fault (ForInStep (Mem × σ))) (m : Mem)
    (head : Nat) (s : σ) : Except Fault (Mem × σ) := do
  let hd ← m.read head
  listForEachFrom body head (m.brk + 1) m hd.list.addr s

end Loop

end Jeopardy.Hotring
