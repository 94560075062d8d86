import Jeopardy.Hotring.Cells

/-!
# The packed link word

`struct list_head` of `hotring/list.h` as it lies in memory: one 64-bit word, which the
primitives access whole through `next` and in its 48 low bits through `addr`. The `ListHead`
of the hash table is such a word taken apart.
-/

namespace Jeopardy.Hotring.Packed

/-- The address of a list head. Addresses of user space fit the member `addr`. -/
abbrev Addr := BitVec 48

/-- The word of a list head, and the value of a pointer or of a `uintptr_t`. -/
abbrev Word := BitVec 64

/-- The bits beside the address. -/
structure Tags where
  counter : BitVec 14
  occupied : Bool
  rehash : Bool
deriving DecidableEq, Repr

/-- The tag bits of a plain pointer. -/
def Tags.clear : Tags := ⟨0, false, false⟩

namespace Word

/-! ### Bit fields, `hotring/list.h:56–66` -/

def addr (w : Word) : Addr := w.extractLsb' 0 48

def counter (w : Word) : BitVec 14 := w.extractLsb' 48 14

def occupied (w : Word) : Bool := w.getLsbD 62

def rehash (w : Word) : Bool := w.getLsbD 63

def tags (w : Word) : Tags := ⟨counter w, occupied w, rehash w⟩

/-- A store to the member `addr` of the word. -/
def setAddr (w : Word) (a : Addr) : Word := w.extractLsb' 48 16 ++ a

/-- A pointer as a word. -/
def ofPtr (p : Addr) : Word := p.setWidth 64

variable {w w' : Word}

/-- A word is its fields. -/
theorem ext (ha : addr w = addr w') (ht : tags w = tags w') : w = w' := by
  rw [tags, tags, Tags.mk.injEq] at ht
  obtain ⟨hc, ho, hr⟩ := ht
  apply BitVec.eq_of_getLsbD_eq
  intro i hi
  by_cases h48 : i < 48
  · have h := congrArg (·.getLsbD i) ha
    simpa [addr, h48] using h
  by_cases h62 : i < 62
  · have h := congrArg (·.getLsbD (i - 48)) hc
    have hlt : i - 48 < 14 := by omega
    simpa [counter, hlt, Nat.add_sub_cancel' (Nat.le_of_not_lt h48)] using h
  · obtain rfl | rfl : i = 62 ∨ i = 63 := by omega
    · exact ho
    · exact hr

theorem getLsbD_setAddr (w : Word) (a : Addr) {i : Nat} (hi : i < 64) :
    (setAddr w a).getLsbD i = if i < 48 then a.getLsbD i else w.getLsbD i := by
  change (w.extractLsb' 48 16 ++ a : BitVec (16 + 48)).getLsbD i = _
  rw [BitVec.getLsbD_append]
  split
  · rfl
  · have hlt : i - 48 < 16 := by omega
    have hadd : 48 + (i - 48) = i := by omega
    rw [BitVec.getLsbD_extractLsb', hadd, decide_eq_true hlt, Bool.true_and]

@[simp] theorem addr_setAddr (w : Word) (a : Addr) : addr (setAddr w a) = a := by
  apply BitVec.eq_of_getLsbD_eq
  intro i hi
  rw [addr, BitVec.getLsbD_extractLsb', decide_eq_true hi, Bool.true_and, Nat.zero_add,
    getLsbD_setAddr w a (by omega), if_pos hi]

@[simp] theorem tags_setAddr (w : Word) (a : Addr) : tags (setAddr w a) = tags w := by
  have hcounter : counter (setAddr w a) = counter w := by
    apply BitVec.eq_of_getLsbD_eq
    intro i hi
    rw [counter, counter, BitVec.getLsbD_extractLsb', BitVec.getLsbD_extractLsb',
      getLsbD_setAddr w a (by omega), if_neg (by omega)]
  rw [tags, tags, hcounter, occupied, occupied, rehash, rehash, getLsbD_setAddr w a (by decide),
    getLsbD_setAddr w a (by decide)]
  rfl

@[simp] theorem addr_ofPtr (p : Addr) : addr (ofPtr p) = p := by
  apply BitVec.eq_of_getLsbD_eq
  intro i hi
  have hlt : i < 64 := by omega
  simp [addr, ofPtr, hi, hlt]

@[simp] theorem tags_ofPtr (p : Addr) : tags (ofPtr p) = Tags.clear := by
  have hcounter : counter (ofPtr p) = 0 := by
    apply BitVec.eq_of_getLsbD_eq
    intro i hi
    simp [counter, ofPtr]
  have hoccupied : occupied (ofPtr p) = false := by simp [occupied, ofPtr]
  have hrehash : rehash (ofPtr p) = false := by simp [rehash, ofPtr]
  rw [tags, hcounter, hoccupied, hrehash, Tags.clear]

theorem eq_ofPtr_iff {p : Addr} : w = ofPtr p ↔ addr w = p ∧ tags w = Tags.clear := by
  constructor
  · rintro rfl
    exact ⟨addr_ofPtr p, tags_ofPtr p⟩
  · rintro ⟨ha, ht⟩
    exact ext (ha.trans (addr_ofPtr p).symm) (ht.trans (tags_ofPtr p).symm)

end Word

/-- `LIST_POISON1`, `hotring/list.h:44`. -/
def listPoison1 : Word := 0x00100100

/-- The list heads in memory, by address. -/
abbrev Heads := Addr → Option Word

namespace Heads

/-- The whole word at `p`. -/
def load (m : Heads) (p : Addr) : Except Fault Word :=
  match m p with
  | some w => .ok w
  | none => .error (if p = 0 then .nullDeref else .badPointer)

/-- `p->next = next`. -/
def storeNext (m : Heads) (p : Addr) (next : Word) : Except Fault Heads := do
  let _ ← m.load p
  return Function.update m p (some next)

/-- `p->addr = iptr`, which keeps the low 48 bits of the number. -/
def storeAddr (m : Heads) (p : Addr) (iptr : Word) : Except Fault Heads := do
  let w ← m.load p
  return Function.update m p (some (w.setAddr (iptr.setWidth 48)))

/-- The list as seen through `addr`. -/
def link (m : Heads) (a : Addr) : Option Addr := (m a).map Word.addr

def tags (m : Heads) (a : Addr) : Option Tags := (m a).map Word.tags

variable {m : Heads} {p : Addr} {w : Word}

theorem load_eq (h : m p = some w) : m.load p = .ok w := by rw [load, h]

theorem storeNext_eq (h : m p = some w) (next : Word) :
    m.storeNext p next = .ok (Function.update m p (some next)) := by
  rw [storeNext, load_eq h]
  rfl

theorem storeAddr_eq (h : m p = some w) (a : Addr) :
    m.storeAddr p (Word.ofPtr a) = .ok (Function.update m p (some (w.setAddr a))) := by
  rw [storeAddr, load_eq h, Word.ofPtr, BitVec.setWidth_setWidth_of_le _ (by decide),
    BitVec.setWidth_eq]
  rfl

theorem link_eq (h : m p = some w) : m.link p = some w.addr := by rw [link, h]; rfl

theorem tags_eq (h : m p = some w) : m.tags p = some w.tags := by rw [tags, h]; rfl

@[simp] theorem link_update (m : Heads) (p : Addr) (w : Word) :
    link (Function.update m p (some w)) = Function.update m.link p (some w.addr) := by
  funext a
  by_cases h : a = p
  · rw [h, link, Function.update_self, Function.update_self]
    rfl
  · rw [link, Function.update_of_ne h, Function.update_of_ne h, link]

@[simp] theorem tags_update (m : Heads) (p : Addr) (w : Word) :
    tags (Function.update m p (some w)) = Function.update m.tags p (some w.tags) := by
  funext a
  by_cases h : a = p
  · rw [h, tags, Function.update_self, Function.update_self]
    rfl
  · rw [tags, Function.update_of_ne h, Function.update_of_ne h, tags]

end Heads

/-! ### The primitives of `hotring/list.h` -/

/-- `INIT_LIST_HEAD`, `hotring/list.h:73–75`. -/
def initListHead (m : Heads) (ptr : Addr) : Except Fault Heads := m.storeNext ptr (.ofPtr ptr)

/-- `__list_add`, `hotring/list.h:85–92`. -/
def rawListAdd (m : Heads) (new prev : Addr) (next : Word) : Except Fault Heads := do
  let new_addr := Word.ofPtr new
  let m ← m.storeNext new next
  m.storeAddr prev new_addr

/-- `list_add`, `hotring/list.h:102–105`. -/
def listAdd (m : Heads) (new head : Addr) : Except Fault Heads := do
  rawListAdd m new head (← m.load head)

/-- `__list_del`, `hotring/list.h:114–117`: the predecessor takes the whole word `next`. -/
def rawListDel (m : Heads) (prev : Addr) (next : Word) : Except Fault Heads :=
  m.storeNext prev next

/-- `__list_del_by_addr`, `hotring/list.h:119–122`: the predecessor keeps its tag bits. -/
def rawListDelByAddr (m : Heads) (prev : Addr) (iptr : Word) : Except Fault Heads :=
  m.storeAddr prev iptr

/-- `list_del`, `hotring/list.h:130–134`. -/
def listDel (m : Heads) (prev entry : Addr) : Except Fault Heads := do
  let e ← m.load entry
  let m ← rawListDelByAddr m prev (.ofPtr e.addr)
  m.storeNext entry listPoison1

/-- `list_del_init`, `hotring/list.h:141–145`. -/
def listDelInit (m : Heads) (prev entry : Addr) : Except Fault Heads := do
  let m ← rawListDel m prev (← m.load entry)
  initListHead m entry

/-- `list_move`, `hotring/list.h:152–156`. -/
def listMove (m : Heads) (prev list head : Addr) : Except Fault Heads := do
  let m ← rawListDel m prev (← m.load list)
  listAdd m list head

/-- `list_empty`, `hotring/list.h:162–165`. -/
def listEmpty (m : Heads) (head : Addr) : Except Fault Bool := do
  return (← m.load head) == .ofPtr head

/-! ### The links of the hash table -/

/-- The word of a link. -/
def ofListHead (l : ListHead) : Word :=
  (BitVec.ofBool l.rehash ++ BitVec.ofBool l.occupied ++ l.counter ++ BitVec.ofNat 48 l.addr :
    BitVec (1 + 1 + 14 + 48))

private theorem getLsbD_ofListHead (l : ListHead) (i : Nat) : (ofListHead l).getLsbD i =
    if i < 48 then (BitVec.ofNat 48 l.addr).getLsbD i
    else if i - 48 < 14 then l.counter.getLsbD (i - 48)
    else if i - 48 - 14 < 1 then (BitVec.ofBool l.occupied).getLsbD (i - 48 - 14)
    else (BitVec.ofBool l.rehash).getLsbD (i - 48 - 14 - 1) := by
  rw [ofListHead, BitVec.getLsbD_append, BitVec.getLsbD_append, BitVec.getLsbD_append]

theorem addr_ofListHead (l : ListHead) : (ofListHead l).addr = BitVec.ofNat 48 l.addr := by
  apply BitVec.eq_of_getLsbD_eq
  intro i hi
  rw [Word.addr, BitVec.getLsbD_extractLsb', decide_eq_true hi, Bool.true_and, Nat.zero_add,
    getLsbD_ofListHead, if_pos hi]

theorem tags_ofListHead (l : ListHead) :
    (ofListHead l).tags = ⟨l.counter, l.occupied, l.rehash⟩ := by
  have hcounter : (ofListHead l).counter = l.counter := by
    apply BitVec.eq_of_getLsbD_eq
    intro i hi
    have hsub : 48 + i - 48 = i := by omega
    rw [Word.counter, BitVec.getLsbD_extractLsb', decide_eq_true hi, Bool.true_and,
      getLsbD_ofListHead, if_neg (by omega), hsub, if_pos hi]
  have hoccupied : (ofListHead l).occupied = l.occupied := by
    rw [Word.occupied, getLsbD_ofListHead]
    simp
  have hrehash : (ofListHead l).rehash = l.rehash := by
    rw [Word.rehash, getLsbD_ofListHead]
    simp
  rw [Word.tags, hcounter, hoccupied, hrehash]

theorem ofListHead_ofPtr (p : Nat) : ofListHead (.ofPtr p) = .ofPtr (BitVec.ofNat 48 p) := by
  rw [Word.eq_ofPtr_iff, addr_ofListHead, tags_ofListHead]
  exact ⟨rfl, rfl⟩

theorem ofListHead_addr (l : ListHead) (a : Nat) :
    ofListHead { l with addr := a } = (ofListHead l).setAddr (BitVec.ofNat 48 a) := by
  apply Word.ext
  · rw [addr_ofListHead, Word.addr_setAddr]
  · rw [tags_ofListHead, Word.tags_setAddr, tags_ofListHead]

/-- The list heads of the nodes. -/
def heads (m : Mem) : Heads := fun a ↦ (m.node a.toNat).map (fun nd ↦ ofListHead nd.list)

section Nodes

variable {m : Mem} {p new head prev entry : Nat}

theorem load_heads (hp : p < 2 ^ 48) : (heads m).load (BitVec.ofNat 48 p)
    = (m.read p).map (fun nd ↦ ofListHead nd.list) := by
  have hzero : BitVec.ofNat 48 p = 0 ↔ p = 0 := by
    rw [← BitVec.toNat_inj, BitVec.toNat_ofNat, Nat.mod_eq_of_lt hp]
    rfl
  rw [Heads.load, heads, BitVec.toNat_ofNat, Nat.mod_eq_of_lt hp, Mem.read]
  cases m.node p with
  | some nd => rfl
  | none => simp only [Option.map_none, hzero, Except.map]

theorem heads_update (hp : p < 2 ^ 48) {nd : HashNode} (hnd : m.node p = some nd)
    (f : HashNode → HashNode) : heads (m.update p f)
      = Function.update (heads m) (BitVec.ofNat 48 p) (some (ofListHead (f nd).list)) := by
  funext a
  by_cases h : a = BitVec.ofNat 48 p
  · subst h
    rw [Function.update_self, heads, Mem.node_update, BitVec.toNat_ofNat, Nat.mod_eq_of_lt hp,
      if_pos rfl, hnd]
    rfl
  · have hne : a.toNat ≠ p := by
      rintro rfl
      exact h (BitVec.ofNat_toNat 48 a).symm
    rw [Function.update_of_ne h, heads, Mem.node_update, if_neg hne, heads]

theorem heads_eq (hp : p < 2 ^ 48) {nd : HashNode} (hnd : m.node p = some nd) :
    heads m (BitVec.ofNat 48 p) = some (ofListHead nd.list) := by
  rw [heads, BitVec.toNat_ofNat, Nat.mod_eq_of_lt hp, hnd]
  rfl

theorem storeNext_heads (hp : p < 2 ^ 48) (l : ListHead) :
    (heads m).storeNext (BitVec.ofNat 48 p) (ofListHead l)
      = (m.modify p (fun nd ↦ { nd with list := l })).map heads := by
  cases hnd : m.node p with
  | none =>
    rw [Heads.storeNext, load_heads hp, Mem.modify, Mem.read, hnd]
    rfl
  | some nd =>
    rw [Heads.storeNext_eq (heads_eq hp hnd), Mem.modify_eq _ hnd, Except.map,
      heads_update hp hnd]

theorem storeAddr_heads (hp : p < 2 ^ 48) (a : Nat) :
    (heads m).storeAddr (BitVec.ofNat 48 p) (.ofPtr (BitVec.ofNat 48 a))
      = (m.modify p (fun nd ↦ { nd with list := { nd.list with addr := a } })).map heads := by
  cases hnd : m.node p with
  | none =>
    rw [Heads.storeAddr, load_heads hp, Mem.modify, Mem.read, hnd]
    rfl
  | some nd =>
    rw [Heads.storeAddr_eq (heads_eq hp hnd), Mem.modify_eq _ hnd, ← ofListHead_addr nd.list a,
      Except.map, heads_update hp hnd]

/-- The hash table sets up a link as `INIT_LIST_HEAD` does. -/
theorem initListHead_heads (hp : p < 2 ^ 48) :
    initListHead (heads m) (BitVec.ofNat 48 p) = (Hotring.initListHead m p).map heads := by
  rw [initListHead, ← ofListHead_ofPtr, storeNext_heads hp]
  rfl

/-- The hash table links a node in as `list_add` does. -/
theorem listAdd_heads (hn : new < 2 ^ 48) (hh : head < 2 ^ 48) :
    listAdd (heads m) (BitVec.ofNat 48 new) (BitVec.ofNat 48 head)
      = (Hotring.listAdd m new head).map heads := by
  rw [listAdd, load_heads hh, Hotring.listAdd]
  cases m.read head with
  | error e => rfl
  | ok hd =>
    rw [Except.map, Fault.ok_bind, Fault.ok_bind, rawListAdd, Hotring.rawListAdd,
      storeNext_heads hn]
    cases m.modify new (fun nd ↦ { nd with list := hd.list }) with
    | error e => rfl
    | ok m₁ => exact storeAddr_heads hh new

/-- The hash table unlinks a node as `list_del` does. -/
theorem listDel_heads (hp : prev < 2 ^ 48) (he : entry < 2 ^ 48) :
    listDel (heads m) (BitVec.ofNat 48 prev) (BitVec.ofNat 48 entry)
      = (Hotring.listDel m prev entry).map heads := by
  rw [listDel, load_heads he, Hotring.listDel]
  cases m.read entry with
  | error e => rfl
  | ok e =>
    rw [Except.map, Fault.ok_bind, Fault.ok_bind, addr_ofListHead, rawListDelByAddr,
      Hotring.rawListDelByAddr, storeAddr_heads hp]
    cases m.modify prev
        (fun nd ↦ { nd with list := { nd.list with addr := e.list.addr } }) with
    | error e => rfl
    | ok m₁ =>
      have hpoison : ofListHead (.ofPtr Hotring.listPoison1) = listPoison1 := by decide
      rw [Except.map, Fault.ok_bind, Fault.ok_bind, ← hpoison, storeNext_heads he]

end Nodes

end Jeopardy.Hotring.Packed
