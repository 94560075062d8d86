import Jeopardy.ChainingHash.Order
import Jeopardy.Lib.Linked

/-!
# The lists of `list.h`

Model of the operations of `chaining_hash/list.h` on `struct list_head`, here the links of a hash
node. A program over them keeps a family of circular lists, each with its head. The operations do
on the links what they are meant to do on these lists, and a walk from a head finds its entries.
-/

namespace Jeopardy.ChainingHash

open Rings

variable {α : Type} {m m' : Mem α} {rs : List (List Nat)} {e p q x : Nat} {xs : List Nat}

/-! ### The operations -/

/-- `LIST_POISON1`, `LIST_POISON2`, `chaining_hash/list.h:34–35`. -/
def LIST_POISON1 : Nat := 0x00100100

def LIST_POISON2 : Nat := 0x00200200

/-- `list_add`, `chaining_hash/list.h:92–95`. -/
def listAdd (m : Mem α) (new head : Nat) : Except Fault (Mem α) := do
  let nd ← m.read head
  rawListAdd m new head nd.next

/-- `__list_del`, `chaining_hash/list.h:118–122`. -/
def rawListDel (m : Mem α) (prev next : Nat) : Except Fault (Mem α) := do
  let m ← m.modify next (fun nd ↦ { nd with prev := prev })
  m.modify prev (fun nd ↦ { nd with next := next })

/-- `list_del`, `chaining_hash/list.h:130–135`. -/
def listDel (m : Mem α) (entry : Nat) : Except Fault (Mem α) := do
  let nd ← m.read entry
  let m ← rawListDel m nd.prev nd.next
  let m ← m.modify entry (fun nd ↦ { nd with next := LIST_POISON1 })
  m.modify entry (fun nd ↦ { nd with prev := LIST_POISON2 })

/-- `list_del_init`, `chaining_hash/list.h:143–147`. -/
def listDelInit (m : Mem α) (entry : Nat) : Except Fault (Mem α) := do
  let nd ← m.read entry
  let m ← rawListDel m nd.prev nd.next
  initListHead m entry

/-- `list_move`, `chaining_hash/list.h:154–158`. -/
def listMove (m : Mem α) (list head : Nat) : Except Fault (Mem α) := do
  let nd ← m.read list
  let m ← rawListDel m nd.prev nd.next
  listAdd m list head

/-- `list_move_tail`, `chaining_hash/list.h:165–170`. -/
def listMoveTail (m : Mem α) (list head : Nat) : Except Fault (Mem α) := do
  let nd ← m.read list
  let m ← rawListDel m nd.prev nd.next
  listAddTail m list head

/-- `list_empty`, `chaining_hash/list.h:176–179`. -/
def listEmpty (m : Mem α) (head : Nat) : Except Fault Bool := do
  let nd ← m.read head
  return nd.next == head

/-- `__list_splice`, `chaining_hash/list.h:181–193`. -/
def rawListSplice (m : Mem α) (list head : Nat) : Except Fault (Mem α) := do
  let nd ← m.read list
  let first := nd.next
  let last := nd.prev
  let nh ← m.read head
  let «at» := nh.next
  let m ← m.modify first (fun nd ↦ { nd with prev := head })
  let m ← m.modify head (fun nd ↦ { nd with next := first })
  let m ← m.modify last (fun nd ↦ { nd with next := «at» })
  m.modify «at» (fun nd ↦ { nd with prev := last })

/-- `list_splice`, `chaining_hash/list.h:200–204`. -/
def listSplice (m : Mem α) (list head : Nat) : Except Fault (Mem α) := do
  if ← listEmpty m list then return m
  else rawListSplice m list head

/-- `list_splice_init`, `chaining_hash/list.h:213–220`. -/
def listSpliceInit (m : Mem α) (list head : Nat) : Except Fault (Mem α) := do
  if ← listEmpty m list then return m
  else
    let m ← rawListSplice m list head
    initListHead m list

/-- The loop of `list_for_each`, `chaining_hash/list.h:237–239`: the positions it visits. -/
def listForEachLoop (m : Mem α) (head : Nat) : Nat → Nat → Except Fault (List Nat)
  | 0, _ => .error .diverges
  | fuel + 1, pos =>
    if pos = head then return []
    else do
      let nd ← m.read pos
      let visits ← listForEachLoop m head fuel nd.next
      return pos :: visits

def listForEach (m : Mem α) (fuel head : Nat) : Except Fault (List Nat) := do
  let nd ← m.read head
  listForEachLoop m head fuel nd.next

/-- The loop of `list_for_each_entry_reverse`, `chaining_hash/list.h:290–293`. -/
def listForEachReverseLoop (m : Mem α) (head : Nat) : Nat → Nat → Except Fault (List Nat)
  | 0, _ => .error .diverges
  | fuel + 1, pos =>
    if pos = head then return []
    else do
      let nd ← m.read pos
      let visits ← listForEachReverseLoop m head fuel nd.prev
      return pos :: visits

def listForEachReverse (m : Mem α) (fuel head : Nat) : Except Fault (List Nat) := do
  let nd ← m.read head
  listForEachReverseLoop m head fuel nd.prev

/-! ### What the operations do to the lists -/

/-- The links of the memory are those of the lists. -/
def Lists (m : Mem α) (rs : List (List Nat)) : Prop := AreLinked m.nextAt m.prevAt rs

theorem read_next {c : Nat} (hn : m.nextAt p = some c) :
    ∃ nd, m.node p = some nd ∧ m.read p = .ok nd ∧ nd.next = c := by
  obtain ⟨nd, hnd, hc⟩ := Option.map_eq_some_iff.mp hn
  exact ⟨nd, hnd, read_eq hnd, hc⟩

namespace Lists

theorem isSome (h : Lists m rs) (hp : p ∈ rs.flatten) : (m.node p).isSome := by
  obtain ⟨c, -, hc⟩ := AreRings.next_mem h.rings hp
  exact isSome_of_nextAt hc

/-- The neighbours of a cell of the lists. -/
theorem neighbours (h : Lists m rs) (hp : p ∈ rs.flatten) :
    ∃ nd, m.read p = .ok nd ∧ nd.prev ∈ rs.flatten ∧ nd.next ∈ rs.flatten ∧
      m.nextAt nd.prev = some p ∧ m.nextAt p = some nd.next ∧ m.prevAt p = some nd.prev ∧
      m.prevAt nd.next = some p := by
  obtain ⟨c, hc, hpc⟩ := AreRings.next_mem h.rings hp
  obtain ⟨nd, hnd, hread, rfl⟩ := read_next hpc
  have hprev : m.prevAt p = some nd.prev := by rw [Mem.prevAt, hnd, Option.map_some]
  obtain ⟨hz, hzp⟩ := AreLinked.next_of_prev h hp hprev
  exact ⟨nd, hread, hz, hc, hzp, hpc, hprev, h.back p hp _ hpc⟩

/-- `INIT_LIST_HEAD` makes a new empty list. -/
theorem init (h : Lists m rs) (hp : p ∉ rs.flatten) (hs : (m.node p).isSome) :
    ∃ m', initListHead m p = .ok m' ∧ Relinked m m' ∧ Lists m' ([p] :: rs) := by
  obtain ⟨m', he, hr, hself, hother⟩ :=
    Relinked.modify hs (fun nd ↦ { nd with next := p, prev := p }) (fun _ ↦ rfl)
  obtain ⟨nd, hnd⟩ := Option.isSome_iff_exists.mp hs
  have hframe : ∀ a ∈ rs.flatten, m'.node a = m.node a := fun a ha ↦
    hother a (fun heq ↦ hp (heq ▸ ha))
  refine ⟨m', he, hr, AreLinked.cons_singleton (h.congr (fun a ha ↦ ?_) (fun a ha ↦ ?_)) hp ?_ ?_⟩
  · rw [Mem.nextAt, hframe a ha, Mem.nextAt]
  · rw [Mem.prevAt, hframe a ha, Mem.prevAt]
  · rw [Mem.nextAt, hself, hnd]
    rfl
  · rw [Mem.prevAt, hself, hnd]
    rfl

/-- `list_add` puts the new entry behind `p`. -/
theorem add (h : Lists m rs) (hp : p ∈ rs.flatten) (hx : x ∉ rs.flatten)
    (hs : (m.node x).isSome) :
    ∃ m', listAdd m x p = .ok m' ∧ Relinked m m' ∧ Lists m' (rs.map (insertAfter p x)) := by
  obtain ⟨nd, hread, -, hq, -, hpq, -, -⟩ := h.neighbours hp
  have hxp : x ≠ p := fun heq ↦ hx (heq ▸ hp)
  have hxq : x ≠ nd.next := fun heq ↦ hx (heq ▸ hq)
  obtain ⟨m', he, hbrk, hitems, hnext, hprev⟩ := rawListAdd_links hs (h.isSome hp) (h.isSome hq)
  refine ⟨m', ?_, ⟨hitems, hbrk⟩, AreLinked.insertAfter h hp hx hpq ?_ ?_ ?_ ?_ ?_ ?_⟩
  · rw [listAdd, hread, Fault.ok_bind, he]
  · rw [hnext, if_neg hxp, if_pos rfl]
  · rw [hnext, if_pos rfl]
  · intro c hcp hcx
    rw [hnext, if_neg hcp, if_neg hcx]
  · rw [hprev, if_pos rfl]
  · rw [hprev, if_neg hxq.symm, if_pos rfl]
  · intro c hcq hcx
    rw [hprev, if_neg hcx, if_neg hcq]

/-- `list_add_tail` puts the new entry in front of `p`. -/
theorem addTail (h : Lists m rs) (hp : p ∈ rs.flatten) (hx : x ∉ rs.flatten)
    (hs : (m.node x).isSome) :
    ∃ m', listAddTail m x p = .ok m' ∧ Relinked m m' ∧ Lists m' (rs.map (insertBefore p x)) := by
  obtain ⟨nd, hread, hz, -, hzp, -, -, -⟩ := h.neighbours hp
  have hxp : x ≠ p := fun heq ↦ hx (heq ▸ hp)
  have hxz : x ≠ nd.prev := fun heq ↦ hx (heq ▸ hz)
  obtain ⟨m', he, hbrk, hitems, hnext, hprev⟩ := rawListAdd_links hs (h.isSome hz) (h.isSome hp)
  refine ⟨m', ?_, ⟨hitems, hbrk⟩, AreLinked.insertBefore h hz hx hzp ?_ ?_ ?_ ?_ ?_ ?_⟩
  · rw [listAddTail, hread, Fault.ok_bind, he]
  · rw [hnext, if_neg hxz, if_pos rfl]
  · rw [hnext, if_pos rfl]
  · intro c hcz hcx
    rw [hnext, if_neg hcz, if_neg hcx]
  · rw [hprev, if_pos rfl]
  · rw [hprev, if_neg hxp.symm, if_pos rfl]
  · intro c hcp hcx
    rw [hprev, if_neg hcx, if_neg hcp]

/-- `__list_del` takes an entry out of its list. -/
theorem rawDel (h : Lists m rs) (he : e ∈ rs.flatten) :
    ∃ nd m', m.read e = .ok nd ∧ rawListDel m nd.prev nd.next = .ok m' ∧ Relinked m m' ∧
      Lists m' (rs.map (·.erase e)) := by
  obtain ⟨nd, hread, hz, hy, hze, hey, -, -⟩ := h.neighbours he
  obtain ⟨m₁, e1, r1, n1, p1⟩ := modify_prev (h.isSome hy) nd.prev
  obtain ⟨m₂, e2, r2, n2, p2⟩ := modify_next (p := nd.prev)
    (by rw [r1.isSome]; exact h.isSome hz) nd.next
  refine ⟨nd, m₂, hread, ?_, r1.trans r2, AreLinked.erase h hz hze hey ?_ ?_ ?_ ?_⟩
  · rw [rawListDel, e1, Fault.ok_bind, e2]
  · intro _
    rw [n2, Function.update_self]
  · intro c hcz _
    rw [n2, Function.update_of_ne hcz, n1]
  · intro _
    rw [p2, p1, Function.update_self]
  · intro c hcy _
    rw [p2, p1, Function.update_of_ne hcy]

/-- `list_del`. -/
theorem del (h : Lists m rs) (he : e ∈ rs.flatten) :
    ∃ m', listDel m e = .ok m' ∧ Relinked m m' ∧ Lists m' (rs.map (·.erase e)) := by
  obtain ⟨nd, m₁, hread, e1, r1, h1⟩ := h.rawDel he
  have hs : (m₁.node e).isSome := by
    rw [r1.isSome]
    exact h.isSome he
  obtain ⟨m₂, e2, r2, n2, p2⟩ := modify_next hs LIST_POISON1
  obtain ⟨m₃, e3, r3, n3, p3⟩ := modify_prev (p := e) (by rw [r2.isSome]; exact hs) LIST_POISON2
  refine ⟨m₃, ?_, (r1.trans r2).trans r3, ?_⟩
  · rw [listDel, hread, Fault.ok_bind, e1, Fault.ok_bind, e2, Fault.ok_bind, e3]
  · rw [Lists, n3, n2, p3, p2]
    exact AreLinked.update_of_notMem h1 h.rings.notMem_erase _ _

/-- `list_del_init`. -/
theorem delInit (h : Lists m rs) (he : e ∈ rs.flatten) :
    ∃ m', listDelInit m e = .ok m' ∧ Relinked m m' ∧ Lists m' ([e] :: rs.map (·.erase e)) := by
  obtain ⟨nd, m₁, hread, e1, r1, h1⟩ := h.rawDel he
  obtain ⟨m₂, e2, r2, h2⟩ := h1.init h.rings.notMem_erase (by rw [r1.isSome]; exact h.isSome he)
  refine ⟨m₂, ?_, r1.trans r2, h2⟩
  rw [listDelInit, hread, Fault.ok_bind, e1, Fault.ok_bind, e2]

/-- `list_move`. -/
theorem move (h : Lists m rs) (he : e ∈ rs.flatten) (hp : p ∈ rs.flatten) (hne : p ≠ e) :
    ∃ m', listMove m e p = .ok m' ∧ Relinked m m' ∧
      Lists m' ((rs.map (·.erase e)).map (insertAfter p e)) := by
  obtain ⟨nd, m₁, hread, e1, r1, h1⟩ := h.rawDel he
  obtain ⟨m₂, e2, r2, h2⟩ := h1.add (mem_flatten_erase hp hne) h.rings.notMem_erase
    (by rw [r1.isSome]; exact h.isSome he)
  refine ⟨m₂, ?_, r1.trans r2, h2⟩
  rw [listMove, hread, Fault.ok_bind, e1, Fault.ok_bind, e2]

/-- `list_move_tail`. -/
theorem moveTail (h : Lists m rs) (he : e ∈ rs.flatten) (hp : p ∈ rs.flatten) (hne : p ≠ e) :
    ∃ m', listMoveTail m e p = .ok m' ∧ Relinked m m' ∧
      Lists m' ((rs.map (·.erase e)).map (insertBefore p e)) := by
  obtain ⟨nd, m₁, hread, e1, r1, h1⟩ := h.rawDel he
  obtain ⟨m₂, e2, r2, h2⟩ := h1.addTail (mem_flatten_erase hp hne) h.rings.notMem_erase
    (by rw [r1.isSome]; exact h.isSome he)
  refine ⟨m₂, ?_, r1.trans r2, h2⟩
  rw [listMoveTail, hread, Fault.ok_bind, e1, Fault.ok_bind, e2]

/-- `list_empty`. -/
theorem empty_eq (h : Lists m rs) (hr : p :: xs ∈ rs) :
    listEmpty m p = .ok (decide (xs = [])) := by
  have hring := h.rings.ring _ hr
  obtain ⟨nd, hread, -, -, -, hn, -, -⟩ := h.neighbours (List.mem_flatten.mpr ⟨_, hr,
    List.mem_cons_self⟩)
  rw [listEmpty, hread, Fault.ok_bind]
  refine congrArg Except.ok (Bool.eq_iff_iff.mpr ?_)
  rw [beq_iff_eq, decide_eq_true_iff]
  cases xs with
  | nil => exact iff_of_true (Option.some.inj (hn.symm.trans (isRing_singleton.mp hring))) rfl
  | cons x xs =>
    obtain rfl : nd.next = x := Option.some.inj (hn.symm.trans hring.2.1)
    refine iff_of_false (fun heq ↦ ?_) (List.cons_ne_nil _ _)
    exact (List.nodup_cons.mp hring.nodup).1 (heq ▸ List.mem_cons_self)

/-- `__list_splice` of a list that is not empty: its head is left behind. -/
theorem rawSplice {l : Nat} (h : Lists m rs) (hl : l :: xs ∈ rs) (hxs : xs ≠ [])
    (hp : p ∈ rs.flatten) (hpl : p ∉ l :: xs) :
    ∃ m', rawListSplice m l p = .ok m' ∧ Relinked m m' ∧
      Lists m' ((rs.erase (l :: xs)).map (spliceAfter p xs)) := by
  have hlm : l ∈ rs.flatten := List.mem_flatten.mpr ⟨_, hl, List.mem_cons_self⟩
  obtain ⟨nd, hread, hz, hf, hzl, hlf, -, -⟩ := h.neighbours hlm
  obtain ⟨nh, hreadp, -, hy, -, hpy, -, -⟩ := h.neighbours hp
  have hring := h.rings.ring _ hl
  -- the first and the last entry of the list
  have hfirst : xs.head? = some nd.next := by
    cases xs with
    | nil => exact absurd rfl hxs
    | cons y ys => exact congrArg some (Option.some.inj (hring.2.1.symm.trans hlf))
  have hlast : xs.getLast? = some nd.prev := by
    rcases List.eq_nil_or_concat xs with rfl | ⟨ws, y, rfl⟩
    · exact absurd rfl hxs
    · rw [List.concat_eq_append] at hring hl ⊢
      rw [List.getLast?_append, List.getLast?_singleton, Option.some_or]
      refine congrArg some (h.rings.next_inj ?_ hz (hring.next_last.trans hzl.symm))
      exact List.mem_flatten.mpr ⟨_, hl, by simp⟩
  have hfx : nd.next ∈ xs := List.mem_of_mem_head? hfirst
  have hzx : nd.prev ∈ xs := List.mem_of_mem_getLast? hlast
  have hyl : nh.next ∉ l :: xs := fun hm ↦ hpl (h.rings.mem_of_next hl hm hp hpy)
  obtain ⟨m₁, e1, r1, n1, p1⟩ := modify_prev (h.isSome hf) p
  obtain ⟨m₂, e2, r2, n2, p2⟩ := modify_next (p := p) (by rw [r1.isSome]; exact h.isSome hp) nd.next
  have r12 := r1.trans r2
  obtain ⟨m₃, e3, r3, n3, p3⟩ := modify_next (p := nd.prev)
    (by rw [r12.isSome]; exact h.isSome hz) nh.next
  have r13 := r12.trans r3
  obtain ⟨m₄, e4, r4, n4, p4⟩ := modify_prev (p := nh.next)
    (by rw [r13.isSome]; exact h.isSome hy) nd.prev
  have hpz : p ≠ nd.prev := fun heq ↦ hpl (heq ▸ List.mem_cons_of_mem l hzx)
  have hfy : nd.next ≠ nh.next := fun heq ↦ hyl (heq ▸ List.mem_cons_of_mem l hfx)
  have hnext : m₄.nextAt = Function.update (Function.update m.nextAt p (some nd.next)) nd.prev
      (some nh.next) := by rw [n4, n3, n2, n1]
  have hprev : m₄.prevAt = Function.update (Function.update m.prevAt nd.next (some p)) nh.next
      (some nd.prev) := by rw [p4, p3, p2, p1]
  refine ⟨m₄, ?_, r13.trans r4, AreLinked.splice h hl hfirst hlast hp hpy ?_ ?_ ?_ ?_ ?_ ?_⟩
  · rw [rawListSplice, hread, Fault.ok_bind, hreadp, Fault.ok_bind]
    simp only [e1, e2, e3, Fault.ok_bind, e4]
  · rw [hnext, Function.update_of_ne hpz, Function.update_self]
  · rw [hnext, Function.update_self]
  · intro c hcp hcz _
    rw [hnext, Function.update_of_ne hcz, Function.update_of_ne hcp]
  · rw [hprev, Function.update_of_ne hfy, Function.update_self]
  · rw [hprev, Function.update_self]
  · intro c hcf hcy _
    rw [hprev, Function.update_of_ne hcy, Function.update_of_ne hcf]

/-! ### Walks -/

/-- A walk along the links from `c` to the head. -/
theorem forEachLoop_eq {head c fuel : Nat} (hl : Links m.nextAt c xs head)
    (hne : head ∉ c :: xs) (hfuel : xs.length + 1 < fuel) :
    listForEachLoop m head fuel c = .ok (c :: xs) := by
  induction xs generalizing c fuel with
  | nil =>
    obtain ⟨n, rfl⟩ := Nat.exists_eq_add_of_le' (show 2 ≤ fuel by simp at hfuel; omega)
    obtain ⟨nd, -, hread, hn⟩ := read_next hl
    rw [listForEachLoop, if_neg (Ne.symm (List.ne_of_not_mem_cons hne)), hread, Fault.ok_bind,
      hn, listForEachLoop, if_pos rfl]
    rfl
  | cons x xs ih =>
    rw [List.length_cons] at hfuel
    obtain ⟨n, rfl⟩ := Nat.exists_eq_add_of_le' (show 1 ≤ fuel by omega)
    obtain ⟨nd, -, hread, hn⟩ := read_next hl.1
    rw [List.mem_cons, not_or] at hne
    rw [listForEachLoop, if_neg (Ne.symm hne.1), hread, Fault.ok_bind, hn,
      ih hl.2 hne.2 (by omega)]
    rfl

theorem forEachReverseLoop_eq {head c fuel : Nat} (hl : Links m.prevAt c xs head)
    (hne : head ∉ c :: xs) (hfuel : xs.length + 1 < fuel) :
    listForEachReverseLoop m head fuel c = .ok (c :: xs) := by
  induction xs generalizing c fuel with
  | nil =>
    obtain ⟨n, rfl⟩ := Nat.exists_eq_add_of_le' (show 2 ≤ fuel by simp at hfuel; omega)
    obtain ⟨nd, hnd, hn⟩ := Option.map_eq_some_iff.mp hl
    rw [listForEachReverseLoop, if_neg (Ne.symm (List.ne_of_not_mem_cons hne)), read_eq hnd,
      Fault.ok_bind, hn, listForEachReverseLoop, if_pos rfl]
    rfl
  | cons x xs ih =>
    rw [List.length_cons] at hfuel
    obtain ⟨n, rfl⟩ := Nat.exists_eq_add_of_le' (show 1 ≤ fuel by omega)
    obtain ⟨nd, hnd, hn⟩ := Option.map_eq_some_iff.mp hl.1
    rw [List.mem_cons, not_or] at hne
    rw [listForEachReverseLoop, if_neg (Ne.symm hne.1), read_eq hnd, Fault.ok_bind, hn,
      ih hl.2 hne.2 (by omega)]
    rfl

/-- Both walks from a head find the entries of its list. -/
theorem forEach_eq {head fuel : Nat} (h : Lists m rs) (hr : head :: xs ∈ rs)
    (hfuel : xs.length < fuel) :
    listForEach m fuel head = .ok xs ∧ listForEachReverse m fuel head = .ok xs.reverse := by
  have hdouble := h.doubleRing hr
  have hmem : head ∉ xs := (List.nodup_cons.mp hdouble.next.nodup).1
  have hmem' : head ∉ xs.reverse := (List.nodup_cons.mp hdouble.prev.nodup).1
  obtain ⟨nd, hread, -, -, -, hn, hp, -⟩ := h.neighbours (List.mem_flatten.mpr ⟨_, hr,
    List.mem_cons_self⟩)
  obtain ⟨n, rfl⟩ := Nat.exists_eq_add_of_le' (show 1 ≤ fuel by omega)
  constructor
  · rw [listForEach, hread, Fault.ok_bind]
    cases xs with
    | nil =>
      obtain rfl : nd.next = head :=
        Option.some.inj (hn.symm.trans (isRing_singleton.mp hdouble.next))
      rw [listForEachLoop, if_pos rfl]
      rfl
    | cons c xs =>
      obtain rfl : nd.next = c := Option.some.inj (hn.symm.trans hdouble.next.2.1)
      exact forEachLoop_eq hdouble.next.2.2 hmem hfuel
  · rw [listForEachReverse, hread, Fault.ok_bind]
    have hlen : xs.reverse.length = xs.length := List.length_reverse
    generalize hys : xs.reverse = ys at hlen hmem'
    have hring : IsRing m.prevAt (head :: ys) := hys ▸ hdouble.prev
    cases ys with
    | nil =>
      obtain rfl : nd.prev = head := Option.some.inj (hp.symm.trans (isRing_singleton.mp hring))
      rw [listForEachReverseLoop, if_pos rfl]
      rfl
    | cons c ys =>
      obtain rfl : nd.prev = c := Option.some.inj (hp.symm.trans hring.2.1)
      rw [List.length_cons] at hlen
      exact forEachReverseLoop_eq hring.2.2 hmem' (by omega)

end Lists

/-! ### Programs -/

/-- The calls of a program. -/
inductive ListCall where
  | init (p : Nat)
  | add (x p : Nat)
  | addTail (x p : Nat)
  | del (e : Nat)
  | delInit (e : Nat)
  | move (e p : Nat)
  | moveTail (e p : Nat)
  | splice (l p : Nat)
  | spliceInit (l p : Nat)

/-- One call. -/
def ListCall.step (m : Mem α) : ListCall → Except Fault (Mem α)
  | .init p => initListHead m p
  | .add x p => listAdd m x p
  | .addTail x p => listAddTail m x p
  | .del e => listDel m e
  | .delInit e => listDelInit m e
  | .move e p => listMove m e p
  | .moveTail e p => listMoveTail m e p
  | .splice l p => listSplice m l p
  | .spliceInit l p => listSpliceInit m l p

/-- The entries of the list with the head `l`. -/
def entriesOf (l : Nat) (rs : List (List Nat)) : List Nat :=
  match rs.find? (fun r ↦ r.head? == some l) with
  | some r => r.tail
  | none => []

/-- What a call is meant to do to the lists. -/
def ListCall.effect (rs : List (List Nat)) : ListCall → List (List Nat)
  | .init p => [p] :: rs
  | .add x p => rs.map (insertAfter p x)
  | .addTail x p => rs.map (insertBefore p x)
  | .del e => rs.map (·.erase e)
  | .delInit e => [e] :: rs.map (·.erase e)
  | .move e p => (rs.map (·.erase e)).map (insertAfter p e)
  | .moveTail e p => (rs.map (·.erase e)).map (insertBefore p e)
  | .splice l p =>
    if entriesOf l rs = [] then rs
    else (rs.erase (l :: entriesOf l rs)).map (spliceAfter p (entriesOf l rs))
  | .spliceInit l p =>
    if entriesOf l rs = [] then rs
    else [l] :: (rs.erase (l :: entriesOf l rs)).map (spliceAfter p (entriesOf l rs))

/-- What a call expects: a new entry or head is an allocated node in none of the lists, any other
argument is a cell of them, an entry is not moved next to itself, and a list to be spliced has its
head given and goes into another list. -/
def ListCall.legal (m : Mem α) (rs : List (List Nat)) : ListCall → Bool
  | .init p => (m.node p).isSome && p ∉ rs.flatten
  | .add x p | .addTail x p => (m.node x).isSome && x ∉ rs.flatten && p ∈ rs.flatten
  | .del e | .delInit e => e ∈ rs.flatten
  | .move e p | .moveTail e p => e ∈ rs.flatten && p ∈ rs.flatten && p != e
  | .splice l p | .spliceInit l p =>
    l :: entriesOf l rs ∈ rs && p ∈ rs.flatten && p ∉ l :: entriesOf l rs

/-- A sequence of calls. -/
def runLists : Mem α → List ListCall → Except Fault (Mem α)
  | m, [] => .ok m
  | m, c :: calls => do
    let m ← c.step m
    runLists m calls

/-- The lists after a sequence of calls. -/
def listEffects : List (List Nat) → List ListCall → List (List Nat)
  | rs, [] => rs
  | rs, c :: calls => listEffects (c.effect rs) calls

/-- Every call of the program is legal when it is made. Nodes are neither allocated nor freed. -/
def LegalCalls (m : Mem α) : List (List Nat) → List ListCall → Bool
  | _, [] => true
  | rs, c :: calls => c.legal m rs && LegalCalls m (c.effect rs) calls

/-- One legal call does to the lists what it is meant to do. -/
theorem Lists.step {c : ListCall} (h : Lists m rs) (hc : c.legal m rs = true) :
    ∃ m', c.step m = .ok m' ∧ Relinked m m' ∧ Lists m' (c.effect rs) := by
  cases c with
  | init p =>
    rw [ListCall.legal, Bool.and_eq_true, decide_eq_true_iff] at hc
    exact h.init hc.2 hc.1
  | add x p =>
    simp only [ListCall.legal, Bool.and_eq_true, decide_eq_true_iff] at hc
    exact h.add hc.2 hc.1.2 hc.1.1
  | addTail x p =>
    simp only [ListCall.legal, Bool.and_eq_true, decide_eq_true_iff] at hc
    exact h.addTail hc.2 hc.1.2 hc.1.1
  | del e =>
    rw [ListCall.legal, decide_eq_true_iff] at hc
    exact h.del hc
  | delInit e =>
    rw [ListCall.legal, decide_eq_true_iff] at hc
    exact h.delInit hc
  | move e p =>
    simp only [ListCall.legal, Bool.and_eq_true, decide_eq_true_iff, bne_iff_ne] at hc
    exact h.move hc.1.1 hc.1.2 hc.2
  | moveTail e p =>
    simp only [ListCall.legal, Bool.and_eq_true, decide_eq_true_iff, bne_iff_ne] at hc
    exact h.moveTail hc.1.1 hc.1.2 hc.2
  | splice l p =>
    simp only [ListCall.legal, Bool.and_eq_true, decide_eq_true_iff] at hc
    rw [ListCall.step, listSplice, h.empty_eq hc.1.1, Fault.ok_bind, ListCall.effect]
    by_cases hxs : entriesOf l rs = []
    · rw [if_pos hxs, if_pos (decide_eq_true hxs)]
      exact ⟨m, rfl, ⟨fun _ ↦ rfl, rfl⟩, h⟩
    · rw [if_neg hxs, if_neg (by simpa using hxs)]
      exact h.rawSplice hc.1.1 hxs hc.1.2 hc.2
  | spliceInit l p =>
    simp only [ListCall.legal, Bool.and_eq_true, decide_eq_true_iff] at hc
    rw [ListCall.step, listSpliceInit, h.empty_eq hc.1.1, Fault.ok_bind, ListCall.effect]
    by_cases hxs : entriesOf l rs = []
    · rw [if_pos hxs, if_pos (decide_eq_true hxs)]
      exact ⟨m, rfl, ⟨fun _ ↦ rfl, rfl⟩, h⟩
    · rw [if_neg hxs, if_neg (by simpa using hxs)]
      obtain ⟨m₁, e1, r1, h1⟩ := h.rawSplice hc.1.1 hxs hc.1.2 hc.2
      have hl : l ∈ rs.flatten := List.mem_flatten.mpr ⟨_, hc.1.1, List.mem_cons_self⟩
      obtain ⟨m₂, e2, r2, h2⟩ := h1.init (h.rings.notMem_splice hc.1.1)
        (by rw [r1.isSome]; exact h.isSome hl)
      exact ⟨m₂, by rw [e1, Fault.ok_bind, e2], r1.trans r2, h2⟩

theorem ListCall.legal_congr (hr : Relinked m m') (c : ListCall) (rs : List (List Nat)) :
    c.legal m' rs = c.legal m rs := by
  cases c <;> simp only [ListCall.legal, hr.isSome]

theorem LegalCalls.congr (hr : Relinked m m') (calls : List ListCall) :
    LegalCalls m' rs calls = LegalCalls m rs calls := by
  induction calls generalizing rs with
  | nil => rfl
  | cons c calls ih => rw [LegalCalls, LegalCalls, ListCall.legal_congr hr, ih]

/-- Induction on the program. -/
theorem Lists.run {calls : List ListCall} (h : Lists m rs)
    (hlegal : LegalCalls m rs calls = true) :
    ∃ m', runLists m calls = .ok m' ∧ Relinked m m' ∧ Lists m' (listEffects rs calls) := by
  induction calls generalizing m rs with
  | nil => exact ⟨m, rfl, ⟨fun _ ↦ rfl, rfl⟩, h⟩
  | cons c calls ih =>
    rw [LegalCalls, Bool.and_eq_true] at hlegal
    obtain ⟨m₁, e1, r1, h1⟩ := h.step hlegal.1
    obtain ⟨m₂, e2, r2, h2⟩ := ih h1 (by rw [LegalCalls.congr r1]; exact hlegal.2)
    exact ⟨m₂, by rw [runLists, e1, Fault.ok_bind, e2], r1.trans r2, h2⟩

theorem lists_nil (m : Mem α) : Lists m [] :=
  ⟨⟨List.Pairwise.nil, fun _ hr ↦ (nomatch hr)⟩, fun _ ha ↦ (nomatch ha)⟩

/-- **Lists.** Every program of legal calls on nodes that are in no list yet completes and leaves
the items alone. Then the lists are disjoint, a walk from a head visits the entries that the calls
were meant to leave in its list, in order, a walk backwards visits them in reverse, and
`list_empty` says whether there are any. -/
theorem lists_run {calls : List ListCall} (hlegal : LegalCalls m [] calls = true) :
    ∃ m', runLists m calls = .ok m' ∧ (∀ q, m'.itemAt q = m.itemAt q) ∧
      (listEffects [] calls).Pairwise List.Disjoint ∧
      ∀ head xs, head :: xs ∈ listEffects [] calls →
        listEmpty m' head = .ok (decide (xs = [])) ∧ ∀ fuel, xs.length < fuel →
          listForEach m' fuel head = .ok xs ∧ listForEachReverse m' fuel head = .ok xs.reverse := by
  obtain ⟨m', hrun, hr, h⟩ := (lists_nil m).run hlegal
  exact ⟨m', hrun, hr.items, h.rings.disjoint, fun head xs hmem ↦
    ⟨h.empty_eq hmem, fun fuel hfuel ↦ h.forEach_eq hmem hfuel⟩⟩

/-- Five nodes in no list. -/
def fiveNodes : Mem Nat := ⟨fun p ↦ if p < 6 then some ⟨none, 0, 0⟩ else none, 6⟩

/-- `lists_run` of two lists that exchange their entries. -/
theorem lists_run_two_lists :
    ∃ m', runLists fiveNodes [.init 1, .init 2, .add 3 1, .addTail 4 1, .add 5 1, .move 5 2,
        .spliceInit 1 5, .delInit 3] = .ok m' ∧ (∀ q, m'.itemAt q = fiveNodes.itemAt q) ∧
      (listEffects [] [.init 1, .init 2, .add 3 1, .addTail 4 1, .add 5 1, .move 5 2,
        .spliceInit 1 5, .delInit 3]).Pairwise List.Disjoint ∧
      ∀ head xs, head :: xs ∈ listEffects [] [.init 1, .init 2, .add 3 1, .addTail 4 1, .add 5 1,
        .move 5 2, .spliceInit 1 5, .delInit 3] →
        listEmpty m' head = .ok (decide (xs = [])) ∧ ∀ fuel, xs.length < fuel →
          listForEach m' fuel head = .ok xs ∧ listForEachReverse m' fuel head = .ok xs.reverse :=
  lists_run (by decide)

example : listEffects [] [.init 1, .init 2, .add 3 1, .addTail 4 1, .add 5 1, .move 5 2,
    .spliceInit 1 5, .delInit 3] = [[3], [1], [2, 5, 4]] := by decide

end Jeopardy.ChainingHash
