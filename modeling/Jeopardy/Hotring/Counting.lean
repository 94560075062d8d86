import Jeopardy.Hotring.Collect
import Jeopardy.Hotring.Delete
import Jeopardy.Hotring.Region

/-!
# What the operations do to the counters

A node counts in the link word, a head in its own word. Linking copies whole link words, so a new
node starts with the counter of its predecessor and is then set to one; a search adds one at the
node it finds and one at the head of the bucket; a shift clears the counters of its ring.
-/

namespace Jeopardy.Hotring

open Rings Fault

variable {D : Type} [DoubleArith D] {m m' m₁ : Mem} {h h' : Hash} {p q key value a : Nat}
  {f : HashNode → HashNode} {g : GetResult} {xs : List Nat}

/-! ### Stores -/

theorem counter_update (m : Mem) (p a : Nat) (f : HashNode → HashNode) :
    (m.update p f).counter a =
      if a = p then ((m.node a).map (fun nd ↦ (f nd).list.counter.toNat)).getD 0
      else m.counter a := by
  rw [Mem.counter, Mem.node_update]
  split
  · rw [Option.map_map]
    rfl
  · rfl

/-- A store to a node changes no counter of another one. -/
theorem counter_modify_of_ne (hr : m.modify p f = .ok m') (ha : a ≠ p) :
    m'.counter a = m.counter a := by
  obtain ⟨-, rfl⟩ := Mem.modify_eq_ok.mp hr
  rw [counter_update, if_neg ha]

/-- A store that keeps the counter of its node keeps all. -/
theorem counter_modify_same (hr : m.modify p f = .ok m')
    (hf : ∀ nd, (f nd).list.counter = nd.list.counter) (a : Nat) :
    m'.counter a = m.counter a := by
  obtain ⟨-, rfl⟩ := Mem.modify_eq_ok.mp hr
  rw [counter_update]
  split
  · simp only [hf]
    rfl
  · rfl

theorem counter_modify_const {c : BitVec 14} (hr : m.modify p f = .ok m')
    (hf : ∀ nd, (f nd).list.counter = c) (a : Nat) :
    m'.counter a = if a = p then c.toNat else m.counter a := by
  obtain ⟨⟨nd, hnd⟩, rfl⟩ := Mem.modify_eq_ok.mp hr
  rw [counter_update]
  split
  · next ha =>
    rw [ha, hnd, Option.map_some, hf]
    rfl
  · rfl

theorem counter_bump (hr : bumpCounter m p = .ok m') (a : Nat) :
    m'.counter a = if a = p then (m.counter a + 1) % 2 ^ 14 else m.counter a := by
  obtain ⟨⟨nd, hnd⟩, rfl⟩ := Mem.modify_eq_ok.mp hr
  rw [counter_update]
  split
  · next ha =>
    rw [ha, hnd, Option.map_some, Mem.counter_of_node hnd, Option.getD_some, BitVec.toNat_add]
    rfl
  · rfl

theorem counter_alloc (m : Mem) (nd : HashNode) (ha : a ≠ m.brk) :
    (m.alloc nd).counter a = m.counter a := by
  rw [Mem.counter, Mem.node_alloc, if_neg ha, Mem.counter]

theorem counter_listAdd {new : Nat} (hr : listAdd m new p = .ok m') (ha : a ≠ new) :
    m'.counter a = m.counter a := by
  obtain ⟨nd, -, hr⟩ := bind_eq_ok.mp hr
  obtain ⟨m₁, h1, h2⟩ := bind_eq_ok.mp hr
  rw [counter_modify_same h2 (fun _ ↦ rfl), counter_modify_of_ne h1 ha]

/-! ### Search -/

/-- The counter of the head of bucket `i`, zero for an empty one. -/
def Hash.accesses (h : Hash) (i : Nat) : Nat :=
  ((h.slots i).map (fun head ↦ head.counter.toNat)).getD 0

theorem accesses_of_slot {i : Nat} {head : Head} (hs : h.slots i = some head) :
    h.accesses i = head.counter.toNat := by
  rw [Hash.accesses, hs]
  rfl

theorem accesses_setSlot (h : Hash) (i j : Nat) (v : Option Head) :
    (h.setSlot i v).accesses j =
      if j = i then (v.map (fun head ↦ head.counter.toNat)).getD 0 else h.accesses j := by
  rw [Hash.accesses, Hash.setSlot]
  by_cases hj : j = i
  · simp only [hj, if_true]
  · simp only [hj, if_false]
    rfl

/-- The search loop counts at the node it answers. -/
theorem counter_foldRing_get {c : Nat} {s : Nat × Option GetResult}
    (hr : foldRing (getBody q) m xs (c, none) = .ok (m', s)) (a : Nat) :
    m'.counter a = if (s.2.getD .absent).node = some a then (m.counter a + 1) % 2 ^ 14
      else m.counter a := by
  induction xs generalizing c with
  | nil =>
    obtain ⟨rfl, rfl⟩ := Prod.mk.inj (Except.ok.inj hr)
    rfl
  | cons x xs ih =>
    obtain ⟨out, hb, hr⟩ := bind_eq_ok.mp hr
    obtain ⟨nd, -, hb⟩ := bind_eq_ok.mp hb
    split at hb
    · obtain ⟨m₂, hbump, hb⟩ := bind_eq_ok.mp hb
      cases hb
      cases hr
      rw [counter_bump hbump]
      simp only [Option.getD_some, Option.some.injEq, eq_comm]
    · obtain ⟨nd', -, hb⟩ := bind_eq_ok.mp hb
      split at hb
      · cases hb
        cases hr
        rfl
      · split at hb
        · cases hb
          cases hr
          rfl
        · split at hb
          · cases hb
            cases hr
            rfl
          · cases hb
            exact ih hr

/-- `__hash_get` counts at the node it answers, and at the head of the bucket. -/
theorem rawHashGet_counts (gm : Geometry h) (hb : BucketAt m h (h.index q) xs)
    (hr : rawHashGet m h q = .ok (m', h', g)) :
    (∀ a, m'.counter a = if g.node = some a then (m.counter a + 1) % 2 ^ 14 else m.counter a) ∧
      ∀ i, h'.accesses i = if i = h.index q ∧ xs ≠ [] then (h.accesses i + 1) % 2 ^ 15
        else h.accesses i := by
  rw [rawHashGet, gm.hashCode_eq, ok_bind] at hr
  simp only [hb.slot_eq, ok_bind] at hr
  cases hslot : h.slots (h.index q) with
  | none =>
    have hnil : xs = [] := by simpa [hslot, eq_comm] using hb.head
    rw [hslot] at hr
    cases hr
    refine ⟨fun a ↦ rfl, fun i ↦ ?_⟩
    rw [if_neg (fun hi ↦ hi.2 hnil)]
  | some head =>
    obtain ⟨ys, rfl⟩ : ∃ ys, xs = head.addr :: ys := by
      have hh := hb.head
      rw [hslot, Option.map_some, eq_comm, List.head?_eq_some_iff] at hh
      exact hh
    simp only [hslot] at hr
    obtain ⟨nd, -, hr⟩ := bind_eq_ok.mp hr
    have hhead (i : Nat) : (h.setSlot (h.index q)
        (some { head with counter := head.counter + 1 })).accesses i =
          if i = h.index q ∧ head.addr :: ys ≠ [] then (h.accesses i + 1) % 2 ^ 15
          else h.accesses i := by
      rw [accesses_setSlot]
      by_cases hi : i = h.index q
      · rw [if_pos hi, if_pos ⟨hi, List.cons_ne_nil _ _⟩, hi, accesses_of_slot hslot,
          Option.map_some, Option.getD_some, BitVec.toNat_add]
        rfl
      · rw [if_neg hi, if_neg (fun h ↦ hi h.1)]
    split at hr
    · obtain ⟨m₂, hbump, hr⟩ := bind_eq_ok.mp hr
      cases hr
      refine ⟨fun a ↦ ?_, hhead⟩
      rw [counter_bump hbump]
      simp only [Option.some.injEq, eq_comm]
    · obtain ⟨⟨m₂, s⟩, hloop, hr⟩ := bind_eq_ok.mp hr
      cases hr
      rw [listForEach_eq_fold _ hb.linked (keepsLinks_getBody q m _)] at hloop
      exact ⟨counter_foldRing_get hloop, hhead⟩

/-! ### Insertion -/

theorem region_univ (m : Mem) : Region Set.univ m :=
  ⟨trivial, fun _ _ ↦ trivial, fun _ _ _ _ ↦ trivial⟩

/-- The insertion loop links, and counts nowhere but at the new node. -/
theorem counter_insertByTag {node head tag : Nat} (hr : insertByTag m node head tag = .ok m')
    (ha : a ≠ node) : m'.counter a = m.counter a := by
  obtain ⟨⟨m₂, prev, added⟩, hloop, hr⟩ := bind_eq_ok.mp hr
  have hkept : m₂.counter a = m.counter a := by
    refine listForEach_invariant (C := Set.univ)
      (I := fun (m' : Mem) (_ : Nat × Bool) ↦ m'.counter a = m.counter a)
      (fun m _ _ ↦ region_univ m) ?_ ?_ rfl trivial hloop
    · intro m₃ pos s m₄ s' hI _ hb
      obtain ⟨nd, -, hb⟩ := bind_eq_ok.mp hb
      obtain ⟨nd', -, hb⟩ := bind_eq_ok.mp hb
      split at hb
      · obtain ⟨m₅, hadd, hb⟩ := bind_eq_ok.mp hb
        cases hb
        exact (counter_listAdd hadd ha).trans hI
      · split at hb
        · obtain ⟨m₅, hadd, hb⟩ := bind_eq_ok.mp hb
          cases hb
          exact (counter_listAdd hadd ha).trans hI
        · cases hb
    · intro m₃ pos s m₄ s' hI _ hb
      rw [createBody_yield hb]
      exact hI
  simp only at hr
  split at hr
  · cases hr
    exact hkept
  · exact (counter_listAdd hr ha).trans hkept

/-- A created node starts with one access, and the head of a new bucket with none. -/
theorem rawHashCreate_counts {i tag node : Nat}
    (hr : rawHashCreate m h i tag = .ok (m', h', node)) :
    node = m.brk ∧ (∀ a, m'.counter a = if a = m.brk then 1 else m.counter a) ∧
      h'.accesses = h.accesses := by
  obtain ⟨slot, hslot, hr⟩ := bind_eq_ok.mp hr
  obtain ⟨-, hslot⟩ := slot_eq_ok hslot
  have hone {m₁ : Mem} (hone : setCounterOne m₁ m.brk = .ok m')
      (hkept : ∀ a, a ≠ m.brk → m₁.counter a = m.counter a) (a : Nat) :
      m'.counter a = if a = m.brk then 1 else m.counter a := by
    rw [counter_modify_const hone (fun _ ↦ rfl)]
    by_cases ha : a = m.brk
    · rw [if_pos ha, if_pos ha]
      rfl
    · rw [if_neg ha, if_neg ha, hkept a ha]
  cases slot with
  | some head =>
    obtain ⟨m₁, hins, hr⟩ := bind_eq_ok.mp hr
    obtain ⟨m₂, hset, hr⟩ := bind_eq_ok.mp hr
    cases hr
    refine ⟨rfl, hone hset (fun a ha ↦ ?_), rfl⟩
    rw [counter_insertByTag hins ha, counter_alloc m _ ha]
  | none =>
    obtain ⟨m₁, hinit, hr⟩ := bind_eq_ok.mp hr
    obtain ⟨m₂, hset, hr⟩ := bind_eq_ok.mp hr
    cases hr
    refine ⟨rfl, hone hset (fun a ha ↦ ?_), ?_⟩
    · rw [counter_modify_of_ne hinit ha, counter_alloc m _ ha]
    · funext j
      rw [accesses_setSlot]
      by_cases hj : j = i
      · rw [if_pos hj, hj, Hash.accesses, hslot]
        rfl
      · rw [if_neg hj]

/-- `hash_insert` counts one access of the new node, and none of its bucket. -/
theorem hashInsert_counts {e : Int} (hr : hashInsert m h key value = .ok (m', h', e)) :
    (∀ a, m'.counter a = if a = m.brk then 1 else m.counter a) ∧ h'.accesses = h.accesses := by
  obtain ⟨⟨index, tag⟩, -, hr⟩ := bind_eq_ok.mp hr
  obtain ⟨⟨m₁, h₁, node⟩, hc, hr⟩ := bind_eq_ok.mp hr
  obtain ⟨⟨m₂, e₂⟩, he, hr⟩ := bind_eq_ok.mp hr
  have hsame : m₂ = m' ∧ h₁ = h' := by
    simp only [pure, Except.pure] at hr
    split at hr
    · cases hr
      exact ⟨rfl, rfl⟩
    · cases hr
      exact ⟨rfl, rfl⟩
  obtain ⟨rfl, rfl⟩ := hsame
  obtain ⟨rfl, hcounter, hacc⟩ := rawHashCreate_counts hc
  refine ⟨fun a ↦ ?_, hacc⟩
  rw [← hcounter a]
  obtain ⟨nd, -, he⟩ := bind_eq_ok.mp he
  split at he
  · cases he
    rfl
  · obtain ⟨m₃, hset, he⟩ := bind_eq_ok.mp he
    cases he
    exact counter_modify_same hset (fun _ ↦ rfl) a

/-! ### Deletion -/

/-- `free` of a node leaves the counters of the others. -/
theorem counter_nodeFree (hr : hotringNodeFree m p = .ok m') :
    m'.node p = none ∧ ∀ a, a ≠ p → m'.counter a = m.counter a := by
  obtain ⟨nd, -, hr⟩ := bind_eq_ok.mp hr
  cases hr
  refine ⟨by rw [Mem.node_free, if_pos rfl], fun a ha ↦ ?_⟩
  rw [Mem.counter, Mem.node_free, if_neg ha, Mem.counter]

/-- `hotring_delete` searches like `__hash_get`. The nodes that are left keep what they counted,
and so does the head unless its slot is cleared. -/
theorem hotringDelete_counts {b : Bool} (hr : hotringDelete m h q = .ok (m', h', b)) :
    ∃ m₁ h₁ g, rawHashGet m h q = .ok (m₁, h₁, g) ∧
      ((g.ret = .notFound ∧ m' = m₁ ∧ h' = h₁) ∨
        ∃ e, g.node = some e ∧ m'.node e = none ∧ (∀ a, a ≠ e → m'.counter a = m₁.counter a) ∧
          ((g.prev ≠ 0 ∧ h' = h₁) ∨
            g.prev = 0 ∧ ∃ i t, hashCode h₁ q = .ok (i, t) ∧ h' = h₁.setSlot i none)) := by
  obtain ⟨⟨m₁, h₁, g⟩, hg, hr⟩ := bind_eq_ok.mp hr
  refine ⟨m₁, h₁, g, hg, ?_⟩
  simp only at hr
  split at hr
  · right
    cases hnode : g.node with
    | none =>
      rw [hnode] at hr
      cases hr
    | some e =>
      simp only [hnode] at hr
      obtain ⟨m₂, hdel, hr⟩ := bind_eq_ok.mp hr
      obtain ⟨m₃, hfree, hr⟩ := bind_eq_ok.mp hr
      obtain ⟨h₂, hclear, hr⟩ := bind_eq_ok.mp hr
      cases hr
      obtain ⟨hgone, hkept⟩ := counter_nodeFree hfree
      refine ⟨e, rfl, hgone, fun a ha ↦ ?_, ?_⟩
      · rw [hkept a ha]
        split at hdel
        · obtain ⟨nd, -, hdel⟩ := bind_eq_ok.mp hdel
          obtain ⟨m₄, h1, h2⟩ := bind_eq_ok.mp hdel
          rw [counter_modify_of_ne h2 ha, counter_modify_same h1 (fun _ ↦ rfl)]
        · cases hdel
          rfl
      · split at hclear
        · next hprev =>
          obtain ⟨⟨i, t⟩, hcode, hclear⟩ := bind_eq_ok.mp hclear
          obtain ⟨slot, -, hclear⟩ := bind_eq_ok.mp hclear
          cases hclear
          exact Or.inr ⟨hprev, i, t, hcode, rfl⟩
        · next hprev =>
          cases hclear
          exact Or.inl ⟨hprev, rfl⟩
  · next hret =>
    cases hr
    exact Or.inl ⟨not_not.mp hret, rfl, rfl⟩

/-! ### Shift -/

theorem counter_foldRing_collect {cs cs' : List Nat}
    (hr : foldRing collectBody m xs cs = .ok (m', cs')) (a : Nat) :
    m'.counter a = if a ∈ xs then 0 else m.counter a := by
  induction xs generalizing m cs with
  | nil =>
    obtain ⟨rfl, -⟩ := Prod.mk.inj (Except.ok.inj hr)
    rfl
  | cons x xs ih =>
    obtain ⟨out, hb, hr⟩ := bind_eq_ok.mp hr
    cases out with
    | done r => exact absurd hb collectBody_not_done
    | yield r =>
      obtain ⟨m₁, cs₁⟩ := r
      obtain ⟨nd, -, hb⟩ := bind_eq_ok.mp hb
      split at hb
      · obtain ⟨m₂, hreset, hb⟩ := bind_eq_ok.mp hb
        cases hb
        rw [ih hr, counter_modify_const hreset (fun _ ↦ rfl)]
        simp only [List.mem_cons]
        by_cases hx : a = x
        · simp [hx]
        · simp [hx]
      · cases hb

/-- A shift clears the counters of its ring and of its head. -/
theorem doHotspotShift_counts {head head' : Head} {ret : HotspotShift}
    (hring : IsRing m.next (head.addr :: xs))
    (hr : doHotspotShift D m head = .ok (m', head', ret)) :
    (∀ a, m'.counter a = if a ∈ head.addr :: xs then 0 else m.counter a) ∧
      head'.counter = 0 := by
  obtain ⟨nd, hnd, hr⟩ := bind_eq_ok.mp hr
  obtain ⟨m₁, hreset, hr⟩ := bind_eq_ok.mp hr
  obtain ⟨⟨m₂, counters⟩, hc, hr⟩ := bind_eq_ok.mp hr
  obtain ⟨m₁', hreset', hs, -⟩ := resetCounter_eq (Mem.read_eq_ok.mp hnd)
  obtain rfl := Except.ok.inj (hreset.symm.trans hreset')
  have hring₁ : IsRing m₁.next (head.addr :: xs) := hs.next ▸ hring
  rw [listForEach_eq_fold _ hring₁ (keepsLinks_collectBody m₁ _)] at hc
  have hcounter (a : Nat) : m₂.counter a = if a ∈ head.addr :: xs then 0 else m.counter a := by
    rw [counter_foldRing_collect hc, counter_modify_const hreset (fun _ ↦ rfl)]
    simp only [List.mem_cons]
    by_cases hx : a = head.addr
    · simp [hx]
    · simp [hx]
  simp only at hr
  split at hr
  · cases hr
    exact ⟨hcounter, rfl⟩
  · obtain ⟨⟨m₃, i, hottest⟩, hpick, hend⟩ := bind_eq_ok.mp hr
    clear hr
    have hsame : m₃ = m₂ := by
      refine listForEach_invariant (C := Set.univ) (I := fun m' (_ : Nat × Nat) ↦ m' = m₂)
        (fun m _ _ ↦ region_univ m) ?_ ?_ rfl trivial hpick
      · intro m₄ pos s m₅ s' hI _ hb
        rcases pickBody_mem hb with ⟨-, hd⟩ | ⟨-, hd⟩
        · cases hd
          exact hI
        · cases hd
      · intro m₄ pos s m₅ s' hI _ hb
        rcases pickBody_mem hb with ⟨-, hd⟩ | ⟨-, hd⟩
        · cases hd
        · cases hd
          exact hI
    subst hsame
    simp only at hend
    split at hend
    · cases hend
      exact ⟨hcounter, rfl⟩
    · cases hend
      exact ⟨hcounter, rfl⟩

end Jeopardy.Hotring
