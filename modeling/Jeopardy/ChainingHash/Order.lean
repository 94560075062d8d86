import Jeopardy.ChainingHash.Hash
import Jeopardy.Lib.Ring

/-!
# The order of a bucket

Every bucket of the chaining hash table is a ring linked both ways, without a sentinel, and its
head is the node of the first item that came. An insertion links its node in between the last
node and the head, so the ring read from the head holds the items in the order of their
insertion.
-/

namespace Jeopardy.ChainingHash

open Rings

variable {α : Type} {m m' : Mem α} {h : Hash} {p c : Nat} {xs : List Nat}

/-- The forward link of an allocated node. -/
def Mem.nextAt (m : Mem α) (p : Nat) : Option Nat := (m.node p).map HashNode.next

/-- The backward link of an allocated node. -/
def Mem.prevAt (m : Mem α) (p : Nat) : Option Nat := (m.node p).map HashNode.prev

theorem modify_spec (hp : (m.node p).isSome) (f : HashNode α → HashNode α) :
    ∃ m', m.modify p f = .ok m' ∧ m'.brk = m.brk ∧
      ∀ q, m'.node q = if q = p then (m.node p).map f else m.node q := by
  obtain ⟨nd, hnd⟩ := Option.isSome_iff_exists.mp hp
  refine ⟨_, modify_eq hnd f, rfl, fun q ↦ ?_⟩
  rw [hnd, Option.map_some]
  exact Function.update_apply _ _ _ _

/-- The values of a field after a store to one node. -/
private theorem map_modified {f : HashNode α → HashNode α} (g : HashNode α → Nat)
    (hself : m'.node p = (m.node p).map f) (hother : ∀ q, q ≠ p → m'.node q = m.node q) :
    (fun q ↦ (m'.node q).map g)
      = Function.update (fun q ↦ (m.node q).map g) p ((m.node p).map (fun nd ↦ g (f nd))) := by
  funext q
  by_cases hq : q = p
  · rw [hq, Function.update_self, hself, Option.map_map]
    rfl
  · rw [Function.update_of_ne hq, hother q hq]

/-- A store to the forward link of an allocated node. -/
theorem modify_next (hp : (m.node p).isSome) (a : Nat) :
    ∃ m', m.modify p (fun nd ↦ { nd with next := a }) = .ok m' ∧ Relinked m m' ∧
      m'.nextAt = Function.update m.nextAt p (some a) ∧ m'.prevAt = m.prevAt := by
  obtain ⟨m', he, hr, hself, hother⟩ :=
    Relinked.modify hp (fun nd ↦ { nd with next := a }) (fun _ ↦ rfl)
  have hnext := map_modified HashNode.next hself hother
  have hprev := map_modified HashNode.prev hself hother
  obtain ⟨nd, hnd⟩ := Option.isSome_iff_exists.mp hp
  rw [hnd] at hnext
  exact ⟨m', he, hr, hnext, hprev.trans (Function.update_eq_self p m.prevAt)⟩

/-- A store to the backward link of an allocated node. -/
theorem modify_prev (hp : (m.node p).isSome) (a : Nat) :
    ∃ m', m.modify p (fun nd ↦ { nd with prev := a }) = .ok m' ∧ Relinked m m' ∧
      m'.nextAt = m.nextAt ∧ m'.prevAt = Function.update m.prevAt p (some a) := by
  obtain ⟨m', he, hr, hself, hother⟩ :=
    Relinked.modify hp (fun nd ↦ { nd with prev := a }) (fun _ ↦ rfl)
  have hnext := map_modified HashNode.next hself hother
  have hprev := map_modified HashNode.prev hself hother
  obtain ⟨nd, hnd⟩ := Option.isSome_iff_exists.mp hp
  rw [hnd] at hprev
  exact ⟨m', he, hr, hnext.trans (Function.update_eq_self p m.nextAt), hprev⟩

/-- The four stores of `__list_add` between two allocated nodes. -/
theorem rawListAdd_links {new prev next : Nat} (hn : (m.node new).isSome)
    (hp : (m.node prev).isSome) (hx : (m.node next).isSome) :
    ∃ m', rawListAdd m new prev next = .ok m' ∧ m'.brk = m.brk ∧
      (∀ q, m'.itemAt q = m.itemAt q) ∧
      (∀ q, m'.nextAt q = if q = prev then some new else if q = new then some next
        else m.nextAt q) ∧
      ∀ q, m'.prevAt q = if q = new then some prev else if q = next then some new
        else m.prevAt q := by
  obtain ⟨m₁, e1, r1, n1, p1⟩ := modify_prev hx new
  obtain ⟨m₂, e2, r2, n2, p2⟩ := modify_next (p := new) (by rw [r1.isSome]; exact hn) next
  have r12 : Relinked m m₂ := r1.trans r2
  obtain ⟨m₃, e3, r3, n3, p3⟩ := modify_prev (p := new) (by rw [r12.isSome]; exact hn) prev
  have r13 : Relinked m m₃ := r12.trans r3
  obtain ⟨m₄, e4, r4, n4, p4⟩ := modify_next (p := prev) (by rw [r13.isSome]; exact hp) new
  have r14 : Relinked m m₄ := r13.trans r4
  refine ⟨m₄, ?_, r14.brk, r14.items, fun q ↦ ?_, fun q ↦ ?_⟩
  · rw [rawListAdd, e1, Fault.ok_bind, e2, Fault.ok_bind, e3, Fault.ok_bind, e4]
  · rw [n4, Function.update_apply, n3, n2, Function.update_apply, n1]
  · rw [p4, p3, Function.update_apply, p2, p1, Function.update_apply]

/-- The nodes of a bucket, the head first, are linked both ways in this order. -/
def Bucket (m : Mem α) : List Nat → Prop
  | [] => True
  | c :: xs => IsDoubleRing m.nextAt m.prevAt c xs

theorem Bucket.congr (hb : Bucket m xs)
    (hm : ∀ p ∈ xs, m'.nextAt p = m.nextAt p ∧ m'.prevAt p = m.prevAt p) : Bucket m' xs := by
  cases xs with
  | nil => trivial
  | cons c xs => exact IsDoubleRing.congr hb hm

theorem isSome_itemAt (m : Mem α) (p : Nat) : (m.itemAt p).isSome = (m.node p).isSome :=
  Option.isSome_map

theorem isSome_of_nextAt {q : Nat} (h : m.nextAt p = some q) : (m.node p).isSome := by
  obtain ⟨nd, hnd, -⟩ := Option.map_eq_some_iff.mp h
  exact Option.isSome_of_eq_some hnd

theorem Bucket.isSome (hb : Bucket m xs) (hp : p ∈ xs) : (m.node p).isSome := by
  cases xs with
  | nil => cases hp
  | cons c xs =>
    obtain ⟨q, -, hq⟩ := IsDoubleRing.next hb |>.next_mem hp
    exact isSome_of_nextAt hq

/-- What becomes of the memory when a zeroed node joins the bucket `xs`. -/
structure Joined (m m' : Mem α) (xs : List Nat) : Prop where
  brk : m'.brk = m.brk + 1
  item : m'.itemAt m.brk = some none
  items : ∀ q, q ≠ m.brk → m'.itemAt q = m.itemAt q
  frame : ∀ q, q ≠ m.brk → q ∉ xs → m'.nextAt q = m.nextAt q ∧ m'.prevAt q = m.prevAt q
  bucket : Bucket m' (xs ++ [m.brk])

/-- `list_add_tail` of the new node on a bucket in use. -/
theorem listAddTail_spec (hb : Bucket m (c :: xs)) (hfresh : m.brk ∉ c :: xs) :
    ∃ m', listAddTail (hashNodeAlloc m).2 m.brk c = .ok m' ∧ Joined m m' (c :: xs) := by
  have hring : IsDoubleRing m.nextAt m.prevAt c xs := hb
  obtain ⟨nd, hnd⟩ := Option.isSome_iff_exists.mp (hb.isSome List.mem_cons_self)
  have hz : m.prevAt c = some nd.prev := by rw [Mem.prevAt, hnd, Option.map_some]
  obtain ⟨us, hus, -⟩ := hring.last hz
  have hmem : nd.prev ∈ c :: xs := by simp [hus]
  have hold (q : Nat) (hq : q ≠ m.brk) : (hashNodeAlloc m).2.node q = m.node q := alloc_of_ne m hq
  have hc : c ≠ m.brk := fun h ↦ hfresh (h ▸ List.mem_cons_self)
  have hzb : nd.prev ≠ m.brk := fun h ↦ hfresh (h ▸ hmem)
  have hnew : ((hashNodeAlloc m).2.node m.brk).isSome := by rw [alloc_self]; rfl
  have hlast : ((hashNodeAlloc m).2.node nd.prev).isSome := by
    rw [hold _ hzb]
    exact hb.isSome hmem
  have hhead : ((hashNodeAlloc m).2.node c).isSome := by rw [hold _ hc, hnd]; rfl
  obtain ⟨m', he, hbrk, hitems, hnext, hprev⟩ := rawListAdd_links hnew hlast hhead
  have hnextAt (q : Nat) (hq : q ≠ m.brk) (hqz : q ≠ nd.prev) : m'.nextAt q = m.nextAt q := by
    rw [hnext, if_neg hqz, if_neg hq, Mem.nextAt, hold q hq, Mem.nextAt]
  have hprevAt (q : Nat) (hq : q ≠ m.brk) (hqc : q ≠ c) : m'.prevAt q = m.prevAt q := by
    rw [hprev, if_neg hq, if_neg hqc, Mem.prevAt, hold q hq, Mem.prevAt]
  refine ⟨m', ?_, hbrk, ?_, fun q hq ↦ ?_, fun q hq hqx ↦ ⟨?_, ?_⟩, ?_⟩
  · rw [listAddTail, read_eq (by rw [hold _ hc, hnd]), Fault.ok_bind, he]
  · rw [hitems, Mem.itemAt, alloc_self, Option.map_some]
  · rw [hitems, Mem.itemAt, hold q hq, Mem.itemAt]
  · exact hnextAt q hq (fun h ↦ hqx (h ▸ hmem))
  · exact hprevAt q hq (fun h ↦ hqx (h ▸ List.mem_cons_self))
  · refine IsDoubleRing.append hring hfresh hz ?_ ?_ ?_ ?_ hnextAt hprevAt
    · rw [hnext, if_neg hzb.symm, if_pos rfl]
    · rw [hnext, if_pos rfl]
    · rw [hprev, if_pos rfl]
    · rw [hprev, if_neg hc, if_pos rfl]

/-- `INIT_LIST_HEAD` of the new node of an empty bucket. -/
theorem initListHead_spec (m : Mem α) :
    ∃ m', initListHead (hashNodeAlloc m).2 m.brk = .ok m' ∧ Joined m m' [] := by
  obtain ⟨m', he, hbrk, hk⟩ := modify_spec (m := (hashNodeAlloc m).2) (p := m.brk)
    (by rw [alloc_self]; rfl) (fun nd ↦ { nd with next := m.brk, prev := m.brk })
  have hself : m'.node m.brk = some ⟨none, m.brk, m.brk⟩ := by
    rw [hk, if_pos rfl, alloc_self, Option.map_some]
  have hold (q : Nat) (hq : q ≠ m.brk) : m'.node q = m.node q := by
    rw [hk, if_neg hq, alloc_of_ne m hq]
  refine ⟨m', he, hbrk, ?_, fun q hq ↦ ?_, fun q hq _ ↦ ⟨?_, ?_⟩, ?_, ?_⟩
  · rw [Mem.itemAt, hself, Option.map_some]
  · rw [Mem.itemAt, hold q hq, Mem.itemAt]
  · rw [Mem.nextAt, hold q hq, Mem.nextAt]
  · rw [Mem.prevAt, hold q hq, Mem.prevAt]
  · rw [isRing_singleton, Mem.nextAt, hself, Option.map_some]
  · rw [List.reverse_nil, isRing_singleton, Mem.prevAt, hself, Option.map_some]

/-- `__hash_create` puts the new node at the end of the bucket. -/
theorem rawHashCreate_joined {index : Int} (h0 : 0 ≤ index) (h1 : index < h.size)
    (hs : h.slots index.toNat = xs.head?) (hb : Bucket m xs) (hfresh : m.brk ∉ xs) :
    ∃ m' h', rawHashCreate m h index = .ok (m', h', m.brk) ∧ Joined m m' xs ∧
      h'.size = h.size ∧ h'.slots index.toNat = (xs ++ [m.brk]).head? ∧
      ∀ j, j ≠ index.toNat → h'.slots j = h.slots j := by
  cases xs with
  | nil =>
    obtain ⟨m', he, hj⟩ := initListHead_spec m
    refine ⟨m', { h with slots := Function.update h.slots index.toNat (some m.brk) }, ?_, hj, rfl,
      Function.update_self _ _ _, fun j hj ↦ Function.update_of_ne hj _ _⟩
    rw [rawHashCreate, slot_eq h0 h1, Fault.ok_bind, hs]
    change (initListHead (hashNodeAlloc m).2 m.brk >>= _) = _
    rw [he]
    rfl
  | cons c xs =>
    obtain ⟨m', he, hj⟩ := listAddTail_spec hb hfresh
    refine ⟨m', h, ?_, hj, rfl, hs, fun _ _ ↦ rfl⟩
    rw [rawHashCreate, slot_eq h0 h1, Fault.ok_bind, hs]
    change (listAddTail (hashNodeAlloc m).2 m.brk c >>= _) = _
    rw [he]
    rfl

/-- `insert_entries` on a node without an item stores the item and keeps the links. -/
theorem insertEntries_spec (hp : m.itemAt p = some none) (item : Option α) :
    ∃ m', insertEntries m p item = .ok (m', 1) ∧ m'.brk = m.brk ∧ m'.itemAt p = some item ∧
      (∀ q, q ≠ p → m'.itemAt q = m.itemAt q) ∧
      ∀ q, m'.nextAt q = m.nextAt q ∧ m'.prevAt q = m.prevAt q := by
  obtain ⟨nd, hnd, hi⟩ := Option.map_eq_some_iff.mp hp
  obtain ⟨m', he, hbrk, hk⟩ := modify_spec (m := m) (p := p)
    (by rw [hnd]; rfl) (fun nd ↦ { nd with item := item })
  refine ⟨m', ?_, hbrk, ?_, fun q hq ↦ ?_, fun q ↦ ⟨?_, ?_⟩⟩
  · rw [insertEntries, read_eq hnd, Fault.ok_bind, if_neg (by rw [hi]; exact Bool.false_ne_true),
      he]
    rfl
  · rw [Mem.itemAt, hk, if_pos rfl, hnd, Option.map_some, Option.map_some]
  · rw [Mem.itemAt, hk, if_neg hq, Mem.itemAt]
  · rw [Mem.nextAt, hk]
    split
    · next hq => rw [Option.map_map, hq]; rfl
    · rfl
  · rw [Mem.prevAt, hk]
    split
    · next hq => rw [Option.map_map, hq]; rfl
    · rfl

/-- After the calls, the slots lead to disjoint buckets that hold the inserted items in order. -/
structure Ordered (size : Nat) (calls : List (Nat × Option α)) (m : Mem α) (h : Hash)
    (ring : Nat → List Nat) : Prop where
  size_eq : h.size = size
  fresh : ∀ p, m.brk ≤ p → m.itemAt p = none
  head : ∀ i < size, h.slots i = (ring i).head?
  bucket : ∀ i < size, Bucket m (ring i)
  disjoint : ∀ i < size, ∀ j < size, i ≠ j → ∀ p ∈ ring i, p ∉ ring j
  items : ∀ i < size, (ring i).map m.itemAt =
    (calls.filter (HashesTo size i)).map (fun call ↦ some call.2)

section Run

variable {size : Nat} {calls : List (Nat × Option α)} {ring : Nat → List Nat}

theorem Ordered.nil (size : Nat) :
    Ordered size [] (⟨fun _ ↦ none, 1⟩ : Mem α) (hashAlloc size) (fun _ ↦ []) :=
  ⟨rfl, fun _ _ ↦ rfl, fun _ _ ↦ rfl, fun _ _ ↦ trivial, fun _ _ _ _ _ _ h ↦ (nomatch h),
    fun _ _ ↦ rfl⟩

theorem Ordered.notMem (ho : Ordered size calls m h ring) {i : Nat} (hi : i < size) :
    m.brk ∉ ring i := by
  intro hm
  have hs := (ho.bucket i hi).isSome hm
  rw [← isSome_itemAt, ho.fresh _ le_rfl] at hs
  exact Bool.false_ne_true hs

/-- One insertion: the item goes to the end of its bucket. -/
theorem Ordered.insert {key : Nat} (ho : Ordered size calls m h ring) (hs : 1 ≤ size)
    (hk : key < 2 ^ 31) (item : Option α) :
    ∃ m' h' ring', hashInsert m h key item = .ok (m', h', 0) ∧
      Ordered size (calls ++ [(key, item)]) m' h' ring' := by
  have hcode : hashCode h key = ((key % size : Nat) : Int) := by
    rw [hashCode_eq hk, ho.size_eq]
  have hidx : key % size < size := Nat.mod_lt _ hs
  have hto (i : Nat) : HashesTo size i (key, item) = decide (key % size = i) := by
    rw [HashesTo, hashCode_eq hk]
    exact decide_eq_decide.mpr Nat.cast_inj
  obtain ⟨m₁, h', hc, hj, hsize, hslot, hslots⟩ := rawHashCreate_joined
    (Int.natCast_nonneg (key % size))
    (by rw [ho.size_eq]; exact_mod_cast hidx)
    (by rw [Int.toNat_natCast]; exact ho.head _ hidx) (ho.bucket _ hidx) (ho.notMem hidx)
  obtain ⟨m', he, hbrk, hnew, hitems, hlinks⟩ := insertEntries_spec hj.item item
  have hitem (q : Nat) (hq : q ≠ m.brk) : m'.itemAt q = m.itemAt q :=
    (hitems q hq).trans (hj.items q hq)
  have hne (i : Nat) (hi : i < size) (p : Nat) (hp : p ∈ ring i) : p ≠ m.brk := fun he ↦
    ho.notMem hi (he ▸ hp)
  have hold (i : Nat) (hi : i < size) : (ring i).map m'.itemAt = (ring i).map m.itemAt :=
    List.map_congr_left (fun p hp ↦ hitem p (hne i hi p hp))
  rw [Int.toNat_natCast] at hslot hslots
  refine ⟨m', h', Function.update ring (key % size) (ring (key % size) ++ [m.brk]), ?_,
    hsize.trans ho.size_eq, fun p hp ↦ ?_, fun i hi ↦ ?_, fun i hi ↦ ?_, ?_, fun i hi ↦ ?_⟩
  · rw [hashInsert, hcode, hc, Fault.ok_bind]
    change (insertEntries m₁ m.brk item >>= _) = _
    rw [he, Fault.ok_bind]
    rfl
  · rw [hbrk, hj.brk] at hp
    rw [hitem p (by omega), ho.fresh p (by omega)]
  · by_cases hik : i = key % size
    · rw [hik, Function.update_self, hslot]
    · rw [Function.update_of_ne hik, hslots i hik, ho.head i hi]
  · by_cases hik : i = key % size
    · rw [hik, Function.update_self]
      exact hj.bucket.congr (fun p _ ↦ hlinks p)
    · rw [Function.update_of_ne hik]
      refine (ho.bucket i hi).congr (fun p hp ↦ ?_)
      have hframe := hj.frame p (hne i hi p hp) (ho.disjoint i hi _ hidx hik p hp)
      exact ⟨(hlinks p).1.trans hframe.1, (hlinks p).2.trans hframe.2⟩
  · intro i hi j hj' hij p hpi hpj
    by_cases hik : i = key % size
    · subst hik
      rw [Function.update_self, List.mem_append, List.mem_singleton] at hpi
      rw [Function.update_of_ne hij.symm] at hpj
      rcases hpi with hpi | rfl
      · exact ho.disjoint _ hi j hj' hij p hpi hpj
      · exact ho.notMem hj' hpj
    · rw [Function.update_of_ne hik] at hpi
      by_cases hjk : j = key % size
      · subst hjk
        rw [Function.update_self, List.mem_append, List.mem_singleton] at hpj
        rcases hpj with hpj | rfl
        · exact ho.disjoint i hi _ hj' hij p hpi hpj
        · exact ho.notMem hi hpi
      · rw [Function.update_of_ne hjk] at hpj
        exact ho.disjoint i hi j hj' hij p hpi hpj
  · rw [List.filter_append, List.map_append, ← ho.items i hi]
    by_cases hik : i = key % size
    · subst hik
      rw [Function.update_self, List.map_append, hold _ hi, List.map_singleton, hnew,
        List.filter_singleton, hto, decide_eq_true rfl]
      rfl
    · rw [Function.update_of_ne hik, hold i hi, List.filter_singleton, hto,
        decide_eq_false (fun h ↦ hik h.symm)]
      simp

/-- Every sequence of insertions of keys below `2^31` completes in an ordered table. -/
theorem runItems_ordered (hs : 1 ≤ size) (hk : ∀ call ∈ calls, call.1 < 2 ^ 31) :
    ∃ m h ring, runItems size calls = .ok (m, h) ∧ Ordered size calls m h ring := by
  induction calls using List.reverseRecOn with
  | nil => exact ⟨_, _, _, rfl, Ordered.nil size⟩
  | append_singleton calls call ih =>
    obtain ⟨m, h, ring, hr, ho⟩ := ih (fun c hc ↦ hk c (List.mem_append_left _ hc))
    obtain ⟨m', h', ring', hi, ho'⟩ :=
      ho.insert hs (hk call (List.mem_append_right _ (List.mem_singleton_self call))) call.2
    refine ⟨m', h', ring', ?_, ho'⟩
    rw [runItems] at hr
    rw [runItems, List.foldlM_append, hr, Fault.ok_bind, List.foldlM_cons, hi]
    rfl

/-- The bucket of slot `i` holds the items of the calls that hash there, in the order of the
calls along `next` from the head, and backwards along `prev`; the slot is `NULL` if there are
none. -/
def InOrder (calls : List (Nat × Option α)) (m : Mem α) (h : Hash) (i : Nat) : Prop :=
  (h.slots i = none ↔ ∀ call ∈ calls, hashCode h call.1 ≠ i) ∧
    ∀ c, h.slots i = some c → ∃ xs, IsDoubleRing m.nextAt m.prevAt c xs ∧
      (c :: xs).map m.itemAt =
        (calls.filter (fun call ↦ hashCode h call.1 = i)).map (fun call ↦ some call.2)

/-- **Insertion order.** After any insertions of keys below `2^31`, equal keys and `NULL` items
included, every bucket is in order. -/
theorem runItems_inOrder (hs : 1 ≤ size) (hk : ∀ call ∈ calls, call.1 < 2 ^ 31) :
    ∃ m h, runItems size calls = .ok (m, h) ∧ h.size = size ∧ ∀ i < size, InOrder calls m h i := by
  obtain ⟨m, h, ring, hr, ho⟩ := runItems_ordered hs hk
  refine ⟨m, h, hr, ho.size_eq, fun i hi ↦ ?_⟩
  have hfilter : calls.filter (HashesTo size i) =
      calls.filter (fun call ↦ hashCode h call.1 = i) := by
    refine List.filter_congr (fun call _ ↦ ?_)
    rw [HashesTo, hashCode_congr (hashAlloc size) ho.size_eq]
  have hitems := ho.items i hi
  rw [hfilter] at hitems
  refine ⟨?_, fun c hc ↦ ?_⟩
  · rw [ho.head i hi, List.head?_eq_none_iff, ← List.map_eq_nil_iff (f := m.itemAt), hitems,
      List.map_eq_nil_iff, List.filter_eq_nil_iff]
    simp
  · rw [ho.head i hi] at hc
    obtain ⟨xs, hx⟩ := List.head?_eq_some_iff.mp hc
    have hb := ho.bucket i hi
    rw [hx] at hitems hb
    exact ⟨xs, hb, hitems⟩

end Run

/-- `runItems_inOrder` of three insertions into two slots, with an equal key and a `NULL` item. -/
theorem runItems_inOrder_three :
    ∃ (m : Mem Nat) (h : Hash), runItems 2 [(0, some 10), (3, none), (0, some 12)] = .ok (m, h) ∧
      h.size = 2 ∧ ∀ i < 2, InOrder [(0, some 10), (3, none), (0, some 12)] m h i :=
  runItems_inOrder (by decide) (by decide)

end Jeopardy.ChainingHash
