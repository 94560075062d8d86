import Jeopardy.Hotring.Shift

/-!
# Deletion

`hotring_delete` of a node behind the head unlinks that node. Of the head it frees the head
structure and leaves the slot empty, so the rest of the ring is lost. On sorted tables this
says exactly when a deletion removes its key and nothing else.
-/

namespace Jeopardy.Hotring

open Rings Fault

variable {D : Type} [DoubleArith D] {m m' : Mem} {h h' : Hash} {ring : Nat → List Nat}
  {f : Nat → Option Nat} {q key value : Nat} {xs : List Nat}

/-- The head of the bucket of `q` is the node with key `q`, and it links to another node. -/
def headShared (m : Mem) (h : Hash) (q : Nat) : Bool :=
  match h.slots (h.index q) with
  | Option.none => false
  | some head =>
    match m.node head.addr with
    | Option.none => false
    | some nd => decide (nd.key = q ∧ nd.list.addr ≠ head.addr)

/-- `hotring_delete` of `q` on a table of keys of `n` bits that should hold `f`: it tells
whether `q` was stored, and afterwards `__hash_get` finds what `f` holds without `q`. -/
def DeleteLaw (n : Nat) (m : Mem) (h : Hash) (f : Nat → Option Nat) (q : Nat) : Prop :=
  ∃ m' h' found, hotringDelete m h q = .ok (m', h', found) ∧ found = (f q).isSome ∧
    ∀ p < 2 ^ n, lookup m' h' p =
      .ok ((Function.update f q Option.none p).map (fun v ↦ (p, v)))

/-! ### The bucket afterwards -/

/-- The ring of bucket `i` is replaced by a part `ys` of it; the nodes that stay keep their
data, and the other rings are not touched. -/
structure Replaced (m m' : Mem) (h h' : Hash) (ring : Nat → List Nat) (i : Nat)
    (ys : List Nat) : Prop where
  index_lt : i < h.size
  shape : SameShape h h'
  slots : ∀ j, j ≠ i → (h'.slots j).map Head.addr = (h.slots j).map Head.addr
  bucket : BucketAt m' h' i ys
  sublist : ys.Sublist (ring i)
  kept : ∀ a ∈ ys, m.SameData m' a
  frame : ∀ j < h.size, j ≠ i → ∀ a ∈ ring j, m'.cell a = m.cell a

namespace Replaced

variable {i : Nat} {ys : List Nat}

theorem index (p : Replaced m m' h h' ring i ys) (q : Nat) : h'.index q = h.index q := by
  rw [Hash.index, Hash.bits, p.shape.n, p.shape.k, Hash.index, Hash.bits]

theorem ring_sublist (p : Replaced m m' h h' ring i ys) (j : Nat) :
    (Function.update ring i ys j).Sublist (ring j) := by
  by_cases hji : j = i
  · subst hji
    rw [Function.update_self]
    exact p.sublist
  · rw [Function.update_of_ne hji]

theorem data (p : Replaced m m' h h' ring i ys) {j a : Nat} (hj : j < h.size)
    (ha : a ∈ Function.update ring i ys j) : m.SameData m' a := by
  by_cases hji : j = i
  · subst hji
    rw [Function.update_self] at ha
    exact p.kept a ha
  · rw [Function.update_of_ne hji] at ha
    exact Mem.sameData_of_cell (p.frame j hj hji a ha)

theorem table (p : Replaced m m' h h' ring i ys) (t : Table m h ring) :
    Table m' h' (Function.update ring i ys) := by
  refine ⟨t.geometry.congr p.shape.n p.shape.k p.shape.size, ?_, ?_, ?_⟩
  · intro j hj
    rw [p.shape.size] at hj
    by_cases hji : j = i
    · subst hji
      rw [Function.update_self]
      exact p.bucket
    · rw [Function.update_of_ne hji]
      refine ⟨p.shape.size ▸ hj, (p.slots j hji).trans (t.bucket j hj).head, ?_⟩
      apply (t.bucket j hj).linked.congr
      intro a ha
      rw [Mem.next_eq_cell, Mem.next_eq_cell, p.frame j hj hji a ha]
  · intro j hj a ha
    rw [p.shape.size] at hj
    rw [(p.data hj ha).key, p.index]
    exact t.index j hj a ((p.ring_sublist j).subset ha)
  · intro j hj
    rw [p.shape.size] at hj
    rw [List.map_congr_left (fun a ha ↦ (p.data hj ha).key)]
    exact (t.keys_nodup j hj).sublist ((p.ring_sublist j).map m.key)

theorem freshTags (p : Replaced m m' h h' ring i ys) (hf : FreshTags m h ring) :
    FreshTags m' h' (Function.update ring i ys) := by
  intro j hj a ha
  rw [p.shape.size] at hj
  rw [(p.data hj ha).key, (p.data hj ha).tag, Hash.tagOf, Hash.bits, p.shape.n, p.shape.k]
  exact hf j hj a ((p.ring_sublist j).subset ha)

/-- What the table still holds: everything but the keys whose nodes have left. -/
theorem contents_eq_some (p : Replaced m m' h h' ring i ys) (r : Refines m h ring f) {v : Nat}
    (hq : q < 2 ^ h.n) :
    contents m' h' (Function.update ring i ys) q = some v ↔
      f q = some v ∧ (h.index q = i → ∃ a ∈ ys, m.key a = q) := by
  have hi := r.table.geometry.index_lt hq
  rw [(p.table r.table).contents_eq_some (p.shape.n ▸ hq), p.index, ← r.contents q hq,
    r.table.contents_eq_some hq]
  constructor
  · rintro ⟨a, ha, hk, hv⟩
    have hd := p.data hi ha
    rw [hd.key] at hk
    rw [hd.value] at hv
    refine ⟨⟨a, (p.ring_sublist _).subset ha, hk, hv⟩, ?_⟩
    rintro rfl
    rw [Function.update_self] at ha
    exact ⟨a, ha, hk⟩
  · rintro ⟨⟨a, ha, hk, hv⟩, hys⟩
    have hm : a ∈ Function.update ring i ys (h.index q) := by
      by_cases hqi : h.index q = i
      · obtain ⟨b, hb, hbk⟩ := hys hqi
        rw [← hqi, Function.update_self]
        have hb' : b ∈ ring (h.index q) := by
          rw [hqi]
          exact p.sublist.subset hb
        rwa [r.table.node_eq_of_key hi ha hb' (hk.trans hbk.symm)]
      · rwa [Function.update_of_ne hqi]
    have hd := p.data hi hm
    exact ⟨a, hm, hd.key.trans hk, hd.value.trans hv⟩

/-- The table stands for the map without the keys whose nodes have left. -/
theorem refines (p : Replaced m m' h h' ring i ys) (r : Refines m h ring f)
    {g : Nat → Option Nat} (hg : ∀ q < 2 ^ h.n, ∀ v, g q = some v ↔
      f q = some v ∧ (h.index q = i → ∃ a ∈ ys, m.key a = q)) :
    Refines m' h' (Function.update ring i ys) g := by
  refine ⟨p.table r.table, ?_, ?_⟩
  · intro j hj
    rw [p.shape.size] at hj
    exact ((r.sorted j hj).sublist (p.ring_sublist j)).congr (fun a ha ↦ (p.data hj ha).key)
  · intro q hq
    rw [p.shape.n] at hq
    apply Option.ext
    intro v
    rw [p.contents_eq_some r hq, hg q hq]

end Replaced

/-! ### The three paths of a deletion -/

private theorem delete_absent (t : Table m h ring) (hq : q < 2 ^ h.n)
    (hg : ringGet m.key q (ring (h.index q)) = .absent) :
    ∃ m' h', hotringDelete m h q = .ok (m', h', false) ∧ m.SameCells m' ∧ SameHeads h h' := by
  obtain ⟨m₁, h₁, hget, hm, hh⟩ := t.chained.rawHashGet_spec hq
  refine ⟨m₁, h₁, ?_, hm, hh⟩
  rw [hotringDelete, hget, hg]
  rfl

private theorem delete_head (t : Table m h ring) (hq : q < 2 ^ h.n) {c : Nat} {ys : List Nat}
    (hr : ring (h.index q) = c :: ys)
    (hg : ringGet m.key q (ring (h.index q)) = ⟨.accessHot, some c, 0⟩) :
    ∃ m' h', hotringDelete m h q = .ok (m', h', true) ∧
      Replaced m m' h h' ring (h.index q) [] := by
  obtain ⟨m₁, h₁, hget, hm, hh⟩ := t.chained.rawHashGet_spec hq
  have hi := t.geometry.index_lt hq
  have hb := (t.bucket _ hi).congr hm hh
  have t₁ := t.congr hm hh
  obtain ⟨nd, hnd⟩ := Mem.node_of_ring hb.linked (show c ∈ ring (h.index q) by simp [hr])
  have hidx : h₁.index q = h.index q := by
    rw [Hash.index, hh.bits, Hash.index]
  refine ⟨m₁.free c, h₁.setSlot (h.index q) Option.none, ?_, hi, ⟨hh.n, hh.k, hh.size⟩, ?_,
    ⟨hh.size ▸ hi, by simp [Hash.setSlot], isRing_nil⟩, by simp, by simp, ?_⟩
  · rw [hotringDelete, hget, hg]
    simp [hotringNodeFree, Mem.read_eq hnd, hotringHeadFree, t₁.geometry.hashCode_eq,
      hotringHeadFreeByIndex, hidx, hb.slot_eq]
  · intro j hj
    simpa [Hash.setSlot, hj] using hh.addr j
  · intro j hj hji a ha
    have hne : a ≠ c := by
      rintro rfl
      exact t.chained.ring_disjoint hj hi hji ha (by simp [hr])
    rw [← hm.cell]
    simp [Mem.cell, hne]

private theorem delete_behind (t : Table m h ring) (hq : q < 2 ^ h.n) {x y : Nat}
    {ps zs : List Nat} (hr : ring (h.index q) = ps ++ y :: x :: zs)
    (hg : ringGet m.key q (ring (h.index q)) = ⟨.accessCold, some x, y⟩) :
    ∃ m' h', hotringDelete m h q = .ok (m', h', true) ∧
      Replaced m m' h h' ring (h.index q) (ps ++ y :: zs) := by
  obtain ⟨m₁, h₁, hget, hm, hh⟩ := t.chained.rawHashGet_spec hq
  have hi := t.geometry.index_lt hq
  have hb := (t.bucket _ hi).congr hm hh
  have hl := hb.linked
  rw [hr] at hl
  have hrot := hl.rotate
  simp only [List.cons_append] at hrot
  obtain ⟨ndy, hy⟩ := Mem.node_of_ring hrot List.mem_cons_self
  have hy0 : y ≠ 0 := Mem.ne_zero_of_node hy
  obtain ⟨m₂, m', hdel, hfree, -, hnew, -, hdata, hframe⟩ := unlink_spec hrot
  have hnd := hrot.nodup
  refine ⟨m', h₁, ?_, hi, ⟨hh.n, hh.k, hh.size⟩, fun j _ ↦ hh.addr j,
    ⟨hb.index_lt, ?_, ?_⟩, ?_, ?_, ?_⟩
  · rw [hotringDelete, hget, hg]
    simp [hy0, hdel, hfree]
  · rw [hb.head, hr]
    cases ps <;> rfl
  · have hcons : IsRing m'.next ((y :: zs) ++ ps) := hnew
    exact hcons.rotate
  · rw [hr]
    exact (List.Sublist.refl ps).append ((List.sublist_cons_self x zs).cons_cons y)
  · intro a ha
    apply (Mem.sameData_of_cell (hm.cell a)).trans
    apply hdata
    rintro rfl
    simp only [List.mem_append, List.mem_cons] at ha
    simp only [List.nodup_cons, List.mem_cons, List.mem_append] at hnd
    tauto
  · intro j hj hji a ha
    rw [← hm.cell, Mem.cell, hframe, Mem.cell]
    intro hmem
    apply t.chained.ring_disjoint hj hi hji ha
    rw [hr]
    simp only [List.mem_cons, List.mem_append] at hmem ⊢
    tauto

/-- On a table a deletion completes, and at most one ring becomes a part of itself. -/
theorem Table.hotringDelete_cases (t : Table m h ring) (hq : q < 2 ^ h.n) :
    ∃ m' h' found, hotringDelete m h q = .ok (m', h', found) ∧
      ((m.SameCells m' ∧ SameHeads h h') ∨ ∃ ys, Replaced m m' h h' ring (h.index q) ys) := by
  rcases ringGet_cases m.key q (ring (h.index q)) with hg | ⟨c, ys, hr, -, hg⟩ |
    ⟨x, y, ps, zs, hr, -, hg⟩
  · obtain ⟨m', h', hd, hm, hh⟩ := delete_absent t hq hg
    exact ⟨m', h', false, hd, Or.inl ⟨hm, hh⟩⟩
  · obtain ⟨m', h', hd, hrep⟩ := delete_head t hq hr hg
    exact ⟨m', h', true, hd, Or.inr ⟨_, hrep⟩⟩
  · obtain ⟨m', h', hd, hrep⟩ := delete_behind t hq hr hg
    exact ⟨m', h', true, hd, Or.inr ⟨_, hrep⟩⟩

/-- On a table the head of `q`'s bucket is shared when it starts a ring of two or more. -/
theorem Table.headShared_iff (t : Table m h ring) (hq : q < 2 ^ h.n) :
    headShared m h q = true ↔ ∃ c b ys, ring (h.index q) = c :: b :: ys ∧ m.key c = q := by
  have hi := t.geometry.index_lt hq
  have hb := t.bucket _ hi
  unfold headShared
  cases hs : h.slots (h.index q) with
  | none =>
    have hnil : ring (h.index q) = [] := by
      have hh := hb.head
      rw [hs] at hh
      exact List.head?_eq_none_iff.mp hh.symm
    simp [hnil]
  | some head =>
    obtain ⟨xs, hx⟩ := t.chained.ring_eq_cons hi hs
    have hl := hb.linked
    rw [hx] at hl
    obtain ⟨nd, hnd⟩ := Mem.node_of_ring hl (show head.addr ∈ head.addr :: xs by simp)
    have hnext : m.next head.addr = some nd.list.addr := by
      rw [Mem.next, hnd]
      rfl
    simp only [hnd, decide_eq_true_eq, hx]
    cases xs with
    | nil =>
      rw [isRing_singleton, hnext, Option.some.injEq] at hl
      simp [hl]
    | cons b ys =>
      have hbn := hl.2.1
      rw [hnext, Option.some.injEq] at hbn
      have hne : b ≠ head.addr := by
        have := (List.nodup_cons.mp hl.1).1
        rintro rfl
        simp at this
      constructor
      · rintro ⟨hk, -⟩
        exact ⟨head.addr, b, ys, rfl, (Mem.key_of_node hnd).trans hk⟩
      · rintro ⟨c, b', ys', he, hk⟩
        simp only [List.cons.injEq] at he
        rw [← he.1, Mem.key_of_node hnd] at hk
        exact ⟨hk, hbn ▸ hne⟩

/-- The map after a deletion: without the key, or without the whole bucket when the key is at
a shared head. -/
def deleted (m : Mem) (h : Hash) (f : Nat → Option Nat) (q : Nat) : Nat → Option Nat :=
  if headShared m h q then fun p ↦ if h.index p = h.index q then Option.none else f p
  else Function.update f q Option.none

/-- If no node has the key, nothing is deleted. -/
theorem Refines.deleted_of_absent (r : Refines m h ring f) (hq : q < 2 ^ h.n)
    (hno : ∀ a ∈ ring (h.index q), m.key a ≠ q) : f q = Option.none ∧ deleted m h f q = f := by
  have hnone : f q = Option.none := by
    rw [← r.contents q hq]
    exact Table.contents_eq_none.mpr hno
  have hsh : headShared m h q = false := by
    rw [Bool.eq_false_iff, Ne, r.table.headShared_iff hq]
    rintro ⟨c, b, ys, he, hk⟩
    exact hno c (by simp [he]) hk
  refine ⟨hnone, ?_⟩
  rw [deleted, hsh, if_neg (by simp), ← hnone, Function.update_eq_self]

/-- If the head has the key, the bucket is lost. -/
theorem Refines.deleted_of_head (r : Refines m h ring f) (hq : q < 2 ^ h.n) {c : Nat}
    {ys : List Nat} (hr : ring (h.index q) = c :: ys) (hc : m.key c = q) {p : Nat}
    (hp : p < 2 ^ h.n) (v : Nat) : deleted m h f q p = some v ↔
      f p = some v ∧ (h.index p = h.index q → ∃ a ∈ ([] : List Nat), m.key a = p) := by
  unfold deleted
  split
  · by_cases hpi : h.index p = h.index q <;> simp [hpi]
  · next hsh =>
    rw [r.table.headShared_iff hq] at hsh
    have hys : ys = [] := by
      cases ys with
      | nil => rfl
      | cons b ys => exact absurd ⟨c, b, ys, hr, hc⟩ hsh
    subst hys
    rw [Function.update_apply]
    split
    · next hpq => simp [hpq]
    · next hpq =>
      simp only [List.not_mem_nil, false_and, exists_const, imp_false, iff_self_and]
      intro hfp hpi
      rw [← r.contents p hp, r.table.contents_eq_some hp, hpi, hr] at hfp
      obtain ⟨a, ha, hk, -⟩ := hfp
      rw [List.mem_singleton.mp ha, hc] at hk
      exact hpq hk.symm

/-- If a node behind the head has the key, the others stay. -/
theorem Refines.deleted_of_behind (r : Refines m h ring f) (hq : q < 2 ^ h.n) {x y : Nat}
    {ps zs : List Nat} (hr : ring (h.index q) = ps ++ y :: x :: zs) (hx : m.key x = q) {p : Nat}
    (hp : p < 2 ^ h.n) (v : Nat) : deleted m h f q p = some v ↔
      f p = some v ∧ (h.index p = h.index q → ∃ a ∈ ps ++ y :: zs, m.key a = p) := by
  have hi := r.table.geometry.index_lt hq
  have hnd := (r.table.bucket _ hi).linked.nodup
  rw [hr] at hnd
  have hxn : x ∉ ps ++ y :: zs := by
    have hperm : (ps ++ [y] ++ x :: zs).Perm (x :: (ps ++ [y] ++ zs)) := List.perm_middle
    simp only [List.append_assoc, List.cons_append, List.nil_append] at hperm
    exact (List.nodup_cons.mp (hperm.nodup_iff.mp hnd)).1
  have honly {a : Nat} (ha : a ∈ ring (h.index q)) (hk : m.key a = q) : a = x :=
    r.table.node_eq_of_key hi ha (by simp [hr]) (hk.trans hx.symm)
  have hmem {a : Nat} : a ∈ ring (h.index q) ↔ a = x ∨ a ∈ ps ++ y :: zs := by
    rw [hr]
    simp only [List.mem_append, List.mem_cons]
    tauto
  have hsh : headShared m h q = false := by
    rw [Bool.eq_false_iff, Ne, r.table.headShared_iff hq]
    rintro ⟨c, b, ys, he, hk⟩
    obtain rfl := honly (by simp [he]) hk
    rw [hr] at he
    cases ps with
    | nil =>
      rw [List.nil_append, List.cons.injEq] at he
      simp [he.1] at hxn
    | cons d ps =>
      rw [List.cons_append, List.cons.injEq] at he
      simp [he.1] at hxn
  rw [deleted, hsh, if_neg (by simp), Function.update_apply]
  split
  · next hpq =>
    subst hpq
    simp only [reduceCtorEq, forall_const, false_iff, not_and, not_exists]
    intro _ a ha hk
    exact hxn (honly (hmem.mpr (Or.inr ha)) hk ▸ ha)
  · next hpq =>
    simp only [iff_self_and]
    intro hfp hpi
    rw [← r.contents p hp, r.table.contents_eq_some hp, hpi] at hfp
    obtain ⟨a, ha, hk, -⟩ := hfp
    refine ⟨a, (hmem.mp ha).resolve_left ?_, hk⟩
    rintro rfl
    exact hpq (hk.symm.trans hx)

/-- `hotring_delete` completes, tells whether the key was stored, and leaves `deleted`. -/
theorem Refines.hotringDelete_spec (r : Refines m h ring f) (hf : FreshTags m h ring)
    (hq : q < 2 ^ h.n) :
    ∃ m' h' ring', hotringDelete m h q = .ok (m', h', (f q).isSome) ∧ SameShape h h' ∧
      Refines m' h' ring' (deleted m h f q) ∧ FreshTags m' h' ring' := by
  have hi := r.table.geometry.index_lt hq
  have hsome (a : Nat) (ha : a ∈ ring (h.index q)) (hk : m.key a = q) : (f q).isSome = true := by
    rw [← r.contents q hq, (r.table.contents_eq_some hq).mpr ⟨a, ha, hk, rfl⟩]
    rfl
  rcases ringGet_cases m.key q (ring (h.index q)) with hg | ⟨c, ys, hr, hc, hg⟩ |
    ⟨x, y, ps, zs, hr, hx, hg⟩
  · -- not found, so not stored
    have hno (a : Nat) (ha : a ∈ ring (h.index q)) : m.key a ≠ q := by
      intro hk
      have hne := ringGet_ne_absent (r.sorted _ hi) ha
      rw [hk] at hne
      exact hne hg
    obtain ⟨hnone, hdel⟩ := r.deleted_of_absent hq hno
    obtain ⟨m', h', hd, hm, hh⟩ := delete_absent r.table hq hg
    have hrot := hh.rotated r.table.chained
    rw [hnone, hdel]
    exact ⟨m', h', ring, hd, ⟨hh.n, hh.k, hh.size⟩, r.rotated hm hrot, hf.rotated hm hrot⟩
  · -- the head: the bucket is empty afterwards
    obtain ⟨m', h', hd, hrep⟩ := delete_head r.table hq hr hg
    rw [hsome c (by simp [hr]) hc]
    exact ⟨m', h', _, hd, hrep.shape, hrep.refines r (fun p hp ↦ r.deleted_of_head hq hr hc hp),
      hrep.freshTags hf⟩
  · -- behind the head: one node is unlinked
    obtain ⟨m', h', hd, hrep⟩ := delete_behind r.table hq hr hg
    rw [hsome x (by simp [hr]) hx]
    exact ⟨m', h', _, hd, hrep.shape, hrep.refines r (fun p hp ↦ r.deleted_of_behind hq hr hx hp),
      hrep.freshTags hf⟩

/-- On a table that stands for `f`, a deletion is right exactly when it does not hit the head
of a ring with other nodes. -/
theorem Refines.deleteLaw_iff (r : Refines m h ring f) (hf : FreshTags m h ring)
    (hq : q < 2 ^ h.n) : DeleteLaw h.n m h f q ↔ headShared m h q = false := by
  obtain ⟨m', h', ring', hd, hs, hr', -⟩ := r.hotringDelete_spec hf hq
  have hl (p : Nat) (hp : p < 2 ^ h.n) := hr'.lookup_eq (q := p) (by rwa [hs.n])
  constructor
  · rintro ⟨m₂, h₂, found, hd₂, -, hlaw⟩
    rw [hd, Except.ok.injEq, Prod.mk.injEq, Prod.mk.injEq] at hd₂
    obtain ⟨rfl, rfl, -⟩ := hd₂
    by_contra hsh
    rw [Bool.not_eq_false] at hsh
    -- the second node of the ring is lost although it was not deleted
    obtain ⟨c, b, ys, he, hk⟩ := (r.table.headShared_iff hq).mp hsh
    have hi := r.table.geometry.index_lt hq
    have hbi := r.table.index _ hi b (by simp [he])
    have hb := r.table.geometry.lt_of_index_lt (hbi ▸ hi)
    have hbq : m.key b ≠ q := by
      intro hbk
      have hnd := r.table.keys_nodup _ hi
      rw [he] at hnd
      simp [hk, hbk] at hnd
    have hstored : f (m.key b) = some (m.value b) := by
      rw [← r.contents _ hb, r.table.contents_eq_some hb, hbi]
      exact ⟨b, by simp [he], rfl, rfl⟩
    have h1 := hlaw (m.key b) hb
    rw [hl _ hb, Function.update_of_ne hbq, hstored, deleted, if_pos hsh, if_pos hbi] at h1
    simp at h1
  · intro hsh
    refine ⟨m', h', _, hd, rfl, ?_⟩
    intro p hp
    rw [hl p hp, deleted, hsh, if_neg (by simp)]

/-! ### Programs -/

/-- A get that does not rehash keeps the map. -/
theorem Refines.hashGet_spec [LawfulDouble D] {s s' : State} {e : Int} {g : GetResult}
    (r : Refines s.mem s.hash ring f) (hf : FreshTags s.mem s.hash ring)
    (hr : hashGet D s q = .ok (s', e, g)) (hk : s'.hash.k = s.hash.k) :
    ∃ ring', Refines s'.mem s'.hash ring' f ∧ FreshTags s'.mem s'.hash ring' := by
  obtain ⟨ring', hm, hrot⟩ := r.table.chained.hashGet_rotated hr hk
  exact ⟨ring', r.rotated hm hrot, hf.rotated hm hrot⟩

/-- Without a rehash every call acts on the map, if no deletion hits a shared head. -/
theorem Refines.step_unrehashed [LawfulDouble D] {s s' : State} {c : Call}
    (r : Refines s.mem s.hash ring f) (hf : FreshTags s.mem s.hash ring)
    (hs : c.step D s = .ok s') (hk : s'.hash.k = s.hash.k)
    (hnew : ∀ key ∈ c.insertedKey, f key = Option.none)
    (hdel : ∀ key, c = .delete key → headShared s.mem s.hash key = false) :
    ∃ ring', Refines s'.mem s'.hash ring' (c.effect f) ∧ FreshTags s'.mem s'.hash ring' := by
  cases c with
  | insert key value =>
    obtain ⟨e, hi⟩ := step_insert hs
    have hq := r.table.geometry.lt_of_hashInsert hi
    obtain ⟨m₂, h₂, ring', hi₂, -, -, hr, hf'⟩ := r.hashInsert_spec hf hq (hnew key rfl) value
    rw [hi, Except.ok.injEq, Prod.mk.injEq, Prod.mk.injEq] at hi₂
    obtain ⟨rfl, rfl, -⟩ := hi₂
    exact ⟨ring', hr, hf'⟩
  | lookup key =>
    obtain ⟨g, hg⟩ := step_lookup hs
    obtain ⟨m₂, h₂, g₂, hg₂, hm, hh, hr⟩ :=
      r.rawHashGet_spec (r.table.geometry.lt_of_rawHashGet hg)
    rw [hg, Except.ok.injEq, Prod.mk.injEq, Prod.mk.injEq] at hg₂
    obtain ⟨rfl, rfl, -⟩ := hg₂
    exact ⟨ring, hr, hf.rotated hm (hh.rotated r.table.chained)⟩
  | get key =>
    obtain ⟨e, g, hg⟩ := step_get hs
    exact r.hashGet_spec hf hg hk
  | delete key =>
    obtain ⟨b, hd⟩ := step_delete hs
    have hq : key < 2 ^ s.hash.n := by
      obtain ⟨⟨m₂, h₂, g⟩, hg, -⟩ := bind_eq_ok.mp hd
      exact r.table.geometry.lt_of_rawHashGet hg
    obtain ⟨m₂, h₂, ring', hd₂, -, hr, hf'⟩ := r.hotringDelete_spec hf hq
    rw [hd, Except.ok.injEq, Prod.mk.injEq, Prod.mk.injEq] at hd₂
    obtain ⟨rfl, rfl, -⟩ := hd₂
    rw [deleted, hdel key rfl, if_neg (by simp)] at hr
    exact ⟨ring', hr, hf'⟩
  | repoint index steps =>
    obtain ⟨hp, hmem⟩ := step_repoint hs
    rw [hmem]
    obtain ⟨slot, hslot, -⟩ := bind_eq_ok.mp hp
    obtain ⟨h₂, ring', hp₂, hrot⟩ :=
      r.table.chained.repointHead_spec (slot_eq_ok hslot).1 steps
    rw [hp, Except.ok.injEq] at hp₂
    subst hp₂
    exact ⟨ring', r.rotated (.refl _) hrot, hf.rotated (.refl _) hrot⟩

/-- No deletion of the program finds its key at a shared head. -/
def SparesHeads (D : Type) [DoubleArith D] (s : State) (calls : List Call) : Prop :=
  ∀ pre key s₁, pre ++ [.delete key] <+: calls → run D s pre = .ok s₁ →
    headShared s₁.mem s₁.hash key = false

/-- After a program without rehash whose deletions spare shared heads, the table stands for
its history. -/
theorem run_unrehashed [LawfulDouble D] {n k : Nat} {r : Int} {s s' : State} {calls : List Call}
    (hs : start m r n k = .ok s) (hk : k ≤ n) (hb : n - k ≤ 30) (hd : (insertedKeys calls).Nodup)
    (hgood : SparesHeads D s calls) (hrun : run D s calls = .ok s') (hk' : s'.hash.k = k) :
    ∃ ring, Refines s'.mem s'.hash ring (history calls) ∧ FreshTags s'.mem s'.hash ring := by
  obtain ⟨-, hk₀, hr, hf⟩ := refines_start hs hk hb
  let P (s : State) (pre : List Call) : Prop := k ≤ s.hash.k ∧ (s.hash.k = k →
    ∃ ring, Refines s.mem s.hash ring (history pre) ∧ FreshTags s.mem s.hash ring)
  have h0 : P s [] := ⟨hk₀.ge, fun _ ↦ ⟨_, hr, hf⟩⟩
  have hstep (s₁ : State) (pre : List Call) (c : Call) (s₂ : State) (hpre : pre ++ [c] <+: calls)
      (hrun₁ : run D s pre = .ok s₁) (hp : P s₁ pre) (hc : c.step D s₁ = .ok s₂) :
      P s₂ (pre ++ [c]) := by
    have hmono : s₁.hash.k ≤ s₂.hash.k := by
      rcases step_shape hc with hsh | hlt
      · exact hsh.k.ge
      · exact hlt.le
    have hk₁ := hp.1
    refine ⟨hk₁.trans hmono, ?_⟩
    intro hk₂
    obtain ⟨ring, hr₁, hf₁⟩ := hp.2 (by omega)
    rw [history_concat]
    apply hr₁.step_unrehashed hf₁ hc (by omega)
    · intro key hkey
      exact history_eq_none (notMem_insertedKeys hd hpre hkey)
    · rintro key rfl
      exact hgood pre key s₁ hpre hrun₁
  exact (run_invariant h0 hstep hrun).2 hk'

/-- Without a rehash a program keeps the shape of its table. -/
theorem run_shape {s s' : State} {calls : List Call} (hrun : run D s calls = .ok s') :
    SameShape s.hash s'.hash ∨ s.hash.k < s'.hash.k := by
  let P (s' : State) (_ : List Call) : Prop := SameShape s.hash s'.hash ∨ s.hash.k < s'.hash.k
  have h0 : P s [] := Or.inl (.refl _)
  have hstep (s₁ : State) (pre : List Call) (c : Call) (s₂ : State) (_ : pre ++ [c] <+: calls)
      (_ : run D s pre = .ok s₁) (hp : P s₁ pre) (hc : c.step D s₁ = .ok s₂) :
      P s₂ (pre ++ [c]) := by
    rcases hp with hp | hp
    · rcases step_shape hc with hsh | hlt
      · exact Or.inl (hp.trans hsh)
      · exact Or.inr (hp.k ▸ hlt)
    · right
      rcases step_shape hc with hsh | hlt
      · exact hsh.k ▸ hp
      · exact hp.trans hlt
  exact run_invariant h0 hstep hrun

theorem k_le_of_run {s s' : State} {calls : List Call} (hrun : run D s calls = .ok s') :
    s.hash.k ≤ s'.hash.k := by
  rcases run_shape hrun with hsh | hlt
  · exact hsh.k.ge
  · exact hlt.le

/-- A prefix of a program that ends with the `k` it started from has not rehashed either. -/
theorem prefix_k_eq {s s₁ s' : State} {pre calls : List Call} (hpre : pre <+: calls)
    (hrun : run D s calls = .ok s') (hrun₁ : run D s pre = .ok s₁) (hk : s'.hash.k = s.hash.k) :
    s₁.hash.k = s.hash.k := by
  obtain ⟨post, rfl⟩ := hpre
  rw [run_append, hrun₁, ok_bind] at hrun
  have hle := k_le_of_run hrun₁
  have hle' := k_le_of_run hrun
  omega

/-- `hashCode` is undefined unless its shifts stay within an `int`. -/
theorem hashCode_ok {t : Nat × Nat} (hr : hashCode h key = .ok t) (hk : h.k ≤ 30) :
    h.k ≤ h.n ∧ h.n - h.k ≤ 30 := by
  obtain ⟨range, hrange, hr⟩ := bind_eq_ok.mp hr
  obtain ⟨tags, ht, -⟩ := bind_eq_ok.mp hr
  have hb := (intShl_eq_ok.mp ht).1
  have hn : h.n ≤ 63 := by
    unfold ulShl at hrange
    split at hrange
    · assumption
    · simp at hrange
  unfold ulSub at hb
  omega

/-- The deletion law of a table that has not rehashed: `hotring_delete` of `q` is right
exactly when the tag shift is defined and `q` is not at the head of a ring with other
nodes. -/
theorem hotringDelete_law [LawfulDouble D] {n k : Nat} {r : Int} {s s' : State}
    {calls : List Call} (hs : start m r n k = .ok s) (hd : (insertedKeys calls).Nodup)
    (hrun : run D s calls = .ok s') (hk : s'.hash.k = k) (hgood : SparesHeads D s calls)
    (hq : q < 2 ^ n) :
    DeleteLaw n s'.mem s'.hash (history calls) q ↔
      (k ≤ n ∧ n - k ≤ 30) ∧ headShared s'.mem s'.hash q = false := by
  obtain ⟨hn₀, hk₀, hk30⟩ : s.hash.n = n ∧ s.hash.k = k ∧ k ≤ 30 := by
    obtain ⟨hk30, rfl⟩ := start_eq_ok.mp hs
    exact ⟨rfl, rfl, hk30⟩
  have hn : s'.hash.n = n := by
    rcases run_shape hrun with hsh | hlt
    · exact hsh.n.trans hn₀
    · omega
  by_cases hgeo : k ≤ n ∧ n - k ≤ 30
  · obtain ⟨ring, hr, hf⟩ := run_unrehashed hs hgeo.1 hgeo.2 hd hgood hrun hk
    rw [← hn] at hq ⊢
    rw [hr.deleteLaw_iff hf hq, hn]
    simp [hgeo]
  · simp only [hgeo, false_and, iff_false]
    rintro ⟨m₁, h₁, found, hdel, -⟩
    obtain ⟨g, hg, -⟩ := bind_eq_ok.mp hdel
    obtain ⟨t, ht, -⟩ := bind_eq_ok.mp hg
    have hok := hashCode_ok ht (hk ▸ hk30)
    rw [hn, hk] at hok
    exact hgeo hok

/-- Keys 5 and 7 share a bucket; the node of 7 is behind the head. -/
theorem hotringDelete_law_behind :
    ∃ s', run ℚ ⟨.init, ⟨4, 2, 4, fun _ ↦ Option.none⟩, 0⟩ [.insert 5 50, .insert 7 70] = .ok s' ∧
      (DeleteLaw 4 s'.mem s'.hash (history [.insert 5 50, .insert 7 70]) 7 ↔
        (2 ≤ 4 ∧ 4 - 2 ≤ 30) ∧ headShared s'.mem s'.hash 7 = false) := by
  refine ⟨_, rfl, hotringDelete_law (D := ℚ) (m := .init) (r := 0) rfl (by decide) rfl rfl ?_
    (by decide)⟩
  intro pre key s₁ hpre
  have hm : Call.delete key ∈ [Call.insert 5 50, .insert 7 70] := hpre.subset (by simp)
  simp at hm

/-- Deleting key 5 at the head of the bucket of 5 and 7 loses key 7. -/
theorem hotringDelete_loses_ring :
    ∃ s', run ℚ ⟨.init, ⟨4, 2, 4, fun _ ↦ Option.none⟩, 0⟩ [.insert 5 50, .insert 7 70] = .ok s' ∧
      ¬ DeleteLaw 4 s'.mem s'.hash (history [.insert 5 50, .insert 7 70]) 5 := by
  have hlost : (do
      let s' ← run ℚ ⟨.init, ⟨4, 2, 4, fun _ ↦ Option.none⟩, 0⟩ [.insert 5 50, .insert 7 70]
      let r ← hotringDelete s'.mem s'.hash 5
      lookup r.1 r.2.1 7) = .ok Option.none := by decide +kernel
  obtain ⟨s', hrun, hlost⟩ := bind_eq_ok.mp hlost
  obtain ⟨⟨m', h', found⟩, hdel, hlost⟩ := bind_eq_ok.mp hlost
  refine ⟨s', hrun, ?_⟩
  rintro ⟨m₁, h₁, found₁, hdel₁, -, hlaw⟩
  rw [hdel, Except.ok.injEq, Prod.mk.injEq, Prod.mk.injEq] at hdel₁
  obtain ⟨rfl, rfl, -⟩ := hdel₁
  have h7 := hlaw 7 (by decide)
  have hstored : Function.update (history [.insert 5 50, .insert 7 70]) 5 Option.none 7 = some 70 :=
    rfl
  rw [show lookup m' h' 7 = .ok Option.none from hlost, hstored] at h7
  simp at h7

end Jeopardy.Hotring
