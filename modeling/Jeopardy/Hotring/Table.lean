import Jeopardy.Hotring.Bucket

/-!
# Tables

A table is a ring for every bucket, together with the bookkeeping that makes a key belong
to one bucket. On tables `hash_insert` always completes, and `__hash_get` answers what its
search finds on the ring of the key. Where every ring is cyclically sorted by key the
answers are the contents of the table.
-/

namespace Jeopardy.Hotring

open Rings Fault

/-- The number of tag bits. -/
def Hash.bits (h : Hash) : Nat := h.n - h.k

/-- The bucket of a key. -/
def Hash.index (h : Hash) (key : Nat) : Nat := key / 2 ^ h.bits

/-- The tag of a key. -/
def Hash.tagOf (h : Hash) (key : Nat) : Nat := key % 2 ^ h.bits

/-- The shifts of `hash_alloc` and `hashCode` stay within an `int`. -/
structure Geometry (h : Hash) : Prop where
  k_le : h.k ≤ 30
  k_le_n : h.k ≤ h.n
  bits_le : h.bits ≤ 30
  size : h.size = 2 ^ h.k

/-- The two tables have the same shape and their buckets start at the same nodes. -/
structure SameHeads (h h' : Hash) : Prop where
  n : h'.n = h.n
  k : h'.k = h.k
  size : h'.size = h.size
  addr : ∀ i, (h'.slots i).map Head.addr = (h.slots i).map Head.addr

variable {m m' : Mem} {h h' : Hash} {ring : Nat → List Nat} {q key value : Nat}

theorem SameHeads.refl (h : Hash) : SameHeads h h := ⟨rfl, rfl, rfl, fun _ ↦ rfl⟩

theorem SameHeads.trans {h'' : Hash} (hs : SameHeads h h') (hs' : SameHeads h' h'') :
    SameHeads h h'' :=
  ⟨hs'.n.trans hs.n, hs'.k.trans hs.k, hs'.size.trans hs.size,
    fun i ↦ (hs'.addr i).trans (hs.addr i)⟩

theorem SameHeads.bits (hs : SameHeads h h') : h'.bits = h.bits := by
  rw [Hash.bits, hs.n, hs.k, Hash.bits]

namespace Geometry

theorem congr (g : Geometry h) (hn : h'.n = h.n) (hk : h'.k = h.k) (hs : h'.size = h.size) :
    Geometry h' := by
  refine ⟨hk ▸ g.k_le, hn ▸ hk ▸ g.k_le_n, ?_, ?_⟩
  · rw [Hash.bits, hn, hk]
    exact g.bits_le
  · rw [hs, hk]
    exact g.size

theorem n_eq (g : Geometry h) : h.n = h.k + h.bits := by
  have := g.k_le_n
  rw [Hash.bits]
  omega

theorem n_le (g : Geometry h) : h.n ≤ 60 := by
  have := g.n_eq
  have := g.k_le
  have := g.bits_le
  omega

theorem ulSub_bits (g : Geometry h) : ulSub h.n h.k = h.bits :=
  ulSub_eq g.k_le_n (by have := g.n_le; omega)

/-- The code of a key is its bucket and its tag. -/
theorem hashCode_eq (g : Geometry h) (key : Nat) :
    hashCode h key = .ok (h.index key, h.tagOf key) := by
  have hn := g.n_le
  rw [hashCode, ulShl_eq (by omega), g.ulSub_bits, intShl_eq g.bits_le]
  have hd : 2 ^ h.bits ∣ 2 ^ h.n := Nat.pow_dvd_pow 2 (Nat.sub_le _ _)
  simp only [ok_bind, pure, Except.pure, Hash.index, Hash.tagOf, Nat.mod_mod_of_dvd key hd]

/-- The bucket of a key of `n` bits exists. -/
theorem index_lt (g : Geometry h) (hq : q < 2 ^ h.n) : h.index q < h.size := by
  rw [g.size, Hash.index]
  apply Nat.div_lt_of_lt_mul
  rwa [← Nat.pow_add, Nat.add_comm, ← g.n_eq]

theorem lt_of_index_lt (g : Geometry h) (hi : h.index q < h.size) : q < 2 ^ h.n := by
  rw [g.size, Hash.index, Nat.div_lt_iff_lt_mul (Nat.two_pow_pos _), ← Nat.pow_add,
    ← g.n_eq] at hi
  exact hi

/-- A search that completes was for a key of `n` bits. -/
theorem lt_of_rawHashGet (g : Geometry h) {r : GetResult}
    (hr : rawHashGet m h q = .ok (m', h', r)) : q < 2 ^ h.n := by
  rw [rawHashGet, g.hashCode_eq, ok_bind] at hr
  obtain ⟨slot, hs, -⟩ := bind_eq_ok.mp hr
  exact g.lt_of_index_lt (slot_eq_ok hs).1

/-- An insertion that completes was of a key of `n` bits. -/
theorem lt_of_hashInsert (g : Geometry h) {e : Int}
    (hr : hashInsert m h key value = .ok (m', h', e)) : key < 2 ^ h.n := by
  rw [hashInsert, g.hashCode_eq, ok_bind] at hr
  obtain ⟨r, hc, -⟩ := bind_eq_ok.mp hr
  obtain ⟨slot, hs, -⟩ := bind_eq_ok.mp hc
  exact g.lt_of_index_lt (slot_eq_ok hs).1

end Geometry

theorem tagOf_lt (h : Hash) (q : Nat) : h.tagOf q < 2 ^ h.bits := Nat.mod_lt _ (Nat.two_pow_pos _)

/-- Within a bucket keys compare as their tags do. -/
theorem le_iff_tagOf_le {p : Nat} (he : h.index p = h.index q) :
    p ≤ q ↔ h.tagOf p ≤ h.tagOf q := by
  have hp := Nat.div_add_mod p (2 ^ h.bits)
  have hq := Nat.div_add_mod q (2 ^ h.bits)
  rw [Hash.index, Hash.index] at he
  rw [Hash.tagOf, Hash.tagOf]
  rw [he] at hp
  omega

/-- Every bucket holds a ring of nodes with keys of that bucket. -/
structure Chained (m : Mem) (h : Hash) (ring : Nat → List Nat) : Prop where
  geometry : Geometry h
  bucket : ∀ i < h.size, BucketAt m h i (ring i)
  index : ∀ i < h.size, ∀ a ∈ ring i, h.index (m.key a) = i

/-- Every bucket holds a ring of nodes with distinct keys of that bucket. -/
structure Table (m : Mem) (h : Hash) (ring : Nat → List Nat) : Prop where
  geometry : Geometry h
  bucket : ∀ i < h.size, BucketAt m h i (ring i)
  index : ∀ i < h.size, ∀ a ∈ ring i, h.index (m.key a) = i
  keys_nodup : ∀ i < h.size, ((ring i).map m.key).Nodup

/-- Every ring ascends by key from one of its nodes. -/
def Sorted (m : Mem) (h : Hash) (ring : Nat → List Nat) : Prop :=
  ∀ i < h.size, CyclicSorted m.key (ring i)

/-- Every node carries the tag of its key. -/
def FreshTags (m : Mem) (h : Hash) (ring : Nat → List Nat) : Prop :=
  ∀ i < h.size, ∀ a ∈ ring i, m.tag a = h.tagOf (m.key a)

/-- The finite map a table stands for: the value held for a key in the bucket of the key. -/
def contents (m : Mem) (h : Hash) (ring : Nat → List Nat) (q : Nat) : Option Nat :=
  ((ring (h.index q)).find? (fun a ↦ m.key a = q)).map m.value

/-- What `__hash_get` reports: key and value of the node it answers, or that there is none. -/
def lookup (m : Mem) (h : Hash) (key : Nat) : Except Fault (Option (Nat × Nat)) := do
  let (m, _, r) ← rawHashGet m h key
  if r.ret = .notFound then return Option.none
  else
    match r.node with
    | Option.none => .error .uninitialized
    | some a =>
      let nd ← m.read a
      return some (nd.key, nd.value)

theorem BucketAt.congr {i : Nat} {xs : List Nat} (hb : BucketAt m h i xs) (hm : m.SameCells m')
    (hh : SameHeads h h') : BucketAt m' h' i xs := by
  refine ⟨hh.size ▸ hb.index_lt, (hh.addr i).trans hb.head, ?_⟩
  rw [hm.next]
  exact hb.linked

namespace Chained

/-- The bucket of a head that is set. -/
theorem ring_eq_cons (t : Chained m h ring) {i : Nat} {head : Head} (hi : i < h.size)
    (hs : h.slots i = some head) : ∃ xs, ring i = head.addr :: xs := by
  have hh := (t.bucket i hi).head
  rw [hs] at hh
  cases hr : ring i with
  | nil => simp [hr] at hh
  | cons c xs =>
    rw [hr] at hh
    simp only [Option.map_some, List.head?_cons, Option.some.injEq] at hh
    exact ⟨xs, by rw [hh]⟩

/-- No node lies in two rings. -/
theorem ring_disjoint (t : Chained m h ring) {i j a : Nat} (hi : i < h.size) (hj : j < h.size)
    (hij : i ≠ j) (ha : a ∈ ring i) : a ∉ ring j := by
  intro hm
  exact hij ((t.index i hi a ha).symm.trans (t.index j hj a hm))

theorem brk_notMem (t : Chained m h ring) {i : Nat} (hi : i < h.size) : m.brk ∉ ring i := by
  intro hm
  obtain ⟨nd, hnd⟩ := Mem.node_of_ring (t.bucket i hi).linked hm
  exact absurd (Mem.lt_brk_of_node hnd) (lt_irrefl _)

end Chained

namespace Table

theorem chained (t : Table m h ring) : Chained m h ring := ⟨t.geometry, t.bucket, t.index⟩

/-- A table does not depend on its counters. -/
theorem congr (t : Table m h ring) (hm : m.SameCells m') (hh : SameHeads h h') :
    Table m' h' ring := by
  refine ⟨t.geometry.congr hh.n hh.k hh.size, ?_, ?_, ?_⟩
  · intro i hi
    exact (t.bucket i (hh.size ▸ hi)).congr hm hh
  · intro i hi a ha
    rw [hm.key, Hash.index, hh.bits]
    exact t.index i (hh.size ▸ hi) a ha
  · intro i hi
    rw [hm.key]
    exact t.keys_nodup i (hh.size ▸ hi)

theorem node_eq_of_key (t : Table m h ring) {i a b : Nat} (hi : i < h.size) (ha : a ∈ ring i)
    (hb : b ∈ ring i) (he : m.key a = m.key b) : a = b :=
  List.inj_on_of_nodup_map (t.keys_nodup i hi) ha hb he

/-- The contents in terms of the nodes. -/
theorem contents_eq_some (t : Table m h ring) (hq : q < 2 ^ h.n) {v : Nat} :
    contents m h ring q = some v ↔ ∃ a ∈ ring (h.index q), m.key a = q ∧ m.value a = v := by
  rw [contents, Option.map_eq_some_iff]
  constructor
  · rintro ⟨a, ha, rfl⟩
    exact ⟨a, List.mem_of_find?_eq_some ha, by simpa using List.find?_some ha, rfl⟩
  · rintro ⟨a, ha, hk, rfl⟩
    refine ⟨a, ?_, rfl⟩
    obtain ⟨b, hb⟩ : ∃ b, (ring (h.index q)).find? (fun a ↦ m.key a = q) = some b := by
      rw [← Option.isSome_iff_exists, List.find?_isSome]
      exact ⟨a, ha, by simpa using hk⟩
    have hbk : m.key b = q := by simpa using List.find?_some hb
    rw [hb, t.node_eq_of_key (t.geometry.index_lt hq) ha (List.mem_of_find?_eq_some hb)
      (hk.trans hbk.symm)]

theorem contents_eq_none :
    contents m h ring q = Option.none ↔ ∀ a ∈ ring (h.index q), m.key a ≠ q := by
  simp [contents]

end Table

/-! ### Search -/

/-- What the search of a ring answers is a node with the key, and its predecessor. -/
theorem ringGet_cases (f : Nat → Nat) (q : Nat) (xs : List Nat) :
    ringGet f q xs = .absent ∨
      (∃ c ys, xs = c :: ys ∧ f c = q ∧ ringGet f q xs = ⟨.accessHot, some c, 0⟩) ∨
      ∃ x y ps ys, xs = ps ++ y :: x :: ys ∧ f x = q ∧
        ringGet f q xs = ⟨.accessCold, some x, y⟩ := by
  cases xs with
  | nil => exact Or.inl rfl
  | cons c xs =>
    rw [ringGet]
    split
    · next hc => exact Or.inr (Or.inl ⟨c, xs, rfl, hc, rfl⟩)
    · cases hs : search f q c xs with
      | none => exact Or.inl rfl
      | some r =>
        obtain ⟨x, y⟩ := r
        obtain ⟨ps, ys, he, hx⟩ := search_eq_some hs
        exact Or.inr (Or.inr ⟨x, y, ps, ys, he, hx, rfl⟩)

/-- On a cyclically sorted ring a key that is held is found. -/
theorem ringGet_ne_absent {f : Nat → Nat} {xs : List Nat} {a : Nat} (hs : CyclicSorted f xs)
    (ha : a ∈ xs) : ringGet f (f a) xs ≠ .absent := by
  cases xs with
  | nil => simp at ha
  | cons c xs =>
    rw [ringGet]
    split
    · simp [GetResult.absent]
    · next hc =>
      have hax : a ∈ xs := by
        rcases List.mem_cons.mp ha with rfl | ha
        · exact absurd rfl hc
        · exact ha
      obtain ⟨r, hr⟩ := Option.isSome_iff_exists.mp (search_isSome hs hax)
      rw [hr]
      simp [GetResult.ofSearch, GetResult.absent]

theorem ringGet_eq_absent {f : Nat → Nat} {xs : List Nat} (h : ∀ a ∈ xs, f a ≠ q) :
    ringGet f q xs = .absent := by
  rcases ringGet_cases f q xs with he | ⟨c, ys, rfl, hc, -⟩ |
    ⟨x, y, ps, ys, rfl, hx, -⟩
  · exact he
  · exact absurd hc (h c (by simp))
  · exact absurd hx (h x (by simp))

/-- `__hash_get` completes with what the search of the key's ring finds; it changes
counters of that ring only. -/
theorem rawHashGet_bucket {xs : List Nat} (g : Geometry h) (hb : BucketAt m h (h.index q) xs) :
    ∃ m' h', rawHashGet m h q = .ok (m', h', ringGet m.key q xs) ∧ m.SameCells m' ∧
      SameHeads h h' ∧ ∀ a, a ∉ xs → m'.node a = m.node a := by
  rw [rawHashGet, g.hashCode_eq, ok_bind]
  simp only [hb.slot_eq, ok_bind]
  cases xs with
  | nil =>
    have hslot : h.slots (h.index q) = Option.none := by simpa using hb.head
    rw [hslot]
    exact ⟨m, h, rfl, .refl m, .refl h, fun _ _ ↦ rfl⟩
  | cons c xs =>
    obtain ⟨head, hslot, rfl⟩ : ∃ head, h.slots (h.index q) = some head ∧ head.addr = c := by
      simpa using hb.head
    let h₁ := h.setSlot (h.index q) (some { head with counter := head.counter + 1 })
    have hh : SameHeads h h₁ := by
      refine ⟨rfl, rfl, rfl, ?_⟩
      intro i
      by_cases he : i = h.index q
      · simp [h₁, Hash.setSlot, he, hslot]
      · simp [h₁, Hash.setSlot, he]
    obtain ⟨nd, hnd⟩ := Mem.node_of_ring hb.linked (show head.addr ∈ head.addr :: xs by simp)
    simp only [hslot, Mem.read_eq hnd, ok_bind]
    rw [ringGet, Mem.key_of_node hnd]
    split
    · obtain ⟨m', hm', hs, hf⟩ := bumpCounter_spec hnd
      refine ⟨m', h₁, by rw [hm']; rfl, hs, hh, ?_⟩
      intro a ha
      apply hf
      rintro rfl
      simp at ha
    · obtain ⟨m', s, r, hl, hs, hf, hr⟩ := listForEach_get (q := q) hb.linked
      refine ⟨m', h₁, ?_, hs, hh, hf⟩
      rw [hl, ← hr]
      rfl

theorem Chained.rawHashGet_spec (t : Chained m h ring) (hq : q < 2 ^ h.n) :
    ∃ m' h', rawHashGet m h q = .ok (m', h', ringGet m.key q (ring (h.index q))) ∧
      m.SameCells m' ∧ SameHeads h h' := by
  obtain ⟨m', h', hg, hm, hh, -⟩ :=
    rawHashGet_bucket t.geometry (t.bucket _ (t.geometry.index_lt hq))
  exact ⟨m', h', hg, hm, hh⟩

namespace Table

/-- On sorted rings `__hash_get` reports the contents of the table. -/
theorem lookup_eq (t : Table m h ring) (hs : Sorted m h ring) (hq : q < 2 ^ h.n) :
    lookup m h q = .ok ((contents m h ring q).map (fun v ↦ (q, v))) := by
  obtain ⟨m', h', hg, hm, -⟩ := t.chained.rawHashGet_spec hq
  have hi := t.geometry.index_lt hq
  rw [lookup, hg, ok_bind]
  cases hc : contents m h ring q with
  | none =>
    rw [ringGet_eq_absent (contents_eq_none.mp hc)]
    rfl
  | some v =>
    obtain ⟨a, ha, hk, hv⟩ := (t.contents_eq_some hq).mp hc
    have hne := ringGet_ne_absent (hs _ hi) ha
    rw [hk] at hne
    obtain ⟨b, r, hb, hbk, hr, hret⟩ : ∃ b r, b ∈ ring (h.index q) ∧ m.key b = q ∧
        ringGet m.key q (ring (h.index q)) = r ∧ r.ret ≠ .notFound ∧ r.node = some b := by
      rcases ringGet_cases m.key q (ring (h.index q)) with he |
        ⟨c, ys, he, hc, hr⟩ | ⟨x, y, ps, ys, he, hx, hr⟩
      · exact absurd he hne
      · exact ⟨c, _, by simp [he], hc, hr, by simp, rfl⟩
      · exact ⟨x, _, by simp [he], hx, hr, by simp, rfl⟩
    have hab : a = b := t.node_eq_of_key hi ha hb (hk.trans hbk.symm)
    subst hab
    have hb' := (t.bucket _ hi).linked
    rw [← hm.next] at hb'
    obtain ⟨nd, hnd⟩ := Mem.node_of_ring hb' ha
    have hnk : nd.key = q := by
      rw [← Mem.key_of_node hnd, hm.key, hk]
    have hnv : nd.value = v := by
      rw [← Mem.value_of_node hnd, hm.value, hv]
    simp only [hr, if_neg hret.1, hret.2, Mem.read_eq hnd, ok_bind, hnk, hnv]
    rfl

end Table

/-! ### Insertion -/

section Placed

variable {i tag : Nat}

/-- The rings after a node was created in bucket `i`. -/
def placeRing (m : Mem) (ring : Nat → List Nat) (i tag : Nat) : Nat → List Nat :=
  Function.update ring i (newRing m.tag tag m.brk (ring i))

theorem placeRing_same (m : Mem) (ring : Nat → List Nat) (i tag : Nat) :
    placeRing m ring i tag i = newRing m.tag tag m.brk (ring i) := Function.update_self ..

theorem placeRing_of_ne {j : Nat} (hj : j ≠ i) : placeRing m ring i tag j = ring j :=
  Function.update_of_ne hj ..

theorem mem_placeRing {j a : Nat} :
    a ∈ placeRing m ring i tag j ↔ (j = i ∧ a = m.brk) ∨ a ∈ ring j := by
  by_cases hj : j = i
  · subst hj
    rw [placeRing_same, mem_newRing]
    tauto
  · rw [placeRing_of_ne hj]
    tauto

namespace Placed

theorem bits {xs : List Nat} (p : Placed m m' h h' i xs key tag value) : h'.bits = h.bits := by
  rw [Hash.bits, p.sizes.1, p.sizes.2.1, Hash.bits]

theorem index {xs : List Nat} (p : Placed m m' h h' i xs key tag value) (q : Nat) :
    h'.index q = h.index q := by
  rw [Hash.index, p.bits, Hash.index]

theorem size {xs : List Nat} (p : Placed m m' h h' i xs key tag value) : h'.size = h.size :=
  p.sizes.2.2

theorem geometry {xs : List Nat} (p : Placed m m' h h' i xs key tag value) (g : Geometry h) :
    Geometry h' := g.congr p.sizes.1 p.sizes.2.1 p.sizes.2.2

theorem key_old {xs : List Nat} (p : Placed m m' h h' i xs key tag value) {a : Nat}
    (ha : a ≠ m.brk) : m'.key a = m.key a := (p.data a ha).key

theorem tag_old {xs : List Nat} (p : Placed m m' h h' i xs key tag value) {a : Nat}
    (ha : a ≠ m.brk) : m'.tag a = m.tag a := (p.data a ha).tag

theorem value_old {xs : List Nat} (p : Placed m m' h h' i xs key tag value) {a : Nat}
    (ha : a ≠ m.brk) : m'.value a = m.value a := (p.data a ha).value

/-- A bucket whose ring is another one is as before. -/
theorem bucket_of_ne {xs ys : List Nat} {j : Nat} (p : Placed m m' h h' i xs key tag value)
    (hj : j ≠ i) (hb : BucketAt m h j ys) (hd : ∀ a ∈ ys, a ∉ xs) : BucketAt m' h' j ys := by
  refine ⟨p.size ▸ hb.index_lt, ?_, hb.linked.congr ?_⟩
  · rw [p.slots j hj]
    exact hb.head
  · intro a ha
    obtain ⟨nd, hnd⟩ := Mem.node_of_ring hb.linked ha
    have hlt := Mem.lt_brk_of_node hnd
    rw [Mem.next_eq_cell, Mem.next_eq_cell, p.frame a (by omega) (hd a ha)]

end Placed

/-- The ring with a node placed is a permutation of the old one and the node. -/
theorem perm_newRing {tag : Nat → Nat} {t new : Nat} {xs : List Nat} (hnew : new ∉ xs)
    (hd : xs.Nodup) (hd' : (newRing tag t new xs).Nodup) :
    (newRing tag t new xs).Perm (new :: xs) := by
  apply (List.perm_ext_iff_of_nodup hd' (List.nodup_cons.mpr ⟨hnew, hd⟩)).mpr
  intro a
  rw [mem_newRing, List.mem_cons]

namespace Chained

/-- A key of bucket `i` placed there makes rings again. -/
theorem placed (t : Chained m h ring) (p : Placed m m' h h' i (ring i) key tag value)
    (hk : h.index key = i) (hi : i < h.size) : Chained m' h' (placeRing m ring i tag) := by
  refine ⟨p.geometry t.geometry, ?_, ?_⟩
  · intro j hj
    rw [p.size] at hj
    by_cases hji : j = i
    · subst hji
      rw [placeRing_same]
      exact p.bucket
    · rw [placeRing_of_ne hji]
      exact p.bucket_of_ne hji (t.bucket j hj) (fun a ha ↦ t.ring_disjoint hj hi hji ha)
  · intro j hj a ha
    rw [p.size] at hj
    rw [p.index]
    rcases mem_placeRing.mp ha with ⟨rfl, rfl⟩ | ha
    · rw [p.key_new, hk]
    · rw [p.key_old (fun he ↦ t.brk_notMem hj (he ▸ ha))]
      exact t.index j hj a ha

/-- Placing a node adds it to its ring. -/
theorem placed_perm (t : Chained m h ring) (p : Placed m m' h h' i (ring i) key tag value)
    (hi : i < h.size) : (placeRing m ring i tag i).Perm (m.brk :: ring i) := by
  rw [placeRing_same]
  exact perm_newRing (t.brk_notMem hi) (t.bucket i hi).linked.nodup p.bucket.linked.nodup

/-- `hash_insert` completes and places one node in the bucket of its key. -/
theorem hashInsert_spec (t : Chained m h ring) (hq : key < 2 ^ h.n) (value : Nat) :
    ∃ m' h', hashInsert m h key value = .ok (m', h', 0) ∧
      Placed m m' h h' (h.index key) (ring (h.index key)) key (h.tagOf key) value := by
  obtain ⟨m₁, h', m', hc, he, p⟩ :=
    place_spec key (h.tagOf key) value (t.bucket _ (t.geometry.index_lt hq))
  refine ⟨m', h', ?_, p⟩
  rw [hashInsert, t.geometry.hashCode_eq]
  simp only [ok_bind, hc, he]
  rfl

end Chained

/-- Creation reads the tags of the ring only. -/
theorem newRing_congr {tag tag' : Nat → Nat} {t new : Nat} {xs : List Nat}
    (h : ∀ x ∈ xs, tag' x = tag x) : newRing tag' t new xs = newRing tag t new xs := by
  cases xs with
  | nil => rfl
  | cons c xs => rw [newRing, newRing, insertGap_congr h]

/-- Creation by tag keeps a ring cyclically sorted by tag. -/
theorem cyclicSorted_newRing {tag : Nat → Nat} {t new : Nat} {xs : List Nat}
    (hs : CyclicSorted tag xs) (hn : tag new = t) : CyclicSorted tag (newRing tag t new xs) := by
  cases xs with
  | nil => exact cyclicSorted_singleton _ _
  | cons c xs =>
    rw [newRing, ← hn]
    exact hs.insertGap

namespace Table

/-- A new key of bucket `i` placed there makes a table again. -/
theorem placed (t : Table m h ring) (p : Placed m m' h h' i (ring i) key tag value)
    (hk : h.index key = i) (hi : i < h.size) (hnew : ∀ a ∈ ring i, m.key a ≠ key) :
    Table m' h' (placeRing m ring i tag) := by
  obtain ⟨hg, hb, hx⟩ := t.chained.placed p hk hi
  refine ⟨hg, hb, hx, ?_⟩
  intro j hj
  rw [p.size] at hj
  have hmap : (ring j).map m'.key = (ring j).map m.key :=
    List.map_congr_left (fun a ha ↦ p.key_old (fun he ↦ t.chained.brk_notMem hj (he ▸ ha)))
  by_cases hji : j = i
  · subst hji
    rw [((t.chained.placed_perm p hj).map m'.key).nodup_iff, List.map_cons, p.key_new, hmap]
    refine List.nodup_cons.mpr ⟨?_, t.keys_nodup j hj⟩
    rw [List.mem_map]
    rintro ⟨a, ha, hak⟩
    exact hnew a ha hak
  · rw [placeRing_of_ne hji, hmap]
    exact t.keys_nodup j hj

/-- Rings cyclically sorted by tag stay so when a node is placed by its tag. -/
theorem placed_sorted_tag (t : Table m h ring) (p : Placed m m' h h' i (ring i) key tag value)
    (hi : i < h.size) (hs : CyclicSorted m.tag (ring i)) :
    CyclicSorted m'.tag (newRing m.tag tag m.brk (ring i)) := by
  have htag (a : Nat) (ha : a ∈ ring i) : m'.tag a = m.tag a := by
    apply p.tag_old
    rintro rfl
    exact t.chained.brk_notMem hi ha
  rw [← newRing_congr htag]
  exact cyclicSorted_newRing (hs.congr htag) p.tag_new

/-- In a bucket whose nodes carry the tags of their keys, key order is tag order. -/
theorem sorted_iff_tag (t : Table m h ring) (hf : FreshTags m h ring) (hi : i < h.size) :
    CyclicSorted m.key (ring i) ↔ CyclicSorted m.tag (ring i) := by
  have hle (a : Nat) (ha : a ∈ ring i) (b : Nat) (hb : b ∈ ring i) :
      m.key a ≤ m.key b ↔ m.tag a ≤ m.tag b := by
    rw [hf i hi a ha, hf i hi b hb]
    exact le_iff_tagOf_le ((t.index i hi a ha).trans (t.index i hi b hb).symm)
  constructor
  · intro hs
    exact hs.of_le_iff hle
  · intro hs
    exact hs.of_le_iff (fun a ha b hb ↦ (hle a ha b hb).symm)

/-- The contents after a new key was placed. -/
theorem placed_contents (t : Table m h ring)
    (p : Placed m m' h h' (h.index key) (ring (h.index key)) key tag value)
    (hk : key < 2 ^ h.n) (hnew : ∀ a ∈ ring (h.index key), m.key a ≠ key) (hq : q < 2 ^ h.n) :
    contents m' h' (placeRing m ring (h.index key) tag) q =
      if q = key then some value else contents m h ring q := by
  have hi := t.geometry.index_lt hk
  have t' := t.placed p rfl hi hnew
  have hq' : q < 2 ^ h'.n := by rwa [p.sizes.1]
  have hold (a : Nat) (ha : a ∈ ring (h.index q)) : a ≠ m.brk := by
    rintro rfl
    exact t.chained.brk_notMem (t.geometry.index_lt hq) ha
  apply Option.ext
  intro v
  rw [t'.contents_eq_some hq', p.index]
  split
  · next hqk =>
    subst hqk
    constructor
    · rintro ⟨a, ha, hak, rfl⟩
      rcases mem_placeRing.mp ha with ⟨-, rfl⟩ | ha
      · rw [p.value_new]
      · rw [p.key_old (hold a ha)] at hak
        exact absurd hak (hnew a ha)
    · intro hv
      rw [Option.some.injEq] at hv
      exact ⟨m.brk, mem_placeRing.mpr (Or.inl ⟨rfl, rfl⟩), p.key_new, p.value_new.trans hv⟩
  · next hqk =>
    rw [t.contents_eq_some hq]
    constructor
    · rintro ⟨a, ha, hak, hav⟩
      rcases mem_placeRing.mp ha with ⟨-, rfl⟩ | ha
      · rw [p.key_new] at hak
        exact absurd hak.symm hqk
      · rw [p.key_old (hold a ha)] at hak
        rw [p.value_old (hold a ha)] at hav
        exact ⟨a, ha, hak, hav⟩
    · rintro ⟨a, ha, hak, hav⟩
      refine ⟨a, mem_placeRing.mpr (Or.inr ha), ?_, ?_⟩
      · rw [p.key_old (hold a ha), hak]
      · rw [p.value_old (hold a ha), hav]

/-- A placed node with the tag of its key keeps the tags fresh. -/
theorem placed_freshTags (t : Table m h ring)
    (p : Placed m m' h h' i (ring i) key (h.tagOf key) value) (hf : FreshTags m h ring) :
    FreshTags m' h' (placeRing m ring i (h.tagOf key)) := by
  intro j hj a ha
  rw [p.size] at hj
  rw [Hash.tagOf, p.bits]
  rcases mem_placeRing.mp ha with ⟨-, rfl⟩ | ha
  · rw [p.tag_new, p.key_new, Hash.tagOf]
  · have hne : a ≠ m.brk := by
      rintro rfl
      exact t.chained.brk_notMem hj ha
    rw [p.tag_old hne, p.key_old hne]
    exact hf j hj a ha

end Table

end Placed

end Jeopardy.Hotring
