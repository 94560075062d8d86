import Jeopardy.Hotring.Parting

/-!
# Tables with old tags

`hash_insert` places a node by the tag of its key, and a rehash carries the nodes over with the
tags they have. So on every table the rings ascend by tag around, and a tag and its key agree in
the bits that the table still uses. This is all that is left of the order of a table in a
program that rehashes.
-/

namespace Jeopardy.Hotring

open Rings Fault

variable {D : Type} [DoubleArith D] {m m' : Mem} {h h' new : Hash} {ring ring' A B : Nat → List Nat}
  {i q key value : Nat}

/-- A table whose rings ascend by tag around, with tags that agree with the keys in the bits of
the bucket. A table of `n` bits other than `NBITS` was never rehashed. -/
structure Tagged (m : Mem) (h : Hash) (ring : Nat → List Nat) : Prop where
  table : Table m h ring
  sorted : ∀ i < h.size, CyclicSorted m.tag (ring i)
  residue : ∀ i < h.size, ∀ a ∈ ring i, m.tag a % 2 ^ h.bits = h.tagOf (m.key a)
  fresh : h.n ≠ NBITS → FreshTags m h ring

/-- The heads lead to every node of a ring. -/
theorem BucketAt.reach {xs : List Nat} {a : Nat} (hb : BucketAt m h i xs) (ha : a ∈ xs) :
    Reach m h a := by
  have hlinks {c b : Nat} {ys : List Nat} (hl : Links m.next c ys b) (hc : Reach m h c) :
      ∀ a ∈ c :: ys, Reach m h a := by
    induction ys generalizing c with
    | nil => simpa using hc
    | cons y ys ih =>
      intro a ha
      rcases List.mem_cons.mp ha with rfl | ha
      · exact hc
      · exact ih hl.2 (.next c y hc hl.1) a ha
  cases xs with
  | nil => cases ha
  | cons c ys =>
    obtain ⟨head, hslot, rfl⟩ := Option.map_eq_some_iff.mp
      (show (h.slots i).map Head.addr = some c from hb.head)
    exact hlinks hb.linked.2 (.head i head hslot) a ha

theorem Holds.stored {v : Nat} (hv : Holds m h q v) : Stored m h q := by
  obtain ⟨i, xs, a, hb, ha, hk, -⟩ := hv
  obtain ⟨nd, hnd⟩ := Mem.node_of_ring hb.linked ha
  exact ⟨a, ⟨hb.reach ha, Option.isSome_iff_exists.mpr ⟨nd, hnd⟩⟩, hk⟩

namespace Table

theorem lt_of_holds {v : Nat} (t : Table m h ring) (hv : Holds m h q v) : q < 2 ^ h.n := by
  obtain ⟨i, xs, a, hb, ha, rfl, -⟩ := hv
  obtain rfl := hb.unique (t.bucket i hb.index_lt)
  exact t.geometry.lt_of_index_lt ((t.index i hb.index_lt a ha).symm ▸ hb.index_lt)

/-- No node has a key that the table does not hold. -/
theorem key_ne_of_not_holds (t : Table m h ring) (hq : q < 2 ^ h.n) (hno : ∀ v, ¬ Holds m h q v) :
    ∀ a ∈ ring (h.index q), m.key a ≠ q :=
  fun a ha hk ↦ hno (m.value a) ⟨_, _, a, t.bucket _ (t.geometry.index_lt hq), ha, hk, rfl⟩

end Table

/-! ### A table that was rehashed -/

/-- A search for a key of `n` bits completes. -/
theorem FindsSame.completes {n : Nat} (hf : FindsSame n m h m' h') (hq : q < 2 ^ n) :
    ∃ r, lookup m' h' q = .ok r := by
  by_cases hv : ∃ v, Holds m h q v
  · obtain ⟨v, hv⟩ := hv
    exact ⟨_, (hf q hq).1 v hv⟩
  · exact ⟨_, (hf q hq).2 (not_exists.mp hv)⟩

/-- A rehash that keeps the contents leaves a table whose shifts are defined, and it was one of a
table with at most `NBITS` bits. -/
theorem FindsSame.geometry (hr : hotringRehash m h = .ok (m', new))
    (hf : FindsSame h.n m h m' new) : Geometry new ∧ h.n ≤ NBITS := by
  obtain ⟨hn, hk, hsz, hle⟩ := hotringRehash_shape hr
  have hget (q : Nat) (hq : q < 2 ^ h.n) : ∃ r, rawHashGet m' new q = .ok r := by
    obtain ⟨r, hl⟩ := hf.completes hq
    obtain ⟨g, hg, -⟩ := bind_eq_ok.mp hl
    exact ⟨g, hg⟩
  have hg : Geometry new := by
    obtain ⟨g, hg⟩ := hget 0 (Nat.two_pow_pos _)
    obtain ⟨c, hc, -⟩ := bind_eq_ok.mp hg
    obtain ⟨hkn, hb⟩ := hashCode_ok hc (hk ▸ hle)
    exact ⟨hk ▸ hle, hkn, hb, hk ▸ hsz⟩
  refine ⟨hg, ?_⟩
  have hpos : 0 < 2 ^ h.n := Nat.two_pow_pos _
  obtain ⟨⟨m₁, h₁, g⟩, hlast⟩ := hget (2 ^ h.n - 1) (by omega)
  have hlt := hg.lt_of_rawHashGet hlast
  rw [hn] at hlt
  exact (Nat.pow_le_pow_iff_right (by decide : 1 < 2)).mp (by omega)

/-- A key that is found is on the ring of its bucket, and the search of that ring meets it. -/
theorem ringGet_of_lookup {xs : List Nat} {p : Nat × Nat} (g : Geometry h)
    (hb : BucketAt m h (h.index q) xs) (hl : lookup m h q = .ok (some p)) :
    (∃ a ∈ xs, m.key a = q) ∧ ringGet m.key q xs ≠ .absent := by
  obtain ⟨m₁, h₁, hg, -⟩ := rawHashGet_bucket g hb
  rw [lookup, hg, ok_bind] at hl
  rcases ringGet_cases m.key q xs with he | ⟨c, ys, rfl, hc, he⟩ | ⟨a, v, ps, qs, rfl, ha, he⟩
  · rw [he] at hl
    cases hl
  · exact ⟨⟨c, List.mem_cons_self, hc⟩, by rw [he]; simp [GetResult.absent]⟩
  · exact ⟨⟨a, by simp, ha⟩, by rw [he]; simp [GetResult.absent]⟩

/-- If the search of a ring meets each of its keys, the ring is cyclically sorted. -/
theorem cyclicSorted_of_ringGet {f : Nat → Nat} {xs : List Nat} (hn : (xs.map f).Nodup)
    (hg : ∀ a ∈ xs, ringGet f (f a) xs ≠ .absent) : CyclicSorted f xs := by
  cases xs with
  | nil => exact cyclicSorted_of_pairwise List.Pairwise.nil
  | cons c xs =>
    apply cyclicSorted_of_search hn
    intro a ha
    have hca : f c ≠ f a := by
      intro he
      rw [List.map_cons, he] at hn
      exact (List.nodup_cons.mp hn).1 (List.mem_map_of_mem ha)
    have hget := hg a (List.mem_cons_of_mem c ha)
    rw [ringGet, if_neg hca] at hget
    cases hs : search f (f a) c xs with
    | none =>
      rw [hs] at hget
      exact absurd rfl hget
    | some r => rfl

/-- A table is sorted exactly when a search finds everything that it holds. -/
theorem Table.sorted_iff_lookup (t : Table m h ring) :
    Sorted m h ring ↔ ∀ q v, Holds m h q v → lookup m h q = .ok (some (q, v)) := by
  constructor
  · intro hs q v hv
    have hq := t.lt_of_holds hv
    rw [t.lookup_eq hs hq, (t.holds_iff hq).mp hv, Option.map_some]
  · intro hfind i hi
    apply cyclicSorted_of_ringGet (t.keys_nodup i hi)
    intro a ha
    have hl := hfind _ _ ⟨i, ring i, a, t.bucket i hi, ha, rfl, rfl⟩
    have hidx := t.index i hi a ha
    exact (ringGet_of_lookup t.geometry (hidx.symm ▸ t.bucket i hi) hl).2

namespace Parted

/-- No node is on two rings of the new table. -/
theorem eq_of_mem (p : Parted m m' h new ring A B) (t : Table m h ring) {j k a : Nat}
    (hj : j < new.size) (hk : k < new.size) (ha : a ∈ splitRing A B j)
    (hb : a ∈ splitRing A B k) : j = k := by
  have hi := (p.perm hj).1
  have hhalf : j / 2 = k / 2 := by
    rw [← t.index _ hi a (p.mem_ring hj ha), t.index _ (p.perm hk).1 a (p.mem_ring hk hb)]
  have hn := (t.bucket _ hi).linked.nodup
  rw [(p.whole _ hi).nodup_iff, List.nodup_append] at hn
  unfold splitRing at ha hb
  rw [← hhalf] at hb
  split at ha <;> split at hb
  · omega
  · exact absurd rfl (hn.2.2 a ha a hb)
  · exact absurd rfl (hn.2.2 a hb a ha)
  · omega

/-- What the search for the key of an old node meets. -/
theorem found (p : Parted m m' h new ring A B) (t : Table m h ring) (g : Geometry new)
    (hf : FindsSame h.n m h m' new) {a : Nat} (hi : i < h.size) (ha : a ∈ ring i) :
    new.index (m.key a) < new.size ∧
      (∃ b ∈ splitRing A B (new.index (m.key a)), m'.key b = m.key a) ∧
      ringGet m'.key (m.key a) (splitRing A B (new.index (m.key a))) ≠ .absent := by
  have hq := t.geometry.lt_of_index_lt ((t.index i hi a ha).symm ▸ hi)
  have hl := (hf (m.key a) hq).1 (m.value a) ⟨i, ring i, a, t.bucket i hi, ha, rfl, rfl⟩
  obtain ⟨r, hr, -⟩ := bind_eq_ok.mp hl
  have hj := g.index_lt (g.lt_of_rawHashGet hr)
  exact ⟨hj, ringGet_of_lookup g (p.bucket hj) hl⟩

/-- Every node is on the ring of the slot of its key. -/
theorem index (p : Parted m m' h new ring A B) (t : Table m h ring) (g : Geometry new)
    (hf : FindsSame h.n m h m' new) {j a : Nat} (hj : j < new.size) (ha : a ∈ splitRing A B j) :
    new.index (m.key a) = j := by
  have hi := (p.perm hj).1
  have har := p.mem_ring hj ha
  obtain ⟨hk, ⟨b, hb, hkb⟩, -⟩ := p.found t g hf hi har
  have hbr := p.mem_ring hk hb
  rw [(p.sameData t hk hb).key] at hkb
  have hidx := t.index _ (p.perm hk).1 b hbr
  rw [hkb, t.index _ hi a har] at hidx
  obtain rfl := t.node_eq_of_key hi har (hidx ▸ hbr) hkb.symm
  exact p.eq_of_mem t hk hj hb ha

theorem table (p : Parted m m' h new ring A B) (t : Table m h ring) (g : Geometry new)
    (hf : FindsSame h.n m h m' new) : Table m' new (splitRing A B) :=
  p.table_of_index t g (fun _ hj _ ha ↦ p.index t g hf hj ha)

/-- A table that every old key is found in has sorted rings. -/
theorem key_sorted (p : Parted m m' h new ring A B) (t : Table m h ring) (g : Geometry new)
    (hf : FindsSame h.n m h m' new) : Sorted m' new (splitRing A B) := by
  apply (p.table t g hf).sorted_iff_lookup.mpr
  rintro q v ⟨j, xs, a, hb, ha, rfl, rfl⟩
  have hj := hb.index_lt
  obtain rfl := hb.unique (p.bucket hj)
  have hi := (p.perm hj).1
  have har := p.mem_ring hj ha
  have hsame := p.sameData t hj ha
  have hq := t.geometry.lt_of_index_lt ((t.index _ hi a har).symm ▸ hi)
  rw [hsame.key, hsame.value]
  exact (hf _ hq).1 _ ⟨j / 2, ring (j / 2), a, t.bucket _ hi, har, rfl, rfl⟩

theorem tag_sorted (p : Parted m m' h new ring A B) (t : Table m h ring)
    (hs : ∀ i < h.size, CyclicSorted m.tag (ring i)) {j : Nat} (hj : j < new.size) :
    CyclicSorted m'.tag (splitRing A B j) := by
  have hi := (p.perm hj).1
  have htags := p.tags _ hi (hs _ hi)
  have hs' : CyclicSorted m.tag (splitRing A B j) := by
    unfold splitRing
    split
    · exact htags.1
    · exact htags.2
  exact hs'.congr (fun a ha ↦ (p.sameData t hj ha).tag)

end Parted

/-- A rehash that keeps the contents keeps the tags in order and leaves rings that are sorted by
key. -/
theorem Tagged.rehash (t : Tagged m h ring) (hr : hotringRehash m h = .ok (m', new))
    (hf : FindsSame h.n m h m' new) :
    ∃ ring', Tagged m' new ring' ∧ Sorted m' new ring' := by
  obtain ⟨g, hn⟩ := hf.geometry hr
  obtain ⟨A, B, p⟩ := hf.parted t.table hn hr
  have t' := p.table t.table g hf
  refine ⟨splitRing A B, ⟨t', fun j hj ↦ p.tag_sorted t.table t.sorted hj, ?_,
    fun hne ↦ absurd p.n hne⟩, p.key_sorted t.table g hf⟩
  intro j hj a ha
  have hi := (p.perm hj).1
  have har := p.mem_ring hj ha
  have hsame := p.sameData t.table hj ha
  have hidx := t.table.index _ hi a har
  have hidx' := p.index t.table g hf hj ha
  have hnk := t.table.geometry.n_eq
  have hnk' := g.n_eq
  rw [p.n, p.k] at hnk'
  rw [hsame.tag, hsame.key, Hash.tagOf]
  by_cases hnb : h.n = NBITS
  · have hdvd : 2 ^ new.bits ∣ 2 ^ h.bits := Nat.pow_dvd_pow 2 (by omega)
    have hres := t.residue _ hi a har
    rw [Hash.tagOf] at hres
    rw [← Nat.mod_mod_of_dvd (m.tag a) hdvd, hres, Nat.mod_mod_of_dvd (m.key a) hdvd]
  · -- the slot of the key is the first one, so the tag is the key
    have hle : 2 ^ h.bits ≤ 2 ^ new.bits := Nat.pow_le_pow_right Nat.two_pos (by omega)
    have hj0 : j ≤ j / 2 := by
      calc j = m.key a / 2 ^ new.bits := hidx'.symm
        _ ≤ m.key a / 2 ^ h.bits := Nat.div_le_div_left hle (Nat.two_pow_pos _)
        _ = j / 2 := hidx
    have hlt : m.key a < 2 ^ h.bits := by
      rw [Hash.index, show j / 2 = 0 by omega, Nat.div_eq_zero_iff] at hidx
      exact hidx.resolve_left (Nat.two_pow_pos _).ne'
    rw [t.fresh hnb _ hi a har, Hash.tagOf, Nat.mod_eq_of_lt hlt]

/-! ### Calls -/

namespace Tagged

theorem rotated (t : Tagged m h ring) (hm : m.SameCells m') (r : Rotated h h' ring ring') :
    Tagged m' h' ring' := by
  refine ⟨t.table.rotated hm r, ?_, ?_, fun hne ↦ (t.fresh (r.n ▸ hne)).rotated hm r⟩
  · intro i hi
    rw [r.size] at hi
    rw [hm.tag]
    exact (t.sorted i hi).isRotated (r.rotated i hi)
  · intro i hi a ha
    rw [r.size] at hi
    rw [hm.tag, hm.key, Hash.tagOf, r.bits]
    exact t.residue i hi a ((r.mem_iff hi).mp ha)

/-- A new key placed by its tag. -/
theorem placed (t : Tagged m h ring) (hk : key < 2 ^ h.n)
    (p : Placed m m' h h' (h.index key) (ring (h.index key)) key (h.tagOf key) value)
    (hnew : ∀ a ∈ ring (h.index key), m.key a ≠ key) :
    Tagged m' h' (placeRing m ring (h.index key) (h.tagOf key)) := by
  have hi := t.table.geometry.index_lt hk
  have hold {j a : Nat} (hj : j < h.size) (ha : a ∈ ring j) : a ≠ m.brk := by
    rintro rfl
    exact t.table.chained.brk_notMem hj ha
  refine ⟨t.table.placed p rfl hi hnew, ?_, ?_,
    fun hne ↦ t.table.placed_freshTags p (t.fresh (p.sizes.1 ▸ hne))⟩
  · intro j hj
    rw [p.size] at hj
    by_cases hji : j = h.index key
    · subst hji
      rw [placeRing_same]
      exact t.table.placed_sorted_tag p hi (t.sorted _ hi)
    · rw [placeRing_of_ne hji]
      exact (t.sorted j hj).congr (fun a ha ↦ p.tag_old (hold hj ha))
  · intro j hj a ha
    rw [p.size] at hj
    rw [Hash.tagOf, p.bits]
    rcases mem_placeRing.mp ha with ⟨-, rfl⟩ | ha
    · rw [p.tag_new, p.key_new, Hash.tagOf, Nat.mod_mod]
    · rw [p.tag_old (hold hj ha), p.key_old (hold hj ha)]
      exact t.residue j hj a ha

theorem replaced {ys : List Nat} (t : Tagged m h ring) (p : Replaced m m' h h' ring i ys) :
    Tagged m' h' (Function.update ring i ys) := by
  refine ⟨p.table t.table, ?_, ?_, fun hne ↦ p.freshTags (t.fresh (p.shape.n ▸ hne))⟩
  · intro j hj
    rw [p.shape.size] at hj
    exact ((t.sorted j hj).sublist (p.ring_sublist j)).congr (fun a ha ↦ (p.data hj ha).tag)
  · intro j hj a ha
    rw [p.shape.size] at hj
    rw [(p.data hj ha).tag, (p.data hj ha).key, Hash.tagOf, Hash.bits, p.shape.n, p.shape.k]
    exact t.residue j hj a ((p.ring_sublist j).subset ha)

end Tagged

/-- What a table holds does not depend on counters and on the positions of the heads. -/
theorem Table.holds_rotated {v : Nat} (t : Table m h ring) (hm : m.SameCells m')
    (r : Rotated h h' ring ring') : Holds m' h' q v ↔ Holds m h q v := by
  have t' := t.rotated hm r
  constructor
  · rintro ⟨i, xs, a, hb, ha, hk, hv⟩
    obtain rfl := hb.unique (t'.bucket i hb.index_lt)
    have hi := r.size ▸ hb.index_lt
    exact ⟨i, ring i, a, t.bucket i hi, (r.mem_iff hi).mp ha, by rw [← hm.key, hk],
      by rw [← hm.value, hv]⟩
  · rintro ⟨i, xs, a, hb, ha, hk, hv⟩
    obtain rfl := hb.unique (t.bucket i hb.index_lt)
    exact ⟨i, ring' i, a, t'.bucket i (r.size.symm ▸ hb.index_lt),
      (r.mem_iff hb.index_lt).mpr ha, by rw [hm.key, hk], by rw [hm.value, hv]⟩

/-- A get keeps the tags in order, if a rehash it makes keeps the contents. -/
theorem Tagged.get [LawfulDouble D] {s s' : State} {e : Int} {g : GetResult}
    (t : Tagged s.mem s.hash ring) (hr : hashGet D s q = .ok (s', e, g))
    (hkeep : s'.hash.k ≠ s.hash.k → FindsSame s.hash.n s.mem s.hash s'.mem s'.hash) :
    ∃ ring', Tagged s'.mem s'.hash ring' := by
  obtain ⟨m₁, h₁, ring₁, hm, hrot, ⟨hm₁, hh₁⟩ | hre⟩ := t.table.chained.hashGet_spec hr
  · rw [hm₁, hh₁]
    exact ⟨ring₁, t.rotated hm hrot⟩
  · have hk : s'.hash.k ≠ s.hash.k := by
      rw [(hotringRehash_shape hre).2.1, hrot.k]
      omega
    have hf : FindsSame h₁.n m₁ h₁ s'.mem s'.hash := by
      intro p hp
      simp only [t.table.holds_rotated hm hrot]
      exact hkeep hk p (hrot.n ▸ hp)
    obtain ⟨ring', t', -⟩ := (t.rotated hm hrot).rehash hre hf
    exact ⟨ring', t'⟩

/-- Every call keeps the tags in order, if it inserts no key that the table holds and a rehash it
makes keeps the contents. -/
theorem Tagged.step [LawfulDouble D] {s s' : State} {c : Call} (t : Tagged s.mem s.hash ring)
    (hs : c.step D s = .ok s') (hnew : ∀ p ∈ c.insertedKey, ¬ Stored s.mem s.hash p)
    (hkeep : s'.hash.k ≠ s.hash.k → FindsSame s.hash.n s.mem s.hash s'.mem s'.hash) :
    ∃ ring', Tagged s'.mem s'.hash ring' := by
  have tc := t.table.chained
  cases c with
  | insert key value =>
    obtain ⟨e, hi⟩ := step_insert hs
    have hq := t.table.geometry.lt_of_hashInsert hi
    obtain ⟨m₂, h₂, hi₂, p⟩ := tc.hashInsert_spec hq value
    rw [hi, Except.ok.injEq, Prod.mk.injEq, Prod.mk.injEq] at hi₂
    obtain ⟨rfl, rfl, -⟩ := hi₂
    exact ⟨_, t.placed hq p (t.table.key_ne_of_not_holds hq (fun v hv ↦ hnew key rfl hv.stored))⟩
  | lookup key =>
    obtain ⟨g, hg⟩ := step_lookup hs
    obtain ⟨m₂, h₂, hg₂, hm, hh⟩ := tc.rawHashGet_spec (t.table.geometry.lt_of_rawHashGet hg)
    rw [hg, Except.ok.injEq, Prod.mk.injEq, Prod.mk.injEq] at hg₂
    obtain ⟨rfl, rfl, -⟩ := hg₂
    exact ⟨ring, t.rotated hm (hh.rotated tc)⟩
  | get key =>
    obtain ⟨e, g, hg⟩ := step_get hs
    exact t.get hg hkeep
  | delete key =>
    obtain ⟨b, hd⟩ := step_delete hs
    have hq : key < 2 ^ s.hash.n := by
      obtain ⟨⟨m₂, h₂, g⟩, hg, -⟩ := bind_eq_ok.mp hd
      exact t.table.geometry.lt_of_rawHashGet hg
    obtain ⟨m₂, h₂, found, hd₂, hcase⟩ := t.table.hotringDelete_cases hq
    rw [hd, Except.ok.injEq, Prod.mk.injEq, Prod.mk.injEq] at hd₂
    obtain ⟨rfl, rfl, -⟩ := hd₂
    rcases hcase with ⟨hm, hh⟩ | ⟨ys, p⟩
    · exact ⟨ring, t.rotated hm (hh.rotated tc)⟩
    · exact ⟨_, t.replaced p⟩
  | repoint index steps =>
    obtain ⟨hp, hmem⟩ := step_repoint hs
    rw [hmem]
    obtain ⟨slot, hslot, -⟩ := bind_eq_ok.mp hp
    obtain ⟨h₂, ring', hp₂, hrot⟩ := tc.repointHead_spec (slot_eq_ok hslot).1 steps
    rw [hp, Except.ok.injEq] at hp₂
    subst hp₂
    exact ⟨ring', t.rotated (.refl _) hrot⟩

end Jeopardy.Hotring
