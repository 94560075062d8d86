import Jeopardy.Hotring.Halving

/-!
# Contents across a rehash

The new table has one more bit for the bucket and one less for the tag, so the lower half of a
bucket goes to the even and the upper half to the odd one of its two new buckets: the split
puts every node where its key is looked for.
-/

namespace Jeopardy.Hotring

open Rings Fault

variable {m m' : Mem} {h h' new : Hash} {ring A B : Nat → List Nat} {i q v : Nat}

/-! ### What a table holds -/

/-- A node on the ring of some bucket holds the value for the key. -/
def Holds (m : Mem) (h : Hash) (q v : Nat) : Prop :=
  ∃ i xs a, BucketAt m h i xs ∧ a ∈ xs ∧ m.key a = q ∧ m.value a = v

theorem BucketAt.unique {xs ys : List Nat} (hx : BucketAt m h i xs) (hy : BucketAt m h i ys) :
    xs = ys := by
  have he : xs.head? = ys.head? := hx.head.symm.trans hy.head
  cases xs with
  | nil => exact (List.head?_eq_none_iff.mp he.symm).symm
  | cons c xs =>
    obtain ⟨ys, rfl⟩ := List.head?_eq_some_iff.mp he.symm
    rw [hx.linked.unique hy.linked]

/-- On a table what the nodes hold is its contents. -/
theorem Table.holds_iff (t : Table m h ring) (hq : q < 2 ^ h.n) :
    Holds m h q v ↔ contents m h ring q = some v := by
  rw [t.contents_eq_some hq]
  constructor
  · rintro ⟨i, xs, a, hb, ha, hk, hv⟩
    obtain rfl := hb.unique (t.bucket i hb.index_lt)
    have hi := t.index i hb.index_lt a ha
    rw [hk] at hi
    exact ⟨a, hi ▸ ha, hk, hv⟩
  · rintro ⟨a, ha, hk, hv⟩
    exact ⟨_, _, a, t.bucket _ (t.geometry.index_lt hq), ha, hk, hv⟩

/-- `__hash_get` finds in `h'` exactly the keys of `n` bits that `h` holds, each with its
value. -/
def FindsSame (n : Nat) (m : Mem) (h : Hash) (m' : Mem) (h' : Hash) : Prop :=
  ∀ q < 2 ^ n, (∀ v, Holds m h q v → lookup m' h' q = .ok (some (q, v))) ∧
    ((∀ v, ¬ Holds m h q v) → lookup m' h' q = .ok Option.none)

theorem FindsSame.of_contents {ring' : Nat → List Nat} (t : Table m h ring)
    (t' : Table m' h' ring') (hs : Sorted m' h' ring') (hn : h'.n = h.n)
    (hc : ∀ q < 2 ^ h.n, contents m' h' ring' q = contents m h ring q) :
    FindsSame h.n m h m' h' := by
  intro q hq
  rw [t'.lookup_eq hs (by rwa [hn]), hc q hq]
  constructor
  · intro v hv
    rw [(t.holds_iff hq).mp hv, Option.map_some]
  · intro hno
    cases hcq : contents m h ring q with
    | none => rfl
    | some v => exact absurd ((t.holds_iff hq).mpr hcq) (hno v)

/-! ### The new table -/

/-- The rings of the new table. -/
def splitRing (A B : Nat → List Nat) (j : Nat) : List Nat :=
  if j % 2 = 0 then A (j / 2) else B (j / 2)

theorem splitRing_low (i : Nat) : splitRing A B (i * 2) = A i := by
  rw [splitRing, Nat.mul_mod_left, if_pos rfl, Nat.mul_div_cancel i Nat.two_pos]

theorem splitRing_high (i : Nat) : splitRing A B (i * 2 + 1) = B i := by
  rw [splitRing, if_neg (show (i * 2 + 1) % 2 ≠ 0 by omega), show (i * 2 + 1) / 2 = i by omega]

/-- The slots `i * 2` and `i * 2 + 1` of the new table hold the nodes of bucket `i`, distributed
in whatever way, with their data and the cyclic order of their tags. -/
structure Parted (m m' : Mem) (h new : Hash) (ring A B : Nat → List Nat) : Prop where
  n : new.n = NBITS
  k : new.k = h.k + 1
  size : new.size = h.size * 2
  lower : ∀ i < h.size, BucketAt m' new (i * 2) (A i)
  upper : ∀ i < h.size, BucketAt m' new (i * 2 + 1) (B i)
  whole : ∀ i < h.size, (ring i).Perm (A i ++ B i)
  tags : ∀ i < h.size, CyclicSorted m.tag (ring i) →
    CyclicSorted m.tag (A i) ∧ CyclicSorted m.tag (B i)
  data : ∀ a < m.brk, m.SameData m' a

namespace Parted

theorem bucket (p : Parted m m' h new ring A B) {j : Nat} (hj : j < new.size) :
    BucketAt m' new j (splitRing A B j) := by
  have hsz := p.size
  rcases Nat.even_or_odd' j with ⟨i, rfl | rfl⟩
  · rw [mul_comm, splitRing_low]
    exact p.lower i (by omega)
  · rw [mul_comm, splitRing_high]
    exact p.upper i (by omega)

/-- The rings of the new table are parts of the old ones. -/
theorem perm (p : Parted m m' h new ring A B) {j : Nat} (hj : j < new.size) :
    j / 2 < h.size ∧ ∃ zs, (ring (j / 2)).Perm (splitRing A B j ++ zs) := by
  have hsz := p.size
  have hi : j / 2 < h.size := by omega
  refine ⟨hi, ?_⟩
  unfold splitRing
  split
  · exact ⟨_, p.whole _ hi⟩
  · exact ⟨_, (p.whole _ hi).trans List.perm_append_comm⟩

theorem mem_ring (p : Parted m m' h new ring A B) {j a : Nat} (hj : j < new.size)
    (ha : a ∈ splitRing A B j) : a ∈ ring (j / 2) := by
  obtain ⟨-, zs, hzs⟩ := p.perm hj
  exact hzs.mem_iff.mpr (List.mem_append_left zs ha)

theorem sameData (p : Parted m m' h new ring A B) (t : Table m h ring) {j a : Nat}
    (hj : j < new.size) (ha : a ∈ splitRing A B j) : m.SameData m' a :=
  p.data a (t.lt_brk (p.perm hj).1 (p.mem_ring hj ha))

/-- Rings of nodes of their slots make a table. -/
theorem table_of_index (p : Parted m m' h new ring A B) (t : Table m h ring) (g : Geometry new)
    (hidx : ∀ j < new.size, ∀ a ∈ splitRing A B j, new.index (m.key a) = j) :
    Table m' new (splitRing A B) := by
  refine ⟨g, fun j hj ↦ p.bucket hj, ?_, ?_⟩
  · intro j hj a ha
    rw [(p.sameData t hj ha).key]
    exact hidx j hj a ha
  · intro j hj
    obtain ⟨hi, zs, hzs⟩ := p.perm hj
    have hn := t.keys_nodup _ hi
    rw [(hzs.map m.key).nodup_iff, List.map_append] at hn
    rw [List.map_congr_left (fun a ha ↦ (p.sameData t hj ha).key)]
    exact (List.nodup_append.mp hn).1

end Parted

namespace SplitInto

/-- The halves of the rings are a distribution of the nodes. -/
theorem parted (s : SplitInto m m' h new ring A B) : Parted m m' h new ring A B := by
  refine ⟨s.n, s.k, s.size, s.lower, s.upper, fun i hi ↦ (s.whole i hi).perm, ?_, s.data⟩
  intro i hi hs
  have hs' := hs.isRotated (s.whole i hi)
  exact ⟨hs'.sublist (List.sublist_append_left _ _), hs'.sublist (List.sublist_append_right _ _)⟩

theorem mem_iff (s : SplitInto m m' h new ring A B) (hi : i < h.size) {a : Nat} :
    a ∈ ring i ↔ a ∈ A i ∨ a ∈ B i := by
  rw [(s.whole i hi).mem_iff, List.mem_append]

theorem geometry (s : SplitInto m m' h new ring A B) (g : Geometry h) (hn : h.n = NBITS)
    (hk : h.k + 1 ≤ 30) : Geometry new := by
  have hbits := g.bits_le
  rw [Hash.bits, hn, NBITS] at hbits
  refine ⟨s.k ▸ hk, ?_, ?_, ?_⟩
  · rw [s.k, s.n, NBITS]
    omega
  · rw [Hash.bits, s.k, s.n, NBITS]
    omega
  · rw [s.size, g.size, s.k, Nat.pow_succ]

theorem bits (s : SplitInto m m' h new ring A B) (hn : h.n = NBITS) : new.bits = h.bits - 1 := by
  rw [Hash.bits, s.n, s.k, Hash.bits, hn]
  omega

/-- A key of bucket `i` belongs to slot `i * 2` or `i * 2 + 1`, as its half says. -/
theorem index (s : SplitInto m m' h new ring A B) (hn : h.n = NBITS) (hb : 1 ≤ h.bits)
    (hi : h.index q = i) :
    (q < i * 2 ^ h.bits + halfTag h ↔ new.index q = i * 2) ∧
      (i * 2 ^ h.bits + halfTag h ≤ q ↔ new.index q = i * 2 + 1) := by
  have hhalf := two_mul_halfTag hb
  have hpos : 0 < halfTag h := Nat.two_pow_pos _
  have hq := Nat.div_add_mod' q (2 ^ h.bits)
  have hlt := Nat.mod_lt q (Nat.two_pow_pos h.bits)
  rw [Hash.index] at hi
  have hnew : new.index q = (i * 2 * halfTag h + q % 2 ^ h.bits) / halfTag h := by
    rw [Hash.index, s.bits hn, ← halfTag]
    congr 1
    rw [mul_assoc, hhalf, ← hi]
    exact hq.symm
  rw [Nat.add_comm, Nat.add_mul_div_right _ _ hpos] at hnew
  rw [hi] at hq
  by_cases hlow : q % 2 ^ h.bits < halfTag h
  · rw [Nat.div_eq_of_lt hlow] at hnew
    omega
  · have hone : q % 2 ^ h.bits / halfTag h = 1 :=
      Nat.div_eq_of_lt_le (by omega) (by omega)
    rw [hone] at hnew
    omega

private theorem even_or_odd (s : SplitInto m m' h new ring A B) {j : Nat} (hj : j < new.size) :
    ∃ i < h.size, j = i * 2 ∨ j = i * 2 + 1 := by
  have := s.size
  exact ⟨j / 2, by omega, by omega⟩

theorem sublist (s : SplitInto m m' h new ring A B) {j : Nat} (hj : j < new.size) :
    ∃ ys, (ring (j / 2)).IsRotated ys ∧ (splitRing A B j).Sublist ys := by
  obtain ⟨i, hi, rfl | rfl⟩ := s.even_or_odd hj
  · rw [Nat.mul_div_cancel i Nat.two_pos, splitRing_low]
    exact ⟨_, s.whole i hi, List.sublist_append_left _ _⟩
  · rw [show (i * 2 + 1) / 2 = i by omega, splitRing_high]
    exact ⟨_, s.whole i hi, List.sublist_append_right _ _⟩

theorem table (s : SplitInto m m' h new ring A B) (t : Table m h ring) (hn : h.n = NBITS)
    (hb : 1 ≤ h.bits) (hk : h.k + 1 ≤ 30) (hd : Divisible m h ring h.size) :
    Table m' new (splitRing A B) := by
  apply s.parted.table_of_index t (s.geometry t.geometry hn hk)
  intro j hj a ha
  have hmem := s.parted.mem_ring hj ha
  obtain ⟨i, hi, hji⟩ := s.even_or_odd hj
  have hdiv : j / 2 = i := by omega
  rw [hdiv] at hmem
  obtain ⟨c, xs, hr⟩ := List.exists_cons_of_ne_nil (List.ne_nil_of_mem hmem)
  have hsides := (hd i hi c xs hr).2.sides a (hr ▸ hmem)
  obtain ⟨hlow, hhigh⟩ := s.index hn hb (t.index i hi a hmem)
  rcases hji with rfl | rfl
  · rw [splitRing_low] at ha
    have := s.low i hi a ha
    exact hlow.mp (by omega)
  · rw [splitRing_high] at ha
    exact hhigh.mp (hsides.mp (s.high i hi a ha))

theorem sorted (s : SplitInto m m' h new ring A B) (t : Table m h ring)
    (hd : Divisible m h ring h.size) : Sorted m' new (splitRing A B) := by
  intro j hj
  have hsz := s.size
  obtain ⟨ys, hrot, hsub⟩ := s.sublist hj
  have hs : CyclicSorted m.key (ring (j / 2)) := by
    cases hr : ring (j / 2) with
    | nil => exact ⟨[], [], rfl, List.Pairwise.nil⟩
    | cons c xs => exact (hd (j / 2) (by omega) c xs hr).2.key_sorted
  exact ((hs.isRotated hrot).sublist hsub).congr (fun a ha ↦ (s.parted.sameData t hj ha).key)

/-- A rehash that splits the rings keeps the contents. -/
theorem contents (s : SplitInto m m' h new ring A B) (t : Table m h ring) (hn : h.n = NBITS)
    (hb : 1 ≤ h.bits) (hk : h.k + 1 ≤ 30) (hd : Divisible m h ring h.size) (hq : q < 2 ^ h.n) :
    Hotring.contents m' new (splitRing A B) q = Hotring.contents m h ring q := by
  have t' := s.table t hn hb hk hd
  have hq' : q < 2 ^ new.n := by rwa [s.n, ← hn]
  have hj := t'.geometry.index_lt hq'
  have hi := t.geometry.index_lt hq
  apply Option.ext
  intro v
  rw [t'.contents_eq_some hq', t.contents_eq_some hq]
  have hhalf : new.index q / 2 = h.index q := by
    obtain ⟨hlow, hhigh⟩ := s.index hn hb (rfl : h.index q = h.index q)
    rcases Nat.lt_or_ge q (h.index q * 2 ^ h.bits + halfTag h) with hlt | hge
    · rw [hlow.mp hlt, Nat.mul_div_cancel _ Nat.two_pos]
    · rw [hhigh.mp hge]
      omega
  constructor
  · rintro ⟨a, ha, hak, hav⟩
    have hsd := s.parted.sameData t hj ha
    exact ⟨a, hhalf ▸ s.parted.mem_ring hj ha, hsd.key ▸ hak, hsd.value ▸ hav⟩
  · rintro ⟨a, ha, hak, hav⟩
    have hsd := s.data a (t.lt_brk hi ha)
    refine ⟨a, ?_, hsd.key.trans hak, hsd.value.trans hav⟩
    have hsz := s.size
    have hmem (j : Nat) (hj' : j < new.size) (haj : a ∈ splitRing A B j) :
        a ∈ splitRing A B (new.index q) := by
      have hja := t'.index j hj' a haj
      rw [hsd.key, hak] at hja
      exact hja ▸ haj
    rcases (s.mem_iff hi).mp ha with ha | ha
    · exact hmem (h.index q * 2) (by omega) (splitRing_low (A := A) (B := B) _ ▸ ha)
    · exact hmem (h.index q * 2 + 1) (by omega) (splitRing_high (A := A) (B := B) _ ▸ ha)

end SplitInto

/-! ### Rehashes that keep the contents -/

/-- `hotring_rehash` completes, `__hash_get` finds in the new table exactly what the old one
held, and the milestones are freed. -/
def RehashLaw (m : Mem) (h : Hash) : Prop :=
  ∃ m' new, hotringRehash m h = .ok (m', new) ∧ FindsSame h.n m h m' new ∧
    ∀ a, m.brk ≤ a → m'.node a = Option.none

/-- The table has room for one more bit, and each of its rings can be split. -/
def Rehashable (m : Mem) (h : Hash) : Prop :=
  ∃ ring, Table m h ring ∧ h.n = NBITS ∧ h.k ≤ 29 ∧ Divisible m h ring h.size

theorem Rehashable.law (hr : Rehashable m h) : RehashLaw m h := by
  obtain ⟨ring, t, hn, hk, hd⟩ := hr
  have hb : 1 ≤ h.bits := by
    rw [Hash.bits, hn, NBITS]
    omega
  obtain ⟨m', new, A, B, hreh, s⟩ := hotringRehash_spec t hb (by omega) hd
  refine ⟨m', new, hreh, ?_, hotringRehash_frees hreh⟩
  exact .of_contents t (s.table t hn hb (by omega) hd) (s.sorted t hd) (s.n.trans hn.symm)
    (fun q hq ↦ s.contents t hn hb (by omega) hd hq)

end Jeopardy.Hotring
