import Jeopardy.Hotring.Split

/-!
# The split of regular tables

On a table that was never rehashed tags and keys are in the same order, so its rings can be
split unless a head holds the key of a milestone. What is left of the rehash that can go wrong
is the size of the new table: `hash_alloc` shifts an `int`.
-/

namespace Jeopardy.Hotring

open Rings Fault

variable {m : Mem} {h : Hash} {ring : Nat → List Nat} {i c : Nat} {xs : List Nat}

/-- Within a bucket the key is the least key of the bucket and the tag. -/
theorem key_eq_add_tag {a : Nat} (t : Table m h ring) (hf : FreshTags m h ring) (hi : i < h.size)
    (ha : a ∈ ring i) : m.key a = i * 2 ^ h.bits + m.tag a := by
  have hidx := t.index i hi a ha
  rw [Hash.index] at hidx
  rw [hf i hi a ha, Hash.tagOf, ← hidx]
  exact (Nat.div_add_mod' (m.key a) (2 ^ h.bits)).symm

/-- A ring with fresh tags can be split unless its head holds the key of a milestone. -/
theorem splittable_of_fresh (t : Table m h ring) (hs : Sorted m h ring) (hf : FreshTags m h ring)
    (hb : 1 ≤ h.bits) (hi : i < h.size) (hr : ring i = c :: xs) (h0 : m.tag c ≠ 0)
    (h1 : m.tag c ≠ halfTag h) :
    Splittable m.key m.tag (i * 2 ^ h.bits) (halfTag h) c xs := by
  have hhalf := two_mul_halfTag hb
  have hkey (a : Nat) (ha : a ∈ c :: xs) := key_eq_add_tag t hf hi (hr ▸ ha)
  have hlt (a : Nat) (ha : a ∈ c :: xs) : m.tag a < 2 ^ h.bits := by
    rw [hf i hi a (hr ▸ ha)]
    exact tagOf_lt h _
  have hc := hkey c List.mem_cons_self
  refine ⟨Nat.two_pow_pos _, hr ▸ hs i hi, ?_, hr ▸ t.keys_nodup i hi, ?_, ?_, ?_, ?_, ?_⟩
  · rw [← hr]
    exact (t.sorted_iff_tag hf hi).mp (hs i hi)
  · intro a ha
    rw [hkey a ha]
    exact Nat.le_add_right _ _
  · intro a ha
    rw [hhalf, hkey a ha, Nat.add_sub_cancel_left]
    exact Nat.mod_eq_of_lt (hlt a ha)
  · intro a ha
    rw [hkey a ha]
    exact (Nat.add_le_add_iff_left).symm
  · omega
  · intro z hz hle
    rw [hc, hkey z hz]
    exact Nat.add_le_add_left (hle c List.mem_cons_self) _

/-- A table of `2 ^ NBITS` keys with at least two tag bits: its buckets in use are below
`2 ^ (k - 1)` and hold rings that ascend by key, every tag is that of the key, and no tag is
that of a milestone. -/
structure Regular (m : Mem) (h : Hash) (ring : Nat → List Nat) : Prop where
  table : Table m h ring
  n : h.n = NBITS
  bits : 2 ≤ h.bits
  low : ∀ i < h.size, ring i ≠ [] → i < 2 ^ (h.k - 1)
  sorted : Sorted m h ring
  fresh : FreshTags m h ring
  tags : ∀ i < h.size, ∀ a ∈ ring i, m.tag a ≠ 0 ∧ m.tag a ≠ halfTag h

theorem Regular.divisible (r : Regular m h ring) : Divisible m h ring h.size := by
  intro i hi c xs hr
  constructor
  · have hn := r.table.geometry.n_eq
    have hbits := r.table.geometry.bits_le
    rw [r.n, NBITS] at hn
    calc i * 2 ^ h.bits < 2 ^ (h.k - 1) * 2 ^ h.bits :=
          Nat.mul_lt_mul_of_pos_right (r.low i hi (by simp [hr])) (Nat.two_pow_pos _)
      _ = 2 ^ 31 := by
          rw [← Nat.pow_add]
          congr 1
          omega
  · obtain ⟨h0, h1⟩ := r.tags i hi c (by simp [hr])
    exact splittable_of_fresh r.table r.sorted r.fresh (Nat.le_of_succ_le r.bits) hi hr h0 h1

/-- `hotring_rehash` completes. The slots `i * 2` and `i * 2 + 1` of the new table hold the
nodes of bucket `i` with tags below and from the half tag on, in the order of the old ring, read
from the least tag. The nodes keep their data, and those of the milestones are freed. -/
def RingSplit (m : Mem) (h : Hash) (ring : Nat → List Nat) : Prop :=
  ∃ m' new, hotringRehash m h = .ok (m', new) ∧
    (∀ i < h.size, ring i ≠ [] → ∃ A B, (ring i).IsRotated (A ++ B) ∧
      (∀ a ∈ A, m.tag a < halfTag h) ∧ (∀ b ∈ B, halfTag h ≤ m.tag b) ∧
      (A ++ B).Pairwise (fun x y ↦ m.tag x < m.tag y) ∧
      BucketAt m' new (i * 2) A ∧ BucketAt m' new (i * 2 + 1) B) ∧
    (∀ a < m.brk, m.SameData m' a) ∧ ∀ a, m.brk ≤ a → m'.node a = Option.none

/-- The milestones of a rehash that completes are freed. -/
theorem hotringRehash_frees {m' : Mem} {new : Hash} (hr : hotringRehash m h = .ok (m', new)) :
    ∀ a, m.brk ≤ a → m'.node a = Option.none := by
  have hreg : Region Set.univ m := ⟨trivial, fun _ _ ↦ trivial, fun _ _ _ _ ↦ trivial⟩
  exact (hotringRehash_region hreg (fun _ _ _ ↦ trivial) hr).2.2.2

/-- **Ring split.** A rehash splits the rings of a regular table exactly when the table has at
most `2 ^ 29` slots. -/
theorem ringSplit_iff (r : Regular m h ring) : RingSplit m h ring ↔ h.k ≤ 29 := by
  constructor
  · rintro ⟨m', new, hr, -⟩
    have hk := (hotringRehash_shape hr).2.2.2
    omega
  · intro hk
    obtain ⟨m', new, A, B, hr, s⟩ := hotringRehash_spec r.table (Nat.le_of_succ_le r.bits)
      (by omega) r.divisible
    refine ⟨m', new, hr, ?_, s.data, hotringRehash_frees hr⟩
    intro i hi _
    exact ⟨A i, B i, s.whole i hi, s.low i hi, s.high i hi, s.ordered i hi, s.lower i hi,
      s.upper i hi⟩

/-! ### Three nodes -/

/-- A ring of three keys of bucket 1, each with a counter. The last key has the upper bit of its tag
set. -/
def halvesMem : Mem :=
  ((Mem.init.alloc ⟨⟨2, 1, false, false⟩, 3, 2 ^ 30 + 3, 30⟩).alloc
    ⟨⟨3, 3, false, false⟩, 5, 2 ^ 30 + 5, 50⟩).alloc
    ⟨⟨1, 2, false, false⟩, 2 ^ 29 + 7, 2 ^ 30 + (2 ^ 29 + 7), 70⟩

/-- The table of four slots with that ring, the head at the second key. -/
def halvesTable : Hash := Hash.setSlot ⟨NBITS, 2, 4, fun _ ↦ Option.none⟩ 1 (some (.ofPtr 2))

/-- Its rings. -/
def halvesRing (i : Nat) : List Nat := if i = 1 then [2, 3, 1] else []

theorem halvesRing_cases (i : Nat) : (i = 1 ∧ halvesRing i = [2, 3, 1]) ∨
    (halvesTable.slots i = Option.none ∧ halvesRing i = []) := by
  by_cases hi : i = 1
  · exact .inl ⟨hi, if_pos hi⟩
  · exact .inr ⟨by simp [halvesTable, Hash.setSlot, hi], if_neg hi⟩

theorem regular_halves : Regular halvesMem halvesTable halvesRing := by
  have htags : ∀ i < halvesTable.size, ∀ a ∈ halvesRing i,
      halvesMem.tag a = halvesTable.tagOf (halvesMem.key a) := by decide +kernel
  refine ⟨⟨⟨by decide, by decide, by decide, rfl⟩, fun i hi ↦ ⟨hi, ?_, ?_⟩, by decide +kernel,
    by decide +kernel⟩, rfl, by decide, ?_, fun i _ ↦ ?_, htags, by decide +kernel⟩
  · rcases halvesRing_cases i with ⟨rfl, hr⟩ | ⟨hs, hr⟩
    · rw [hr]
      rfl
    · rw [hr, hs]
      rfl
  · rcases halvesRing_cases i with ⟨-, hr⟩ | ⟨-, hr⟩
    · rw [hr]
      exact ⟨by decide, rfl, rfl, rfl⟩
    · rw [hr]
      exact isRing_nil
  · intro i _ hne
    rcases halvesRing_cases i with ⟨rfl, -⟩ | ⟨-, hr⟩
    · decide
    · exact absurd hr hne
  · rcases halvesRing_cases i with ⟨-, hr⟩ | ⟨-, hr⟩
    · rw [hr]
      exact ⟨[2, 3], [1], rfl, by decide⟩
    · rw [hr]
      exact ⟨[], [], rfl, List.Pairwise.nil⟩

/-- `ringSplit_iff` of this ring, whose second node goes to the upper half. -/
theorem ringSplit_iff_halves :
    RingSplit halvesMem halvesTable halvesRing ↔ halvesTable.k ≤ 29 :=
  ringSplit_iff regular_halves

/-! ### One node -/

/-- A memory with one node, of key 1, on a ring of its own. -/
def loneMem : Mem := Mem.init.alloc ⟨.ofPtr 1, 1, 1, 7⟩

/-- The table of `2 ^ k` slots with that ring in its first slot. -/
def loneTable (k : Nat) : Hash :=
  ⟨NBITS, k, 2 ^ k, fun i ↦ if i = 0 then some (.ofPtr 1) else Option.none⟩

/-- Its rings. -/
def loneRing (i : Nat) : List Nat := if i = 0 then [1] else []

theorem mem_loneRing {a : Nat} (ha : a ∈ loneRing i) : i = 0 ∧ a = 1 := by
  unfold loneRing at ha
  split at ha
  · next hi => exact ⟨hi, List.mem_singleton.mp ha⟩
  · cases ha

theorem regular_lone {k : Nat} (hk : 2 ≤ k) (hk' : k ≤ 30) :
    Regular loneMem (loneTable k) loneRing := by
  have hbits : (loneTable k).bits = 32 - k := rfl
  have hone : 1 < 2 ^ (loneTable k).bits := Nat.one_lt_two_pow (by omega)
  refine ⟨⟨⟨hk', ?_, ?_, rfl⟩, ?_, ?_, ?_⟩, rfl, ?_, ?_, ?_, ?_, ?_⟩
  · show k ≤ 32
    omega
  · omega
  · intro i hi
    refine ⟨hi, ?_, ?_⟩
    · show (if i = 0 then some (Head.ofPtr 1) else Option.none).map Head.addr
        = (if i = 0 then [1] else []).head?
      split <;> rfl
    · unfold loneRing
      split
      · exact isRing_singleton.mpr rfl
      · exact isRing_nil
  · intro i _ a ha
    obtain ⟨rfl, rfl⟩ := mem_loneRing ha
    exact Nat.div_eq_of_lt hone
  · intro i _
    unfold loneRing
    split
    · exact List.nodup_singleton _
    · exact List.nodup_nil
  · omega
  · intro i _ hne
    obtain ⟨a, ha⟩ := List.exists_mem_of_ne_nil _ hne
    rw [(mem_loneRing ha).1]
    exact Nat.two_pow_pos _
  · intro i _
    unfold loneRing
    split
    · exact cyclicSorted_singleton _ _
    · exact ⟨[], [], rfl, List.Pairwise.nil⟩
  · intro i _ a ha
    obtain ⟨rfl, rfl⟩ := mem_loneRing ha
    exact (Nat.mod_eq_of_lt hone).symm
  · intro i _ a ha
    obtain ⟨rfl, rfl⟩ := mem_loneRing ha
    refine ⟨by decide, ?_⟩
    have hhalf : 1 < halfTag (loneTable k) := Nat.one_lt_two_pow (by omega)
    exact hhalf.ne

/-- On a table of `2 ^ 30` slots the rehash does not complete: `1 << 31` is no `int`. -/
theorem hotringRehash_overflows :
    Regular loneMem (loneTable 30) loneRing ∧ ¬ RingSplit loneMem (loneTable 30) loneRing ∧
      ∀ r, hotringRehash loneMem (loneTable 30) ≠ .ok r := by
  have hno (r : Mem × Hash) : hotringRehash loneMem (loneTable 30) ≠ .ok r := by
    intro hr
    have hk := (hotringRehash_shape hr).2.2.2
    exact absurd hk (by decide)
  refine ⟨regular_lone (by decide) (by decide), ?_, hno⟩
  rintro ⟨m', new, hr, -⟩
  exact hno _ hr

end Jeopardy.Hotring
