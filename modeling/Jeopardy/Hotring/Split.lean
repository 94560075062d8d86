import Jeopardy.Hotring.Milestone
import Jeopardy.Hotring.Unmark

/-!
# What a rehash does to the rings

On a table all of whose rings can be split, `hotring_rehash` completes, and every ring falls
apart into its lower and its upper half by tags.
-/

namespace Jeopardy.Hotring

open Rings Fault

variable {m m' : Mem} {h new : Hash} {ring A B : Nat → List Nat} {i : Nat}

/-! ### Milestone keys -/

private theorem toNat_shiftLeft_ofNat {bits : Nat} (hi : i * 2 ^ bits < 2 ^ 32) :
    (BitVec.ofNat 32 i <<< bits).toNat = i * 2 ^ bits := by
  have hle : i ≤ i * 2 ^ bits := Nat.le_mul_of_pos_right i (Nat.two_pow_pos bits)
  rw [BitVec.toNat_shiftLeft, BitVec.toNat_ofNat, Nat.shiftLeft_eq,
    Nat.mod_eq_of_lt (hle.trans_lt hi)]
  exact Nat.mod_eq_of_lt hi

/-- A bucket whose keys are non-negative as an `int` has its least key as first milestone. -/
theorem milestone_eq {bits : Nat} (hi : i * 2 ^ bits < 2 ^ 31) :
    milestone i bits = i * 2 ^ bits := by
  have hnat := toNat_shiftLeft_ofNat (show i * 2 ^ bits < 2 ^ 32 by omega)
  have hmsb : (BitVec.ofNat 32 i <<< bits).msb = false := by
    rw [BitVec.msb_eq_false_iff_two_mul_lt, hnat]
    omega
  rw [milestone, BitVec.signExtend_eq_setWidth_of_msb_false hmsb, BitVec.toNat_setWidth, hnat]
  exact Nat.mod_eq_of_lt (by omega)

/-- For a bucket with keys from `2 ^ 31` on the sign is extended. -/
theorem milestone_ge {bits : Nat} (hi : 2 ^ 31 ≤ i * 2 ^ bits) (hi' : i * 2 ^ bits < 2 ^ 32) :
    2 ^ 32 ≤ milestone i bits := by
  have hnat := toNat_shiftLeft_ofNat hi'
  have hmsb : (BitVec.ofNat 32 i <<< bits).msb = true := by
    rw [BitVec.msb_eq_true_iff_two_mul_ge, hnat]
    omega
  rw [milestone, BitVec.toNat_signExtend, if_pos hmsb]
  omega

theorem baseKey_eq (hi : i * 2 ^ h.bits < 2 ^ 31) : baseKey h i = i * 2 ^ h.bits := milestone_eq hi

theorem two_mul_halfTag (hb : 1 ≤ h.bits) : 2 * halfTag h = 2 ^ h.bits := by
  rw [halfTag, mul_comm, ← Nat.pow_succ, Nat.succ_eq_add_one, Nat.sub_add_cancel hb]

theorem topKey_eq (g : Geometry h) (hb : 1 ≤ h.bits) (hi : i * 2 ^ h.bits < 2 ^ 31) :
    topKey h i = i * 2 ^ h.bits + halfTag h := by
  have hhalf := two_mul_halfTag hb
  have hle : 2 ^ h.bits ≤ 2 ^ 30 := Nat.pow_le_pow_right (by decide) g.bits_le
  rw [topKey, milestoneHalf, milestone_eq hi]
  exact Nat.mod_eq_of_lt (by omega)

theorem index_base (i : Nat) : h.index (i * 2 ^ h.bits) = i :=
  Nat.mul_div_cancel i (Nat.two_pow_pos _)

theorem index_top (hb : 1 ≤ h.bits) (i : Nat) : h.index (i * 2 ^ h.bits + halfTag h) = i := by
  have hhalf := two_mul_halfTag hb
  have hpos : 0 < halfTag h := Nat.two_pow_pos _
  rw [Hash.index, Nat.add_comm, Nat.add_mul_div_right _ _ (Nat.two_pow_pos _),
    Nat.div_eq_of_lt (by omega), Nat.zero_add]

/-! ### The rings -/

/-- Every bucket in use below bucket `n` has keys that are non-negative as an `int` and a ring
that can be split. -/
def Divisible (m : Mem) (h : Hash) (ring : Nat → List Nat) (n : Nat) : Prop :=
  ∀ i < n, ∀ c xs, ring i = c :: xs →
    i * 2 ^ h.bits < 2 ^ 31 ∧ Splittable m.key m.tag (i * 2 ^ h.bits) (halfTag h) c xs

/-- The slots `i * 2` and `i * 2 + 1` of the new table hold the lower and the upper half of the
ring of bucket `i`, read from their least tags, and the nodes keep their data. -/
structure SplitInto (m m' : Mem) (h new : Hash) (ring A B : Nat → List Nat) : Prop where
  n : new.n = NBITS
  k : new.k = h.k + 1
  size : new.size = h.size * 2
  lower : ∀ i < h.size, BucketAt m' new (i * 2) (A i)
  upper : ∀ i < h.size, BucketAt m' new (i * 2 + 1) (B i)
  whole : ∀ i < h.size, (ring i).IsRotated (A i ++ B i)
  ordered : ∀ i < h.size, (A i ++ B i).Pairwise (fun x y ↦ m.tag x < m.tag y)
  low : ∀ i < h.size, ∀ a ∈ A i, m.tag a < halfTag h
  high : ∀ i < h.size, ∀ b ∈ B i, halfTag h ≤ m.tag b
  data : ∀ a < m.brk, m.SameData m' a

section Loops

variable {m₁ : Mem} {h₁ : Hash} {lo hi : Nat → Nat} {n : Nat}

/-- The parts `A i` and `B i` are the halves of the marked rings below bucket `n`. -/
structure Parts (m : Mem) (h : Hash) (ring : Nat → List Nat) (lo hi : Nat → Nat)
    (A B : Nat → List Nat) (n : Nat) : Prop where
  unused : ∀ i < n, ring i = [] → A i = [] ∧ B i = []
  used : ∀ i < n, ∀ c xs, ring i = c :: xs →
    Halves m.key m.tag (i * 2 ^ h.bits) (halfTag h) (lo i) (hi i) (ring i)
      (markRing m.tag (halfTag h) (lo i) (hi i) (ring i)) (A i) (B i)

/-- The milestones put into rings that can be split enclose their halves. -/
theorem Marked.exists_parts (t : Table m h ring) (hb : 1 ≤ h.bits) (hn : n ≤ h.size)
    (hd : Divisible m h ring n)
    (M : Marked m h ring (baseKey h) (topKey h) (halfTag h) lo hi (m₁, h₁, new) h.size) :
    ∃ A B, Parts m₁ h ring lo hi A B n := by
  have hex (i : Nat) : ∃ P : List Nat × List Nat, i < n →
      (ring i = [] → P.1 = [] ∧ P.2 = []) ∧ ∀ c xs, ring i = c :: xs →
        Halves m₁.key m₁.tag (i * 2 ^ h.bits) (halfTag h) (lo i) (hi i) (ring i)
          (markRing m₁.tag (halfTag h) (lo i) (hi i) (ring i)) P.1 P.2 := by
    cases hr : ring i with
    | nil => exact ⟨([], []), fun _ ↦ ⟨fun _ ↦ ⟨rfl, rfl⟩, nofun⟩⟩
    | cons c xs =>
      by_cases hin : i < n
      · have hi' := hin.trans_le hn
        have hne : ring i ≠ [] := by simp [hr]
        obtain ⟨hpos, s⟩ := hd i hin c xs hr
        obtain ⟨hbrk, hlt, -⟩ := M.fresh i hi' hne
        have hold (a : Nat) (ha : a ∈ c :: xs) : a < m.brk := t.lt_brk hi' (hr ▸ ha)
        have s₁ := s.congr (fun a ha ↦ (M.kept a (hold a ha)).key)
          (fun a ha ↦ (M.kept a (hold a ha)).tag)
        obtain ⟨A, B, H⟩ := s₁.halves
          (fun hm ↦ absurd (hold _ hm) (by omega)) (fun hm ↦ absurd (hold _ hm) (by omega)) hlt.ne'
          ((M.low i hi' hne).1.trans (baseKey_eq hpos))
          ((M.high i hi' hne).1.trans (topKey_eq t.geometry hb hpos)) (M.high i hi' hne).2
        exact ⟨(A, B), fun _ ↦ ⟨nofun, fun _ _ _ ↦ H⟩⟩
      · exact ⟨([], []), fun hlt ↦ absurd hlt hin⟩
  choose P hP using hex
  exact ⟨fun i ↦ (P i).1, fun i ↦ (P i).2, fun i hi ↦ (hP i hi).1, fun i hi ↦ (hP i hi).2⟩

/-- The nodes of two marked rings differ. -/
theorem Marked.disjoint (t : Table m h ring)
    (M : Marked m h ring (baseKey h) (topKey h) (halfTag h) lo hi (m₁, h₁, new) h.size)
    {i j a : Nat} (hi' : i < h.size) (hj : j < h.size) (hij : i ≠ j)
    (ha : a ∈ markRing m₁.tag (halfTag h) (lo i) (hi i) (ring i)) :
    a ∉ markRing m₁.tag (halfTag h) (lo j) (hi j) (ring j) := by
  intro hm
  obtain ⟨hi₀, hai⟩ := mem_markRing ha
  obtain ⟨hj₀, haj⟩ := mem_markRing hm
  have hfi := M.fresh i hi' hi₀
  have hfj := M.fresh j hj hj₀
  have hord : lo i < hi j ∨ lo j < hi i := by
    rcases Nat.lt_or_gt_of_ne hij with hlt | hlt
    · exact Or.inl (M.order i j hlt hj hi₀ hj₀)
    · exact Or.inr (M.order j i hlt hi' hj₀ hi₀)
  by_cases hold : a ∈ ring i ∧ a ∈ ring j
  · exact t.chained.ring_disjoint hi' hj hij hold.1 hold.2
  · have hlti : a ∈ ring i → a < m.brk := t.lt_brk hi'
    have hltj : a ∈ ring j → a < m.brk := t.lt_brk hj
    rcases hai with hai | hai | hai <;> rcases haj with haj | haj | haj
    · omega
    · omega
    · have := hltj haj
      omega
    · omega
    · omega
    · have := hltj haj
      omega
    · have := hlti hai
      omega
    · have := hlti hai
      omega
    · exact hold ⟨hai, haj⟩

theorem Parts.enclosed (t : Table m h ring) (hb : 1 ≤ h.bits) (hn : n ≤ h.size)
    (hd : Divisible m h ring n)
    (M : Marked m h ring (baseKey h) (topKey h) (halfTag h) lo hi (m₁, h₁, new) h.size)
    (P : Parts m₁ h ring lo hi A B n) :
    Enclosed m₁ h₁ (fun i ↦ markRing m₁.tag (halfTag h) (lo i) (hi i) (ring i)) lo hi A B n := by
  have hsize : h₁.size = h.size := M.shape.size
  have hbits : h₁.bits = h.bits := by rw [Hash.bits, M.shape.n, M.shape.k, Hash.bits]
  have hbase (i : Nat) : baseKey h₁ i = baseKey h i := by rw [baseKey, hbits, baseKey]
  have htop (i : Nat) : topKey h₁ i = topKey h i := by
    rw [topKey, hbits, halfTag, hbits, topKey, halfTag]
  have hidx (q : Nat) : h₁.index q = h.index q := by rw [Hash.index, hbits, Hash.index]
  have hused {i : Nat} (hi' : i < n)
      (hne : markRing m₁.tag (halfTag h) (lo i) (hi i) (ring i) ≠ []) :
      baseKey h i = i * 2 ^ h.bits ∧ topKey h i = i * 2 ^ h.bits + halfTag h ∧
        Halves m₁.key m₁.tag (i * 2 ^ h.bits) (halfTag h) (lo i) (hi i) (ring i)
          (markRing m₁.tag (halfTag h) (lo i) (hi i) (ring i)) (A i) (B i) := by
    cases hr : ring i with
    | nil =>
      rw [hr] at hne
      exact absurd rfl hne
    | cons c xs =>
      have hpos := (hd i hi' c xs hr).1
      exact ⟨baseKey_eq hpos, topKey_eq t.geometry hb hpos, hr ▸ P.used i hi' c xs hr⟩
  refine ⟨t.geometry.congr M.shape.n M.shape.k M.shape.size, hsize.symm ▸ hn, ?_, ?_, ?_, ?_, ?_,
    ?_, ?_⟩
  · intro i hi'
    exact M.bucket i (hsize ▸ hi')
  · intro i j a hi' hj hij ha
    exact M.disjoint t (hsize ▸ hi') (hsize ▸ hj) hij ha
  · intro i hi' hne
    exact (hused hi' hne).2.2.marked
  · intro i hi' hne
    rw [hbase, hidx, (hused hi' hne).1]
    exact index_base i
  · intro i hi' hne
    rw [htop, hidx, (hused hi' hne).2.1]
    exact index_top hb i
  · intro i hi' hne
    obtain ⟨he, -, H⟩ := hused hi' hne
    rw [hbase, he]
    exact H.get_lo
  · intro i hi' hne
    obtain ⟨-, he, H⟩ := hused hi' hne
    rw [htop, he]
    exact H.get_hi

/-- The rings of the new table while they still have their milestones. -/
def halfRing (ring : Nat → List Nat) (lo hi : Nat → Nat) (A B : Nat → List Nat) (j : Nat) :
    List Nat :=
  if ring (j / 2) = [] then []
  else if j % 2 = 0 then lo (j / 2) :: A (j / 2) else hi (j / 2) :: B (j / 2)

theorem halfRing_low (i : Nat) :
    halfRing ring lo hi A B (i * 2) = if ring i = [] then [] else lo i :: A i := by
  rw [halfRing, Nat.mul_div_cancel i Nat.two_pos, Nat.mul_mod_left, if_pos rfl]

theorem halfRing_high (i : Nat) :
    halfRing ring lo hi A B (i * 2 + 1) = if ring i = [] then [] else hi i :: B i := by
  rw [halfRing, show (i * 2 + 1) / 2 = i by omega, if_neg (show (i * 2 + 1) % 2 ≠ 0 by omega)]

private theorem even_or_odd {j n : Nat} (hj : j < n * 2) : ∃ i < n, j = i * 2 ∨ j = i * 2 + 1 :=
  ⟨j / 2, by omega, by omega⟩

/-- The parts `A i` and `B i` with their milestones make up the marked rings. -/
def Sides (m₁ : Mem) (h : Hash) (ring : Nat → List Nat) (lo hi : Nat → Nat)
    (A B : Nat → List Nat) : Prop :=
  ∀ i < h.size, ring i ≠ [] →
    (markRing m₁.tag (halfTag h) (lo i) (hi i) (ring i)).Perm (lo i :: A i ++ hi i :: B i)

theorem Parts.sides (P : Parts m₁ h ring lo hi A B h.size) : Sides m₁ h ring lo hi A B := by
  intro i hi' hne
  obtain ⟨c, xs, hr⟩ := List.exists_cons_of_ne_nil hne
  exact (P.used i hi' c xs hr).marked.perm

/-- The nodes of a half with its milestone are nodes of the marked ring. -/
theorem Sides.mem_halfRing (S : Sides m₁ h ring lo hi A B) {j a : Nat} (hj : j < h.size * 2)
    (ha : a ∈ halfRing ring lo hi A B j) : ∃ i < h.size, (j = i * 2 ∨ j = i * 2 + 1) ∧
      ring i ≠ [] ∧ a ∈ markRing m₁.tag (halfTag h) (lo i) (hi i) (ring i) := by
  obtain ⟨i, hi', hcase⟩ := even_or_odd hj
  refine ⟨i, hi', hcase, ?_⟩
  by_cases hr : ring i = []
  · rcases hcase with rfl | rfl
    · rw [halfRing_low, if_pos hr] at ha
      cases ha
    · rw [halfRing_high, if_pos hr] at ha
      cases ha
  · refine ⟨hr, ?_⟩
    rw [(S i hi' hr).mem_iff, List.mem_append]
    rcases hcase with rfl | rfl
    · rw [halfRing_low, if_neg hr] at ha
      exact Or.inl ha
    · rw [halfRing_high, if_neg hr] at ha
      exact Or.inr ha

theorem Sides.halfRing_disjoint (S : Sides m₁ h ring lo hi A B) (t : Table m h ring)
    (M : Marked m h ring (baseKey h) (topKey h) (halfTag h) lo hi (m₁, h₁, new) h.size)
    {j k a : Nat} (hj : j < h.size * 2) (hk : k < h.size * 2) (hjk : j ≠ k)
    (ha : a ∈ halfRing ring lo hi A B j) : a ∉ halfRing ring lo hi A B k := by
  intro hm
  obtain ⟨i, hi', hji, hne, hai⟩ := S.mem_halfRing hj ha
  obtain ⟨i₂, hi₂, hki, -, hai₂⟩ := S.mem_halfRing hk hm
  by_cases he : i = i₂
  · subst he
    have hn := (M.bucket i hi').linked.nodup
    rw [(S i hi' hne).nodup_iff] at hn
    have hdis := (List.nodup_append.mp hn).2.2
    rcases hji with rfl | rfl <;> rcases hki with rfl | rfl
    · exact hjk rfl
    · rw [halfRing_low, if_neg hne] at ha
      rw [halfRing_high, if_neg hne] at hm
      exact hdis a ha a hm rfl
    · rw [halfRing_high, if_neg hne] at ha
      rw [halfRing_low, if_neg hne] at hm
      exact hdis a hm a ha rfl
    · exact hjk rfl
  · exact M.disjoint t hi' hi₂ he hai hai₂

/-- After the second loop the slots of the new table hold the halves. -/
theorem CutTo.halves {s : Mem × Hash}
    (M : Marked m h ring (baseKey h) (topKey h) (halfTag h) lo hi (m₁, h₁, new) h.size)
    (C : CutTo m₁ h₁ (fun i ↦ markRing m₁.tag (halfTag h) (lo i) (hi i) (ring i)) lo hi A B s
      h.size) {j : Nat} (hj : j < h.size * 2) :
    BucketAt s.1 new j (halfRing ring lo hi A B j) ∧
      PlainRing s.1 (halfRing ring lo hi A B j) := by
  have hjn : j < new.size := by
    have := M.size
    simp only at this
    omega
  obtain ⟨i, hi', hcase⟩ := even_or_odd hj
  obtain ⟨hslo, hshi⟩ := M.slots i hi'
  simp only at hslo hshi
  cases hr : ring i with
  | nil =>
    rw [hr] at hslo hshi
    have hslot : new.slots j = Option.none := by
      rcases hcase with rfl | rfl
      · exact hslo
      · exact hshi
    have hnil : halfRing ring lo hi A B j = [] := by
      rcases hcase with rfl | rfl
      · rw [halfRing_low, if_pos hr]
      · rw [halfRing_high, if_pos hr]
    rw [hnil]
    exact ⟨⟨hjn, by rw [hslot]; rfl, isRing_nil⟩, isRing_nil, nofun⟩
  | cons c xs =>
    have hne : ring i ≠ [] := by simp [hr]
    have hmark : markRing m₁.tag (halfTag h) (lo i) (hi i) (ring i) ≠ [] := by
      rw [hr]
      exact List.cons_ne_nil _ _
    rw [hr] at hslo hshi
    rcases hcase with rfl | rfl
    · rw [halfRing_low, if_neg hne]
      have hp := C.low i hi' hmark
      exact ⟨⟨hjn, by rw [hslo]; rfl, hp.1⟩, hp⟩
    · rw [halfRing_high, if_neg hne]
      have hp := C.high i hi' hmark
      exact ⟨⟨hjn, by rw [hshi]; rfl, hp.1⟩, hp⟩

/-- The last loop and `display` complete, and the slots of the new table hold the parts. -/
theorem CutTo.finish {m₂ : Mem} {h₂ : Hash} (t : Table m h ring)
    (M : Marked m h ring (baseKey h) (topKey h) (halfTag h) lo hi (m₁, h₁, new) h.size)
    (C : CutTo m₁ h₁ (fun i ↦ markRing m₁.tag (halfTag h) (lo i) (hi i) (ring i)) lo hi A B
      (m₂, h₂) h.size)
    (S : Sides m₁ h ring lo hi A B) (hnil : ∀ i < h.size, ring i = [] → A i = [] ∧ B i = []) :
    ∃ m' new', (List.range new.size).foldlM rehashDeleteStep (m₂, new) = .ok (m', new') ∧
      display m' new' = .ok m' ∧ SameShape new new' ∧
      (∀ i < h.size, BucketAt m' new' (i * 2) (A i) ∧ BucketAt m' new' (i * 2 + 1) (B i)) ∧
      ∀ a < m.brk, m.SameData m' a := by
  have hsize : new.size = h.size * 2 := by
    have := M.size
    simp only at this
    omega
  obtain ⟨⟨m₃, new₃⟩, hdel, O⟩ := deleteHeads_spec (m := m₂) (h := new)
    (fun j hj ↦ C.halves M (hsize ▸ hj))
    (fun j k a hj hk hjk ha ↦ S.halfRing_disjoint t M (hsize ▸ hj) (hsize ▸ hk) hjk ha)
  refine ⟨m₃, new₃, hdel, ?_, O.shape, ?_, ?_⟩
  · apply display_spec (h := new₃)
    intro j hj
    exact O.bucket j (O.shape.size ▸ hj)
  · intro i hi'
    have hlow := O.bucket (i * 2) (by omega)
    have hhigh := O.bucket (i * 2 + 1) (by omega)
    rw [halfRing_low] at hlow
    rw [halfRing_high] at hhigh
    by_cases hr : ring i = []
    · rw [if_pos hr] at hlow hhigh
      obtain ⟨hA, hB⟩ := hnil i hi' hr
      rw [hA, hB]
      exact ⟨hlow, hhigh⟩
    · rw [if_neg hr] at hlow hhigh
      exact ⟨hlow, hhigh⟩
  · intro a ha
    refine ((M.kept a ha).trans (C.data a)).trans (O.data a ?_)
    intro j hj he
    obtain ⟨i, hi', hji, hne, -⟩ := S.mem_halfRing (hsize ▸ hj) (List.mem_of_head? he)
    have hfresh := M.fresh i hi' hne
    rcases hji with rfl | rfl
    · rw [halfRing_low, if_neg hne, List.head?_cons, Option.some.injEq] at he
      omega
    · rw [halfRing_high, if_neg hne, List.head?_cons, Option.some.injEq] at he
      omega

end Loops

/-- On a table whose rings can be split, as long as the size of the new table is an `int`,
`hotring_rehash` completes and splits them. -/
theorem hotringRehash_spec (t : Table m h ring) (hb : 1 ≤ h.bits) (hk : h.k + 1 ≤ 30)
    (hd : Divisible m h ring h.size) :
    ∃ m' new A B, hotringRehash m h = .ok (m', new) ∧ SplitInto m m' h new ring A B := by
  obtain ⟨m₁, h₁, new, lo, hi, hinit, M⟩ := hotringRehashInit_spec t hb hk
  obtain ⟨A, B, P⟩ := M.exists_parts t hb le_rfl hd
  obtain ⟨⟨m₂, h₂⟩, hcut, C⟩ := (P.enclosed t hb le_rfl hd M).cut
  obtain ⟨m₃, new₃, hdel, hdis, hsh, hbuckets, hdata⟩ := C.finish t M P.sides P.unused
  have hmember {i a : Nat} (hi' : i < h.size) (ha : a ∈ A i ++ B i) : a ∈ ring i := by
    cases hr : ring i with
    | nil =>
      obtain ⟨hA, hB⟩ := P.unused i hi' hr
      rwa [hA, hB] at ha
    | cons c xs =>
      rw [← hr]
      exact (P.used i hi' c xs hr).whole.mem_iff.mpr ha
  have htag {i a : Nat} (hi' : i < h.size) (ha : a ∈ A i ++ B i) : m₁.tag a = m.tag a :=
    (M.kept a (t.lt_brk hi' (hmember hi' ha))).tag
  have hbits : h₁.bits = h.bits := by rw [Hash.bits, M.shape.n, M.shape.k, Hash.bits]
  have g₁ := t.geometry.congr M.shape.n M.shape.k M.shape.size
  have hshape := hotringRehashInit_shape hinit
  refine ⟨m₃, new₃, A, B, ?_, hsh.n.trans hshape.2.1, hsh.k.trans hshape.2.2.1, ?_,
    fun i hi ↦ (hbuckets i hi).1, fun i hi ↦ (hbuckets i hi).2, ?_, ?_, ?_, ?_, hdata⟩
  · rw [hotringRehash, hinit, ok_bind]
    simp only [g₁.ulSub_bits]
    rw [g₁.halfTagOf_eq (hbits ▸ hb), ok_bind, M.shape.size, hcut, ok_bind]
    simp only
    rw [hdel, ok_bind]
    simp only
    rw [hdis, ok_bind]
    rfl
  · have hsize := M.size
    simp only at hsize
    rw [hsh.size, hsize, mul_comm]
  · intro i hi'
    cases hr : ring i with
    | nil =>
      obtain ⟨hA, hB⟩ := P.unused i hi' hr
      rw [hA, hB]
      exact List.IsRotated.refl _
    | cons c xs => exact hr ▸ (P.used i hi' c xs hr).whole
  · intro i hi'
    have hord : (A i ++ B i).Pairwise (fun x y ↦ m₁.tag x < m₁.tag y) := by
      cases hr : ring i with
      | nil =>
        obtain ⟨hA, hB⟩ := P.unused i hi' hr
        rw [hA, hB]
        exact List.Pairwise.nil
      | cons c xs => exact (P.used i hi' c xs hr).ordered
    refine hord.imp_of_mem ?_
    intro a b ha hb' hlt
    rwa [htag hi' ha, htag hi' hb'] at hlt
  · intro i hi' a ha
    obtain ⟨c, xs, hr⟩ := List.exists_cons_of_ne_nil
      (List.ne_nil_of_mem (hmember hi' (List.mem_append_left _ ha)))
    rw [← htag hi' (List.mem_append_left _ ha)]
    exact (P.used i hi' c xs hr).lower a ha
  · intro i hi' b hb'
    obtain ⟨c, xs, hr⟩ := List.exists_cons_of_ne_nil
      (List.ne_nil_of_mem (hmember hi' (List.mem_append_right _ hb')))
    rw [← htag hi' (List.mem_append_right _ hb')]
    exact (P.used i hi' c xs hr).upper b hb'

end Jeopardy.Hotring
