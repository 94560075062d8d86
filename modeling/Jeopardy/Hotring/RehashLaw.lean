import Jeopardy.Hotring.Preserve
import Jeopardy.Hotring.Delete
import Jeopardy.Hotring.Unique

/-!
# When a rehash keeps the contents

A rehash looks for its milestones by key. Where the key of a milestone is beyond `int`, the
search leaves the slot array; where a head holds it, the search answers the head and no
predecessor, and the store behind the predecessor is one through `NULL`. On a table that was
never rehashed nothing else can go wrong.
-/

namespace Jeopardy.Hotring

open Rings Fault

variable {D : Type} [DoubleArith D] {m m' : Mem} {h h' new : Hash} {ring : Nat → List Nat}
  {i q : Nat} {s s' : State} {calls : List Call}

/-! ### Rehashes that do not complete -/

private theorem storeNext_null {p : Nat} {r : Mem} : storeNext m 0 p ≠ .ok r := by
  intro hr
  obtain ⟨⟨nd, hnd⟩, -⟩ := Mem.modify_eq_ok.mp hr
  rw [m.null_free] at hnd
  cases hnd

/-- A milestone's key found at the head comes without a predecessor. -/
private theorem prev_of_head {c : Nat} {zs : List Nat} {g : GetResult} (geo : Geometry h)
    (hb : BucketAt m h (h.index q) (c :: zs)) (hc : m.key c = q)
    (hg : rawHashGet m h q = .ok (m', h', g)) : g.prev = 0 := by
  obtain ⟨m₁, h₁, hg₁, -⟩ := rawHashGet_bucket geo hb
  rw [hg, Except.ok.injEq, Prod.mk.injEq, Prod.mk.injEq, ringGet, if_pos hc] at hg₁
  rw [hg₁.2.2]

/-- A round of the second loop on a bucket in use that completes has found both milestones'
keys, each behind the head. -/
theorem found_of_rehashSplitStep {bits half N c : Nat} {zs : List Nat} {r : Mem × Hash}
    (hb : BucketAt m h N (c :: zs)) (hr : rehashSplitStep bits half (m, h) N = .ok r) :
    ∃ m₁ h₁ r₁ m₂ h₂ r₂, rawHashGet m h (milestone N bits) = .ok (m₁, h₁, r₁) ∧
      rawHashGet m₁ h₁ (milestoneHalf N bits half) = .ok (m₂, h₂, r₂) ∧
      (r₁.node ≠ Option.none ∧ r₁.prev ≠ 0) ∧ r₂.node ≠ Option.none ∧ r₂.prev ≠ 0 := by
  obtain ⟨head, hslot, -⟩ := Option.map_eq_some_iff.mp
    (show (h.slots N).map Head.addr = some c from hb.head)
  simp only [rehashSplitStep, hb.slot_eq, hslot, ok_bind] at hr
  obtain ⟨⟨m₁, h₁, r₁⟩, hg₁, hr⟩ := bind_eq_ok.mp hr
  obtain ⟨⟨m₂, h₂, r₂⟩, hg₂, hr⟩ := bind_eq_ok.mp hr
  refine ⟨m₁, h₁, r₁, m₂, h₂, r₂, hg₁, hg₂, ?_⟩
  simp only at hr
  split at hr
  · next hn₁ hn₂ =>
    obtain ⟨m₅, hst₅, hr⟩ := bind_eq_ok.mp hr
    obtain ⟨m₆, hst₆, -⟩ := bind_eq_ok.mp hr
    refine ⟨⟨by simp [hn₁], ?_⟩, by simp [hn₂], ?_⟩
    · intro h0
      rw [h0] at hst₆
      exact storeNext_null hst₆
    · intro h0
      rw [h0] at hst₅
      exact storeNext_null hst₅
  · cases hr

/-- A round of the second loop on a bucket in use completes only if the first milestone is a key
of `n` bits and the head holds no milestone's key. -/
theorem head_of_rehashSplitStep {bits half N c : Nat} {zs : List Nat} {r : Mem × Hash}
    (geo : Geometry h) (hb : BucketAt m h N (c :: zs))
    (hr : rehashSplitStep bits half (m, h) N = .ok r) :
    milestone N bits < 2 ^ h.n ∧ (h.index (milestone N bits) = N →
      h.index (milestoneHalf N bits half) = N →
      m.key c ≠ milestone N bits ∧ m.key c ≠ milestoneHalf N bits half) := by
  obtain ⟨m₁, h₁, r₁, m₂, h₂, r₂, hg₁, hg₂, ⟨-, hp₁⟩, -, hp₂⟩ := found_of_rehashSplitStep hb hr
  refine ⟨geo.lt_of_rawHashGet hg₁, ?_⟩
  intro hbase htop
  have hb' : BucketAt m h (h.index (milestone N bits)) (c :: zs) := hbase.symm ▸ hb
  obtain ⟨m₃, h₃, hg₃, hs, hh, -⟩ := rawHashGet_bucket geo hb'
  rw [hg₁, Except.ok.injEq, Prod.mk.injEq, Prod.mk.injEq] at hg₃
  obtain ⟨rfl, rfl, -⟩ := hg₃
  have hb₁ : BucketAt m₁ h₁ (h₁.index (milestoneHalf N bits half)) (c :: zs) := by
    rw [Hash.index, hh.bits, ← Hash.index, htop]
    exact hb.congr hs hh
  constructor
  · intro hc
    exact hp₁ (prev_of_head geo hb' hc hg₁)
  · intro hc
    exact hp₂ (prev_of_head (hh.geometry geo) hb₁ (by rw [hs.key, hc]) hg₂)

/-- A base whose milestone is a key is not negative as an `int`. -/
theorem base_lt_of_milestone_lt (geo : Geometry h) (hn : h.n = NBITS) (hi : i < h.size)
    (hlt : milestone i h.bits < 2 ^ h.n) : i * 2 ^ h.bits < 2 ^ 31 := by
  have hnk := geo.n_eq
  rw [hn, NBITS] at hnk hlt
  have hpow : i * 2 ^ h.bits < 2 ^ 32 :=
    calc i * 2 ^ h.bits < 2 ^ h.k * 2 ^ h.bits :=
          Nat.mul_lt_mul_of_pos_right (geo.size ▸ hi) (Nat.two_pow_pos _)
      _ = 2 ^ 32 := by rw [← Nat.pow_add, ← hnk]
  by_contra hge
  exact absurd (milestone_ge (not_lt.mp hge) hpow) (not_le.mpr hlt)

/-- On a table that was never rehashed, a rehash that completes found rings that can be
split. -/
theorem divisible_of_hotringRehash {r : Mem × Hash} (t : Table m h ring) (hs : Sorted m h ring)
    (hf : FreshTags m h ring) (hn : h.n = NBITS) (hb : 1 ≤ h.bits)
    (hr : hotringRehash m h = .ok r) : Divisible m h ring h.size := by
  have hk := (hotringRehash_shape hr).2.2.2
  obtain ⟨m₁, h₁, new, lo, hi, hinit, M⟩ := hotringRehashInit_spec t hb hk
  have hbits : h₁.bits = h.bits := by rw [Hash.bits, M.shape.n, M.shape.k, Hash.bits]
  have g₁ := t.geometry.congr M.shape.n M.shape.k M.shape.size
  have hhalf : halfTag h₁ = halfTag h := by rw [halfTag, hbits, halfTag]
  obtain ⟨s₂, hcut⟩ : ∃ s₂, (List.range h.size).foldlM
      (rehashSplitStep h₁.bits (halfTag h₁)) (m₁, h₁) = .ok s₂ := by
    rw [hotringRehash, hinit, ok_bind] at hr
    simp only [g₁.ulSub_bits] at hr
    rw [g₁.halfTagOf_eq (hbits ▸ hb), ok_bind, M.shape.size] at hr
    obtain ⟨s₂, hcut, -⟩ := bind_eq_ok.mp hr
    exact ⟨s₂, hcut⟩
  have hall (N : Nat) (hN : N ≤ h.size) : Divisible m h ring N := by
    induction N with
    | zero => exact fun i hi ↦ absurd hi (Nat.not_lt_zero i)
    | succ N ih =>
      have hd := ih (Nat.le_of_succ_le hN)
      intro i hi' c xs hri
      rcases Nat.lt_succ_iff_lt_or_eq.mp hi' with hlt | rfl
      · exact hd i hlt c xs hri
      -- the rounds before this one completed, and so did this one
      obtain ⟨A, B, P⟩ := M.exists_parts t hb (Nat.le_of_succ_le hN) hd
      obtain ⟨⟨m₂, h₂⟩, hfold, C⟩ := (P.enclosed t hb (Nat.le_of_succ_le hN) hd M).cut
      obtain ⟨r₂, hround⟩ := foldlM_range_round hcut hN hfold
      have hbk := C.rest i le_rfl (M.shape.size.symm ▸ hN)
      have hne : ring i ≠ [] := by simp [hri]
      obtain ⟨zs, hzs⟩ : ∃ zs, markRing m₁.tag (halfTag h) (lo i) (hi i) (ring i) = c :: zs := by
        rw [hri, markRing, newRing, newRing]
        exact ⟨_, rfl⟩
      rw [hzs] at hbk
      obtain ⟨hlt, hhead⟩ := head_of_rehashSplitStep (C.heads.geometry g₁) hbk hround
      have hkey : m₂.key c = m.key c :=
        (C.data c).key.trans (M.kept c (t.lt_brk hN (hri ▸ List.mem_cons_self))).key
      have hidx (q : Nat) : h₂.index q = h.index q := by
        rw [Hash.index, C.heads.bits, hbits, Hash.index]
      have hlow : i * 2 ^ h.bits < 2 ^ 31 := by
        rw [C.heads.n, M.shape.n, hbits] at hlt
        exact base_lt_of_milestone_lt t.geometry hn hN hlt
      have hbase := baseKey_eq hlow
      have htop := topKey_eq t.geometry hb hlow
      rw [baseKey] at hbase
      rw [topKey] at htop
      rw [hidx, hidx, hkey, hbits, hhalf, hbase, htop] at hhead
      obtain ⟨h0, h1⟩ := hhead (index_base i) (index_top hb i)
      have hadd := key_eq_add_tag t hf hN (hri ▸ List.mem_cons_self)
      exact ⟨hlow, splittable_of_fresh t hs hf hb hN hri (by omega) (by omega)⟩
  exact hall h.size le_rfl

/-! ### The condition on the heads -/

/-- The head of every bucket in use holds a key that is non-negative as an `int` and no multiple
of half the keys of a bucket, the distance of the milestones. -/
def HeadsClear (m : Mem) (h : Hash) : Prop :=
  ∀ i < h.size, ∀ head, h.slots i = some head →
    m.key head.addr < 2 ^ 31 ∧ ¬ 2 ^ (h.bits - 1) ∣ m.key head.addr

/-- Half of the tags' range divides the milestones of a bucket and no other key in it. -/
theorem halfTag_dvd_key_iff {a : Nat} (t : Table m h ring) (hf : FreshTags m h ring)
    (hb : 1 ≤ h.bits) (hi : i < h.size) (ha : a ∈ ring i) :
    halfTag h ∣ m.key a ↔ m.tag a = 0 ∨ m.tag a = halfTag h := by
  have hhalf := two_mul_halfTag hb
  have hlt : m.tag a < 2 * halfTag h := by
    rw [hf i hi a ha, hhalf]
    exact tagOf_lt h _
  rw [key_eq_add_tag t hf hi ha, ← hhalf, show i * (2 * halfTag h) = halfTag h * (i * 2) by ring,
    Nat.dvd_add_right (Nat.dvd_mul_right _ _)]
  constructor
  · rintro ⟨w, hw⟩
    have hw2 : w < 2 := by
      by_contra hge
      have := Nat.mul_le_mul_left (halfTag h) (not_lt.mp hge)
      omega
    interval_cases w <;> omega
  · rintro (h0 | h1)
    · exact h0 ▸ dvd_zero _
    · exact h1 ▸ dvd_rfl

/-- A bucket's keys are non-negative as `int`s together with its base. -/
theorem base_lt_iff_key_lt {a : Nat} (t : Table m h ring) (hf : FreshTags m h ring)
    (hi : i < h.size) (ha : a ∈ ring i) : i * 2 ^ h.bits < 2 ^ 31 ↔ m.key a < 2 ^ 31 := by
  have hk := key_eq_add_tag t hf hi ha
  have hlt : m.tag a < 2 ^ h.bits := by
    rw [hf i hi a ha]
    exact tagOf_lt h _
  have hpow : (2 : Nat) ^ 31 = 2 ^ (31 - h.bits) * 2 ^ h.bits := by
    have hbits := t.geometry.bits_le
    rw [← Nat.pow_add]
    congr 1
    omega
  constructor
  · intro hlow
    rw [hpow] at hlow ⊢
    have hle := Nat.lt_of_mul_lt_mul_right hlow
    have := Nat.mul_le_mul_right (2 ^ h.bits) (Nat.succ_le_of_lt hle)
    rw [Nat.succ_mul] at this
    omega
  · omega

/-- A table that was never rehashed keeps its contents in a rehash exactly when the new one has
at most `2 ^ 30` slots and the heads are clear. -/
theorem rehashLaw_iff (t : Table m h ring) (hs : Sorted m h ring) (hf : FreshTags m h ring)
    (hn : h.n = NBITS) (hb : 2 ≤ h.bits) :
    RehashLaw m h ↔ h.k ≤ 29 ∧ HeadsClear m h := by
  have hb₁ : 1 ≤ h.bits := Nat.le_of_succ_le hb
  constructor
  · rintro ⟨m', new, hr, -⟩
    refine ⟨by have := (hotringRehash_shape hr).2.2.2; omega, ?_⟩
    have hd := divisible_of_hotringRehash t hs hf hn hb₁ hr
    intro i hi head hslot
    obtain ⟨xs, hx⟩ := t.chained.ring_eq_cons hi hslot
    obtain ⟨hlow, hsplit⟩ := hd i hi _ _ hx
    have hmem : head.addr ∈ ring i := hx ▸ List.mem_cons_self
    refine ⟨(base_lt_iff_key_lt t hf hi hmem).mp hlow, ?_⟩
    change ¬ halfTag h ∣ _
    rw [halfTag_dvd_key_iff t hf hb₁ hi hmem]
    have hne := hsplit.head_ne
    have hadd := key_eq_add_tag t hf hi hmem
    omega
  · rintro ⟨hk, hclear⟩
    refine Rehashable.law ⟨ring, t, hn, hk, ?_⟩
    intro i hi c xs hr
    have hmem : c ∈ ring i := hr ▸ List.mem_cons_self
    obtain ⟨head, hslot, rfl⟩ : ∃ head, h.slots i = some head ∧ head.addr = c := by
      have hhead := (t.bucket i hi).head
      rw [hr] at hhead
      exact Option.map_eq_some_iff.mp hhead
    obtain ⟨hlt, hnd⟩ := hclear i hi head hslot
    change ¬ halfTag h ∣ _ at hnd
    rw [halfTag_dvd_key_iff t hf hb₁ hi hmem, not_or] at hnd
    exact ⟨(base_lt_iff_key_lt t hf hi hmem).mpr hlt,
      splittable_of_fresh t hs hf hb₁ hi hr hnd.1 hnd.2⟩

/-- **Contents across a rehash.** In every program of insertions of different keys and of gets,
a rehash keeps the contents of a table whose rings can be split; and as long as the program has
not rehashed the table, it keeps them exactly when the table has at most `2 ^ 29` slots and its
heads are clear. -/
theorem rehash_law [LawfulDouble D] {k : Nat} {r : Int} (hs : start m r NBITS k = .ok s)
    (hb : 2 ≤ NBITS - k) (hb' : NBITS - k ≤ 30) (hc : ∀ c ∈ calls, c.InsertOrGet)
    (hd : (insertedKeys calls).Nodup) (hrun : run D s calls = .ok s') :
    (Rehashable s'.mem s'.hash → RehashLaw s'.mem s'.hash) ∧
      (s'.hash.k = k → (RehashLaw s'.mem s'.hash ↔ k ≤ 29 ∧ HeadsClear s'.mem s'.hash)) := by
  refine ⟨Rehashable.law, ?_⟩
  intro hk'
  have hspare : SparesHeads D s calls := by
    intro pre key s₁ hpre
    exact absurd (hc (.delete key) (hpre.subset (by simp))) id
  have hk : k ≤ NBITS := by omega
  obtain ⟨ring, hr, hf⟩ := run_unrehashed hs hk hb' hd hspare hrun hk'
  have hn : s'.hash.n = NBITS := by
    obtain ⟨hn₀, hk₀, -⟩ := refines_start hs hk hb'
    rcases run_shape hrun with hsh | hlt
    · exact hsh.n.trans hn₀
    · omega
  have hlaw := rehashLaw_iff hr.table hr.sorted hf hn (by rw [Hash.bits, hn, hk']; exact hb)
  rwa [hk'] at hlaw

private theorem exists_ok {α : Type} {x : Except Fault α} (h : x.toBool = true) :
    ∃ a, x = .ok a := by
  cases x with
  | error e => cases h
  | ok a => exact ⟨a, rfl⟩

/-- Six insertions into the first of four buckets, four requests for a key that is not stored, and
one that starts a rehash. -/
def sixRehashed : List Call :=
  [.insert 1 1, .insert 2 2, .insert 3 3, .insert 4 4, .insert 5 5, .insert 6 6,
    .get (2 ^ 31), .get (2 ^ 31), .get (2 ^ 31), .get (2 ^ 31), .get 2]

/-- A table of eight slots that holds the keys 1 to 6 in one ring, with their tags. -/
def HoldsSix (m : Mem) (h : Hash) : Prop :=
  h.n = NBITS ∧ h.k = 3 ∧ h.size = 8 ∧
    (∀ i < 8, (h.slots i).map Head.addr = if i = 0 then some 1 else none) ∧
    ∀ a ∈ [1, 2, 3, 4, 5, 6], m.next a = some (a % 6 + 1) ∧ m.key a = a ∧ m.tag a = a

instance : Decidable (HoldsSix m h) := inferInstanceAs (Decidable (_ ∧ _))

theorem HoldsSix.rehashable (hs : HoldsSix m h) : Rehashable m h := by
  obtain ⟨hn, hk, hsize, hslots, hnode⟩ := hs
  have hbits : h.bits = 29 := by rw [Hash.bits, hn, hk]; rfl
  have hhalf : halfTag h = 2 ^ 28 := by rw [halfTag, hbits]
  have hkey : ∀ a ∈ [1, 2, 3, 4, 5, 6], m.key a = a := fun a ha ↦ (hnode a ha).2.1
  have htag : ∀ a ∈ [1, 2, 3, 4, 5, 6], m.tag a = a := fun a ha ↦ (hnode a ha).2.2
  have hkeys : [1, 2, 3, 4, 5, 6].map m.key = [1, 2, 3, 4, 5, 6] :=
    (List.map_congr_left hkey).trans (List.map_id _)
  have hsorted : CyclicSorted id [1, 2, 3, 4, 5, 6] := ⟨[], _, rfl, by decide⟩
  have hring : IsRing m.next [1, 2, 3, 4, 5, 6] := by
    refine ⟨by decide, ?_⟩
    simp only [Links, List.forall_mem_cons] at hnode ⊢
    obtain ⟨h1, h2, h3, h4, h5, h6, -⟩ := hnode
    exact ⟨h1.1, h2.1, h3.1, h4.1, h5.1, h6.1⟩
  refine ⟨fun i ↦ if i = 0 then [1, 2, 3, 4, 5, 6] else [],
    ⟨⟨by omega, by rw [hk, hn]; decide, by omega, ?_⟩, fun i hi ↦ ⟨hi, ?_, ?_⟩,
      fun i hi a ha ↦ ?_, fun i hi ↦ ?_⟩, hn, by omega, fun i hi c xs hc ↦ ?_⟩
  · rw [hsize, hk]
    rfl
  · rw [hslots i (hsize ▸ hi)]
    split <;> rfl
  · split
    · exact hring
    · exact isRing_nil
  · split at ha
    · next h0 =>
      rw [h0, Hash.index, hbits, hkey a ha]
      have hlt : ∀ a ∈ [1, 2, 3, 4, 5, 6], a / 2 ^ 29 = 0 := by decide
      exact hlt a ha
    · cases ha
  · split
    · rw [hkeys]
      decide
    · exact List.nodup_nil
  · simp only at hc
    split at hc
    · next h0 =>
      obtain ⟨rfl, rfl⟩ := List.cons.inj hc
      rw [h0, hhalf, Nat.zero_mul]
      refine ⟨by decide, by decide, hsorted.congr hkey, hsorted.congr htag, ?_,
        fun _ _ ↦ Nat.zero_le _, fun a ha ↦ ?_, fun a ha ↦ ?_, ?_, fun z hz _ ↦ ?_⟩
      · rw [hkeys]
        decide
      · have hmod : ∀ a ∈ [1, 2, 3, 4, 5, 6], a % (2 * 2 ^ 28) = a - 0 := by decide
        rw [hkey a ha, htag a ha, hmod a ha]
      · rw [hkey a ha, htag a ha, Nat.zero_add]
      · rw [hkey 1 (by decide)]
        decide
      · have hpos : ∀ z ∈ [1, 2, 3, 4, 5, 6], 1 ≤ z := by decide
        rw [hkey 1 (by decide), hkey z hz]
        exact hpos z hz
    · cases hc

/-- `rehash_law` of six keys in one ring, before and after a rehash. -/
theorem rehash_law_six :
    (∃ s s', start .init 0 NBITS 2 = .ok s ∧ run ℚ s (sixRehashed.take 10) = .ok s' ∧
      (RehashLaw s'.mem s'.hash ↔ 2 ≤ 29 ∧ HeadsClear s'.mem s'.hash)) ∧
      ∃ s s', start .init 0 NBITS 2 = .ok s ∧ run ℚ s sixRehashed = .ok s' ∧ s'.hash.k = 3 ∧
        RehashLaw s'.mem s'.hash := by
  let s₀ : State := ⟨.init, ⟨NBITS, 2, 4, fun _ ↦ none⟩, 0⟩
  have hs : start .init 0 NBITS 2 = .ok s₀ := rfl
  have hc : ∀ c ∈ sixRehashed, c.InsertOrGet := by simp [sixRehashed, Call.InsertOrGet]
  have hbefore : (do
      let s ← run ℚ s₀ (sixRehashed.take 10)
      return s.hash.k) = .ok 2 := by decide +kernel
  have hafter : (do
      let s ← run ℚ s₀ sixRehashed
      return decide (HoldsSix s.mem s.hash)) = .ok true := by decide +kernel
  obtain ⟨s₁, hrun₁, hk₁⟩ := bind_eq_ok.mp hbefore
  obtain ⟨s₂, hrun₂, hs₂⟩ := bind_eq_ok.mp hafter
  have hsix : HoldsSix s₂.mem s₂.hash := of_decide_eq_true (Except.ok.inj hs₂)
  refine ⟨⟨s₀, s₁, hs, hrun₁, ?_⟩, s₀, s₂, hs, hrun₂, hsix.2.1, ?_⟩
  · exact (rehash_law hs (by decide) (by decide) (fun c hm ↦ hc c (List.mem_of_mem_take hm))
      (by decide) hrun₁).2 (Except.ok.inj hk₁)
  · exact (rehash_law hs (by decide) (by decide) hc (by decide) hrun₂).1 hsix.rehashable

/-- A table with key 0 at a head is not rehashed: the store behind the predecessor of the first
milestone goes through `NULL`. -/
theorem rehash_null_tail :
    ∃ s s', start .init 0 NBITS 2 = .ok s ∧ run ℚ s [.insert 0 1] = .ok s' ∧
      ¬ RehashLaw s'.mem s'.hash ∧ hotringRehash s'.mem s'.hash = .error .nullDeref := by
  let s₀ : State := ⟨.init, ⟨32, 2, 4, fun _ ↦ none⟩, 0⟩
  obtain ⟨s', hrun⟩ := exists_ok (show (run ℚ s₀ [.insert 0 1]).toBool = true by decide +kernel)
  have hview : (do
      let s ← run ℚ s₀ [.insert 0 1]
      let _ ← hotringRehash s.mem s.hash
      return ()) = (.error .nullDeref : Except Fault Unit) := by decide +kernel
  rw [hrun, ok_bind] at hview
  have herr : hotringRehash s'.mem s'.hash = .error .nullDeref := by
    cases hr : hotringRehash s'.mem s'.hash with
    | ok r =>
      rw [hr] at hview
      cases hview
    | error e =>
      rw [hr] at hview
      exact congrArg _ (Except.error.inj hview)
  refine ⟨s₀, s', rfl, hrun, ?_, herr⟩
  rintro ⟨m', new, hr, -⟩
  rw [herr] at hr
  cases hr

end Jeopardy.Hotring
