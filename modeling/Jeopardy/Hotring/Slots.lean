import Jeopardy.Hotring.Access
import Jeopardy.Hotring.Index

/-!
# Accesses to the slots

`hash_insert`, `__hash_get` and `hotring_delete` read the slot of the key and no other. A
`hash_get` may start a rehash, and that searches for the milestones of every bucket in use by key:
where the least key of a bucket is negative as an `int`, the key of its milestone is beyond `n`
bits, and the search reads outside the slot array whatever the key of the get was.
-/

namespace Jeopardy.Hotring

open Fault

variable {α σ D : Type} [DoubleArith D] {m m' : Mem} {h h' h₀ new : Hash} {s : State}
  {key n k i bits half : Nat}

/-- A counting loop stays in bounds exactly if every round it comes to does. -/
theorem foldlM_range_inBounds {f : σ → Nat → Except Fault σ} {b : σ} {n : Nat} :
    InBounds ((List.range n).foldlM f b) ↔
      ∀ i < n, ∀ b₁, (List.range i).foldlM f b = .ok b₁ → InBounds (f b₁ i) := by
  rw [InBounds, Ne, foldlM_range_eq_error]
  push Not
  rfl

/-! ### Slots in use -/

/-- The two tables use the same slots. -/
structure SameUse (h h' : Hash) : Prop where
  shape : SameShape h h'
  used : ∀ i, h'.slots i = none ↔ h.slots i = none

namespace SameUse

theorem refl (h : Hash) : SameUse h h := ⟨.refl h, fun _ ↦ Iff.rfl⟩

theorem trans {h'' : Hash} (u : SameUse h h') (u' : SameUse h' h'') : SameUse h h'' :=
  ⟨u.shape.trans u'.shape, fun i ↦ (u'.used i).trans (u.used i)⟩

/-- Storing a head over a head. -/
theorem setSlot {head head' : Head} (hs : h.slots i = some head) :
    SameUse h (h.setSlot i (some head')) := by
  refine ⟨.setSlot h i _, fun j ↦ ?_⟩
  by_cases hj : j = i
  · simp [Hash.setSlot, hj, hs]
  · simp [Hash.setSlot, hj]

end SameUse

theorem rawHashGet_use {g : GetResult} (hr : rawHashGet m h key = .ok (m', h', g)) :
    SameUse h h' := by
  obtain ⟨⟨i, t⟩, -, hr⟩ := bind_eq_ok.mp hr
  obtain ⟨slot, hslot, hr⟩ := bind_eq_ok.mp hr
  have hs := (slot_eq_ok hslot).2
  cases slot with
  | none =>
    simp only [pure, Except.pure, Except.ok.injEq, Prod.mk.injEq] at hr
    exact hr.2.1 ▸ .refl h
  | some head =>
    obtain ⟨nd, -, hr⟩ := bind_eq_ok.mp hr
    split at hr
    · obtain ⟨m₁, -, hr⟩ := bind_eq_ok.mp hr
      simp only [pure, Except.pure, Except.ok.injEq, Prod.mk.injEq] at hr
      exact hr.2.1 ▸ .setSlot hs
    · obtain ⟨r, -, hr⟩ := bind_eq_ok.mp hr
      simp only [pure, Except.pure, Except.ok.injEq, Prod.mk.injEq] at hr
      exact hr.2.1 ▸ .setSlot hs

/-- A node created in a slot in use is linked behind its head. -/
theorem rawHashCreate_used {t a : Nat} (hs : h.slots i ≠ none)
    (hr : rawHashCreate m h i t = .ok (m', h', a)) : h' = h := by
  obtain ⟨slot, hslot, hr⟩ := bind_eq_ok.mp hr
  cases slot with
  | none => exact absurd (slot_eq_ok hslot).2 hs
  | some head =>
    obtain ⟨m₁, -, hr⟩ := bind_eq_ok.mp hr
    obtain ⟨m₂, -, hr⟩ := bind_eq_ok.mp hr
    simp only [pure, Except.pure, Except.ok.injEq, Prod.mk.injEq] at hr
    exact hr.2.1.symm

theorem rehashInitStep_use {s s' : Mem × Hash × Hash} (hr : rehashInitStep bits half s i = .ok s') :
    SameUse s.2.1 s'.2.1 := by
  obtain ⟨m, h, new⟩ := s
  obtain ⟨slot, hslot, hr⟩ := bind_eq_ok.mp hr
  have hs := (slot_eq_ok hslot).2
  cases slot with
  | none =>
    simp only [pure, Except.pure, Except.ok.injEq] at hr
    exact hr ▸ .refl h
  | some head =>
    have hne : h.slots i ≠ none := by simp [hs]
    obtain ⟨⟨m₁, h₁, a₁⟩, hc₁, hr⟩ := bind_eq_ok.mp hr
    obtain ⟨⟨m₂, e₂⟩, -, hr⟩ := bind_eq_ok.mp hr
    obtain ⟨new₁, -, hr⟩ := bind_eq_ok.mp hr
    obtain ⟨⟨m₃, h₂, a₂⟩, hc₂, hr⟩ := bind_eq_ok.mp hr
    obtain ⟨⟨m₄, e₄⟩, -, hr⟩ := bind_eq_ok.mp hr
    obtain ⟨new₂, -, hr⟩ := bind_eq_ok.mp hr
    simp only [pure, Except.pure, Except.ok.injEq] at hr
    have he₁ : h₁ = h := rawHashCreate_used hne hc₁
    have he₂ : h₂ = h₁ := rawHashCreate_used (he₁ ▸ hne) hc₂
    rw [← hr, he₂, he₁]
    exact .refl h

theorem rehashSplitStep_use {s s' : Mem × Hash} (hr : rehashSplitStep bits half s i = .ok s') :
    SameUse s.2 s'.2 := by
  obtain ⟨m, h⟩ := s
  obtain ⟨slot, -, hr⟩ := bind_eq_ok.mp hr
  cases slot with
  | none =>
    simp only [pure, Except.pure, Except.ok.injEq] at hr
    exact hr ▸ .refl h
  | some head =>
    obtain ⟨⟨m₁, h₁, r1⟩, hg₁, hr⟩ := bind_eq_ok.mp hr
    obtain ⟨⟨m₂, h₂, r2⟩, hg₂, hr⟩ := bind_eq_ok.mp hr
    simp only at hr
    split at hr
    · obtain ⟨m₃, -, hr⟩ := bind_eq_ok.mp hr
      obtain ⟨m₄, -, hr⟩ := bind_eq_ok.mp hr
      simp only [pure, Except.pure, Except.ok.injEq] at hr
      exact hr ▸ (rawHashGet_use hg₁).trans (rawHashGet_use hg₂)
    · simp at hr

/-! ### The milestones of a rehash -/

/-- `i << hash_tag_bits` on `int` is not negative. -/
def NonNegBase (h : Hash) (i : Nat) : Prop := i * 2 ^ h.bits % 2 ^ 32 < 2 ^ 31

private theorem toNat_base (i bits : Nat) :
    (BitVec.ofNat 32 i <<< bits).toNat = i * 2 ^ bits % 2 ^ 32 := by
  rw [BitVec.toNat_shiftLeft, BitVec.toNat_ofNat, Nat.shiftLeft_eq, Nat.mod_mul_mod]

theorem milestone_le (hbase : NonNegBase h i) : milestone i h.bits ≤ i * 2 ^ h.bits := by
  have hnat := toNat_base i h.bits
  have hmsb : (BitVec.ofNat 32 i <<< h.bits).msb = false := by
    rw [BitVec.msb_eq_false_iff_two_mul_lt, hnat]
    rw [NonNegBase] at hbase
    omega
  rw [milestone, BitVec.signExtend_eq_setWidth_of_msb_false hmsb, BitVec.toNat_setWidth, hnat]
  exact (Nat.mod_le _ _).trans (Nat.mod_le _ _)

/-- The keys of a bucket have `n` bits. -/
theorem base_add_le (g : Geometry h) (hi : i < h.size) :
    i * 2 ^ h.bits + 2 ^ h.bits ≤ 2 ^ h.n := by
  rw [← Nat.succ_mul, g.n_eq, Nat.pow_add]
  exact Nat.mul_le_mul_right _ (g.size ▸ hi)

/-- The milestone of a bucket is a key of the table exactly if the base of the bucket is not
negative. -/
theorem milestone_lt_iff (g : Geometry h) (hi : i < h.size) :
    milestone i h.bits < 2 ^ h.n ↔ NonNegBase h i := by
  have hpos : 0 < 2 ^ h.bits := Nat.two_pow_pos _
  have hfull := base_add_le g hi
  constructor
  · intro hlt
    by_contra hneg
    have hnat := toNat_base i h.bits
    have hpow : 2 ^ h.n ≤ 2 ^ 60 := Nat.pow_le_pow_right (by decide) g.n_le
    have hmsb : (BitVec.ofNat 32 i <<< h.bits).msb = true := by
      rw [BitVec.msb_eq_true_iff_two_mul_ge, hnat]
      rw [NonNegBase] at hneg
      omega
    rw [milestone, BitVec.toNat_signExtend, if_pos hmsb] at hlt
    omega
  · intro hbase
    have := milestone_le hbase
    omega

/-- The second milestone is a key of the table with the first. -/
theorem milestoneHalf_lt (g : Geometry h) (hb : 1 ≤ h.bits) (hi : i < h.size)
    (hbase : NonNegBase h i) : milestoneHalf i h.bits (halfTag h) < 2 ^ h.n := by
  have hhalf := two_mul_halfTag hb
  have hpos : 0 < halfTag h := Nat.two_pow_pos _
  have hfull := base_add_le g hi
  have hmile := milestone_le hbase
  rw [milestoneHalf]
  exact (Nat.mod_le _ _).trans_lt (by omega)

/-- With at most 31 bits no base is negative. -/
theorem nonNegBase_of_le (g : Geometry h) (hn : h.n ≤ 31) (hi : i < h.size) : NonNegBase h i := by
  have hpos : 0 < 2 ^ h.bits := Nat.two_pow_pos _
  have hfull := base_add_le g hi
  have hpow : 2 ^ h.n ≤ 2 ^ 31 := Nat.pow_le_pow_right (by decide) hn
  rw [NonNegBase, Nat.mod_eq_of_lt (by omega)]
  omega

/-! ### The loops of a rehash -/

theorem store_inBounds {v : Option Head} (hi : i < h.size) : InBounds (h.store i v) := by
  rw [Hash.store, if_pos hi]
  exact inBounds_ok _

theorem storeNext_inBounds (m : Mem) (p q : Nat) : InBounds (storeNext m p q) :=
  modify_inBounds _ _ _

theorem rehashInitStep_inBounds {s : Mem × Hash × Hash} (hi : i < s.2.1.size)
    (hnew : s.2.2.size = s.2.1.size * 2) : InBounds (rehashInitStep bits half s i) := by
  obtain ⟨m, h, new⟩ := s
  simp only at hi hnew
  refine (slot_inBounds hi).bind (fun slot _ ↦ ?_)
  cases slot with
  | none => exact inBounds_ok _
  | some head =>
    refine (rawHashCreate_inBounds hi m half).bind (fun r₁ hr₁ ↦ ?_)
    obtain ⟨m₁, h₁, a₁⟩ := r₁
    have hi₁ : i < h₁.size := (rawHashCreate_shape hr₁).size ▸ hi
    refine (insertEntries_inBounds _ _ _ _ _).bind (fun e₁ _ ↦ ?_)
    refine (store_inBounds (by omega)).bind (fun new₁ hnew₁ ↦ ?_)
    have hsz : new₁.size = new.size := (store_shape hnew₁).size
    refine (rawHashCreate_inBounds hi₁ _ 0).bind (fun r₂ _ ↦ ?_)
    refine (insertEntries_inBounds _ _ _ _ _).bind (fun e₂ _ ↦ ?_)
    exact (store_inBounds (by omega)).bind (fun _ _ ↦ inBounds_ok _)

theorem hotringRehashInit_inBounds (hsize : h.size = 2 ^ h.k) (m : Mem) :
    InBounds (hotringRehashInit m h) := by
  have hul (a : Nat) : InBounds (ulShl a) := by
    unfold ulShl
    split
    · exact inBounds_ok _
    · exact fun he ↦ by simp at he
  have hint (a : Nat) : InBounds (intShl a) := by
    unfold intShl
    split
    · exact inBounds_ok _
    · exact fun he ↦ by simp at he
  have hhalf (a : Nat) : InBounds (halfTagOf a) := by
    unfold halfTagOf
    split
    · exact fun he ↦ by simp at he
    · exact hul _
  refine (hul _).bind (fun _ _ ↦ (hhalf _).bind (fun half _ ↦ ?_))
  refine ((hint _).bind (fun _ _ ↦ inBounds_ok _)).bind (fun new hnew ↦ ?_)
  obtain ⟨size, hsz, hnew⟩ := bind_eq_ok.mp hnew
  obtain ⟨-, rfl⟩ := intShl_eq_ok.mp hsz
  obtain rfl := Except.ok.inj hnew
  rw [foldlM_range_inBounds]
  intro i hi s hs
  have hsh := foldlM_invariant
    (P := fun s : Mem × Hash × Hash ↦ SameShape h s.2.1 ∧
      SameShape ⟨NBITS, h.k + 1, 2 ^ (h.k + 1), fun _ ↦ Option.none⟩ s.2.2)
    (fun s i s' hs hstep ↦ ⟨hs.1.trans (rehashInitStep_shape hstep).1,
      hs.2.trans (rehashInitStep_shape hstep).2⟩) ⟨.refl h, .refl _⟩ hs
  apply rehashInitStep_inBounds
  · rw [hsh.1.size]
    exact hi
  · rw [hsh.1.size, hsh.2.size, hsize, Nat.pow_succ]

/-- A round of the split loop leaves the slots exactly at a bucket in use with a negative base. -/
theorem rehashSplitStep_inBounds (g : Geometry h) (hb : 1 ≤ h.bits) (hi : i < h.size) (m : Mem) :
    InBounds (rehashSplitStep h.bits (halfTag h) (m, h) i) ↔
      (h.slots i ≠ none → NonNegBase h i) := by
  have hslot : h.slot i = .ok (h.slots i) := by rw [Hash.slot, if_pos hi]
  rw [rehashSplitStep]
  simp only [hslot, ok_bind]
  cases hs : h.slots i with
  | none => exact ⟨fun _ hne ↦ absurd rfl hne, fun _ ↦ inBounds_ok _⟩
  | some head =>
    simp only [ne_eq, reduceCtorEq, not_false_eq_true, forall_const]
    constructor
    · intro hin
      by_contra hneg
      rw [← milestone_lt_iff g hi, not_lt] at hneg
      have hge : h.size ≤ h.index (milestone i h.bits) := by
        by_contra hlt
        exact absurd (g.lt_of_index_lt (not_le.mp hlt)) (not_lt.mpr hneg)
      rw [(outOfBounds_of_index (g.hashCode_eq _) hge m 0).2.1] at hin
      exact hin rfl
    · intro hbase
      have hlow := g.index_lt ((milestone_lt_iff g hi).mpr hbase)
      have htop := g.index_lt (milestoneHalf_lt g hb hi hbase)
      refine (rawHashGet_inBounds (g.hashCode_eq _) hlow m).bind (fun r₁ hr₁ ↦ ?_)
      obtain ⟨m₁, h₁, g₁⟩ := r₁
      have hsh := rawHashGet_shape hr₁
      refine (rawHashGet_inBounds ((hsh.hashCode _).trans (g.hashCode_eq _)) (hsh.size ▸ htop)
        m₁).bind (fun r₂ _ ↦ ?_)
      simp only
      split
      · exact (storeNext_inBounds _ _ _).bind (fun _ _ ↦ (storeNext_inBounds _ _ _).bind
          (fun _ _ ↦ inBounds_ok _))
      · exact fun he ↦ by simp at he

theorem hotringDeleteHead_inBounds (hi : i < h.size) (m : Mem) :
    InBounds (hotringDeleteHead m h i) := by
  have hfree (m : Mem) (p : Nat) : InBounds (hotringNodeFree m p) :=
    (read_inBounds _ _).bind (fun _ _ ↦ inBounds_ok _)
  refine (slot_inBounds hi).bind (fun slot _ ↦ ?_)
  cases slot with
  | none => exact fun he ↦ by simp at he
  | some head =>
    refine (read_inBounds m head.addr).bind (fun nd _ ↦ ?_)
    split
    · refine (hfree _ _).bind (fun _ _ ↦ ?_)
      exact ((slot_inBounds hi).bind (fun _ _ ↦ inBounds_ok _)).bind (fun _ _ ↦ inBounds_ok _)
    · refine (store_inBounds hi).bind (fun h₁ _ ↦ ?_)
      refine (listForEach_inBounds (fun _ _ _ ↦ inBounds_ok _) _ _ _).bind (fun r _ ↦ ?_)
      obtain ⟨m₁, prev⟩ := r
      cases prev with
      | none => exact fun he ↦ by simp at he
      | some prev =>
        exact (listDel_inBounds _ _ _).bind (fun _ _ ↦ (hfree _ _).bind (fun _ _ ↦ inBounds_ok _))

theorem rehashDeleteStep_inBounds {s : Mem × Hash} (hi : i < s.2.size) :
    InBounds (rehashDeleteStep s i) := by
  refine (slot_inBounds hi).bind (fun slot _ ↦ ?_)
  cases slot with
  | none => exact inBounds_ok _
  | some head => exact (hotringDeleteHead_inBounds hi _).bind (fun _ _ ↦ inBounds_ok _)

theorem display_inBounds (m : Mem) (h : Hash) : InBounds (display m h) := by
  rw [display, foldlM_range_inBounds]
  intro i hi m₁ _
  refine (slot_inBounds hi).bind (fun slot _ ↦ ?_)
  cases slot with
  | none => exact inBounds_ok _
  | some head =>
    exact (listForEach_inBounds (fun _ _ _ ↦ inBounds_ok _) _ _ _).bind (fun _ _ ↦ inBounds_ok _)

/-- The split loop of `hotring_rehash` comes to bucket `i`, which is in use. -/
def SplitReaches (m : Mem) (h : Hash) (i : Nat) : Prop :=
  i < h.size ∧ h.slots i ≠ none ∧ ∃ m₁ h₁ new s, hotringRehashInit m h = .ok (m₁, h₁, new) ∧
    (List.range i).foldlM (rehashSplitStep h.bits (halfTag h)) (m₁, h₁) = .ok s

theorem hotringRehashInit_use {h₁ : Hash} (hr : hotringRehashInit m h = .ok (m', h₁, new)) :
    SameUse h h₁ := by
  obtain ⟨-, -, hr⟩ := bind_eq_ok.mp hr
  obtain ⟨half, -, hr⟩ := bind_eq_ok.mp hr
  obtain ⟨new₀, -, hr⟩ := bind_eq_ok.mp hr
  exact foldlM_invariant (P := fun s : Mem × Hash × Hash ↦ SameUse h s.2.1)
    (fun s i s' hs hstep ↦ hs.trans (rehashInitStep_use hstep)) (.refl h) hr

/-- **Rehash within the slots.** A rehash leaves the slots exactly when its split loop comes to a
bucket in use with a negative base. -/
theorem hotringRehash_inBounds (g : Geometry h) (m : Mem) :
    InBounds (hotringRehash m h) ↔ ∀ i, SplitReaches m h i → NonNegBase h i := by
  cases hinit : hotringRehashInit m h with
  | error e =>
    have hin := hotringRehashInit_inBounds g.size m
    rw [hinit] at hin
    rw [hotringRehash, hinit, error_bind]
    refine iff_of_true (fun he ↦ hin (congrArg _ (Except.error.inj he))) ?_
    rintro i ⟨-, -, m₁, h₁, new, s, hinit', -⟩
    rw [hinit] at hinit'
    cases hinit'
  | ok r =>
    obtain ⟨m₁, h₁, new⟩ := r
    have hb := bits_pos_of_hotringRehashInit g hinit
    have huse := hotringRehashInit_use hinit
    obtain ⟨-, -, -, hnew, hk⟩ := hotringRehashInit_shape hinit
    have hsplit : InBounds ((List.range h₁.size).foldlM
        (rehashSplitStep h.bits (halfTag h)) (m₁, h₁)) ↔
        ∀ i, SplitReaches m h i → NonNegBase h i := by
      rw [foldlM_range_inBounds, huse.shape.size]
      have hround {i : Nat} (hi : i < h.size) {s : Mem × Hash} (hs : (List.range i).foldlM
          (rehashSplitStep h.bits (halfTag h)) (m₁, h₁) = .ok s) :
          InBounds (rehashSplitStep h.bits (halfTag h) s i) ↔
            (h.slots i ≠ none → NonNegBase h i) := by
        have hu := huse.trans (foldlM_invariant (P := fun s : Mem × Hash ↦ SameUse h₁ s.2)
          (fun s i s' hs hstep ↦ hs.trans (rehashSplitStep_use hstep)) (.refl h₁) hs)
        have g₂ := g.congr hu.shape.n hu.shape.k hu.shape.size
        have hbits : s.2.bits = h.bits := by rw [Hash.bits, hu.shape.n, hu.shape.k, Hash.bits]
        have hit := rehashSplitStep_inBounds g₂ (hbits ▸ hb) (hu.shape.size ▸ hi) s.1
        rw [halfTag, hbits, ne_eq, hu.used, NonNegBase, hbits] at hit
        exact hit
      constructor
      · rintro hall i ⟨hi, hused, m₂, h₂, new₂, s, hinit', hs⟩
        rw [hinit, Except.ok.injEq, Prod.mk.injEq, Prod.mk.injEq] at hinit'
        obtain ⟨rfl, rfl, rfl⟩ := hinit'
        exact (hround hi hs).mp (hall i hi s hs) hused
      · intro hall i hi s hs
        exact (hround hi hs).mpr (fun hused ↦ hall i ⟨hi, hused, m₁, h₁, new, s, hinit, hs⟩)
    rw [← hsplit, hotringRehash, hinit, ok_bind]
    simp only [huse.shape.n, huse.shape.k, g.ulSub_bits, g.halfTagOf_eq hb, ok_bind]
    constructor
    · intro hin he
      rw [he] at hin
      exact hin rfl
    · intro hin
      refine hin.bind (fun s _ ↦ ?_)
      refine InBounds.bind ?_ (fun r _ ↦ (display_inBounds _ _).bind (fun _ _ ↦ inBounds_ok _))
      rw [foldlM_range_inBounds]
      intro i hi s hs
      have hsh := foldlM_invariant (P := fun s : Mem × Hash ↦ SameShape new s.2)
        (fun s i s' hs hstep ↦ hs.trans (rehashDeleteStep_shape hstep)) (.refl new) hs
      exact rehashDeleteStep_inBounds (hsh.size ▸ hi)

/-! ### The rehash of a get -/

/-- `hash_get` of `key` calls `hotring_rehash` on the memory `m` and the table `h`,
`hotring/hotring.c:206–224,635–650`. -/
def Rehashes (D : Type) [DoubleArith D] (s : State) (key : Nat) (m : Mem) (h : Hash) : Prop :=
  ∃ m₁ h₁ r index tag, rawHashGet s.mem s.hash key = .ok (m₁, h₁, r) ∧ r.ret = .accessCold ∧
    5 ≤ bumpRequest s.nr_request ∧ hashCode h₁ key = .ok (index, tag) ∧
    hotspotShiftHead D m₁ h₁ index = .ok (m, h, .rehash)

theorem Rehashes.shape (hr : Rehashes D s key m h) : SameShape s.hash h := by
  obtain ⟨m₁, h₁, r, index, tag, hg, -, -, -, hhead⟩ := hr
  have hget : SameShape s.hash h₁ := rawHashGet_shape hg
  have hshift : SameShape h₁ h := hotspotShiftHead_shape hhead
  exact hget.trans hshift

/-- A fault of the rehash is a fault of `hash_get`. -/
theorem Rehashes.hashGet_error {e : Fault} (hr : Rehashes D s key m h)
    (he : hotringRehash m h = .error e) : hashGet D s key = .error e := by
  obtain ⟨m₁, h₁, r, index, tag, hg, hret, hreq, hcode, hhead⟩ := hr
  rw [hashGet, hg]
  simp only [ok_bind, hcode, hret, if_pos hreq]
  rw [hotspotShift, hhead, ok_bind]
  simp only
  rw [he, error_bind]

/-- The shift before a rehash has completed. -/
theorem Rehashes.shift_ok {head : Head} (hr : Rehashes D s key m h) (hs : Shifts s key m' head) :
    ∃ r, doHotspotShift D m' head = .ok r := by
  obtain ⟨m₁, h₁, r, index, tag, hg, -, -, hcode, hhead⟩ := hr
  obtain ⟨h₂, r₂, index₂, tag₂, hg₂, -, -, hcode₂, hslot⟩ := hs
  rw [hg, Except.ok.injEq, Prod.mk.injEq, Prod.mk.injEq] at hg₂
  obtain ⟨rfl, rfl, -⟩ := hg₂
  rw [hcode, Except.ok.injEq, Prod.mk.injEq] at hcode₂
  obtain ⟨rfl, -⟩ := hcode₂
  rw [hotspotShiftHead, hslot, ok_bind] at hhead
  obtain ⟨r, hr, -⟩ := bind_eq_ok.mp hhead
  exact ⟨r, hr⟩

/-- A get of a key of `n` bits leaves an array only in the shift or in the rehash. -/
theorem hashGet_outOfBounds (g : Geometry s.hash) (hq : key < 2 ^ s.hash.n)
    (he : hashGet D s key = .error .outOfBounds) :
    (∃ m head, Shifts s key m head ∧ doHotspotShift D m head = .error .outOfBounds) ∨
      ∃ m h, Rehashes D s key m h ∧ hotringRehash m h = .error .outOfBounds := by
  have hcode := g.hashCode_eq key
  have hin := rawHashGet_inBounds hcode (g.index_lt hq) s.mem
  cases hg : rawHashGet s.mem s.hash key with
  | error e =>
    rw [hashGet, hg, error_bind] at he
    rw [hg] at hin
    exact absurd (congrArg _ (Except.error.inj he)) hin
  | ok r =>
    obtain ⟨m₁, h₁, r⟩ := r
    have hsh := rawHashGet_shape hg
    have hcode₁ := (hsh.hashCode key).trans hcode
    have hi : s.hash.index key < h₁.size := hsh.size ▸ g.index_lt hq
    rw [hashGet, hg] at he
    simp only [ok_bind, hcode₁] at he
    cases hret : r.ret with
    | success => simp [hret, pure, Except.pure] at he
    | accessHot => simp [hret, pure, Except.pure] at he
    | notFound => simp [hret, pure, Except.pure] at he
    | accessCold =>
      by_cases hreq : 5 ≤ bumpRequest s.nr_request
      · simp only [hret, if_pos hreq] at he
        cases hhead : hotspotShiftHead D m₁ h₁ (s.hash.index key) with
        | error e =>
          rw [hotspotShift, hhead, error_bind, error_bind] at he
          obtain rfl := Except.error.inj he
          rw [hotspotShiftHead, Hash.slot, if_pos hi, ok_bind] at hhead
          cases hslot : h₁.slots (s.hash.index key) with
          | none => simp [hslot] at hhead
          | some head =>
            refine Or.inl ⟨m₁, head, ⟨h₁, r, _, _, hg, hret, hreq, hcode₁, ?_⟩, ?_⟩
            · rw [Hash.slot, if_pos hi, hslot]
            · cases hd : doHotspotShift D m₁ head with
              | error e => simpa [hslot, hd] using hhead
              | ok out => simp [hslot, hd, pure, Except.pure] at hhead
        | ok out =>
          obtain ⟨m₂, h₂, ret⟩ := out
          rw [hotspotShift, hhead, ok_bind] at he
          cases ret with
          | success => cases he
          | rehash =>
            refine Or.inr ⟨m₂, h₂, ⟨m₁, h₁, r, _, _, hg, hret, hreq, hcode₁, hhead⟩, ?_⟩
            simp only at he
            cases hre : hotringRehash m₂ h₂ with
            | error e =>
              rw [hre, error_bind] at he
              exact congrArg _ (Except.error.inj he)
            | ok out =>
              rw [hre, ok_bind] at he
              cases he
      · simp [hret, if_neg hreq, pure, Except.pure] at he

/-! ### The law of the slots -/

/-- `hashCode` splits the `n`-bit hash value of the key into the index of a slot and a tag, and no
operation on the key leaves the slot array. The only array that `hash_get` may leave is that of
the counters of `do_hotspot_shift`. -/
def SlotLaw (D : Type) [DoubleArith D] (s : State) (key : Nat) : Prop :=
  (∃ index tag, hashCode s.hash key = .ok (index, tag) ∧ index < s.hash.size ∧
    tag < 2 ^ s.hash.bits ∧ index * 2 ^ s.hash.bits + tag = key % 2 ^ s.hash.n) ∧
  (∀ value, InBounds (hashInsert s.mem s.hash key value)) ∧
  InBounds (hotringDelete s.mem s.hash key) ∧ InBounds (rawHashGet s.mem s.hash key) ∧
  (hashGet D s key = .error .outOfBounds → ∃ m head, Shifts s key m head ∧
    doHotspotShift D m head = .error .outOfBounds)

/-- No rehash that a get of the key starts comes to a bucket in use with a negative base. -/
def RehashesNonNeg (D : Type) [DoubleArith D] (s : State) (key : Nat) : Prop :=
  ∀ m h i, Rehashes D s key m h → SplitReaches m h i → NonNegBase h i

/-- **Slot indices.** In every table of the shape `hash_alloc(n, k)` gives, whatever its slots and
the nodes hold, a key is split and the operations on it stay within the slot array exactly if the
key has `n` bits and a rehash that `hash_get` starts comes to no bucket in use whose least key is
negative as an `int`. With at most 31 bits there is no such bucket. With a key of more bits every
operation reads outside the array. -/
theorem slotLaw_iff (ha : hashAlloc n k = .ok h₀) (hs : SameShape h₀ s.hash) (h1 : k < n)
    (h30 : n - k ≤ 30) (key : Nat) :
    (SlotLaw D s key ↔ key < 2 ^ n ∧ RehashesNonNeg D s key) ∧
      (n ≤ 31 → RehashesNonNeg D s key) ∧
      (2 ^ n ≤ key → hashGet D s key = .error .outOfBounds ∧ ∀ value,
        hashInsert s.mem s.hash key value = .error .outOfBounds ∧
          rawHashGet s.mem s.hash key = .error .outOfBounds ∧
          hotringDelete s.mem s.hash key = .error .outOfBounds) := by
  obtain ⟨g, rfl, rfl⟩ := geometry_of_hashAlloc ha hs h1 h30
  have hcode := g.hashCode_eq key
  refine ⟨⟨?_, ?_⟩, ?_, ?_⟩
  · rintro ⟨⟨index, tag, hc, hi, -⟩, -, -, -, hget⟩
    rw [hcode, Except.ok.injEq, Prod.mk.injEq] at hc
    refine ⟨g.lt_of_index_lt (by rw [hc.1]; exact hi), ?_⟩
    intro m h
    by_contra hneg
    push Not at hneg
    obtain ⟨i, hre, hreach, hbase⟩ := hneg
    have gh := g.congr hre.shape.n hre.shape.k hre.shape.size
    have herr : hotringRehash m h = .error .outOfBounds := by
      by_contra hin
      exact hbase ((hotringRehash_inBounds gh m).mp hin i hreach)
    obtain ⟨m₁, head, hsh, hover⟩ := hget (hre.hashGet_error herr)
    obtain ⟨r, hr⟩ := hre.shift_ok hsh
    rw [hover] at hr
    cases hr
  · rintro ⟨hq, hbase⟩
    have hi := g.index_lt hq
    refine ⟨⟨_, _, hcode, hi, tagOf_lt s.hash key, index_mul_add_tagOf hq⟩,
      fun value ↦ hashInsert_inBounds hcode hi s.mem value, hotringDelete_inBounds hcode hi s.mem,
      rawHashGet_inBounds hcode hi s.mem, fun he ↦ ?_⟩
    rcases hashGet_outOfBounds g hq he with hover | ⟨m, h, hre, herr⟩
    · exact hover
    · have gh := g.congr hre.shape.n hre.shape.k hre.shape.size
      exact absurd herr ((hotringRehash_inBounds gh m).mpr (fun i hr ↦ hbase m h i hre hr))
  · intro hn m h i hre hreach
    have gh := g.congr hre.shape.n hre.shape.k hre.shape.size
    exact nonNegBase_of_le gh (hre.shape.n ▸ hn) hreach.1
  · intro hq
    have hi : s.hash.size ≤ s.hash.index key := by
      by_contra hlt
      exact absurd (g.lt_of_index_lt (not_le.mp hlt)) (not_lt.mpr hq)
    refine ⟨?_, fun value ↦ outOfBounds_of_index hcode hi s.mem value⟩
    rw [hashGet, (outOfBounds_of_index hcode hi s.mem 0).2.1, error_bind]

/-- Six keys of the third of four buckets and four requests for a key that is not stored. -/
def beforeRehash : List Call :=
  [.insert (2 ^ 31 + 1) 1, .insert (2 ^ 31 + 2) 2, .insert (2 ^ 31 + 3) 3, .insert (2 ^ 31 + 4) 4,
    .insert (2 ^ 31 + 5) 5, .insert (2 ^ 31 + 6) 6, .get 0, .get 0, .get 0, .get 0]

private theorem run_beforeRehash :
    ∃ s, run ℚ ⟨.init, ⟨NBITS, 2, 4, fun _ ↦ none⟩, 0⟩ beforeRehash = .ok s ∧
      SameShape ⟨NBITS, 2, 4, fun _ ↦ none⟩ s.hash ∧
      (∃ m h, Rehashes ℚ s (2 ^ 31 + 2) m h) ∧
      hashGet ℚ s (2 ^ 31 + 2) = .error .outOfBounds := by
  have hview : (do
      let s ← run ℚ ⟨.init, ⟨NBITS, 2, 4, fun _ ↦ none⟩, 0⟩ beforeRehash
      let g ← rawHashGet s.mem s.hash (2 ^ 31 + 2)
      let c ← hashCode g.2.1 (2 ^ 31 + 2)
      let t ← hotspotShiftHead ℚ g.1 g.2.1 c.1
      return (s.hash.n, s.hash.k, s.hash.size, g.2.2.ret, bumpRequest s.nr_request, t.2.2))
      = .ok (NBITS, 2, 4, .accessCold, 5, .rehash) := by decide +kernel
  have hover : (do
      let s ← run ℚ ⟨.init, ⟨NBITS, 2, 4, fun _ ↦ none⟩, 0⟩ beforeRehash
      let _ ← hashGet ℚ s (2 ^ 31 + 2)
      return ()) = .error .outOfBounds := by decide +kernel
  obtain ⟨s, hrun, hview⟩ := bind_eq_ok.mp hview
  obtain ⟨⟨m₁, h₁, r⟩, hg, hview⟩ := bind_eq_ok.mp hview
  obtain ⟨⟨index, tag⟩, hcode, hview⟩ := bind_eq_ok.mp hview
  obtain ⟨⟨m, h, ret⟩, hhead, hview⟩ := bind_eq_ok.mp hview
  simp only [pure, Except.pure, Except.ok.injEq, Prod.mk.injEq] at hview
  obtain ⟨hn, hk, hsize, hret, hreq, rfl⟩ := hview
  refine ⟨s, hrun, ⟨hn, hk, hsize⟩, ⟨m, h, m₁, h₁, r, index, tag, hg, hret, hreq.ge, hcode, hhead⟩,
    ?_⟩
  rw [hrun, ok_bind] at hover
  cases hget : hashGet ℚ s (2 ^ 31 + 2) with
  | error e =>
    rw [hget, error_bind] at hover
    exact congrArg _ (Except.error.inj hover)
  | ok r =>
    rw [hget] at hover
    cases hover

/-- `slotLaw_iff` of the table with these six keys. -/
theorem slotLaw_iff_six :
    ∃ s, run ℚ ⟨.init, ⟨NBITS, 2, 4, fun _ ↦ none⟩, 0⟩ beforeRehash = .ok s ∧
      (SlotLaw ℚ s 0 ↔ 0 < 2 ^ NBITS ∧ RehashesNonNeg ℚ s 0) ∧
      (NBITS ≤ 31 → RehashesNonNeg ℚ s 0) ∧
      (2 ^ NBITS ≤ 0 → hashGet ℚ s 0 = .error .outOfBounds ∧ ∀ value,
        hashInsert s.mem s.hash 0 value = .error .outOfBounds ∧
          rawHashGet s.mem s.hash 0 = .error .outOfBounds ∧
          hotringDelete s.mem s.hash 0 = .error .outOfBounds) := by
  obtain ⟨s, hrun, hs, -⟩ := run_beforeRehash
  exact ⟨s, hrun, slotLaw_iff (show hashAlloc NBITS 2 = .ok ⟨NBITS, 2, 4, fun _ ↦ none⟩ from rfl) hs
    (by decide) (by decide) 0⟩

/-- In a new table of four buckets and four tags key 16 gets the index 4. -/
theorem hashCode_past_slots :
    hashAlloc 4 2 = .ok ⟨4, 2, 4, fun _ ↦ none⟩ ∧
      hashCode ⟨4, 2, 4, fun _ ↦ none⟩ 16 = .ok (4, 0) ∧
      ¬ SlotLaw ℚ ⟨.init, ⟨4, 2, 4, fun _ ↦ none⟩, 0⟩ 16 ∧
      hashInsert Mem.init ⟨4, 2, 4, fun _ ↦ none⟩ 16 1 = .error .outOfBounds := by
  refine ⟨rfl, by decide, ?_, rfl⟩
  rintro ⟨⟨index, tag, hc, hi, -⟩, -⟩
  obtain ⟨rfl, -⟩ := Prod.mk.inj (Except.ok.inj hc)
  exact absurd hi (by decide)

/-- A get of the second of the six keys, which have `n` bits, starts a rehash that searches for
the milestone of their bucket outside the slots. -/
theorem rehash_past_slots :
    ∃ s, run ℚ ⟨.init, ⟨NBITS, 2, 4, fun _ ↦ none⟩, 0⟩ beforeRehash = .ok s ∧
      2 ^ 31 + 2 < 2 ^ NBITS ∧ hashGet ℚ s (2 ^ 31 + 2) = .error .outOfBounds ∧
      ¬ SlotLaw ℚ s (2 ^ 31 + 2) := by
  obtain ⟨s, hrun, -, ⟨m, h, hre⟩, hget⟩ := run_beforeRehash
  refine ⟨s, hrun, by decide, hget, ?_⟩
  rintro ⟨-, -, -, -, hlaw⟩
  obtain ⟨m₁, head, hsh, hover⟩ := hlaw hget
  obtain ⟨r, hr⟩ := hre.shift_ok hsh
  rw [hover] at hr
  cases hr

end Jeopardy.Hotring
