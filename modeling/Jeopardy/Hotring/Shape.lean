import Jeopardy.Hotring.Program

/-!
# The shape of a table

No operation but a rehash changes the number of buckets; a rehash doubles it. So `k` never
decreases along a program, and a program that ends with the `k` it started from contains no
rehash.
-/

namespace Jeopardy.Hotring

open Fault

/-- The two tables have the same `n`, `k` and number of slots. -/
structure SameShape (h h' : Hash) : Prop where
  n : h'.n = h.n
  k : h'.k = h.k
  size : h'.size = h.size

variable {m m' : Mem} {h h' h'' : Hash} {q key value : Nat}

namespace SameShape

theorem refl (h : Hash) : SameShape h h := ⟨rfl, rfl, rfl⟩

theorem trans (s : SameShape h h') (s' : SameShape h' h'') : SameShape h h'' :=
  ⟨s'.n.trans s.n, s'.k.trans s.k, s'.size.trans s.size⟩

theorem setSlot (h : Hash) (i : Nat) (v : Option Head) : SameShape h (h.setSlot i v) :=
  ⟨rfl, rfl, rfl⟩

theorem hashCode (s : SameShape h h') (key : Nat) :
    Hotring.hashCode h' key = Hotring.hashCode h key := by
  rw [Hotring.hashCode, s.n, s.k, Hotring.hashCode]

end SameShape

theorem store_shape {i : Nat} {v : Option Head} (hr : h.store i v = .ok h') : SameShape h h' := by
  unfold Hash.store at hr
  split at hr
  · rw [Except.ok.injEq] at hr
    exact hr ▸ .setSlot h i v
  · simp at hr

theorem rawHashGet_shape {g : GetResult} (hr : rawHashGet m h q = .ok (m', h', g)) :
    SameShape h h' := by
  unfold rawHashGet at hr
  obtain ⟨⟨i, t⟩, -, hr⟩ := bind_eq_ok.mp hr
  obtain ⟨slot, -, hr⟩ := bind_eq_ok.mp hr
  cases slot with
  | none =>
    simp only [pure, Except.pure, Except.ok.injEq, Prod.mk.injEq] at hr
    exact hr.2.1 ▸ .refl h
  | some head =>
    obtain ⟨nd, -, hr⟩ := bind_eq_ok.mp hr
    split at hr
    · obtain ⟨m₁, -, hr⟩ := bind_eq_ok.mp hr
      simp only [pure, Except.pure, Except.ok.injEq, Prod.mk.injEq] at hr
      exact hr.2.1 ▸ .setSlot h _ _
    · obtain ⟨r, -, hr⟩ := bind_eq_ok.mp hr
      simp only [pure, Except.pure, Except.ok.injEq, Prod.mk.injEq] at hr
      exact hr.2.1 ▸ .setSlot h _ _

theorem rawHashCreate_shape {i t a : Nat} (hr : rawHashCreate m h i t = .ok (m', h', a)) :
    SameShape h h' := by
  unfold rawHashCreate at hr
  obtain ⟨slot, -, hr⟩ := bind_eq_ok.mp hr
  cases slot with
  | none =>
    obtain ⟨m₁, -, hr⟩ := bind_eq_ok.mp hr
    obtain ⟨m₂, -, hr⟩ := bind_eq_ok.mp hr
    simp only [pure, Except.pure, Except.ok.injEq, Prod.mk.injEq] at hr
    exact hr.2.1 ▸ .setSlot h _ _
  | some head =>
    obtain ⟨m₁, -, hr⟩ := bind_eq_ok.mp hr
    obtain ⟨m₂, -, hr⟩ := bind_eq_ok.mp hr
    simp only [pure, Except.pure, Except.ok.injEq, Prod.mk.injEq] at hr
    exact hr.2.1 ▸ .refl h

theorem hashInsert_shape {e : Int} (hr : hashInsert m h key value = .ok (m', h', e)) :
    SameShape h h' := by
  unfold hashInsert at hr
  obtain ⟨⟨i, t⟩, -, hr⟩ := bind_eq_ok.mp hr
  obtain ⟨⟨m₁, h₁, node⟩, hc, hr⟩ := bind_eq_ok.mp hr
  obtain ⟨⟨m₂, err⟩, -, hr⟩ := bind_eq_ok.mp hr
  have hs := rawHashCreate_shape hc
  simp only [pure, Except.pure] at hr
  split at hr
  · simp only [Except.ok.injEq, Prod.mk.injEq] at hr
    exact hr.2.1 ▸ hs
  · simp only [Except.ok.injEq, Prod.mk.injEq] at hr
    exact hr.2.1 ▸ hs

theorem headFreeByIndex_shape {i : Nat} (hr : hotringHeadFreeByIndex h i = .ok h') :
    SameShape h h' := by
  obtain ⟨slot, -, hr⟩ := bind_eq_ok.mp hr
  simp only [pure, Except.pure, Except.ok.injEq] at hr
  exact hr ▸ .setSlot h i _

theorem headFree_shape (hr : hotringHeadFree h key = .ok h') : SameShape h h' := by
  obtain ⟨⟨i, t⟩, -, hr⟩ := bind_eq_ok.mp hr
  exact headFreeByIndex_shape hr

theorem hotringDelete_shape {b : Bool} (hr : hotringDelete m h key = .ok (m', h', b)) :
    SameShape h h' := by
  obtain ⟨⟨m₁, h₁, g⟩, hg, hr⟩ := bind_eq_ok.mp hr
  have hs := rawHashGet_shape hg
  simp only at hr
  split at hr
  · split at hr
    · simp at hr
    · obtain ⟨m₂, -, hr⟩ := bind_eq_ok.mp hr
      obtain ⟨m₃, -, hr⟩ := bind_eq_ok.mp hr
      obtain ⟨h₂, hf, hr⟩ := bind_eq_ok.mp hr
      simp only [pure, Except.pure, Except.ok.injEq, Prod.mk.injEq] at hr
      rw [← hr.2.1]
      split at hf
      · exact hs.trans (headFree_shape hf)
      · rw [Except.ok.injEq] at hf
        exact hf ▸ hs
  · simp only [pure, Except.pure, Except.ok.injEq, Prod.mk.injEq] at hr
    exact hr.2.1 ▸ hs

theorem repointHead_shape {i steps : Nat} (hr : repointHead m h i steps = .ok h') :
    SameShape h h' := by
  obtain ⟨slot, -, hr⟩ := bind_eq_ok.mp hr
  cases slot with
  | none =>
    simp only [pure, Except.pure, Except.ok.injEq] at hr
    exact hr ▸ .refl h
  | some head =>
    obtain ⟨a, -, hr⟩ := bind_eq_ok.mp hr
    simp only [pure, Except.pure, Except.ok.injEq] at hr
    exact hr ▸ .setSlot h i _

/-! ### Rehash -/

theorem rehashInitStep_shape {bits half i : Nat} {s s' : Mem × Hash × Hash}
    (hr : rehashInitStep bits half s i = .ok s') :
    SameShape s.2.1 s'.2.1 ∧ SameShape s.2.2 s'.2.2 := by
  obtain ⟨m, h, new⟩ := s
  obtain ⟨slot, -, hr⟩ := bind_eq_ok.mp hr
  cases slot with
  | none =>
    simp only [pure, Except.pure, Except.ok.injEq] at hr
    subst hr
    exact ⟨.refl h, .refl new⟩
  | some head =>
    obtain ⟨⟨m₁, h₁, a₁⟩, hc₁, hr⟩ := bind_eq_ok.mp hr
    obtain ⟨⟨m₂, e₂⟩, -, hr⟩ := bind_eq_ok.mp hr
    obtain ⟨new₁, hn₁, hr⟩ := bind_eq_ok.mp hr
    obtain ⟨⟨m₃, h₂, a₂⟩, hc₂, hr⟩ := bind_eq_ok.mp hr
    obtain ⟨⟨m₄, e₄⟩, -, hr⟩ := bind_eq_ok.mp hr
    obtain ⟨new₂, hn₂, hr⟩ := bind_eq_ok.mp hr
    simp only [pure, Except.pure, Except.ok.injEq] at hr
    subst hr
    exact ⟨(rawHashCreate_shape hc₁).trans (rawHashCreate_shape hc₂),
      (store_shape hn₁).trans (store_shape hn₂)⟩

theorem hotringDeleteHead_shape {i : Nat} {b : Bool}
    (hr : hotringDeleteHead m h i = .ok (m', h', b)) : SameShape h h' := by
  obtain ⟨slot, -, hr⟩ := bind_eq_ok.mp hr
  cases slot with
  | none => simp at hr
  | some head =>
    obtain ⟨nd, -, hr⟩ := bind_eq_ok.mp hr
    split at hr
    · obtain ⟨m₁, -, hr⟩ := bind_eq_ok.mp hr
      obtain ⟨h₁, hf, hr⟩ := bind_eq_ok.mp hr
      simp only [pure, Except.pure, Except.ok.injEq, Prod.mk.injEq] at hr
      exact hr.2.1 ▸ headFreeByIndex_shape hf
    · obtain ⟨h₁, hf, hr⟩ := bind_eq_ok.mp hr
      obtain ⟨⟨m₁, prev⟩, -, hr⟩ := bind_eq_ok.mp hr
      cases prev with
      | none => simp at hr
      | some prev =>
        obtain ⟨m₂, -, hr⟩ := bind_eq_ok.mp hr
        obtain ⟨m₃, -, hr⟩ := bind_eq_ok.mp hr
        simp only [pure, Except.pure, Except.ok.injEq, Prod.mk.injEq] at hr
        exact hr.2.1 ▸ store_shape hf

theorem rehashDeleteStep_shape {i : Nat} {s s' : Mem × Hash} (hr : rehashDeleteStep s i = .ok s') :
    SameShape s.2 s'.2 := by
  obtain ⟨m, h⟩ := s
  obtain ⟨slot, -, hr⟩ := bind_eq_ok.mp hr
  cases slot with
  | none =>
    simp only [pure, Except.pure, Except.ok.injEq] at hr
    subst hr
    exact .refl h
  | some head =>
    obtain ⟨⟨m₁, h₁, b⟩, hd, hr⟩ := bind_eq_ok.mp hr
    simp only [pure, Except.pure, Except.ok.injEq] at hr
    subst hr
    exact hotringDeleteHead_shape hd

/-- The shape of the table that `hotring_rehash_init` allocates. -/
theorem hotringRehashInit_shape {new : Hash} (hr : hotringRehashInit m h = .ok (m', h', new)) :
    SameShape h h' ∧ new.n = NBITS ∧ new.k = h.k + 1 ∧ new.size = 2 ^ (h.k + 1) ∧
      h.k + 1 ≤ 30 := by
  obtain ⟨-, -, hr⟩ := bind_eq_ok.mp hr
  obtain ⟨half, -, hr⟩ := bind_eq_ok.mp hr
  obtain ⟨new₀, ha, hr⟩ := bind_eq_ok.mp hr
  obtain ⟨size, hsz, ha⟩ := bind_eq_ok.mp ha
  obtain ⟨hk, rfl⟩ := intShl_eq_ok.mp hsz
  simp only [pure, Except.pure, Except.ok.injEq] at ha
  subst ha
  have hs := foldlM_invariant
    (P := fun s : Mem × Hash × Hash ↦ SameShape h s.2.1 ∧
      SameShape { n := NBITS, k := h.k + 1, size := 2 ^ (h.k + 1), slots := fun _ ↦ Option.none }
        s.2.2)
    (fun s i s' hs hstep ↦ ⟨hs.1.trans (rehashInitStep_shape hstep).1,
      hs.2.trans (rehashInitStep_shape hstep).2⟩)
    ⟨.refl h, .refl _⟩ hr
  exact ⟨hs.1, hs.2.n, hs.2.k, hs.2.size, hk⟩

/-- A rehash doubles the number of buckets. -/
theorem hotringRehash_shape (hr : hotringRehash m h = .ok (m', h')) :
    h'.n = NBITS ∧ h'.k = h.k + 1 ∧ h'.size = 2 ^ (h.k + 1) ∧ h.k + 1 ≤ 30 := by
  obtain ⟨⟨m₁, h₁, new⟩, hi, hr⟩ := bind_eq_ok.mp hr
  obtain ⟨half, -, hr⟩ := bind_eq_ok.mp hr
  obtain ⟨⟨m₂, h₂⟩, -, hr⟩ := bind_eq_ok.mp hr
  obtain ⟨⟨m₃, new₁⟩, hd, hr⟩ := bind_eq_ok.mp hr
  obtain ⟨m₄, -, hr⟩ := bind_eq_ok.mp hr
  simp only [pure, Except.pure, Except.ok.injEq, Prod.mk.injEq] at hr
  obtain ⟨-, rfl⟩ := hr
  obtain ⟨-, hn, hk, hsz, hle⟩ := hotringRehashInit_shape hi
  have hs := foldlM_invariant (P := fun s : Mem × Hash ↦ SameShape new s.2)
    (fun s i s' hs hstep ↦ hs.trans (rehashDeleteStep_shape hstep)) (.refl new) hd
  exact ⟨hs.n.trans hn, hs.k.trans hk, hs.size.trans hsz, hle⟩

/-! ### Programs -/

section Double

variable {D : Type} [DoubleArith D]

theorem hotspotShiftHead_shape {i : Nat} {ret : HotspotShift}
    (hr : hotspotShiftHead D m h i = .ok (m', h', ret)) : SameShape h h' := by
  obtain ⟨slot, -, hr⟩ := bind_eq_ok.mp hr
  cases slot with
  | none => simp at hr
  | some head =>
    obtain ⟨⟨m₁, head', ret'⟩, -, hr⟩ := bind_eq_ok.mp hr
    simp only [pure, Except.pure, Except.ok.injEq, Prod.mk.injEq] at hr
    exact hr.2.1 ▸ .setSlot h i _

/-- A hot-spot shift moves the head of its bucket and then possibly rehashes. -/
theorem hotspotShift_cases {i : Nat} (hr : hotspotShift D m h i = .ok (m', h')) :
    ∃ m₁ h₁ ret, hotspotShiftHead D m h i = .ok (m₁, h₁, ret) ∧
      ((ret = .success ∧ m' = m₁ ∧ h' = h₁) ∨
        (ret = .rehash ∧ hotringRehash m₁ h₁ = .ok (m', h'))) := by
  obtain ⟨⟨m₁, h₁, ret⟩, hs, hr⟩ := bind_eq_ok.mp hr
  refine ⟨m₁, h₁, ret, hs, ?_⟩
  cases ret with
  | success =>
    simp only [pure, Except.pure, Except.ok.injEq, Prod.mk.injEq] at hr
    exact Or.inl ⟨rfl, hr.1.symm, hr.2.symm⟩
  | rehash => exact Or.inr ⟨rfl, hr⟩

/-- `hash_get` is `__hash_get` and then possibly a hot-spot shift of the key's bucket. -/
theorem hashGet_cases {s s' : State} {e : Int} {g : GetResult}
    (hr : hashGet D s q = .ok (s', e, g)) :
    ∃ m₁ h₁, rawHashGet s.mem s.hash q = .ok (m₁, h₁, g) ∧
      ((s'.mem = m₁ ∧ s'.hash = h₁) ∨
        ∃ i t, hashCode h₁ q = .ok (i, t) ∧ g.ret = .accessCold ∧
          hotspotShift D m₁ h₁ i = .ok (s'.mem, s'.hash)) := by
  obtain ⟨⟨m₁, h₁, g₁⟩, hg, hr⟩ := bind_eq_ok.mp hr
  obtain ⟨⟨i, t⟩, hc, hr⟩ := bind_eq_ok.mp hr
  simp only [pure, Except.pure] at hr
  split at hr
  · simp only [Except.ok.injEq, Prod.mk.injEq] at hr
    exact ⟨m₁, h₁, hr.2.2 ▸ hg, Or.inl ⟨by rw [← hr.1], by rw [← hr.1]⟩⟩
  · simp only [Except.ok.injEq, Prod.mk.injEq] at hr
    exact ⟨m₁, h₁, hr.2.2 ▸ hg, Or.inl ⟨by rw [← hr.1], by rw [← hr.1]⟩⟩
  · next hret =>
    split at hr
    · obtain ⟨⟨m₂, h₂⟩, hsh, hr⟩ := bind_eq_ok.mp hr
      simp only [Except.ok.injEq, Prod.mk.injEq] at hr
      refine ⟨m₁, h₁, hr.2.2 ▸ hg, Or.inr ⟨i, t, hc, hr.2.2 ▸ hret, ?_⟩⟩
      rw [← hr.1]
      exact hsh
    · simp only [Except.ok.injEq, Prod.mk.injEq] at hr
      exact ⟨m₁, h₁, hr.2.2 ▸ hg, Or.inl ⟨by rw [← hr.1], by rw [← hr.1]⟩⟩
  · simp only [Except.ok.injEq, Prod.mk.injEq] at hr
    exact ⟨m₁, h₁, hr.2.2 ▸ hg, Or.inl ⟨by rw [← hr.1], by rw [← hr.1]⟩⟩

theorem hotspotShift_shape {i : Nat} (hr : hotspotShift D m h i = .ok (m', h')) :
    SameShape h h' ∨ h.k < h'.k := by
  obtain ⟨m₁, h₁, ret, hs, ⟨-, -, rfl⟩ | ⟨-, hr⟩⟩ := hotspotShift_cases hr
  · exact Or.inl (hotspotShiftHead_shape hs)
  · have hk := (hotringRehash_shape hr).2.1
    rw [(hotspotShiftHead_shape hs).k] at hk
    exact Or.inr (by omega)

theorem hashGet_shape {s s' : State} {e : Int} {g : GetResult}
    (hr : hashGet D s q = .ok (s', e, g)) : SameShape s.hash s'.hash ∨ s.hash.k < s'.hash.k := by
  obtain ⟨m₁, h₁, hg, ⟨-, hh⟩ | ⟨i, t, -, -, hsh⟩⟩ := hashGet_cases hr
  · exact Or.inl (hh ▸ rawHashGet_shape hg)
  · have hs := rawHashGet_shape hg
    rw [← hs.k]
    exact (hotspotShift_shape hsh).imp_left hs.trans

/-- Only a get can rehash. -/
theorem step_shape_of_ne_get {s s' : State} {c : Call} (hc : ∀ key, c ≠ .get key)
    (hr : c.step D s = .ok s') : SameShape s.hash s'.hash := by
  cases c with
  | insert key value =>
    obtain ⟨e, hi⟩ := step_insert hr
    exact hashInsert_shape hi
  | lookup key =>
    obtain ⟨g, hg⟩ := step_lookup hr
    exact rawHashGet_shape hg
  | get key => exact absurd rfl (hc key)
  | delete key =>
    obtain ⟨b, hd⟩ := step_delete hr
    exact hotringDelete_shape hd
  | repoint index steps => exact repointHead_shape (step_repoint hr).1

/-- A call keeps the shape, or it rehashes and increases `k`. -/
theorem step_shape {s s' : State} {c : Call} (hr : c.step D s = .ok s') :
    SameShape s.hash s'.hash ∨ s.hash.k < s'.hash.k := by
  by_cases hc : ∀ key, c ≠ .get key
  · exact Or.inl (step_shape_of_ne_get hc hr)
  · push Not at hc
    obtain ⟨key, rfl⟩ := hc
    obtain ⟨e, g, hg⟩ := step_get hr
    exact hashGet_shape hg

end Double

end Jeopardy.Hotring
