import Jeopardy.Hotring.Map
import Jeopardy.Hotring.Shape

/-!
# Hot-spot shifts move heads only

Whatever the rounding of the incomes, `do_hotspot_shift` changes counters and points the
head to a node of its ring, or else it asks for a rehash. So a get that does not rehash
keeps the finite map of the table.
-/

namespace Jeopardy.Hotring

open Rings Fault

variable {D : Type} [DoubleArith D] {m m' : Mem} {h h' : Hash} {ring : Nat → List Nat}
  {f : Nat → Option Nat} {c : Nat} {xs : List Nat}

/-! ### The two loops -/

theorem collectBody_yield {a : Nat} {cs cs' : List Nat}
    (hy : collectBody m a cs = .ok (.yield (m', cs'))) :
    m.SameCells m' ∧ cs'.length = cs.length + 1 := by
  obtain ⟨tmp, hr, hy⟩ := bind_eq_ok.mp hy
  split at hy
  · obtain ⟨m₁, hm₁, hy⟩ := bind_eq_ok.mp hy
    simp only [pure, Except.pure, Except.ok.injEq, ForInStep.yield.injEq, Prod.mk.injEq] at hy
    obtain ⟨m₂, hm₂, hs⟩ := resetCounter_spec (Mem.read_eq_ok.mp hr)
    have he : m₁ = m₂ := Except.ok.inj (hm₁.symm.trans hm₂)
    rw [← hy.1, he, ← hy.2]
    exact ⟨hs, by simp⟩
  · simp at hy

theorem collectBody_not_done {a : Nat} {cs : List Nat} {r : Mem × List Nat} :
    collectBody m a cs ≠ .ok (.done r) := by
  intro hd
  obtain ⟨tmp, -, hd⟩ := bind_eq_ok.mp hd
  split at hd
  · obtain ⟨m₁, -, hd⟩ := bind_eq_ok.mp hd
    simp [pure, Except.pure] at hd
  · simp at hd

theorem keepsLinks_collectBody (m : Mem) (ys : List Nat) : KeepsLinks collectBody m ys := by
  intro m₁ a s m₂ s' _ hm hy b hb
  rw [(collectBody_yield hy).1.next]
  exact hm b hb

private theorem foldRing_collect {cs cs' : List Nat}
    (hr : foldRing collectBody m xs cs = .ok (m', cs')) :
    m.SameCells m' ∧ cs'.length = cs.length + xs.length := by
  induction xs generalizing m cs with
  | nil =>
    simp only [foldRing, Except.ok.injEq, Prod.mk.injEq] at hr
    rw [← hr.1, ← hr.2]
    exact ⟨.refl m, rfl⟩
  | cons x xs ih =>
    obtain ⟨r, hb, hr⟩ := bind_eq_ok.mp hr
    cases r with
    | done r => exact absurd hb collectBody_not_done
    | yield r =>
      obtain ⟨m₁, cs₁⟩ := r
      obtain ⟨hs, hl⟩ := collectBody_yield hb
      obtain ⟨hs', hl'⟩ := ih hr
      refine ⟨hs.trans hs', ?_⟩
      rw [hl', hl, List.length_cons]
      omega

/-- The collecting loop resets counters and fills one entry for every node of the ring. -/
theorem listForEach_collect {cs cs' : List Nat} (h : IsRing m.next (c :: xs))
    (hr : listForEach collectBody m c cs = .ok (m', cs')) :
    m.SameCells m' ∧ cs'.length = cs.length + xs.length := by
  rw [listForEach_eq_fold _ h (keepsLinks_collectBody m _)] at hr
  exact foldRing_collect hr

theorem pickBody_mem {nr a : Nat} {s : Nat × Nat} {r : ForInStep (Mem × (Nat × Nat))}
    (hr : pickBody nr m a s = .ok r) :
    (s.1 = nr ∧ r = .done (m, (s.1, a))) ∨ (s.1 ≠ nr ∧ r = .yield (m, (s.1 + 1, s.2))) := by
  unfold pickBody at hr
  split at hr
  · next hs => exact Or.inl ⟨hs, (Except.ok.inj hr).symm⟩
  · next hs => exact Or.inr ⟨hs, (Except.ok.inj hr).symm⟩

theorem keepsLinks_pickBody (nr : Nat) (m : Mem) (ys : List Nat) :
    KeepsLinks (pickBody nr) m ys := by
  intro m₁ a s m₂ s' _ hm hy
  rcases pickBody_mem hy with ⟨-, hd⟩ | ⟨-, hd⟩
  · simp at hd
  · simp only [ForInStep.yield.injEq, Prod.mk.injEq] at hd
    rw [hd.1]
    exact hm

private theorem foldRing_pick {nr : Nat} {s s' : Nat × Nat} (hle : s.1 ≤ nr)
    (hlt : nr < s.1 + xs.length) (hr : foldRing (pickBody nr) m xs s = .ok (m', s')) :
    m' = m ∧ s'.2 ∈ xs := by
  induction xs generalizing s with
  | nil =>
    rw [List.length_nil] at hlt
    omega
  | cons x xs ih =>
    obtain ⟨r, hb, hr⟩ := bind_eq_ok.mp hr
    rcases pickBody_mem hb with ⟨hs, rfl⟩ | ⟨hs, rfl⟩
    · simp only [Except.ok.injEq, Prod.mk.injEq] at hr
      rw [← hr.1, ← hr.2]
      exact ⟨rfl, by simp⟩
    · rw [List.length_cons] at hlt
      obtain ⟨hm, hmem⟩ := ih (s := (s.1 + 1, s.2)) (by simp only; omega) (by simp only; omega) hr
      exact ⟨hm, List.mem_cons_of_mem x hmem⟩

private theorem foldRing_pick_mem {nr : Nat} {s s' : Nat × Nat}
    (hr : foldRing (pickBody nr) m xs s = .ok (m', s')) :
    m' = m ∧ (s'.2 ∈ xs ∨ s'.2 = s.2) := by
  induction xs generalizing s with
  | nil =>
    simp only [foldRing, Except.ok.injEq, Prod.mk.injEq] at hr
    rw [← hr.1, ← hr.2]
    exact ⟨rfl, Or.inr rfl⟩
  | cons x xs ih =>
    obtain ⟨r, hb, hr⟩ := bind_eq_ok.mp hr
    rcases pickBody_mem hb with ⟨hs, rfl⟩ | ⟨hs, rfl⟩
    · simp only [Except.ok.injEq, Prod.mk.injEq] at hr
      rw [← hr.1, ← hr.2]
      exact ⟨rfl, Or.inl (by simp)⟩
    · obtain ⟨hm, hmem⟩ := ih hr
      exact ⟨hm, hmem.imp_left (List.mem_cons_of_mem x)⟩

/-! ### The selection -/

/-- After `t` rounds of the selection: no income was below the sentinel, or the least one is
the head's, or it belongs to a later entry. -/
def Selected (total : D) (counters : List Nat) (t : Nat) (s : D × Nat × D) : Prop :=
  (s.2.1 = 0 ∧ s.1 = DoubleArith.ofNat 1000000000 ∧
      ∀ u < t, DoubleArith.lt (income total counters u) (DoubleArith.ofNat 1000000000) = false) ∨
    (1 ≤ t ∧ s.2.1 = 0 ∧ DoubleArith.eq s.1 s.2.2 = true) ∨ (1 ≤ s.2.1 ∧ s.2.1 < t)

private theorem selected_step [LawfulDouble D] {total : D} {counters : List Nat} {t : Nat}
    {s : D × Nat × D} (hs : Selected total counters t s) :
    Selected total counters (t + 1)
      (if DoubleArith.lt (income total counters t) s.1 then
        (income total counters t, t, if t = 0 then income total counters t else s.2.2)
        else (s.1, s.2.1, if t = 0 then income total counters t else s.2.2)) := by
  split
  · next hlt =>
    rcases Nat.eq_zero_or_pos t with rfl | ht
    · refine Or.inr (Or.inl ⟨le_rfl, rfl, ?_⟩)
      simpa using LawfulDouble.eq_of_lt _ _ hlt
    · exact Or.inr (Or.inr ⟨ht, Nat.lt_succ_self t⟩)
  · next hlt =>
    rcases hs with ⟨h0, he, hu⟩ | ⟨ht, h0, he⟩ | ⟨h1, h2⟩
    · refine Or.inl ⟨h0, he, ?_⟩
      intro u hut
      rcases Nat.lt_succ_iff_lt_or_eq.mp hut with hut | rfl
      · exact hu u hut
      · rwa [he, Bool.not_eq_true] at hlt
    · refine Or.inr (Or.inl ⟨by omega, h0, ?_⟩)
      rw [if_neg (by omega)]
      exact he
    · exact Or.inr (Or.inr ⟨h1, by simp only; omega⟩)

theorem findHottest_selected [LawfulDouble D] (total : D) (counters : List Nat) :
    Selected total counters counters.length (findHottest total counters) := by
  have hfold (j : Nat) : Selected total counters j
      ((List.range j).foldl (fun (s : D × Nat × D) t ↦
        let cur := income total counters t
        let head_income := if t = 0 then cur else s.2.2
        if DoubleArith.lt cur s.1 then (cur, t, head_income) else (s.1, s.2.1, head_income))
        (DoubleArith.ofNat 1000000000, 0, DoubleArith.ofNat 0)) := by
    induction j with
    | zero => exact Or.inl ⟨rfl, rfl, fun u hu ↦ absurd hu (Nat.not_lt_zero u)⟩
    | succ t ih =>
      rw [List.range_succ, List.foldl_append, List.foldl_cons, List.foldl_nil]
      exact selected_step ih
  exact hfold counters.length

/-- `__hash_create` on a slot in use keeps the slots and reads the head. -/
theorem rawHashCreate_head {t a : Nat} {head : Head} (hs : h.slots i = some head)
    (hr : rawHashCreate m h i t = .ok (m', h', a)) : h' = h ∧ head.addr ≠ 0 := by
  obtain ⟨slot, hslot, hr⟩ := bind_eq_ok.mp hr
  rw [(slot_eq_ok hslot).2.symm.trans hs] at hr
  obtain ⟨m₁, hins, hr⟩ := bind_eq_ok.mp hr
  obtain ⟨m₂, -, hr⟩ := bind_eq_ok.mp hr
  simp only [pure, Except.pure, Except.ok.injEq, Prod.mk.injEq] at hr
  refine ⟨hr.2.1.symm, fun h0 ↦ ?_⟩
  obtain ⟨r, hloop, -⟩ := bind_eq_ok.mp hins
  obtain ⟨nd, hnd, -⟩ := bind_eq_ok.mp hloop
  rw [h0, Mem.read_eq_ok, Mem.null_free] at hnd
  cases hnd

/-- A rehash that completes has read every head. -/
theorem head_ne_null {r : Mem × Hash} (hr : hotringRehash m h = .ok r) (hi : i < h.size) :
    (h.slots i).map Head.addr ≠ some 0 := by
  obtain ⟨⟨m₁, h₁, new⟩, hinit, -⟩ := bind_eq_ok.mp hr
  obtain ⟨-, -, hinit⟩ := bind_eq_ok.mp hinit
  obtain ⟨half, -, hinit⟩ := bind_eq_ok.mp hinit
  obtain ⟨new₀, -, hinit⟩ := bind_eq_ok.mp hinit
  refine (foldlM_range_invariant (P := fun N (s : Mem × Hash × Hash) ↦ s.2.1 = h ∧
    ∀ j < N, (h.slots j).map Head.addr ≠ some 0) ?_ ⟨rfl, by simp⟩ hinit).2 i hi
  rintro N ⟨m₂, h₂, new₂⟩ s' hN ⟨rfl, hall⟩ hstep
  obtain ⟨slot, hslot, hstep⟩ := bind_eq_ok.mp hstep
  have hs := (slot_eq_ok hslot).2
  have hlast {j : Nat} (hj : j < N + 1) : j < N ∨ j = N := by omega
  cases slot with
  | none =>
    simp only [pure, Except.pure, Except.ok.injEq] at hstep
    refine ⟨hstep ▸ rfl, fun j hj ↦ ?_⟩
    rcases hlast hj with hj | rfl
    · exact hall j hj
    · simp [hs]
  | some head =>
    obtain ⟨⟨m₃, h₃, a₃⟩, hc₃, hstep⟩ := bind_eq_ok.mp hstep
    obtain ⟨⟨m₄, e₄⟩, -, hstep⟩ := bind_eq_ok.mp hstep
    obtain ⟨new₃, -, hstep⟩ := bind_eq_ok.mp hstep
    obtain ⟨⟨m₅, h₅, a₅⟩, hc₅, hstep⟩ := bind_eq_ok.mp hstep
    obtain ⟨⟨m₆, e₆⟩, -, hstep⟩ := bind_eq_ok.mp hstep
    obtain ⟨new₅, -, hstep⟩ := bind_eq_ok.mp hstep
    simp only [pure, Except.pure, Except.ok.injEq] at hstep
    obtain ⟨hh₃, hne⟩ := rawHashCreate_head hs hc₃
    rw [hh₃] at hc₅
    refine ⟨hstep ▸ (rawHashCreate_head hs hc₅).1, fun j hj ↦ ?_⟩
    rcases hlast hj with hj | rfl
    · exact hall j hj
    · simpa [hs] using hne

section Shift

variable [LawfulDouble D]

/-- A hot-spot shift resets counters and leaves the head on its ring; only one that asks for
a rehash may leave the head `NULL`. -/
theorem doHotspotShift_spec {head head' : Head} {ret : HotspotShift}
    (hring : IsRing m.next (head.addr :: xs))
    (hr : doHotspotShift D m head = .ok (m', head', ret)) :
    m.SameCells m' ∧
      (head'.addr ∈ head.addr :: xs ∨ (head'.addr = 0 ∧ ret = .rehash)) := by
  obtain ⟨nd, hnd, hr⟩ := bind_eq_ok.mp hr
  obtain ⟨m₁, hm₁, hr⟩ := bind_eq_ok.mp hr
  obtain ⟨⟨m₂, counters⟩, hc, hr⟩ := bind_eq_ok.mp hr
  obtain ⟨m₁', hm₁', hs₁⟩ := resetCounter_spec (Mem.read_eq_ok.mp hnd)
  have he : m₁ = m₁' := Except.ok.inj (hm₁.symm.trans hm₁')
  subst he
  have hring₁ : IsRing m₁.next (head.addr :: xs) := by rwa [hs₁.next]
  obtain ⟨hs₂, hlen⟩ := listForEach_collect hring₁ hc
  have hs := hs₁.trans hs₂
  have hsel := findHottest_selected (DoubleArith.ofNat head.counter.toNat : D) counters
  simp only at hr
  generalize findHottest (DoubleArith.ofNat head.counter.toNat : D) counters = sel at hsel hr
  obtain ⟨least, nr, own⟩ := sel
  simp only at hr
  split at hr
  · simp only [pure, Except.pure, Except.ok.injEq, Prod.mk.injEq] at hr
    rw [← hr.1, ← hr.2.1]
    exact ⟨hs, Or.inl (by simp)⟩
  · next hne =>
    obtain ⟨⟨m₃, i, hottest⟩, hp, hr₂⟩ := bind_eq_ok.mp hr
    clear hr
    have hring₂ : IsRing m₂.next (head.addr :: xs) := by rwa [hs.next]
    rw [listForEach_eq_fold _ hring₂ (keepsLinks_pickBody nr m₂ _)] at hp
    obtain ⟨rfl, hmem⟩ := foldRing_pick_mem hp
    rcases hsel with ⟨-, he, -⟩ | ⟨-, -, he⟩ | ⟨h1, h2⟩
    · -- only the sentinel was found: it is above the threshold
      simp only at he
      rw [he, INCOME_THRESHOLD, LawfulDouble.threshold_lt] at hr₂
      simp only [pure, Except.pure, ↓reduceIte, Except.ok.injEq, Prod.mk.injEq] at hr₂
      rw [← hr₂.1, ← hr₂.2.1, ← hr₂.2.2]
      refine ⟨hs, ?_⟩
      rcases hmem with hmem | hz
      · exact Or.inl (List.mem_cons_of_mem _ hmem)
      · exact Or.inr ⟨hz, rfl⟩
    · exact absurd he hne
    · have hpos : hottest ∈ xs :=
        (foldRing_pick h1 (by simp only [List.length_singleton] at hlen h2 ⊢; omega) hp).2
      simp only [pure, Except.pure] at hr₂
      split at hr₂
      · simp only [Except.ok.injEq, Prod.mk.injEq] at hr₂
        rw [← hr₂.1, ← hr₂.2.1]
        exact ⟨hs, Or.inl (List.mem_cons_of_mem _ hpos)⟩
      · simp only [Except.ok.injEq, Prod.mk.injEq] at hr₂
        rw [← hr₂.1, ← hr₂.2.1]
        exact ⟨hs, Or.inl (List.mem_cons_of_mem _ hpos)⟩

/-- A ring can be read from each of its nodes. -/
theorem exists_isRotated_of_mem {a : Nat} (ha : a ∈ xs) : ∃ ys, xs.IsRotated (a :: ys) := by
  obtain ⟨p, q, rfl⟩ := List.append_of_mem ha
  exact ⟨q ++ p, p.length, by simp⟩

/-- The part of a hot-spot shift before its rehash rotates the ring of the bucket, or asks
for a rehash with the head `NULL`. -/
theorem Chained.hotspotShiftHead_spec (t : Chained m h ring) {i : Nat} {ret : HotspotShift}
    (hi : i < h.size) (hr : hotspotShiftHead D m h i = .ok (m', h', ret)) :
    m.SameCells m' ∧ ((∃ ring', Rotated h h' ring ring') ∨
      (ret = .rehash ∧ (h'.slots i).map Head.addr = some 0)) := by
  obtain ⟨slot, hslot, hr⟩ := bind_eq_ok.mp hr
  rw [(t.bucket i hi).slot_eq, Except.ok.injEq] at hslot
  cases slot with
  | none => simp at hr
  | some head =>
    obtain ⟨⟨m₁, head', ret'⟩, hd, hr⟩ := bind_eq_ok.mp hr
    simp only [pure, Except.pure, Except.ok.injEq, Prod.mk.injEq] at hr
    obtain ⟨rfl, rfl, rfl⟩ := hr
    obtain ⟨xs, hx⟩ := t.ring_eq_cons hi hslot
    have hl := (t.bucket i hi).linked
    rw [hx] at hl
    obtain ⟨hs, hmem⟩ := doHotspotShift_spec hl hd
    refine ⟨hs, ?_⟩
    rcases hmem with hmem | ⟨hz, hret⟩
    · rw [← hx] at hmem
      obtain ⟨ys, hrot⟩ := exists_isRotated_of_mem hmem
      exact Or.inl ⟨_, t.rotated_setSlot hrot rfl⟩
    · exact Or.inr ⟨hret, by simp [Hash.setSlot, hz]⟩

/-- A get on a table rotates at most one ring and then possibly rehashes. -/
theorem Chained.hashGet_spec {s s' : State} {q : Nat} {e : Int} {g : GetResult}
    (t : Chained s.mem s.hash ring) (hr : hashGet D s q = .ok (s', e, g)) :
    ∃ m₁ h₁ ring₁, s.mem.SameCells m₁ ∧ Rotated s.hash h₁ ring ring₁ ∧
      ((s'.mem = m₁ ∧ s'.hash = h₁) ∨ hotringRehash m₁ h₁ = .ok (s'.mem, s'.hash)) := by
  obtain ⟨m₁, h₁, hg, hcase⟩ := hashGet_cases hr
  have hq := t.geometry.lt_of_rawHashGet hg
  obtain ⟨m₂, h₂, hg₂, hm, hh⟩ := t.rawHashGet_spec hq
  rw [hg, Except.ok.injEq, Prod.mk.injEq, Prod.mk.injEq] at hg₂
  obtain ⟨rfl, rfl, -⟩ := hg₂
  have hrot := hh.rotated t
  have t₁ := t.rotated hm hrot
  rcases hcase with hsame | ⟨i, tag, hc, -, hsh⟩
  · exact ⟨m₁, h₁, ring, hm, hrot, Or.inl hsame⟩
  · rw [t₁.geometry.hashCode_eq, Except.ok.injEq, Prod.mk.injEq] at hc
    obtain ⟨rfl, -⟩ := hc
    obtain ⟨m₃, h₃, ret, hhead, hret⟩ := hotspotShift_cases hsh
    have hi := t₁.geometry.index_lt (hh.n.symm ▸ hq)
    obtain ⟨hm₃, hrot₃⟩ := t₁.hotspotShiftHead_spec hi hhead
    rcases hrot₃ with ⟨ring', hrot₃⟩ | ⟨hret', hnull⟩
    · refine ⟨m₃, h₃, ring', hm.trans hm₃, hrot.trans hrot₃, ?_⟩
      exact hret.imp (fun hs ↦ hs.2) (fun hs ↦ hs.2)
    · rcases hret with ⟨hret, -⟩ | ⟨-, hre⟩
      · rw [hret'] at hret
        cases hret
      · exact absurd hnull (head_ne_null hre ((hotspotShiftHead_shape hhead).size.symm ▸ hi))

/-- A get that does not rehash at most rotates the ring of its bucket. -/
theorem Chained.hashGet_rotated {s s' : State} {q : Nat} {e : Int} {g : GetResult}
    (t : Chained s.mem s.hash ring) (hr : hashGet D s q = .ok (s', e, g))
    (hk : s'.hash.k = s.hash.k) :
    ∃ ring', s.mem.SameCells s'.mem ∧ Rotated s.hash s'.hash ring ring' := by
  obtain ⟨m₁, h₁, ring₁, hm, hrot, ⟨rfl, rfl⟩ | hre⟩ := t.hashGet_spec hr
  · exact ⟨ring₁, hm, hrot⟩
  · have hk₂ := (hotringRehash_shape hre).2.1
    have hk₁ := hrot.k
    omega

end Shift

end Jeopardy.Hotring
