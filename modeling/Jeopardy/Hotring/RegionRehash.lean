import Jeopardy.Hotring.Region

/-!
# Regions under hot-spot shifts and rehashes

A rehash that completes, of whatever table, frees exactly the nodes it has created: every
slot of the new table starts at one of its milestones, and the last loop frees the head of
every slot. So no milestone stays behind and no node is added.
-/

namespace Jeopardy.Hotring

open Fault

variable {D : Type} [DoubleArith D] {C : Set Nat} {m m' : Mem} {h h' : Hash} {q : Nat}

/-! ### Hot-spot shift -/

private theorem collectBody_sameCells {p : Nat} {cs : List Nat}
    {r : ForInStep (Mem × List Nat)} (hb : collectBody m p cs = .ok r) :
    ∃ m₁ cs', r = .yield (m₁, cs') ∧ m.SameCells m₁ := by
  obtain ⟨tmp, -, hb⟩ := bind_eq_ok.mp hb
  split at hb
  · obtain ⟨m₁, h1, hb⟩ := bind_eq_ok.mp hb
    simp only [pure, Except.pure, Except.ok.injEq] at hb
    exact ⟨m₁, _, hb.symm, sameCells_of_reset h1⟩
  · simp at hb

private theorem pickBody_cases {nr p : Nat} {s : Nat × Nat}
    {r : ForInStep (Mem × (Nat × Nat))} (hb : pickBody nr m p s = .ok r) :
    r = .done (m, (s.1, p)) ∨ r = .yield (m, (s.1 + 1, s.2)) := by
  unfold pickBody at hb
  split at hb
  · exact Or.inl (Except.ok.inj hb).symm
  · exact Or.inr (Except.ok.inj hb).symm

theorem doHotspotShift_region {head head' : Head} {ret : HotspotShift} (r : Region C m)
    (hhead : head.addr ∈ C) (hr : doHotspotShift D m head = .ok (m', head', ret)) :
    m.SameCells m' ∧ head'.addr ∈ C := by
  obtain ⟨nd, hnd, hr⟩ := bind_eq_ok.mp hr
  obtain ⟨m₁, h1, hr⟩ := bind_eq_ok.mp hr
  obtain ⟨⟨m₂, counters⟩, hc, hr⟩ := bind_eq_ok.mp hr
  have hs₁ := sameCells_of_reset h1
  have hs : m.SameCells m₂ := by
    refine listForEach_invariant (C := C) (I := fun m₂ _ ↦ m.SameCells m₂)
      (fun m₂ s hI ↦ r.of_sameCells hI) ?_ ?_ hs₁ hhead hc
    · intro m₃ pos s m₄ s' hI _ hb
      obtain ⟨m₅, cs', hy, -⟩ := collectBody_sameCells hb
      simp at hy
    · intro m₃ pos s m₄ s' hI _ hb
      obtain ⟨m₅, cs', hy, hs⟩ := collectBody_sameCells hb
      simp only [ForInStep.yield.injEq, Prod.mk.injEq] at hy
      exact hI.trans (hy.1 ▸ hs)
  have hr₂ := r.of_sameCells hs
  simp only at hr
  generalize findHottest (DoubleArith.ofNat head.counter.toNat : D) counters = sel at hr
  obtain ⟨least, nr, own⟩ := sel
  simp only [pure, Except.pure] at hr
  split at hr
  · simp only [Except.ok.injEq, Prod.mk.injEq] at hr
    rw [← hr.1, ← hr.2.1]
    exact ⟨hs, hhead⟩
  · obtain ⟨⟨m₃, i, hottest⟩, hp, hr₃⟩ := bind_eq_ok.mp hr
    clear hr
    have hI : m₃ = m₂ ∧ (i, hottest).2 ∈ C := by
      refine listForEach_invariant (I := fun m₃ s ↦ m₃ = m₂ ∧ s.2 ∈ C)
        (fun m₃ s hI ↦ hI.1 ▸ hr₂) ?_ ?_ ⟨rfl, r.null_mem⟩ hhead hp
      · intro m₃ pos s m₄ s' hI hpos hb
        rcases pickBody_cases hb with hd | hy
        · simp only [ForInStep.done.injEq, Prod.mk.injEq] at hd
          obtain ⟨rfl, rfl⟩ := hd
          exact ⟨hI.1, hpos⟩
        · simp at hy
      · intro m₃ pos s m₄ s' hI hpos hb
        rcases pickBody_cases hb with hd | hy
        · simp at hd
        · simp only [ForInStep.yield.injEq, Prod.mk.injEq] at hy
          obtain ⟨rfl, rfl⟩ := hy
          exact hI
    obtain ⟨rfl, hmem⟩ := hI
    split at hr₃
    · simp only [Except.ok.injEq, Prod.mk.injEq] at hr₃
      rw [← hr₃.1, ← hr₃.2.1]
      exact ⟨hs, hmem⟩
    · simp only [Except.ok.injEq, Prod.mk.injEq] at hr₃
      rw [← hr₃.1, ← hr₃.2.1]
      exact ⟨hs, hmem⟩

theorem hotspotShiftHead_region {i : Nat} {ret : HotspotShift} (r : Region C m)
    (hh : HeadsIn C h) (hr : hotspotShiftHead D m h i = .ok (m', h', ret)) :
    m.SameCells m' ∧ HeadsIn C h' := by
  obtain ⟨slot, hslot, hr⟩ := bind_eq_ok.mp hr
  cases slot with
  | none => simp at hr
  | some head =>
    obtain ⟨⟨m₁, head', ret'⟩, hd, hr⟩ := bind_eq_ok.mp hr
    simp only [pure, Except.pure, Except.ok.injEq, Prod.mk.injEq] at hr
    obtain ⟨rfl, rfl, -⟩ := hr
    obtain ⟨hs, hmem⟩ := doHotspotShift_region r (hh i head (slot_eq_ok hslot).2) hd
    refine ⟨hs, headsIn_setSlot hh ?_⟩
    intro head'' he
    rw [Option.some.injEq] at he
    exact he ▸ hmem

/-! ### Rehash -/

theorem store_eq_ok {i : Nat} {v : Option Head} (hr : h.store i v = .ok h') :
    i < h.size ∧ h' = h.setSlot i v := by
  unfold Hash.store at hr
  split at hr
  · next hi => exact ⟨hi, (Except.ok.inj hr).symm⟩
  · simp at hr

/-- The milestones created up to now are the heads of the new table, below slot `2 * i`. -/
structure Milestones (C : Set Nat) (m₀ m : Mem) (new : Hash) (i : Nat) : Prop where
  region : Region C m
  kept : Kept m₀ m
  headsIn : HeadsIn C new
  later : ∀ j, 2 * i ≤ j → new.slots j = Option.none
  covered : ∀ a, m₀.brk ≤ a → a < m.brk →
    ∃ j < new.size, ∃ head, new.slots j = some head ∧ head.addr = a

private theorem milestones_step {bits half i : Nat} {m₀ : Mem} {s s' : Mem × Hash × Hash}
    (hm : Milestones C m₀ s.1 s.2.2 i) (hh : HeadsIn C s.2.1)
    (hr : rehashInitStep bits half s i = .ok s') :
    Milestones C m₀ s'.1 s'.2.2 (i + 1) ∧ HeadsIn C s'.2.1 := by
  obtain ⟨m, h, new⟩ := s
  obtain ⟨slot, -, hr⟩ := bind_eq_ok.mp hr
  cases slot with
  | none =>
    simp only [pure, Except.pure, Except.ok.injEq] at hr
    subst hr
    exact ⟨⟨hm.region, hm.kept, hm.headsIn, fun j hj ↦ hm.later j (by omega), hm.covered⟩, hh⟩
  | some head =>
    obtain ⟨⟨m₁, h₁, a₁⟩, hc₁, hr⟩ := bind_eq_ok.mp hr
    obtain ⟨⟨m₂, e₂⟩, he₁, hr⟩ := bind_eq_ok.mp hr
    obtain ⟨new₁, hn₁, hr⟩ := bind_eq_ok.mp hr
    obtain ⟨⟨m₃, h₂, a₂⟩, hc₂, hr⟩ := bind_eq_ok.mp hr
    obtain ⟨⟨m₄, e₄⟩, he₂, hr⟩ := bind_eq_ok.mp hr
    obtain ⟨new₂, hn₂, hr⟩ := bind_eq_ok.mp hr
    simp only [pure, Except.pure, Except.ok.injEq] at hr
    subst hr
    obtain ⟨rfl, hb₁, r₁, hh₁, k₁, -⟩ := place_region hm.region hh hc₁ he₁
    obtain ⟨rfl, hb₂, r₂, hh₂, k₂, -⟩ := place_region r₁ hh₁ hc₂ he₂
    obtain ⟨hlt₁, rfl⟩ := store_eq_ok hn₁
    obtain ⟨hlt₂, rfl⟩ := store_eq_ok hn₂
    have hle := hm.kept.brk_le
    simp only at hb₁ hb₂ hlt₁ hlt₂ hle
    have hnew₁ : m.brk ∈ C := hm.region.fresh_mem _ le_rfl
    have hnew₂ : m₂.brk ∈ C := r₁.fresh_mem _ le_rfl
    refine ⟨⟨r₂, (hm.kept.trans k₁).trans k₂, ?_, ?_, ?_⟩, hh₂⟩
    · apply headsIn_setSlot (headsIn_setSlot hm.headsIn _)
      · intro head' he
        rw [Option.some.injEq] at he
        exact he ▸ hnew₂
      · intro head' he
        rw [Option.some.injEq] at he
        exact he ▸ hnew₁
    · intro j hj
      have h1 : j ≠ i * 2 := by omega
      have h2 : j ≠ i * 2 + 1 := by omega
      simpa [Hash.setSlot, h1, h2] using hm.later j (by omega)
    · intro a ha hlt
      simp only at hlt
      rw [hb₂, hb₁] at hlt
      rcases Nat.lt_or_ge a m.brk with hlt' | hge
      · obtain ⟨j, hj, head', hs, hae⟩ := hm.covered a ha hlt'
        have hj2 : ¬ 2 * i ≤ j := by
          intro hle
          rw [hm.later j hle] at hs
          simp at hs
        have h1 : j ≠ i * 2 := by omega
        have h2 : j ≠ i * 2 + 1 := by omega
        exact ⟨j, hj, head', by simpa [Hash.setSlot, h1, h2] using hs, hae⟩
      · rcases Nat.eq_or_lt_of_le hge with rfl | hgt
        · exact ⟨i * 2 + 1, hlt₁, .ofPtr m.brk, by simp [Hash.setSlot], rfl⟩
        · refine ⟨i * 2, hlt₂, .ofPtr m₂.brk, by simp [Hash.setSlot], ?_⟩
          change m₂.brk = a
          omega

private theorem hotringRehashInit_region {new : Hash} (r : Region C m) (hh : HeadsIn C h)
    (hr : hotringRehashInit m h = .ok (m', h', new)) :
    Region C m' ∧ Kept m m' ∧ HeadsIn C h' ∧ HeadsIn C new ∧
      ∀ a, m.brk ≤ a → a < m'.brk →
        ∃ j < new.size, ∃ head, new.slots j = some head ∧ head.addr = a := by
  obtain ⟨-, -, hr⟩ := bind_eq_ok.mp hr
  obtain ⟨half, -, hr⟩ := bind_eq_ok.mp hr
  obtain ⟨new₀, ha, hr⟩ := bind_eq_ok.mp hr
  obtain ⟨size, -, ha⟩ := bind_eq_ok.mp ha
  simp only [pure, Except.pure, Except.ok.injEq] at ha
  subst ha
  have hI := foldlM_range_invariant
    (P := fun i (s : Mem × Hash × Hash) ↦ Milestones C m s.1 s.2.2 i ∧ HeadsIn C s.2.1)
    (fun i s s' _ hP hs ↦ milestones_step hP.1 hP.2 hs)
    ⟨⟨r, .refl m, by simp [HeadsIn], fun _ _ ↦ rfl, by simp only; omega⟩, hh⟩ hr
  obtain ⟨hm, hh'⟩ := hI
  exact ⟨hm.region, hm.kept, hh', hm.headsIn, hm.covered⟩

private theorem storeNext_region {p : Nat} (r : Region C m) (hq : q ∈ C)
    (hr : storeNext m p q = .ok m') : Stays C m m' := by
  obtain ⟨r', k', b'⟩ := link_region (l := fun _ ↦ .ofPtr q) r (fun _ _ _ ↦ hq) hr
  exact ⟨r', k', b'⟩

private theorem rehashSplitStep_region {bits half i : Nat} {m₀ : Mem} {s s' : Mem × Hash}
    (hs : Stays C m₀ s.1 ∧ HeadsIn C s.2) (hr : rehashSplitStep bits half s i = .ok s') :
    Stays C m₀ s'.1 ∧ HeadsIn C s'.2 := by
  obtain ⟨m, h⟩ := s
  obtain ⟨slot, -, hr⟩ := bind_eq_ok.mp hr
  cases slot with
  | none =>
    simp only [pure, Except.pure, Except.ok.injEq] at hr
    exact hr ▸ hs
  | some head =>
    obtain ⟨⟨m₁, h₁, r1⟩, hg₁, hr⟩ := bind_eq_ok.mp hr
    obtain ⟨⟨m₂, h₂, r2⟩, hg₂, hr⟩ := bind_eq_ok.mp hr
    obtain ⟨hc₁, hh₁, hin₁⟩ := rawHashGet_region hs.1.region hs.2 hg₁
    have hR₁ := hs.1.region.of_sameCells hc₁
    obtain ⟨hc₂, hh₂, hin₂⟩ := rawHashGet_region hR₁ hh₁ hg₂
    have hR₂ := hR₁.of_sameCells hc₂
    simp only at hr
    split at hr
    · next a₁ a₂ hn₁ hn₂ =>
      obtain ⟨m₃, h3, hr⟩ := bind_eq_ok.mp hr
      obtain ⟨m₄, h4, hr⟩ := bind_eq_ok.mp hr
      simp only [pure, Except.pure, Except.ok.injEq] at hr
      subst hr
      have s₃ := storeNext_region hR₂ (hin₁.1 _ hn₁) h3
      have s₄ := storeNext_region s₃.region (hin₂.1 _ hn₂) h4
      refine ⟨⟨s₄.region, ?_, ?_⟩, hh₂⟩
      · exact ((((hs.1.kept.trans (.of_sameCells hc₁)).trans (.of_sameCells hc₂)).trans
          s₃.kept).trans s₄.kept)
      · rw [s₄.brk, s₃.brk, hc₂.brk, hc₁.brk, hs.1.brk]
    · simp at hr

/-- The milestones not freed yet are heads of the slots from `j` on. -/
private structure Freeing (C : Set Nat) (m₀ m₁ m : Mem) (new : Hash) (j : Nat) : Prop where
  stays : Stays C m₁ m
  headsIn : HeadsIn C new
  live : ∀ a, m₀.brk ≤ a → (m.node a).isSome →
    ∃ i, j ≤ i ∧ i < new.size ∧ ∃ head, new.slots i = some head ∧ head.addr = a

/-- `hotring_delete_head` frees the head of the slot and touches no other slot. -/
theorem hotringDeleteHead_region {j : Nat} {b : Bool} {head : Head} (r : Region C m)
    (hh : HeadsIn C h) (hs : h.slots j = some head)
    (hr : hotringDeleteHead m h j = .ok (m', h', b)) :
    Stays C m m' ∧ HeadsIn C h' ∧ h'.size = h.size ∧ m'.node head.addr = Option.none ∧
      ∀ i, i ≠ j → h'.slots i = h.slots i := by
  obtain ⟨slot, hslot, hr⟩ := bind_eq_ok.mp hr
  obtain ⟨hj, hslot⟩ := slot_eq_ok hslot
  rw [hs] at hslot
  subst hslot
  have hhead := hh j head hs
  obtain ⟨nd, hnd, hr⟩ := bind_eq_ok.mp hr
  have haddr := r.addr_mem hhead hnd
  simp only [pure, Except.pure] at hr
  split at hr
  · obtain ⟨m₁, h1, hr⟩ := bind_eq_ok.mp hr
    obtain ⟨h₁, h2, hr⟩ := bind_eq_ok.mp hr
    simp only [Except.ok.injEq, Prod.mk.injEq] at hr
    obtain ⟨rfl, rfl, -⟩ := hr
    obtain ⟨-, -, h1⟩ := bind_eq_ok.mp h1
    simp only [pure, Except.pure, Except.ok.injEq] at h1
    obtain ⟨-, -, h2⟩ := bind_eq_ok.mp h2
    simp only [pure, Except.pure, Except.ok.injEq] at h2
    subst h1 h2
    obtain ⟨r₁, k₁⟩ := free_region r head.addr
    refine ⟨⟨r₁, k₁, rfl⟩, headsIn_setSlot hh (by simp), rfl, by simp, ?_⟩
    intro i hi
    simp [Hash.setSlot, hi]
  · obtain ⟨h₁, h1, hr⟩ := bind_eq_ok.mp hr
    obtain ⟨-, rfl⟩ := store_eq_ok h1
    obtain ⟨⟨m₁, prev⟩, hl, hr⟩ := bind_eq_ok.mp hr
    have hm₁ : m₁ = m := by
      refine listForEach_invariant (C := C) (I := fun m₁ _ ↦ m₁ = m) (fun m₂ s hI ↦ hI ▸ r) ?_ ?_
        rfl hhead hl
      · intro m₂ pos s m₃ s' hI _ hb
        simp at hb
      · intro m₂ pos s m₃ s' hI _ hb
        simp only [Except.ok.injEq, ForInStep.yield.injEq, Prod.mk.injEq] at hb
        exact hb.1 ▸ hI
    subst hm₁
    cases prev with
    | none => simp at hr
    | some prev =>
      obtain ⟨m₂, h2, hr⟩ := bind_eq_ok.mp hr
      obtain ⟨m₃, h3, hr⟩ := bind_eq_ok.mp hr
      simp only [Except.ok.injEq, Prod.mk.injEq] at hr
      obtain ⟨rfl, rfl, -⟩ := hr
      obtain ⟨r₃, k₃, b₃, hfree⟩ := listDel_free_region r hhead h2 h3
      refine ⟨⟨r₃, k₃, b₃⟩, ?_, rfl, hfree, ?_⟩
      · apply headsIn_setSlot hh
        intro head' he
        rw [Option.some.injEq] at he
        exact he ▸ haddr
      · intro i hi
        simp [Hash.setSlot, hi]

private theorem rehashDeleteStep_region {m₀ m₁ : Mem} {j : Nat} {s s' : Mem × Hash}
    (hI : Freeing C m₀ m₁ s.1 s.2 j) (hr : rehashDeleteStep s j = .ok s') :
    Freeing C m₀ m₁ s'.1 s'.2 (j + 1) := by
  obtain ⟨m, new⟩ := s
  obtain ⟨slot, hslot, hr⟩ := bind_eq_ok.mp hr
  have hs := (slot_eq_ok hslot).2
  cases slot with
  | none =>
    simp only [pure, Except.pure, Except.ok.injEq] at hr
    subst hr
    refine ⟨hI.stays, hI.headsIn, ?_⟩
    intro a ha hl
    obtain ⟨i, hji, hi, head, hh, hae⟩ := hI.live a ha hl
    have hne : i ≠ j := by
      rintro rfl
      rw [hs] at hh
      simp at hh
    exact ⟨i, by omega, hi, head, hh, hae⟩
  | some head =>
    obtain ⟨⟨m₂, new₂, b⟩, hd, hr⟩ := bind_eq_ok.mp hr
    simp only [pure, Except.pure, Except.ok.injEq] at hr
    subst hr
    obtain ⟨hst, hhin, hsz, hfree, hslots⟩ :=
      hotringDeleteHead_region hI.stays.region hI.headsIn hs hd
    refine ⟨⟨hst.region, hI.stays.kept.trans hst.kept, hst.brk.trans hI.stays.brk⟩, hhin, ?_⟩
    intro a ha hl
    obtain ⟨i, hji, hi, head', hh, hae⟩ := hI.live a ha (hst.live hl)
    have hne : i ≠ j := by
      rintro rfl
      rw [hs, Option.some.injEq] at hh
      rw [← hae, ← hh, hfree] at hl
      simp at hl
    exact ⟨i, by omega, hsz ▸ hi, head', by rw [hslots i hne, hh], hae⟩

private theorem displayStep_mem {i : Nat} (r : Region C m) (hh : HeadsIn C h)
    (hr : displayStep h m i = .ok m') : m' = m := by
  obtain ⟨slot, hslot, hr⟩ := bind_eq_ok.mp hr
  cases slot with
  | none =>
    simp only [pure, Except.pure, Except.ok.injEq] at hr
    exact hr.symm
  | some head =>
    obtain ⟨⟨m₁, u⟩, hl, hr⟩ := bind_eq_ok.mp hr
    simp only [pure, Except.pure, Except.ok.injEq] at hr
    subst hr
    refine listForEach_invariant (C := C) (I := fun m₁ _ ↦ m₁ = m) (fun m₂ s hI ↦ hI ▸ r) ?_ ?_
      rfl (hh i head (slot_eq_ok hslot).2) hl
    · intro m₂ pos s m₃ s' hI _ hb
      simp at hb
    · intro m₂ pos s m₃ s' hI _ hb
      simp only [Except.ok.injEq, ForInStep.yield.injEq, Prod.mk.injEq] at hb
      exact hb.1 ▸ hI

/-- The last loop stays in every region of its heads. -/
theorem deleteHeads_region {js : List Nat} {s s' : Mem × Hash} (r : Region C s.1)
    (hh : HeadsIn C s.2) (hr : js.foldlM rehashDeleteStep s = .ok s') :
    Stays C s.1 s'.1 ∧ HeadsIn C s'.2 := by
  refine foldlM_invariant (P := fun t : Mem × Hash ↦ Stays C s.1 t.1 ∧ HeadsIn C t.2) ?_
    ⟨⟨r, .refl s.1, rfl⟩, hh⟩ hr
  rintro ⟨m, h⟩ j t ⟨hst, hin⟩ hstep
  obtain ⟨slot, hslot, hstep⟩ := bind_eq_ok.mp hstep
  cases slot with
  | none =>
    simp only [pure, Except.pure, Except.ok.injEq] at hstep
    exact hstep ▸ ⟨hst, hin⟩
  | some head =>
    obtain ⟨⟨m₁, h₁, b⟩, hd, hstep⟩ := bind_eq_ok.mp hstep
    simp only [pure, Except.pure, Except.ok.injEq] at hstep
    subst hstep
    obtain ⟨hst₁, hin₁, -⟩ := hotringDeleteHead_region hst.region hin (slot_eq_ok hslot).2 hd
    exact ⟨⟨hst₁.region, hst.kept.trans hst₁.kept, hst₁.brk.trans hst.brk⟩, hin₁⟩

theorem display_region (r : Region C m) (hh : HeadsIn C h) (hr : display m h = .ok m') :
    m' = m := by
  refine foldlM_invariant (P := fun m₁ ↦ m₁ = m) ?_ rfl hr
  rintro b i b' rfl hb
  exact displayStep_mem r hh hb

/-- A rehash stays in every region, keeps the data of the old nodes that it does not free,
and leaves no new node behind. -/
theorem hotringRehash_region (r : Region C m) (hh : HeadsIn C h)
    (hr : hotringRehash m h = .ok (m', h')) :
    Region C m' ∧ HeadsIn C h' ∧ Kept m m' ∧ ∀ a, m.brk ≤ a → m'.node a = Option.none := by
  obtain ⟨⟨m₁, h₁, new⟩, hi, hr⟩ := bind_eq_ok.mp hr
  obtain ⟨half, -, hr⟩ := bind_eq_ok.mp hr
  obtain ⟨⟨m₂, h₂⟩, hsp, hr⟩ := bind_eq_ok.mp hr
  obtain ⟨⟨m₃, new₁⟩, hd, hr⟩ := bind_eq_ok.mp hr
  obtain ⟨m₄, hdis, hr⟩ := bind_eq_ok.mp hr
  simp only [pure, Except.pure, Except.ok.injEq, Prod.mk.injEq] at hr
  obtain ⟨rfl, rfl⟩ := hr
  obtain ⟨r₁, k₁, hh₁, hnew, hcov⟩ := hotringRehashInit_region r hh hi
  have hS := foldlM_invariant (P := fun s : Mem × Hash ↦ Stays C m₁ s.1 ∧ HeadsIn C s.2)
    (fun s i s' hs hstep ↦ rehashSplitStep_region hs hstep) ⟨⟨r₁, .refl m₁, rfl⟩, hh₁⟩ hsp
  have hlive (a : Nat) (ha : m.brk ≤ a) (hl : (m₂.node a).isSome) :
      ∃ i, 0 ≤ i ∧ i < new.size ∧ ∃ head, new.slots i = some head ∧ head.addr = a := by
    obtain ⟨nd, hnd⟩ := Option.isSome_iff_exists.mp hl
    have hlt := Mem.lt_brk_of_node hnd
    rw [hS.1.brk] at hlt
    obtain ⟨i, hi, hs⟩ := hcov a ha hlt
    exact ⟨i, Nat.zero_le i, hi, hs⟩
  have hF := foldlM_range_invariant (b := (m₂, new))
    (P := fun j (s : Mem × Hash) ↦ Freeing C m m₂ s.1 s.2 j ∧ s.2.size = new.size)
    (fun j s s' _ hP hstep ↦
      ⟨rehashDeleteStep_region hP.1 hstep, (rehashDeleteStep_shape hstep).size.trans hP.2⟩)
    ⟨⟨⟨hS.1.region, .refl m₂, rfl⟩, hnew, hlive⟩, rfl⟩ hd
  obtain rfl := display_region hF.1.stays.region hF.1.headsIn hdis
  refine ⟨hF.1.stays.region, hF.1.headsIn, (k₁.trans hS.1.kept).trans hF.1.stays.kept, ?_⟩
  intro a ha
  by_contra hn
  obtain ⟨j, hj, hlt, -⟩ := hF.1.live a ha (Option.isSome_iff_ne_none.mpr hn)
  rw [hF.2] at hlt
  exact absurd hlt (not_lt.mpr hj)

/-- A get creates no node and stays in every region. -/
theorem hashGet_region {s s' : State} {e : Int} {g : GetResult} (r : Region C s.mem)
    (hh : HeadsIn C s.hash) (hr : hashGet D s q = .ok (s', e, g)) :
    Region C s'.mem ∧ HeadsIn C s'.hash ∧ Kept s.mem s'.mem ∧
      ∀ a, s.mem.brk ≤ a → s'.mem.node a = Option.none := by
  obtain ⟨m₁, h₁, hg, hcase⟩ := hashGet_cases hr
  obtain ⟨hs₁, hh₁, -⟩ := rawHashGet_region r hh hg
  have hnone {m₂ : Mem} (hs : s.mem.SameCells m₂) (a : Nat) (ha : s.mem.brk ≤ a) :
      m₂.node a = Option.none := m₂.fresh a (by rw [hs.brk]; exact ha)
  rcases hcase with ⟨hm, hh'⟩ | ⟨i, t, -, -, hsh⟩
  · rw [hm, hh']
    exact ⟨r.of_sameCells hs₁, hh₁, .of_sameCells hs₁, hnone hs₁⟩
  · obtain ⟨m₂, h₂, ret, hhead, hret⟩ := hotspotShift_cases hsh
    obtain ⟨hs₂, hh₂⟩ := hotspotShiftHead_region (r.of_sameCells hs₁) hh₁ hhead
    have hs := hs₁.trans hs₂
    rcases hret with ⟨-, hm, hh'⟩ | ⟨-, hre⟩
    · rw [hm, hh']
      exact ⟨r.of_sameCells hs, hh₂, .of_sameCells hs, hnone hs⟩
    · obtain ⟨r₃, hh₃, k₃, hn₃⟩ := hotringRehash_region (r.of_sameCells hs) hh₂ hre
      exact ⟨r₃, hh₃, (Kept.of_sameCells hs).trans k₃, fun a ha ↦ hn₃ a (by rw [hs.brk]; exact ha)⟩

end Jeopardy.Hotring
