import Jeopardy.Hotring.Access
import Jeopardy.Lib.Distance

/-!
# The node a hot-spot shift picks

Links go forward only, so the hops from a head to a node are counted around the ring. The
incomes take the plain difference of the positions instead: the remainder of a number smaller
than the ring's length is the number itself. So with exact quotients the shift moves the head
to the lower median of the counters, which is the best head only by luck.
-/

namespace Jeopardy.Hotring

open Rings Fault Distance

variable {m : Mem} {xs : List Nat}

/-- The counters of a ring by position. -/
def counterAt (counters : List Nat) (i : Nat) : Nat := counters.getD i 0

/-- The remainder in the incomes is the difference of the positions. -/
theorem natAbs_tmod_sub {i t n : Nat} (hi : i < n) (ht : t < n) :
    (Int.tmod ((i : Int) - (t : Int)) (n : Int)).natAbs = ((i : Int) - t).natAbs := by
  rw [Int.natAbs_tmod, Int.natAbs_natCast, Nat.mod_eq_of_lt (by omega)]

/-! ### Exact incomes -/

/-- The income of a node is its cost on the line over the total counter. -/
theorem income_eq (total : ℚ) (counters : List Nat) {t : Nat} (ht : t < counters.length) :
    income total counters t = linearCost (counterAt counters) counters.length t / total := by
  have hsum (n : Nat) (hn : n ≤ counters.length) : (List.range n).foldl (fun acc i ↦
      DoubleArith.add acc (DoubleArith.mul
        (DoubleArith.div (DoubleArith.ofNat (counters.getD i 0)) total)
        (DoubleArith.ofNat (Int.tmod ((i : Int) - (t : Int)) (counters.length : Int)).natAbs)))
      (DoubleArith.ofNat 0 : ℚ)
      = ((∑ i ∈ Finset.range n, counterAt counters i * ((i : Int) - t).natAbs : Nat) : ℚ)
        / total := by
    induction n with
    | zero => simp [DoubleArith.ofNat]
    | succ n ih =>
      rw [List.range_succ, List.foldl_append, ih (by omega), List.foldl_cons, List.foldl_nil,
        natAbs_tmod_sub (by omega) ht, Finset.sum_range_succ]
      simp only [DoubleArith.add, DoubleArith.mul, DoubleArith.div, DoubleArith.ofNat]
      rw [Nat.cast_add, Nat.cast_mul, add_div, counterAt]
      ring
  exact hsum counters.length le_rfl

/-- `t` is the first of the first `j` nodes with the least income. -/
def Least (total : ℚ) (counters : List Nat) (j : Nat) (s : ℚ × Nat × ℚ) : Prop :=
  s.2.1 < j ∧ s.1 = income total counters s.2.1 ∧ s.2.2 = income total counters 0 ∧
    (∀ t < j, income total counters s.2.1 ≤ income total counters t) ∧
    ∀ t < s.2.1, income total counters s.2.1 < income total counters t

/-- The selection finds the first of the nodes with the least income. -/
theorem findHottest_least {total : ℚ} {counters : List Nat} (hpos : 0 < counters.length)
    (hlt : ∀ t < counters.length, income total counters t < 1000000000) :
    Least total counters counters.length (findHottest total counters) := by
  have hfold (j : Nat) (hj : j + 1 ≤ counters.length) : Least total counters (j + 1)
      ((List.range (j + 1)).foldl (fun (s : ℚ × Nat × ℚ) t ↦
        let cur := income total counters t
        let head_income := if t = 0 then cur else s.2.2
        if DoubleArith.lt cur s.1 then (cur, t, head_income) else (s.1, s.2.1, head_income))
        (DoubleArith.ofNat 1000000000, 0, DoubleArith.ofNat 0)) := by
    induction j with
    | zero =>
      have h0 := hlt 0 hpos
      rw [Nat.zero_add, List.range_one, List.foldl_cons, List.foldl_nil]
      simp only [DoubleArith.lt, DoubleArith.ofNat, Nat.cast_ofNat, decide_eq_true_eq, if_pos h0,
        ↓reduceIte]
      refine ⟨Nat.one_pos, rfl, rfl, ?_, fun t ht ↦ absurd ht (Nat.not_lt_zero t)⟩
      intro t ht
      rw [Nat.lt_one_iff.mp ht]
    | succ j ih =>
      rw [List.range_succ, List.foldl_append, List.foldl_cons, List.foldl_nil]
      have hs := ih (by omega)
      generalize (List.range (j + 1)).foldl _ _ = s at hs ⊢
      obtain ⟨hs, hv, hh, hle, hfirst⟩ := hs
      simp only [DoubleArith.lt, decide_eq_true_eq, if_neg (Nat.succ_ne_zero j), hv, hh]
      split
      · next hcur =>
        refine ⟨Nat.lt_succ_self _, rfl, rfl, ?_, ?_⟩
        · intro t ht
          rcases Nat.lt_succ_iff_lt_or_eq.mp ht with ht | rfl
          · exact hcur.le.trans (hle t ht)
          · exact le_rfl
        · intro t ht
          exact hcur.trans_le (hle t ht)
      · next hcur =>
        refine ⟨hs.trans (Nat.lt_succ_self _), rfl, rfl, ?_, hfirst⟩
        intro t ht
        rcases Nat.lt_succ_iff_lt_or_eq.mp ht with ht | rfl
        · exact hle t ht
        · exact not_lt.mp hcur
  obtain ⟨j, hj⟩ : ∃ j, counters.length = j + 1 := ⟨counters.length - 1, by omega⟩
  have h := hfold j hj.ge
  rw [← hj] at h
  exact h

/-! ### The head after the shift -/

/-- With exact quotients a shift moves the head to the lower median of the counters. -/
theorem doHotspotShift_median {head : Head} (hring : IsRing m.next (head.addr :: xs))
    (hfits : xs.length < countersSize) (hN : head.counter ≠ 0)
    (hlt : ∀ t < xs.length + 1,
      income (head.counter.toNat : ℚ) ((head.addr :: xs).map m.counter) t < 1000000000) :
    ∃ t m' head' ret, IsMedian (counterAt ((head.addr :: xs).map m.counter)) (xs.length + 1) t ∧
      doHotspotShift ℚ m head = .ok (m', head', ret) ∧
      head'.addr = (head.addr :: xs).getD t 0 := by
  have hlen : ((head.addr :: xs).map m.counter).length = xs.length + 1 := by
    rw [List.length_map, List.length_cons]
  obtain ⟨m', -, hr⟩ := doHotspotShift_ring (D := ℚ) hring hfits
  have hpos : 0 < ((head.addr :: xs).map m.counter).length := by omega
  have hleast := findHottest_least hpos (hlen.symm ▸ hlt)
  rw [selection,
    show (DoubleArith.ofNat head.counter.toNat : ℚ) = head.counter.toNat from rfl] at hr
  rw [hlen] at hleast
  generalize (head.addr :: xs).map m.counter = counters at *
  generalize findHottest (head.counter.toNat : ℚ) counters = sel at *
  obtain ⟨least, t, own⟩ := sel
  obtain ⟨ht, hv, hh, hle, hfirst⟩ := hleast
  simp only at ht hv hh hle hfirst
  have hpos : (0 : ℚ) < head.counter.toNat := by
    rw [Nat.cast_pos, Nat.pos_iff_ne_zero]
    exact fun h0 ↦ hN (BitVec.eq_of_toNat_eq h0)
  refine ⟨t, m', (settleHead (head.addr :: xs) head (least, t, own)).1,
    (settleHead (head.addr :: xs) head (least, t, own)).2, isMedian_of_first_least ht ?_ ?_, hr, ?_⟩
  · intro s hs
    have h := hle s hs
    rwa [income_eq _ _ (hlen ▸ ht), income_eq _ _ (hlen ▸ hs), div_le_div_iff_of_pos_right hpos,
      Nat.cast_le, hlen] at h
  · intro s hs
    have h := hfirst s hs
    rwa [income_eq _ _ (hlen ▸ ht), income_eq _ _ (hlen ▸ hs.trans ht),
      div_lt_div_iff_of_pos_right hpos, Nat.cast_lt, hlen] at h
  · rcases Nat.eq_zero_or_pos t with rfl | hpos
    · exact settleHead_stay (decide_eq_true (hv.trans hh.symm))
    · have hne : least ≠ own := by
        rw [hv, hh]
        exact (hfirst 0 hpos).ne
      have hsel : DoubleArith.eq (least, t, own).1 (least, t, own).2.2 = false :=
        decide_eq_false hne
      rw [settleHead_move hsel, hottestNode, if_neg hpos.ne']
      rfl

/-- A shift leaves the head at a node from which the fewest hops forward are expected, and it
moves the head only if there is a better one. -/
def ShiftsToBest (m : Mem) (head : Head) (xs : List Nat) (c : Nat → Nat) : Prop :=
  ∃ m' head' ret t, doHotspotShift ℚ m head = .ok (m', head', ret) ∧ t < xs.length + 1 ∧
    head'.addr = (head.addr :: xs).getD t 0 ∧
    (∀ s < xs.length + 1, cyclicCost c (xs.length + 1) t ≤ cyclicCost c (xs.length + 1) s) ∧
    (t ≠ 0 → ∃ s < xs.length + 1, cyclicCost c (xs.length + 1) s < cyclicCost c (xs.length + 1) 0)

/-- The lower median of the weights is best on the ring, as the weights before the positions
say. -/
def MedianBest (c : Nat → Nat) (n : Nat) : Prop :=
  ∃ t, IsMedian c n t ∧
    (∀ s < n, n * before c t + s * before c n ≤ n * before c s + t * before c n) ∧
    (t ≠ 0 → ∃ s < n, n * before c s < s * before c n)

/-- **Best head.** With exact quotients below the sentinel, a shift moves the head of a ring to
the best node exactly when the ring fits the array and the lower median of its counters is
best. -/
theorem shiftsToBest_iff {head : Head} (hring : IsRing m.next (head.addr :: xs))
    (hN : head.counter ≠ 0) (hlt : ∀ t < xs.length + 1,
      income (head.counter.toNat : ℚ) ((head.addr :: xs).map m.counter) t < 1000000000) :
    ShiftsToBest m head xs (counterAt ((head.addr :: xs).map m.counter)) ↔
      xs.length < countersSize ∧
        MedianBest (counterAt ((head.addr :: xs).map m.counter)) (xs.length + 1) := by
  have hzero {c : Nat → Nat} {n s : Nat} (hs : s ≤ n) :
      cyclicCost c n s < cyclicCost c n 0 ↔ n * before c s < s * before c n := by
    rw [← not_le, cyclicCost_le_iff hs (Nat.zero_le n), ← not_le]
    simp [before]
  constructor
  · rintro ⟨m', head', ret, t, hr, ht, haddr, hbest, hmove⟩
    obtain ⟨ys, hring', hfits⟩ := ring_of_doHotspotShift hr
    rw [hring'.unique hring] at hfits
    obtain ⟨u, m₂, head₂, ret₂, hmed, hr₂, haddr₂⟩ := doHotspotShift_median hring hfits hN hlt
    rw [hr, Except.ok.injEq, Prod.mk.injEq, Prod.mk.injEq] at hr₂
    obtain ⟨-, rfl, -⟩ := hr₂
    have hu : u < (head.addr :: xs).length := hmed.lt
    have ht' : t < (head.addr :: xs).length := ht
    obtain rfl : t = u := by
      rw [haddr, List.getD_eq_getElem _ _ ht', List.getD_eq_getElem _ _ hu] at haddr₂
      exact (hring.nodup.getElem_inj_iff).mp haddr₂
    refine ⟨hfits, t, hmed, ?_, ?_⟩
    · intro s hs
      exact (cyclicCost_le_iff hs.le ht.le).mp (hbest s hs)
    · intro h0
      obtain ⟨s, hs, hlt⟩ := hmove h0
      exact ⟨s, hs, (hzero hs.le).mp hlt⟩
  · rintro ⟨hfits, u, hmed', hbest, hmove⟩
    obtain ⟨t, m', head', ret, hmed, hr, haddr⟩ := doHotspotShift_median hring hfits hN hlt
    obtain rfl := hmed.unique hmed'
    refine ⟨m', head', ret, t, hr, hmed.lt, haddr, ?_, ?_⟩
    · intro s hs
      exact (cyclicCost_le_iff hs.le hmed.lt.le).mpr (hbest s hs)
    · intro h0
      obtain ⟨s, hs, hlt⟩ := hmove h0
      exact ⟨s, hs, (hzero hs.le).mpr hlt⟩

/-- The ring of three new nodes: its middle node is no better than the others. -/
theorem shiftsToBest_iff_three :
    ∃ s, run ℚ ⟨.init, ⟨4, 2, 4, fun _ ↦ none⟩, 0⟩ [.insert 4 1, .insert 5 1, .insert 6 1] = .ok s ∧
      (ShiftsToBest s.mem ⟨1, 2, false⟩ [2, 3] (counterAt ([1, 2, 3].map s.mem.counter)) ↔
        [2, 3].length < countersSize ∧
          MedianBest (counterAt ([1, 2, 3].map s.mem.counter)) 3) := by
  let head : Head := ⟨1, 2, false⟩
  refine ⟨_, rfl, @shiftsToBest_iff _ [2, 3] head ⟨by decide, rfl, rfl, rfl⟩ (by decide) ?_⟩
  decide +kernel

/-- The calls before the shift: the nodes of keys 4, 5 and 6 are then counted 3, 2 and 3 times. -/
def unbalanced : List Call :=
  [.insert 4 1, .insert 5 1, .insert 6 1, .get 4, .get 4, .get 5, .get 6]

/-- What there is to see of a shift: how the key was found, the requests counted, the head
shifted, the links and counters of its ring, and the head afterwards. -/
structure ShiftView where
  ret : HashGet
  nr_request : Int
  head : Head
  links : List (Option Nat)
  counters : List Nat
  moved : Nat
deriving DecidableEq

/-- The shift of a get of key 6 after `unbalanced`. -/
def unbalancedShift : Except Fault ShiftView := do
  let s ← run ℚ ⟨.init, ⟨4, 2, 4, fun _ ↦ none⟩, 0⟩ unbalanced
  let (m, h, r) ← rawHashGet s.mem s.hash 6
  let (index, _) ← hashCode h 6
  match ← h.slot index with
  | none => .error .nullDeref
  | some head =>
    let (_, head', _) ← doHotspotShift ℚ m head
    return ⟨r.ret, bumpRequest s.nr_request, head, [1, 2, 3].map m.next, [1, 2, 3].map m.counter,
      head'.addr⟩

/-- A get of key 6 moves the head to the worst node of the ring. -/
theorem shift_to_worst :
    ∃ s m head, run ℚ ⟨.init, ⟨4, 2, 4, fun _ ↦ none⟩, 0⟩ unbalanced = .ok s ∧
      Shifts s 6 m head ∧ IsRing m.next (head.addr :: [2, 3]) ∧ head.counter ≠ 0 ∧
      (∀ t < [2, 3].length + 1,
        income (head.counter.toNat : ℚ) ((head.addr :: [2, 3]).map m.counter) t < 1000000000) ∧
      ¬ ShiftsToBest m head [2, 3] (counterAt ((head.addr :: [2, 3]).map m.counter)) := by
  have hobs : unbalancedShift = .ok ⟨.accessCold, 5, ⟨1, 5, false⟩, [some 2, some 3, some 1],
      [3, 2, 3], 2⟩ := by decide +kernel
  obtain ⟨s, hrun, hobs⟩ := bind_eq_ok.mp hobs
  obtain ⟨⟨m, h, r⟩, hget, hobs⟩ := bind_eq_ok.mp hobs
  obtain ⟨⟨index, tag⟩, hcode, hobs⟩ := bind_eq_ok.mp hobs
  obtain ⟨slot, hslot, hobs⟩ := bind_eq_ok.mp hobs
  cases slot with
  | none => cases hobs
  | some head =>
    obtain ⟨⟨m', head', ret⟩, hshift, hobs⟩ := bind_eq_ok.mp hobs
    simp only [pure, Except.pure, Except.ok.injEq, ShiftView.mk.injEq] at hobs
    obtain ⟨hret, hreq, rfl, hlinks, hcounters, haddr'⟩ := hobs
    simp only [List.map_cons, List.map_nil, List.cons.injEq, and_true] at hlinks
    obtain ⟨h1, h2, h3⟩ := hlinks
    refine ⟨s, m, _, hrun, ⟨h, r, index, tag, hget, hret, hreq.ge, hcode, hslot⟩,
      ⟨by decide, h1, h2, h3⟩, by decide, ?_, ?_⟩
    · rw [hcounters]
      decide +kernel
    · rw [hcounters]
      rintro ⟨m₂, head₂, ret₂, t, hr, ht, haddr, hbest, -⟩
      rw [hshift, Except.ok.injEq, Prod.mk.injEq, Prod.mk.injEq] at hr
      obtain ⟨-, rfl, -⟩ := hr
      have h1 : t = 1 := by
        rw [haddr'] at haddr
        have hcase : ∀ t < 3, 2 = [1, 2, 3].getD t 0 → t = 1 := by decide
        exact hcase t ht haddr
      have hworse := hbest 2 (by decide)
      rw [h1] at hworse
      exact absurd hworse (by decide +kernel)

end Jeopardy.Hotring
