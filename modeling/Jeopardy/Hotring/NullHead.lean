import Jeopardy.Hotring.Income
import Jeopardy.Hotring.Binary64
import Jeopardy.Hotring.Counters
import Jeopardy.Hotring.Tally

/-!
# Losing the head

The total counter is a bit-field of 15 bits that every access to the bucket increments, and
nothing resets it before the bucket is shifted. After 32768 accesses it is 0 again, every income
is then a NaN, no income is below the sentinel, and the second loop finds no node. The head is
lost as well when every income reaches the sentinel. Otherwise the shift leaves it on its ring.
-/

namespace Jeopardy.Hotring

open Rings Fault Distance

variable {D : Type} [DoubleArith D] {m m' : Mem} {s : State} {key : Nat} {calls : List Call}

/-- A shift leaves the head on its ring, unless no income is below the sentinel. -/
theorem doHotspotShift_head [LawfulDouble D] {head head' : Head} {ret : HotspotShift}
    (hr : doHotspotShift D m head = .ok (m', head', ret)) :
    ∃ xs, IsRing m.next (head.addr :: xs) ∧ xs.length < countersSize ∧
      (head'.addr ∈ head.addr :: xs ∨ ∀ t < xs.length + 1, DoubleArith.lt
        (income (DoubleArith.ofNat head.counter.toNat : D) ((head.addr :: xs).map m.counter) t)
        (DoubleArith.ofNat 1000000000) = false) := by
  obtain ⟨xs, hring, hfits⟩ := ring_of_doHotspotShift hr
  refine ⟨xs, hring, hfits, ?_⟩
  obtain ⟨m₂, -, hr₂⟩ := doHotspotShift_ring (D := D) hring hfits
  rw [hr, Except.ok.injEq, Prod.mk.injEq] at hr₂
  have hhead : head' = (settleHead (head.addr :: xs) head (selection D m head xs)).1 :=
    congrArg Prod.fst hr₂.2
  have hsel := findHottest_selected (DoubleArith.ofNat head.counter.toNat : D)
    ((head.addr :: xs).map m.counter)
  rw [List.length_map, List.length_cons] at hsel
  rw [hhead]
  cases heq : DoubleArith.eq (selection D m head xs).1 (selection D m head xs).2.2 with
  | true =>
    left
    rw [settleHead_stay heq]
    exact List.mem_cons_self
  | false =>
    rw [settleHead_move heq]
    rcases hsel with ⟨-, -, hu⟩ | ⟨-, -, he⟩ | ⟨h1, h2⟩
    · exact Or.inr hu
    · rw [selection, he] at heq
      cases heq
    · left
      rw [selection, hottestNode, if_neg (Nat.ne_of_gt h1)]
      rw [List.getD_eq_getElem _ _ (show _ < (head.addr :: xs).length from h2)]
      exact List.getElem_mem _

/-- The total counter of a shift that `hash_get` of `key` calls is not 0, and the shift leaves
the head on its ring. -/
def HeadLaw (D : Type) [DoubleArith D] (s : State) (key : Nat) : Prop :=
  ∀ m head, Shifts s key m head → head.counter ≠ 0 ∧
    ∀ m' head' ret, doHotspotShift D m head = .ok (m', head', ret) →
      head'.addr ≠ 0 ∧ ∃ xs, IsRing m.next (head.addr :: xs) ∧ head'.addr ∈ head.addr :: xs

/-- Before `hash_get` of `key` the counter at the head of the bucket is not the largest of 15
bits; and if the bucket is shifted, its ring has a node whose cost on the line is less than the
sentinel times the total counter by at least one unit of the quotient. -/
def Weighed (s : State) (key : Nat) : Prop :=
  (∀ index tag head, hashCode s.hash key = .ok (index, tag) → s.hash.slots index = some head →
    head.counter.toNat ≠ 2 ^ 15 - 1) ∧
  ∀ m head xs, Shifts s key m head → IsRing m.next (head.addr :: xs) → xs.length < countersSize →
    ∃ t < xs.length + 1, linearCost (counterAt ((head.addr :: xs).map m.counter)) (xs.length + 1) t
      ≤ 999999999 * head.counter.toNat

/-- The total counter of a shift is one more than the counter before the get. -/
theorem Shifts.counter_ne_zero {head : Head} (hs : Shifts s key m head)
    (hw : ∀ index tag head, hashCode s.hash key = .ok (index, tag) →
      s.hash.slots index = some head → head.counter.toNat ≠ 2 ^ 15 - 1) : head.counter ≠ 0 := by
  obtain ⟨h, r, index, tag, hg, hret, -, hcode, hslot⟩ := hs
  rw [(rawHashGet_shape hg).hashCode] at hcode
  cases hold : s.hash.slots index with
  | none =>
    have hg' := hg
    rw [rawHashGet, hcode, ok_bind] at hg'
    obtain ⟨slot, hsl, hg'⟩ := bind_eq_ok.mp hg'
    obtain ⟨-, rfl⟩ := slot_eq_ok hsl
    rw [hold] at hg'
    simp only [pure, Except.pure, Except.ok.injEq, Prod.mk.injEq] at hg'
    rw [← hg'.2.2] at hret
    cases hret
  | some head₀ =>
    obtain ⟨-, hslot⟩ := slot_eq_ok hslot
    rw [rawHashGet_head hg hcode hold, Option.some.injEq] at hslot
    have hne := hw index tag head₀ hcode hold
    rw [← hslot]
    intro h0
    apply hne
    have h1 := congrArg BitVec.toNat h0
    have hlt := head₀.counter.isLt
    rw [BitVec.toNat_add] at h1
    change (head₀.counter.toNat + 1) % 2 ^ 15 = 0 at h1
    omega

/-- A node whose cost stays below the sentinel has an income below it. -/
theorem income_lt_sentinel [RoundedDouble D] {counters : List Nat} {N t : Nat} (hN : 0 < N)
    (hN' : N ≤ 2 ^ 53) (hc : ∀ i, counterAt counters i ≤ 2 ^ 53)
    (hlen : counters.length ≤ 100000) (ht : t < counters.length)
    (hcost : linearCost (counterAt counters) counters.length t ≤ 999999999 * N) :
    DoubleArith.lt (income (DoubleArith.ofNat N : D) counters t)
      (DoubleArith.ofNat 1000000000) = true := by
  have hpos : (0 : ℚ) < N := by exact_mod_cast hN
  have hE : (linearCost (counterAt counters) counters.length t : ℚ) / N ≤ 999999999 := by
    rw [div_le_iff₀ hpos]
    exact_mod_cast hcost
  obtain ⟨v, hv, herr⟩ := val_income (D := D) (B := 10 ^ 9) hN hN' hc hlen ht (by norm_num)
    (by norm_num) (hE.trans (by norm_num))
  rw [RoundedDouble.lt_iff hv (RoundedDouble.val_ofNat _ (by norm_num))]
  have hlen' : (counters.length : ℚ) ≤ 100000 := by exact_mod_cast hlen
  have hcoef : (counters.length : ℚ) * (10 ^ 9 / 2 ^ 50) ≤ 100000 * (10 ^ 9 / 2 ^ 50) :=
    mul_le_mul_of_nonneg_right hlen' (by norm_num)
  have hone : (100000 : ℚ) * (10 ^ 9 / 2 ^ 50) < 1 := by norm_num
  have hup := (abs_le.mp herr).2
  push_cast
  linarith

theorem counterAt_le (m : Mem) (ring : List Nat) (i : Nat) :
    counterAt (ring.map m.counter) i ≤ 2 ^ 53 := by
  have hlt (a : Nat) : m.counter a < 2 ^ 14 := by
    rw [Mem.counter]
    cases m.node a with
    | none => exact Nat.two_pow_pos 14
    | some nd => exact nd.list.counter.isLt
  rw [counterAt, List.getD_eq_getElem?_getD, List.getElem?_map]
  cases ring[i]? with
  | none => exact Nat.zero_le _
  | some a => exact (hlt a).le.trans (by norm_num)

/-- A get that finds the counters weighed keeps the head. -/
theorem Weighed.headLaw [LawfulDouble D] [RoundedDouble D] (hw : Weighed s key) :
    HeadLaw D s key := by
  intro m head hs
  have hne := hs.counter_ne_zero hw.1
  have hN : 0 < head.counter.toNat := by
    rw [Nat.pos_iff_ne_zero]
    exact fun h0 ↦ hne (BitVec.eq_of_toNat_eq h0)
  refine ⟨hne, ?_⟩
  intro m' head' ret hr
  obtain ⟨xs, hring, hfits, hon | hnone⟩ := doHotspotShift_head hr
  · obtain ⟨nd, hnd⟩ := Mem.node_of_ring hring hon
    exact ⟨Mem.ne_zero_of_node hnd, xs, hring, hon⟩
  · obtain ⟨t, ht, hcost⟩ := hw.2 m head xs hs hring hfits
    have hlen : ((head.addr :: xs).map m.counter).length = xs.length + 1 := by
      rw [List.length_map, List.length_cons]
    have hlt := income_lt_sentinel (D := D) hN
      (head.counter.isLt.le.trans (by norm_num)) (counterAt_le m (head.addr :: xs))
      (by rw [hlen]; exact hfits) (hlen.symm ▸ ht) (hlen.symm ▸ hcost)
    rw [hnone t ht] at hlt
    cases hlt

/-! ### Weighed by the tally -/

section Tally

variable {h : Hash} {ring : Nat → List Nat} {ks : List Nat} {t : Tally} {head : Head} {i : Nat}

theorem Tallied.length_le (T : Tallied m h ring t ks) (hi : i < h.size) :
    (ring i).length ≤ ks.length := by
  rw [← List.length_map (f := m.key)]
  apply (T.table.keys_nodup i hi).length_le_of_subset
  intro k hk
  obtain ⟨a, ha, rfl⟩ := List.mem_map.mp hk
  exact T.keys i hi a ha

theorem before_counterAt (l : List Nat) : before (counterAt l) l.length = l.sum := by
  induction l with
  | nil => rfl
  | cons x l ih =>
    rw [List.length_cons, before, Finset.sum_range_succ', List.sum_cons, Nat.add_comm, ← ih]
    rfl

/-- The counters of a ring add up to at most what its tally says. -/
theorem Tallied.sum_counter_le (T : Tallied m h ring t ks) (hi : i < h.size) :
    ((ring i).map m.counter).sum ≤ t.accesses i + ks.length := by
  refine le_trans ?_ (T.load_le i hi)
  rw [Tally.load, List.map_map]
  apply List.sum_le_sum
  intro a ha
  rw [T.node i hi a ha]
  exact Nat.mod_le _ _

/-- What a shift finds on a tallied table. -/
theorem Tallied.shifts (T : Tallied s.mem s.hash ring t ks) (hs : Shifts s key m head) :
    ∃ h xs, Tallied m h ring (t.access s.hash key (answer s key)) ks ∧
      (∀ q, h.index q = s.hash.index q) ∧ s.hash.index key < h.size ∧
      ring (s.hash.index key) = head.addr :: xs ∧ IsRing m.next (head.addr :: xs) ∧
      head.counter.toNat = h.accesses (s.hash.index key) ∧
      (t.access s.hash key (answer s key)).accesses (s.hash.index key)
        = t.accesses (s.hash.index key) + 1 := by
  obtain ⟨xs, hm, hx, hring⟩ := T.table.chained.shifts hs
  obtain ⟨h, r, index, tag, hg, hret, hreq, hcode, hslot⟩ := hs
  have hi := T.table.geometry.index_lt (T.table.geometry.lt_of_rawHashGet hg)
  obtain ⟨m₂, h₂, hg₂, -, hh⟩ :=
    T.table.chained.rawHashGet_spec (T.table.geometry.lt_of_rawHashGet hg)
  rw [hg, Except.ok.injEq, Prod.mk.injEq, Prod.mk.injEq] at hg₂
  obtain ⟨rfl, rfl, -⟩ := hg₂
  have hans : answer s key = r := by rw [answer, hg]
  have T₁ := T.access hg
  have hidx := (hh.rotated T.table.chained).index
  rw [T₁.table.geometry.hashCode_eq, Except.ok.injEq, Prod.mk.injEq] at hcode
  obtain ⟨rfl, -⟩ := hcode
  refine ⟨h, xs, hans ▸ T₁, hidx, hh.size ▸ hi, hx, hring, ?_, ?_⟩
  · rw [← hidx, accesses_of_slot (slot_eq_ok hslot).2]
  · rw [T.accesses_access hi, if_pos ⟨rfl, hx ▸ List.cons_ne_nil _ _⟩]

/-- The shift of a moderate get is far below the sentinel, and its total counter is exact. -/
theorem Tallied.cost_le (T : Tallied s.mem s.hash ring t ks) (hs : Shifts s key m head)
    (hfew : ks.length ≤ 30000) (hacc : t.accesses (s.hash.index key) < 2 ^ 15 - 1) :
    ∃ xs, ring (s.hash.index key) = head.addr :: xs ∧ IsRing m.next (head.addr :: xs) ∧
      xs.length < 30000 ∧ head.counter.toNat = t.accesses (s.hash.index key) + 1 ∧
      ∀ p < xs.length + 1, linearCost (counterAt ((head.addr :: xs).map m.counter))
        (xs.length + 1) p ≤ 999999999 * head.counter.toNat := by
  obtain ⟨h, xs, T₁, hidx, hi, hx, hring, hhead, hone⟩ := T.shifts hs
  have hcounter : head.counter.toNat = t.accesses (s.hash.index key) + 1 := by
    rw [hhead, T₁.head _ hi, hone, Nat.mod_eq_of_lt (by omega)]
  have hlen := T₁.length_le hi
  rw [hx, List.length_cons] at hlen
  have hsum := T₁.sum_counter_le hi
  rw [hx, hone, ← hcounter] at hsum
  refine ⟨xs, hx, hring, by omega, hcounter, ?_⟩
  intro p hp
  have hbefore : before (counterAt ((head.addr :: xs).map m.counter)) (xs.length + 1)
      = ((head.addr :: xs).map m.counter).sum := by
    rw [← before_counterAt, List.length_map, List.length_cons]
  -- at most 30000 nodes, each of whose finds is a search or an insertion
  calc linearCost (counterAt ((head.addr :: xs).map m.counter)) (xs.length + 1) p
      ≤ (xs.length + 1) * ((head.addr :: xs).map m.counter).sum := hbefore ▸ linearCost_le hp
    _ ≤ 30000 * (head.counter.toNat + 30000) := Nat.mul_le_mul (by omega) (by omega)
    _ ≤ 999999999 * head.counter.toNat := by omega

theorem Tallied.weighed (T : Tallied s.mem s.hash ring t ks) (hfew : ks.length ≤ 30000)
    (hi : s.hash.index key < s.hash.size)
    (hacc : t.accesses (s.hash.index key) < 2 ^ 15 - 1) : Weighed s key := by
  constructor
  · intro index tag head hcode hslot
    rw [T.table.geometry.hashCode_eq, Except.ok.injEq, Prod.mk.injEq] at hcode
    obtain ⟨rfl, -⟩ := hcode
    rw [← accesses_of_slot hslot, T.head _ hi, Nat.mod_eq_of_lt (by omega)]
    exact hacc.ne
  · intro m head xs hs hring _
    obtain ⟨ys, -, hring', -, -, hcost⟩ := T.cost_le hs hfew hacc
    obtain rfl := hring.unique hring'
    exact ⟨0, Nat.succ_pos _, hcost 0 (Nat.succ_pos _)⟩

end Tally

/-! ### Programs -/

/-- **Head kept.** In every program whose gets all find the counters weighed, no shift divides by
0 or loses the ring. -/
theorem headLaw_run [LawfulDouble D] [RoundedDouble D]
    (hw : AlongGets D s calls (fun _ ↦ Weighed)) :
    AlongGets D s calls (fun _ ↦ HeadLaw D) :=
  fun pre key s₁ hpre hrun ↦ (hw pre key s₁ hpre hrun).headLaw

/-- Three keys of one bucket; the fifth request is the fourth access to the bucket and shifts it,
with a total counter that divides without rounding. -/
def shiftedAtFour : List Call :=
  [.insert 4 1, .insert 5 1, .insert 6 1, .get 0, .get 4, .get 5, .get 6, .get 6, .get 5]

/-- The fifth request of `shiftedAtFour` shifts, and the head stays on its ring. -/
theorem headLaw_run_shifted_at_four :
    ∃ s s₁, start .init 0 4 2 = .ok s ∧ run ℚ s (shiftedAtFour.take 7) = .ok s₁ ∧
      (∃ m head, Shifts s₁ 6 m head) ∧ AlongGets ℚ s shiftedAtFour (fun _ ↦ HeadLaw ℚ) := by
  let s₀ : State := ⟨.init, ⟨4, 2, 4, fun _ ↦ none⟩, 0⟩
  have hs : start .init 0 4 2 = .ok s₀ := rfl
  have hshifts : (do
      let s ← run ℚ s₀ (shiftedAtFour.take 7)
      callsShift s 6) = .ok true := by decide +kernel
  obtain ⟨s₇, hrun₇, hshifts⟩ := bind_eq_ok.mp hshifts
  have hend : (do
      let s ← run ℚ s₀ shiftedAtFour
      return s.hash.k) = .ok 2 := by decide +kernel
  obtain ⟨s', hrun', hend⟩ := bind_eq_ok.mp hend
  refine ⟨s₀, s₇, hs, hrun₇, exists_shifts_iff.mpr hshifts, headLaw_run ?_⟩
  intro pre key s₁ hpre hrun
  have hpre' : pre <+: shiftedAtFour := (List.prefix_append _ _).trans hpre
  have hk₁ : s₁.hash.k = 2 := prefix_k_eq hpre' hrun' hrun (Except.ok.inj hend)
  have hn₁ : s₁.hash.n = 4 := by
    rcases run_shape hrun with hsh | hlt
    · exact hsh.n
    · exact absurd hk₁ hlt.ne'
  have hkey : key < 2 ^ s₁.hash.n := by
    have hmem : Call.get key ∈ shiftedAtFour := hpre.subset (by simp)
    rw [hn₁]
    simp only [shiftedAtFour, List.mem_cons, reduceCtorEq, Call.get.injEq, List.not_mem_nil,
      or_false, false_or] at hmem
    omega
  obtain ⟨t, hw⟩ := watched_iff_run.mpr hrun
  have hsub := insertedKeys_sublist hpre'
  obtain ⟨ring, T⟩ := exists_tallied hs (by decide) (by decide)
    (List.Nodup.sublist hsub (by decide)) (fun index steps hm ↦ by
      simpa [shiftedAtFour] using hpre'.subset hm) hw hk₁
  have hfew : (insertedKeys shiftedAtFour).length ≤ 30000 := by decide
  have hlen : pre.length ≤ 9 := hpre'.length_le
  exact T.weighed (hsub.length_le.trans hfew) (T.table.geometry.index_lt hkey)
    (((tally_le_length hw).1 _).trans_lt (by omega))

/-- Two keys of one bucket and 32767 gets of the one at its head. -/
def wrapping : List Call := insertions [4, 5] ++ List.replicate 32767 (.get 4)

/-- After `wrapping` a get of key 5 makes the counter 0, and the shift loses the ring. -/
theorem counter_wraps :
    ∃ s s₁, start .init 0 NBITS 2 = .ok s ∧ (∀ c ∈ wrapping, c.InsertOrGet) ∧
      run Float.Model s wrapping = .ok s₁ ∧ ¬ HeadLaw Float.Model s₁ 5 ∧
      ∃ m m' head head' ret, Shifts s₁ 5 m head ∧ head.counter = 0 ∧
        doHotspotShift Float.Model m head = .ok (m', head', ret) ∧ head'.addr = 0 := by
  let s₀ : State := ⟨.init, ⟨32, 2, 4, fun _ ↦ none⟩, 0⟩
  have hs : start .init 0 NBITS 2 = .ok s₀ := rfl
  have hc : ∀ c ∈ wrapping, c.InsertOrGet := insertOrGet_insertions_gets _ _ _
  have hkeys : ∀ key ∈ [4, 5], key < 2 ^ 32 ∧ key / 2 ^ (32 - 2) = 0 := by decide
  obtain ⟨s₁, hrun₁, hn₁, hk₁, hreq₁, hhead₁, hu, ring, hr₁⟩ :=
    run_insertions (D := Float.Model) hs (by decide) (by decide) (by decide) hkeys
  have hidx₁ (q : Nat) : s₁.hash.index q = q / 2 ^ 30 := by
    rw [Hash.index, Hash.bits, hn₁, hk₁, NBITS]
  obtain ⟨head, hslot, hkey⟩ := Option.map_eq_some_iff.mp hhead₁
  have t₁ := hr₁.table.chained
  obtain ⟨s₂, hrun₂, hm, hh, hreq₂, hslot₂⟩ := run_hotGets (D := Float.Model) t₁
    (show 4 < 2 ^ s₁.hash.n by rw [hn₁]; decide) (hslot.symm ▸ congrArg _ (hidx₁ 4)) hkey 32767
    hreq₁.ge (by rw [hreq₁]; decide)
  rw [hu 0 head hslot] at hslot₂
  have hrun : run Float.Model s₀ wrapping = .ok s₂ := by
    rw [wrapping, run_append, hrun₁, ok_bind, hrun₂]
  have hidx₂ (q : Nat) : s₂.hash.index q = q / 2 ^ 30 := by
    rw [(hh.rotated t₁).index, hidx₁]
  have hr₂ := hr₁.rotated hm (hh.rotated t₁)
  obtain ⟨m, hsh⟩ := hr₂.shifts (show 5 < 2 ^ s₂.hash.n by rw [hh.n, hn₁]; decide)
    (by rw [history_insertions (by decide) (by decide)]; simp) (hidx₂ 5 ▸ hidx₁ 4 ▸ hslot₂)
    (by rw [hm.key, hkey]; decide) (by rw [hreq₂, hreq₁]; decide)
  have h0 : (0 + BitVec.ofNat 15 32767 + 1 : BitVec 15) = 0 := by decide
  obtain ⟨ring', t', hcount⟩ : Counted s₂ wrapping :=
    counted_run hs (by decide) (by decide) hc hrun (hh.k.trans hk₁)
  obtain ⟨xs, -, hx, hring⟩ := t'.shifts hsh
  have hlen : xs.length < countersSize := by
    have hi : s₂.hash.index 5 < s₂.hash.size := by
      rw [hidx₂, t'.geometry.size]
      exact Nat.two_pow_pos _
    have hlen := hcount _ hi
    have hle : insertionsInto s₂.hash (s₂.hash.index 5) wrapping ≤ 2 := by
      rw [insertionsInto, wrapping, insertedKeys_insertions_gets]
      exact List.countP_le_length
    rw [hx, List.length_cons] at hlen
    exact Nat.lt_of_succ_le ((hlen.trans_le hle).trans (by decide))
  obtain ⟨m', hshift⟩ := doHotspotShift_zero hring hlen h0
  exact ⟨s₀, s₂, hs, hc, hrun, fun hlaw ↦ (hlaw _ _ hsh).1 h0, m, m', _, _, _, hsh, h0, hshift, rfl⟩

end Jeopardy.Hotring
