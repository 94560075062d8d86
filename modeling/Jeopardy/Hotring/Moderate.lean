import Jeopardy.Hotring.Counters
import Jeopardy.Hotring.NullHead
import Jeopardy.Hotring.Tally

/-!
# Shifts of moderate programs

A program that inserts at most 30000 keys, and searches no bucket 32767 times without a shift
between, keeps the total counter of every shift exact. Every access of a node is one of its bucket,
so the costs stay far below the sentinel: no such program divides by 0, overruns the array or loses
a ring, whatever the rounding. With exact quotients the new head is the lower median of the finds
since the last shift.
-/

namespace Jeopardy.Hotring

open Rings Fault Distance

variable {D : Type} [DoubleArith D] {m m₁ : Mem} {h : Hash} {ring : Nat → List Nat} {s s' : State}
  {key : Nat} {calls : List Call} {ks : List Nat} {t : Tally} {head : Head} {i : Nat}

/-- No get of the program finds that its bucket was searched 32767 times since the last shift. -/
def Moderate (D : Type) [DoubleArith D] (s : State) (calls : List Call) : Prop :=
  ∀ pre key s₁ t₁, pre ++ [.get key] <+: calls → watched D s pre = .ok (s₁, t₁) →
    t₁.accesses (s₁.hash.index key) < 2 ^ 15 - 1

/-! ### One shift -/

theorem Tallied.headLaw [LawfulDouble D] [RoundedDouble D] (T : Tallied s.mem s.hash ring t ks)
    (hfew : ks.length ≤ 30000) (hacc : t.accesses (s.hash.index key) < 2 ^ 15 - 1) :
    HeadLaw D s key := by
  intro m head hs
  obtain ⟨h, r, index, tag, hg, -⟩ := id hs
  have hi := T.table.geometry.index_lt (T.table.geometry.lt_of_rawHashGet hg)
  exact (T.weighed hfew hi hacc).headLaw m head hs

theorem Tallied.inCounters (T : Tallied s.mem s.hash ring t ks) (hfew : ks.length ≤ 30000)
    (hacc : t.accesses (s.hash.index key) < 2 ^ 15 - 1) : InCounters D s key := by
  apply RingFits.inCounters
  intro m head hs
  obtain ⟨xs, -, hring, hlen, -⟩ := T.cost_le hs hfew hacc
  refine ⟨xs, hring, ?_⟩
  rw [List.length_cons, countersSize]
  omega

/-! ### Programs -/

section Run

variable {n k : Nat} {r : Int}

/-- **Moderate programs.** In a moderate program of at most 30000 insertions of different keys no
shift before the first rehash divides by 0, loses its ring or leaves its array. -/
theorem headLaw_run_moderate [LawfulDouble D] [RoundedDouble D] (hs : start m r n k = .ok s)
    (hk : k ≤ n) (hb : n - k ≤ 30) (hd : (insertedKeys calls).Nodup)
    (hrep : ∀ index steps, Call.repoint index steps ∉ calls)
    (hfew : (insertedKeys calls).length ≤ 30000) (hmod : Moderate D s calls) :
    AlongGets D s calls
      (fun _ s₁ key ↦ s₁.hash.k = k → HeadLaw D s₁ key ∧ InCounters D s₁ key) := by
  intro pre key s₁ hpre hrun hk₁
  obtain ⟨t₁, hw⟩ := watched_iff_run.mpr hrun
  have hpre' : pre <+: calls := (List.prefix_append _ _).trans hpre
  have hsub := insertedKeys_sublist hpre'
  obtain ⟨ring, T⟩ := exists_tallied hs hk hb (hd.sublist hsub)
    (fun index steps hc ↦ hrep index steps (hpre'.subset hc)) hw hk₁
  have hfew₁ := hsub.length_le.trans hfew
  have hacc := hmod pre key s₁ t₁ hpre hw
  exact ⟨T.headLaw hfew₁ hacc, T.inCounters hfew₁ hacc⟩

/-- A short program is moderate. -/
theorem moderate_of_length_lt (hlen : calls.length < 2 ^ 15) : Moderate D s calls := by
  intro pre key s₁ t₁ hpre hw
  have hle := (tally_le_length hw).1 (s₁.hash.index key)
  have hpre := hpre.length_le
  rw [List.length_append, List.length_singleton] at hpre
  omega

/-- `headLaw_run_moderate` of a program whose fifth get shifts the head. -/
theorem headLaw_run_moderate_shifted_once :
    AlongGets ℚ ⟨.init, ⟨4, 2, 4, fun _ ↦ none⟩, 0⟩ shiftedOnce
      (fun _ s₁ key ↦ s₁.hash.k = 2 → HeadLaw ℚ s₁ key ∧ InCounters ℚ s₁ key) :=
  headLaw_run_moderate (m := .init) (n := 4) (k := 2) (r := 0) rfl (by decide) (by decide)
    (by decide) (by simp [shiftedOnce]) (by decide) (moderate_of_length_lt (by decide))

/-- An income is below the sentinel if its cost is. -/
theorem income_lt {counters : List Nat} {total p : Nat} (htotal : 0 < total)
    (hp : p < counters.length)
    (hcost : linearCost (counterAt counters) counters.length p ≤ 999999999 * total) :
    income (total : ℚ) counters p < 1000000000 := by
  have hpos : (0 : ℚ) < total := by exact_mod_cast htotal
  have hle : (linearCost (counterAt counters) counters.length p : ℚ) ≤ 999999999 * total := by
    exact_mod_cast hcost
  rw [income_eq _ _ hp, div_lt_iff₀ hpos]
  linarith

/-- Counters that have not wrapped around show the finds of the keys. -/
theorem Tallied.counterAt_eq (T : Tallied m h ring t ks) (hi : i < h.size)
    (hhits : ∀ q, h.index q = i → t.hits q < 2 ^ 14) {j : Nat} (hj : j < (ring i).length) :
    counterAt ((ring i).map m.counter) j = t.hits (m.key ((ring i).getD j 0)) := by
  have ha : (ring i)[j] ∈ ring i := List.getElem_mem hj
  have hj₁ : j < ((ring i).map m.counter).length := by
    rw [List.length_map]
    exact hj
  rw [counterAt, List.getD_eq_getElem _ _ hj₁, List.getElem_map, T.node _ hi _ ha,
    Nat.mod_eq_of_lt (hhits _ (T.table.index _ hi _ ha)), List.getD_eq_getElem _ _ hj]

/-- **New head.** With exact quotients a shift of such a program moves the head to the lower median
of the finds of its bucket since the last shift, as long as no key was found 16384 times. -/
theorem doHotspotShift_run_median (hs : start m r n k = .ok s) (hk : k ≤ n) (hb : n - k ≤ 30)
    (hd : (insertedKeys calls).Nodup) (hrep : ∀ index steps, Call.repoint index steps ∉ calls)
    (hfew : (insertedKeys calls).length ≤ 30000) (hw : watched ℚ s calls = .ok (s', t))
    (hk' : s'.hash.k = k) (hsh : Shifts s' key m₁ head)
    (hacc : t.accesses (s'.hash.index key) < 2 ^ 15 - 1)
    (hhits : ∀ q, s'.hash.index q = s'.hash.index key →
      (t.access s'.hash key (answer s' key)).hits q < 2 ^ 14) :
    ∃ xs p m₂ head' ret, BucketAt s'.mem s'.hash (s'.hash.index key) xs ∧
      IsMedian (fun j ↦ (t.access s'.hash key (answer s' key)).hits (s'.mem.key (xs.getD j 0)))
        xs.length p ∧
      doHotspotShift ℚ m₁ head = .ok (m₂, head', ret) ∧ head'.addr = xs.getD p 0 := by
  obtain ⟨ring, T⟩ := exists_tallied hs hk hb hd hrep hw hk'
  obtain ⟨h, xs, T₁, hidx, hi, hx, -⟩ := T.shifts hsh
  obtain ⟨ys, hy, hring, hlen, hN, hcost⟩ := T.cost_le hsh hfew hacc
  obtain rfl : xs = ys := (List.cons.inj (hx.symm.trans hy)).2
  obtain ⟨-, hm, -, -⟩ := T.table.chained.shifts hsh
  have hlen' : ((head.addr :: xs).map m₁.counter).length = xs.length + 1 := by
    rw [List.length_map, List.length_cons]
  have hlt (p : Nat) (hp : p < xs.length + 1) :
      income (head.counter.toNat : ℚ) ((head.addr :: xs).map m₁.counter) p < 1000000000 := by
    apply income_lt
    · rw [hN]
      exact Nat.succ_pos _
    · rw [hlen']
      exact hp
    · rw [hlen']
      exact hcost p hp
  have hfits : xs.length < countersSize := by
    rw [countersSize]
    omega
  have hne : head.counter ≠ 0 := by
    intro h0
    rw [h0] at hN
    exact absurd hN (Nat.succ_ne_zero _).symm
  obtain ⟨p, m₂, head', ret, hmed, hshift, haddr⟩ := doHotspotShift_median hring hfits hne hlt
  rw [← hx] at hmed haddr
  refine ⟨ring (s'.hash.index key), p, m₂, head', ret, ?_, ?_, hshift, haddr⟩
  · obtain ⟨_, _, _, _, hg, -⟩ := hsh
    exact T.table.bucket _ (T.table.geometry.index_lt (T.table.geometry.lt_of_rawHashGet hg))
  · rw [hx, List.length_cons, ← hx]
    apply hmed.congr
    intro j hj
    have hj' : j < (ring (s'.hash.index key)).length := by
      rw [hx]
      exact hj
    rw [T₁.counterAt_eq hi (fun q hq ↦ hhits q ((hidx q).symm.trans hq)) hj', hm.key]

/-- Three keys of one bucket, and four gets for them; the next get of key 6 shifts. -/
def balanced : List Call :=
  [.insert 4 1, .insert 5 1, .insert 6 1, .get 4, .get 5, .get 6, .get 6]

/-- Keys 4 and 5 have then been found twice, counting their insertions, and key 6 four times. -/
theorem doHotspotShift_run_median_balanced :
    ∃ s' t m₁ head, watched ℚ ⟨.init, ⟨4, 2, 4, fun _ ↦ none⟩, 0⟩ balanced = .ok (s', t) ∧
      Shifts s' 6 m₁ head ∧ ∃ xs p m₂ head' ret, BucketAt s'.mem s'.hash (s'.hash.index 6) xs ∧
        IsMedian (fun j ↦ (t.access s'.hash 6 (answer s' 6)).hits (s'.mem.key (xs.getD j 0)))
          xs.length p ∧
        doHotspotShift ℚ m₁ head = .ok (m₂, head', ret) ∧ head'.addr = xs.getD p 0 := by
  have hobs : (do
      let p ← watched ℚ ⟨.init, ⟨4, 2, 4, fun _ ↦ none⟩, 0⟩ balanced
      let g ← rawHashGet p.1.mem p.1.hash 6
      let c ← hashCode g.2.1 6
      let slot ← g.2.1.slot c.1
      return (p.1.hash.k, g.2.2.ret, bumpRequest p.1.nr_request, slot.isSome) : Except Fault _)
        = .ok (2, .accessCold, 5, true) := by decide +kernel
  obtain ⟨⟨s, t⟩, hw, hobs⟩ := bind_eq_ok.mp hobs
  obtain ⟨⟨m, h, r⟩, hget, hobs⟩ := bind_eq_ok.mp hobs
  obtain ⟨⟨index, tag⟩, hcode, hobs⟩ := bind_eq_ok.mp hobs
  obtain ⟨slot, hslot, hobs⟩ := bind_eq_ok.mp hobs
  simp only [pure, Except.pure, Except.ok.injEq, Prod.mk.injEq] at hobs
  obtain ⟨hk, hret, hreq, hsome⟩ := hobs
  obtain ⟨head, rfl⟩ := Option.isSome_iff_exists.mp hsome
  have hsh : Shifts s 6 m head := ⟨h, r, index, tag, hget, hret, hreq.ge, hcode, hslot⟩
  have hle := tally_le_length hw
  refine ⟨s, t, m, head, hw, hsh, doHotspotShift_run_median (m := .init) (n := 4) (k := 2) (r := 0)
    rfl (by decide) (by decide) (by decide) (by simp [balanced]) (by decide) hw hk hsh ?_ ?_⟩
  · exact (hle.1 _).trans_lt (by decide)
  · intro q _
    exact ((t.access_le _ _ _).2 q).trans_lt ((Nat.succ_le_succ (hle.2 q)).trans_lt (by decide))

end Run

end Jeopardy.Hotring
