import Jeopardy.Hotring.Access
import Jeopardy.Hotring.AfterRehash
import Jeopardy.Hotring.Origin

/-!
# The counter array of the hot-spot shift

`do_hotspot_shift` copies the counters of a ring into an array of 100000 entries and asks
nowhere how long the ring is. Every insertion adds a node to the ring of its bucket. So as long
as rehashes leave every key in its bucket, the array is overrun exactly when more than 100000
insertions went into the bucket of the shift. A rehash that loses keys may leave in a ring nodes
of the neighbouring buckets, but only of those split off from the same bucket of the first table.
-/

namespace Jeopardy.Hotring

open Rings Fault

variable {D : Type} [DoubleArith D] {m m' : Mem} {h h₀ h' new : Hash}
  {ring ring' A B : Nat → List Nat} {s s' : State} {key : Nat} {keys : List Nat}
  {calls : List Call}

/-- The shift that `hash_get` of `key` may call stays within its array. A shift that never
ends does not: it fills one entry in each round. -/
def InCounters (D : Type) [DoubleArith D] (s : State) (key : Nat) : Prop :=
  ∀ m head, Shifts s key m head →
    doHotspotShift D m head ≠ .error .outOfBounds ∧ doHotspotShift D m head ≠ .error .diverges

/-- The links lead from the head of a shift back to it, over as many nodes as the array has
entries at most. -/
def RingFits (s : State) (key : Nat) : Prop :=
  ∀ m head, Shifts s key m head →
    ∃ xs, IsRing m.next (head.addr :: xs) ∧ (head.addr :: xs).length ≤ countersSize

theorem RingFits.inCounters (hfit : RingFits s key) : InCounters D s key := by
  intro m head hs
  obtain ⟨xs, hring, hlen⟩ := hfit m head hs
  rw [List.length_cons] at hlen
  obtain ⟨m', -, hr⟩ := doHotspotShift_ring (D := D) hring (Nat.lt_of_succ_le hlen)
  rw [hr]
  exact ⟨nofun, nofun⟩

/-- How many insertions of a program went into bucket `i`. -/
def insertionsInto (h : Hash) (i : Nat) (calls : List Call) : Nat :=
  (insertedKeys calls).countP (fun key ↦ h.index key = i)

/-- The rings of the table hold one node for each insertion into their bucket. -/
def Counted (s : State) (calls : List Call) : Prop :=
  ∃ ring, Chained s.mem s.hash ring ∧
    ∀ i < s.hash.size, (ring i).length = insertionsInto s.hash i calls

/-- On such a table the array is enough for as many insertions as it has entries. -/
theorem Counted.inCounters_iff (c : Counted s calls) :
    InCounters D s key ↔ ((∃ m head, Shifts s key m head) →
      insertionsInto s.hash (s.hash.index key) calls ≤ countersSize) := by
  obtain ⟨ring, t, hcount⟩ := c
  constructor
  · rintro hin ⟨m, head, hs⟩
    obtain ⟨xs, hm, hx, hring⟩ := t.shifts hs
    by_contra hlt
    have hi : s.hash.index key < s.hash.size := by
      obtain ⟨h, r, index, tag, hg, -⟩ := hs
      exact t.geometry.index_lt (t.geometry.lt_of_rawHashGet hg)
    rw [← hcount _ hi, hx, List.length_cons] at hlt
    exact (hin m head hs).1 (doHotspotShift_overflow hring (by omega))
  · intro hle
    apply RingFits.inCounters
    intro m head hs
    obtain ⟨xs, hm, hx, hring⟩ := t.shifts hs
    have hi : s.hash.index key < s.hash.size := by
      obtain ⟨h, r, index, tag, hg, -⟩ := hs
      exact t.geometry.index_lt (t.geometry.lt_of_rawHashGet hg)
    refine ⟨xs, hring, ?_⟩
    rw [← hx, hcount _ hi]
    exact hle ⟨m, head, hs⟩

/-! ### Programs -/

theorem insertionsInto_congr (hidx : ∀ q, h'.index q = h.index q) (i : Nat) (calls : List Call) :
    insertionsInto h' i calls = insertionsInto h i calls := by
  simp only [insertionsInto, hidx]

theorem insertionsInto_concat (h : Hash) (i : Nat) (calls : List Call) (c : Call) :
    insertionsInto h i (calls ++ [c]) =
      insertionsInto h i calls + c.insertedKey.toList.countP (fun key ↦ h.index key = i) := by
  rw [insertionsInto, insertedKeys_concat, List.countP_append, insertionsInto]

theorem Counted.insert {e : Int} {value : Nat} (c : Counted s calls)
    (hi : hashInsert s.mem s.hash key value = .ok (m', h', e)) :
    Counted ⟨m', h', s.nr_request⟩ (calls ++ [.insert key value]) := by
  obtain ⟨ring, t, hcount⟩ := c
  have hq := t.geometry.lt_of_hashInsert hi
  obtain ⟨m₂, h₂, hi₂, p⟩ := t.hashInsert_spec hq value
  rw [hi, Except.ok.injEq, Prod.mk.injEq, Prod.mk.injEq] at hi₂
  obtain ⟨rfl, rfl, -⟩ := hi₂
  have hidx := t.geometry.index_lt hq
  refine ⟨_, t.placed p rfl hidx, ?_⟩
  intro i hlt
  rw [p.size] at hlt
  rw [insertionsInto_concat, insertionsInto_congr p.index]
  simp only [Call.insertedKey, Option.toList_some, List.countP_singleton, p.index]
  by_cases he : s.hash.index key = i
  · subst he
    rw [(t.placed_perm p hidx).length_eq, List.length_cons, hcount _ hidx]
    simp
  · rw [placeRing_of_ne (fun h ↦ he h.symm), hcount _ hlt]
    simp [he]

theorem Counted.get [LawfulDouble D] {e : Int} {g : GetResult} (c : Counted s calls)
    (hr : hashGet D s key = .ok (s', e, g)) (hk : s'.hash.k = s.hash.k) :
    Counted s' (calls ++ [.get key]) := by
  obtain ⟨ring, t, hcount⟩ := c
  obtain ⟨ring', hm, hrot⟩ := t.hashGet_rotated hr hk
  refine ⟨ring', t.rotated hm hrot, ?_⟩
  intro i hi
  rw [hrot.size] at hi
  rw [← (hrot.rotated i hi).perm.length_eq, hcount i hi, insertionsInto_concat,
    insertionsInto_congr hrot.index]
  rfl

/-- Until the first rehash the rings count the insertions. -/
theorem counted_run [LawfulDouble D] {n k : Nat} {r : Int} (hs : start m r n k = .ok s)
    (hk : k ≤ n) (hb : n - k ≤ 30) (hc : ∀ c ∈ calls, c.InsertOrGet)
    (hrun : run D s calls = .ok s') (hk' : s'.hash.k = k) : Counted s' calls := by
  obtain ⟨-, hk₀, hr, -⟩ := refines_start hs hk hb
  let P (s : State) (pre : List Call) : Prop := k ≤ s.hash.k ∧ (s.hash.k = k → Counted s pre)
  have h0 : P s [] := ⟨hk₀.ge, fun _ ↦ ⟨_, hr.table.chained, fun _ _ ↦ rfl⟩⟩
  have hstep (s₁ : State) (pre : List Call) (c : Call) (s₂ : State) (hpre : pre ++ [c] <+: calls)
      (_ : run D s pre = .ok s₁) (hp : P s₁ pre) (hstep : c.step D s₁ = .ok s₂) :
      P s₂ (pre ++ [c]) := by
    have hmono : s₁.hash.k ≤ s₂.hash.k := by
      rcases step_shape hstep with hsh | hlt
      · exact hsh.k.ge
      · exact hlt.le
    have hk₁ := hp.1
    refine ⟨hk₁.trans hmono, fun hk₂ ↦ ?_⟩
    have hcount := hp.2 (by omega)
    have hcm := hc c (hpre.subset (by simp))
    cases c with
    | insert key value =>
      obtain ⟨e, hi⟩ := step_insert hstep
      exact hcount.insert hi
    | get key =>
      obtain ⟨e, g, hg⟩ := step_get hstep
      exact hcount.get hg (by omega)
    | lookup key => exact hcm.elim
    | delete key => exact hcm.elim
    | repoint index steps => exact hcm.elim
  exact (run_invariant h0 hstep hrun).2 hk'

/-! ### Rehashes that keep the contents -/

/-- The keys on the rings are the inserted ones, bucket by bucket. -/
def Keyed (m : Mem) (h : Hash) (ring : Nat → List Nat) (keys : List Nat) : Prop :=
  ∀ i < h.size, ((ring i).map m.key).Perm (keys.filter (fun q ↦ h.index q = i))

namespace Keyed

theorem rotated (k : Keyed m h ring keys) (hm : m.SameCells m') (r : Rotated h h' ring ring') :
    Keyed m' h' ring' keys := by
  intro i hi
  rw [r.size] at hi
  rw [hm.key]
  simp only [r.index]
  exact ((r.rotated i hi).perm.map m.key).symm.trans (k i hi)

theorem placed {tag value : Nat} (k : Keyed m h ring keys) (t : Chained m h ring)
    (p : Placed m m' h h' (h.index key) (ring (h.index key)) key tag value)
    (hi : h.index key < h.size) :
    Keyed m' h' (placeRing m ring (h.index key) tag) (keys ++ [key]) := by
  intro i hlt
  rw [p.size] at hlt
  have hold (a : Nat) (ha : a ∈ ring i) : m'.key a = m.key a := by
    apply p.key_old
    rintro rfl
    exact t.brk_notMem hlt ha
  simp only [p.index, List.filter_append]
  by_cases he : h.index key = i
  · subst he
    refine ((t.placed_perm p hi).map m'.key).trans ?_
    rw [List.map_cons, p.key_new, List.map_congr_left hold, List.filter_cons_of_pos (by simp),
      List.filter_nil]
    exact ((k _ hi).cons key).trans (List.perm_append_singleton _ _).symm
  · rw [placeRing_of_ne (Ne.symm he), List.map_congr_left hold,
      List.filter_cons_of_neg (by simpa using he), List.filter_nil, List.append_nil]
    exact k i hlt

theorem counted (k : Keyed s.mem s.hash ring (insertedKeys calls))
    (t : Chained s.mem s.hash ring) : Counted s calls := by
  refine ⟨ring, t, fun i hi ↦ ?_⟩
  have hlen := (k i hi).length_eq
  rwa [List.length_map, ← List.countP_eq_length_filter] at hlen

end Keyed

/-- A rehash that keeps the contents leaves every key in its bucket. -/
theorem Parted.keyed (p : Parted m m' h new ring A B) (t : Table m h ring) (g : Geometry new)
    (hf : FindsSame h.n m h m' new) (hn : h.n = NBITS) (k : Keyed m h ring keys) :
    Keyed m' new (splitRing A B) keys := by
  intro j hj
  have hi := (p.perm hj).1
  have hsz := p.size
  have hidx (q : Nat) : new.index q / 2 = h.index q := by
    have hnk := g.n_eq
    rw [p.n, p.k] at hnk
    have hbits : h.bits = new.bits + 1 := by
      rw [Hash.bits, hn]
      omega
    rw [Hash.index, Hash.index, hbits, Nat.pow_succ, Nat.div_div_eq_div_mul]
  have hside {l a : Nat} (hl : l < new.size) (ha : a ∈ splitRing A B l) :
      new.index (m.key a) = l := p.index t g hf hl ha
  -- the nodes of the old ring with the keys of bucket `j` are the new ring of that bucket
  have hpart : (A (j / 2) ++ B (j / 2)).filter (fun a ↦ new.index (m.key a) = j)
      = splitRing A B j := by
    have hA (a : Nat) (ha : a ∈ A (j / 2)) : new.index (m.key a) = j / 2 * 2 :=
      hside (by omega) (by rwa [splitRing_low])
    have hB (a : Nat) (ha : a ∈ B (j / 2)) : new.index (m.key a) = j / 2 * 2 + 1 :=
      hside (by omega) (by rwa [splitRing_high])
    rw [List.filter_append]
    rcases Nat.mod_two_eq_zero_or_one j with hmod | hmod
    · rw [List.filter_eq_self.mpr (fun a ha ↦ by simp only [hA a ha, decide_eq_true_eq]; omega),
        List.filter_eq_nil_iff.mpr (fun a ha ↦ by simp only [hB a ha, decide_eq_true_eq]; omega),
        List.append_nil, splitRing, if_pos hmod]
    · rw [List.filter_eq_nil_iff.mpr (fun a ha ↦ by simp only [hA a ha, decide_eq_true_eq]; omega),
        List.filter_eq_self.mpr (fun a ha ↦ by simp only [hB a ha, decide_eq_true_eq]; omega),
        List.nil_append, splitRing, if_neg (by omega)]
  have hkey : (splitRing A B j).map m'.key = (splitRing A B j).map m.key :=
    List.map_congr_left (fun a ha ↦ (p.sameData t hj ha).key)
  have hfilter : keys.filter (fun q ↦ new.index q = j)
      = (keys.filter (fun q ↦ h.index q = j / 2)).filter (fun q ↦ new.index q = j) := by
    rw [List.filter_filter]
    refine List.filter_congr (fun q _ ↦ ?_)
    by_cases hq : new.index q = j
    · simp [hq, ← hidx]
    · simp [hq]
  have hmap : ((A (j / 2) ++ B (j / 2)).filter (fun a ↦ new.index (m.key a) = j)).map m.key
      = ((A (j / 2) ++ B (j / 2)).map m.key).filter (fun q ↦ new.index q = j) := by
    rw [List.filter_map]
    rfl
  rw [hkey, ← hpart, hmap, hfilter]
  exact (((p.whole _ hi).map m.key).filter _).symm.trans ((k _ hi).filter _)

/-- After a program of insertions of new keys whose rehashes keep the contents, the keys on the
rings are the inserted ones. -/
theorem keyed_run [LawfulDouble D] {k : Nat} {r : Int} (hs : start m r NBITS k = .ok s)
    (hk : 2 ≤ k) (hc : ∀ c ∈ calls, c.InsertOrGet) (hnew : InsertsNew D s calls)
    (hkeep : RehashesKeep D s calls) (hrun : run D s calls = .ok s') :
    ∃ ring, Tagged s'.mem s'.hash ring ∧ Keyed s'.mem s'.hash ring (insertedKeys calls) := by
  obtain ⟨hk30, -⟩ := start_eq_ok.mp hs
  have hkn : k ≤ NBITS := hk30.trans (by decide)
  have hb : NBITS - k ≤ 30 := by
    rw [NBITS]
    omega
  obtain ⟨hn₀, -, hr, hf⟩ := refines_start hs hkn hb
  let P (s : State) (pre : List Call) : Prop := s.hash.n = NBITS ∧
    ∃ ring, Tagged s.mem s.hash ring ∧ Keyed s.mem s.hash ring (insertedKeys pre)
  have h0 : P s [] := by
    refine ⟨hn₀, _, ⟨hr.table, ?_, by simp, fun _ ↦ hf⟩, fun i _ ↦ List.Perm.refl _⟩
    exact fun i _ ↦ cyclicSorted_of_pairwise List.Pairwise.nil
  have hstep (s₁ : State) (pre : List Call) (c : Call) (s₂ : State) (hpre : pre ++ [c] <+: calls)
      (hrun₁ : run D s pre = .ok s₁) (hp : P s₁ pre) (hstep : c.step D s₁ = .ok s₂) :
      P s₂ (pre ++ [c]) := by
    obtain ⟨hn, ring, t, hkeys⟩ := hp
    have tc := t.table.chained
    have hcm := hc c (hpre.subset (by simp))
    cases c with
    | insert key value =>
      obtain ⟨e, hi⟩ := step_insert hstep
      have hq := t.table.geometry.lt_of_hashInsert hi
      obtain ⟨m₂, h₂, hi₂, p⟩ := tc.hashInsert_spec hq value
      rw [hi, Except.ok.injEq, Prod.mk.injEq, Prod.mk.injEq] at hi₂
      obtain ⟨rfl, rfl, -⟩ := hi₂
      have hno := hnew pre key value s₁ hpre hrun₁
      refine ⟨p.sizes.1.trans hn, _, t.placed hq p
        (t.table.key_ne_of_not_holds hq (fun v hv ↦ hno hv.stored)), ?_⟩
      rw [insertedKeys_concat]
      exact hkeys.placed tc p (t.table.geometry.index_lt hq)
    | get key =>
      obtain ⟨e, g, hg⟩ := step_get hstep
      have hsame : insertedKeys (pre ++ [.get key]) = insertedKeys pre := by
        rw [insertedKeys_concat]
        exact List.append_nil _
      obtain ⟨m₁, h₁, ring₁, hm, hrot, ⟨hm₁, hh₁⟩ | hre⟩ := tc.hashGet_spec hg
      · simp only [P, hm₁, hh₁, hsame]
        exact ⟨hrot.n.trans hn, ring₁, t.rotated hm hrot, hkeys.rotated hm hrot⟩
      · have hk : s₂.hash.k ≠ s₁.hash.k := by
          rw [(hotringRehash_shape hre).2.1, hrot.k]
          omega
        have t₁ := t.rotated hm hrot
        have hf : FindsSame h₁.n m₁ h₁ s₂.mem s₂.hash := by
          intro q hq
          simp only [t.table.holds_rotated hm hrot]
          exact hkeep pre _ s₁ s₂ hpre hrun₁ hstep hk q (hrot.n ▸ hq)
        obtain ⟨hgeo, hn₁⟩ := hf.geometry hre
        obtain ⟨A, B, p⟩ := hf.parted t₁.table hn₁ hre
        obtain ⟨ring₂, t₂, -⟩ := t₁.rehash hre hf
        have hkeys₂ := p.keyed t₁.table hgeo hf (hrot.n.trans hn) (hkeys.rotated hm hrot)
        refine ⟨p.n, ring₂, t₂, fun i hi ↦ ?_⟩
        rw [hsame, (t₂.table.bucket i hi).unique (p.bucket hi)]
        exact hkeys₂ i hi
    | lookup key => exact hcm.elim
    | delete key => exact hcm.elim
    | repoint index steps => exact hcm.elim
  exact (run_invariant h0 hstep hrun).2

/-! ### Any rehashes -/

/-- The buckets of the first table `h₀` hold at most one node for each insertion into them. -/
structure Bounded (h₀ : Hash) (s : State) (calls : List Call) : Prop where
  geometry : Geometry s.hash
  n : s.hash.n = NBITS
  k_le : h₀.k ≤ s.hash.k
  nodes : ∃ S, Woven S s.mem ∧ HeadsFrom h₀.k S s.hash ∧
    ∀ c, (S c).card ≤ insertionsInto h₀ c calls

namespace Bounded

theorem origin_index (b : Bounded h₀ s calls) (hn₀ : h₀.n = NBITS) (q : Nat) :
    origin h₀.k s.hash (s.hash.index q) = h₀.index q := by
  have hle := b.k_le
  have hkn := b.geometry.k_le_n
  rw [origin, Hash.index, Hash.index, Nat.div_div_eq_div_mul, ← Nat.pow_add, Hash.bits, Hash.bits,
    hn₀, ← b.n]
  congr 2
  omega

theorem insert {e : Int} {value : Nat} (b : Bounded h₀ s calls) (hn₀ : h₀.n = NBITS)
    (hi : hashInsert s.mem s.hash key value = .ok (m', h', e)) :
    Bounded h₀ ⟨m', h', s.nr_request⟩ (calls ++ [.insert key value]) := by
  have hidx := b.origin_index hn₀ key
  obtain ⟨g, hn, hk, S, w, hh, hcard⟩ := b
  obtain ⟨w', hh', hshape⟩ := w.insert hh g hi
  refine ⟨g.congr hshape.n hshape.k hshape.size, hshape.n.trans hn, hshape.k ▸ hk, _, w', hh', ?_⟩
  intro c
  rw [insertionsInto_concat, hidx]
  simp only [Call.insertedKey, Option.toList_some, List.countP_singleton, withNode]
  by_cases hc : h₀.index key = c
  · subst hc
    rw [Function.update_self, if_pos (by simp)]
    exact (Finset.card_insert_le _ _).trans (Nat.succ_le_succ (hcard _))
  · rw [Function.update_of_ne (Ne.symm hc)]
    exact (hcard c).trans (Nat.le_add_right _ _)

theorem get [LawfulDouble D] {e : Int} {g : GetResult} (b : Bounded h₀ s calls)
    (hr : hashGet D s key = .ok (s', e, g)) : Bounded h₀ s' (calls ++ [.get key]) := by
  obtain ⟨geo, hn, hk, S, w, hh, hcard⟩ := b
  obtain ⟨geo', hn', hk', S', w', hh', hsub⟩ := w.get hh geo hn hk hr
  refine ⟨geo', hn', hk', S', w', hh', fun c ↦ ?_⟩
  rw [insertionsInto_concat]
  exact (Finset.card_le_card (hsub c)).trans (hcard c)

/-- The ring of a shift stays within a bucket of the first table. -/
theorem ringFits (b : Bounded h₀ s calls) (hn₀ : h₀.n = NBITS)
    (hle : (∃ m head, Shifts s key m head) →
      insertionsInto h₀ (h₀.index key) calls ≤ countersSize) : RingFits s key := by
  intro m head hs
  have hroom := hle ⟨m, head, hs⟩
  obtain ⟨h, r, index, tag, hg, -, -, hcode, hslot⟩ := hs
  have hidx := b.origin_index hn₀ key
  obtain ⟨g, -, -, S, w, hh, hcard⟩ := b
  obtain ⟨xs, hb, -⟩ := w.exists_bucket hh (g.index_lt (g.lt_of_rawHashGet hg))
  obtain ⟨m₂, h₂, hg₂, hm, hsame, -⟩ := rawHashGet_bucket g hb
  rw [hg, Except.ok.injEq, Prod.mk.injEq, Prod.mk.injEq] at hg₂
  obtain ⟨rfl, rfl, -⟩ := hg₂
  rw [(hsame.geometry g).hashCode_eq, Except.ok.injEq, Prod.mk.injEq] at hcode
  obtain ⟨rfl, -⟩ := hcode
  obtain ⟨hi, hslot⟩ := slot_eq_ok hslot
  have hmem := hh.sameHeads hsame _ hi head hslot
  obtain ⟨ys, hring, hyS⟩ := ((w.sameCells hm).permuted _).exists_ring hmem
  refine ⟨ys, hring, (Permuted.length_le_card hring hyS).trans ((hcard _).trans ?_)⟩
  rwa [origin, hsame.k, Hash.index, hsame.bits, ← Hash.index, ← origin, hidx]

end Bounded

/-- Whatever the rehashes of a program do, its buckets are bounded by its insertions. -/
theorem bounded_run [LawfulDouble D] {k : Nat} {r : Int} (hs : start m r NBITS k = .ok s)
    (hk : 2 ≤ k) (hc : ∀ c ∈ calls, c.InsertOrGet) (hrun : run D s calls = .ok s') :
    Bounded s.hash s' calls := by
  obtain ⟨hk30, hs₀⟩ := start_eq_ok.mp hs
  have hb : NBITS - k ≤ 30 := by
    rw [NBITS]
    omega
  obtain ⟨hn₀, -, hr, -⟩ := refines_start hs (hk30.trans (by decide)) hb
  have hg := hr.table.geometry
  have hslots (i : Nat) : s.hash.slots i = Option.none := by rw [hs₀]
  have h0 : Bounded s.hash s [] := by
    refine ⟨hg, hn₀, le_rfl, fun _ ↦ ∅, ⟨fun _ ↦ .empty, fun _ _ _ ↦ Finset.disjoint_empty_left _⟩,
      ?_, fun c ↦ Nat.zero_le _⟩
    intro i _ head hhead
    rw [hslots i] at hhead
    cases hhead
  refine run_invariant (P := Bounded s.hash) h0 ?_ hrun
  intro s₁ pre c s₂ hpre _ hb hstep
  have hcm := hc c (hpre.subset (by simp))
  cases c with
  | insert key value =>
    obtain ⟨e, hi⟩ := step_insert hstep
    obtain ⟨hg, hn, hk, hnodes⟩ := hb.insert hn₀ hi
    exact ⟨hg, hn, hk, hnodes⟩
  | get key =>
    obtain ⟨e, g, hg⟩ := step_get hstep
    exact hb.get hg
  | lookup key => exact hcm.elim
  | delete key => exact hcm.elim
  | repoint index steps => exact hcm.elim

/-! ### Every shift -/

/-- The table was not rehashed yet, or no insertion was of a key that it held and every rehash
kept the contents. -/
def Lossless (D : Type) [DoubleArith D] (s : State) (pre : List Call) (s₁ : State) : Prop :=
  s₁.hash.k = s.hash.k ∨ (InsertsNew D s pre ∧ RehashesKeep D s pre)

/-- There is room in the array for a shift that a get of `key` calls after the program `pre`: there
were not more insertions into the bucket of the key than the array has entries. If a rehash has lost
keys, those into the bucket of the first table count. -/
def Roomy (D : Type) [DoubleArith D] (s : State) (pre : List Call) (s₁ : State) (key : Nat) :
    Prop :=
  (∃ m head, Shifts s₁ key m head) →
    (Lossless D s pre s₁ → insertionsInto s₁.hash (s₁.hash.index key) pre ≤ countersSize) ∧
      (¬ Lossless D s pre s₁ → insertionsInto s.hash (s.hash.index key) pre ≤ countersSize)

/-- A table without nodes is not shifted. -/
theorem not_shifts_of_blank {head : Head} (hb : ∀ i, s.hash.slots i = Option.none) :
    ¬ Shifts s key m head := by
  rintro ⟨h, r, index, tag, hg, hret, -⟩
  obtain ⟨c, -, hg⟩ := bind_eq_ok.mp hg
  obtain ⟨slot, hslot, hg⟩ := bind_eq_ok.mp hg
  obtain rfl := (slot_eq_ok hslot).2.symm.trans (hb c.1)
  simp only [pure, Except.pure, Except.ok.injEq, Prod.mk.injEq] at hg
  rw [← hg.2.2] at hret
  cases hret

/-- **Counter array.** In every program of insertions and gets on a new table whose gets all
find room, every shift stays within its array; and as long as no key was inserted twice and no
rehash has lost one, a get that does not find room overruns it. -/
theorem inCounters_run [LawfulDouble D] {k : Nat} {r : Int} (hs : start m r NBITS k = .ok s)
    (hc : ∀ c ∈ calls, c.InsertOrGet) :
    (AlongGets D s calls (Roomy D s) → AlongGets D s calls (fun _ ↦ InCounters D)) ∧
      AlongGets D s calls (fun pre s₁ key ↦
        Lossless D s pre s₁ → (InCounters D s₁ key ↔ Roomy D s pre s₁ key)) := by
  obtain ⟨hk30, hs₀⟩ := start_eq_ok.mp hs
  have hn₀ : s.hash.n = NBITS := by rw [hs₀]
  have hk₀ : s.hash.k = k := by rw [hs₀]
  have hkn : k ≤ NBITS := hk30.trans (by decide)
  have hgets {pre : List Call} {key : Nat} (hpre : pre ++ [.get key] <+: calls) :
      ∀ c ∈ pre, c.InsertOrGet :=
    fun c hcm ↦ hc c (((List.prefix_append pre _).trans hpre).subset hcm)
  -- with less than two bits of index the shifts of `hashCode` are undefined
  have hblank (hk : ¬ 2 ≤ k) {pre : List Call} {key : Nat} {s₁ : State}
      (hrun : run D s pre = .ok s₁) (m : Mem) (head : Head) : ¬ Shifts s₁ key m head := by
    refine not_shifts_of_blank (blank_run hs ?_ hrun)
    rw [NBITS]
    omega
  have hiff : AlongGets D s calls (fun pre s₁ key ↦
      Lossless D s pre s₁ → (InCounters D s₁ key ↔ Roomy D s pre s₁ key)) := by
    intro pre key s₁ hpre hrun hl
    have hroomy : Roomy D s pre s₁ key ↔ ((∃ m head, Shifts s₁ key m head) →
        insertionsInto s₁.hash (s₁.hash.index key) pre ≤ countersSize) := by
      simp only [Roomy, hl, forall_const, not_true_eq_false, false_imp_iff, and_true]
    rw [hroomy]
    by_cases hk : 2 ≤ k
    · have hb : NBITS - k ≤ 30 := by
        rw [NBITS]
        omega
      refine Counted.inCounters_iff ?_
      rcases hl with hsame | ⟨hnew, hkeep⟩
      · exact counted_run hs hkn hb (hgets hpre) hrun (hsame.trans hk₀)
      · obtain ⟨ring, t, hkeys⟩ := keyed_run hs hk (hgets hpre) hnew hkeep hrun
        exact hkeys.counted t.table.chained
    · constructor
      · rintro - ⟨m, head, hsh⟩
        exact absurd hsh (hblank hk hrun m head)
      · intro _ m head hsh
        exact absurd hsh (hblank hk hrun m head)
  refine ⟨?_, hiff⟩
  intro hroomy pre key s₁ hpre hrun
  by_cases hl : Lossless D s pre s₁
  · exact (hiff pre key s₁ hpre hrun hl).mpr (hroomy pre key s₁ hpre hrun)
  · by_cases hk : 2 ≤ k
    · exact ((bounded_run hs hk (hgets hpre) hrun).ringFits hn₀
        (fun hsh ↦ (hroomy pre key s₁ hpre hrun hsh).2 hl)).inCounters
    · exact fun m head hsh ↦ absurd hsh (hblank hk hrun m head)

/-- Three keys of one bucket, and the four requests before its shift. -/
def beforeShift : List Call :=
  [.insert 4 1, .insert 5 1, .insert 6 1, .get 5, .get 5, .get 5, .get 5]

/-- The get of key 5 after `beforeShift` shifts the bucket, within the array. -/
theorem inCounters_run_shifted :
    ∃ s s₁, start .init 0 NBITS 2 = .ok s ∧ run ℚ s beforeShift = .ok s₁ ∧
      (∃ m head, Shifts s₁ 5 m head) ∧
      AlongGets ℚ s (beforeShift ++ [.get 5]) (fun _ ↦ InCounters ℚ) := by
  let s₀ : State := ⟨.init, ⟨32, 2, 4, fun _ ↦ none⟩, 0⟩
  have hshifts : (do
      let s ← run ℚ s₀ beforeShift
      callsShift s 5) = .ok true := by decide +kernel
  obtain ⟨s₁, hrun, hshifts⟩ := bind_eq_ok.mp hshifts
  refine ⟨s₀, s₁, rfl, hrun, exists_shifts_iff.mpr hshifts, ?_⟩
  refine (inCounters_run (m := .init) (k := 2) (r := 0) rfl
    (by simp [beforeShift, Call.InsertOrGet])).1 ?_
  intro pre key s₂ hpre _ _
  have hlen : pre.length ≤ 8 := ((List.prefix_append pre _).trans hpre).length_le
  have hcount (h : Hash) (i : Nat) : insertionsInto h i pre ≤ countersSize :=
    (List.countP_le_length.trans ((List.length_filterMap_le _ _).trans hlen)).trans (by decide)
  exact ⟨fun _ ↦ hcount _ _, fun _ ↦ hcount _ _⟩

theorem insertOrGet_insertions_gets (keys : List Nat) (j key : Nat) :
    ∀ c ∈ insertions keys ++ List.replicate j (.get key), c.InsertOrGet := by
  intro c hc
  rcases List.mem_append.mp hc with hc | hc
  · obtain ⟨q, -, rfl⟩ := List.mem_map.mp hc
    trivial
  · rw [List.eq_of_mem_replicate hc]
    trivial

/-- Insertions of 100001 keys of one bucket, and four requests for the first of them. -/
def overrun : List Call := insertions (List.range 100001) ++ List.replicate 4 (.get 0)

/-- After `overrun` a get of key 1 makes the shift write past its array. -/
theorem counters_overrun :
    ∃ s s₁, start .init 0 NBITS 2 = .ok s ∧ (∀ c ∈ overrun, c.InsertOrGet) ∧
      run ℚ s overrun = .ok s₁ ∧ ¬ InCounters ℚ s₁ 1 ∧ hashGet ℚ s₁ 1 = .error .outOfBounds := by
  let s₀ : State := ⟨.init, ⟨32, 2, 4, fun _ ↦ none⟩, 0⟩
  have hs : start .init 0 NBITS 2 = .ok s₀ := rfl
  have hc : ∀ c ∈ overrun, c.InsertOrGet := insertOrGet_insertions_gets _ _ _
  have hkeys : ∀ key ∈ List.range 100001, key < 2 ^ 32 ∧ key / 2 ^ (32 - 2) = 0 := by
    intro key hkey
    rw [List.mem_range] at hkey
    omega
  obtain ⟨s₁, hrun₁, hn₁, hk₁, hreq₁, hhead₁, -, ring, hr₁⟩ :=
    run_insertions (D := ℚ) hs (by decide) (by decide) List.nodup_range hkeys
  have hidx₁ (q : Nat) : s₁.hash.index q = q / 2 ^ 30 := by
    rw [Hash.index, Hash.bits, hn₁, hk₁, NBITS]
  rw [List.head?_range, if_neg (by decide)] at hhead₁
  obtain ⟨head, hslot, hkey⟩ := Option.map_eq_some_iff.mp hhead₁
  have t₁ := hr₁.table.chained
  obtain ⟨s₂, hrun₂, hm, hh, hreq₂, hslot₂⟩ := run_hotGets (D := ℚ) t₁
    (show 0 < 2 ^ s₁.hash.n by rw [hn₁]; decide) (hslot.symm ▸ congrArg _ (hidx₁ 0)) hkey 4
    hreq₁.ge (by rw [hreq₁]; decide)
  have hrun : run ℚ s₀ overrun = .ok s₂ := by
    rw [overrun, run_append, hrun₁, ok_bind, hrun₂]
  have hk₂ : s₂.hash.k = 2 := hh.k.trans hk₁
  have hidx₂ (q : Nat) : s₂.hash.index q = q / 2 ^ 30 := by
    rw [(hh.rotated t₁).index, hidx₁]
  have hr₂ := hr₁.rotated hm (hh.rotated t₁)
  obtain ⟨m, hsh⟩ := hr₂.shifts (show 1 < 2 ^ s₂.hash.n by rw [hh.n, hn₁]; decide)
    (by rw [history_insertions List.nodup_range (by simp)]; simp) (hidx₂ 1 ▸ hidx₁ 0 ▸ hslot₂)
    (by rw [hm.key, hkey]; decide) (by rw [hreq₂, hreq₁]; decide)
  obtain ⟨ring', t', hcount⟩ := counted_run hs (by decide) (by decide) hc hrun hk₂
  obtain ⟨xs, -, hx, hring⟩ := t'.shifts hsh
  rw [show s₂.hash.index 1 = 0 from (hidx₂ 1).trans (by decide)] at hx
  have hall : insertionsInto s₂.hash 0 overrun = 100001 := by
    rw [insertionsInto, overrun, insertedKeys_insertions_gets, List.countP_eq_length.mpr,
      List.length_range]
    intro key hkey
    rw [hidx₂, (hkeys key hkey).2]
    rfl
  have hlen : xs.length = 100000 := by
    have hlen := hcount 0 (by rw [t'.geometry.size, hk₂]; decide)
    rw [hall, hx] at hlen
    exact Nat.succ.inj hlen
  have herr := doHotspotShift_overflow (D := ℚ) hring hlen.ge
  exact ⟨_, s₂, hs, hc, hrun, fun hin ↦ (hin _ _ hsh).1 herr, hsh.hashGet_error herr⟩

end Jeopardy.Hotring
