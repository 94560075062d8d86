import Jeopardy.Hotring.Program
import Jeopardy.Hotring.Table

/-!
# Tables refine finite maps

As long as no rehash happens, insertion by tag keeps every ring sorted by key, from every
position of its head. So `__hash_get` answers from the finite map that the calls so far
have built.
-/

namespace Jeopardy.Hotring

open Rings Fault

/-- A sorted table that stands for the finite map `f`. -/
structure Refines (m : Mem) (h : Hash) (ring : Nat → List Nat) (f : Nat → Option Nat) :
    Prop where
  table : Table m h ring
  sorted : Sorted m h ring
  contents : ∀ q < 2 ^ h.n, contents m h ring q = f q

variable {m m' : Mem} {h h' : Hash} {ring ring' : Nat → List Nat} {f : Nat → Option Nat}
  {q key value : Nat}

/-- The rings are read from other nodes of theirs, and nothing else has changed. -/
structure Rotated (h h' : Hash) (ring ring' : Nat → List Nat) : Prop where
  n : h'.n = h.n
  k : h'.k = h.k
  size : h'.size = h.size
  rotated : ∀ i < h.size, (ring i).IsRotated (ring' i)
  head : ∀ i < h.size, (h'.slots i).map Head.addr = (ring' i).head?

theorem SameHeads.rotated (hs : SameHeads h h') (t : Chained m h ring) : Rotated h h' ring ring :=
  ⟨hs.n, hs.k, hs.size, fun _ _ ↦ List.IsRotated.refl _,
    fun i hi ↦ (hs.addr i).trans (t.bucket i hi).head⟩

theorem Rotated.bits (r : Rotated h h' ring ring') : h'.bits = h.bits := by
  rw [Hash.bits, r.n, r.k, Hash.bits]

theorem Rotated.index (r : Rotated h h' ring ring') (q : Nat) : h'.index q = h.index q := by
  rw [Hash.index, r.bits, Hash.index]

theorem Rotated.trans {h'' : Hash} {ring'' : Nat → List Nat} (r : Rotated h h' ring ring')
    (r' : Rotated h' h'' ring' ring'') : Rotated h h'' ring ring'' := by
  refine ⟨r'.n.trans r.n, r'.k.trans r.k, r'.size.trans r.size, ?_, ?_⟩
  · intro i hi
    exact (r.rotated i hi).trans (r'.rotated i (r.size ▸ hi))
  · intro i hi
    exact r'.head i (r.size ▸ hi)

theorem Rotated.mem_iff (r : Rotated h h' ring ring') {i a : Nat} (hi : i < h.size) :
    a ∈ ring' i ↔ a ∈ ring i := (r.rotated i hi).mem_iff.symm

theorem Chained.rotated (t : Chained m h ring) (hm : m.SameCells m')
    (r : Rotated h h' ring ring') : Chained m' h' ring' := by
  refine ⟨t.geometry.congr r.n r.k r.size, ?_, ?_⟩
  · intro i hi
    rw [r.size] at hi
    refine ⟨r.size ▸ hi, r.head i hi, ?_⟩
    rw [hm.next]
    exact (t.bucket i hi).linked.isRotated (r.rotated i hi)
  · intro i hi a ha
    rw [r.size] at hi
    rw [r.index, hm.key]
    exact t.index i hi a ((r.mem_iff hi).mp ha)

theorem Table.rotated (t : Table m h ring) (hm : m.SameCells m') (r : Rotated h h' ring ring') :
    Table m' h' ring' := by
  obtain ⟨hg, hb, hx⟩ := t.chained.rotated hm r
  refine ⟨hg, hb, hx, ?_⟩
  intro i hi
  rw [r.size] at hi
  rw [hm.key]
  exact (((r.rotated i hi).perm.map m.key).nodup_iff).mp (t.keys_nodup i hi)

theorem FreshTags.rotated (hf : FreshTags m h ring) (hm : m.SameCells m')
    (r : Rotated h h' ring ring') : FreshTags m' h' ring' := by
  intro i hi a ha
  rw [r.size] at hi
  rw [hm.tag, hm.key, Hash.tagOf, r.bits]
  exact hf i hi a ((r.mem_iff hi).mp ha)

namespace Refines

/-- Counters and the positions of the heads do not matter. -/
theorem rotated (r : Refines m h ring f) (hm : m.SameCells m') (hr : Rotated h h' ring ring') :
    Refines m' h' ring' f := by
  have t' := r.table.rotated hm hr
  refine ⟨t', ?_, ?_⟩
  · intro i hi
    rw [hr.size] at hi
    rw [hm.key]
    exact (r.sorted i hi).isRotated (hr.rotated i hi)
  · intro q hq
    have hq' : q < 2 ^ h.n := by rwa [← hr.n]
    have hi := r.table.geometry.index_lt hq'
    rw [← r.contents q hq']
    apply Option.ext
    intro v
    rw [t'.contents_eq_some hq, r.table.contents_eq_some hq', hr.index, hm.key, hm.value]
    constructor
    · rintro ⟨a, ha, hk⟩
      exact ⟨a, (hr.mem_iff hi).mp ha, hk⟩
    · rintro ⟨a, ha, hk⟩
      exact ⟨a, (hr.mem_iff hi).mpr ha, hk⟩

/-- `__hash_get` reports the value of the map. -/
theorem lookup_eq (r : Refines m h ring f) (hq : q < 2 ^ h.n) :
    lookup m h q = .ok ((f q).map (fun v ↦ (q, v))) := by
  rw [r.table.lookup_eq r.sorted hq, r.contents q hq]

/-- `__hash_get` itself keeps the map. -/
theorem rawHashGet_spec (r : Refines m h ring f) (hq : q < 2 ^ h.n) :
    ∃ m' h' g, rawHashGet m h q = .ok (m', h', g) ∧ m.SameCells m' ∧ SameHeads h h' ∧
      Refines m' h' ring f := by
  obtain ⟨m', h', hg, hm, hh⟩ := r.table.chained.rawHashGet_spec hq
  exact ⟨m', h', _, hg, hm, hh, r.rotated hm (hh.rotated r.table.chained)⟩

/-- A key the map does not hold is the key of no node. -/
theorem key_ne (r : Refines m h ring f) (hk : key < 2 ^ h.n) (hnew : f key = Option.none) :
    ∀ a ∈ ring (h.index key), m.key a ≠ key := by
  rw [← Table.contents_eq_none, r.contents key hk, hnew]

/-- `hash_insert` of a new key adds it to the map, if the ring of its bucket is still
sorted afterwards. -/
theorem placed (r : Refines m h ring f) (hk : key < 2 ^ h.n) (hnew : f key = Option.none)
    (p : Placed m m' h h' (h.index key) (ring (h.index key)) key (h.tagOf key) value)
    (hs : CyclicSorted m'.key (newRing m.tag (h.tagOf key) m.brk (ring (h.index key)))) :
    Refines m' h' (placeRing m ring (h.index key) (h.tagOf key))
      (Function.update f key (some value)) := by
  have hi := r.table.geometry.index_lt hk
  have hne := r.key_ne hk hnew
  refine ⟨r.table.placed p rfl hi hne, ?_, ?_⟩
  · intro j hj
    rw [p.size] at hj
    by_cases hji : j = h.index key
    · subst hji
      rw [placeRing_same]
      exact hs
    · rw [placeRing_of_ne hji]
      apply (r.sorted j hj).congr
      intro a ha
      apply p.key_old
      rintro rfl
      exact r.table.chained.brk_notMem hj ha
  · intro q hq
    rw [p.sizes.1] at hq
    rw [r.table.placed_contents p hk hne hq, Function.update_apply, r.contents q hq]

/-- In a table with fresh tags the place found by tag is the place of the key. -/
theorem placed_fresh (r : Refines m h ring f) (hf : FreshTags m h ring) (hk : key < 2 ^ h.n)
    (hnew : f key = Option.none)
    (p : Placed m m' h h' (h.index key) (ring (h.index key)) key (h.tagOf key) value) :
    Refines m' h' (placeRing m ring (h.index key) (h.tagOf key))
        (Function.update f key (some value)) ∧
      FreshTags m' h' (placeRing m ring (h.index key) (h.tagOf key)) := by
  have hi := r.table.geometry.index_lt hk
  have hf' := r.table.placed_freshTags p hf
  refine ⟨r.placed hk hnew p ?_, hf'⟩
  have t' := r.table.placed p rfl hi (r.key_ne hk hnew)
  have htag := r.table.placed_sorted_tag p hi ((r.table.sorted_iff_tag hf hi).mp (r.sorted _ hi))
  rw [← placeRing_same] at htag ⊢
  exact (t'.sorted_iff_tag hf' (p.size ▸ hi)).mpr htag

/-- `hash_insert` of a new key into a table with fresh tags. -/
theorem hashInsert_spec (r : Refines m h ring f) (hf : FreshTags m h ring) (hk : key < 2 ^ h.n)
    (hnew : f key = Option.none) (value : Nat) :
    ∃ m' h' ring', hashInsert m h key value = .ok (m', h', 0) ∧ h'.n = h.n ∧ h'.k = h.k ∧
      Refines m' h' ring' (Function.update f key (some value)) ∧ FreshTags m' h' ring' := by
  obtain ⟨m', h', hi, p⟩ := r.table.chained.hashInsert_spec hk value
  obtain ⟨hr, hf'⟩ := r.placed_fresh hf hk hnew p
  exact ⟨m', h', _, hi, p.sizes.1, p.sizes.2.1, hr, hf'⟩

end Refines

/-! ### Moving a head -/

/-- Walking along a ring ends at a node from which the ring can be read. -/
theorem walk_spec {xs : List Nat} {a : Nat} (hr : IsRing m.next (a :: xs)) (steps : Nat) :
    ∃ b ys, walk m a steps = .ok b ∧ (a :: xs).IsRotated (b :: ys) := by
  induction steps generalizing a xs with
  | zero => exact ⟨a, xs, rfl, List.IsRotated.refl _⟩
  | succ steps ih =>
    obtain ⟨b, ys, hb, hrot⟩ := hr.advance
    obtain ⟨nd, hnd, rfl⟩ := Mem.node_of_next hb
    obtain ⟨c, zs, hc, hrot'⟩ := ih (hr.isRotated hrot)
    refine ⟨c, zs, ?_, hrot.trans hrot'⟩
    rw [walk, Mem.read_eq hnd, ok_bind, hc]

/-- A bucket whose head moves to `b`, the start of the rotation `b :: ys` of its ring. -/
theorem Chained.rotated_setSlot (t : Chained m h ring) {i b : Nat} {ys : List Nat} {head : Head}
    (hb : (ring i).IsRotated (b :: ys)) (ha : head.addr = b) :
    Rotated h (h.setSlot i (some head)) ring (Function.update ring i (b :: ys)) := by
  refine ⟨rfl, rfl, rfl, ?_, ?_⟩
  · intro j _
    by_cases hji : j = i
    · subst hji
      rw [Function.update_self]
      exact hb
    · rw [Function.update_of_ne hji]
  · intro j hj
    by_cases hji : j = i
    · subst hji
      simp [Hash.setSlot, ha]
    · rw [Function.update_of_ne hji]
      simpa [Hash.setSlot, hji] using (t.bucket j hj).head

theorem Chained.repointHead_spec (t : Chained m h ring) {i : Nat} (hi : i < h.size) (steps : Nat) :
    ∃ h' ring', repointHead m h i steps = .ok h' ∧ Rotated h h' ring ring' := by
  have hb := t.bucket i hi
  rw [repointHead, hb.slot_eq, ok_bind]
  cases hs : h.slots i with
  | none => exact ⟨h, ring, rfl, (SameHeads.refl h).rotated t⟩
  | some head =>
    obtain ⟨xs, hx⟩ := t.ring_eq_cons hi hs
    have hl := hb.linked
    rw [hx] at hl
    obtain ⟨b, ys, hw, hrot⟩ := walk_spec hl steps
    rw [← hx] at hrot
    refine ⟨h.setSlot i (some (.ofPtr b)), _, ?_, t.rotated_setSlot hrot rfl⟩
    simp only [hw, ok_bind]
    rfl

/-! ### Programs without rehash -/

/-- The memory with a table that was just allocated. -/
theorem refines_start {n k : Nat} {r : Int} {s : State} (hs : start m r n k = .ok s)
    (hk : k ≤ n) (hb : n - k ≤ 30) :
    s.hash.n = n ∧ s.hash.k = k ∧ Refines s.mem s.hash (fun _ ↦ []) (history []) ∧
      FreshTags s.mem s.hash (fun _ ↦ []) := by
  obtain ⟨hk30, rfl⟩ := start_eq_ok.mp hs
  refine ⟨rfl, rfl, ⟨⟨⟨hk30, hk, hb, rfl⟩, ?_, ?_, ?_⟩, ?_, ?_⟩, ?_⟩
  · intro i hi
    exact ⟨hi, rfl, isRing_nil⟩
  · simp
  · simp
  · intro i _
    exact cyclicSorted_of_pairwise List.Pairwise.nil
  · intro q _
    rfl
  · simp [FreshTags]

/-- The calls of a program on a table of `2 ^ k` buckets that never shifts: insertions and
searches of keys of `n` bits, and moves of the heads of existing buckets. -/
def Call.Plain (n k : Nat) : Call → Prop
  | .insert key _ => key < 2 ^ n
  | .lookup key => key < 2 ^ n
  | .repoint index _ => index < 2 ^ k
  | _ => False

/-- A plain call completes and acts on the map. -/
theorem Refines.step {D : Type} [DoubleArith D] {s : State} {c : Call}
    (r : Refines s.mem s.hash ring f) (hf : FreshTags s.mem s.hash ring)
    (hc : c.Plain s.hash.n s.hash.k) (hnew : ∀ key ∈ c.insertedKey, f key = Option.none) :
    ∃ s' ring', c.step D s = .ok s' ∧ s'.hash.n = s.hash.n ∧ s'.hash.k = s.hash.k ∧
      Refines s'.mem s'.hash ring' (c.effect f) ∧ FreshTags s'.mem s'.hash ring' := by
  cases c with
  | insert key value =>
    obtain ⟨m', h', ring', hi, hn, hk, hr, hf'⟩ :=
      r.hashInsert_spec hf hc (hnew key rfl) value
    exact ⟨⟨m', h', s.nr_request⟩, ring', by rw [Call.step, hi]; rfl, hn, hk, hr, hf'⟩
  | lookup key =>
    obtain ⟨m', h', g, hg, hm, hh, hr⟩ := r.rawHashGet_spec hc
    exact ⟨⟨m', h', s.nr_request⟩, ring, by rw [Call.step, hg]; rfl, hh.n, hh.k, hr,
      hf.rotated hm (hh.rotated r.table.chained)⟩
  | get key => exact hc.elim
  | delete key => exact hc.elim
  | repoint index steps =>
    have hi : index < s.hash.size := by
      rw [r.table.geometry.size]
      exact hc
    obtain ⟨h', ring', hp, hrot⟩ := r.table.chained.repointHead_spec hi steps
    exact ⟨⟨s.mem, h', s.nr_request⟩, ring', by rw [Call.step, hp]; rfl, hrot.n, hrot.k,
      r.rotated (.refl _) hrot, hf.rotated (.refl _) hrot⟩

/-- A plain program on a new table completes, and the table then stands for its history. -/
theorem run_refines {D : Type} [DoubleArith D] {n k : Nat} {r : Int} {s : State}
    {calls : List Call} (hs : start m r n k = .ok s) (hk : k ≤ n) (hb : n - k ≤ 30)
    (hc : ∀ c ∈ calls, c.Plain n k) (hd : (insertedKeys calls).Nodup) :
    ∃ s', run D s calls = .ok s' ∧ s'.hash.n = n ∧
      ∃ ring, Refines s'.mem s'.hash ring (history calls) := by
  obtain ⟨hn, hk', hr, hf⟩ := refines_start hs hk hb
  let P (s : State) (pre : List Call) : Prop := s.hash.n = n ∧ s.hash.k = k ∧
    ∃ ring, Refines s.mem s.hash ring (history pre) ∧ FreshTags s.mem s.hash ring
  have hstep (s₁ : State) (pre : List Call) (c : Call) (hp : P s₁ pre)
      (hpre : pre ++ [c] <+: calls) : ∃ s₂, c.step D s₁ = .ok s₂ ∧ P s₂ (pre ++ [c]) := by
    obtain ⟨hn₁, hk₁, ring, hr₁, hf₁⟩ := hp
    have hcp : c.Plain s₁.hash.n s₁.hash.k := by
      rw [hn₁, hk₁]
      exact hc c (hpre.subset (by simp))
    have hnew (key : Nat) (hkey : key ∈ c.insertedKey) : history pre key = Option.none :=
      history_eq_none (notMem_insertedKeys hd hpre hkey)
    obtain ⟨s₂, ring', hs₂, hn₂, hk₂, hr₂, hf₂⟩ := hr₁.step (D := D) hf₁ hcp hnew
    rw [← history_concat] at hr₂
    exact ⟨s₂, hs₂, hn₂.trans hn₁, hk₂.trans hk₁, ring', hr₂, hf₂⟩
  have h0 : P s [] := ⟨hn, hk', _, hr, hf⟩
  obtain ⟨s', hrun, hn', -, ring, hr', -⟩ := run_total h0 hstep
  exact ⟨s', hrun, hn', ring, hr'⟩

/-- After any sequence of insertions of distinct keys, searches and head moves on a new
table, `__hash_get` finds exactly the inserted keys, each with its value. -/
theorem lookup_after_run {D : Type} [DoubleArith D] {n k : Nat} {r : Int} {s : State}
    {calls : List Call} (hs : start m r n k = .ok s) (hpos : 1 ≤ n - k) (hb : n - k ≤ 30)
    (hc : ∀ c ∈ calls, c.Plain n k) (hd : (insertedKeys calls).Nodup) :
    ∃ s', run D s calls = .ok s' ∧ ∀ q < 2 ^ n,
      (∀ v, Call.insert q v ∈ calls → lookup s'.mem s'.hash q = .ok (some (q, v))) ∧
      ((∀ v, Call.insert q v ∉ calls) → lookup s'.mem s'.hash q = .ok Option.none) := by
  obtain ⟨s', hrun, hn, ring, hr⟩ := run_refines (D := D) hs (by omega) hb hc hd
  refine ⟨s', hrun, ?_⟩
  intro q hq
  have hl := hr.lookup_eq (q := q) (by rwa [hn])
  constructor
  · intro v hv
    rw [hl, history_of_insert hd (fun key hm ↦ hc _ hm) hv]
    rfl
  · intro hno
    have hnot : q ∉ insertedKeys calls := by
      intro hm
      obtain ⟨c, hcm, hck⟩ := List.mem_filterMap.mp hm
      cases c with
      | insert key value =>
        rw [Call.insertedKey, Option.some.injEq] at hck
        exact hno value (hck ▸ hcm)
      | _ => simp [Call.insertedKey] at hck
    rw [hl, history_eq_none hnot]
    rfl

/-- Four buckets of four keys; bucket one is searched from a moved head. -/
theorem lookup_after_run_moved_head :
    ∃ s', run ℚ ⟨.init, ⟨4, 2, 4, fun _ ↦ Option.none⟩, 0⟩
        [.insert 5 50, .insert 7 70, .repoint 1 1, .insert 6 60, .lookup 4] = .ok s' ∧
      ∀ q < 2 ^ 4,
        (∀ v, Call.insert q v ∈ [Call.insert 5 50, .insert 7 70, .repoint 1 1, .insert 6 60,
          .lookup 4] → lookup s'.mem s'.hash q = .ok (some (q, v))) ∧
        ((∀ v, Call.insert q v ∉ [Call.insert 5 50, .insert 7 70, .repoint 1 1, .insert 6 60,
          .lookup 4]) → lookup s'.mem s'.hash q = .ok Option.none) :=
  lookup_after_run (m := .init) (k := 2) (r := 0) rfl (by decide) (by decide)
    (by simp [Call.Plain]) (by decide)

end Jeopardy.Hotring
