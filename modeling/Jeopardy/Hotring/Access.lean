import Jeopardy.Hotring.Collect

/-!
# Accesses that shift and accesses that do not

`hash_get` calls `do_hotspot_shift` on a cold access once five requests have been counted. An
access to the key of a head is hot: however often it is repeated, it only counts.
-/

namespace Jeopardy.Hotring

open Rings Fault

variable {D : Type} [DoubleArith D] {m m' : Mem} {h h' : Hash} {ring : Nat → List Nat}
  {f : Nat → Option Nat} {s s' : State} {key : Nat}

/-- `hash_get` of `key` calls `do_hotspot_shift` on the memory `m` and the head `head`,
`hotring/hotring.c:206–224,635–641`. -/
def Shifts (s : State) (key : Nat) (m : Mem) (head : Head) : Prop :=
  ∃ h r index tag, rawHashGet s.mem s.hash key = .ok (m, h, r) ∧ r.ret = .accessCold ∧
    5 ≤ bumpRequest s.nr_request ∧ hashCode h key = .ok (index, tag) ∧
    h.slot index = .ok (some head)

/-- Whether `hash_get` of `key` calls `do_hotspot_shift`. -/
def callsShift (s : State) (key : Nat) : Except Fault Bool := do
  let (_, h, r) ← rawHashGet s.mem s.hash key
  let (index, _) ← hashCode h key
  let slot ← h.slot index
  return r.ret = .accessCold && 5 ≤ bumpRequest s.nr_request && slot.isSome

theorem exists_shifts_iff : (∃ m head, Shifts s key m head) ↔ callsShift s key = .ok true := by
  constructor
  · rintro ⟨m, head, h, r, index, tag, hg, hret, hreq, hcode, hslot⟩
    rw [callsShift, hg, ok_bind]
    simp only [hcode, ok_bind, hslot, hret, hreq, Option.isSome_some]
    rfl
  · intro hc
    obtain ⟨⟨m, h, r⟩, hg, hc⟩ := bind_eq_ok.mp hc
    obtain ⟨⟨index, tag⟩, hcode, hc⟩ := bind_eq_ok.mp hc
    obtain ⟨slot, hslot, hc⟩ := bind_eq_ok.mp hc
    simp only [pure, Except.pure, Except.ok.injEq, Bool.and_eq_true, decide_eq_true_eq] at hc
    obtain ⟨head, rfl⟩ := Option.isSome_iff_exists.mp hc.2
    exact ⟨m, head, h, r, index, tag, hg, hc.1.1, hc.1.2, hcode, hslot⟩

/-- A fault of the shift is a fault of `hash_get`. -/
theorem Shifts.hashGet_error {head : Head} {e : Fault} (hs : Shifts s key m head)
    (he : doHotspotShift D m head = .error e) : hashGet D s key = .error e := by
  obtain ⟨h, r, index, tag, hg, hret, hreq, hcode, hslot⟩ := hs
  rw [hashGet, hg]
  simp only [ok_bind, hcode, hret, if_pos hreq, hotspotShift, hotspotShiftHead, hslot, he,
    error_bind]

/-- A shift of a table is called on the ring of the key. -/
theorem Chained.shifts {head : Head} (t : Chained s.mem s.hash ring)
    (hs : Shifts s key m head) :
    ∃ xs, s.mem.SameCells m ∧ ring (s.hash.index key) = head.addr :: xs ∧
      IsRing m.next (head.addr :: xs) := by
  obtain ⟨h, r, index, tag, hg, -, -, hcode, hslot⟩ := hs
  have hq := t.geometry.lt_of_rawHashGet hg
  obtain ⟨m₂, h₂, hg₂, hm, hh⟩ := t.rawHashGet_spec hq
  rw [hg, Except.ok.injEq, Prod.mk.injEq, Prod.mk.injEq] at hg₂
  obtain ⟨rfl, rfl, -⟩ := hg₂
  have t' := t.rotated hm (hh.rotated t)
  rw [t'.geometry.hashCode_eq, Except.ok.injEq, Prod.mk.injEq] at hcode
  obtain ⟨rfl, -⟩ := hcode
  have hi : h.index key < h.size := by
    apply t'.geometry.index_lt
    rw [hh.n]
    exact hq
  have hidx : h.index key = s.hash.index key := (hh.rotated t).index key
  rw [(t'.bucket _ hi).slot_eq, Except.ok.injEq] at hslot
  obtain ⟨xs, hx⟩ := t'.ring_eq_cons hi hslot
  refine ⟨xs, hm, ?_, ?_⟩
  · rw [← hidx, hx]
  · rw [← hx]
    exact (t'.bucket _ hi).linked

/-- `__hash_get` counts an access at the head of the bucket. -/
theorem rawHashGet_head {g : GetResult} {head : Head} {index tag : Nat}
    (hg : rawHashGet m h key = .ok (m', h', g)) (hcode : hashCode h key = .ok (index, tag))
    (hslot : h.slots index = some head) :
    h'.slots index = some { head with counter := head.counter + 1 } := by
  have hset (v : Option Head) : (h.setSlot index v).slots index = v := by simp [Hash.setSlot]
  rw [rawHashGet, hcode, ok_bind] at hg
  obtain ⟨slot, hs, hg⟩ := bind_eq_ok.mp hg
  obtain rfl := (slot_eq_ok hs).2
  rw [hslot] at hg
  obtain ⟨nd, -, hg⟩ := bind_eq_ok.mp hg
  split at hg
  · obtain ⟨m₁, -, hg⟩ := bind_eq_ok.mp hg
    simp only [pure, Except.pure, Except.ok.injEq, Prod.mk.injEq] at hg
    rw [← hg.2.1, hset]
  · obtain ⟨out, -, hg⟩ := bind_eq_ok.mp hg
    simp only [pure, Except.pure, Except.ok.injEq, Prod.mk.injEq] at hg
    rw [← hg.2.1, hset]

/-- The key at the head of a bucket. -/
def headKey (m : Mem) (h : Hash) (i : Nat) : Option Nat :=
  (h.slots i).map (fun head ↦ m.key head.addr)

/-- A stored key that is not at the head of its bucket is accessed cold, and from the fifth
request on its bucket is shifted. -/
theorem Refines.shifts {head : Head} (r : Refines s.mem s.hash ring f) (hq : key < 2 ^ s.hash.n)
    (hf : f key ≠ Option.none) (hslot : s.hash.slots (s.hash.index key) = some head)
    (hkey : s.mem.key head.addr ≠ key) (hreq : 5 ≤ bumpRequest s.nr_request) :
    ∃ m, Shifts s key m { head with counter := head.counter + 1 } := by
  have t := r.table.chained
  have hi := t.geometry.index_lt hq
  obtain ⟨m', h', hg, -, hh⟩ := t.rawHashGet_spec hq
  have hcode := t.geometry.hashCode_eq key
  have hcode' := (rawHashGet_shape hg).hashCode key
  refine ⟨m', h', _, _, _, hg, ?_, hreq, hcode'.trans hcode, ?_⟩
  · obtain ⟨v, hv⟩ := Option.ne_none_iff_exists'.mp hf
    rw [← r.contents key hq] at hv
    obtain ⟨a, ha, hak, -⟩ := (r.table.contents_eq_some hq).mp hv
    have hne := ringGet_ne_absent (r.sorted _ hi) ha
    rw [hak] at hne
    rcases ringGet_cases s.mem.key key (ring (s.hash.index key)) with
      he | ⟨c, ys, hr, hck, -⟩ | ⟨x, y, ps, ys, -, -, he⟩
    · exact absurd he hne
    · obtain ⟨xs, hx⟩ := t.ring_eq_cons hi hslot
      rw [hx, List.cons.injEq] at hr
      exact absurd hck (hr.1 ▸ hkey)
    · rw [he]
  · rw [Hash.slot, if_pos (hh.size ▸ hi), rawHashGet_head hg hcode hslot]

/-- What holds of every get of a program when it is called. -/
def AlongGets (D : Type) [DoubleArith D] (s : State) (calls : List Call)
    (P : List Call → State → Nat → Prop) : Prop :=
  ∀ pre key s₁, pre ++ [.get key] <+: calls → run D s pre = .ok s₁ → P pre s₁ key

/-! ### One bucket filled -/

theorem Chained.headKey_placed {i tag value : Nat} (t : Chained m h ring)
    (p : Placed m m' h h' i (ring i) key tag value) (hi : i < h.size) :
    headKey m' h' i = some ((headKey m h i).getD key) := by
  have hold := (t.bucket i hi).head
  have hnew := p.bucket.head
  rw [head?_newRing, ← hold] at hnew
  obtain ⟨head', hslot', ha'⟩ := Option.map_eq_some_iff.mp hnew
  rw [headKey, hslot', Option.map_some, ha', headKey]
  cases hslot : h.slots i with
  | none =>
    rw [Option.map_none, Option.getD_none, p.key_new]
    rfl
  | some head =>
    obtain ⟨xs, hx⟩ := t.ring_eq_cons hi hslot
    have hmem : head.addr ∈ ring i := hx ▸ List.mem_cons_self
    simp only [Option.map_some, Option.getD_some]
    rw [p.key_old (fun he ↦ t.brk_notMem hi (he ▸ hmem))]

/-- The program that inserts the given keys. -/
def insertions (keys : List Nat) : List Call := keys.map (fun key ↦ .insert key 1)

theorem insertedKeys_insertions (keys : List Nat) : insertedKeys (insertions keys) = keys := by
  induction keys with
  | nil => rfl
  | cons key keys ih =>
    rw [insertions, insertedKeys, List.map_cons, List.filterMap_cons] at *
    simp only [Call.insertedKey]
    rw [ih]

/-- Gets insert no keys. -/
theorem insertedKeys_insertions_gets (keys : List Nat) (j key : Nat) :
    insertedKeys (insertions keys ++ List.replicate j (.get key)) = keys := by
  have hgets : insertedKeys (List.replicate j (.get key)) = [] := by
    rw [insertedKeys, List.filterMap_eq_nil_iff]
    intro c hc
    rw [List.eq_of_mem_replicate hc]
    rfl
  rw [insertedKeys, List.filterMap_append, ← insertedKeys, ← insertedKeys,
    insertedKeys_insertions, hgets, List.append_nil]

theorem history_insertions {keys : List Nat} (hd : keys.Nodup) (hkey : key ∈ keys) :
    history (insertions keys) key = some 1 := by
  apply history_of_insert
  · rwa [insertedKeys_insertions]
  · intro q hm
    obtain ⟨_, -, he⟩ := List.mem_map.mp hm
    cases he
  · exact List.mem_map.mpr ⟨key, hkey, rfl⟩

/-- No head of the table has counted an access. -/
def Unaccessed (h : Hash) : Prop := ∀ i head, h.slots i = some head → head.counter = 0

/-- An insertion counts no access. -/
theorem Unaccessed.insert {value : Nat} {e : Int} (hu : Unaccessed h)
    (hr : hashInsert m h key value = .ok (m', h', e)) : Unaccessed h' := by
  obtain ⟨⟨index, tag⟩, -, hr⟩ := bind_eq_ok.mp hr
  obtain ⟨⟨m₁, h₁, node⟩, hc, hr⟩ := bind_eq_ok.mp hr
  obtain ⟨⟨m₂, e₂⟩, -, hr⟩ := bind_eq_ok.mp hr
  have hh : h₁ = h' := by
    simp only [pure, Except.pure] at hr
    split at hr <;> cases hr <;> rfl
  subst hh
  obtain ⟨slot, -, hc⟩ := bind_eq_ok.mp hc
  cases slot with
  | some head =>
    obtain ⟨m₃, -, hc⟩ := bind_eq_ok.mp hc
    obtain ⟨m₄, -, hc⟩ := bind_eq_ok.mp hc
    cases hc
    exact hu
  | none =>
    obtain ⟨m₃, -, hc⟩ := bind_eq_ok.mp hc
    obtain ⟨m₄, -, hc⟩ := bind_eq_ok.mp hc
    cases hc
    intro i head hs
    by_cases hi : i = index
    · simp only [Hash.setSlot, hi, ↓reduceIte, Option.some.injEq] at hs
      rw [← hs]
      rfl
    · simp only [Hash.setSlot, hi, ↓reduceIte] at hs
      exact hu i head hs

/-- Distinct keys of one bucket inserted into a new table: the first of them is at the head. -/
theorem run_insertions {n k : Nat} {r : Int} (hs : start m r n k = .ok s) (hk : k ≤ n)
    (hb : n - k ≤ 30) {keys : List Nat} {i : Nat} (hd : keys.Nodup)
    (hkeys : ∀ key ∈ keys, key < 2 ^ n ∧ key / 2 ^ (n - k) = i) :
    ∃ s', run D s (insertions keys) = .ok s' ∧ s'.hash.n = n ∧ s'.hash.k = k ∧
      s'.nr_request = r ∧ headKey s'.mem s'.hash i = keys.head? ∧ Unaccessed s'.hash ∧
      ∃ ring, Refines s'.mem s'.hash ring (history (insertions keys)) := by
  obtain ⟨hn₀, hk₀, hr₀, hf₀⟩ := refines_start hs hk hb
  have hstart : s.nr_request = r ∧ ∀ j, s.hash.slots j = Option.none := by
    obtain ⟨-, rfl⟩ := start_eq_ok.mp hs
    exact ⟨rfl, fun _ ↦ rfl⟩
  let P (s : State) (pre : List Call) : Prop := s.hash.n = n ∧ s.hash.k = k ∧
    s.nr_request = r ∧ headKey s.mem s.hash i = (insertedKeys pre).head? ∧
    Unaccessed s.hash ∧
    ∃ ring, Refines s.mem s.hash ring (history pre) ∧ FreshTags s.mem s.hash ring
  have hu₀ : Unaccessed s.hash := by
    intro j head hj
    rw [hstart.2] at hj
    cases hj
  have h0 : P s [] :=
    ⟨hn₀, hk₀, hstart.1, by rw [headKey, hstart.2]; rfl, hu₀, _, hr₀, hf₀⟩
  have hstep (s₁ : State) (pre : List Call) (c : Call) (hp : P s₁ pre)
      (hpre : pre ++ [c] <+: insertions keys) :
      ∃ s₂, c.step D s₁ = .ok s₂ ∧ P s₂ (pre ++ [c]) := by
    obtain ⟨hn₁, hk₁, hreq, hhead, hu, ring, hr, hf⟩ := hp
    obtain ⟨key, hmem, rfl⟩ := List.mem_map.mp (hpre.subset (show c ∈ pre ++ [c] by simp))
    obtain ⟨hlt, hidx⟩ := hkeys key hmem
    rw [← hn₁] at hlt
    have hidx' : s₁.hash.index key = i := by rw [Hash.index, Hash.bits, hn₁, hk₁, hidx]
    have hnew : history pre key = Option.none := by
      apply history_eq_none
      exact notMem_insertedKeys ((insertedKeys_insertions keys).symm ▸ hd) hpre rfl
    obtain ⟨m₂, h₂, hi, p⟩ := hr.table.chained.hashInsert_spec hlt 1
    obtain ⟨hr₂, hf₂⟩ := hr.placed_fresh hf hlt hnew p
    have hhead₂ := hr.table.chained.headKey_placed p (hr.table.geometry.index_lt hlt)
    rw [hidx', hhead] at hhead₂
    refine ⟨⟨m₂, h₂, s₁.nr_request⟩, by rw [Call.step, hi]; rfl, p.sizes.1.trans hn₁,
      p.sizes.2.1.trans hk₁, hreq, ?_, hu.insert hi, _, ?_, hf₂⟩
    · rw [hhead₂, insertedKeys_concat]
      cases insertedKeys pre with
      | nil => rfl
      | cons q qs => rfl
    · rw [history_concat]
      exact hr₂
  obtain ⟨s', hrun, hn', hk', hreq, hhead, hu, ring, hr, -⟩ := run_total h0 hstep
  rw [insertedKeys_insertions] at hhead
  exact ⟨s', hrun, hn', hk', hreq, hhead, hu, ring, hr⟩

/-! ### Hot accesses -/

/-- Requests are counted up to the largest `int`. -/
theorem bumpRequest_eq {r : Int} (h0 : 0 ≤ r) (h1 : r + 1 < 2 ^ 31) : bumpRequest r = r + 1 := by
  rw [bumpRequest, Int.bmod_def]
  omega

/-- A get of the key of a head counts the request and the access and does no more. -/
theorem hashGet_hot {head : Head} (t : Chained s.mem s.hash ring) (hq : key < 2 ^ s.hash.n)
    (hslot : s.hash.slots (s.hash.index key) = some head) (hkey : s.mem.key head.addr = key) :
    ∃ m, s.mem.SameCells m ∧ hashGet D s key =
      .ok (⟨m, s.hash.setSlot (s.hash.index key) (some { head with counter := head.counter + 1 }),
        bumpRequest s.nr_request⟩, 1, ⟨.accessHot, some head.addr, 0⟩) := by
  obtain ⟨xs, hx⟩ := t.ring_eq_cons (t.geometry.index_lt hq) hslot
  have hb := t.bucket _ (t.geometry.index_lt hq)
  obtain ⟨nd, hnd⟩ := Mem.node_of_ring hb.linked (hx ▸ List.mem_cons_self)
  obtain ⟨m, hm, hs, -⟩ := bumpCounter_spec hnd
  have hnk : nd.key = key := (Mem.key_of_node hnd).symm.trans hkey
  refine ⟨m, hs, ?_⟩
  rw [hashGet, rawHashGet, t.geometry.hashCode_eq, ok_bind]
  simp only [hb.slot_eq, hslot, ok_bind, Mem.read_eq hnd, if_pos hnk, hm, pure, Except.pure,
    (SameShape.setSlot _ _ _).hashCode, t.geometry.hashCode_eq]

/-- Repeated gets of the key of a head only count. -/
theorem run_hotGets {head : Head} (t : Chained s.mem s.hash ring) (hq : key < 2 ^ s.hash.n)
    (hslot : s.hash.slots (s.hash.index key) = some head) (hkey : s.mem.key head.addr = key)
    (j : Nat) (h0 : 0 ≤ s.nr_request) (h1 : s.nr_request + j < 2 ^ 31) :
    ∃ s', run D s (List.replicate j (.get key)) = .ok s' ∧ s.mem.SameCells s'.mem ∧
      SameHeads s.hash s'.hash ∧ s'.nr_request = s.nr_request + j ∧
      s'.hash.slots (s.hash.index key)
        = some { head with counter := head.counter + BitVec.ofNat 15 j } := by
  induction j with
  | zero =>
    refine ⟨s, rfl, .refl _, .refl _, by omega, ?_⟩
    rw [hslot]
    simp
  | succ j ih =>
    obtain ⟨s₁, hrun, hm, hh, hreq, hslot₁⟩ := ih (by omega)
    have t₁ := t.rotated hm (hh.rotated t)
    have hidx : s₁.hash.index key = s.hash.index key := (hh.rotated t).index key
    rw [← hidx] at hslot₁
    obtain ⟨m₂, hm₂, hget⟩ := hashGet_hot (D := D) t₁ (by rw [hh.n]; exact hq) hslot₁
      (by rw [hm.key]; exact hkey)
    let s₂ : State := ⟨m₂, s₁.hash.setSlot (s₁.hash.index key)
      (some { head with counter := head.counter + BitVec.ofNat 15 j + 1 }),
      bumpRequest s₁.nr_request⟩
    have hh₂ : SameHeads s₁.hash s₂.hash := by
      refine ⟨rfl, rfl, rfl, ?_⟩
      intro i
      by_cases he : i = s₁.hash.index key
      · simp [s₂, Hash.setSlot, he, hslot₁]
      · simp [s₂, Hash.setSlot, he]
    refine ⟨s₂, ?_, hm.trans hm₂, hh.trans hh₂, ?_, ?_⟩
    · rw [List.replicate_succ', run_concat, hrun, ok_bind, Call.step, hget]
      rfl
    · show bumpRequest s₁.nr_request = _
      rw [bumpRequest_eq (by omega) (by omega), hreq]
      omega
    · simp only [s₂, Hash.setSlot, hidx, ↓reduceIte, Option.some.injEq, Head.mk.injEq, and_true,
        true_and]
      rw [BitVec.add_assoc, BitVec.ofNat_add]
      rfl

end Jeopardy.Hotring
