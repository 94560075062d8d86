import Jeopardy.Hotring.Counting
import Jeopardy.Hotring.Access

/-!
# The counters along a program

Whoever watches a program can count for themselves: the searches of every bucket and the times
every key was found since the last shift of its bucket, a new key starting at one. The counters in
the link words and in the heads are these numbers, as far as their 14 and 15 bits go. So what a
shift weighs are the accesses since the last one.
-/

namespace Jeopardy.Hotring

open Rings Fault

variable {D : Type} [DoubleArith D] {m m' m₁ : Mem} {h h' h₁ : Hash} {ring ring' : Nat → List Nat}
  {s s' : State} {q key value : Nat} {g : GetResult} {calls : List Call} {ks : List Nat}

/-- What a watcher counts: searches by bucket and finds by key. -/
structure Tally where
  accesses : Nat → Nat
  hits : Nat → Nat

namespace Tally

/-- Before the first call. -/
def zero : Tally := ⟨fun _ ↦ 0, fun _ ↦ 0⟩

/-- A search for `key` in the table `h` that answers `g`. -/
def access (t : Tally) (h : Hash) (key : Nat) (g : GetResult) : Tally where
  accesses := if (h.slots (h.index key)).isSome then
      Function.update t.accesses (h.index key) (t.accesses (h.index key) + 1)
    else t.accesses
  hits := if g.ret = .notFound then t.hits else Function.update t.hits key (t.hits key + 1)

theorem access_accesses (t : Tally) (h : Hash) (key : Nat) (g : GetResult) :
    (t.access h key g).accesses = if (h.slots (h.index key)).isSome then
      Function.update t.accesses (h.index key) (t.accesses (h.index key) + 1)
    else t.accesses := rfl

theorem access_hits (t : Tally) (h : Hash) (key : Nat) (g : GetResult) :
    (t.access h key g).hits =
      if g.ret = .notFound then t.hits else Function.update t.hits key (t.hits key + 1) := rfl

/-- A new node for `key`. -/
def place (t : Tally) (key : Nat) : Tally where
  accesses := t.accesses
  hits := Function.update t.hits key 1

theorem place_hits (t : Tally) (key : Nat) :
    (t.place key).hits = Function.update t.hits key 1 := rfl

/-- A head for bucket `i` that has counted nothing. -/
def clear (t : Tally) (i : Nat) : Tally where
  accesses := Function.update t.accesses i 0
  hits := t.hits

theorem clear_accesses (t : Tally) (i j : Nat) :
    (t.clear i).accesses j = if j = i then 0 else t.accesses j := Function.update_apply ..

/-- A shift of bucket `i` of the table `h`. -/
def restart (t : Tally) (h : Hash) (i : Nat) : Tally where
  accesses := Function.update t.accesses i 0
  hits := fun q ↦ if h.index q = i then 0 else t.hits q

theorem restart_accesses (t : Tally) (h : Hash) (i j : Nat) :
    (t.restart h i).accesses j = if j = i then 0 else t.accesses j := Function.update_apply ..

theorem restart_hits (t : Tally) (h : Hash) (i q : Nat) :
    (t.restart h i).hits q = if h.index q = i then 0 else t.hits q := rfl

theorem restart_congr (t : Tally) {h h' : Hash} (hidx : ∀ q, h'.index q = h.index q) (i : Nat) :
    t.restart h' i = t.restart h i := by
  rw [restart, restart]
  simp only [hidx]

end Tally

/-- What `__hash_get` answers in a state. -/
def answer (s : State) (key : Nat) : GetResult :=
  match rawHashGet s.mem s.hash key with
  | .ok (_, _, g) => g
  | .error _ => .absent

/-- The tally after a call in the state `s`: a cold find from the fifth request on is a shift, and
a deletion at the head empties the slot. -/
def Tally.step (t : Tally) (s : State) : Call → Tally
  | .insert key _ => t.place key
  | .lookup key => t.access s.hash key (answer s key)
  | .get key =>
    let t := t.access s.hash key (answer s key)
    if (answer s key).ret = .accessCold ∧ 5 ≤ bumpRequest s.nr_request then
      t.restart s.hash (s.hash.index key)
    else t
  | .delete key =>
    let t := t.access s.hash key (answer s key)
    if (answer s key).ret = .accessHot then t.clear (s.hash.index key) else t
  | .repoint index _ => t.clear index

/-- One call under watch. -/
def Call.watch (D : Type) [DoubleArith D] (p : State × Tally) (c : Call) :
    Except Fault (State × Tally) := do
  let s ← c.step D p.1
  return (s, p.2.step p.1 c)

/-- A program under watch. -/
def watched (D : Type) [DoubleArith D] (s : State) (calls : List Call) :
    Except Fault (State × Tally) :=
  calls.foldlM (Call.watch D) (s, .zero)

theorem watched_concat_eq_ok {c : Call} {t : Tally} :
    watched D s (calls ++ [c]) = .ok (s', t) ↔
      ∃ s₁ t₁, watched D s calls = .ok (s₁, t₁) ∧ c.step D s₁ = .ok s' ∧ t = t₁.step s₁ c := by
  rw [watched, List.foldlM_append, bind_eq_ok]
  simp only [List.foldlM_cons, List.foldlM_nil, bind_pure, Prod.exists]
  constructor
  · rintro ⟨s₁, t₁, h1, h2⟩
    obtain ⟨s₂, hc, h2⟩ := bind_eq_ok.mp h2
    cases h2
    exact ⟨s₁, t₁, h1, hc, rfl⟩
  · rintro ⟨s₁, t₁, h1, hc, rfl⟩
    exact ⟨s₁, t₁, h1, bind_eq_ok.mpr ⟨s', hc, rfl⟩⟩

/-- Watching changes nothing: the watched program completes exactly when the program does, and in
the same state. -/
theorem watched_iff_run : (∃ t, watched D s calls = .ok (s', t)) ↔ run D s calls = .ok s' := by
  induction calls using List.reverseRecOn generalizing s' with
  | nil =>
    constructor
    · rintro ⟨t, ht⟩
      cases ht
      rfl
    · intro hrun
      cases hrun
      exact ⟨_, rfl⟩
  | append_singleton calls c ih =>
    simp only [watched_concat_eq_ok, run_concat, bind_eq_ok, ← ih]
    constructor
    · rintro ⟨t, s₁, t₁, h1, hc, -⟩
      exact ⟨s₁, ⟨t₁, h1⟩, hc⟩
    · rintro ⟨s₁, ⟨t₁, h1⟩, hc⟩
      exact ⟨_, s₁, t₁, h1, hc, rfl⟩

/-! ### The counters show the tally -/

/-- The finds counted on a ring. -/
def Tally.load (t : Tally) (m : Mem) (xs : List Nat) : Nat := ((xs.map m.key).map t.hits).sum

/-- The counters of a table that holds keys among `ks` show the tally. -/
structure Tallied (m : Mem) (h : Hash) (ring : Nat → List Nat) (t : Tally) (ks : List Nat) :
    Prop where
  table : Table m h ring
  keys : ∀ i < h.size, ∀ a ∈ ring i, m.key a ∈ ks
  head : ∀ i < h.size, h.accesses i = t.accesses i % 2 ^ 15
  node : ∀ i < h.size, ∀ a ∈ ring i, m.counter a = t.hits (m.key a) % 2 ^ 14
  load_le : ∀ i < h.size, t.load m (ring i) ≤ t.accesses i + ks.length

/-- One more find of one key. -/
theorem sum_map_update_succ_le {f : Nat → Nat} {l : List Nat} (hd : l.Nodup) :
    (l.map (Function.update f q (f q + 1))).sum ≤ (l.map f).sum + 1 := by
  induction l with
  | nil => exact Nat.zero_le _
  | cons x l ih =>
    obtain ⟨hx, hd⟩ := List.nodup_cons.mp hd
    rw [List.map_cons, List.map_cons, List.sum_cons, List.sum_cons]
    by_cases hxq : x = q
    · subst hxq
      have hrest : l.map (Function.update f x (f x + 1)) = l.map f := by
        apply List.map_congr_left
        intro y hy
        rw [Function.update_of_ne]
        rintro rfl
        exact hx hy
      rw [Function.update_self, hrest]
      omega
    · rw [Function.update_of_ne hxq]
      have := ih hd
      omega

/-- The slot of a bucket is used exactly when its ring has nodes. -/
theorem BucketAt.isSome_slot {i : Nat} {xs : List Nat} (hb : BucketAt m h i xs) :
    (h.slots i).isSome = true ↔ xs ≠ [] := by
  rw [← Option.isSome_map (f := Head.addr), hb.head, List.isSome_head?]

/-- The node a search answers is the one with the key. -/
theorem Table.ringGet_node_iff (t : Table m h ring) {j a : Nat} (hj : j < h.size)
    (ha : a ∈ ring j) : (ringGet m.key q (ring (h.index q))).node = some a ↔
      (ringGet m.key q (ring (h.index q))).ret ≠ .notFound ∧ m.key a = q := by
  have hone {x : Nat} (hx : x ∈ ring (h.index q)) (hk : m.key x = q) : x = a ↔ m.key a = q := by
    constructor
    · rintro rfl
      exact hk
    · intro hak
      obtain rfl : h.index q = j := hak ▸ t.index j hj a ha
      exact t.node_eq_of_key hj hx ha (hk.trans hak.symm)
  rcases ringGet_cases m.key q (ring (h.index q)) with hg | ⟨c, ys, hr, hc, hg⟩ |
    ⟨x, y, ps, zs, hr, hx, hg⟩
  · simp [hg, GetResult.absent]
  · simp [hg, hone (hr ▸ List.mem_cons_self) hc]
  · simp [hg, hone (hr ▸ by simp) hx]

/-- A search answers no predecessor exactly for the head. -/
theorem Table.ringGet_hot_iff (t : Table m h ring) (hq : h.index q < h.size) {e : Nat}
    (he : (ringGet m.key q (ring (h.index q))).node = some e) :
    (ringGet m.key q (ring (h.index q))).ret = .accessHot ↔
      (ringGet m.key q (ring (h.index q))).prev = 0 := by
  rcases ringGet_cases m.key q (ring (h.index q)) with hg | ⟨c, ys, -, -, hg⟩ |
    ⟨x, y, ps, zs, hr, -, hg⟩
  · rw [hg] at he
    cases he
  · simp [hg]
  · obtain ⟨nd, hnd⟩ := Mem.node_of_ring (t.bucket _ hq).linked (show y ∈ _ by simp [hr])
    simp [hg, Mem.ne_zero_of_node hnd]

/-- A deletion leaves parts of the rings. -/
theorem Table.hotringDelete_rings {b : Bool} (t : Table m h ring)
    (hr : hotringDelete m h q = .ok (m', h', b)) :
    ∃ ring', Table m' h' ring' ∧ h'.size = h.size ∧
      (∀ i < h.size, (ring' i).Sublist (ring i)) ∧
      ∀ i < h.size, ∀ a ∈ ring' i, m'.key a = m.key a := by
  have hq : q < 2 ^ h.n := by
    obtain ⟨⟨m₁, h₁, g⟩, hg, -⟩ := bind_eq_ok.mp hr
    exact t.geometry.lt_of_rawHashGet hg
  obtain ⟨m₂, h₂, found, hd, hcase⟩ := t.hotringDelete_cases hq
  rw [hr, Except.ok.injEq, Prod.mk.injEq, Prod.mk.injEq] at hd
  obtain ⟨rfl, rfl, -⟩ := hd
  rcases hcase with ⟨hm, hh⟩ | ⟨ys, p⟩
  · refine ⟨ring, t.congr hm hh, hh.size, fun i _ ↦ List.Sublist.refl _, fun i _ a _ ↦ ?_⟩
    rw [hm.key]
  · exact ⟨_, p.table t, p.shape.size, fun i _ ↦ p.ring_sublist i,
      fun i hi a ha ↦ (p.data hi ha).key⟩

namespace Tallied

variable {t : Tally}

theorem accesses_access {i : Nat} (T : Tallied m h ring t ks) (hq : h.index q < h.size) :
    (t.access h q g).accesses i =
      if i = h.index q ∧ ring (h.index q) ≠ [] then t.accesses i + 1 else t.accesses i := by
  rw [Tally.access_accesses]
  by_cases hne : ring (h.index q) = []
  · have hnone : ¬ (h.slots (h.index q)).isSome = true :=
      fun h ↦ (T.table.bucket _ hq).isSome_slot.mp h hne
    rw [if_neg hnone, if_neg (fun hi ↦ hi.2 hne)]
  · rw [if_pos ((T.table.bucket _ hq).isSome_slot.mpr hne), Function.update_apply]
    simp only [hne, ne_eq, not_false_eq_true, and_true]
    split
    · next hi => rw [hi]
    · rfl

/-- The finds counted on a ring grow with the searches of its bucket. -/
theorem load_access {i : Nat} (T : Tallied m h ring t ks) (hq : h.index q < h.size)
    (hi : i < h.size) :
    (t.access h q g).load m (ring i) ≤ (t.access h q g).accesses i + ks.length := by
  have hle := T.load_le i hi
  rw [Tally.load] at hle
  rw [Tally.load, T.accesses_access hq, Tally.access_hits]
  by_cases hfound : g.ret = .notFound
  · rw [if_pos hfound]
    split
    · omega
    · exact hle
  · rw [if_neg hfound]
    by_cases hidx : i = h.index q
    · have hsum := sum_map_update_succ_le (q := q) (f := t.hits) (T.table.keys_nodup i hi)
      by_cases hne : ring i = []
      · rw [hne, List.map_nil, List.map_nil, List.sum_nil]
        exact Nat.zero_le _
      · rw [if_pos ⟨hidx, hidx ▸ hne⟩]
        omega
    · have hsame : ((ring i).map m.key).map (Function.update t.hits q (t.hits q + 1))
          = ((ring i).map m.key).map t.hits := by
        apply List.map_congr_left
        intro k hk
        obtain ⟨a, ha, rfl⟩ := List.mem_map.mp hk
        rw [Function.update_of_ne]
        rintro rfl
        exact hidx (T.table.index i hi a ha).symm
      rw [hsame, if_neg (fun h ↦ hidx h.1)]
      exact hle

/-- A search counts what it finds. -/
theorem access (T : Tallied m h ring t ks) (hr : rawHashGet m h q = .ok (m', h', g)) :
    Tallied m' h' ring (t.access h q g) ks := by
  have hq := T.table.geometry.lt_of_rawHashGet hr
  have hi := T.table.geometry.index_lt hq
  obtain ⟨m₂, h₂, hg₂, hm, hh⟩ := T.table.chained.rawHashGet_spec hq
  rw [hr, Except.ok.injEq, Prod.mk.injEq, Prod.mk.injEq] at hg₂
  obtain ⟨rfl, rfl, hg⟩ := hg₂
  obtain ⟨hnode, hhead⟩ := rawHashGet_counts T.table.geometry (T.table.bucket _ hi) hr
  refine ⟨T.table.congr hm hh, ?_, ?_, ?_, ?_⟩
  · intro i hlt a ha
    rw [hm.key]
    exact T.keys i (hh.size ▸ hlt) a ha
  · intro i hlt
    rw [hhead, T.accesses_access hi, T.head i (hh.size ▸ hlt)]
    by_cases hc : i = h.index q ∧ ring (h.index q) ≠ []
    · rw [if_pos hc, if_pos hc, Nat.mod_add_mod]
    · rw [if_neg hc, if_neg hc]
  · intro i hlt a ha
    rw [hh.size] at hlt
    have hiff := T.table.ringGet_node_iff (q := q) hlt ha
    rw [← hg] at hiff
    rw [hnode, hm.key, T.node i hlt a ha, Tally.access_hits]
    by_cases hfound : g.ret = .notFound
    · rw [if_neg (fun h ↦ (hiff.mp h).1 hfound), if_pos hfound]
    · rw [if_neg hfound, Function.update_apply]
      by_cases hk : m.key a = q
      · rw [if_pos (hiff.mpr ⟨hfound, hk⟩), if_pos hk, hk, Nat.mod_add_mod]
      · rw [if_neg (fun h ↦ hk (hiff.mp h).2), if_neg hk]
  · intro i hlt
    rw [hh.size] at hlt
    rw [Tally.load, hm.key]
    exact T.load_access hi hlt

/-- An insertion of a new key starts its tally at one. -/
theorem insert {e : Int} (T : Tallied m h ring t ks) (hnew : key ∉ ks)
    (hr : hashInsert m h key value = .ok (m', h', e)) :
    ∃ ring', Tallied m' h' ring' (t.place key) (ks ++ [key]) := by
  have hq := T.table.geometry.lt_of_hashInsert hr
  have hi := T.table.geometry.index_lt hq
  obtain ⟨hnode, hacc⟩ := hashInsert_counts hr
  obtain ⟨m₂, h₂, hr₂, p⟩ := T.table.chained.hashInsert_spec hq value
  rw [hr, Except.ok.injEq, Prod.mk.injEq, Prod.mk.injEq] at hr₂
  obtain ⟨rfl, rfl, -⟩ := hr₂
  have hne {i a : Nat} (hlt : i < h.size) (ha : a ∈ ring i) : m.key a ≠ key := by
    rintro rfl
    exact hnew (T.keys i hlt a ha)
  have hold {i a : Nat} (hlt : i < h.size) (ha : a ∈ ring i) : a ≠ m.brk := by
    rintro rfl
    exact T.table.chained.brk_notMem hlt ha
  have hload {i : Nat} (hlt : i < h.size) :
      (t.place key).load m' (ring i) = t.load m (ring i) := by
    rw [Tally.load, Tally.load, List.map_map, List.map_map]
    apply congrArg List.sum
    apply List.map_congr_left
    intro a ha
    rw [Function.comp_apply, Function.comp_apply, p.key_old (hold hlt ha), Tally.place_hits,
      Function.update_of_ne (hne hlt ha)]
  refine ⟨_, T.table.placed p rfl hi (fun a ha ↦ hne hi ha), ?_, ?_, ?_, ?_⟩
  · intro i hlt a ha
    rw [p.size] at hlt
    rcases mem_placeRing.mp ha with ⟨-, rfl⟩ | ha
    · rw [p.key_new]
      exact List.mem_append_right ks (List.mem_singleton_self key)
    · rw [p.key_old (hold hlt ha)]
      exact List.mem_append_left _ (T.keys i hlt a ha)
  · intro i hlt
    rw [hacc]
    exact T.head i (p.size ▸ hlt)
  · intro i hlt a ha
    rw [p.size] at hlt
    rw [hnode, Tally.place_hits]
    rcases mem_placeRing.mp ha with ⟨-, rfl⟩ | ha
    · rw [if_pos rfl, p.key_new, Function.update_self]
      rfl
    · rw [if_neg (hold hlt ha), p.key_old (hold hlt ha), Function.update_of_ne (hne hlt ha)]
      exact T.node i hlt a ha
  · intro i hlt
    rw [p.size] at hlt
    have hle := T.load_le i hlt
    rw [List.length_append, List.length_singleton]
    by_cases hidx : i = h.index key
    · subst hidx
      have hperm := T.table.chained.placed_perm p hi
      rw [Tally.load, ((hperm.map m'.key).map _).sum_eq, List.map_cons, List.map_cons,
        List.sum_cons, p.key_new, Tally.place_hits, Function.update_self, ← Tally.place_hits,
        ← Tally.load, hload hi]
      change 1 + t.load m (ring (h.index key)) ≤ t.accesses (h.index key) + (ks.length + 1)
      omega
    · rw [placeRing_of_ne hidx, hload hlt]
      change t.load m (ring i) ≤ t.accesses i + (ks.length + 1)
      omega

/-- A shift starts the tally of its bucket anew. -/
theorem restart {i : Nat} (T : Tallied m h ring t ks) (hi : i < h.size) (hm : m.SameCells m')
    (hrot : Rotated h h' ring ring')
    (hnode : ∀ a, m'.counter a = if a ∈ ring i then 0 else m.counter a)
    (hhead : ∀ j, h'.accesses j = if j = i then 0 else h.accesses j) :
    Tallied m' h' ring' (t.restart h i) ks := by
  refine ⟨T.table.rotated hm hrot, ?_, ?_, ?_, ?_⟩
  · intro j hj a ha
    rw [hrot.size] at hj
    rw [hm.key]
    exact T.keys j hj a ((hrot.mem_iff hj).mp ha)
  · intro j hj
    rw [hrot.size] at hj
    rw [hhead, Tally.restart_accesses]
    split
    · rfl
    · exact T.head j hj
  · intro j hj a ha
    rw [hrot.size] at hj
    have ha' := (hrot.mem_iff hj).mp ha
    rw [hnode, hm.key, Tally.restart_hits, T.table.index j hj a ha']
    by_cases hji : j = i
    · rw [if_pos (hji ▸ ha'), if_pos hji]
      rfl
    · rw [if_neg (T.table.chained.ring_disjoint hj hi hji ha'), if_neg hji]
      exact T.node j hj a ha'
  · intro j hj
    rw [hrot.size] at hj
    have hperm := (hrot.rotated j hj).perm.symm
    rw [Tally.load, hm.key, ((hperm.map m.key).map _).sum_eq, Tally.restart_accesses, List.map_map]
    by_cases hji : j = i
    · rw [List.sum_eq_zero]
      · exact Nat.zero_le _
      · intro x hx
        obtain ⟨a, ha, rfl⟩ := List.mem_map.mp hx
        rw [Function.comp_apply, Tally.restart_hits, if_pos ((T.table.index j hj a ha).trans hji)]
    · rw [if_neg hji]
      have hsame : (ring j).map ((t.restart h i).hits ∘ m.key) = (ring j).map (t.hits ∘ m.key) := by
        apply List.map_congr_left
        intro a ha
        rw [Function.comp_apply, Tally.restart_hits, T.table.index j hj a ha, if_neg hji,
          Function.comp_apply]
      rw [hsame, ← List.map_map]
      exact T.load_le j hj

/-- The counters of a table still show the tally when nodes have left their rings. -/
theorem sublist {t' : Tally} (T : Tallied m h ring t ks) (ht : Table m' h' ring')
    (hsize : h'.size = h.size) (hsub : ∀ i < h.size, (ring' i).Sublist (ring i))
    (hdata : ∀ i < h.size, ∀ a ∈ ring' i, m'.key a = m.key a ∧ m'.counter a = m.counter a)
    (hhead : ∀ i < h.size, h'.accesses i = t'.accesses i % 2 ^ 15) (hhits : t'.hits = t.hits)
    (hempty : ∀ i < h.size, t'.accesses i = t.accesses i ∨ ring' i = []) :
    Tallied m' h' ring' t' ks := by
  refine ⟨ht, ?_, ?_, ?_, ?_⟩
  · intro i hi a ha
    rw [hsize] at hi
    rw [(hdata i hi a ha).1]
    exact T.keys i hi a ((hsub i hi).subset ha)
  · intro i hi
    exact hhead i (hsize ▸ hi)
  · intro i hi a ha
    rw [hsize] at hi
    rw [(hdata i hi a ha).2, (hdata i hi a ha).1, hhits]
    exact T.node i hi a ((hsub i hi).subset ha)
  · intro i hi
    rw [hsize] at hi
    rcases hempty i hi with he | he
    · have hmap : (ring' i).map m'.key = (ring' i).map m.key :=
        List.map_congr_left (fun a ha ↦ (hdata i hi a ha).1)
      rw [Tally.load, hhits, hmap, he]
      exact (List.Sublist.sum_le_sum (((hsub i hi).map m.key).map t.hits)
        (fun _ _ ↦ Nat.zero_le _)).trans (T.load_le i hi)
    · rw [he]
      exact Nat.zero_le _

/-- A deletion counts as a search, and clears the slot if it found its key at the head. -/
theorem delete {b : Bool} (T : Tallied m h ring t ks)
    (hr : hotringDelete m h q = .ok (m', h', b)) (hg : rawHashGet m h q = .ok (m₁, h₁, g)) :
    ∃ ring', Tallied m' h' ring' (if g.ret = .accessHot then
      (t.access h q g).clear (h.index q) else t.access h q g) ks := by
  have hq := T.table.geometry.lt_of_rawHashGet hg
  have hi := T.table.geometry.index_lt hq
  have T₁ := T.access hg
  obtain ⟨m₂, h₂, hg₂, hm, hh⟩ := T.table.chained.rawHashGet_spec hq
  rw [hg, Except.ok.injEq, Prod.mk.injEq, Prod.mk.injEq] at hg₂
  obtain ⟨rfl, rfl, hgr⟩ := hg₂
  obtain ⟨m₂, h₂, g₂, hg₂, hcase⟩ := hotringDelete_counts hr
  rw [hg, Except.ok.injEq, Prod.mk.injEq, Prod.mk.injEq] at hg₂
  obtain ⟨rfl, rfl, rfl⟩ := hg₂
  obtain ⟨ring', ht, hsize, hsub, hkey⟩ := T.table.hotringDelete_rings hr
  have hkey₁ {i a : Nat} (hlt : i < h.size) (ha : a ∈ ring' i) : m'.key a = m₁.key a := by
    rw [hm.key]
    exact hkey i hlt a ha
  refine ⟨ring', ?_⟩
  rw [← hh.size] at hsize hsub
  rcases hcase with ⟨hret, rfl, rfl⟩ | ⟨e, hnode, hgone, hkept, hslot⟩
  · rw [if_neg (by rw [hret]; decide)]
    exact T₁.sublist ht rfl hsub (fun i hlt a ha ↦ ⟨rfl, rfl⟩) T₁.head rfl (fun _ _ ↦ Or.inl rfl)
  · have hdata (i : Nat) (hlt : i < h₁.size) (a : Nat) (ha : a ∈ ring' i) :
        m'.key a = m₁.key a ∧ m'.counter a = m₁.counter a := by
      refine ⟨hkey₁ (hh.size ▸ hlt) ha, hkept a ?_⟩
      rintro rfl
      obtain ⟨nd, hnd⟩ := Mem.node_of_ring (ht.bucket i (hsize ▸ hlt)).linked ha
      rw [hgone] at hnd
      cases hnd
    have hhot := T.table.ringGet_hot_iff hi (hgr ▸ hnode)
    rw [← hgr] at hhot
    rcases hslot with ⟨hprev, rfl⟩ | ⟨hprev, i, tag, hcode, rfl⟩
    · rw [if_neg (fun h ↦ hprev (hhot.mp h))]
      exact T₁.sublist ht rfl hsub hdata T₁.head rfl (fun _ _ ↦ Or.inl rfl)
    · rw [T₁.table.geometry.hashCode_eq, Except.ok.injEq, Prod.mk.injEq] at hcode
      obtain ⟨rfl, -⟩ := hcode
      have hidx : h₁.index q = h.index q := (hh.rotated T.table.chained).index q
      rw [if_pos (hhot.mpr hprev)]
      refine T₁.sublist ht rfl hsub hdata ?_ rfl ?_
      · intro j hj
        rw [accesses_setSlot, Tally.clear_accesses, hidx]
        split
        · rfl
        · exact T₁.head j hj
      · intro j hj
        rw [Tally.clear_accesses, ← hidx]
        split
        · next hji =>
          have hnone : (h₁.setSlot (h₁.index q) none).slots j = none := if_pos hji
          have hb := (ht.bucket j (hsize ▸ hj)).head
          rw [hnone] at hb
          exact Or.inr (List.head?_eq_none_iff.mp hb.symm)
        · exact Or.inl rfl

/-- A shift without a rehash. -/
theorem shift [LawfulDouble D] {i : Nat} (T : Tallied m h ring t ks) (hi : i < h.size)
    (hr : hotspotShift D m h i = .ok (m', h')) (hk : h'.k = h.k) :
    ∃ ring', Tallied m' h' ring' (t.restart h i) ks := by
  obtain ⟨m₂, h₂, ret, hhead, ⟨rfl, rfl, rfl⟩ | ⟨rfl, hre⟩⟩ := hotspotShift_cases hr
  · obtain ⟨hm, ⟨ring', hrot⟩ | ⟨hret, -⟩⟩ := T.table.chained.hotspotShiftHead_spec hi hhead
    · obtain ⟨slot, hslot, hhead⟩ := bind_eq_ok.mp hhead
      obtain ⟨-, hslot⟩ := slot_eq_ok hslot
      cases slot with
      | none => cases hhead
      | some head =>
        obtain ⟨⟨m₃, head', ret⟩, hd, hhead⟩ := bind_eq_ok.mp hhead
        cases hhead
        obtain ⟨xs, hx⟩ := T.table.chained.ring_eq_cons hi hslot
        obtain ⟨hnode, hcounter⟩ := doHotspotShift_counts (hx ▸ (T.table.bucket i hi).linked) hd
        refine ⟨ring', T.restart hi hm hrot (hx ▸ hnode) (fun j ↦ ?_)⟩
        rw [accesses_setSlot, Option.map_some, hcounter]
        rfl
    · cases hret
  · have hk' := (hotringRehash_shape hre).2.1
    rw [(hotspotShiftHead_shape hhead).k] at hk'
    omega

/-- A get that does not rehash counts as a search, and possibly shifts. -/
theorem get [LawfulDouble D] {e : Int} (T : Tallied s.mem s.hash ring t ks)
    (hr : hashGet D s q = .ok (s', e, g)) (hk : s'.hash.k = s.hash.k) :
    ∃ ring', Tallied s'.mem s'.hash ring' (t.step s (.get q)) ks := by
  obtain ⟨⟨m₁, h₁, g₁⟩, hg, hr⟩ := bind_eq_ok.mp hr
  obtain ⟨⟨i, tag⟩, hcode, hr⟩ := bind_eq_ok.mp hr
  have hq := T.table.geometry.lt_of_rawHashGet hg
  have T₁ := T.access hg
  have hans : answer s q = g₁ := by rw [answer, hg]
  obtain ⟨m₂, h₂, hg₂, hm, hh⟩ := T.table.chained.rawHashGet_spec hq
  rw [hg, Except.ok.injEq, Prod.mk.injEq, Prod.mk.injEq] at hg₂
  obtain ⟨rfl, rfl, -⟩ := hg₂
  rw [T₁.table.geometry.hashCode_eq, Except.ok.injEq, Prod.mk.injEq] at hcode
  obtain ⟨rfl, -⟩ := hcode
  have hidx := (hh.rotated T.table.chained).index
  rw [Tally.step, hans]
  simp only [pure, Except.pure] at hr ⊢
  split at hr
  · next hret =>
    cases hr
    rw [if_neg (by simp [hret])]
    exact ⟨ring, T₁⟩
  · next hret =>
    cases hr
    rw [if_neg (by simp [hret])]
    exact ⟨ring, T₁⟩
  · next hret =>
    split at hr
    · next hreq =>
      obtain ⟨⟨m₂, h₂⟩, hshift, hr⟩ := bind_eq_ok.mp hr
      cases hr
      rw [if_pos ⟨hret, hreq⟩, ← hidx, ← Tally.restart_congr _ hidx]
      exact T₁.shift (T₁.table.geometry.index_lt (hh.n ▸ hq)) hshift (hk.trans hh.k.symm)
    · next hreq =>
      cases hr
      rw [if_neg (fun h ↦ hreq h.2)]
      exact ⟨ring, T₁⟩
  · next hret =>
    cases hr
    rw [if_neg (by simp [hret])]
    exact ⟨ring, T₁⟩

/-- A call of a program that does not rehash keeps the counters at the tally. -/
theorem step [LawfulDouble D] {c : Call} (T : Tallied s.mem s.hash ring t ks)
    (hc : c.step D s = .ok s') (hk : s'.hash.k = s.hash.k) (hnew : ∀ key ∈ c.insertedKey, key ∉ ks)
    (hrep : ∀ index steps, c ≠ .repoint index steps) :
    ∃ ring', Tallied s'.mem s'.hash ring' (t.step s c) (ks ++ c.insertedKey.toList) := by
  cases c with
  | insert key value =>
    obtain ⟨e, hi⟩ := step_insert hc
    exact T.insert (hnew key rfl) hi
  | lookup key =>
    obtain ⟨g, hg⟩ := step_lookup hc
    have hans : answer s key = g := by rw [answer, hg]
    refine ⟨ring, ?_⟩
    rw [Tally.step, hans]
    exact (List.append_nil ks).symm ▸ T.access hg
  | get key =>
    obtain ⟨e, g, hg⟩ := step_get hc
    exact (List.append_nil ks).symm ▸ T.get hg hk
  | delete key =>
    obtain ⟨b, hd⟩ := step_delete hc
    obtain ⟨⟨m₁, h₁, g⟩, hg, -⟩ := bind_eq_ok.mp hd
    have hans : answer s key = g := by rw [answer, hg]
    rw [Tally.step, hans]
    exact (List.append_nil ks).symm ▸ T.delete hd hg
  | repoint index steps => exact absurd rfl (hrep index steps)

end Tallied

section Run

variable {n k : Nat} {r : Int} {t : Tally}

/-- A search counts once for its bucket and once for its key at most. -/
theorem Tally.access_le (t : Tally) (h : Hash) (key : Nat) (g : GetResult) :
    (∀ i, (t.access h key g).accesses i ≤ t.accesses i + 1) ∧
      ∀ q, (t.access h key g).hits q ≤ t.hits q + 1 := by
  have hupdate (f : Nat → Nat) (j i : Nat) : Function.update f j (f j + 1) i ≤ f i + 1 := by
    rw [Function.update_apply]
    split
    · next hi => rw [hi]
    · exact Nat.le_succ _
  rw [Tally.access_accesses, Tally.access_hits]
  constructor
  · intro i
    split
    · exact hupdate _ _ _
    · exact Nat.le_succ _
  · intro q
    split
    · exact Nat.le_succ _
    · exact hupdate _ _ _

theorem Tally.step_le (t : Tally) (s : State) (c : Call) :
    (∀ i, (t.step s c).accesses i ≤ t.accesses i + 1) ∧
      ∀ q, (t.step s c).hits q ≤ t.hits q + 1 := by
  have hclear (t' : Tally) (j i : Nat) : (t'.clear j).accesses i ≤ t'.accesses i := by
    rw [Tally.clear_accesses]
    split
    · exact Nat.zero_le _
    · exact le_rfl
  cases c with
  | insert key value =>
    refine ⟨fun i ↦ Nat.le_succ _, fun q ↦ ?_⟩
    rw [Tally.step, Tally.place_hits, Function.update_apply]
    split
    · exact Nat.le_add_left _ _
    · exact Nat.le_succ _
  | lookup key => exact t.access_le _ _ _
  | get key =>
    have hle := t.access_le s.hash key (answer s key)
    rw [Tally.step]
    split
    · refine ⟨fun i ↦ (hclear _ _ i).trans (hle.1 i), fun q ↦ ?_⟩
      rw [Tally.restart_hits]
      split
      · exact Nat.zero_le _
      · exact hle.2 q
    · exact hle
  | delete key =>
    have hle := t.access_le s.hash key (answer s key)
    rw [Tally.step]
    split
    · exact ⟨fun i ↦ (hclear _ _ i).trans (hle.1 i), hle.2⟩
    · exact hle
  | repoint index steps =>
    exact ⟨fun i ↦ (hclear _ _ i).trans (Nat.le_succ _), fun q ↦ Nat.le_succ _⟩

/-- A tally counts no more than the calls. -/
theorem tally_le_length (hw : watched D s calls = .ok (s', t)) :
    (∀ i, t.accesses i ≤ calls.length) ∧ ∀ q, t.hits q ≤ calls.length := by
  induction calls using List.reverseRecOn generalizing s' t with
  | nil =>
    cases hw
    exact ⟨fun _ ↦ Nat.zero_le _, fun _ ↦ Nat.zero_le _⟩
  | append_singleton calls c ih =>
    obtain ⟨s₁, t₁, hw₁, -, rfl⟩ := watched_concat_eq_ok.mp hw
    have hle := ih hw₁
    have hone := t₁.step_le s₁ c
    rw [List.length_append, List.length_singleton]
    exact ⟨fun i ↦ (hone.1 i).trans (Nat.succ_le_succ (hle.1 i)),
      fun q ↦ (hone.2 q).trans (Nat.succ_le_succ (hle.2 q))⟩

/-- The counters of a table that has not been rehashed show the tally of its program. -/
theorem exists_tallied [LawfulDouble D] (hs : start m r n k = .ok s) (hk : k ≤ n)
    (hb : n - k ≤ 30) (hd : (insertedKeys calls).Nodup)
    (hrep : ∀ index steps, Call.repoint index steps ∉ calls)
    (hw : watched D s calls = .ok (s', t)) (hk' : s'.hash.k = k) :
    ∃ ring, Tallied s'.mem s'.hash ring t (insertedKeys calls) := by
  induction calls using List.reverseRecOn generalizing s' t with
  | nil =>
    cases hw
    obtain ⟨-, -, hr, -⟩ := refines_start hs hk hb
    obtain ⟨-, rfl⟩ := start_eq_ok.mp hs
    exact ⟨_, hr.table, by simp, fun _ _ ↦ rfl, by simp, fun _ _ ↦ Nat.zero_le _⟩
  | append_singleton calls c ih =>
    obtain ⟨s₁, t₁, hw₁, hc, rfl⟩ := watched_concat_eq_ok.mp hw
    have hk₀ : s.hash.k = k := (refines_start hs hk hb).2.1
    have hrun₁ := watched_iff_run.mp ⟨t₁, hw₁⟩
    have hrun : run D s (calls ++ [c]) = .ok s' := by rw [run_concat, hrun₁, ok_bind, hc]
    have hk₁ : s₁.hash.k = k :=
      (prefix_k_eq (List.prefix_append _ _) hrun hrun₁ (hk'.trans hk₀.symm)).trans hk₀
    have hnew (key : Nat) (hkey : key ∈ c.insertedKey) : key ∉ insertedKeys calls :=
      notMem_insertedKeys hd (List.prefix_refl _) hkey
    rw [insertedKeys_concat] at hd ⊢
    obtain ⟨ring, T⟩ := ih (List.nodup_append.mp hd).1
      (fun index steps hm ↦ hrep index steps (List.mem_append_left _ hm)) hw₁ hk₁
    refine T.step hc (hk'.trans hk₁.symm) hnew ?_
    rintro index steps rfl
    exact hrep index steps (by simp)

/-- As long as a table is not rehashed, the counter of every head is the number of searches of its
bucket since the last shift, and the counter of every node the number of times its key was found
since, one more for a key inserted since; modulo 2 to the 15 and to the 14. -/
theorem counters_run [LawfulDouble D] (hs : start m r n k = .ok s) (hk : k ≤ n) (hb : n - k ≤ 30)
    (hd : (insertedKeys calls).Nodup) (hrep : ∀ index steps, Call.repoint index steps ∉ calls)
    (hw : watched D s calls = .ok (s', t)) (hk' : s'.hash.k = k) :
    ∃ ring, Table s'.mem s'.hash ring ∧
      (∀ i < 2 ^ k, s'.hash.accesses i = t.accesses i % 2 ^ 15) ∧
      ∀ i < 2 ^ k, ∀ a ∈ ring i, s'.mem.counter a = t.hits (s'.mem.key a) % 2 ^ 14 := by
  obtain ⟨ring, T⟩ := exists_tallied hs hk hb hd hrep hw hk'
  have hsize : s'.hash.size = 2 ^ k := by rw [T.table.geometry.size, hk']
  exact ⟨ring, T.table, hsize ▸ T.head, hsize ▸ T.node⟩

/-- Three keys of one bucket; the fifth get finds its key behind the head, and shifts. -/
def shiftedOnce : List Call :=
  [.insert 4 1, .insert 5 1, .insert 6 1, .get 4, .get 5, .get 6, .get 6, .get 6, .get 5]

/-- After the shift key 5 has been found once and the others not at all. -/
theorem counters_run_shifted_once :
    ∃ s' t ring, watched ℚ ⟨.init, ⟨4, 2, 4, fun _ ↦ none⟩, 0⟩ shiftedOnce = .ok (s', t) ∧
      (t.hits 4, t.hits 5, t.hits 6, t.accesses 1) = (0, 1, 0, 1) ∧ Table s'.mem s'.hash ring ∧
      ∀ i < 2 ^ 2, ∀ a ∈ ring i, s'.mem.counter a = t.hits (s'.mem.key a) % 2 ^ 14 := by
  have hobs : (watched ℚ ⟨.init, ⟨4, 2, 4, fun _ ↦ none⟩, 0⟩ shiftedOnce).map
      (fun p ↦ (p.1.hash.k, p.2.hits 4, p.2.hits 5, p.2.hits 6, p.2.accesses 1))
        = .ok (2, 0, 1, 0, 1) := by decide +kernel
  cases hw : watched ℚ ⟨.init, ⟨4, 2, 4, fun _ ↦ none⟩, 0⟩ shiftedOnce with
  | error e =>
    rw [hw] at hobs
    cases hobs
  | ok p =>
    rw [hw] at hobs
    simp only [Except.map, Except.ok.injEq, Prod.mk.injEq] at hobs
    obtain ⟨hk, h4, h5, h6, ha⟩ := hobs
    obtain ⟨ring, ht, -, hnode⟩ := counters_run (D := ℚ) (m := .init) (n := 4) (k := 2) (r := 0)
      rfl (by decide) (by decide) (by decide) (by simp [shiftedOnce]) hw hk
    exact ⟨p.1, p.2, ring, rfl, by rw [h4, h5, h6, ha], ht, hnode⟩

end Run

end Jeopardy.Hotring
