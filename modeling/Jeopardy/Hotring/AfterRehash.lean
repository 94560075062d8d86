import Jeopardy.Hotring.Tagged
import Jeopardy.Lib.CyclicOrder

/-!
# Insertions after a rehash

The nodes that a rehash carries over keep the tags of the old `k`, `hash_insert` places new nodes
by the tags of the new `k`, and `__hash_get` searches by key. Whether the table stays usable is
decided by the order of these tags.
-/

namespace Jeopardy.Hotring

open Rings Fault

variable {D : Type} [DoubleArith D] {m m' m₁ : Mem} {h h' t : Hash} {ring ring' : Nat → List Nat}
  {q : Nat} {s s' : State} {calls : List Call} {kvs : List (Nat × Nat)}

/-! ### Programs whose rehashes keep the contents -/

/-- Every rehash of the program keeps the contents. -/
def RehashesKeep (D : Type) [DoubleArith D] (s : State) (calls : List Call) : Prop :=
  ∀ pre c s₁ s₂, pre ++ [c] <+: calls → run D s pre = .ok s₁ → c.step D s₁ = .ok s₂ →
    s₂.hash.k ≠ s₁.hash.k → FindsSame s₁.hash.n s₁.mem s₁.hash s₂.mem s₂.hash

theorem rehashesKeep_of_no_get (hc : ∀ key, Call.get key ∉ calls) : RehashesKeep D s calls := by
  intro pre c s₁ s₂ hp _ hstep hk
  have hne (key : Nat) : c ≠ .get key := by
    rintro rfl
    exact hc key (hp.subset (by simp))
  exact absurd (step_shape_of_ne_get hne hstep).k hk

/-- After a program of insertions of new keys whose rehashes keep the contents, the tags are in
order. -/
theorem tagged_run [LawfulDouble D] {n k : Nat} {r : Int} (hs : start m r n k = .ok s) (hk : k ≤ n)
    (hb : n - k ≤ 30) (hnew : InsertsNew D s calls) (hkeep : RehashesKeep D s calls)
    (hrun : run D s calls = .ok s') : ∃ ring, Tagged s'.mem s'.hash ring := by
  obtain ⟨-, -, hr, hf⟩ := refines_start hs hk hb
  let P (s : State) (_ : List Call) : Prop := ∃ ring, Tagged s.mem s.hash ring
  have h0 : P s [] := by
    refine ⟨_, hr.table, ?_, by simp, fun _ ↦ hf⟩
    exact fun i _ ↦ cyclicSorted_of_pairwise List.Pairwise.nil
  have hstep (s₁ : State) (pre : List Call) (c : Call) (s₂ : State) (hpre : pre ++ [c] <+: calls)
      (hrun₁ : run D s pre = .ok s₁) (hp : P s₁ pre) (hc : c.step D s₁ = .ok s₂) :
      P s₂ (pre ++ [c]) := by
    obtain ⟨ring, t⟩ := hp
    apply t.step hc ?_ (hkeep pre c s₁ s₂ hpre hrun₁ hc)
    intro key hkey
    cases c with
    | insert key' value =>
      obtain rfl : key' = key := Option.some.inj hkey
      exact hnew pre key' value s₁ hpre hrun₁
    | lookup key' => cases hkey
    | get key' => cases hkey
    | delete key' => cases hkey
    | repoint index steps => cases hkey
  exact run_invariant h0 hstep hrun

private theorem foldlM_fixed {σ : Type} {f : σ → Nat → Except Fault σ} {x : σ} {l : List Nat}
    (hf : ∀ i ∈ l, f x i = .ok x) : l.foldlM f x = .ok x := by
  induction l with
  | nil => rfl
  | cons i l ih =>
    rw [List.foldlM_cons, hf i List.mem_cons_self, ok_bind]
    exact ih (fun j hj ↦ hf j (List.mem_cons_of_mem i hj))

/-- A rehash of a table without nodes answers one without nodes. -/
theorem hotringRehash_blank (hb : ∀ i, h.slots i = Option.none)
    (hr : hotringRehash m h = .ok (m', t)) : ∀ i, t.slots i = Option.none := by
  have hslot {h : Hash} (hb : ∀ i, h.slots i = Option.none) {i : Nat} (hi : i < h.size) :
      h.slot i = .ok Option.none := by
    rw [Hash.slot, if_pos hi, hb]
  obtain ⟨⟨m₁, h₁, new⟩, hinit, hr⟩ := bind_eq_ok.mp hr
  obtain ⟨-, -, hinit⟩ := bind_eq_ok.mp hinit
  obtain ⟨half, -, hinit⟩ := bind_eq_ok.mp hinit
  obtain ⟨new₀, hnew, hinit⟩ := bind_eq_ok.mp hinit
  obtain ⟨size, -, hnew⟩ := bind_eq_ok.mp hnew
  rw [foldlM_fixed (fun i hi ↦ by rw [rehashInitStep, hslot hb (List.mem_range.mp hi)]; rfl)]
    at hinit
  simp only [pure, Except.pure, Except.ok.injEq, Prod.mk.injEq] at hnew hinit
  obtain ⟨rfl, rfl, rfl⟩ := hinit
  have hnone (i : Nat) : new₀.slots i = Option.none := by rw [← hnew]
  obtain ⟨half', -, hr⟩ := bind_eq_ok.mp hr
  obtain ⟨⟨m₂, h₂⟩, -, hr⟩ := bind_eq_ok.mp hr
  obtain ⟨⟨m₃, new₃⟩, hdel, hr⟩ := bind_eq_ok.mp hr
  rw [foldlM_fixed (fun i hi ↦ by rw [rehashDeleteStep, hslot hnone (List.mem_range.mp hi)]; rfl)]
    at hdel
  obtain ⟨m₄, -, hr⟩ := bind_eq_ok.mp hr
  simp only [pure, Except.pure, Except.ok.injEq, Prod.mk.injEq] at hdel hr
  rw [← hr.2, ← hdel.2]
  exact hnone

/-- A table whose shifts are undefined never gets a node: its calls do not complete. -/
theorem blank_run {n k : Nat} {r : Int} (hs : start m r n k = .ok s)
    (hgeo : ¬ (k ≤ n ∧ n - k ≤ 30)) (hrun : run D s calls = .ok s') :
    ∀ i, s'.hash.slots i = Option.none := by
  obtain ⟨hk30, hs⟩ := start_eq_ok.mp hs
  let P (s : State) (_ : List Call) : Prop :=
    s.hash.n = n ∧ s.hash.k = k ∧ ∀ i, s.hash.slots i = Option.none
  have h0 : P s [] := by
    rw [hs]
    exact ⟨rfl, rfl, fun _ ↦ rfl⟩
  have hstep (s₁ : State) (pre : List Call) (c : Call) (s₂ : State) (_ : pre ++ [c] <+: calls)
      (_ : run D s pre = .ok s₁) (hp : P s₁ pre) (hc : c.step D s₁ = .ok s₂) :
      P s₂ (pre ++ [c]) := by
    obtain ⟨hn, hk, hnone⟩ := hp
    have hcode {key : Nat} {c : Nat × Nat} (hc : hashCode s₁.hash key = .ok c) : False := by
      have hok := hashCode_ok hc (hk ▸ hk30)
      rw [hn, hk] at hok
      exact hgeo hok
    have hget {key : Nat} {g : Mem × Hash × GetResult}
        (hg : rawHashGet s₁.mem s₁.hash key = .ok g) : False := by
      obtain ⟨c, hc, -⟩ := bind_eq_ok.mp hg
      exact hcode hc
    cases c with
    | insert key value =>
      obtain ⟨e, hi⟩ := step_insert hc
      obtain ⟨c, hc, -⟩ := bind_eq_ok.mp hi
      exact (hcode hc).elim
    | lookup key =>
      obtain ⟨g, hg⟩ := step_lookup hc
      exact (hget hg).elim
    | get key =>
      obtain ⟨e, g, hg⟩ := step_get hc
      obtain ⟨_, hg, -⟩ := bind_eq_ok.mp hg
      exact (hget hg).elim
    | delete key =>
      obtain ⟨b, hd⟩ := step_delete hc
      obtain ⟨_, hg, -⟩ := bind_eq_ok.mp hd
      exact (hget hg).elim
    | repoint index steps =>
      obtain ⟨slot, hslot, hp⟩ := bind_eq_ok.mp (step_repoint hc).1
      obtain rfl := (slot_eq_ok hslot).2.symm.trans (hnone index)
      simp only [pure, Except.pure, Except.ok.injEq] at hp
      change s₂.hash.n = n ∧ s₂.hash.k = k ∧ ∀ i, s₂.hash.slots i = Option.none
      rw [← hp]
      exact ⟨hn, hk, hnone⟩
  exact (run_invariant h0 hstep hrun).2.2

/-- A rehash that keeps the contents leaves tags in order and rings sorted by key. -/
theorem tagged_rehashed [LawfulDouble D] {n k : Nat} {r : Int} (hs : start m r n k = .ok s)
    (hnew : InsertsNew D s calls) (hkeep : RehashesKeep D s calls)
    (hrun : run D s calls = .ok s') (hr : hotringRehash s'.mem s'.hash = .ok (m₁, t))
    (hf : FindsSame s'.hash.n s'.mem s'.hash m₁ t) :
    ∃ ring, Tagged m₁ t ring ∧ Sorted m₁ t ring := by
  by_cases hgeo : k ≤ n ∧ n - k ≤ 30
  · obtain ⟨ring, ht⟩ := tagged_run hs hgeo.1 hgeo.2 hnew hkeep hrun
    exact ht.rehash hr hf
  · have hnone := hotringRehash_blank (blank_run hs hgeo hrun) hr
    have hsorted (f : Nat → Nat) : CyclicSorted f [] := cyclicSorted_of_pairwise List.Pairwise.nil
    refine ⟨fun _ ↦ [], ⟨⟨(hf.geometry hr).1, ?_, by simp, by simp⟩, fun _ _ ↦ hsorted _, by simp,
      by simp [FreshTags]⟩, fun _ _ ↦ hsorted _⟩
    intro i hi
    exact ⟨hi, by rw [hnone i]; rfl, isRing_nil⟩

/-! ### Insertions -/

/-- `hash_insert` of keys and values one after the other. -/
def insertAll (m : Mem) (h : Hash) (kvs : List (Nat × Nat)) : Except Fault (Mem × Hash) :=
  kvs.foldlM (fun s kv ↦ do
    let (m, h, _) ← hashInsert s.1 s.2 kv.1 kv.2
    return (m, h)) (m, h)

theorem insertAll_concat (m : Mem) (h : Hash) (kvs : List (Nat × Nat)) (kv : Nat × Nat) :
    insertAll m h (kvs ++ [kv]) = insertAll m h kvs >>= fun s ↦ do
      let (m, h, _) ← hashInsert s.1 s.2 kv.1 kv.2
      return (m, h) := by
  simp [insertAll, List.foldlM_append]

/-- After each insertion `__hash_get` finds the new key with its value, and every key stored
before with its own. -/
def StaysUsable (m : Mem) (h : Hash) (kvs : List (Nat × Nat)) : Prop :=
  ∀ pre q v, pre ++ [(q, v)] <+: kvs → ∃ m₁ h₁ m₂ h₂ e,
    insertAll m h pre = .ok (m₁, h₁) ∧ hashInsert m₁ h₁ q v = .ok (m₂, h₂, e) ∧
      lookup m₂ h₂ q = .ok (some (q, v)) ∧
      ∀ p w, Holds m₁ h₁ p w → lookup m₂ h₂ p = .ok (some (p, w))

/-- Tags with their keys, those of the nodes `xs` and those that `hashCode` computes for `keys`. -/
def tagPairs (m : Mem) (h : Hash) (xs keys : List Nat) : List (Nat × Nat) :=
  xs.map (fun a ↦ (m.tag a, m.key a)) ++ keys.map (fun q ↦ (h.tagOf q, q))

/-- In every bucket, any three of its nodes and of the keys to come there have their keys in the
cyclic order of their tags. -/
def TagsAgree (m : Mem) (h : Hash) (keys : List Nat) : Prop :=
  ∀ i xs, BucketAt m h i xs → ∀ x ∈ tagPairs m h xs (keys.filter (fun q ↦ h.index q = i)),
    ∀ y ∈ tagPairs m h xs (keys.filter (fun q ↦ h.index q = i)),
    ∀ z ∈ tagPairs m h xs (keys.filter (fun q ↦ h.index q = i)),
      x.1 < y.1 → y.1 < z.1 → Between x.2 y.2 z.2

/-- A table grown from another one by insertions of `keys`. -/
structure Grown (m : Mem) (h : Hash) (ring : Nat → List Nat) (keys : List Nat) (m' : Mem)
    (h' : Hash) (ring' : Nat → List Nat) : Prop where
  tags : Tagged m' h' ring'
  shape : SameShape h h'
  nodes : ∀ i < h.size, ∀ p, p ∈ (ring' i).map (fun a ↦ (m'.tag a, m'.key a)) ↔
    p ∈ tagPairs m h (ring i) (keys.filter (fun q ↦ h.index q = i))

namespace Grown

variable {keys : List Nat}

theorem refl (t : Tagged m h ring) : Grown m h ring [] m h ring :=
  ⟨t, .refl h, fun i _ p ↦ by simp [tagPairs]⟩

theorem index (g : Grown m h ring keys m' h' ring') (q : Nat) : h'.index q = h.index q := by
  rw [Hash.index, Hash.bits, g.shape.n, g.shape.k, Hash.index, Hash.bits]

/-- A key that is neither old nor inserted is on no node. -/
theorem key_ne (g : Grown m h ring keys m' h' ring') (hq : q < 2 ^ h.n)
    (hnew : ∀ a ∈ ring (h.index q), m.key a ≠ q) (hk : q ∉ keys) :
    ∀ a ∈ ring' (h'.index q), m'.key a ≠ q := by
  have hi := g.tags.table.geometry.index_lt (g.shape.n.symm ▸ hq)
  rw [g.index] at hi ⊢
  intro a ha he
  have hp := (g.nodes _ (g.shape.size ▸ hi) (m'.tag a, m'.key a)).mp (List.mem_map_of_mem ha)
  rw [tagPairs, List.mem_append, List.mem_map, List.mem_map] at hp
  rcases hp with ⟨b, hb, heq⟩ | ⟨p, hp, heq⟩
  · exact hnew b hb ((congrArg Prod.snd heq).trans he)
  · have hpq : p = q := (congrArg Prod.snd heq).trans he
    exact hk (hpq ▸ List.mem_of_mem_filter hp)

/-- One more insertion. -/
theorem placed {value : Nat} {m₂ : Mem} {h₂ : Hash} (g : Grown m h ring keys m' h' ring')
    (hq : q < 2 ^ h'.n)
    (p : Placed m' m₂ h' h₂ (h'.index q) (ring' (h'.index q)) q (h'.tagOf q) value)
    (hnew : ∀ a ∈ ring' (h'.index q), m'.key a ≠ q) :
    Grown m h ring (keys ++ [q]) m₂ h₂
      (placeRing m' ring' (h'.index q) (h'.tagOf q)) := by
  have hi := g.tags.table.geometry.index_lt hq
  have tc := g.tags.table.chained
  have hidx := g.index q
  have htag : h'.tagOf q = h.tagOf q := by
    rw [Hash.tagOf, Hash.bits, g.shape.n, g.shape.k, Hash.tagOf, Hash.bits]
  refine ⟨g.tags.placed hq p hnew,
    g.shape.trans ⟨p.sizes.1, p.sizes.2.1, p.sizes.2.2⟩, ?_⟩
  intro i hi pr
  have hi' : i < h'.size := g.shape.size ▸ hi
  have hold (a : Nat) (ha : a ∈ ring' i) : (m₂.tag a, m₂.key a) = (m'.tag a, m'.key a) := by
    have hne : a ≠ m'.brk := by
      rintro rfl
      exact tc.brk_notMem hi' ha
    rw [p.tag_old hne, p.key_old hne]
  have hnodes := g.nodes i hi pr
  rw [tagPairs, List.mem_append] at hnodes
  rw [tagPairs, List.filter_append, List.map_append, List.mem_append, List.mem_append,
    ← or_assoc, ← hnodes]
  by_cases hqi : h'.index q = i
  · subst hqi
    have hnewp : (m₂.tag m'.brk, m₂.key m'.brk) = (h.tagOf q, q) := by
      rw [p.tag_new, p.key_new, htag]
    rw [((tc.placed_perm p hi').map _).mem_iff, List.map_cons, List.mem_cons, hnewp,
      List.map_congr_left hold, List.filter_cons_of_pos (by simp [hidx])]
    simp [or_comm]
  · rw [placeRing_of_ne (Ne.symm hqi), List.map_congr_left hold,
      List.filter_cons_of_neg (by simpa [hidx] using hqi)]
    simp

/-- An insertion of a new key. -/
theorem insert (g : Grown m h ring keys m' h' ring') (hq : q < 2 ^ h.n)
    (hnew : ∀ a ∈ ring (h.index q), m.key a ≠ q) (hk : q ∉ keys) (value : Nat) :
    ∃ m₂ h₂ ring₂, hashInsert m' h' q value = .ok (m₂, h₂, 0) ∧
      Grown m h ring (keys ++ [q]) m₂ h₂ ring₂ ∧
      ∀ p w, Holds m₂ h₂ p w ↔ (p = q ∧ w = value) ∨ Holds m' h' p w := by
  have hne := g.key_ne hq hnew hk
  rw [← g.shape.n] at hq
  have t := g.tags.table
  obtain ⟨m₂, h₂, hi₂, p⟩ := t.chained.hashInsert_spec hq value
  have g₂ := g.placed hq p hne
  refine ⟨m₂, h₂, _, hi₂, g₂, ?_⟩
  have hold {j a : Nat} (hj : j < h'.size) (ha : a ∈ ring' j) : a ≠ m'.brk := by
    rintro rfl
    exact t.chained.brk_notMem hj ha
  intro x w
  constructor
  · rintro ⟨i, xs, a, hb, ha, rfl, rfl⟩
    obtain rfl := hb.unique (g₂.tags.table.bucket i hb.index_lt)
    have hi := p.size ▸ hb.index_lt
    rcases mem_placeRing.mp ha with ⟨-, rfl⟩ | ha
    · exact Or.inl ⟨p.key_new, p.value_new⟩
    · exact Or.inr ⟨i, ring' i, a, t.bucket i hi, ha, (p.key_old (hold hi ha)).symm,
        (p.value_old (hold hi ha)).symm⟩
  · rintro (⟨rfl, rfl⟩ | ⟨i, xs, a, hb, ha, rfl, rfl⟩)
    · have hi := t.geometry.index_lt hq
      exact ⟨_, _, m'.brk, g₂.tags.table.bucket _ (p.size.symm ▸ hi),
        mem_placeRing.mpr (Or.inl ⟨rfl, rfl⟩), p.key_new, p.value_new⟩
    · obtain rfl := hb.unique (t.bucket i hb.index_lt)
      exact ⟨i, _, a, g₂.tags.table.bucket i (p.size.symm ▸ hb.index_lt),
        mem_placeRing.mpr (Or.inr ha), p.key_old (hold hb.index_lt ha),
        p.value_old (hold hb.index_lt ha)⟩

/-- The rings are sorted by key exactly when tags and keys agree. -/
theorem sorted_iff (g : Grown m h ring keys m' h' ring') (t : Table m h ring) :
    Sorted m' h' ring' ↔ TagsAgree m h keys := by
  have hring (i : Nat) (hi : i < h'.size) : CyclicSorted m'.key (ring' i) ↔
      ∀ x ∈ tagPairs m h (ring i) (keys.filter (fun q ↦ h.index q = i)),
      ∀ y ∈ tagPairs m h (ring i) (keys.filter (fun q ↦ h.index q = i)),
      ∀ z ∈ tagPairs m h (ring i) (keys.filter (fun q ↦ h.index q = i)),
        x.1 < y.1 → y.1 < z.1 → Between x.2 y.2 z.2 := by
    have hkeys := g.tags.table.keys_nodup i hi
    have htags : ((ring' i).map m'.tag).Nodup := by
      apply List.Nodup.map_on ?_ (g.tags.table.bucket i hi).linked.nodup
      intro a ha b hb he
      have hidx := (g.tags.table.index i hi a ha).trans (g.tags.table.index i hi b hb).symm
      have htag : h'.tagOf (m'.key a) = h'.tagOf (m'.key b) := by
        rw [← g.tags.residue i hi a ha, ← g.tags.residue i hi b hb, he]
      apply g.tags.table.node_eq_of_key hi ha hb
      exact le_antisymm ((le_iff_tagOf_le hidx).mpr htag.le)
        ((le_iff_tagOf_le hidx.symm).mpr htag.ge)
    rw [cyclicSorted_iff_between (g.tags.sorted i hi) htags hkeys]
    simp only [← g.nodes i (g.shape.size ▸ hi), List.forall_mem_map]
  constructor
  · intro hs i xs hb
    obtain rfl := hb.unique (t.bucket i hb.index_lt)
    have hi : i < h'.size := g.shape.size.symm ▸ hb.index_lt
    exact (hring i hi).mp (hs i hi)
  · intro ha i hi
    exact (hring i hi).mpr (ha i _ (t.bucket i (g.shape.size ▸ hi)))

end Grown

theorem TagsAgree.of_prefix {pre keys : List Nat} (ha : TagsAgree m h keys) (hp : pre <+: keys) :
    TagsAgree m h pre := by
  have hsub (i : Nat) (xs : List Nat) : tagPairs m h xs (pre.filter (fun q ↦ h.index q = i)) ⊆
      tagPairs m h xs (keys.filter (fun q ↦ h.index q = i)) := by
    have hs := ((hp.sublist.filter (fun q ↦ h.index q = i)).map (fun q ↦ (h.tagOf q, q)))
    exact ((List.Sublist.refl _).append hs).subset
  intro i xs hb x hx y hy z hz
  exact ha i xs hb x (hsub i xs hx) y (hsub i xs hy) z (hsub i xs hz)

/-- Insertions of different keys that are new to the table. -/
theorem Tagged.insertAll_spec (t : Tagged m h ring) (hd : (kvs.map Prod.fst).Nodup)
    (hlt : ∀ kv ∈ kvs, kv.1 < 2 ^ h.n)
    (hnew : ∀ kv ∈ kvs, ∀ a ∈ ring (h.index kv.1), m.key a ≠ kv.1) :
    ∃ m' h' ring', insertAll m h kvs = .ok (m', h') ∧
      Grown m h ring (kvs.map Prod.fst) m' h' ring' := by
  induction kvs using List.reverseRecOn with
  | nil => exact ⟨m, h, ring, rfl, .refl t⟩
  | append_singleton kvs kv ih =>
    rw [List.map_append, List.nodup_append] at hd
    obtain ⟨m₁, h₁, ring₁, hall, g⟩ := ih hd.1 (fun kv hk ↦ hlt kv (by simp [hk]))
      (fun kv hk ↦ hnew kv (by simp [hk]))
    have hk : kv.1 ∉ kvs.map Prod.fst := fun hm ↦ hd.2.2 _ hm _ (by simp) rfl
    obtain ⟨m₂, h₂, ring₂, hi, g₂, -⟩ :=
      g.insert (hlt kv (by simp)) (hnew kv (by simp)) hk kv.2
    refine ⟨m₂, h₂, ring₂, ?_, by simpa using g₂⟩
    rw [insertAll_concat, hall, ok_bind, hi]
    rfl

/-- On a table with tags in order and rings sorted by key, insertions keep it usable exactly when
tags and keys agree. -/
theorem Tagged.staysUsable_iff (t : Tagged m h ring) (hs : Sorted m h ring)
    (hd : (kvs.map Prod.fst).Nodup) (hlt : ∀ kv ∈ kvs, kv.1 < 2 ^ h.n)
    (hnew : ∀ kv ∈ kvs, ∀ a ∈ ring (h.index kv.1), m.key a ≠ kv.1) :
    StaysUsable m h kvs ↔ TagsAgree m h (kvs.map Prod.fst) := by
  -- one insertion of the list, from the table grown by those before
  have hone {pre : List (Nat × Nat)} {q v : Nat} (hp : pre ++ [(q, v)] <+: kvs) :
      ∃ m₁ h₁ m₂ h₂ ring₂, insertAll m h pre = .ok (m₁, h₁) ∧
        hashInsert m₁ h₁ q v = .ok (m₂, h₂, 0) ∧
        Grown m h ring ((pre ++ [(q, v)]).map Prod.fst) m₂ h₂ ring₂ ∧
        ∀ p w, Holds m₂ h₂ p w ↔ (p = q ∧ w = v) ∨ Holds m₁ h₁ p w := by
    have hd' := hd.sublist (hp.sublist.map Prod.fst)
    rw [List.map_append, List.nodup_append] at hd'
    have hmem (kv : Nat × Nat) (hk : kv ∈ pre ++ [(q, v)]) : kv ∈ kvs := hp.subset hk
    obtain ⟨m₁, h₁, ring₁, hall, g⟩ := t.insertAll_spec hd'.1
      (fun kv hk ↦ hlt kv (hmem kv (by simp [hk]))) (fun kv hk ↦ hnew kv (hmem kv (by simp [hk])))
    have hk : q ∉ pre.map Prod.fst := fun hm ↦ hd'.2.2 _ hm _ (by simp) rfl
    obtain ⟨m₂, h₂, ring₂, hi, g₂, hh⟩ :=
      g.insert (hlt _ (hmem (q, v) (by simp))) (hnew _ (hmem (q, v) (by simp))) hk v
    exact ⟨m₁, h₁, m₂, h₂, ring₂, hall, hi, by simpa using g₂, hh⟩
  constructor
  · intro hu
    rcases List.eq_nil_or_concat kvs with rfl | ⟨pre, ⟨q, v⟩, rfl⟩
    · exact ((Grown.refl t).sorted_iff t.table).mp hs
    · rw [List.concat_eq_append] at hu hone ⊢
      obtain ⟨m₁, h₁, m₂, h₂, ring₂, hall, hi, g, hh⟩ := hone (List.prefix_refl _)
      obtain ⟨m₃, h₃, m₄, h₄, e, hall', hi', hq, hp⟩ := hu pre q v (List.prefix_refl _)
      rw [hall, Except.ok.injEq, Prod.mk.injEq] at hall'
      obtain ⟨rfl, rfl⟩ := hall'
      rw [hi, Except.ok.injEq, Prod.mk.injEq, Prod.mk.injEq] at hi'
      obtain ⟨rfl, rfl, -⟩ := hi'
      apply (g.sorted_iff t.table).mp
      apply g.tags.table.sorted_iff_lookup.mpr
      intro p w hw
      rcases (hh p w).mp hw with ⟨rfl, rfl⟩ | hw
      · exact hq
      · exact hp p w hw
  · intro ha pre q v hp
    obtain ⟨m₁, h₁, m₂, h₂, ring₂, hall, hi, g, hh⟩ := hone hp
    have hs₂ := (g.sorted_iff t.table).mpr (ha.of_prefix (hp.map Prod.fst))
    have hfind := g.tags.table.sorted_iff_lookup.mp hs₂
    exact ⟨m₁, h₁, m₂, h₂, 0, hall, hi, hfind q v ((hh q v).mpr (Or.inl ⟨rfl, rfl⟩)),
      fun p w hw ↦ hfind p w ((hh p w).mpr (Or.inr hw))⟩

/-- **Insertions after a rehash.** On a table answered by a rehash that kept the contents,
insertions of different keys new to it keep it usable exactly when in every bucket the keys come
in the cyclic order of the tags, old and new. -/
theorem usable_after_rehash [LawfulDouble D] {n k : Nat} {r : Int} (hs : start m r n k = .ok s)
    (hnew : InsertsNew D s calls) (hkeep : RehashesKeep D s calls)
    (hrun : run D s calls = .ok s') (hr : hotringRehash s'.mem s'.hash = .ok (m₁, t))
    (hf : FindsSame s'.hash.n s'.mem s'.hash m₁ t) (hd : (kvs.map Prod.fst).Nodup)
    (hlt : ∀ kv ∈ kvs, kv.1 < 2 ^ t.n) (habs : ∀ kv ∈ kvs, ∀ v, ¬ Holds m₁ t kv.1 v) :
    StaysUsable m₁ t kvs ↔ TagsAgree m₁ t (kvs.map Prod.fst) := by
  obtain ⟨ring, ht, hsort⟩ := tagged_rehashed hs hnew hkeep hrun hr hf
  apply ht.staysUsable_iff hsort hd hlt
  intro kv hk
  exact ht.table.key_ne_of_not_holds (hlt kv hk) (habs kv hk)

/-- The heads of a table for `f` are clear if the keys of `f` are. -/
theorem Refines.headsClear {f : Nat → Option Nat} (r : Refines m h ring f)
    (hf : ∀ q v, f q = some v → q < 2 ^ 31 ∧ ¬ 2 ^ (h.bits - 1) ∣ q) : HeadsClear m h := by
  intro i hi head hslot
  obtain ⟨xs, hx⟩ := r.table.chained.ring_eq_cons hi hslot
  have hmem : head.addr ∈ ring i := hx ▸ List.mem_cons_self
  have hidx := r.table.index i hi _ hmem
  have hq := r.table.geometry.lt_of_index_lt (hidx.symm ▸ hi)
  apply hf _ (m.value head.addr)
  rw [← r.contents _ hq, r.table.contents_eq_some hq, hidx]
  exact ⟨_, hmem, rfl, rfl⟩

/-- Insertions of different clear keys into a new table of four slots, and then a rehash. -/
private theorem rehash_of_insertions (calls : List Call) (hc : ∀ c ∈ calls, c.InsertOrGet)
    (hno : ∀ key, Call.get key ∉ calls) (hd : (insertedKeys calls).Nodup)
    (hclear : ∀ q ∈ insertedKeys calls, q < 2 ^ 31 ∧ ¬ 2 ^ 29 ∣ q)
    (hk : (run ℚ ⟨.init, ⟨NBITS, 2, 4, fun _ ↦ Option.none⟩, 0⟩ calls).map (fun s ↦ s.hash.k)
      = .ok 2) :
    ∃ s s' m₁ t, start .init 0 NBITS 2 = .ok s ∧ run ℚ s calls = .ok s' ∧
      hotringRehash s'.mem s'.hash = .ok (m₁, t) ∧ FindsSame s'.hash.n s'.mem s'.hash m₁ t ∧
      InsertsNew ℚ s calls ∧ RehashesKeep ℚ s calls ∧ t.n = NBITS ∧
      ∀ q ∉ insertedKeys calls, ∀ v, ¬ Holds m₁ t q v := by
  let s₀ : State := ⟨.init, ⟨NBITS, 2, 4, fun _ ↦ Option.none⟩, 0⟩
  have hs : start .init 0 NBITS 2 = .ok s₀ := rfl
  have hkeep : RehashesKeep ℚ s₀ calls := rehashesKeep_of_no_get hno
  have hnew : InsertsNew ℚ s₀ calls := insertsNew_of_nodup hs hc hd
  have hspare : SparesHeads ℚ s₀ calls := by
    intro pre key s₁ hpre
    exact absurd (hc (.delete key) (hpre.subset (by simp))) id
  obtain ⟨s', hrun, hk⟩ : ∃ s', run ℚ s₀ calls = .ok s' ∧ s'.hash.k = 2 := by
    change (run ℚ s₀ calls).map _ = _ at hk
    cases hr : run ℚ s₀ calls with
    | ok s' =>
      rw [hr] at hk
      exact ⟨s', rfl, Except.ok.inj hk⟩
    | error e =>
      rw [hr] at hk
      cases hk
  have hn : s'.hash.n = NBITS := by
    rcases run_shape hrun with hsh | hlt
    · exact hsh.n
    · exact absurd hlt (by rw [hk]; exact lt_irrefl 2)
  have hbits : s'.hash.bits = 30 := by
    rw [Hash.bits, hn, hk]
    rfl
  obtain ⟨ring, hr, hf⟩ := run_unrehashed hs (by decide) (by decide) hd hspare hrun hk
  have hhistory (q v : Nat) (hq : history calls q = some v) : q ∈ insertedKeys calls := by
    by_contra hne
    rw [history_eq_none hne] at hq
    cases hq
  have hheads : HeadsClear s'.mem s'.hash := by
    apply hr.headsClear
    intro q v hq
    rw [hbits]
    exact hclear q (hhistory q v hq)
  obtain ⟨m₁, t, hre, hfinds, -⟩ :=
    (rehashLaw_iff hr.table hr.sorted hf hn (hbits ▸ by decide)).mpr ⟨hk ▸ by decide, hheads⟩
  have htn : t.n = NBITS := (hotringRehash_shape hre).1
  refine ⟨s₀, s', m₁, t, hs, hrun, hre, hfinds, hnew, hkeep, htn, ?_⟩
  intro q hne v hv
  obtain ⟨ring₁, ht, hsort⟩ := tagged_rehashed hs hnew hkeep hrun hre hfinds
  have hq : q < 2 ^ s'.hash.n := by
    rw [hn, ← htn]
    exact ht.table.lt_of_holds hv
  have hlost := (hfinds q hq).2 (fun w hw ↦ by
    rw [hr.table.holds_iff hq, hr.contents q hq] at hw
    exact hne (hhistory q w hw))
  rw [ht.table.sorted_iff_lookup.mp hsort q v hv] at hlost
  cases hlost

/-- Of the keys 7, 12 and `2 ^ 29 + 10` of one bucket the last goes to a bucket of its own. Key 9
joins the first two, `2 ^ 29 + 5` the last. -/
theorem usable_after_rehash_three :
    ∃ s s' m₁ t, start .init 0 NBITS 2 = .ok s ∧
      run ℚ s [.insert (2 ^ 29 + 10) 1, .insert 7 2, .insert 12 3] = .ok s' ∧
      hotringRehash s'.mem s'.hash = .ok (m₁, t) ∧
      (StaysUsable m₁ t [(9, 4), (2 ^ 29 + 5, 5)] ↔ TagsAgree m₁ t [9, 2 ^ 29 + 5]) := by
  obtain ⟨s, s', m₁, t, hs, hrun, hre, hf, hnew, hkeep, hn, hno⟩ := rehash_of_insertions
    [.insert (2 ^ 29 + 10) 1, .insert 7 2, .insert 12 3] (by simp [Call.InsertOrGet]) (by simp)
    (by decide) (by decide) (by decide +kernel)
  have hkeys : ∀ kv ∈ [(9, 4), (2 ^ 29 + 5, 5)], kv.1 < 2 ^ NBITS ∧
      kv.1 ∉ insertedKeys [.insert (2 ^ 29 + 10) 1, .insert 7 2, .insert 12 3] := by decide
  refine ⟨s, s', m₁, t, hs, hrun, hre, usable_after_rehash hs hnew hkeep hrun hre hf (by decide)
    (fun kv hkv ↦ ?_) (fun kv hkv ↦ hno _ (hkeys kv hkv).2)⟩
  rw [hn]
  exact (hkeys kv hkv).1

/-- After the keys `2 ^ 29 + 5` and `2 ^ 29 + 15` are inserted, the second one is not found: the
node of `2 ^ 29 + 10` has the tag of the old table. -/
theorem insert_lost_after_rehash :
    ∃ s s' m₁ t, start .init 0 NBITS 2 = .ok s ∧ run ℚ s [.insert (2 ^ 29 + 10) 1] = .ok s' ∧
      hotringRehash s'.mem s'.hash = .ok (m₁, t) ∧ FindsSame s'.hash.n s'.mem s'.hash m₁ t ∧
      (∀ q ∈ [2 ^ 29 + 5, 2 ^ 29 + 15], q < 2 ^ t.n ∧ ∀ v, ¬ Holds m₁ t q v) ∧
      ¬ StaysUsable m₁ t [(2 ^ 29 + 5, 2), (2 ^ 29 + 15, 3)] := by
  have hlost : (do
      let s ← start .init 0 NBITS 2
      let s' ← run ℚ s [.insert (2 ^ 29 + 10) 1]
      let r ← hotringRehash s'.mem s'.hash
      let r ← insertAll r.1 r.2 [(2 ^ 29 + 5, 2)]
      let r ← hashInsert r.1 r.2 (2 ^ 29 + 15) 3
      lookup r.1 r.2.1 (2 ^ 29 + 15)) = .ok Option.none := by decide +kernel
  obtain ⟨s, s', m₁, t, hs, hrun, hre, hf, -, -, hn, hno⟩ := rehash_of_insertions
    [.insert (2 ^ 29 + 10) 1] (by simp [Call.InsertOrGet]) (by simp) (by decide) (by decide)
    (by decide +kernel)
  refine ⟨s, s', m₁, t, hs, hrun, hre, hf, ?_, ?_⟩
  · intro q hq
    rw [hn]
    have hcase : q = 2 ^ 29 + 5 ∨ q = 2 ^ 29 + 15 := by simpa using hq
    rcases hcase with rfl | rfl
    · exact ⟨by decide, hno _ (by decide)⟩
    · exact ⟨by decide, hno _ (by decide)⟩
  · intro hu
    obtain ⟨m₂, h₂, m₃, h₃, e, hall, hi, hfound, -⟩ :=
      hu [(2 ^ 29 + 5, 2)] (2 ^ 29 + 15) 3 (List.prefix_refl _)
    rw [hs, ok_bind, hrun, ok_bind, hre, ok_bind, hall, ok_bind, hi, ok_bind, hfound] at hlost
    cases hlost

end Jeopardy.Hotring
