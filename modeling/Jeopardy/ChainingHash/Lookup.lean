import Jeopardy.ChainingHash.Order

/-!
# What the chaining hash table answers

`hash_get` and `hash_lookup` never compare a key: the first returns the first node of the
bucket, the second the address of the bucket's head structure. So over any sequence of
insertions a slot tells exactly which key was the first to hash there, and the lookups are those
of a map precisely for the keys whose bucket is still empty.
-/

namespace Jeopardy.ChainingHash

variable {α : Type}

/-- After the calls, a slot leads to the node of the first inserted key that hashes there, if there
is one. -/
structure Built (size : Nat) (calls : List (Nat × α)) (m : Mem α) (h : Hash) : Prop where
  size_eq : h.size = size
  first : ∀ i < size, (h.slots i).map m.itemAt
    = (calls.find? (HashesTo size i)).map (fun call ↦ some (some call.2))

/-- The head of an ordered bucket is the node of its first insertion. -/
theorem Ordered.built {size : Nat} {calls : List (Nat × α)} {m : Mem α} {h : Hash}
    {ring : Nat → List Nat} (ho : Ordered size (calls.map (Prod.map id some)) m h ring) :
    Built size calls m h := by
  refine ⟨ho.size_eq, fun i hi ↦ ?_⟩
  rw [ho.head i hi, ← List.head?_map, ho.items i hi, List.head?_map, List.head?_filter,
    List.find?_map, Option.map_map]
  rfl

/-- Every sequence of insertions of keys below `2^31` completes in a built table. -/
theorem run_built {size : Nat} (hs : 1 ≤ size) {calls : List (Nat × α)}
    (hk : ∀ call ∈ calls, call.1 < 2 ^ 31) :
    ∃ m h, run size calls = .ok (m, h) ∧ Built size calls m h := by
  have hitems : ∀ call ∈ calls.map (Prod.map id some), call.1 < 2 ^ 31 :=
    List.forall_mem_map.mpr hk
  obtain ⟨m, h, ring, hr, ho⟩ := runItems_ordered hs hitems
  exact ⟨m, h, hr, ho.built⟩

/-- `hash_lookup` as a map's lookup: a pointer exactly for the inserted keys, and then one to the
key's own item. -/
def LookupLaw (calls : List (Nat × α)) (m : Mem α) (h : Hash) (q : Nat) : Prop :=
  ∃ r, hashLookup h q = .ok r ∧ (r.isSome ↔ ∃ x, (q, x) ∈ calls) ∧
    ∀ x, (q, x) ∈ calls → r.bind (load m h) = some (.item (some x))

/-- `hash_get` as a map's lookup: a node exactly for the inserted keys, and then one that holds
the key's own item. -/
def GetLaw (calls : List (Nat × α)) (m : Mem α) (h : Hash) (q : Nat) : Prop :=
  ∃ r, hashGet h q = .ok r ∧ (r.isSome ↔ ∃ x, (q, x) ∈ calls) ∧
    ∀ x, (q, x) ∈ calls → r.bind m.itemAt = some (some x)

/-- `q`'s slot exists, and no inserted key hashes there. -/
def BucketEmpty (size : Nat) (calls : List (Nat × α)) (q : Nat) : Prop :=
  (0 ≤ hashCode (hashAlloc size) q ∧ hashCode (hashAlloc size) q < size) ∧
    ∀ call ∈ calls, hashCode (hashAlloc size) call.1 ≠ hashCode (hashAlloc size) q

/-- `q` was inserted, with the item of the first inserted key that hashes to its slot. -/
def FirstItem (size : Nat) (calls : List (Nat × α)) (q : Nat) : Prop :=
  ∃ x, (q, x) ∈ calls ∧
    (calls.find? (HashesTo size (hashCode (hashAlloc size) q))).map Prod.snd = some x

/-- The range of `q`'s hash decides whether a lookup reaches a slot at all. -/
theorem slot_hashCode {size : Nat} {h : Hash} (hs : h.size = size) (q : Nat) {r : Option Nat}
    (hr : h.slot (hashCode h q) = .ok r) :
    (0 ≤ hashCode (hashAlloc size) q ∧ hashCode (hashAlloc size) q < size) ∧
      r = h.slots (hashCode (hashAlloc size) q).toNat := by
  rw [hashCode_congr (hashAlloc size) hs, Hash.slot, hs] at hr
  split at hr
  · next hin => exact ⟨hin, (Except.ok.inj hr).symm⟩
  · cases hr

/-- A slot that leads nowhere is one that no inserted key hashes to. -/
theorem Built.slots_eq_none {size : Nat} {calls : List (Nat × α)} {m : Mem α} {h : Hash}
    (hb : Built size calls m h) {i : Nat} (hi : i < size) :
    h.slots i = none ↔ calls.find? (HashesTo size i) = none := by
  rw [← Option.map_eq_none_iff (f := m.itemAt), hb.first i hi, Option.map_eq_none_iff]

/-- A slot that leads to a node is the first insertion's. -/
theorem Built.slots_eq_some {size : Nat} {calls : List (Nat × α)} {m : Mem α} {h : Hash}
    (hb : Built size calls m h) {i : Nat} (hi : i < size) {call : Nat × α}
    (hf : calls.find? (HashesTo size i) = some call) :
    ∃ p, h.slots i = some p ∧ m.itemAt p = some (some call.2) := by
  have hfirst := hb.first i hi
  rw [hf, Option.map_some] at hfirst
  exact Option.map_eq_some_iff.mp hfirst

theorem find?_hashesTo_eq_none {size : Nat} {calls : List (Nat × α)} {index : Int} :
    calls.find? (HashesTo size index) = none ↔
      ∀ call ∈ calls, hashCode (hashAlloc size) call.1 ≠ index := by
  simp [List.find?_eq_none, HashesTo]

/-- An empty bucket answers `NULL` to a key that hashes there, and no such key was inserted. -/
theorem Built.bucketEmpty {size : Nat} {calls : List (Nat × α)} {m : Mem α} {h : Hash}
    (hb : Built size calls m h) {q : Nat} (he : BucketEmpty size calls q) :
    h.slot (hashCode h q) = .ok none ∧ ∀ x, (q, x) ∉ calls := by
  obtain ⟨⟨h0, h1⟩, hne⟩ := he
  refine ⟨?_, fun x hx ↦ hne (q, x) hx rfl⟩
  rw [hashCode_congr (hashAlloc size) hb.size_eq,
    slot_eq h0 (by rw [hb.size_eq]; exact h1), (hb.slots_eq_none (by omega)).mpr]
  rw [Int.toNat_of_nonneg h0]
  exact find?_hashesTo_eq_none.mpr hne

/-- A lookup that answers `NULL` found an empty bucket. -/
theorem Built.bucketEmpty_of_none {size : Nat} {calls : List (Nat × α)} {m : Mem α} {h : Hash}
    (hb : Built size calls m h) {q : Nat} (hr : h.slot (hashCode h q) = .ok none) :
    BucketEmpty size calls q := by
  obtain ⟨hin, hs⟩ := slot_hashCode hb.size_eq q hr
  refine ⟨hin, find?_hashesTo_eq_none.mp ?_⟩
  have hn := (hb.slots_eq_none (by omega)).mp hs.symm
  rwa [Int.toNat_of_nonneg hin.1] at hn

/-- A lookup that reaches a bucket sees its first key's node. -/
theorem Built.first_of_some {size : Nat} {calls : List (Nat × α)} {m : Mem α} {h : Hash}
    (hb : Built size calls m h) {q p : Nat} (hr : h.slot (hashCode h q) = .ok (some p)) :
    ∃ call, calls.find? (HashesTo size (hashCode (hashAlloc size) q)) = some call ∧
      m.itemAt p = some (some call.2) := by
  obtain ⟨hin, hs⟩ := slot_hashCode hb.size_eq q hr
  rw [← Int.toNat_of_nonneg hin.1]
  cases hf : calls.find? (HashesTo size ((hashCode (hashAlloc size) q).toNat : Int)) with
  | none =>
    rw [(hb.slots_eq_none (by omega)).mpr hf] at hs
    cases hs
  | some call =>
    obtain ⟨p', hp', hi⟩ := hb.slots_eq_some (by omega) hf
    rw [hp', Option.some.injEq] at hs
    exact ⟨call, rfl, by rw [hs]; exact hi⟩

/-- The item of a key inserted once. -/
theorem item_unique {calls : List (Nat × α)} (hd : (calls.map Prod.fst).Nodup) {q : Nat} {x y : α}
    (hx : (q, x) ∈ calls) (hy : (q, y) ∈ calls) : x = y := by
  have he := List.inj_on_of_nodup_map hd hx hy rfl
  exact congrArg Prod.snd he

/-- `hash_get` is a map's lookup for `q` exactly if `q`'s bucket is empty or leads to `q`'s
item. -/
theorem Built.getLaw_iff {size : Nat} {calls : List (Nat × α)} {m : Mem α} {h : Hash}
    (hb : Built size calls m h) (hs : 1 ≤ size) (hk : ∀ call ∈ calls, call.1 < 2 ^ 31)
    (hd : (calls.map Prod.fst).Nodup) (q : Nat) :
    GetLaw calls m h q ↔ BucketEmpty size calls q ∨ FirstItem size calls q := by
  constructor
  · rintro ⟨r, hr, hin, hit⟩
    cases r with
    | none => exact .inl (hb.bucketEmpty_of_none hr)
    | some p =>
      obtain ⟨x, hx⟩ := hin.mp rfl
      obtain ⟨call, hf, hi⟩ := hb.first_of_some hr
      have hc := hit x hx
      rw [Option.bind_some, hi, Option.some.injEq] at hc
      exact .inr ⟨x, hx, by rw [hf, Option.map_some, hc]⟩
  · rintro (he | ⟨x, hx, hf⟩)
    · obtain ⟨hr, hn⟩ := hb.bucketEmpty he
      exact ⟨none, hr, ⟨fun h ↦ (nomatch h), fun ⟨x, hx⟩ ↦ absurd hx (hn x)⟩,
        fun x hx ↦ absurd hx (hn x)⟩
    · obtain ⟨call, hc, hi⟩ := Option.map_eq_some_iff.mp hf
      have hcode : hashCode (hashAlloc size) q = ((q % size : Nat) : Int) := hashCode_eq (hk _ hx)
      rw [hcode] at hc
      obtain ⟨p, hp, hit⟩ := hb.slots_eq_some (Nat.mod_lt q hs) hc
      refine ⟨some p, ?_, ⟨fun _ ↦ ⟨x, hx⟩, fun _ ↦ rfl⟩, fun y hy ↦ ?_⟩
      · rw [hashGet, hashCode_congr (hashAlloc size) hb.size_eq, hcode,
          slot_eq (Int.natCast_nonneg _)
            (by rw [hb.size_eq]; exact_mod_cast Nat.mod_lt _ hs), Int.toNat_natCast, hp]
      · rw [Option.bind_some, hit, hi, item_unique hd hx hy]

/-- **Chaining hash as a map.** After any insertions of distinct keys, `hash_lookup` and
`hash_get` of `q` are a map's lookups exactly when no inserted key hashes to `q`'s slot;
`hash_get` alone also when the slot's first node holds `q`'s item. `hash_lookup` never leads to
the item of an inserted key. -/
theorem lookup_law {size : Nat} (hs : 1 ≤ size) {calls : List (Nat × α)}
    (hk : ∀ call ∈ calls, call.1 < 2 ^ 31) (hd : (calls.map Prod.fst).Nodup) (q : Nat) :
    ∃ m h, run size calls = .ok (m, h) ∧
      (LookupLaw calls m h q ∧ GetLaw calls m h q ↔ BucketEmpty size calls q) ∧
      (LookupLaw calls m h q ↔ BucketEmpty size calls q) ∧
      (GetLaw calls m h q ↔ BucketEmpty size calls q ∨ FirstItem size calls q) := by
  obtain ⟨m, h, hr, hb⟩ := run_built hs hk
  have hget := hb.getLaw_iff hs hk hd q
  have hlook : LookupLaw calls m h q ↔ BucketEmpty size calls q := by
    constructor
    · rintro ⟨r, hl, hin, hit⟩
      rw [hashLookup, Fault.bind_eq_ok] at hl
      obtain ⟨s, hslot, hl⟩ := hl
      cases s with
      | none => exact hb.bucketEmpty_of_none hslot
      | some p =>
        -- the pointer leads to the head structure, whose word is never an item
        obtain rfl : some (Ptr.headOf (hashCode h q).toNat) = r := Except.ok.inj hl
        obtain ⟨x, hx⟩ := hin.mp rfl
        have hw := hit x hx
        rw [Option.bind_some, load, Option.map_eq_some_iff] at hw
        obtain ⟨_, _, hw⟩ := hw
        cases hw
    · intro he
      obtain ⟨hslot, hn⟩ := hb.bucketEmpty he
      refine ⟨none, ?_, ⟨fun h ↦ (nomatch h), fun ⟨x, hx⟩ ↦ absurd hx (hn x)⟩,
        fun x hx ↦ absurd hx (hn x)⟩
      rw [hashLookup, hslot, Fault.ok_bind]
      rfl
  exact ⟨m, h, hr, ⟨fun hl ↦ hlook.mp hl.1, fun he ↦ ⟨hlook.mpr he, hget.mpr (.inl he)⟩⟩,
    hlook, hget⟩

/-- `lookup_law` at two keys of one bucket and an absent key of another. -/
theorem lookup_law_other_bucket :
    ∃ (m : Mem Nat) (h : Hash), run 4 [(0, 10), (4, 14)] = .ok (m, h) ∧
      (LookupLaw [(0, 10), (4, 14)] m h 3 ∧ GetLaw [(0, 10), (4, 14)] m h 3 ↔
        BucketEmpty 4 [(0, 10), (4, 14)] 3) ∧
      (LookupLaw [(0, 10), (4, 14)] m h 3 ↔ BucketEmpty 4 [(0, 10), (4, 14)] 3) ∧
      (GetLaw [(0, 10), (4, 14)] m h 3 ↔
        BucketEmpty 4 [(0, 10), (4, 14)] 3 ∨ FirstItem 4 [(0, 10), (4, 14)] 3) :=
  lookup_law (by decide) (by decide) (by decide) 3

/-- With only key 0 in a table of four slots, `hash_lookup` of the absent key 4 is not `NULL`,
and `hash_get` finds a node. -/
theorem lookup_of_absent_key :
    ∃ (m : Mem Nat) (h : Hash), run 4 [(0, 10)] = .ok (m, h) ∧
      hashLookup h 4 = .ok (some (.headOf 0)) ∧ hashGet h 4 = .ok (some 1) ∧
      ¬ LookupLaw [(0, 10)] m h 4 ∧ ¬ GetLaw [(0, 10)] m h 4 := by
  refine ⟨_, _, rfl, rfl, rfl, ?_, ?_⟩
  · rintro ⟨r, hr, hin, -⟩
    obtain rfl : some (Ptr.headOf 0) = r := Except.ok.inj hr
    obtain ⟨x, hx⟩ := hin.mp rfl
    simp at hx
  · rintro ⟨r, hr, hin, -⟩
    obtain rfl : some 1 = r := Except.ok.inj hr
    obtain ⟨x, hx⟩ := hin.mp rfl
    simp at hx

end Jeopardy.ChainingHash
