import Jeopardy.Hotring.Shape
import Jeopardy.Hotring.Split

/-!
# Slot indices

`hashCode` cuts a key to `n` bits for the tag, but takes the index from the key itself. So the
index is that of a slot, and fits the tag, exactly for the keys of `n` bits; on every other key
`hash_insert`, `__hash_get` and `hotring_delete` read outside the slot array at their first step.
The keys of the milestones of a rehash are computed on `int` and then converted: they are right in
the lower half of the buckets and have the wrong sign in the upper half.
-/

namespace Jeopardy.Hotring

open Fault

variable {α σ : Type} {m : Mem} {h h₀ : Hash} {key value n k : Nat}

/-- The execution does not leave an array. -/
def InBounds (x : Except Fault α) : Prop := x ≠ .error .outOfBounds

theorem inBounds_ok (a : α) : InBounds (Except.ok a) := fun h ↦ nomatch h

theorem InBounds.bind {β : Type} {x : Except Fault α} {f : α → Except Fault β} (hx : InBounds x)
    (hf : ∀ a, x = .ok a → InBounds (f a)) : InBounds (x >>= f) := by
  cases x with
  | error e => exact fun he ↦ hx (by rw [error_bind] at he; exact congrArg _ (Except.error.inj he))
  | ok a => exact hf a rfl

/-! ### Memory operations have no array to leave -/

theorem read_inBounds (m : Mem) (p : Nat) : InBounds (m.read p) := by
  rw [Mem.read]
  cases m.node p with
  | some nd => exact inBounds_ok nd
  | none =>
    by_cases hp : p = 0
    · exact fun h ↦ by simp [hp] at h
    · exact fun h ↦ by simp [hp] at h

theorem modify_inBounds (m : Mem) (p : Nat) (f : HashNode → HashNode) : InBounds (m.modify p f) :=
  (read_inBounds m p).bind (fun _ _ ↦ inBounds_ok _)

theorem listAdd_inBounds (m : Mem) (new head : Nat) : InBounds (listAdd m new head) :=
  (read_inBounds m head).bind
    (fun _ _ ↦ (modify_inBounds _ _ _).bind (fun _ _ ↦ modify_inBounds _ _ _))

theorem listDel_inBounds (m : Mem) (prev entry : Nat) : InBounds (listDel m prev entry) :=
  (read_inBounds m entry).bind
    (fun _ _ ↦ (modify_inBounds _ _ _).bind (fun _ _ ↦ modify_inBounds _ _ _))

theorem listForEachFrom_inBounds
    {body : Mem → Nat → σ → Except Fault (ForInStep (Mem × σ))} (head : Nat)
    (hb : ∀ m p s, InBounds (body m p s)) (fuel : Nat) (m : Mem) (pos : Nat) (s : σ) :
    InBounds (listForEachFrom body head fuel m pos s) := by
  induction fuel generalizing m pos s with
  | zero => exact fun h ↦ by simp [listForEachFrom] at h
  | succ fuel ih =>
    rw [listForEachFrom]
    by_cases hp : pos = head
    · rw [if_pos hp]
      exact inBounds_ok _
    · rw [if_neg hp]
      refine (hb m pos s).bind (fun r _ ↦ ?_)
      cases r with
      | done r => exact inBounds_ok r
      | yield r => exact (read_inBounds _ _).bind (fun nd _ ↦ ih r.1 nd.list.addr r.2)

theorem listForEach_inBounds {body : Mem → Nat → σ → Except Fault (ForInStep (Mem × σ))}
    (hb : ∀ m p s, InBounds (body m p s)) (m : Mem) (head : Nat) (s : σ) :
    InBounds (listForEach body m head s) :=
  (read_inBounds m head).bind (fun _ _ ↦ listForEachFrom_inBounds head hb _ _ _ _)

theorem getBody_inBounds (key : Nat) (m : Mem) (p : Nat) (s : Nat × Option GetResult) :
    InBounds (getBody key m p s) := by
  refine (read_inBounds m p).bind (fun tmp _ ↦ ?_)
  split
  · exact (modify_inBounds _ _ _).bind (fun _ _ ↦ inBounds_ok _)
  · refine (read_inBounds m s.1).bind (fun prev _ ↦ ?_)
    split
    · exact inBounds_ok _
    · split
      · exact inBounds_ok _
      · split <;> exact inBounds_ok _

theorem createBody_inBounds (tag node : Nat) (m : Mem) (p : Nat) (s : Nat × Bool) :
    InBounds (createBody tag node m p s) := by
  refine (read_inBounds m p).bind (fun next _ ↦ (read_inBounds m s.1).bind (fun prev _ ↦ ?_))
  split
  · exact (listAdd_inBounds _ _ _).bind (fun _ _ ↦ inBounds_ok _)
  · split
    · exact (listAdd_inBounds _ _ _).bind (fun _ _ ↦ inBounds_ok _)
    · exact inBounds_ok _

/-! ### The operations on a slot -/

theorem slot_inBounds {index : Nat} (hi : index < h.size) : InBounds (h.slot index) := by
  rw [Hash.slot, if_pos hi]
  exact inBounds_ok _

theorem slot_outOfBounds {index : Nat} (hi : h.size ≤ index) :
    h.slot index = .error .outOfBounds := by
  rw [Hash.slot, if_neg (by omega)]

theorem rawHashCreate_inBounds {index : Nat} (hi : index < h.size) (m : Mem) (tag : Nat) :
    InBounds (rawHashCreate m h index tag) := by
  refine (slot_inBounds hi).bind (fun head _ ↦ ?_)
  cases head with
  | none =>
    exact (modify_inBounds _ _ _).bind
      (fun _ _ ↦ (modify_inBounds _ _ _).bind (fun _ _ ↦ inBounds_ok _))
  | some head =>
    have hins (m : Mem) (node : Nat) : InBounds (insertByTag m node head.addr tag) := by
      refine (listForEach_inBounds (createBody_inBounds tag node) _ _ _).bind (fun r _ ↦ ?_)
      obtain ⟨m', prev, added⟩ := r
      cases added with
      | true => exact inBounds_ok _
      | false => exact listAdd_inBounds _ _ _
    exact (hins _ _).bind (fun _ _ ↦ (modify_inBounds _ _ _).bind (fun _ _ ↦ inBounds_ok _))

theorem insertEntries_inBounds (m : Mem) (node key tag value : Nat) :
    InBounds (insertEntries m node key tag value) := by
  refine (read_inBounds m node).bind (fun nd _ ↦ ?_)
  split
  · exact inBounds_ok _
  · exact (modify_inBounds _ _ _).bind (fun _ _ ↦ inBounds_ok _)

section Code

variable {index tag : Nat}

theorem hashInsert_inBounds (hc : hashCode h key = .ok (index, tag)) (hi : index < h.size)
    (m : Mem) (value : Nat) : InBounds (hashInsert m h key value) := by
  rw [hashInsert, hc, ok_bind]
  refine (rawHashCreate_inBounds hi m tag).bind (fun r _ ↦ ?_)
  refine (insertEntries_inBounds _ _ _ _ _).bind (fun e _ ↦ ?_)
  obtain ⟨m', error⟩ := e
  by_cases he : error < 0
  · exact fun hb ↦ by simp [he, pure, Except.pure] at hb
  · exact fun hb ↦ by simp [he, pure, Except.pure] at hb

theorem rawHashGet_inBounds (hc : hashCode h key = .ok (index, tag)) (hi : index < h.size)
    (m : Mem) : InBounds (rawHashGet m h key) := by
  rw [rawHashGet, hc, ok_bind]
  refine (slot_inBounds hi).bind (fun head _ ↦ ?_)
  cases head with
  | none => exact inBounds_ok _
  | some head =>
    refine (read_inBounds m head.addr).bind (fun nd _ ↦ ?_)
    split
    · exact (modify_inBounds _ _ _).bind (fun _ _ ↦ inBounds_ok _)
    · exact (listForEach_inBounds (getBody_inBounds key) _ _ _).bind (fun _ _ ↦ inBounds_ok _)

theorem hotringDelete_inBounds (hc : hashCode h key = .ok (index, tag)) (hi : index < h.size)
    (m : Mem) : InBounds (hotringDelete m h key) := by
  refine (rawHashGet_inBounds hc hi m).bind (fun r hr ↦ ?_)
  obtain ⟨m', h', g⟩ := r
  have hs : SameShape h h' := rawHashGet_shape hr
  have hfree : InBounds (hotringHeadFree h' key) := by
    rw [hotringHeadFree, hs.hashCode, hc, ok_bind]
    exact (slot_inBounds (hs.size ▸ hi)).bind (fun _ _ ↦ inBounds_ok _)
  simp only
  split
  · split
    · exact fun hb ↦ by simp at hb
    · next target _ =>
      have hdel : InBounds (if g.prev ≠ 0 then listDel m' g.prev target else .ok m') := by
        split
        · exact listDel_inBounds _ _ _
        · exact inBounds_ok _
      have hnode (m : Mem) : InBounds (hotringNodeFree m target) :=
        (read_inBounds _ _).bind (fun _ _ ↦ inBounds_ok _)
      have hhead : InBounds (if g.prev = 0 then hotringHeadFree h' key else .ok h') := by
        split
        · exact hfree
        · exact inBounds_ok _
      exact hdel.bind (fun _ _ ↦ (hnode _).bind (fun _ _ ↦ hhead.bind (fun _ _ ↦ inBounds_ok _)))
  · exact inBounds_ok _

/-- An index beyond the slots stops every operation on the key. -/
theorem outOfBounds_of_index (hc : hashCode h key = .ok (index, tag)) (hi : h.size ≤ index)
    (m : Mem) (value : Nat) :
    hashInsert m h key value = .error .outOfBounds ∧ rawHashGet m h key = .error .outOfBounds ∧
      hotringDelete m h key = .error .outOfBounds := by
  have hget : rawHashGet m h key = .error .outOfBounds := by
    rw [rawHashGet, hc, ok_bind]
    simp only [slot_outOfBounds hi, error_bind]
  refine ⟨?_, hget, ?_⟩
  · rw [hashInsert, hc, ok_bind]
    simp only [rawHashCreate, slot_outOfBounds hi, error_bind]
  · rw [hotringDelete, hget, error_bind]

end Code

/-- A table of the size that `hash_alloc(n, k)` gives it has a slot for every `n`-bit key. -/
theorem geometry_of_hashAlloc (ha : hashAlloc n k = .ok h₀) (hs : SameShape h₀ h) (h1 : k < n)
    (h30 : n - k ≤ 30) : Geometry h ∧ h.n = n ∧ h.k = k := by
  obtain ⟨size, hsize, ha⟩ := bind_eq_ok.mp ha
  obtain ⟨hk, rfl⟩ := intShl_eq_ok.mp hsize
  obtain rfl : _ = h₀ := Except.ok.inj ha
  refine ⟨⟨?_, ?_, ?_, ?_⟩, hs.n, hs.k⟩
  · rw [hs.k]
    exact hk
  · rw [hs.k, hs.n]
    exact h1.le
  · rw [Hash.bits, hs.k, hs.n]
    exact h30
  · rw [hs.size, hs.k]

/-- Index and tag of a key of `n` bits put its hash value together. -/
theorem index_mul_add_tagOf (hq : key < 2 ^ h.n) :
    h.index key * 2 ^ h.bits + h.tagOf key = key % 2 ^ h.n := by
  rw [Nat.mod_eq_of_lt hq, Hash.index, Hash.tagOf, Nat.mul_comm]
  exact Nat.div_add_mod key _

/-! ### The keys of milestones -/

/-- The keys that `hotring_rehash_init` stores and `hotring_rehash` searches for in bucket `i` are
the least key of the bucket and that plus half the keys of a bucket, and `hashCode` of the table
splits them into the bucket and the tags 0 and `halfTag`. -/
def MilestoneLaw (h : Hash) (i : Nat) : Prop :=
  ∃ halfTag, halfTagOf (ulSub h.n h.k) = .ok halfTag ∧ halfTag = 2 ^ (h.n - h.k - 1) ∧
    milestone i (ulSub h.n h.k) = i * 2 ^ (h.n - h.k) ∧
    milestoneHalf i (ulSub h.n h.k) halfTag = i * 2 ^ (h.n - h.k) + halfTag ∧
    hashCode h (milestone i (ulSub h.n h.k)) = .ok (i, 0) ∧
    hashCode h (milestoneHalf i (ulSub h.n h.k) halfTag) = .ok (i, halfTag)

theorem tagOf_base (i : Nat) : h.tagOf (i * 2 ^ h.bits) = 0 := Nat.mul_mod_left i _

theorem tagOf_top (hb : 1 ≤ h.bits) (i : Nat) :
    h.tagOf (i * 2 ^ h.bits + halfTag h) = halfTag h := by
  have hhalf := two_mul_halfTag hb
  have hpos : 0 < halfTag h := Nat.two_pow_pos _
  rw [Hash.tagOf, Nat.add_comm, Nat.add_mul_mod_self_right]
  exact Nat.mod_eq_of_lt (by omega)

/-- **Milestone keys.** In a table of `2 ^ k` buckets over 32-bit keys the milestones of bucket `i`
have the keys they should have, and lie in that bucket, exactly if the bucket is in the lower half
of the table. -/
theorem milestoneLaw_iff {i : Nat} (ha : hashAlloc NBITS k = .ok h₀) (hs : SameShape h₀ h)
    (h2 : 2 ≤ NBITS - k) (h30 : NBITS - k ≤ 30) (hi : i < 2 ^ k) :
    MilestoneLaw h i ↔ i < 2 ^ (k - 1) := by
  obtain ⟨g, hn, rfl⟩ := geometry_of_hashAlloc ha hs (by omega) h30
  have hbits : h.bits = NBITS - h.k := by rw [Hash.bits, hn]
  have hb : 1 ≤ h.bits := by omega
  rw [NBITS] at h2 h30 hbits
  have hpow (j : Nat) (hj : h.bits ≤ j) : 2 ^ (j - h.bits) * 2 ^ h.bits = 2 ^ j := by
    rw [← Nat.pow_add, Nat.sub_add_cancel hj]
  have hlow : i < 2 ^ (h.k - 1) ↔ i * 2 ^ h.bits < 2 ^ 31 := by
    rw [← hpow 31 (by omega), Nat.mul_lt_mul_right (Nat.two_pow_pos _)]
    rw [show 31 - h.bits = h.k - 1 by omega]
  have hup : i * 2 ^ h.bits < 2 ^ 32 := by
    rw [← hpow 32 (by omega), show 32 - h.bits = h.k by omega]
    exact Nat.mul_lt_mul_of_pos_right hi (Nat.two_pow_pos _)
  rw [hlow, MilestoneLaw, g.ulSub_bits]
  change (∃ halfTag, _ ∧ halfTag = 2 ^ (h.bits - 1) ∧ milestone i h.bits = i * 2 ^ h.bits ∧ _) ↔ _
  constructor
  · rintro ⟨half, -, -, hbase, -⟩
    by_contra hge
    have := milestone_ge (not_lt.mp hge) hup
    omega
  · intro hlt
    have hbase := milestone_eq hlt
    have htop : milestoneHalf i h.bits (halfTag h) = i * 2 ^ h.bits + halfTag h :=
      topKey_eq g hb hlt
    refine ⟨halfTag h, g.halfTagOf_eq hb, rfl, hbase, htop, ?_, ?_⟩
    · rw [hbase, g.hashCode_eq, index_base, tagOf_base]
    · rw [htop, g.hashCode_eq, index_top hb, tagOf_top hb]

/-- `milestoneLaw_iff` of the second of four buckets. -/
theorem milestoneLaw_iff_four : MilestoneLaw ⟨32, 2, 4, fun _ ↦ none⟩ 1 ↔ 1 < 2 ^ (2 - 1) :=
  milestoneLaw_iff (show hashAlloc NBITS 2 = .ok ⟨32, 2, 4, fun _ ↦ none⟩ from rfl) ⟨rfl, rfl, rfl⟩
    (by decide) (by decide) (by decide)

/-- The least key of the third of four buckets is `2 ^ 31`; its milestone gets a key of 64 bits,
which no slot is for. -/
theorem milestone_signExtended :
    hashAlloc NBITS 2 = .ok ⟨32, 2, 4, fun _ ↦ none⟩ ∧ 2 < 2 ^ 2 ∧
      milestone 2 30 = 2 ^ 64 - 2 ^ 31 ∧ ¬ MilestoneLaw ⟨32, 2, 4, fun _ ↦ none⟩ 2 ∧
      hashCode ⟨32, 2, 4, fun _ ↦ none⟩ (milestone 2 30) = .ok (2 ^ 34 - 2, 0) := by
  refine ⟨rfl, by decide, by decide, ?_, by decide⟩
  rintro ⟨half, -, -, hbase, -⟩
  exact absurd hbase (by decide)

end Jeopardy.Hotring
