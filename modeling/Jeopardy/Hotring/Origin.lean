import Jeopardy.Lib.Permuted
import Jeopardy.Hotring.Parting

/-!
# Where the nodes of a ring come from

A rehash with stale tags may leave a node in the wrong one of the two new buckets, leave both
buckets the same ring, or lose a ring. Whatever it does, its stores exchange links within one ring,
so the rings of a table stay apart by the buckets of the first table: a bucket of a table that was
rehashed any number of times holds nodes only that were inserted into the one it was split off from.
-/

namespace Jeopardy.Hotring

open Rings Fault

variable {D : Type} [DoubleArith D] {k₀ : Nat} {S S' : Nat → Finset Nat} {m m' : Mem}
  {h h' new : Hash} {s s' : State} {i c key value : Nat} {xs zs : List Nat}

/-- The bucket of a table of `2 ^ k₀` buckets that bucket `i` was split off from. -/
def origin (k₀ : Nat) (h : Hash) (i : Nat) : Nat := i / 2 ^ (h.k - k₀)

/-- The nodes of the first table's buckets, linked among themselves. -/
structure Woven (S : Nat → Finset Nat) (m : Mem) : Prop where
  permuted : ∀ c, Permuted m.next (S c)
  disjoint : ∀ c d, c ≠ d → Disjoint (S c) (S d)

/-- The heads of a table are nodes of the buckets they come from. -/
def HeadsFrom (k₀ : Nat) (S : Nat → Finset Nat) (h : Hash) : Prop :=
  ∀ i < h.size, ∀ head, h.slots i = some head → head.addr ∈ S (origin k₀ h i)

namespace Woven

/-- There are nodes at the addresses. -/
theorem exists_node (w : Woven S m) {a : Nat} (ha : a ∈ S c) : ∃ nd, m.node a = some nd := by
  obtain ⟨b, -, hb⟩ := (w.permuted c).next_mem a ha
  obtain ⟨nd, hnd, -⟩ := Mem.node_of_next hb
  exact ⟨nd, hnd⟩

theorem lt_brk (w : Woven S m) {a : Nat} (ha : a ∈ S c) : a < m.brk := by
  obtain ⟨nd, hnd⟩ := w.exists_node ha
  exact Mem.lt_brk_of_node hnd

theorem sameCells (w : Woven S m) (hm : m.SameCells m') : Woven S m' :=
  ⟨fun c ↦ hm.next ▸ w.permuted c, w.disjoint⟩

/-- Every slot begins a ring of nodes of its bucket. -/
theorem exists_bucket (w : Woven S m) (hh : HeadsFrom k₀ S h) (hi : i < h.size) :
    ∃ xs, BucketAt m h i xs ∧ ∀ a ∈ xs, a ∈ S (origin k₀ h i) := by
  cases hs : h.slots i with
  | none => exact ⟨[], ⟨hi, by rw [hs]; rfl, isRing_nil⟩, by simp⟩
  | some head =>
    obtain ⟨xs, hring, hxS⟩ := (w.permuted _).exists_ring (hh i hi head hs)
    exact ⟨head.addr :: xs, ⟨hi, by rw [hs]; rfl, hring⟩, hxS⟩

/-- A change within one bucket leaves the other ones alone. -/
theorem other (w : Woven S m) {d : Nat} (hxS : ∀ a ∈ xs, a ∈ S c) (hd : d ≠ c)
    (hn : ∀ a, a < m.brk → a ∉ xs → m'.next a = m.next a) : Permuted m'.next (S d) := by
  refine (w.permuted d).congr (fun a ha ↦ hn a (w.lt_brk ha) (fun hx ↦ ?_))
  exact Finset.disjoint_left.mp (w.disjoint d c hd) ha (hxS a hx)

end Woven

theorem HeadsFrom.sameHeads (hh : HeadsFrom k₀ S h) (hs : SameHeads h h') : HeadsFrom k₀ S h' := by
  intro i hi head hslot
  have haddr := hs.addr i
  rw [hslot, Option.map_some] at haddr
  obtain ⟨head₀, hslot₀, ha⟩ := Option.map_eq_some_iff.mp haddr.symm
  rw [origin, hs.k, ← ha]
  exact hh i (hs.size ▸ hi) head₀ hslot₀

/-- Storing a head in a slot. -/
theorem HeadsFrom.setSlot {head : Head} (hh : HeadsFrom k₀ S h)
    (hmem : head.addr ∈ S (origin k₀ h i)) : HeadsFrom k₀ S (h.setSlot i (some head)) := by
  intro j hj head' hslot
  by_cases hji : j = i
  · subst hji
    simp only [Hash.setSlot, ↓reduceIte, Option.some.injEq] at hslot
    exact hslot ▸ hmem
  · simp only [Hash.setSlot, if_neg hji] at hslot
    exact hh j hj head' hslot

/-! ### Insertion -/

/-- The nodes with a new one in bucket `c`. -/
def withNode (S : Nat → Finset Nat) (c a : Nat) : Nat → Finset Nat :=
  Function.update S c (insert a (S c))

theorem subset_withNode (S : Nat → Finset Nat) (c a d : Nat) : S d ⊆ withNode S c a d := by
  by_cases hd : d = c
  · subst hd
    rw [withNode, Function.update_self]
    exact Finset.subset_insert _ _
  · rw [withNode, Function.update_of_ne hd]

theorem mem_withNode (S : Nat → Finset Nat) (c a : Nat) : a ∈ withNode S c a c := by
  rw [withNode, Function.update_self]
  exact Finset.mem_insert_self _ _

/-- Of two nodes added to a bucket and the nodes before. -/
theorem mem_withNode_withNode {a b d x : Nat} (hx : x ∈ withNode (withNode S c a) c b d) :
    x = a ∨ x = b ∨ x ∈ S d := by
  by_cases hd : d = c
  · rw [hd, withNode, Function.update_self, withNode, Function.update_self, Finset.mem_insert,
      Finset.mem_insert, ← hd] at hx
    tauto
  · rw [withNode, Function.update_of_ne hd, withNode, Function.update_of_ne hd] at hx
    exact .inr (.inr hx)

theorem HeadsFrom.withNode {a : Nat} (hh : HeadsFrom k₀ S h) :
    HeadsFrom k₀ (Hotring.withNode S c a) h :=
  fun i hi head hs ↦ subset_withNode S c a _ (hh i hi head hs)

/-- A node placed in a bucket is one of its nodes. -/
theorem Woven.placed {key tag value : Nat} (w : Woven S m) (hb : BucketAt m h i xs)
    (hxS : ∀ a ∈ xs, a ∈ S (origin k₀ h i)) (p : Placed m m' h h' i xs key tag value) :
    Woven (withNode S (origin k₀ h i) m.brk) m' := by
  have hfresh (d : Nat) : m.brk ∉ S d := fun ha ↦ (w.lt_brk ha).ne rfl
  have hnext (a : Nat) (ha : a ≠ m.brk) (hax : a ∉ xs) : m'.next a = m.next a := by
    rw [Mem.next_eq_cell, Mem.next_eq_cell, p.frame a ha hax]
  have hset : S (origin k₀ h i) \ xs.toFinset ∪ (newRing m.tag tag m.brk xs).toFinset
      = insert m.brk (S (origin k₀ h i)) := by
    ext a
    simp only [Finset.mem_union, Finset.mem_sdiff, List.mem_toFinset, mem_newRing,
      Finset.mem_insert]
    have := hxS a
    tauto
  refine ⟨fun d ↦ ?_, fun d e hde ↦ ?_⟩
  · by_cases hd : d = origin k₀ h i
    · subst hd
      rw [withNode, Function.update_self, ← hset]
      refine (w.permuted _).replace hb.linked hxS p.bucket.linked (fun a ha ↦ ?_)
        (fun a ha hax ↦ hnext a (w.lt_brk ha).ne hax)
      rcases mem_newRing.mp ha with rfl | ha
      · exact Or.inr (hfresh _)
      · exact Or.inl ha
    · rw [withNode, Function.update_of_ne hd]
      exact w.other hxS hd (fun a ha hax ↦ hnext a ha.ne hax)
  · have hsplit (e : Nat) (he : e ≠ origin k₀ h i) :
        Disjoint (insert m.brk (S (origin k₀ h i))) (S e) :=
      Finset.disjoint_insert_left.mpr ⟨hfresh e, w.disjoint _ _ he.symm⟩
    rw [withNode, Function.update_apply, Function.update_apply]
    split
    · next hd =>
      rw [if_neg (fun he ↦ hde (hd.trans he.symm))]
      exact hsplit e (fun he ↦ hde (hd.trans he.symm))
    · next hd =>
      split
      · exact (hsplit d hd).symm
      · exact w.disjoint d e hde

theorem HeadsFrom.placed {key tag value : Nat} (hh : HeadsFrom k₀ S h)
    (hxS : ∀ a ∈ xs, a ∈ S (origin k₀ h i)) (p : Placed m m' h h' i xs key tag value) :
    HeadsFrom k₀ (Hotring.withNode S (origin k₀ h i) m.brk) h' := by
  intro j hj head hs
  rw [p.size] at hj
  have horigin : origin k₀ h' j = origin k₀ h j := by rw [origin, p.sizes.2.1, origin]
  rw [horigin]
  by_cases hji : j = i
  · subst hji
    have hhead := p.bucket.head
    rw [hs, Option.map_some] at hhead
    have hmem := List.mem_of_mem_head? hhead.symm
    rw [Hotring.withNode, Function.update_self, Finset.mem_insert]
    exact (mem_newRing.mp hmem).imp_right (hxS _)
  · rw [p.slots j hji] at hs
    exact subset_withNode _ _ _ _ (hh j hj head hs)

/-! ### The loops of a rehash -/

/-- A round of the first loop gives a bucket in use two milestones. -/
theorem Woven.initStep {bits half : Nat} {s s' : Mem × Hash × Hash} (w : Woven S s.1)
    (hh : HeadsFrom k₀ S s.2.1) (hn : HeadsFrom k₀ S s.2.2) (hk : s.2.2.k = s.2.1.k + 1)
    (hle : k₀ ≤ s.2.1.k) (hr : rehashInitStep bits half s i = .ok s') :
    ∃ S', Woven S' s'.1 ∧ HeadsFrom k₀ S' s'.2.1 ∧ HeadsFrom k₀ S' s'.2.2 ∧ s.1.brk ≤ s'.1.brk ∧
      ∀ c, ∀ a ∈ S' c, a ∈ S c ∨ s.1.brk ≤ a := by
  obtain ⟨m, h, new⟩ := s
  obtain ⟨slot, hslot, hr⟩ := bind_eq_ok.mp hr
  obtain ⟨hi, hs⟩ := slot_eq_ok hslot
  cases slot with
  | none =>
    simp only [pure, Except.pure, Except.ok.injEq] at hr
    subst hr
    exact ⟨S, w, hh, hn, le_rfl, fun _ _ ha ↦ Or.inl ha⟩
  | some head =>
    obtain ⟨xs, hb, hxS⟩ := w.exists_bucket hh hi
    obtain ⟨m₁, h₁, m₂, hc₁, he₁, p₁⟩ := place_spec (milestoneHalf i bits half) half 0 hb
    have w₁ := w.placed hb hxS p₁
    have hh₁ := hh.placed hxS p₁
    obtain ⟨ys, hb₁, hyS⟩ := w₁.exists_bucket hh₁ (p₁.size.symm ▸ hi)
    obtain ⟨m₃, h₂, m₄, hc₂, he₂, p₂⟩ := place_spec (milestone i bits) 0 0 hb₁
    have w₂ := w₁.placed hb₁ hyS p₂
    have hh₂ := hh₁.placed hyS p₂
    simp only [hc₁, ok_bind, he₁, hc₂, he₂] at hr
    obtain ⟨new₁, hn₁, hr⟩ := bind_eq_ok.mp hr
    obtain ⟨new₂, hn₂, hr⟩ := bind_eq_ok.mp hr
    obtain ⟨-, rfl⟩ := store_eq_ok hn₁
    obtain ⟨-, rfl⟩ := store_eq_ok hn₂
    simp only [pure, Except.pure, Except.ok.injEq] at hr
    subst hr
    have horigin : origin k₀ h₁ i = origin k₀ h i := by rw [origin, p₁.sizes.2.1, origin]
    rw [horigin] at w₂ hh₂
    have hhalf (j : Nat) (hj : j / 2 = i) (v : Option Head) :
        origin k₀ (new.setSlot (i * 2 + 1) v) j = origin k₀ h i := by
      change j / 2 ^ (new.k - k₀) = i / 2 ^ (h.k - k₀)
      simp only at hk hle
      rw [hk, show h.k + 1 - k₀ = (h.k - k₀) + 1 by omega, Nat.pow_succ', ← Nat.div_div_eq_div_mul,
        hj]
    refine ⟨_, w₂, hh₂, (hn.withNode.withNode.setSlot ?_).setSlot ?_, ?_, ?_⟩
    · rw [show origin k₀ new (i * 2 + 1) = origin k₀ h i from hhalf (i * 2 + 1) (by omega) none]
      exact subset_withNode _ _ _ _ (mem_withNode _ _ _)
    · rw [hhalf (i * 2) (by omega)]
      exact mem_withNode _ _ _
    · simp only [p₂.brk, p₁.brk]
      omega
    · intro c a ha
      rw [p₁.brk] at ha
      rcases mem_withNode_withNode ha with rfl | rfl | ha
      · exact Or.inr le_rfl
      · exact Or.inr (Nat.le_succ _)
      · exact Or.inl ha

/-- The node that `storeNext` changes. -/
theorem next_of_storeNext {p q : Nat} (hr : storeNext m p q = .ok m') :
    m'.brk = m.brk ∧ m'.next p = some q ∧ ∀ a, a ≠ p → m'.next a = m.next a := by
  obtain ⟨⟨nd, hnd⟩, -⟩ := Mem.modify_eq_ok.mp hr
  obtain ⟨m₁, hm₁, hbrk, hnew, hold, -⟩ := storeNext_spec hnd q
  obtain rfl := Except.ok.inj (hr.symm.trans hm₁)
  refine ⟨hbrk, ?_, fun a ha ↦ ?_⟩
  · rw [Mem.next, hnew]
    rfl
  · rw [Mem.next, hold a ha, Mem.next]

/-- A round of the second loop that completes exchanges the links of two nodes of the ring. -/
theorem swap_of_rehashSplitStep {bits half : Nat} (geo : Geometry h)
    (hb : BucketAt m h i (c :: zs)) (hr : rehashSplitStep bits half (m, h) i = .ok (m', h'))
    (hbase : h.index (milestone i bits) = i) (htop : h.index (milestoneHalf i bits half) = i) :
    SameHeads h h' ∧ m'.brk = m.brk ∧ ∃ p ∈ c :: zs, ∃ q ∈ c :: zs, m'.next p = m.next q ∧
      m'.next q = m.next p ∧ ∀ a, a ≠ p → a ≠ q → m'.next a = m.next a := by
  obtain ⟨m₁, h₁, r₁, m₂, h₂, r₂, hg₁, hg₂, ⟨hn₁, hp₁⟩, hn₂, hp₂⟩ := found_of_rehashSplitStep hb hr
  have hb' : BucketAt m h (h.index (milestone i bits)) (c :: zs) := hbase.symm ▸ hb
  obtain ⟨m₃, h₃, hg₃, hs₁, hh₁, -⟩ := rawHashGet_bucket geo hb'
  rw [hg₁, Except.ok.injEq, Prod.mk.injEq, Prod.mk.injEq] at hg₃
  obtain ⟨rfl, rfl, rfl⟩ := hg₃
  have hb₁ : BucketAt m₁ h₁ (h₁.index (milestoneHalf i bits half)) (c :: zs) := by
    rw [Hash.index, hh₁.bits, ← Hash.index, htop]
    exact hb.congr hs₁ hh₁
  obtain ⟨m₄, h₄, hg₄, hs₂, hh₂, -⟩ := rawHashGet_bucket (hh₁.geometry geo) hb₁
  rw [hg₂, Except.ok.injEq, Prod.mk.injEq, Prod.mk.injEq] at hg₄
  obtain ⟨rfl, rfl, rfl⟩ := hg₄
  obtain ⟨a, v, ps, qs, ha, -, hga⟩ := ringGet_of_prev hn₁ hp₁
  obtain ⟨b, w, ps', qs', hb₂, -, hgb⟩ := ringGet_of_prev hn₂ hp₂
  have hva : m.next v = some a := (ha ▸ hb.linked).next_eq
  have hwb : m.next w = some b := (hb₂ ▸ hb.linked).next_eq
  obtain ⟨head, hslot, -⟩ := Option.map_eq_some_iff.mp
    (show (h.slots i).map Head.addr = some c from hb.head)
  simp only [rehashSplitStep, hb.slot_eq, hslot, ok_bind, hg₁, hg₂, hga, hgb] at hr
  obtain ⟨m₅, hst₅, hr⟩ := bind_eq_ok.mp hr
  obtain ⟨m₆, hst₆, hr⟩ := bind_eq_ok.mp hr
  simp only [pure, Except.pure, Except.ok.injEq, Prod.mk.injEq] at hr
  obtain ⟨rfl, rfl⟩ := hr
  obtain ⟨hbrk₅, hw₅, hold₅⟩ := next_of_storeNext hst₅
  obtain ⟨hbrk₆, hv₆, hold₆⟩ := next_of_storeNext hst₆
  have hs := hs₁.trans hs₂
  refine ⟨hh₁.trans hh₂, hbrk₆.trans (hbrk₅.trans hs.brk), v, ?_, w, ?_, ?_, ?_, ?_⟩
  · rw [ha]
    simp
  · rw [hb₂]
    simp
  · rw [hv₆, hwb]
  · by_cases hwv : w = v
    · rw [hwv, hv₆, ← hwb, hwv]
    · rw [hold₆ w hwv, hw₅, hva]
  · intro e hev hew
    rw [hold₆ e hev, hold₅ e hew, hs.next]

/-- A round of the second loop keeps the buckets apart. -/
theorem Woven.splitStep {s s' : Mem × Hash} (w : Woven S s.1) (hh : HeadsFrom k₀ S s.2)
    (geo : Geometry s.2) (hn : s.2.n = NBITS) (hb : 1 ≤ s.2.bits)
    (hr : rehashSplitStep s.2.bits (halfTag s.2) s i = .ok s') :
    Woven S s'.1 ∧ HeadsFrom k₀ S s'.2 ∧ SameHeads s.2 s'.2 ∧ s'.1.brk = s.1.brk := by
  obtain ⟨m, h⟩ := s
  obtain ⟨m', h'⟩ := s'
  simp only at w hh geo hn hb hr ⊢
  have hr₀ := hr
  obtain ⟨slot, hslot, hr⟩ := bind_eq_ok.mp hr
  obtain ⟨hi, hs⟩ := slot_eq_ok hslot
  cases slot with
  | none =>
    simp only [pure, Except.pure, Except.ok.injEq, Prod.mk.injEq] at hr
    obtain ⟨rfl, rfl⟩ := hr
    exact ⟨w, hh, .refl h, rfl⟩
  | some head =>
    obtain ⟨⟨m₁, h₁, r₁⟩, hg₁, -⟩ := bind_eq_ok.mp hr
    have hlow := base_lt_of_milestone_lt geo hn hi (geo.lt_of_rawHashGet hg₁)
    obtain ⟨xs, hbk, hxS⟩ := w.exists_bucket hh hi
    obtain ⟨c, zs, rfl⟩ : ∃ c zs, xs = c :: zs := by
      cases xs with
      | nil =>
        have hhead := hbk.head
        rw [hs] at hhead
        cases hhead
      | cons c zs => exact ⟨c, zs, rfl⟩
    obtain ⟨hsame, hbrk, p, hp, q, hq, hnp, hnq, hold⟩ := swap_of_rehashSplitStep geo hbk hr₀
      (by rw [milestone_eq hlow, index_base])
      (by rw [show milestoneHalf i h.bits (halfTag h) = _ from topKey_eq geo hb hlow, index_top hb])
    refine ⟨⟨fun d ↦ ?_, w.disjoint⟩, hh.sameHeads hsame, hsame, hbrk⟩
    by_cases hd : d = origin k₀ h i
    · subst hd
      exact (w.permuted _).swap (hxS p hp) (hxS q hq) hnp hnq hold
    · refine w.other hxS hd (fun a _ hax ↦ hold a ?_ ?_)
      · rintro rfl
        exact hax hp
      · rintro rfl
        exact hax hq

/-- The heads of a table are nodes of the buckets they come from, or are freed. -/
def HeadsFromOrFreed (k₀ : Nat) (S : Nat → Finset Nat) (m : Mem) (h : Hash) : Prop :=
  ∀ i < h.size, ∀ head, h.slots i = some head →
    head.addr ∈ S (origin k₀ h i) ∨ m.node head.addr = Option.none

/-- A deletion of the head that completes does what `HeadOff` says. -/
theorem headOff_of_hotringDeleteHead {b : Bool} (hb : BucketAt m h i (c :: xs))
    (hr : hotringDeleteHead m h i = .ok (m', h', b)) : HeadOff m m' h h' i c xs := by
  obtain ⟨nd, hnd⟩ := Mem.node_of_ring hb.linked List.mem_cons_self
  have hplain : xs = [] → (m.node c).map HashNode.list = some (.ofPtr c) := by
    rintro rfl
    rw [hnd, Option.map_some, Option.some.injEq]
    by_contra hlist
    rw [hotringDeleteHead_uninitialized hb hnd hlist] at hr
    cases hr
  obtain ⟨m₁, h₁, hr₁, hoff⟩ := hotringDeleteHead_spec hb ⟨hb.linked, fun a ha ↦ by
    obtain ⟨rfl, rfl⟩ := List.cons.inj ha
    exact hplain rfl⟩
  rw [hr, Except.ok.injEq, Prod.mk.injEq, Prod.mk.injEq] at hr₁
  obtain ⟨rfl, rfl, -⟩ := hr₁
  exact hoff

/-- A deletion that completes has read the head. -/
theorem node_of_hotringDeleteHead {head : Head} {b : Bool} (hs : h.slots i = some head)
    (hr : hotringDeleteHead m h i = .ok (m', h', b)) : m.node head.addr ≠ Option.none := by
  intro hfreed
  obtain ⟨slot, hslot, hr⟩ := bind_eq_ok.mp hr
  obtain rfl := (slot_eq_ok hslot).2.symm.trans hs
  obtain ⟨nd, hnd, -⟩ := bind_eq_ok.mp hr
  rw [Mem.read_eq_ok, hfreed] at hnd
  cases hnd

/-- Taking the head out of a bucket leaves the other nodes linked among themselves. -/
theorem Woven.headOff (w : Woven S m) (hring : IsRing m.next (c :: xs))
    (hxS : ∀ a ∈ c :: xs, a ∈ S (origin k₀ h i)) (hoff : HeadOff m m' h h' i c xs) :
    Woven (fun d ↦ (S d).erase c) m' := by
  obtain ⟨hne, -⟩ := List.nodup_cons.mp hring.nodup
  have hmem := hxS c List.mem_cons_self
  have hset : S (origin k₀ h i) \ (c :: xs).toFinset ∪ xs.toFinset
      = (S (origin k₀ h i)).erase c := by
    ext a
    simp only [Finset.mem_union, Finset.mem_sdiff, List.mem_toFinset, List.mem_cons,
      Finset.mem_erase]
    have := hxS a
    rw [List.mem_cons] at this
    by_cases ha : a = c
    · subst ha
      tauto
    · tauto
  have hnext (a : Nat) (hax : a ∉ c :: xs) : m'.next a = m.next a := by
    rw [Mem.next, hoff.frame a hax, Mem.next]
  refine ⟨fun d ↦ ?_, fun d e hde ↦
    (w.disjoint d e hde).mono (Finset.erase_subset _ _) (Finset.erase_subset _ _)⟩
  by_cases hd : d = origin k₀ h i
  · subst hd
    rw [← hset]
    exact (w.permuted _).replace hring hxS hoff.bucket.linked
      (fun a ha ↦ Or.inl (List.mem_cons_of_mem _ ha)) (fun a _ hax ↦ hnext a hax)
  · rw [Finset.erase_eq_of_notMem
      (fun ha ↦ Finset.disjoint_left.mp (w.disjoint d _ hd) ha hmem)]
    exact w.other hxS hd (fun a _ hax ↦ hnext a hax)

theorem HeadsFromOrFreed.headOff (hh : HeadsFromOrFreed k₀ S m h) (w : Woven S m)
    (hxS : ∀ a ∈ c :: xs, a ∈ S (origin k₀ h i)) (hoff : HeadOff m m' h h' i c xs) :
    HeadsFromOrFreed k₀ (fun d ↦ (S d).erase c) m' h' := by
  have hfreed : m'.node c = Option.none := by simpa [Mem.cell] using hoff.freed
  intro j hj head hs
  rw [hoff.shape.size] at hj
  have horigin : origin k₀ h' j = origin k₀ h j := by rw [origin, hoff.shape.k, origin]
  simp only [horigin, Finset.mem_erase]
  by_cases hsame : head.addr = c
  · exact Or.inr (hsame ▸ hfreed)
  · by_cases hji : j = i
    · subst hji
      have hhead := hoff.bucket.head
      rw [hs, Option.map_some] at hhead
      exact Or.inl ⟨hsame, hxS _ (List.mem_cons_of_mem _ (List.mem_of_mem_head? hhead.symm))⟩
    · rw [hoff.slots j hji] at hs
      refine (hh j hj head hs).imp (fun hm ↦ ⟨hsame, hm⟩) (fun hno ↦ ?_)
      rw [hoff.frame _ (fun hx ↦ ?_), hno]
      obtain ⟨nd, hnd⟩ := w.exists_node (hxS _ hx)
      rw [hno] at hnd
      cases hnd

/-- A round of the last loop takes a node out of its bucket. -/
theorem Woven.deleteStep {s s' : Mem × Hash} (w : Woven S s.1)
    (hh : HeadsFromOrFreed k₀ S s.1 s.2) (hr : rehashDeleteStep s i = .ok s') :
    ∃ S', Woven S' s'.1 ∧ HeadsFromOrFreed k₀ S' s'.1 s'.2 ∧ ∀ c, S' c ⊆ S c := by
  obtain ⟨m, h⟩ := s
  obtain ⟨slot, hslot, hr⟩ := bind_eq_ok.mp hr
  obtain ⟨hi, hs⟩ := slot_eq_ok hslot
  cases slot with
  | none =>
    simp only [pure, Except.pure, Except.ok.injEq] at hr
    subst hr
    exact ⟨S, w, hh, fun _ ↦ Finset.Subset.refl _⟩
  | some head =>
    obtain ⟨⟨m₂, h₂, b⟩, hd, hr⟩ := bind_eq_ok.mp hr
    simp only [pure, Except.pure, Except.ok.injEq] at hr
    subst hr
    have hmem : head.addr ∈ S (origin k₀ h i) :=
      (hh i hi head hs).resolve_right (node_of_hotringDeleteHead hs hd)
    obtain ⟨xs, hring, hxS⟩ := (w.permuted _).exists_ring hmem
    have hoff := headOff_of_hotringDeleteHead
      (⟨hi, by rw [hs]; rfl, hring⟩ : BucketAt m h i (head.addr :: xs)) hd
    exact ⟨_, w.headOff hring hxS hoff, hh.headOff w hxS hoff, fun c ↦ Finset.erase_subset _ _⟩

/-- A display that completes has read every head. -/
theorem display_head (hr : display m h = .ok m') :
    m' = m ∧ ∀ i < h.size, ∀ head, h.slots i = some head → ∃ nd, m.node head.addr = some nd := by
  have hfold := foldlM_range_invariant (P := fun n (m₁ : Mem) ↦ m₁ = m ∧ ∀ i < n, ∀ head,
    h.slots i = some head → ∃ nd, m.node head.addr = some nd) ?_ ⟨rfl, by simp⟩ hr
  · exact hfold
  · rintro n m₁ m₂ - ⟨rfl, hall⟩ hstep
    obtain ⟨slot, hslot, hstep⟩ := bind_eq_ok.mp hstep
    have hs := (slot_eq_ok hslot).2
    cases slot with
    | none =>
      simp only [pure, Except.pure, Except.ok.injEq] at hstep
      refine ⟨hstep.symm, fun i hi head hh ↦ ?_⟩
      rcases Nat.lt_succ_iff_lt_or_eq.mp hi with hlt | rfl
      · exact hall i hlt head hh
      · rw [hs] at hh
        cases hh
    | some head =>
      obtain ⟨⟨m₃, u⟩, hl, hstep⟩ := bind_eq_ok.mp hstep
      simp only [pure, Except.pure, Except.ok.injEq] at hstep
      subst hstep
      have hmem : m₃ = m₁ := by
        refine listForEach_invariant (C := Set.univ) (I := fun m₂ _ ↦ m₂ = m₁)
          (fun _ _ _ ↦ ⟨trivial, fun _ _ ↦ trivial, fun _ _ _ _ ↦ trivial⟩) ?_ ?_ rfl trivial hl
        · intro m₂ pos s m₃ s' _ _ hb
          cases hb
        · intro m₂ pos s m₃ s' hI _ hb
          simp only [Except.ok.injEq, ForInStep.yield.injEq, Prod.mk.injEq] at hb
          exact hb.1 ▸ hI
      obtain ⟨nd, hnd, -⟩ := bind_eq_ok.mp hl
      refine ⟨hmem, fun i hi head' hh ↦ ?_⟩
      rcases Nat.lt_succ_iff_lt_or_eq.mp hi with hlt | rfl
      · exact hall i hlt head' hh
      · rw [hs, Option.some.injEq] at hh
        exact ⟨nd, hh ▸ Mem.read_eq_ok.mp hnd⟩

/-! ### A rehash -/

theorem geometry_of_hotringRehash (g : Geometry h) (hn : h.n = NBITS)
    (hr : hotringRehash m h = .ok (m', new)) : Geometry new := by
  obtain ⟨hn', hk', hsize, hle⟩ := hotringRehash_shape hr
  have hbits := g.bits_le
  have hb := bits_pos_of_hotringRehash g hr
  rw [Hash.bits, hn] at hbits hb
  rw [NBITS] at hbits hb hn'
  refine ⟨by omega, by omega, ?_, by rw [hsize, hk']⟩
  rw [Hash.bits, hn', hk']
  omega

/-- `hotring_rehash_init` gives the buckets milestones, and the new slots lead to these. -/
theorem Woven.rehashInit (w : Woven S m) (hh : HeadsFrom k₀ S h) (hk : k₀ ≤ h.k)
    (hr : hotringRehashInit m h = .ok (m', h', new)) :
    ∃ S', Woven S' m' ∧ HeadsFrom k₀ S' h' ∧ HeadsFrom k₀ S' new ∧ m.brk ≤ m'.brk ∧
      ∀ c, ∀ a ∈ S' c, a ∈ S c ∨ m.brk ≤ a := by
  obtain ⟨-, -, hr⟩ := bind_eq_ok.mp hr
  obtain ⟨half, -, hr⟩ := bind_eq_ok.mp hr
  obtain ⟨new₀, ha, hr⟩ := bind_eq_ok.mp hr
  obtain ⟨size, -, ha⟩ := bind_eq_ok.mp ha
  simp only [pure, Except.pure, Except.ok.injEq] at ha
  subst ha
  let P (s : Mem × Hash × Hash) : Prop := s.2.1.k = h.k ∧ s.2.2.k = h.k + 1 ∧
    ∃ S', Woven S' s.1 ∧ HeadsFrom k₀ S' s.2.1 ∧ HeadsFrom k₀ S' s.2.2 ∧ m.brk ≤ s.1.brk ∧
      ∀ c, ∀ a ∈ S' c, a ∈ S c ∨ m.brk ≤ a
  have hstep (s : Mem × Hash × Hash) (i : Nat) (s' : Mem × Hash × Hash) (hp : P s)
      (hi : rehashInitStep (ulSub h.n h.k) half s i = .ok s') : P s' := by
    obtain ⟨hk₁, hk₂, S₁, w₁, hh₁, hn₁, hle, hsub⟩ := hp
    obtain ⟨S₂, w₂, hh₂, hn₂, hle₂, hsub₂⟩ :=
      w₁.initStep hh₁ hn₁ (by rw [hk₁, hk₂]) (hk₁.symm ▸ hk) hi
    obtain ⟨hs₁, hs₂⟩ := rehashInitStep_shape hi
    refine ⟨hs₁.k.trans hk₁, hs₂.k.trans hk₂, S₂, w₂, hh₂, hn₂, hle.trans hle₂, fun c a ha ↦ ?_⟩
    rcases hsub₂ c a ha with ha | ha
    · exact hsub c a ha
    · exact Or.inr (hle.trans ha)
  exact (foldlM_invariant hstep
    ⟨rfl, rfl, S, w, hh, by simp [HeadsFrom], le_rfl, fun _ _ ha ↦ Or.inl ha⟩ hr).2.2

/-- **Origin of the nodes.** A rehash that completes keeps the nodes of the first table's buckets
apart, and leaves no milestone behind. -/
theorem Woven.rehash (w : Woven S m) (hh : HeadsFrom k₀ S h) (g : Geometry h) (hn : h.n = NBITS)
    (hk : k₀ ≤ h.k) (hr : hotringRehash m h = .ok (m', new)) :
    ∃ S', Woven S' m' ∧ HeadsFrom k₀ S' new ∧ ∀ c, S' c ⊆ S c := by
  have hfrees := hotringRehash_frees hr
  have hb := bits_pos_of_hotringRehash g hr
  obtain ⟨⟨m₁, h₁, new₁⟩, hinit, hr⟩ := bind_eq_ok.mp hr
  obtain ⟨half, hhalf, hr⟩ := bind_eq_ok.mp hr
  obtain ⟨⟨m₂, h₂⟩, hsplit, hr⟩ := bind_eq_ok.mp hr
  obtain ⟨⟨m₃, new₃⟩, hdel, hr⟩ := bind_eq_ok.mp hr
  obtain ⟨m₄, hdis, hr⟩ := bind_eq_ok.mp hr
  simp only [pure, Except.pure, Except.ok.injEq, Prod.mk.injEq] at hr
  obtain ⟨rfl, rfl⟩ := hr
  have hsh := (hotringRehashInit_shape hinit).1
  have hbits : h₁.bits = h.bits := by rw [Hash.bits, hsh.n, hsh.k, Hash.bits]
  have g₁ : Geometry h₁ := g.congr hsh.n hsh.k hsh.size
  obtain ⟨S₁, w₁, hh₁, hnew₁, -, hsub₁⟩ := w.rehashInit hh hk hinit
  rw [g₁.ulSub_bits, g₁.halfTagOf_eq (hbits ▸ hb), Except.ok.injEq] at hhalf
  subst hhalf
  rw [g₁.ulSub_bits] at hsplit
  have hround (s : Mem × Hash) (i : Nat) (s' : Mem × Hash)
      (hp : Woven S₁ s.1 ∧ HeadsFrom k₀ S₁ s.2 ∧ SameHeads h₁ s.2)
      (hstep : rehashSplitStep h₁.bits (halfTag h₁) s i = .ok s') :
      Woven S₁ s'.1 ∧ HeadsFrom k₀ S₁ s'.2 ∧ SameHeads h₁ s'.2 := by
    obtain ⟨w, hh, hs⟩ := hp
    have hhalf : halfTag s.2 = halfTag h₁ := by rw [halfTag, halfTag, hs.bits]
    rw [← hs.bits, ← hhalf] at hstep
    obtain ⟨w', hh', hs', -⟩ := w.splitStep hh (hs.geometry g₁) (hs.n.trans (hsh.n.trans hn))
      (hs.bits.symm ▸ hbits.symm ▸ hb) hstep
    exact ⟨w', hh', hs.trans hs'⟩
  obtain ⟨w₂, -, -⟩ := foldlM_invariant hround ⟨w₁, hh₁, .refl h₁⟩ hsplit
  have hdelete (s : Mem × Hash) (i : Nat) (s' : Mem × Hash)
      (hp : ∃ S', Woven S' s.1 ∧ HeadsFromOrFreed k₀ S' s.1 s.2 ∧ ∀ c, S' c ⊆ S₁ c)
      (hstep : rehashDeleteStep s i = .ok s') :
      ∃ S', Woven S' s'.1 ∧ HeadsFromOrFreed k₀ S' s'.1 s'.2 ∧ ∀ c, S' c ⊆ S₁ c := by
    obtain ⟨S₂, w, hh, hsub⟩ := hp
    obtain ⟨S₃, w', hh', hsub'⟩ := w.deleteStep hh hstep
    exact ⟨S₃, w', hh', fun c ↦ (hsub' c).trans (hsub c)⟩
  obtain ⟨S₃, w₃, hh₃, hsub₃⟩ := foldlM_invariant (b := (m₂, new₁))
    hdelete ⟨S₁, w₂, fun i hi head hs ↦ Or.inl (hnew₁ i hi head hs),
      fun _ ↦ Finset.Subset.refl _⟩ hdel
  obtain ⟨rfl, hlive⟩ := display_head hdis
  refine ⟨S₃, w₃, fun i hi head hs ↦ (hh₃ i hi head hs).resolve_right (fun hfreed ↦ ?_), ?_⟩
  · obtain ⟨nd, hnd⟩ := hlive i hi head hs
    rw [hfreed] at hnd
    cases hnd
  · intro c a ha
    refine (hsub₁ c a (hsub₃ c ha)).resolve_right (fun hge ↦ ?_)
    obtain ⟨nd, hnd⟩ := w₃.exists_node ha
    rw [hfrees a hge] at hnd
    cases hnd

/-! ### Calls -/

/-- An insertion adds a node to the bucket of its key. -/
theorem Woven.insert {e : Int} (w : Woven S m) (hh : HeadsFrom k₀ S h) (g : Geometry h)
    (hr : hashInsert m h key value = .ok (m', h', e)) :
    Woven (withNode S (origin k₀ h (h.index key)) m.brk) m' ∧
      HeadsFrom k₀ (withNode S (origin k₀ h (h.index key)) m.brk) h' ∧ SameShape h h' := by
  obtain ⟨xs, hb, hxS⟩ := w.exists_bucket hh (g.index_lt (g.lt_of_hashInsert hr))
  obtain ⟨m₁, h₁, m₂, hc, he, p⟩ := place_spec key (h.tagOf key) value hb
  have w' := w.placed hb hxS p
  have hh' := hh.placed hxS p
  rw [hashInsert, g.hashCode_eq, ok_bind] at hr
  simp only [hc, ok_bind, he] at hr
  simp only [pure, Except.pure, Int.reduceLT, ↓reduceIte, Except.ok.injEq, Prod.mk.injEq] at hr
  obtain ⟨rfl, rfl, -⟩ := hr
  exact ⟨w', hh', p.sizes.1, p.sizes.2.1, p.sizes.2.2⟩

variable [LawfulDouble D]

/-- The shift of a bucket leaves its head in it, or asks for a rehash with the head `NULL`. -/
theorem Woven.hotspotShiftHead {ret : HotspotShift} (w : Woven S m) (hh : HeadsFrom k₀ S h)
    (hr : hotspotShiftHead D m h i = .ok (m', h', ret)) :
    Woven S m' ∧ (HeadsFrom k₀ S h' ∨ (ret = .rehash ∧ (h'.slots i).map Head.addr = some 0)) := by
  obtain ⟨slot, hslot, hr⟩ := bind_eq_ok.mp hr
  obtain ⟨hi, hs⟩ := slot_eq_ok hslot
  cases slot with
  | none => cases hr
  | some head =>
    obtain ⟨⟨m₁, head', ret'⟩, hd, hr⟩ := bind_eq_ok.mp hr
    simp only [pure, Except.pure, Except.ok.injEq, Prod.mk.injEq] at hr
    obtain ⟨rfl, rfl, rfl⟩ := hr
    obtain ⟨xs, hring, hxS⟩ := (w.permuted _).exists_ring (hh i hi head hs)
    obtain ⟨hm, hmem⟩ := doHotspotShift_spec hring hd
    refine ⟨w.sameCells hm, hmem.imp (fun hmem ↦ hh.setSlot (hxS _ hmem)) (fun h0 ↦ ?_)⟩
    exact ⟨h0.2, by simp [Hash.setSlot, h0.1]⟩

/-- A get keeps the buckets apart, also if it rehashes. -/
theorem Woven.get {e : Int} {r : GetResult} (w : Woven S s.mem) (hh : HeadsFrom k₀ S s.hash)
    (g : Geometry s.hash) (hn : s.hash.n = NBITS) (hk : k₀ ≤ s.hash.k)
    (hr : hashGet D s key = .ok (s', e, r)) :
    Geometry s'.hash ∧ s'.hash.n = NBITS ∧ k₀ ≤ s'.hash.k ∧
      ∃ S', Woven S' s'.mem ∧ HeadsFrom k₀ S' s'.hash ∧ ∀ c, S' c ⊆ S c := by
  obtain ⟨m₁, h₁, hg, hcase⟩ := hashGet_cases hr
  obtain ⟨xs, hb, -⟩ := w.exists_bucket hh (g.index_lt (g.lt_of_rawHashGet hg))
  obtain ⟨m₂, h₂, hg₂, hm, hs, -⟩ := rawHashGet_bucket g hb
  rw [hg, Except.ok.injEq, Prod.mk.injEq, Prod.mk.injEq] at hg₂
  obtain ⟨rfl, rfl, -⟩ := hg₂
  have w₁ := w.sameCells hm
  have hh₁ := hh.sameHeads hs
  have g₁ := hs.geometry g
  have hn₁ := hs.n.trans hn
  have hk₁ : k₀ ≤ h₁.k := hs.k.symm ▸ hk
  rcases hcase with ⟨hm', hh'⟩ | ⟨i, tag, -, -, hsh⟩
  · rw [hm', hh']
    exact ⟨g₁, hn₁, hk₁, S, w₁, hh₁, fun _ ↦ Finset.Subset.refl _⟩
  · obtain ⟨m₃, h₃, ret, hhead, hret⟩ := hotspotShift_cases hsh
    obtain ⟨w₃, hh₃⟩ := w₁.hotspotShiftHead hh₁ hhead
    have hshape := hotspotShiftHead_shape hhead
    have g₃ := g₁.congr hshape.n hshape.k hshape.size
    have hn₃ := hshape.n.trans hn₁
    have hk₃ : k₀ ≤ h₃.k := hshape.k.symm ▸ hk₁
    rcases hret with ⟨hret, hm', hh'⟩ | ⟨-, hre⟩
    · rw [hm', hh']
      refine ⟨g₃, hn₃, hk₃, S, w₃, hh₃.resolve_right (fun h0 ↦ ?_), fun _ ↦ Finset.Subset.refl _⟩
      rw [hret] at h0
      cases h0.1
    · -- a rehash reads every head, so it does not complete with one that is `NULL`
      have hi : i < h₃.size := by
        obtain ⟨slot, hslot, -⟩ := bind_eq_ok.mp hhead
        exact hshape.size ▸ (slot_eq_ok hslot).1
      have hh₃' := hh₃.resolve_right (fun h0 ↦ head_ne_null hre hi h0.2)
      obtain ⟨S', w', hh', hsub⟩ := w₃.rehash hh₃' g₃ hn₃ hk₃ hre
      obtain ⟨hn', hk', -, -⟩ := hotringRehash_shape hre
      exact ⟨geometry_of_hotringRehash g₃ hn₃ hre, hn', by omega, S', w', hh', hsub⟩

end Jeopardy.Hotring
