import Jeopardy.Hotring.RegionRehash
import Jeopardy.Hotring.Table

/-!
# The first loop of a rehash

`hotring_rehash_init` puts two milestones into the ring of every bucket in use and makes
them the heads of two slots of the new table.
-/

namespace Jeopardy.Hotring

open Rings Fault

/-- The ring of a bucket with its milestones `lo` for tag 0 and `hi` for the half tag. -/
def markRing (tag : Nat → Nat) (half lo hi : Nat) : List Nat → List Nat
  | [] => []
  | c :: xs => newRing tag 0 lo (newRing tag half hi (c :: xs))

theorem markRing_of_ne {tag : Nat → Nat} {half lo hi : Nat} {xs : List Nat} (hx : xs ≠ []) :
    markRing tag half lo hi xs = newRing tag 0 lo (newRing tag half hi xs) := by
  cases xs with
  | nil => exact absurd rfl hx
  | cons c xs => rfl

theorem mem_markRing_iff {tag : Nat → Nat} {half lo hi a : Nat} {xs : List Nat} (hx : xs ≠ []) :
    a ∈ markRing tag half lo hi xs ↔ a = lo ∨ a = hi ∨ a ∈ xs := by
  rw [markRing_of_ne hx, mem_newRing, mem_newRing]

theorem mem_markRing {tag : Nat → Nat} {half lo hi a : Nat} {xs : List Nat}
    (ha : a ∈ markRing tag half lo hi xs) : xs ≠ [] ∧ (a = lo ∨ a = hi ∨ a ∈ xs) := by
  cases xs with
  | nil => simp [markRing] at ha
  | cons c xs => exact ⟨by simp, (mem_markRing_iff (by simp)).mp ha⟩

theorem markRing_congr {tag tag' : Nat → Nat} {half lo hi : Nat} {xs : List Nat}
    (h : ∀ x ∈ xs, tag' x = tag x) (hh : xs ≠ [] → tag' hi = tag hi) :
    markRing tag' half lo hi xs = markRing tag half lo hi xs := by
  cases xs with
  | nil => rfl
  | cons c xs =>
    rw [markRing, markRing, newRing_congr h, newRing_congr]
    intro x hx
    rcases mem_newRing.mp hx with rfl | hx
    · exact hh (by simp)
    · exact h x hx

/-- The head that a slot of the new table gets for the ring `xs`. -/
def slotFor (a : Nat) : List Nat → Option Head
  | [] => Option.none
  | _ :: _ => some (.ofPtr a)

/-- The state of `hotring_rehash_init` after `N` buckets of the table `ring` over `m₀`: the
milestones are new nodes, `hi i` before `lo i`, and those of a bucket before those of later
buckets. -/
structure Marked (m₀ : Mem) (h₀ : Hash) (ring : Nat → List Nat) (base top : Nat → Nat)
    (half : Nat) (lo hi : Nat → Nat) (s : Mem × Hash × Hash) (N : Nat) : Prop where
  kept : ∀ a < m₀.brk, m₀.SameData s.1 a
  brk_le : m₀.brk ≤ s.1.brk
  shape : SameShape h₀ s.2.1
  size : s.2.2.size = 2 * h₀.size
  bucket : ∀ i < N, BucketAt s.1 s.2.1 i (markRing s.1.tag half (lo i) (hi i) (ring i))
  rest : ∀ i, N ≤ i → i < h₀.size → BucketAt s.1 s.2.1 i (ring i)
  fresh : ∀ i < N, ring i ≠ [] → m₀.brk ≤ hi i ∧ hi i < lo i ∧ lo i < s.1.brk
  order : ∀ i j, i < j → j < N → ring i ≠ [] → ring j ≠ [] → lo i < hi j
  low : ∀ i < N, ring i ≠ [] → s.1.key (lo i) = base i ∧ s.1.tag (lo i) = 0
  high : ∀ i < N, ring i ≠ [] → s.1.key (hi i) = top i ∧ s.1.tag (hi i) = half
  slots : ∀ i < N, s.2.2.slots (i * 2) = slotFor (lo i) (ring i) ∧
    s.2.2.slots (i * 2 + 1) = slotFor (hi i) (ring i)
  later : ∀ j, N * 2 ≤ j → s.2.2.slots j = Option.none

variable {m₀ : Mem} {h₀ : Hash} {ring : Nat → List Nat} {base top : Nat → Nat} {half : Nat}
  {lo hi : Nat → Nat} {s : Mem × Hash × Hash} {N : Nat}

theorem Table.lt_brk (t : Table m₀ h₀ ring) {i a : Nat} (hi : i < h₀.size) (ha : a ∈ ring i) :
    a < m₀.brk := by
  obtain ⟨nd, hnd⟩ := Mem.node_of_ring (t.bucket i hi).linked ha
  exact Mem.lt_brk_of_node hnd

namespace Marked

/-- The marked ring of another bucket shares no node with the ring of bucket `N`. -/
theorem notMem (M : Marked m₀ h₀ ring base top half lo hi s N) (t : Table m₀ h₀ ring)
    (hN : N < h₀.size) {i a : Nat} (hiN : i < N)
    (ha : a ∈ markRing s.1.tag half (lo i) (hi i) (ring i)) : a ∉ ring N := by
  intro haN
  have hlt := t.lt_brk hN haN
  obtain ⟨hne, rfl | rfl | ha⟩ := mem_markRing ha
  · have := M.fresh i hiN hne
    omega
  · have := M.fresh i hiN hne
    omega
  · exact t.chained.ring_disjoint (hiN.trans hN) hN hiN.ne ha haN

/-- A bucket that is empty stays so. -/
theorem skip (M : Marked m₀ h₀ ring base top half lo hi s N) (hN : N < h₀.size)
    (hnil : ring N = []) : Marked m₀ h₀ ring base top half lo hi s (N + 1) := by
  have hcase {i : Nat} (hlt : i < N + 1) : i < N ∨ i = N := by omega
  refine ⟨M.kept, M.brk_le, M.shape, M.size, ?_, fun i hi ↦ M.rest i (by omega), ?_, ?_, ?_, ?_,
    ?_, fun j hj ↦ M.later j (by omega)⟩
  · intro i hlt
    rcases hcase hlt with hlt | rfl
    · exact M.bucket i hlt
    · have := M.rest i le_rfl hN
      rwa [hnil] at this ⊢
  · intro i hlt hne
    rcases hcase hlt with hlt | rfl
    · exact M.fresh i hlt hne
    · exact absurd hnil hne
  · intro i j hij hlt hi hj
    rcases hcase hlt with hlt | rfl
    · exact M.order i j hij hlt hi hj
    · exact absurd hnil hj
  · intro i hlt hne
    rcases hcase hlt with hlt | rfl
    · exact M.low i hlt hne
    · exact absurd hnil hne
  · intro i hlt hne
    rcases hcase hlt with hlt | rfl
    · exact M.high i hlt hne
    · exact absurd hnil hne
  · intro i hlt
    rcases hcase hlt with hlt | rfl
    · exact M.slots i hlt
    · rw [hnil]
      exact ⟨M.later _ (by omega), M.later _ (by omega)⟩

end Marked

/-- The two creations of one round. -/
private structure TwoPlaced (m m₂ m₄ : Mem) (h h₁ h₂ : Hash) (i : Nat) (xs : List Nat)
    (base top half : Nat) : Prop where
  first : Placed m m₂ h h₁ i xs top half 0
  second : Placed m₂ m₄ h₁ h₂ i (newRing m.tag half m.brk xs) base 0 0

namespace TwoPlaced

variable {m m₂ m₄ : Mem} {h h₁ h₂ : Hash} {i : Nat} {xs : List Nat} {b t half : Nat}

private theorem brk (p : TwoPlaced m m₂ m₄ h h₁ h₂ i xs b t half) : m₂.brk = m.brk + 1 ∧
    m₄.brk = m.brk + 2 :=
  ⟨p.first.brk, by rw [p.second.brk, p.first.brk]⟩

private theorem data (p : TwoPlaced m m₂ m₄ h h₁ h₂ i xs b t half) {a : Nat} (ha : a < m.brk) :
    m.SameData m₄ a := by
  have hb := p.brk
  exact (p.first.data a (by omega)).trans (p.second.data a (by omega))

private theorem other (p : TwoPlaced m m₂ m₄ h h₁ h₂ i xs b t half) {j : Nat} {ys : List Nat}
    (hj : j ≠ i) (hb : BucketAt m h j ys) (hd : ∀ a ∈ ys, a ∉ xs) : BucketAt m₄ h₂ j ys := by
  refine p.second.bucket_of_ne hj (p.first.bucket_of_ne hj hb hd) ?_
  intro a ha hm
  rcases mem_newRing.mp hm with rfl | hm
  · obtain ⟨nd, hnd⟩ := Mem.node_of_ring hb.linked ha
    exact absurd (Mem.lt_brk_of_node hnd) (lt_irrefl _)
  · exact hd a ha hm

private theorem high (p : TwoPlaced m m₂ m₄ h h₁ h₂ i xs b t half) :
    m₄.key m.brk = t ∧ m₄.tag m.brk = half := by
  have hb := p.brk
  have hd := p.second.data m.brk (by omega)
  exact ⟨hd.key.trans p.first.key_new, hd.tag.trans p.first.tag_new⟩

private theorem bucket (p : TwoPlaced m m₂ m₄ h h₁ h₂ i xs b t half) (hb : BucketAt m h i xs)
    (hx : xs ≠ []) : BucketAt m₄ h₂ i (markRing m₄.tag half m₂.brk m.brk xs) := by
  have hold (a : Nat) (ha : a ∈ xs) : a < m.brk := by
    obtain ⟨nd, hnd⟩ := Mem.node_of_ring hb.linked ha
    exact Mem.lt_brk_of_node hnd
  have htag : newRing m₄.tag half m.brk xs = newRing m.tag half m.brk xs :=
    newRing_congr (fun a ha ↦ (p.data (hold a ha)).tag)
  have htag₂ (a : Nat) (ha : a ∈ newRing m.tag half m.brk xs) : m₄.tag a = m₂.tag a := by
    apply p.second.tag_old
    rintro rfl
    obtain ⟨nd, hnd⟩ := Mem.node_of_ring p.first.bucket.linked ha
    exact absurd (Mem.lt_brk_of_node hnd) (lt_irrefl _)
  rw [markRing_of_ne hx, htag, newRing_congr htag₂]
  exact p.second.bucket

end TwoPlaced

/-- The two creations of a round mark one more bucket. -/
private theorem Marked.placed {m m₂ m₄ : Mem} {h h₁ h₂ new : Hash}
    (M : Marked m₀ h₀ ring base top half lo hi (m, h, new) N) (t : Table m₀ h₀ ring)
    (hN : N < h₀.size) (hne : ring N ≠ [])
    (p : TwoPlaced m m₂ m₄ h h₁ h₂ N (ring N) (base N) (top N) half) :
    Marked m₀ h₀ ring base top half (Function.update lo N m₂.brk) (Function.update hi N m.brk)
      (m₄, h₂, (new.setSlot (N * 2 + 1) (some (.ofPtr m.brk))).setSlot (N * 2)
        (some (.ofPtr m₂.brk))) (N + 1) := by
  have hsz := M.size
  have hbrk := M.brk_le
  obtain ⟨hb₂, hb₄⟩ := p.brk
  simp only at hsz hbrk
  have hcase {i : Nat} (hlt : i < N + 1) : i < N ∨ i = N := by omega
  have hold {a : Nat} (ha : a < m.brk) := p.data ha
  constructor
  case kept =>
    intro a ha
    exact (M.kept a ha).trans (hold (ha.trans_le hbrk))
  case brk_le =>
    simp only
    omega
  case shape =>
    exact M.shape.trans ⟨p.second.sizes.1.trans p.first.sizes.1,
      p.second.sizes.2.1.trans p.first.sizes.2.1, p.second.size.trans p.first.size⟩
  case size => exact hsz
  case bucket =>
    intro i hlt
    rcases hcase hlt with hlt | rfl
    · have hiN : i ≠ N := hlt.ne
      have htag (a : Nat) (ha : a ∈ ring i) : m₄.tag a = m.tag a :=
        (hold ((t.lt_brk (hlt.trans hN) ha).trans_le hbrk)).tag
      have hhi (hx : ring i ≠ []) : m₄.tag (hi i) = m.tag (hi i) := by
        have := M.fresh i hlt hx
        simp only at this
        exact (hold (by omega)).tag
      rw [Function.update_of_ne hiN, Function.update_of_ne hiN, markRing_congr htag hhi]
      exact p.other hiN (M.bucket i hlt) (fun a ha ↦ M.notMem t hN hlt ha)
    · rw [Function.update_self, Function.update_self]
      exact p.bucket (M.rest i le_rfl hN) hne
  case rest =>
    intro i hle hlt
    exact p.other (by omega) (M.rest i (by omega) hlt)
      (fun a ha ↦ t.chained.ring_disjoint hlt hN (by omega) ha)
  case fresh =>
    intro i hlt hx
    rcases hcase hlt with hlt | rfl
    · have := M.fresh i hlt hx
      rw [Function.update_of_ne hlt.ne, Function.update_of_ne hlt.ne]
      simp only at this ⊢
      omega
    · rw [Function.update_self, Function.update_self]
      simp only
      omega
  case order =>
    intro i j hij hlt hxi hxj
    rcases hcase hlt with hlt | rfl
    · rw [Function.update_of_ne (by omega), Function.update_of_ne (by omega)]
      exact M.order i j hij hlt hxi hxj
    · rw [Function.update_of_ne hij.ne, Function.update_self]
      exact (M.fresh i hij hxi).2.2
  case low =>
    intro i hlt hx
    rcases hcase hlt with hlt | rfl
    · have hlo := (M.fresh i hlt hx).2.2
      rw [Function.update_of_ne hlt.ne, (hold hlo).key, (hold hlo).tag]
      exact M.low i hlt hx
    · rw [Function.update_self]
      exact ⟨p.second.key_new, p.second.tag_new⟩
  case high =>
    intro i hlt hx
    rcases hcase hlt with hlt | rfl
    · have hhi := (M.fresh i hlt hx).2.1.trans (M.fresh i hlt hx).2.2
      rw [Function.update_of_ne hlt.ne, (hold hhi).key, (hold hhi).tag]
      exact M.high i hlt hx
    · rw [Function.update_self]
      exact p.high
  case slots =>
    intro i hlt
    rcases hcase hlt with hlt | rfl
    · have h1 : i * 2 ≠ N * 2 := by omega
      have h2 : i * 2 ≠ N * 2 + 1 := by omega
      have h3 : i * 2 + 1 ≠ N * 2 := by omega
      have h4 : i * 2 + 1 ≠ N * 2 + 1 := by omega
      rw [Function.update_of_ne hlt.ne, Function.update_of_ne hlt.ne]
      simpa [Hash.setSlot, h1, h2, h3, h4] using M.slots i hlt
    · rw [Function.update_self, Function.update_self]
      obtain ⟨c, xs, hx⟩ := List.exists_cons_of_ne_nil hne
      simp [Hash.setSlot, hx, slotFor]
  case later =>
    intro j hj
    have h1 : j ≠ N * 2 := by omega
    have h2 : j ≠ N * 2 + 1 := by omega
    simpa [Hash.setSlot, h1, h2] using M.later j (by omega)

/-- One round of the first loop completes. -/
theorem Marked.step (bits : Nat) (M : Marked m₀ h₀ ring (fun i ↦ milestone i bits)
      (fun i ↦ milestoneHalf i bits half) half lo hi s N)
    (t : Table m₀ h₀ ring) (hN : N < h₀.size) :
    ∃ s' lo' hi', rehashInitStep bits half s N = .ok s' ∧
      Marked m₀ h₀ ring (fun i ↦ milestone i bits) (fun i ↦ milestoneHalf i bits half) half
        lo' hi' s' (N + 1) := by
  obtain ⟨m, h, new⟩ := s
  have hb := M.rest N le_rfl hN
  by_cases hnil : ring N = []
  · have hslot : h.slots N = Option.none := by simpa [hnil] using hb.head
    refine ⟨(m, h, new), lo, hi, ?_, M.skip hN hnil⟩
    simp only [rehashInitStep, hb.slot_eq, hslot, ok_bind]
    rfl
  · obtain ⟨c, xs, hx⟩ := List.exists_cons_of_ne_nil hnil
    obtain ⟨head, hslot, -⟩ := Option.map_eq_some_iff.mp
      (show (h.slots N).map Head.addr = some c from hb.head.trans (by rw [hx]; rfl))
    obtain ⟨m₁, h₁, m₂, hc₁, he₁, p₁⟩ := place_spec (milestoneHalf N bits half) half 0 hb
    obtain ⟨m₃, h₂, m₄, hc₂, he₂, p₂⟩ := place_spec (milestone N bits) 0 0 p₁.bucket
    refine ⟨_, _, _, ?_, M.placed t hN hnil ⟨p₁, p₂⟩⟩
    have hsz : new.size = 2 * h₀.size := M.size
    have hlt₁ : N * 2 + 1 < new.size := by omega
    have hlt₂ : N * 2 < new.size := by omega
    simp only [rehashInitStep, hb.slot_eq, hslot, ok_bind, hc₁, he₁, hc₂, he₂, Hash.store,
      if_pos hlt₁]
    rw [if_pos (show N * 2 < (new.setSlot (N * 2 + 1) (some (.ofPtr m.brk))).size from hlt₂)]
    rfl

/-- `halfTag` of a table. -/
def halfTag (h : Hash) : Nat := 2 ^ (h.bits - 1)

/-- The key of the first milestone of bucket `i`. -/
def baseKey (h : Hash) (i : Nat) : Nat := milestone i h.bits

/-- The key of the second milestone of bucket `i`. -/
def topKey (h : Hash) (i : Nat) : Nat := milestoneHalf i h.bits (halfTag h)

theorem Geometry.halfTagOf_eq (g : Geometry h₀) (hb : 1 ≤ h₀.bits) :
    halfTagOf h₀.bits = .ok (halfTag h₀) := by
  have := g.bits_le
  rw [halfTagOf, if_neg (by omega), ulShl_eq (by omega), halfTag]

/-- The tag of a rehash that begins has a bit to give. -/
theorem bits_pos_of_hotringRehashInit {r : Mem × Hash × Hash} (g : Geometry h)
    (hr : hotringRehashInit m h = .ok r) : 1 ≤ h.bits := by
  obtain ⟨-, -, hr⟩ := bind_eq_ok.mp hr
  obtain ⟨half, hhalf, -⟩ := bind_eq_ok.mp hr
  by_contra h0
  rw [g.ulSub_bits, halfTagOf, if_pos (by omega)] at hhalf
  cases hhalf

/-- The first loop completes as long as the size of the new table is an `int`. -/
theorem hotringRehashInit_spec (t : Table m₀ h₀ ring) (hb : 1 ≤ h₀.bits) (hk : h₀.k + 1 ≤ 30) :
    ∃ m h new lo hi, hotringRehashInit m₀ h₀ = .ok (m, h, new) ∧
      Marked m₀ h₀ ring (baseKey h₀) (topKey h₀) (halfTag h₀) lo hi (m, h, new) h₀.size := by
  have g := t.geometry
  have hbl := g.bits_le
  let new : Hash :=
    { n := NBITS, k := h₀.k + 1, size := 2 ^ (h₀.k + 1), slots := fun _ ↦ Option.none }
  let P (N : Nat) (s : Mem × Hash × Hash) : Prop := ∃ lo hi,
    Marked m₀ h₀ ring (baseKey h₀) (topKey h₀) (halfTag h₀) lo hi s N
  have h0 : P 0 (m₀, h₀, new) := by
    refine ⟨id, id, fun _ _ ↦ rfl, le_rfl, .refl h₀, ?_, by simp, fun i _ hi ↦ t.bucket i hi,
      by simp, by simp, by simp, by simp, by simp, fun _ _ ↦ rfl⟩
    simp only [new, g.size]
    omega
  obtain ⟨⟨m, h, new'⟩, hfold, lo, hi, M⟩ := foldlM_range_total
    (f := rehashInitStep h₀.bits (halfTag h₀)) (P := P) (n := h₀.size)
    (fun N s hN hP ↦ by
      obtain ⟨lo, hi, M⟩ := hP
      obtain ⟨s', lo', hi', hs, M'⟩ := M.step h₀.bits t hN
      exact ⟨s', hs, lo', hi', M'⟩) h0
  refine ⟨m, h, new', lo, hi, ?_, M⟩
  simp only [hotringRehashInit, g.halfTagOf_eq hb, g.ulSub_bits,
    ulShl_eq (show h₀.bits ≤ 63 by omega),
    ok_bind, hashAlloc, intShl_eq hk, pure, Except.pure]
  exact hfold

end Jeopardy.Hotring
