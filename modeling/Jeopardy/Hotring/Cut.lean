import Jeopardy.Hotring.Mark

/-!
# The second loop of a rehash

`hotring_rehash` finds the two milestones of every bucket in use, and their predecessors, and
closes the ring behind each predecessor: the ring falls apart into two, each with a milestone
in front.
-/

namespace Jeopardy.Hotring

open Rings Fault

/-- A ring; the link word of a node that is alone on it is the plain pointer, without counter
and flags. -/
def PlainRing (m : Mem) (xs : List Nat) : Prop :=
  IsRing m.next xs ∧ ∀ a, xs = [a] → (m.node a).map HashNode.list = some (.ofPtr a)

variable {m m' : Mem} {h : Hash} {a b : Nat} {xs ys A B : List Nat}

theorem PlainRing.congr (hr : PlainRing m xs) (hm : ∀ a ∈ xs, m'.node a = m.node a) :
    PlainRing m' xs := by
  refine ⟨hr.1.congr (fun a ha ↦ ?_), fun a ha ↦ ?_⟩
  · rw [Mem.next, hm a ha, Mem.next]
  · rw [hm a (by simp [ha])]
    exact hr.2 a ha

theorem storeNext_spec {nd : HashNode} (hp : m.node a = some nd) (b : Nat) :
    ∃ m', storeNext m a b = .ok m' ∧ m'.brk = m.brk ∧
      m'.node a = some { nd with list := .ofPtr b } ∧
      (∀ c, c ≠ a → m'.node c = m.node c) ∧ ∀ c, m.SameData m' c := by
  refine ⟨_, Mem.modify_eq _ hp, rfl, ?_, ?_, fun c ↦ link_data m a (fun _ ↦ .ofPtr b) c⟩
  · rw [Mem.node_update, if_pos rfl, hp, Option.map_some]
  · intro c hc
    rw [Mem.node_update, if_neg hc]

theorem exists_last (a : Nat) (xs : List Nat) : ∃ us, a :: xs = us ++ [xs.getLastD a] := by
  rcases List.eq_nil_or_concat xs with rfl | ⟨us, z, rfl⟩
  · exact ⟨[], rfl⟩
  · refine ⟨a :: us, ?_⟩
    rw [List.concat_eq_append, List.getLastD_concat, List.cons_append]

private theorem eq_of_singleton {z c : Nat} {us : List Nat} (hus : a :: xs = us ++ [z])
    (hc : a :: xs = [c]) : a = c ∧ z = c := by
  rw [hc] at hus
  obtain ⟨-, hlast⟩ := List.append_inj' (show [] ++ [c] = us ++ [z] from hus) rfl
  exact ⟨(List.cons.inj hc).1, (List.cons.inj hlast).1.symm⟩

/-- The two stores of one round cut a ring in two. -/
theorem storeNext_cut (hr : IsRing m.next (a :: A ++ b :: B)) :
    ∃ m₁ m₂, storeNext m (A.getLastD a) a = .ok m₁ ∧ storeNext m₁ (B.getLastD b) b = .ok m₂ ∧
      m₂.brk = m.brk ∧ (∀ c, m.SameData m₂ c) ∧
      (∀ c, c ∉ a :: A ++ b :: B → m₂.node c = m.node c) ∧
      PlainRing m₂ (a :: A) ∧ PlainRing m₂ (b :: B) := by
  obtain ⟨us, hus⟩ := exists_last a A
  obtain ⟨vs, hvs⟩ := exists_last b B
  generalize A.getLastD a = z at hus ⊢
  generalize B.getLastD b = y at hvs ⊢
  have hn := hr.nodup
  rw [hus, hvs] at hn
  simp only [List.nodup_append, List.mem_append, List.mem_singleton] at hn
  have hzy : y ≠ z := (hn.2.2 z (Or.inr rfl) y (Or.inr rfl)).symm
  have hz : z ∈ a :: A ++ b :: B := by simp [hus]
  have hy : y ∈ a :: A ++ b :: B := by simp [hvs]
  obtain ⟨nz, hnz⟩ := Mem.node_of_ring hr hz
  obtain ⟨ny, hny⟩ := Mem.node_of_ring hr hy
  obtain ⟨m₁, h₁, hb₁, hz₁, ho₁, hd₁⟩ := storeNext_spec hnz a
  obtain ⟨m₂, h₂, hb₂, hy₂, ho₂, hd₂⟩ := storeNext_spec ((ho₁ y hzy).trans hny) b
  have hz₂ := (ho₂ z hzy.symm).trans hz₁
  have hother (c : Nat) (hcz : c ≠ z) (hcy : c ≠ y) : m₂.node c = m.node c :=
    (ho₂ c hcy).trans (ho₁ c hcz)
  have hcut : IsRing m₂.next (a :: A) ∧ IsRing m₂.next (b :: B) := by
    refine hr.cut hus hvs (by rw [Mem.next, hz₂]; rfl) (by rw [Mem.next, hy₂]; rfl) ?_
    intro c hc
    rw [Mem.next, hother c, Mem.next]
    · rintro rfl
      rcases List.mem_append.mp hc with hc | hc
      · exact hn.1.2.2 c hc c rfl rfl
      · exact hn.2.2 c (Or.inr rfl) c (Or.inl hc) rfl
    · rintro rfl
      rcases List.mem_append.mp hc with hc | hc
      · exact hn.2.2 c (Or.inl hc) c (Or.inr rfl) rfl
      · exact hn.2.1.2.2 c hc c rfl rfl
  refine ⟨m₁, m₂, h₁, h₂, hb₂.trans hb₁, fun c ↦ (hd₁ c).trans (hd₂ c), ?_, ⟨hcut.1, ?_⟩,
    hcut.2, ?_⟩
  · intro c hc
    apply hother c
    · rintro rfl
      exact hc hz
    · rintro rfl
      exact hc hy
  · intro c hc
    obtain ⟨rfl, rfl⟩ := eq_of_singleton hus hc
    rw [hz₂]
    rfl
  · intro c hc
    obtain ⟨rfl, rfl⟩ := eq_of_singleton hvs hc
    rw [hy₂]
    rfl

/-- Every ring in use below bucket `n` has its milestones `lo i` and `hi i` in front of its
parts `A i` and `B i`, in the bucket of their keys, and the searches find them there. -/
structure Enclosed (m : Mem) (h : Hash) (ys : Nat → List Nat) (lo hi : Nat → Nat)
    (A B : Nat → List Nat) (n : Nat) : Prop where
  geometry : Geometry h
  bound : n ≤ h.size
  bucket : ∀ i < h.size, BucketAt m h i (ys i)
  disjoint : ∀ i j a, i < h.size → j < h.size → i ≠ j → a ∈ ys i → a ∉ ys j
  cyclic : ∀ i < n, ys i ≠ [] → (ys i).IsRotated (lo i :: A i ++ hi i :: B i)
  base_index : ∀ i < n, ys i ≠ [] → h.index (baseKey h i) = i
  top_index : ∀ i < n, ys i ≠ [] → h.index (topKey h i) = i
  get_lo : ∀ i < n, ys i ≠ [] →
    ringGet m.key (baseKey h i) (ys i) = ⟨.accessCold, some (lo i), (B i).getLastD (hi i)⟩
  get_hi : ∀ i < n, ys i ≠ [] →
    ringGet m.key (topKey h i) (ys i) = ⟨.accessCold, some (hi i), (A i).getLastD (lo i)⟩

/-- The state of the second loop after `N` buckets. -/
structure CutTo (m : Mem) (h : Hash) (ys : Nat → List Nat) (lo hi : Nat → Nat)
    (A B : Nat → List Nat) (s : Mem × Hash) (N : Nat) : Prop where
  heads : SameHeads h s.2
  brk : s.1.brk = m.brk
  data : ∀ a, m.SameData s.1 a
  rest : ∀ i, N ≤ i → i < h.size → BucketAt s.1 s.2 i (ys i)
  low : ∀ i < N, ys i ≠ [] → PlainRing s.1 (lo i :: A i)
  high : ∀ i < N, ys i ≠ [] → PlainRing s.1 (hi i :: B i)

section Loop

variable {ys : Nat → List Nat} {lo hi : Nat → Nat} {A B : Nat → List Nat} {s : Mem × Hash}
  {n N : Nat}

theorem SameHeads.geometry {h' : Hash} (hs : SameHeads h h') (g : Geometry h) : Geometry h' :=
  g.congr hs.n hs.k hs.size

/-- A bucket that is not in use is passed over. -/
theorem CutTo.skip (C : CutTo m h ys lo hi A B s N) (hnil : ys N = []) :
    CutTo m h ys lo hi A B s (N + 1) := by
  refine ⟨C.heads, C.brk, C.data, fun i hi ↦ C.rest i (by omega), ?_, ?_⟩
  · intro i hlt hne
    rcases Nat.lt_succ_iff_lt_or_eq.mp hlt with hlt | rfl
    · exact C.low i hlt hne
    · exact absurd hnil hne
  · intro i hlt hne
    rcases Nat.lt_succ_iff_lt_or_eq.mp hlt with hlt | rfl
    · exact C.high i hlt hne
    · exact absurd hnil hne

/-- The searches for the milestones of a bucket in use find them; no link and no other bucket
changes. -/
theorem CutTo.search (E : Enclosed m h ys lo hi A B n) (C : CutTo m h ys lo hi A B s N)
    (hn : N < n) (hne : ys N ≠ []) :
    ∃ m₁ h₁ m₂ h₂,
      rawHashGet s.1 s.2 (baseKey h N)
        = .ok (m₁, h₁, ⟨.accessCold, some (lo N), (B N).getLastD (hi N)⟩) ∧
      rawHashGet m₁ h₁ (topKey h N)
        = .ok (m₂, h₂, ⟨.accessCold, some (hi N), (A N).getLastD (lo N)⟩) ∧
      s.1.SameCells m₂ ∧ SameHeads s.2 h₂ ∧ ∀ a, a ∉ ys N → m₂.node a = s.1.node a := by
  have hb := C.rest N le_rfl (hn.trans_le E.bound)
  have hkey : s.1.key = m.key := funext (fun a ↦ (C.data a).key)
  have hidx (q : Nat) : s.2.index q = h.index q := by rw [Hash.index, C.heads.bits, Hash.index]
  have hbase : BucketAt s.1 s.2 (s.2.index (baseKey h N)) (ys N) := by
    rw [hidx, E.base_index N hn hne]
    exact hb
  obtain ⟨m₁, h₁, hg₁, hs₁, hh₁, hf₁⟩ :=
    rawHashGet_bucket (C.heads.geometry E.geometry) hbase
  have hidx₁ (q : Nat) : h₁.index q = h.index q := by rw [Hash.index, hh₁.bits, ← hidx, Hash.index]
  have htop : BucketAt m₁ h₁ (h₁.index (topKey h N)) (ys N) := by
    rw [hidx₁, E.top_index N hn hne]
    exact hb.congr hs₁ hh₁
  obtain ⟨m₂, h₂, hg₂, hs₂, hh₂, hf₂⟩ :=
    rawHashGet_bucket (hh₁.geometry (C.heads.geometry E.geometry)) htop
  rw [hkey, E.get_lo N hn hne] at hg₁
  rw [hs₁.key, hkey, E.get_hi N hn hne] at hg₂
  exact ⟨m₁, h₁, m₂, h₂, hg₁, hg₂, hs₁.trans hs₂, hh₁.trans hh₂,
    fun a ha ↦ (hf₂ a ha).trans (hf₁ a ha)⟩

/-- The two halves of one more ring, when nothing outside of it is touched. -/
theorem CutTo.extend {s' : Mem × Hash} (E : Enclosed m h ys lo hi A B n)
    (C : CutTo m h ys lo hi A B s N) (hn : N < n) (hheads : SameHeads s.2 s'.2)
    (hbrk : s'.1.brk = s.1.brk) (hdata : ∀ a, s.1.SameData s'.1 a)
    (hsame : ∀ a, a ∉ ys N → s'.1.node a = s.1.node a) (hlow : PlainRing s'.1 (lo N :: A N))
    (hhigh : PlainRing s'.1 (hi N :: B N)) : CutTo m h ys lo hi A B s' (N + 1) := by
  have hN := hn.trans_le E.bound
  have hold (i : Nat) (hlt : i < N) (hne : ys i ≠ []) (a : Nat)
      (ha : a ∈ lo i :: A i ∨ a ∈ hi i :: B i) : s'.1.node a = s.1.node a := by
    apply hsame
    refine E.disjoint i N a (hlt.trans hN) hN hlt.ne ?_
    rw [(E.cyclic i (hlt.trans hn) hne).mem_iff, List.mem_append]
    exact ha
  refine ⟨C.heads.trans hheads, hbrk.trans C.brk, fun a ↦ (C.data a).trans (hdata a), ?_, ?_, ?_⟩
  · intro i hle hlt
    have hbi := C.rest i (by omega) hlt
    refine ⟨hheads.size ▸ hbi.index_lt, (hheads.addr i).trans hbi.head, hbi.linked.congr ?_⟩
    intro a ha
    rw [Mem.next, hsame a (E.disjoint i N a hlt hN (by omega) ha), Mem.next]
  · intro i hlt hne
    rcases Nat.lt_succ_iff_lt_or_eq.mp hlt with hlt | rfl
    · exact (C.low i hlt hne).congr (fun a ha ↦ hold i hlt hne a (Or.inl ha))
    · exact hlow
  · intro i hlt hne
    rcases Nat.lt_succ_iff_lt_or_eq.mp hlt with hlt | rfl
    · exact (C.high i hlt hne).congr (fun a ha ↦ hold i hlt hne a (Or.inr ha))
    · exact hhigh

/-- One round of the second loop completes. -/
theorem CutTo.step (E : Enclosed m h ys lo hi A B n) (C : CutTo m h ys lo hi A B s N)
    (hn : N < n) :
    ∃ s', rehashSplitStep h.bits (halfTag h) s N = .ok s' ∧
      CutTo m h ys lo hi A B s' (N + 1) := by
  obtain ⟨m₀, h₀⟩ := s
  have hb := C.rest N le_rfl (hn.trans_le E.bound)
  by_cases hnil : ys N = []
  · have hslot : h₀.slots N = Option.none := by simpa [hnil] using hb.head
    refine ⟨(m₀, h₀), ?_, C.skip hnil⟩
    simp only [rehashSplitStep, hb.slot_eq, hslot, ok_bind]
    rfl
  obtain ⟨m₁, h₁, m₂, h₂, hg₁, hg₂, hs, hh, hf⟩ := C.search E hn hnil
  have hrot := E.cyclic N hn hnil
  have hring : IsRing m₂.next (lo N :: A N ++ hi N :: B N) :=
    (hb.congr hs hh).linked.isRotated hrot
  obtain ⟨m₃, m₄, hst₃, hst₄, hbrk, hdata, hframe, hlow, hhigh⟩ := storeNext_cut hring
  refine ⟨(m₄, h₂), ?_, C.extend E hn hh (hbrk.trans hs.brk) ?_ ?_ hlow hhigh⟩
  · obtain ⟨head, hslot, -⟩ : ∃ head, h₀.slots N = some head ∧ head.addr = (ys N).head hnil := by
      have hh := hb.head
      rw [List.head?_eq_some_head hnil] at hh
      exact Option.map_eq_some_iff.mp hh
    rw [baseKey] at hg₁
    rw [topKey] at hg₂
    simp only [rehashSplitStep, hb.slot_eq, hslot, ok_bind, hg₁, hg₂, hst₃, hst₄]
    rfl
  · intro a
    exact (Mem.sameData_of_cell (hs.cell a)).trans (hdata a)
  · intro a ha
    rw [hframe a (fun hm ↦ ha (hrot.mem_iff.mpr hm)), hf a ha]

/-- The second loop completes the rounds of these buckets and cuts every ring in use. -/
theorem Enclosed.cut (E : Enclosed m h ys lo hi A B n) :
    ∃ s, (List.range n).foldlM (rehashSplitStep h.bits (halfTag h)) (m, h) = .ok s ∧
      CutTo m h ys lo hi A B s n := by
  refine foldlM_range_total (P := fun N s ↦ CutTo m h ys lo hi A B s N)
    (fun N s hN hC ↦ hC.step E hN) ?_
  exact ⟨.refl h, rfl, fun _ ↦ rfl, fun i _ hi ↦ E.bucket i hi, by simp, by simp⟩

end Loop

end Jeopardy.Hotring
