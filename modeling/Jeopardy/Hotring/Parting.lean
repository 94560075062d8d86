import Jeopardy.Hotring.RehashLaw

/-!
# Rehashes of tables with old tags

A rehash that completes has met, in every bucket in use, two nodes with the keys of the
milestones, and has cut the ring in front of them. They need not be the milestones it has put
in: where tags stem from an earlier rehash, a node of the bucket may hold such a key and be met
first. If the cut leaves both milestones on one side, no slot of the new table leads to the
other side and its keys are lost. So a rehash that keeps the contents leaves rings with one
milestone each, whatever the tags.
-/

namespace Jeopardy.Hotring

open Rings Fault

variable {m m' m₁ m₂ : Mem} {h h' h₁ h₂ new new' : Hash} {ring A B P Q : Nat → List Nat}
  {lo hi x₀ y₀ : Nat → Nat} {i q : Nat}

/-! ### The cut -/

/-- Two cells of a ring, with the cells before them, part it in two. -/
theorem exists_arcs {next : Nat → Option Nat} {xs ps qs ps' qs' : List Nat} {v a w b : Nat}
    (hr : IsRing next xs) (ha : xs = ps ++ v :: a :: qs) (hb : xs = ps' ++ w :: b :: qs')
    (hab : a ≠ b) :
    ∃ us vs, xs.IsRotated (a :: us ++ b :: vs) ∧ vs.getLastD b = v ∧ us.getLastD a = w := by
  have hrot : xs.IsRotated (a :: (qs ++ (ps ++ [v]))) := by
    rw [ha, show ps ++ v :: a :: qs = (ps ++ [v]) ++ a :: qs by simp]
    exact List.isRotated_append
  have hmem : b ∈ qs ++ (ps ++ [v]) := by
    have hbx := hrot.mem_iff.mp (hb ▸ by simp : b ∈ xs)
    exact (List.mem_cons.mp hbx).resolve_left hab.symm
  obtain ⟨us, vs, hsplit⟩ := List.append_of_mem hmem
  rw [hsplit, ← List.cons_append] at hrot
  have hring := hr.isRotated hrot
  obtain ⟨us', hus⟩ := exists_last a us
  obtain ⟨vs', hvs⟩ := exists_last b vs
  have hnext (z : Nat) (hz : z ∈ a :: us ++ b :: vs) : z ∈ xs := hrot.mem_iff.mpr hz
  refine ⟨us, vs, hrot, ?_, ?_⟩
  · have hv : next v = some a := (ha ▸ hr).next_eq
    have hz : next (vs.getLastD b) = some a := by
      rw [hvs, List.cons_append, ← List.append_assoc, ← List.cons_append] at hring
      exact hring.next_last
    refine hr.next_inj (hnext _ ?_) (ha ▸ by simp) (hz.trans hv.symm)
    exact List.mem_append_right _ (hvs ▸ by simp)
  · have hw : next w = some b := (hb ▸ hr).next_eq
    have hz : next (us.getLastD a) = some b := by
      rw [hus, List.append_assoc] at hring
      exact hring.next_eq
    refine hr.next_inj (hnext _ ?_) (hb ▸ by simp) (hz.trans hw.symm)
    exact List.mem_append_left _ (hus ▸ by simp)

/-- What a search answers with a predecessor stands behind that predecessor. -/
theorem ringGet_of_prev {f : Nat → Nat} {xs : List Nat} (hn : (ringGet f q xs).node ≠ Option.none)
    (hp : (ringGet f q xs).prev ≠ 0) :
    ∃ a v ps qs, xs = ps ++ v :: a :: qs ∧ f a = q ∧
      ringGet f q xs = ⟨.accessCold, some a, v⟩ := by
  rcases ringGet_cases f q xs with he | ⟨c, ys, -, -, he⟩ | ⟨a, v, ps, qs, hx, ha, he⟩
  · rw [he] at hn
    exact absurd rfl hn
  · rw [he] at hp
    exact absurd rfl hp
  · exact ⟨a, v, ps, qs, hx, ha, he⟩

/-- A round of the second loop that completes cuts the ring in front of the nodes it has
found. -/
theorem arcs_of_rehashSplitStep {bits half N c : Nat} {zs : List Nat} {r : Mem × Hash}
    (geo : Geometry h) (hb : BucketAt m h N (c :: zs))
    (hr : rehashSplitStep bits half (m, h) N = .ok r) (hbase : h.index (milestone N bits) = N)
    (htop : h.index (milestoneHalf N bits half) = N)
    (hne : milestone N bits ≠ milestoneHalf N bits half) :
    ∃ a b us vs, (c :: zs).IsRotated (a :: us ++ b :: vs) ∧
      ringGet m.key (milestone N bits) (c :: zs) = ⟨.accessCold, some a, vs.getLastD b⟩ ∧
      ringGet m.key (milestoneHalf N bits half) (c :: zs)
        = ⟨.accessCold, some b, us.getLastD a⟩ := by
  obtain ⟨m₁, h₁, r₁, m₂, h₂, r₂, hg₁, hg₂, ⟨hn₁, hp₁⟩, hn₂, hp₂⟩ := found_of_rehashSplitStep hb hr
  have hb' : BucketAt m h (h.index (milestone N bits)) (c :: zs) := hbase.symm ▸ hb
  obtain ⟨m₃, h₃, hg₃, hs, hh, -⟩ := rawHashGet_bucket geo hb'
  rw [hg₁, Except.ok.injEq, Prod.mk.injEq, Prod.mk.injEq] at hg₃
  obtain ⟨rfl, rfl, rfl⟩ := hg₃
  have hb₁ : BucketAt m₁ h₁ (h₁.index (milestoneHalf N bits half)) (c :: zs) := by
    rw [Hash.index, hh.bits, ← Hash.index, htop]
    exact hb.congr hs hh
  obtain ⟨m₄, h₄, hg₄, -⟩ := rawHashGet_bucket (hh.geometry geo) hb₁
  rw [hg₂, Except.ok.injEq, Prod.mk.injEq, Prod.mk.injEq] at hg₄
  obtain ⟨rfl, rfl, rfl⟩ := hg₄
  rw [hs.key] at hn₂ hp₂
  obtain ⟨a, v, ps, qs, ha, hka, hga⟩ := ringGet_of_prev hn₁ hp₁
  obtain ⟨b, w, ps', qs', hb₂, hkb, hgb⟩ := ringGet_of_prev hn₂ hp₂
  have hab : a ≠ b := by
    rintro rfl
    exact hne (hka.symm.trans hkb)
  obtain ⟨us, vs, hrot, hv, hw⟩ := exists_arcs hb.linked ha hb₂ hab
  exact ⟨a, b, us, vs, hrot, hv ▸ hga, hw ▸ hgb⟩

/-- One more bucket whose cut is known. -/
theorem Enclosed.snoc {ys : Nat → List Nat} {N a b : Nat} {us vs : List Nat}
    (E : Enclosed m h ys x₀ y₀ P Q N) (hN : N < h.size)
    (hstep : ys N ≠ [] → (ys N).IsRotated (a :: us ++ b :: vs) ∧ h.index (baseKey h N) = N ∧
      h.index (topKey h N) = N ∧
      ringGet m.key (baseKey h N) (ys N) = ⟨.accessCold, some a, vs.getLastD b⟩ ∧
      ringGet m.key (topKey h N) (ys N) = ⟨.accessCold, some b, us.getLastD a⟩) :
    Enclosed m h ys (Function.update x₀ N a) (Function.update y₀ N b) (Function.update P N us)
      (Function.update Q N vs) (N + 1) := by
  have hall (i : Nat) (hi : i < N + 1) (hne : ys i ≠ []) :
      (ys i).IsRotated (Function.update x₀ N a i :: Function.update P N us i ++
        Function.update y₀ N b i :: Function.update Q N vs i) ∧ h.index (baseKey h i) = i ∧
      h.index (topKey h i) = i ∧
      ringGet m.key (baseKey h i) (ys i) = ⟨.accessCold, some (Function.update x₀ N a i),
        (Function.update Q N vs i).getLastD (Function.update y₀ N b i)⟩ ∧
      ringGet m.key (topKey h i) (ys i) = ⟨.accessCold, some (Function.update y₀ N b i),
        (Function.update P N us i).getLastD (Function.update x₀ N a i)⟩ := by
    rcases Nat.lt_succ_iff_lt_or_eq.mp hi with hlt | rfl
    · simp only [Function.update_of_ne hlt.ne]
      exact ⟨E.cyclic i hlt hne, E.base_index i hlt hne, E.top_index i hlt hne,
        E.get_lo i hlt hne, E.get_hi i hlt hne⟩
    · simp only [Function.update_self]
      exact hstep hne
  exact ⟨E.geometry, hN, E.bucket, E.disjoint, fun i hi hne ↦ (hall i hi hne).1,
    fun i hi hne ↦ (hall i hi hne).2.1, fun i hi hne ↦ (hall i hi hne).2.2.1,
    fun i hi hne ↦ (hall i hi hne).2.2.2.1, fun i hi hne ↦ (hall i hi hne).2.2.2.2⟩

/-- Every bucket of a rehash that completes is cut in front of two nodes it has found. -/
theorem Marked.exists_enclosed {s : Mem × Hash} (t : Table m h ring) (hb : 1 ≤ h.bits)
    (hn : h.n ≤ NBITS)
    (M : Marked m h ring (baseKey h) (topKey h) (halfTag h) lo hi (m₁, h₁, new) h.size)
    (hcut : (List.range h.size).foldlM (rehashSplitStep h₁.bits (halfTag h₁)) (m₁, h₁) = .ok s) :
    ∃ x y P Q, Enclosed m₁ h₁ (fun i ↦ markRing m₁.tag (halfTag h) (lo i) (hi i) (ring i))
      x y P Q h.size := by
  have hbits : h₁.bits = h.bits := by rw [Hash.bits, M.shape.n, M.shape.k, Hash.bits]
  have g₁ : Geometry h₁ := t.geometry.congr M.shape.n M.shape.k M.shape.size
  have hall (N : Nat) (hN : N ≤ h.size) : ∃ x y P Q, Enclosed m₁ h₁
      (fun i ↦ markRing m₁.tag (halfTag h) (lo i) (hi i) (ring i)) x y P Q N := by
    induction N with
    | zero =>
      refine ⟨id, id, fun _ ↦ [], fun _ ↦ [], g₁, Nat.zero_le _, ?_, ?_, ?_, ?_, ?_, ?_, ?_⟩
      · exact fun i hi' ↦ M.bucket i (M.shape.size ▸ hi')
      · intro i j a hi' hj hij ha
        exact M.disjoint t (M.shape.size ▸ hi') (M.shape.size ▸ hj) hij ha
      all_goals exact fun i hi' ↦ absurd hi' (Nat.not_lt_zero i)
    | succ N ih =>
      obtain ⟨x, y, P, Q, E⟩ := ih (Nat.le_of_succ_le hN)
      -- the rounds before this one completed, and so did this one
      obtain ⟨⟨m₂, h₂⟩, hfold, C⟩ := E.cut
      obtain ⟨r, hround⟩ := foldlM_range_round hcut hN hfold
      have hbk := C.rest N le_rfl (M.shape.size.symm ▸ hN)
      have g₂ := C.heads.geometry g₁
      by_cases hnil : markRing m₁.tag (halfTag h) (lo N) (hi N) (ring N) = []
      · exact ⟨Function.update x N N, Function.update y N N, Function.update P N [],
          Function.update Q N [], E.snoc (M.shape.size.symm ▸ hN) (fun hne ↦ absurd hnil hne)⟩
      obtain ⟨c, zs, hzs⟩ := List.exists_cons_of_ne_nil hnil
      simp only [hzs] at hbk
      have hidx (q : Nat) : h₂.index q = h₁.index q := by
        rw [Hash.index, C.heads.bits, Hash.index]
      have hlow : N * 2 ^ h₁.bits < 2 ^ 31 := by
        have hlt := (head_of_rehashSplitStep g₂ hbk hround).1
        rw [C.heads.n, M.shape.n] at hlt
        by_contra hge
        have hpow : N * 2 ^ h₁.bits < 2 ^ 32 := by
          calc N * 2 ^ h₁.bits < 2 ^ h.k * 2 ^ h.bits := by
                rw [hbits, ← t.geometry.size]
                exact Nat.mul_lt_mul_of_pos_right hN (Nat.two_pow_pos _)
            _ = 2 ^ h.n := by rw [← Nat.pow_add, ← t.geometry.n_eq]
            _ ≤ 2 ^ 32 := Nat.pow_le_pow_right (by decide) hn
        have hms := milestone_ge (not_lt.mp hge) hpow
        have hle : 2 ^ h.n ≤ 2 ^ 32 := Nat.pow_le_pow_right (by decide) hn
        omega
      have hbase : h₁.index (baseKey h₁ N) = N := by
        rw [baseKey_eq hlow]
        exact index_base N
      have htop : h₁.index (topKey h₁ N) = N := by
        rw [topKey_eq g₁ (hbits ▸ hb) hlow]
        exact index_top (hbits ▸ hb) N
      have hne : baseKey h₁ N ≠ topKey h₁ N := by
        rw [baseKey_eq hlow, topKey_eq g₁ (hbits ▸ hb) hlow]
        have hpos : 0 < halfTag h₁ := Nat.two_pow_pos _
        omega
      obtain ⟨a, b, us, vs, hrot, hga, hgb⟩ := arcs_of_rehashSplitStep g₂ hbk hround
        ((hidx _).trans hbase) ((hidx _).trans htop) hne
      have hkey : m₂.key = m₁.key := funext (fun a ↦ (C.data a).key)
      rw [hkey] at hga hgb
      rw [← hzs] at hrot hga hgb
      exact ⟨_, _, _, _, E.snoc (M.shape.size.symm ▸ hN)
        (fun _ ↦ ⟨hrot, hbase, htop, hga, hgb⟩)⟩
  exact hall h.size le_rfl

/-! ### Up to the last loop -/

/-- A rehash that completes, after its second loop: the milestones `lo` and `hi` are in the
rings, and the rings are cut into `x₀ i :: P i` and `y₀ i :: Q i`. -/
structure Halfway (m : Mem) (h : Hash) (ring : Nat → List Nat) (lo hi x₀ y₀ : Nat → Nat)
    (P Q : Nat → List Nat) (m₁ m₂ : Mem) (h₁ h₂ new : Hash) : Prop where
  marked : Marked m h ring (baseKey h) (topKey h) (halfTag h) lo hi (m₁, h₁, new) h.size
  enclosed : Enclosed m₁ h₁ (fun i ↦ markRing m₁.tag (halfTag h) (lo i) (hi i) (ring i))
    x₀ y₀ P Q h.size
  cut : CutTo m₁ h₁ (fun i ↦ markRing m₁.tag (halfTag h) (lo i) (hi i) (ring i))
    x₀ y₀ P Q (m₂, h₂) h.size

theorem bits_pos_of_hotringRehash {r : Mem × Hash} (g : Geometry h)
    (hr : hotringRehash m h = .ok r) : 1 ≤ h.bits := by
  obtain ⟨s, hinit, -⟩ := bind_eq_ok.mp hr
  exact bits_pos_of_hotringRehashInit g hinit

theorem exists_halfway (t : Table m h ring) (hn : h.n ≤ NBITS)
    (hr : hotringRehash m h = .ok (m', new')) :
    ∃ lo hi x₀ y₀ P Q m₁ m₂ h₁ h₂ new m₃, Halfway m h ring lo hi x₀ y₀ P Q m₁ m₂ h₁ h₂ new ∧
      (List.range new.size).foldlM rehashDeleteStep (m₂, new) = .ok (m₃, new') ∧
      display m₃ new' = .ok m' := by
  have hb := bits_pos_of_hotringRehash t.geometry hr
  have hk := (hotringRehash_shape hr).2.2.2
  obtain ⟨m₁, h₁, new, lo, hi, hinit, M⟩ := hotringRehashInit_spec t hb hk
  have g₁ : Geometry h₁ := t.geometry.congr M.shape.n M.shape.k M.shape.size
  have hbits : h₁.bits = h.bits := by rw [Hash.bits, M.shape.n, M.shape.k, Hash.bits]
  have hsize : h₁.size = h.size := M.shape.size
  rw [hotringRehash, hinit, ok_bind] at hr
  simp only [g₁.ulSub_bits] at hr
  rw [g₁.halfTagOf_eq (hbits ▸ hb), ok_bind, hsize] at hr
  obtain ⟨⟨m₂, h₂⟩, hcut, hr⟩ := bind_eq_ok.mp hr
  obtain ⟨⟨m₃, new₃⟩, hdel, hr⟩ := bind_eq_ok.mp hr
  obtain ⟨m₄, hdis, hr⟩ := bind_eq_ok.mp hr
  simp only [pure, Except.pure, Except.ok.injEq, Prod.mk.injEq] at hr
  obtain ⟨rfl, rfl⟩ := hr
  obtain ⟨x₀, y₀, P, Q, E⟩ := M.exists_enclosed t hb hn hcut
  obtain ⟨s, hcut', C⟩ := E.cut
  rw [hcut, Except.ok.injEq] at hcut'
  exact ⟨lo, hi, x₀, y₀, P, Q, m₁, m₂, h₁, h₂, new, m₃, ⟨M, E, hcut' ▸ C⟩, hdel, hdis⟩

/-- One of the two rings that bucket `i` is cut into. -/
def Side (x₀ y₀ : Nat → Nat) (P Q : Nat → List Nat) (i : Nat) (ws : List Nat) : Prop :=
  ws = x₀ i :: P i ∨ ws = y₀ i :: Q i

theorem slotFor_eq_some {a : Nat} {xs : List Nat} {head : Head}
    (hs : slotFor a xs = some head) : xs ≠ [] ∧ head.addr = a := by
  cases xs with
  | nil => cases hs
  | cons c xs =>
    rw [slotFor, Option.some.injEq] at hs
    subst hs
    exact ⟨by simp, rfl⟩

/-- What a get finds in a region is a node of the region. -/
theorem lookup_region {C : Set Nat} {p v : Nat} (r : Region C m) (hh : HeadsIn C h)
    (hl : lookup m h q = .ok (some (p, v))) : ∃ a ∈ C, (m.node a).isSome ∧ m.key a = p := by
  obtain ⟨⟨m₁, h₁, g⟩, hg, hl⟩ := bind_eq_ok.mp hl
  obtain ⟨hs, -, hin⟩ := rawHashGet_region r hh hg
  simp only at hl
  split at hl
  · cases hl
  · split at hl
    · cases hl
    · next a ha =>
      obtain ⟨nd, hnd, hl⟩ := bind_eq_ok.mp hl
      simp only [pure, Except.pure, Except.ok.injEq, Option.some.injEq, Prod.mk.injEq] at hl
      have hnode := Mem.read_eq_ok.mp hnd
      obtain ⟨nd', hnd', -⟩ := Mem.node_of_cell ((hs.cell a).symm.trans (Mem.cell_of_node hnode))
      exact ⟨a, hin.1 a ha, by rw [hnd']; rfl, by rw [← hs.key, Mem.key_of_node hnode, hl.1]⟩

namespace Halfway

variable {ws : List Nat} {a : Nat}

theorem cyclic (H : Halfway m h ring lo hi x₀ y₀ P Q m₁ m₂ h₁ h₂ new) (hi' : i < h.size)
    (hne : ring i ≠ []) : (markRing m₁.tag (halfTag h) (lo i) (hi i) (ring i)).IsRotated
      (x₀ i :: P i ++ y₀ i :: Q i) :=
  H.enclosed.cyclic i hi' (List.ne_nil_of_mem ((mem_markRing_iff hne).mpr (Or.inl rfl)))

theorem plain (H : Halfway m h ring lo hi x₀ y₀ P Q m₁ m₂ h₁ h₂ new) (hi' : i < h.size)
    (hne : ring i ≠ []) (hs : Side x₀ y₀ P Q i ws) : PlainRing m₂ ws := by
  have hys : markRing m₁.tag (halfTag h) (lo i) (hi i) (ring i) ≠ [] :=
    List.ne_nil_of_mem ((mem_markRing_iff hne).mpr (Or.inl rfl))
  rcases hs with rfl | rfl
  · exact H.cut.low i hi' hys
  · exact H.cut.high i hi' hys

theorem exists_side (H : Halfway m h ring lo hi x₀ y₀ P Q m₁ m₂ h₁ h₂ new) (hi' : i < h.size)
    (hne : ring i ≠ []) (ha : a = lo i ∨ a = hi i ∨ a ∈ ring i) :
    ∃ ws, Side x₀ y₀ P Q i ws ∧ a ∈ ws := by
  have hm := (H.cyclic hi' hne).mem_iff.mp ((mem_markRing_iff hne).mpr ha)
  rcases List.mem_append.mp hm with hm | hm
  · exact ⟨_, Or.inl rfl, hm⟩
  · exact ⟨_, Or.inr rfl, hm⟩

theorem mem_of_side (H : Halfway m h ring lo hi x₀ y₀ P Q m₁ m₂ h₁ h₂ new) (hi' : i < h.size)
    (hne : ring i ≠ []) (hs : Side x₀ y₀ P Q i ws) (ha : a ∈ ws) :
    a = lo i ∨ a = hi i ∨ a ∈ ring i := by
  rw [← mem_markRing_iff hne, (H.cyclic hi' hne).mem_iff, List.mem_append]
  rcases hs with rfl | rfl
  · exact Or.inl ha
  · exact Or.inr ha

theorem disjoint (H : Halfway m h ring lo hi x₀ y₀ P Q m₁ m₂ h₁ h₂ new) (hi' : i < h.size)
    (hne : ring i ≠ []) (ha : a ∈ x₀ i :: P i) : a ∉ y₀ i :: Q i := by
  have hn := (H.marked.bucket i hi').linked.nodup
  rw [(H.cyclic hi' hne).perm.nodup_iff, List.nodup_append] at hn
  intro hm
  exact hn.2.2 a ha a hm rfl

/-- The slots of the new table lead to the sides with a milestone only. -/
theorem exists_side_of_reach (H : Halfway m h ring lo hi x₀ y₀ P Q m₁ m₂ h₁ h₂ new)
    (ha : Reach m₂ new a) : ∃ j < h.size, ring j ≠ [] ∧ ∃ ws, Side x₀ y₀ P Q j ws ∧ a ∈ ws ∧
      (lo j ∈ ws ∨ hi j ∈ ws) := by
  induction ha with
  | head k head hs =>
    have hk : k / 2 < h.size := by
      by_contra hge
      have hlater := H.marked.later k (by omega)
      simp only [hs] at hlater
      cases hlater
    obtain ⟨hlow, hhigh⟩ := H.marked.slots (k / 2) hk
    rcases Nat.even_or_odd' k with ⟨j, rfl | rfl⟩
    · rw [Nat.mul_div_cancel_left j Nat.two_pos, mul_comm j] at hlow
      rw [Nat.mul_div_cancel_left j Nat.two_pos] at hk
      obtain ⟨hne, he⟩ := slotFor_eq_some (hlow.symm.trans hs)
      obtain ⟨ws, hws, hmem⟩ := H.exists_side hk hne (Or.inl rfl)
      rw [he]
      exact ⟨j, hk, hne, ws, hws, hmem, Or.inl hmem⟩
    · have hdiv : (2 * j + 1) / 2 = j := by omega
      rw [hdiv, mul_comm j] at hhigh
      rw [hdiv] at hk
      obtain ⟨hne, he⟩ := slotFor_eq_some (hhigh.symm.trans hs)
      obtain ⟨ws, hws, hmem⟩ := H.exists_side hk hne (Or.inr (Or.inl rfl))
      rw [he]
      exact ⟨j, hk, hne, ws, hws, hmem, Or.inr hmem⟩
  | next a b _ hab ih =>
    obtain ⟨j, hj, hne, ws, hws, hmem, hmile⟩ := ih
    obtain ⟨c, hc, hac⟩ := (H.plain hj hne hws).1.next_mem hmem
    rw [hab, Option.some.injEq] at hac
    exact ⟨j, hj, hne, ws, hws, hac ▸ hc, hmile⟩

/-- A rehash that keeps the contents leaves every node on a side with a milestone. -/
theorem exists_side_of_findsSame {m₃ : Mem} {z : Nat} (t : Table m h ring)
    (H : Halfway m h ring lo hi x₀ y₀ P Q m₁ m₂ h₁ h₂ new)
    (hr : hotringRehash m h = .ok (m', new'))
    (hdel : (List.range new.size).foldlM rehashDeleteStep (m₂, new) = .ok (m₃, new'))
    (hdis : display m₃ new' = .ok m') (hf : FindsSame h.n m h m' new') (hi' : i < h.size)
    (hz : z ∈ ring i) :
    ∃ ws, Side x₀ y₀ P Q i ws ∧ z ∈ ws ∧ (lo i ∈ ws ∨ hi i ∈ ws) := by
  obtain ⟨hst, hin⟩ := deleteHeads_region (region_reach m₂ new) (headsIn_reach m₂ new) hdel
  obtain rfl := display_region hst.region hin hdis
  have hidx := t.index i hi' z hz
  have hq := t.geometry.lt_of_index_lt (hidx ▸ hi')
  have hfound := (hf (m.key z) hq).1 (m.value z) ⟨i, ring i, z, t.bucket i hi', hz, rfl, rfl⟩
  obtain ⟨a, haC, hlive, hkey⟩ := lookup_region hst.region hin hfound
  have hlt : a < m.brk := by
    by_contra hge
    rw [hotringRehash_frees hr a (not_lt.mp hge)] at hlive
    cases hlive
  have hbrk : m₂.brk = m₁.brk := H.cut.brk
  have hle : m.brk ≤ m₁.brk := H.marked.brk_le
  have hlt₂ : a < m₂.brk := hlt.trans_le (hbrk ▸ hle)
  have hsame : m.SameData m' a := ((H.marked.kept a hlt).trans (H.cut.data a)).trans
    (hst.kept.live hlt₂ hlive).2
  have hreach : Reach m₂ new a := by
    rcases haC with hreach | h0 | hge
    · exact hreach
    · rw [h0, m'.null_free] at hlive
      cases hlive
    · exact absurd hge (not_le.mpr hlt₂)
  obtain ⟨j, hj, hne, ws, hws, hmem, hmile⟩ := H.exists_side_of_reach hreach
  have haj : a ∈ ring j := by
    have hfresh := H.marked.fresh j hj hne
    rcases H.mem_of_side hj hne hws hmem with h0 | h0 | h0
    · omega
    · omega
    · exact h0
  have hka : m.key a = m.key z := hsame.key.symm.trans hkey
  obtain rfl : j = i := by rw [← t.index j hj a haj, hka, hidx]
  obtain rfl := t.node_eq_of_key hj haj hz hka
  exact ⟨ws, hws, hmem, hmile⟩

/-- A rehash that keeps the contents leaves the milestones of a bucket on different sides. -/
theorem apart {m₃ : Mem} (t : Table m h ring)
    (H : Halfway m h ring lo hi x₀ y₀ P Q m₁ m₂ h₁ h₂ new)
    (hr : hotringRehash m h = .ok (m', new'))
    (hdel : (List.range new.size).foldlM rehashDeleteStep (m₂, new) = .ok (m₃, new'))
    (hdis : display m₃ new' = .ok m') (hf : FindsSame h.n m h m' new') (hi' : i < h.size)
    (hne : ring i ≠ []) :
    (lo i ∈ x₀ i :: P i ∧ hi i ∈ y₀ i :: Q i) ∨ (lo i ∈ y₀ i :: Q i ∧ hi i ∈ x₀ i :: P i) := by
  -- a side without milestones starts with a node of the bucket, which would be lost
  have hside (ws vs : List Nat) (b : Nat) (us : List Nat) (hvs : vs = b :: us)
      (hws : Side x₀ y₀ P Q i vs) (hlo : lo i ∈ ws) (hhi : hi i ∈ ws)
      (hdisj : ∀ a ∈ ws, a ∉ vs) (hsides : ∀ us, Side x₀ y₀ P Q i us → us = ws ∨ us = vs) :
      False := by
    have hb : b ∈ vs := hvs ▸ List.mem_cons_self
    have hbr : b ∈ ring i := by
      rcases H.mem_of_side hi' hne hws hb with h0 | h0 | h0
      · exact absurd hb (h0 ▸ hdisj _ hlo)
      · exact absurd hb (h0 ▸ hdisj _ hhi)
      · exact h0
    obtain ⟨us', hus', hbus, hmile⟩ := H.exists_side_of_findsSame t hr hdel hdis hf hi' hbr
    rcases hsides us' hus' with h0 | h0
    · exact hdisj b (h0 ▸ hbus) hb
    · rcases hmile with hm | hm
      · exact hdisj _ hlo (h0 ▸ hm)
      · exact hdisj _ hhi (h0 ▸ hm)
  have hd (a : Nat) (ha : a ∈ x₀ i :: P i) : a ∉ y₀ i :: Q i := H.disjoint hi' hne ha
  have hd' (a : Nat) (ha : a ∈ y₀ i :: Q i) : a ∉ x₀ i :: P i := fun hm ↦ hd a hm ha
  obtain ⟨ws, hws, hlo⟩ := H.exists_side hi' hne (Or.inl rfl)
  obtain ⟨vs, hvs, hhi⟩ := H.exists_side hi' hne (Or.inr (Or.inl rfl))
  rcases hws with rfl | rfl <;> rcases hvs with rfl | rfl
  · exact (hside _ _ _ _ rfl (Or.inr rfl) hlo hhi hd (fun us hus ↦ hus)).elim
  · exact Or.inl ⟨hlo, hhi⟩
  · exact Or.inr ⟨hlo, hhi⟩
  · exact (hside _ _ _ _ rfl (Or.inl rfl) hlo hhi hd' (fun us hus ↦ hus.symm)).elim

end Halfway

/-! ### The new rings -/

theorem PlainRing.isRotated {xs ys : List Nat} (hp : PlainRing m xs) (hr : xs.IsRotated ys) :
    PlainRing m ys := by
  refine ⟨hp.1.isRotated hr, fun a ha ↦ hp.2 a ?_⟩
  rw [ha] at hr
  exact List.isRotated_singleton_iff.mp hr

/-- A ring with its milestones is cyclically sorted by tag if the ring is. -/
theorem cyclicSorted_markRing {tag : Nat → Nat} {half a b : Nat} {xs : List Nat}
    (hs : CyclicSorted tag xs) (ha : tag a = 0) (hb : tag b = half) :
    CyclicSorted tag (markRing tag half a b xs) := by
  cases xs with
  | nil => exact hs
  | cons c xs => exact cyclicSorted_newRing (cyclicSorted_newRing hs hb) ha

namespace Halfway

/-- The two sides of a bucket, that of the first milestone in front. -/
theorem exists_sides {m₃ : Mem} (t : Table m h ring)
    (H : Halfway m h ring lo hi x₀ y₀ P Q m₁ m₂ h₁ h₂ new)
    (hr : hotringRehash m h = .ok (m', new'))
    (hdel : (List.range new.size).foldlM rehashDeleteStep (m₂, new) = .ok (m₃, new'))
    (hdis : display m₃ new' = .ok m') (hf : FindsSame h.n m h m' new') (hi' : i < h.size)
    (hne : ring i ≠ []) : ∃ us vs, PlainRing m₂ (lo i :: us) ∧ PlainRing m₂ (hi i :: vs) ∧
      (markRing m₁.tag (halfTag h) (lo i) (hi i) (ring i)).Perm (lo i :: us ++ hi i :: vs) ∧
      (CyclicSorted m₁.tag (markRing m₁.tag (halfTag h) (lo i) (hi i) (ring i)) →
        CyclicSorted m₁.tag us ∧ CyclicSorted m₁.tag vs) := by
  have hcyc := H.cyclic hi' hne
  obtain ⟨ws, zs, hws, hzs, hrot, hlo, hhi⟩ : ∃ ws zs, Side x₀ y₀ P Q i ws ∧
      Side x₀ y₀ P Q i zs ∧ (markRing m₁.tag (halfTag h) (lo i) (hi i) (ring i)).IsRotated
        (ws ++ zs) ∧ lo i ∈ ws ∧ hi i ∈ zs := by
    rcases H.apart t hr hdel hdis hf hi' hne with ⟨hlo, hhi⟩ | ⟨hlo, hhi⟩
    · exact ⟨_, _, Or.inl rfl, Or.inr rfl, hcyc, hlo, hhi⟩
    · exact ⟨_, _, Or.inr rfl, Or.inl rfl, hcyc.trans List.isRotated_append, hlo, hhi⟩
  obtain ⟨us, hus⟩ := exists_isRotated_of_mem hlo
  obtain ⟨vs, hvs⟩ := exists_isRotated_of_mem hhi
  refine ⟨us, vs, (H.plain hi' hne hws).isRotated hus, (H.plain hi' hne hzs).isRotated hvs,
    hrot.perm.trans (hus.perm.append hvs.perm), fun hs ↦ ?_⟩
  have hs' := hs.isRotated hrot
  constructor
  · exact ((hs'.sublist (List.sublist_append_left _ _)).isRotated hus).sublist
      (List.sublist_cons_self _ _)
  · exact ((hs'.sublist (List.sublist_append_right _ _)).isRotated hvs).sublist
      (List.sublist_cons_self _ _)

/-- The parts without the milestones are the old ring. -/
theorem perm_of_sides {us vs : List Nat} (t : Table m h ring)
    (H : Halfway m h ring lo hi x₀ y₀ P Q m₁ m₂ h₁ h₂ new) (hi' : i < h.size)
    (hne : ring i ≠ [])
    (hperm : (markRing m₁.tag (halfTag h) (lo i) (hi i) (ring i)).Perm
      (lo i :: us ++ hi i :: vs)) : (ring i).Perm (us ++ vs) := by
  have hn := (H.marked.bucket i hi').linked.nodup
  rw [hperm.nodup_iff] at hn
  have hfresh := H.marked.fresh i hi' hne
  have hold (a : Nat) (ha : a ∈ ring i) : a ≠ lo i ∧ a ≠ hi i := by
    have := t.lt_brk hi' ha
    omega
  have hsub : (us ++ vs).Sublist (lo i :: us ++ hi i :: vs) :=
    (List.sublist_cons_self _ _).append (List.sublist_cons_self _ _)
  refine (List.perm_ext_iff_of_nodup (t.bucket i hi').linked.nodup (hn.sublist hsub)).mpr ?_
  intro a
  have hmem := hperm.mem_iff (a := a)
  rw [mem_markRing_iff hne] at hmem
  simp only [List.cons_append, List.mem_cons, List.mem_append] at hmem ⊢
  simp only [List.cons_append, List.nodup_cons, List.nodup_append, List.mem_append,
    List.mem_cons, not_or] at hn
  constructor
  · intro ha
    have := hold a ha
    tauto
  · intro ha
    have hlo : a ≠ lo i := by
      rintro rfl
      tauto
    have hhi : a ≠ hi i := by
      rintro rfl
      rcases ha with ha | ha
      · exact hn.2.2.2 _ ha _ (Or.inl rfl) rfl
      · exact hn.2.2.1.1 ha
    tauto

end Halfway

/-- A rehash that keeps the contents parts every ring in two. -/
theorem FindsSame.parted (t : Table m h ring) (hn : h.n ≤ NBITS)
    (hr : hotringRehash m h = .ok (m', new')) (hf : FindsSame h.n m h m' new') :
    ∃ A B, Parted m m' h new' ring A B := by
  obtain ⟨lo, hi, x₀, y₀, P, Q, m₁, m₂, h₁, h₂, new, m₃, H, hdel, hdis⟩ := exists_halfway t hn hr
  have hex (i : Nat) : ∃ W : List Nat × List Nat, i < h.size →
      (ring i = [] → W.1 = [] ∧ W.2 = []) ∧ (ring i ≠ [] → PlainRing m₂ (lo i :: W.1) ∧
        PlainRing m₂ (hi i :: W.2) ∧
        (markRing m₁.tag (halfTag h) (lo i) (hi i) (ring i)).Perm (lo i :: W.1 ++ hi i :: W.2) ∧
        (CyclicSorted m₁.tag (markRing m₁.tag (halfTag h) (lo i) (hi i) (ring i)) →
          CyclicSorted m₁.tag W.1 ∧ CyclicSorted m₁.tag W.2)) := by
    by_cases hi' : i < h.size
    · by_cases hne : ring i = []
      · exact ⟨([], []), fun _ ↦ ⟨fun _ ↦ ⟨rfl, rfl⟩, fun h0 ↦ absurd hne h0⟩⟩
      · obtain ⟨us, vs, hW⟩ := H.exists_sides t hr hdel hdis hf hi' hne
        exact ⟨(us, vs), fun _ ↦ ⟨fun h0 ↦ absurd h0 hne, fun _ ↦ hW⟩⟩
    · exact ⟨([], []), fun h0 ↦ absurd h0 hi'⟩
  choose W hW using hex
  have S : Sides m₁ h ring lo hi (fun i ↦ (W i).1) (fun i ↦ (W i).2) :=
    fun i hi' hne ↦ ((hW i hi').2 hne).2.2.1
  have C : CutTo m₁ h₁ (fun i ↦ markRing m₁.tag (halfTag h) (lo i) (hi i) (ring i)) lo hi
      (fun i ↦ (W i).1) (fun i ↦ (W i).2) (m₂, h₂) h.size := by
    refine ⟨H.cut.heads, H.cut.brk, H.cut.data, H.cut.rest, ?_, ?_⟩
    · exact fun i hi' hne ↦ ((hW i hi').2 (fun h0 ↦ hne (by simp only [h0]; rfl))).1
    · exact fun i hi' hne ↦ ((hW i hi').2 (fun h0 ↦ hne (by simp only [h0]; rfl))).2.1
  obtain ⟨m₄, new₄, hdel', hdis', hsh, hbuckets, hdata⟩ :=
    C.finish t H.marked S (fun i hi' ↦ (hW i hi').1)
  rw [hdel, Except.ok.injEq, Prod.mk.injEq] at hdel'
  obtain ⟨rfl, rfl⟩ := hdel'
  rw [hdis, Except.ok.injEq] at hdis'
  subst hdis'
  obtain ⟨hn', hk', hsz, -⟩ := hotringRehash_shape hr
  refine ⟨_, _, hn', hk', ?_, fun i hi' ↦ (hbuckets i hi').1, fun i hi' ↦ (hbuckets i hi').2,
    ?_, ?_, hdata⟩
  · rw [hsz, t.geometry.size, Nat.pow_succ]
  · intro i hi'
    by_cases hne : ring i = []
    · obtain ⟨hA, hB⟩ := (hW i hi').1 hne
      rw [hA, hB, hne]
      exact List.Perm.refl _
    · exact H.perm_of_sides t hi' hne (S i hi' hne)
  · intro i hi' hs
    by_cases hne : ring i = []
    · obtain ⟨hA, hB⟩ := (hW i hi').1 hne
      rw [hA, hB, ← hne]
      exact ⟨hs, hs⟩
    · have htag (a : Nat) (ha : a ∈ ring i) : m₁.tag a = m.tag a :=
        (H.marked.kept a (t.lt_brk hi' ha)).tag
      obtain ⟨hsA, hsB⟩ := ((hW i hi').2 hne).2.2.2 (cyclicSorted_markRing (hs.congr htag)
        (H.marked.low i hi' hne).2 (H.marked.high i hi' hne).2)
      have hperm := H.perm_of_sides t hi' hne (S i hi' hne)
      constructor
      · exact hsA.congr (fun a ha ↦ (htag a (hperm.mem_iff.mpr (List.mem_append_left _ ha))).symm)
      · exact hsB.congr (fun a ha ↦ (htag a (hperm.mem_iff.mpr (List.mem_append_right _ ha))).symm)

end Jeopardy.Hotring
