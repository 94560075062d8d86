import Jeopardy.Hotring.Bucket
import Jeopardy.Hotring.Shape

/-!
# Regions

A region is a set of addresses that the links of a memory do not leave; it holds `NULL` and
the unused addresses as well. Whatever shape the rings of a table are in, every operation
that completes stays in each region that holds the heads: it stores only links into it, and
it neither changes the data of an old node nor brings a freed one back.
-/

namespace Jeopardy.Hotring

open Fault

/-- The links of `m` do not leave `C`. -/
structure Region (C : Set Nat) (m : Mem) : Prop where
  null_mem : 0 ∈ C
  fresh_mem : ∀ a, m.brk ≤ a → a ∈ C
  next_mem : ∀ a b, a ∈ C → m.next a = some b → b ∈ C

/-- The heads of `h` are in `C`. -/
def HeadsIn (C : Set Nat) (h : Hash) : Prop :=
  ∀ i head, h.slots i = some head → head.addr ∈ C

/-- Every node of `m` was freed or holds the same data in `m'`. -/
structure Kept (m m' : Mem) : Prop where
  brk_le : m.brk ≤ m'.brk
  data : ∀ a < m.brk, m'.cell a = Option.none ∨ m.SameData m' a

variable {C : Set Nat} {m m' m'' : Mem} {h h' : Hash} {p q : Nat} {nd : HashNode}

namespace Kept

theorem refl (m : Mem) : Kept m m := ⟨le_rfl, fun _ _ ↦ Or.inr rfl⟩

theorem trans (k : Kept m m') (k' : Kept m' m'') : Kept m m'' := by
  refine ⟨k.brk_le.trans k'.brk_le, ?_⟩
  intro a ha
  rcases k'.data a (ha.trans_le k.brk_le) with hn | hs
  · exact Or.inl hn
  · rcases k.data a ha with hn | hs'
    · left
      have := hs
      rw [Mem.SameData, hn] at this
      simpa using this
    · exact Or.inr (hs'.trans hs)

theorem of_sameCells (hs : m.SameCells m') : Kept m m' :=
  ⟨hs.brk.ge, fun a _ ↦ Or.inr (Mem.sameData_of_cell (hs.cell a))⟩

end Kept

namespace Region

theorem of_sameCells (r : Region C m) (hs : m.SameCells m') : Region C m' := by
  refine ⟨r.null_mem, ?_, ?_⟩
  · rw [hs.brk]
    exact r.fresh_mem
  · rw [hs.next]
    exact r.next_mem

theorem addr_mem (r : Region C m) (hp : p ∈ C) (hr : m.read p = .ok nd) : nd.list.addr ∈ C := by
  apply r.next_mem p _ hp
  rw [Mem.next, Mem.read_eq_ok.mp hr]
  rfl

end Region

/-! ### Stores -/

theorem link_data (m : Mem) (p : Nat) (l : HashNode → ListHead) (a : Nat) :
    m.SameData (m.update p (fun nd ↦ { nd with list := l nd })) a := by
  rw [Mem.SameData, Mem.cell, Mem.node_update, Mem.cell]
  split
  · cases m.node a <;> rfl
  · rfl

/-- A link into the region is stored. -/
theorem link_region (r : Region C m) {l : HashNode → ListHead}
    (hl : ∀ nd, m.node p = some nd → p ∈ C → (l nd).addr ∈ C)
    (hr : m.modify p (fun nd ↦ { nd with list := l nd }) = .ok m') :
    Region C m' ∧ Kept m m' ∧ m'.brk = m.brk := by
  obtain ⟨⟨nd, hnd⟩, rfl⟩ := Mem.modify_eq_ok.mp hr
  refine ⟨⟨r.null_mem, r.fresh_mem, ?_⟩, ⟨le_rfl, fun a _ ↦ Or.inr (link_data m p l a)⟩, rfl⟩
  intro a b ha hb
  rw [Mem.next, Mem.node_update] at hb
  split at hb
  · next hap =>
    subst hap
    rw [hnd, Option.map_some, Option.map_some, Option.some.injEq] at hb
    exact hb ▸ hl nd hnd ha
  · exact r.next_mem a b ha hb

theorem free_region (r : Region C m) (p : Nat) : Region C (m.free p) ∧ Kept m (m.free p) := by
  refine ⟨⟨r.null_mem, r.fresh_mem, ?_⟩, le_rfl, ?_⟩
  · intro a b ha hb
    rw [Mem.next, Mem.node_free] at hb
    split at hb
    · simp at hb
    · exact r.next_mem a b ha hb
  · intro a _
    rw [Mem.SameData, Mem.cell, Mem.node_free]
    split
    · exact Or.inl rfl
    · exact Or.inr rfl

theorem alloc_region (r : Region C m) (ha : nd.list.addr ∈ C) :
    Region C (m.alloc nd) ∧ Kept m (m.alloc nd) := by
  refine ⟨⟨r.null_mem, ?_, ?_⟩, by simp, ?_⟩
  · intro a hle
    exact r.fresh_mem a ((Nat.le_succ _).trans hle)
  · intro a b hC hb
    rw [Mem.next, Mem.node_alloc] at hb
    split at hb
    · rw [Option.map_some, Option.some.injEq] at hb
      exact hb ▸ ha
    · exact r.next_mem a b hC hb
  · intro a hlt
    right
    rw [Mem.SameData, Mem.cell, Mem.node_alloc, if_neg (Nat.ne_of_lt hlt), Mem.cell]

theorem listAdd_region {new : Nat} (r : Region C m) (hp : p ∈ C) (hn : new ∈ C)
    (hr : listAdd m new p = .ok m') : Region C m' ∧ Kept m m' ∧ m'.brk = m.brk := by
  obtain ⟨hd, hhd, hr⟩ := bind_eq_ok.mp hr
  obtain ⟨m₁, h1, h2⟩ := bind_eq_ok.mp hr
  obtain ⟨r₁, k₁, b₁⟩ := link_region r (fun _ _ _ ↦ r.addr_mem hp hhd) h1
  obtain ⟨r₂, k₂, b₂⟩ := link_region r₁ (fun _ _ _ ↦ hn) h2
  exact ⟨r₂, k₁.trans k₂, b₂.trans b₁⟩

/-- `list_del` poisons the link of the node that is freed next. -/
theorem listDel_free_region {e : Nat} {m₁ : Mem} (r : Region C m) (he : e ∈ C)
    (hd : listDel m p e = .ok m₁) (hf : hotringNodeFree m₁ e = .ok m') :
    Region C m' ∧ Kept m m' ∧ m'.brk = m.brk ∧ m'.node e = Option.none := by
  obtain ⟨nd, hnd, hd⟩ := bind_eq_ok.mp hd
  obtain ⟨m₂, h2, h3⟩ := bind_eq_ok.mp hd
  obtain ⟨-, -, hf⟩ := bind_eq_ok.mp hf
  simp only [pure, Except.pure, Except.ok.injEq] at hf
  obtain ⟨r₂, k₂, b₂⟩ := link_region (l := fun n ↦ { n.list with addr := nd.list.addr }) r
    (fun _ _ _ ↦ r.addr_mem he hnd) h2
  obtain ⟨-, rfl⟩ := Mem.modify_eq_ok.mp h3
  have hnode (a : Nat) : m'.node a = (m₂.free e).node a := by
    rw [← hf]
    by_cases ha : a = e <;> simp [ha]
  obtain ⟨r₃, k₃⟩ := free_region r₂ e
  have hsame : (m₂.free e).SameCells m' := by
    refine ⟨by rw [← hf]; rfl, ?_⟩
    intro a
    rw [Mem.cell, Mem.cell, hnode]
  refine ⟨r₃.of_sameCells hsame, (k₂.trans k₃).trans (.of_sameCells hsame), ?_, ?_⟩
  · rw [← hf]
    exact b₂
  · rw [hnode]
    simp

/-! ### Loops -/

section Loop

variable {σ : Type} {body : Mem → Nat → σ → Except Fault (ForInStep (Mem × σ))}

/-- An invariant of the rounds of `list_for_each` at positions of a region is one of the
loop. -/
theorem listForEachFrom_invariant {I : Mem → σ → Prop} {fuel pos head : Nat} {s s' : σ}
    (hreg : ∀ m s, I m s → Region C m)
    (hdone : ∀ m pos s m' s', I m s → pos ∈ C → body m pos s = .ok (.done (m', s')) → I m' s')
    (hyield : ∀ m pos s m' s', I m s → pos ∈ C → body m pos s = .ok (.yield (m', s')) → I m' s')
    (hI : I m s) (hpos : pos ∈ C)
    (hr : listForEachFrom body head fuel m pos s = .ok (m', s')) : I m' s' := by
  induction fuel generalizing m pos s with
  | zero => simp [listForEachFrom] at hr
  | succ fuel ih =>
    rw [listForEachFrom] at hr
    split at hr
    · simp only [Except.ok.injEq, Prod.mk.injEq] at hr
      rwa [← hr.1, ← hr.2]
    · obtain ⟨r, hb, hr⟩ := bind_eq_ok.mp hr
      cases r with
      | done r =>
        simp only [Except.ok.injEq] at hr
        subst hr
        exact hdone m pos s m' s' hI hpos hb
      | yield r =>
        obtain ⟨m₁, s₁⟩ := r
        obtain ⟨nd, hnd, hr⟩ := bind_eq_ok.mp hr
        have hI₁ := hyield m pos s m₁ s₁ hI hpos hb
        exact ih hI₁ ((hreg _ _ hI₁).addr_mem hpos hnd) hr

theorem listForEach_invariant {I : Mem → σ → Prop} {head : Nat} {s s' : σ}
    (hreg : ∀ m s, I m s → Region C m)
    (hdone : ∀ m pos s m' s', I m s → pos ∈ C → body m pos s = .ok (.done (m', s')) → I m' s')
    (hyield : ∀ m pos s m' s', I m s → pos ∈ C → body m pos s = .ok (.yield (m', s')) → I m' s')
    (hI : I m s) (hhead : head ∈ C) (hr : listForEach body m head s = .ok (m', s')) :
    I m' s' := by
  obtain ⟨nd, hnd, hr⟩ := bind_eq_ok.mp hr
  exact listForEachFrom_invariant hreg hdone hyield hI ((hreg _ _ hI).addr_mem hhead hnd) hr

end Loop

/-! ### Search and creation -/

theorem sameCells_of_bump (hr : bumpCounter m p = .ok m') : m.SameCells m' := by
  obtain ⟨-, rfl⟩ := Mem.modify_eq_ok.mp hr
  exact Mem.sameCells_update m p (fun _ ↦ rfl)

theorem sameCells_of_setCounter (hr : setCounterOne m p = .ok m') : m.SameCells m' := by
  obtain ⟨-, rfl⟩ := Mem.modify_eq_ok.mp hr
  exact Mem.sameCells_update m p (fun _ ↦ rfl)

theorem sameCells_of_reset (hr : resetCounter m p = .ok m') : m.SameCells m' := by
  obtain ⟨-, rfl⟩ := Mem.modify_eq_ok.mp hr
  exact Mem.sameCells_update m p (fun _ ↦ rfl)

/-- The addresses a get answers are in `C`. -/
def GetResult.In (C : Set Nat) (g : GetResult) : Prop :=
  (∀ a, g.node = some a → a ∈ C) ∧ g.prev ∈ C

private theorem getBody_region {s : Nat × Option GetResult}
    {r : ForInStep (Mem × (Nat × Option GetResult))} (hreg : Region C m) (hpos : p ∈ C)
    (hs : s.1 ∈ C) (hb : getBody q m p s = .ok r) :
    r = .yield (m, (p, Option.none)) ∨
      ∃ m₁ g, r = .done (m₁, (s.1, some g)) ∧ m.SameCells m₁ ∧ g.In C := by
  obtain ⟨tmp, -, hb⟩ := bind_eq_ok.mp hb
  split at hb
  · obtain ⟨m₁, hm₁, hb⟩ := bind_eq_ok.mp hb
    simp only [pure, Except.pure, Except.ok.injEq] at hb
    refine Or.inr ⟨m₁, _, hb.symm, sameCells_of_bump hm₁, ?_, hs⟩
    intro a ha
    rw [Option.some.injEq] at ha
    exact ha ▸ hpos
  · obtain ⟨prev, -, hb⟩ := bind_eq_ok.mp hb
    have habs : GetResult.absent.In C := ⟨by simp [GetResult.absent], hreg.null_mem⟩
    simp only [pure, Except.pure] at hb
    split at hb
    · exact Or.inr ⟨m, _, (Except.ok.inj hb).symm, .refl m, habs⟩
    · split at hb
      · exact Or.inr ⟨m, _, (Except.ok.inj hb).symm, .refl m, habs⟩
      · split at hb
        · exact Or.inr ⟨m, _, (Except.ok.inj hb).symm, .refl m, habs⟩
        · exact Or.inl (Except.ok.inj hb).symm

theorem headsIn_setSlot {i : Nat} {v : Option Head} (hh : HeadsIn C h)
    (hv : ∀ head, v = some head → head.addr ∈ C) : HeadsIn C (h.setSlot i v) := by
  intro j head hj
  by_cases hji : j = i
  · simp only [Hash.setSlot, hji, ↓reduceIte] at hj
    exact hv head hj
  · simp only [Hash.setSlot, hji, ↓reduceIte] at hj
    exact hh j head hj

theorem rawHashGet_region {g : GetResult} (r : Region C m) (hh : HeadsIn C h)
    (hr : rawHashGet m h q = .ok (m', h', g)) : m.SameCells m' ∧ HeadsIn C h' ∧ g.In C := by
  obtain ⟨⟨i, t⟩, -, hr⟩ := bind_eq_ok.mp hr
  obtain ⟨slot, hslot, hr⟩ := bind_eq_ok.mp hr
  cases slot with
  | none =>
    simp only [pure, Except.pure, Except.ok.injEq, Prod.mk.injEq] at hr
    obtain ⟨rfl, rfl, rfl⟩ := hr
    exact ⟨.refl m, hh, by simp [GetResult.absent], r.null_mem⟩
  | some head =>
    have hhead := hh i head (slot_eq_ok hslot).2
    have hh' : HeadsIn C (h.setSlot i (some { head with counter := head.counter + 1 })) := by
      apply headsIn_setSlot hh
      intro head' he
      rw [Option.some.injEq] at he
      exact he ▸ hhead
    obtain ⟨nd, -, hr⟩ := bind_eq_ok.mp hr
    split at hr
    · obtain ⟨m₁, hm₁, hr⟩ := bind_eq_ok.mp hr
      simp only [pure, Except.pure, Except.ok.injEq, Prod.mk.injEq] at hr
      obtain ⟨rfl, rfl, rfl⟩ := hr
      refine ⟨sameCells_of_bump hm₁, hh', ?_, r.null_mem⟩
      intro a ha
      rw [Option.some.injEq] at ha
      exact ha ▸ hhead
    · obtain ⟨⟨m₁, prev, res⟩, hl, hr⟩ := bind_eq_ok.mp hr
      simp only [pure, Except.pure, Except.ok.injEq, Prod.mk.injEq] at hr
      obtain ⟨rfl, rfl, rfl⟩ := hr
      let I (m₂ : Mem) (s : Nat × Option GetResult) : Prop :=
        m.SameCells m₂ ∧ s.1 ∈ C ∧ ∀ g, s.2 = some g → g.In C
      have hI : I m₁ (prev, res) := by
        refine listForEach_invariant (I := I) (fun m₂ s hI ↦ r.of_sameCells hI.1) ?_ ?_
          ⟨.refl m, hhead, by simp⟩ hhead hl
        · intro m₂ pos s m₃ s' hI hpos hb
          rcases getBody_region (r.of_sameCells hI.1) hpos hI.2.1 hb with hy | ⟨m₄, g, hd, hs, hg⟩
          · simp at hy
          · simp only [ForInStep.done.injEq, Prod.mk.injEq] at hd
            obtain ⟨rfl, rfl⟩ := hd
            exact ⟨hI.1.trans hs, hI.2.1, fun g' hg' ↦ Option.some.inj hg' ▸ hg⟩
        · intro m₂ pos s m₃ s' hI hpos hb
          rcases getBody_region (r.of_sameCells hI.1) hpos hI.2.1 hb with hy | ⟨m₄, g, hd, -⟩
          · simp only [ForInStep.yield.injEq, Prod.mk.injEq] at hy
            obtain ⟨rfl, rfl⟩ := hy
            exact ⟨hI.1, hpos, by simp⟩
          · simp at hd
      refine ⟨hI.1, hh', ?_⟩
      cases res with
      | none => exact ⟨by simp [GetResult.absent], r.null_mem⟩
      | some g => exact hI.2.2 g rfl

/-- The region, the old nodes and the size of the memory are as they were in `m`. -/
structure Stays (C : Set Nat) (m m' : Mem) : Prop where
  region : Region C m'
  kept : Kept m m'
  brk : m'.brk = m.brk

theorem Kept.live (k : Kept m m') {a : Nat} (ha : a < m.brk) (hl : (m'.node a).isSome) :
    (m.node a).isSome ∧ m.SameData m' a := by
  obtain ⟨nd, hnd⟩ := Option.isSome_iff_exists.mp hl
  have hc := Mem.cell_of_node hnd
  rcases k.data a ha with hn | hs
  · rw [hn] at hc
    simp at hc
  · refine ⟨?_, hs⟩
    rw [Mem.SameData, hc] at hs
    cases hm : m.node a with
    | none => simp [Mem.cell, hm] at hs
    | some nd' => rfl

theorem Stays.live (s : Stays C m m') {a : Nat} (hl : (m'.node a).isSome) :
    (m.node a).isSome := by
  obtain ⟨nd, hnd⟩ := Option.isSome_iff_exists.mp hl
  have hlt := Mem.lt_brk_of_node hnd
  rw [s.brk] at hlt
  exact (s.kept.live hlt hl).1

theorem insertByTag_region {node head t : Nat} (r : Region C m) (hhead : head ∈ C)
    (hnode : node ∈ C) (hr : insertByTag m node head t = .ok m') : Stays C m m' := by
  obtain ⟨⟨m₁, prev, added⟩, hl, hr⟩ := bind_eq_ok.mp hr
  let I (m₁ : Mem) (s : Nat × Bool) : Prop := Stays C m m₁ ∧ s.1 ∈ C
  have hadd {m₂ m₃ : Mem} {a : Nat} (hs : Stays C m m₂) (ha : a ∈ C)
      (hr : listAdd m₂ node a = .ok m₃) : Stays C m m₃ := by
    obtain ⟨r₃, k₃, b₃⟩ := listAdd_region hs.region ha hnode hr
    exact ⟨r₃, hs.kept.trans k₃, b₃.trans hs.brk⟩
  have hI : I m₁ (prev, added) := by
    refine listForEach_invariant (I := I) (fun m₂ s hI ↦ hI.1.region) ?_ ?_
      ⟨⟨r, .refl m, rfl⟩, hhead⟩ hhead hl
    · intro m₂ pos s m₃ s' hI hpos hb
      obtain ⟨next, -, hb⟩ := bind_eq_ok.mp hb
      obtain ⟨prev, -, hb⟩ := bind_eq_ok.mp hb
      simp only [pure, Except.pure] at hb
      split at hb
      · obtain ⟨m₄, ha, hb⟩ := bind_eq_ok.mp hb
        simp only [Except.ok.injEq, ForInStep.done.injEq, Prod.mk.injEq] at hb
        obtain ⟨rfl, rfl⟩ := hb
        exact ⟨hadd hI.1 hI.2 ha, hI.2⟩
      · split at hb
        · obtain ⟨m₄, ha, hb⟩ := bind_eq_ok.mp hb
          simp only [Except.ok.injEq, ForInStep.done.injEq, Prod.mk.injEq] at hb
          obtain ⟨rfl, rfl⟩ := hb
          exact ⟨hadd hI.1 hI.2 ha, hI.2⟩
        · simp at hb
    · intro m₂ pos s m₃ s' hI hpos hb
      obtain ⟨next, -, hb⟩ := bind_eq_ok.mp hb
      obtain ⟨prev, -, hb⟩ := bind_eq_ok.mp hb
      simp only [pure, Except.pure] at hb
      split at hb
      · obtain ⟨m₄, -, hb⟩ := bind_eq_ok.mp hb
        simp at hb
      · split at hb
        · obtain ⟨m₄, -, hb⟩ := bind_eq_ok.mp hb
          simp at hb
        · simp only [Except.ok.injEq, ForInStep.yield.injEq, Prod.mk.injEq] at hb
          obtain ⟨rfl, rfl⟩ := hb
          exact ⟨hI.1, hpos⟩
  simp only at hr
  split at hr
  · rw [Except.ok.injEq] at hr
    exact hr ▸ hI.1
  · exact hadd hI.1 hI.2 hr

/-- `__hash_create` answers the next unused address; the node there is zeroed but for its
link. -/
theorem rawHashCreate_region {i t node : Nat} (r : Region C m) (hh : HeadsIn C h)
    (hr : rawHashCreate m h i t = .ok (m', h', node)) :
    node = m.brk ∧ m'.brk = m.brk + 1 ∧ Region C m' ∧ HeadsIn C h' ∧ Kept m m' ∧
      (m'.cell m.brk = Option.none ∨ (m.alloc zeroNode).SameData m' m.brk) ∧
      ∀ j, j ≠ i → h'.slots j = h.slots j := by
  have hnew : m.brk ∈ C := r.fresh_mem _ le_rfl
  obtain ⟨ra, ka⟩ : Region C (m.alloc zeroNode) ∧ Kept m (m.alloc zeroNode) :=
    alloc_region r r.null_mem
  have hfin {m₁ m₂ : Mem} (hs : Stays C (m.alloc zeroNode) m₁)
      (hc : setCounterOne m₁ m.brk = .ok m₂) :
      m₂.brk = m.brk + 1 ∧ Region C m₂ ∧ Kept m m₂ ∧
        (m₂.cell m.brk = Option.none ∨ (m.alloc zeroNode).SameData m₂ m.brk) := by
    have hsame := sameCells_of_setCounter hc
    have hk := hs.kept.trans (.of_sameCells hsame)
    exact ⟨hsame.brk.trans hs.brk, hs.region.of_sameCells hsame, ka.trans hk,
      hk.data m.brk (Nat.lt_succ_self _)⟩
  obtain ⟨slot, hslot, hr⟩ := bind_eq_ok.mp hr
  cases slot with
  | none =>
    obtain ⟨m₁, h1, hr⟩ := bind_eq_ok.mp hr
    obtain ⟨m₂, h2, hr⟩ := bind_eq_ok.mp hr
    simp only [pure, Except.pure, Except.ok.injEq, Prod.mk.injEq] at hr
    obtain ⟨rfl, rfl, rfl⟩ := hr
    obtain ⟨r₁, k₁, b₁⟩ := link_region (l := fun _ ↦ .ofPtr m.brk) ra (fun _ _ _ ↦ hnew) h1
    obtain ⟨hb, hR, hK, hd⟩ := hfin ⟨r₁, k₁, b₁⟩ h2
    refine ⟨rfl, hb, hR, headsIn_setSlot hh ?_, hK, hd, ?_⟩
    · intro head he
      rw [Option.some.injEq] at he
      exact he ▸ hnew
    · intro j hj
      simp [Hash.setSlot, hj]
  | some head =>
    obtain ⟨m₁, h1, hr⟩ := bind_eq_ok.mp hr
    obtain ⟨m₂, h2, hr⟩ := bind_eq_ok.mp hr
    simp only [pure, Except.pure, Except.ok.injEq, Prod.mk.injEq] at hr
    obtain ⟨rfl, rfl, rfl⟩ := hr
    have hs := insertByTag_region ra (hh i head (slot_eq_ok hslot).2) hnew h1
    obtain ⟨hb, hR, hK, hd⟩ := hfin hs h2
    exact ⟨rfl, hb, hR, hh, hK, hd, fun _ _ ↦ rfl⟩

/-- Creation of a node and `insert_entries` on it: one new node, and the test on its value
never succeeds. -/
theorem place_region {i tag node key value : Nat} {m₁ : Mem} {e : Int} (r : Region C m)
    (hh : HeadsIn C h) (hc : rawHashCreate m h i tag = .ok (m₁, h', node))
    (he : insertEntries m₁ node key tag value = .ok (m', e)) :
    node = m.brk ∧ m'.brk = m.brk + 1 ∧ Region C m' ∧ HeadsIn C h' ∧ Kept m m' ∧ e = 1 ∧
      m'.key m.brk = key ∧ ∀ j, j ≠ i → h'.slots j = h.slots j := by
  obtain ⟨rfl, hb, r₁, hh', k₁, hd, hsl⟩ := rawHashCreate_region r hh hc
  obtain ⟨nd, hnd, he⟩ := bind_eq_ok.mp he
  have hcell := Mem.cell_of_node (Mem.read_eq_ok.mp hnd)
  have hv : nd.value = 0 := by
    rcases hd with hn | hs
    · rw [hcell] at hn
      simp at hn
    · have hval := hs.value
      have hzero : (m.alloc zeroNode).node m.brk = some zeroNode := by simp
      rw [Mem.value_of_cell hcell, Mem.value_of_node hzero] at hval
      exact hval
  rw [if_neg (not_not.mpr hv)] at he
  obtain ⟨m₂, h2, he⟩ := bind_eq_ok.mp he
  simp only [pure, Except.pure, Except.ok.injEq, Prod.mk.injEq] at he
  obtain ⟨rfl, rfl⟩ := he
  obtain ⟨⟨nd', hnd'⟩, rfl⟩ := Mem.modify_eq_ok.mp h2
  have hnext : (m₁.update m.brk
      (fun nd ↦ { nd with key := key, tag := tag, value := value })).next = m₁.next := by
    funext a
    rw [Mem.next, Mem.node_update, Mem.next]
    split
    · cases m₁.node a <;> rfl
    · rfl
  refine ⟨rfl, hb, ⟨r₁.null_mem, r₁.fresh_mem, hnext ▸ r₁.next_mem⟩, hh', ?_, rfl, ?_, hsl⟩
  · refine ⟨k₁.brk_le, ?_⟩
    intro a ha
    have hcell : (m₁.update m.brk
        (fun nd ↦ { nd with key := key, tag := tag, value := value })).cell a = m₁.cell a := by
      rw [Mem.cell, Mem.node_update, if_neg (Nat.ne_of_lt ha), Mem.cell]
    rw [hcell]
    rcases k₁.data a ha with hn | hs
    · exact Or.inl hn
    · exact Or.inr (hs.trans (Mem.sameData_of_cell hcell))
  · have hnode : (m₁.update m.brk
        (fun nd ↦ { nd with key := key, tag := tag, value := value })).node m.brk =
        some { nd' with key := key, tag := tag, value := value } := by simp [hnd']
    exact Mem.key_of_node hnode

/-- `hash_insert` adds one node with its key and never answers an error. -/
theorem hashInsert_region {key value : Nat} {e : Int} (r : Region C m) (hh : HeadsIn C h)
    (hr : hashInsert m h key value = .ok (m', h', e)) :
    e = 0 ∧ m'.brk = m.brk + 1 ∧ Region C m' ∧ HeadsIn C h' ∧ Kept m m' ∧ m'.key m.brk = key := by
  obtain ⟨⟨i, t⟩, -, hr⟩ := bind_eq_ok.mp hr
  obtain ⟨⟨m₁, h₁, node⟩, hc, hr⟩ := bind_eq_ok.mp hr
  obtain ⟨⟨m₂, err⟩, he, hr⟩ := bind_eq_ok.mp hr
  obtain ⟨-, hb, hR, hH, hK, rfl, hk, -⟩ := place_region r hh hc he
  simp only [pure, Except.pure] at hr
  rw [if_neg (by decide)] at hr
  simp only [Except.ok.injEq, Prod.mk.injEq] at hr
  obtain ⟨rfl, rfl, rfl⟩ := hr
  exact ⟨rfl, hb, hR, hH, hK, hk⟩

end Jeopardy.Hotring
