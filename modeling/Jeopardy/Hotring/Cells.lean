import Jeopardy.Lib.CyclicSorted
import Jeopardy.Hotring.Hotspot

/-!
# Cells: nodes without their counters

The ring structure and the contents of a table do not depend on the access counters and
flag bits in the link words. A cell is what remains of a node without them. This module
gives the effect of every list primitive on the cells, and the rule for `list_for_each`:
over a ring whose links the body keeps, the loop is a fold over the list of its nodes.
-/

namespace Jeopardy.Hotring

open Rings Fault

/-- A node without counter and flags. -/
structure Cell where
  next : Nat
  tag : Nat
  key : Nat
  value : Nat
deriving DecidableEq

/-- The cell linked to `p` instead. -/
def Cell.link (c : Cell) (p : Nat) : Cell := ⟨p, c.tag, c.key, c.value⟩

/-- The cell of a node. -/
def HashNode.cell (nd : HashNode) : Cell := ⟨nd.list.addr, nd.tag, nd.key, nd.value⟩

namespace Mem

/-- The cell at an address. -/
def cell (m : Mem) (a : Nat) : Option Cell := (m.node a).map HashNode.cell

/-- The key stored at `a`, zero if there is no node. -/
def key (m : Mem) (a : Nat) : Nat := ((m.cell a).map Cell.key).getD 0

/-- The tag stored at `a`, zero if there is no node. -/
def tag (m : Mem) (a : Nat) : Nat := ((m.cell a).map Cell.tag).getD 0

/-- The value stored at `a`, zero if there is no node. -/
def value (m : Mem) (a : Nat) : Nat := ((m.cell a).map Cell.value).getD 0

variable {m m' m'' : Mem} {a p : Nat} {nd : HashNode}

theorem next_eq_cell (m : Mem) (a : Nat) : m.next a = (m.cell a).map Cell.next := by
  simp [next, cell, Option.map_map, Function.comp_def, HashNode.cell]

theorem cell_of_node (h : m.node a = some nd) : m.cell a = some nd.cell := by
  simp [cell, h]

theorem node_of_cell {c : Cell} (h : m.cell a = some c) :
    ∃ nd, m.node a = some nd ∧ nd.cell = c := by
  simpa [cell] using h

theorem node_of_next {b : Nat} (h : m.next a = some b) :
    ∃ nd, m.node a = some nd ∧ nd.list.addr = b := by
  simpa [next] using h

theorem read_eq (h : m.node p = some nd) : m.read p = .ok nd := by
  simp [read, h]

theorem read_eq_ok : m.read p = .ok nd ↔ m.node p = some nd := by
  unfold read
  split
  · next nd' h => simp [h]
  · next h => simp [h]

theorem ne_zero_of_node (h : m.node a = some nd) : a ≠ 0 := by
  intro ha
  rw [ha, m.null_free] at h
  simp at h

theorem lt_brk_of_node (h : m.node a = some nd) : a < m.brk := by
  by_contra hb
  rw [m.fresh a (by omega)] at h
  simp at h

theorem node_brk (m : Mem) : m.node m.brk = none := m.fresh _ le_rfl

@[simp] theorem node_update (m : Mem) (p a : Nat) (f : HashNode → HashNode) :
    (m.update p f).node a = if a = p then (m.node a).map f else m.node a := rfl

@[simp] theorem node_alloc (m : Mem) (a : Nat) (nd : HashNode) :
    (m.alloc nd).node a = if a = m.brk then some nd else m.node a := rfl

@[simp] theorem node_free (m : Mem) (p a : Nat) :
    (m.free p).node a = if a = p then none else m.node a := rfl

@[simp] theorem brk_update (m : Mem) (p : Nat) (f : HashNode → HashNode) :
    (m.update p f).brk = m.brk := rfl

@[simp] theorem brk_alloc (m : Mem) (nd : HashNode) : (m.alloc nd).brk = m.brk + 1 := rfl

@[simp] theorem brk_free (m : Mem) (p : Nat) : (m.free p).brk = m.brk := rfl

/-- A store through a live pointer completes. -/
theorem modify_eq (f : HashNode → HashNode) (h : m.node p = some nd) :
    m.modify p f = .ok (m.update p f) := by
  rw [modify, read_eq h]
  rfl

theorem modify_eq_ok {f : HashNode → HashNode} :
    m.modify p f = .ok m' ↔ (∃ nd, m.node p = some nd) ∧ m' = m.update p f := by
  rw [modify, bind_eq_ok]
  simp only [read_eq_ok, pure, Except.pure, Except.ok.injEq, eq_comm (b := m')]
  constructor
  · rintro ⟨nd, h, rfl⟩
    exact ⟨⟨nd, h⟩, rfl⟩
  · rintro ⟨⟨nd, h⟩, rfl⟩
    exact ⟨nd, h, rfl⟩

/-- The two memories have the same cells and the same unused addresses. -/
structure SameCells (m m' : Mem) : Prop where
  brk : m'.brk = m.brk
  cell : ∀ a, m'.cell a = m.cell a

theorem SameCells.refl (m : Mem) : m.SameCells m := ⟨rfl, fun _ ↦ rfl⟩

theorem SameCells.trans (h : m.SameCells m') (h' : m'.SameCells m'') : m.SameCells m'' :=
  ⟨h'.brk.trans h.brk, fun a ↦ (h'.cell a).trans (h.cell a)⟩

theorem SameCells.next (h : m.SameCells m') : m'.next = m.next := by
  funext a
  rw [next_eq_cell, next_eq_cell, h.cell]

theorem SameCells.key (h : m.SameCells m') : m'.key = m.key := by
  funext a
  rw [Mem.key, h.cell, Mem.key]

theorem SameCells.tag (h : m.SameCells m') : m'.tag = m.tag := by
  funext a
  rw [Mem.tag, h.cell, Mem.tag]

theorem SameCells.value (h : m.SameCells m') : m'.value = m.value := by
  funext a
  rw [Mem.value, h.cell, Mem.value]

/-- Stores to counters and flags keep every cell. -/
theorem sameCells_update (m : Mem) (p : Nat) {f : HashNode → HashNode}
    (hf : ∀ nd, (f nd).cell = nd.cell) : m.SameCells (m.update p f) := by
  refine ⟨rfl, ?_⟩
  intro a
  simp only [cell, node_update]
  split
  · rw [Option.map_map]
    congr 1
    exact funext hf
  · rfl

theorem key_of_node (h : m.node a = some nd) : m.key a = nd.key := by
  simp [key, cell_of_node h, HashNode.cell]

theorem tag_of_node (h : m.node a = some nd) : m.tag a = nd.tag := by
  simp [tag, cell_of_node h, HashNode.cell]

theorem value_of_node (h : m.node a = some nd) : m.value a = nd.value := by
  simp [value, cell_of_node h, HashNode.cell]

theorem key_of_cell {c : Cell} (h : m.cell a = some c) : m.key a = c.key := by
  simp [key, h]

theorem tag_of_cell {c : Cell} (h : m.cell a = some c) : m.tag a = c.tag := by
  simp [tag, h]

theorem value_of_cell {c : Cell} (h : m.cell a = some c) : m.value a = c.value := by
  simp [value, h]

/-- The node at `a` keeps its tag, key and value; its link may change. -/
def SameData (m m' : Mem) (a : Nat) : Prop :=
  (m'.cell a).map (·.link 0) = (m.cell a).map (·.link 0)

theorem sameData_of_cell (h : m'.cell a = m.cell a) : SameData m m' a := by
  rw [SameData, h]

theorem sameData_of_link {c : Cell} {b : Nat} (h : m.cell a = some c)
    (h' : m'.cell a = some (c.link b)) : SameData m m' a := by
  simp [SameData, h, h', Cell.link]

private theorem data_of_link (m : Mem) (a : Nat) {f : Cell → Nat} (hf : ∀ c, f (c.link 0) = f c) :
    ((m.cell a).map f).getD 0 = (((m.cell a).map (·.link 0)).map f).getD 0 := by
  cases m.cell a with
  | none => rfl
  | some c => exact (hf c).symm

theorem SameData.key (h : SameData m m' a) : m'.key a = m.key a := by
  rw [Mem.key, Mem.key, data_of_link m' a (fun _ ↦ rfl), h, ← data_of_link m a (fun _ ↦ rfl)]

theorem SameData.tag (h : SameData m m' a) : m'.tag a = m.tag a := by
  rw [Mem.tag, Mem.tag, data_of_link m' a (fun _ ↦ rfl), h, ← data_of_link m a (fun _ ↦ rfl)]

theorem SameData.value (h : SameData m m' a) : m'.value a = m.value a := by
  rw [Mem.value, Mem.value, data_of_link m' a (fun _ ↦ rfl), h,
    ← data_of_link m a (fun _ ↦ rfl)]

theorem SameData.trans (h : SameData m m' a) (h' : SameData m' m'' a) : SameData m m'' a :=
  Eq.trans h' h

/-- Every node of a ring is allocated. -/
theorem node_of_ring {xs : List Nat} (h : IsRing m.next xs) (ha : a ∈ xs) :
    ∃ nd, m.node a = some nd := by
  obtain ⟨b, -, hb⟩ := h.next_mem ha
  obtain ⟨nd, hnd, -⟩ := node_of_next hb
  exact ⟨nd, hnd⟩

/-- A ring has fewer nodes than there are addresses handed out. -/
theorem length_lt_brk {xs : List Nat} (h : IsRing m.next xs) : xs.length < m.brk := by
  have hlt (a : Nat) (ha : a ∈ xs) : a ∈ Finset.Ioo 0 m.brk := by
    obtain ⟨nd, hnd⟩ := node_of_ring h ha
    rw [Finset.mem_Ioo]
    exact ⟨Nat.pos_of_ne_zero (ne_zero_of_node hnd), lt_brk_of_node hnd⟩
  have hs : xs.toFinset ⊆ Finset.Ioo 0 m.brk := by
    intro a ha
    exact hlt a (List.mem_toFinset.mp ha)
  have hc := Finset.card_le_card hs
  rw [List.toFinset_card_of_nodup h.nodup, Nat.card_Ioo] at hc
  have hb := m.brk_pos
  omega

end Mem

/-! ### Counter updates -/

variable {m m' : Mem} {p : Nat} {nd : HashNode}

theorem bumpCounter_spec (h : m.node p = some nd) :
    ∃ m', bumpCounter m p = .ok m' ∧ m.SameCells m' ∧ ∀ a, a ≠ p → m'.node a = m.node a := by
  refine ⟨_, Mem.modify_eq _ h, Mem.sameCells_update _ _ (fun _ ↦ rfl), ?_⟩
  intro a ha
  rw [Mem.node_update, if_neg ha]

theorem setCounterOne_spec (h : m.node p = some nd) :
    ∃ m', setCounterOne m p = .ok m' ∧ m.SameCells m' :=
  ⟨_, Mem.modify_eq _ h, Mem.sameCells_update _ _ (fun _ ↦ rfl)⟩

theorem resetCounter_spec (h : m.node p = some nd) :
    ∃ m', resetCounter m p = .ok m' ∧ m.SameCells m' :=
  ⟨_, Mem.modify_eq _ h, Mem.sameCells_update _ _ (fun _ ↦ rfl)⟩

/-! ### The loop over a ring -/

section Loop

variable {σ : Type} {body : Mem → Nat → σ → Except Fault (ForInStep (Mem × σ))}

/-- The rounds of a loop body over a list of nodes, with its early exit. -/
def foldRing (body : Mem → Nat → σ → Except Fault (ForInStep (Mem × σ))) :
    Mem → List Nat → σ → Except Fault (Mem × σ)
  | m, [], s => .ok (m, s)
  | m, a :: as, s => do
    match ← body m a s with
    | .done r => .ok r
    | .yield (m, s) => foldRing body m as s

/-- A round of the body that goes on leaves the links of `ys` as they are in `m₀`. -/
def KeepsLinks (body : Mem → Nat → σ → Except Fault (ForInStep (Mem × σ))) (m₀ : Mem)
    (ys : List Nat) : Prop :=
  ∀ m a s m' s', a ∈ ys → (∀ b ∈ ys, m.next b = m₀.next b) →
    body m a s = .ok (.yield (m', s')) → ∀ b ∈ ys, m'.next b = m₀.next b

private theorem listForEachFrom_eq_fold {m₀ m : Mem} {c a pos : Nat} {xs ys : List Nat} {s : σ}
    {fuel : Nat} (hb : KeepsLinks body m₀ ys) (hxs : ∀ b ∈ a :: xs, b ∈ ys) (hc : c ∉ xs)
    (hl : Links m₀.next a xs c) (hf : xs.length < fuel) (hm : ∀ b ∈ ys, m.next b = m₀.next b)
    (hpos : m₀.next a = some pos) :
    listForEachFrom body c fuel m pos s = foldRing body m xs s := by
  induction xs generalizing a pos m s fuel with
  | nil =>
    obtain ⟨f, rfl⟩ := Nat.exists_eq_succ_of_ne_zero (Nat.ne_of_gt hf)
    have he : pos = c := Option.some.inj (hpos.symm.trans hl)
    simp [listForEachFrom, foldRing, he]
  | cons x xs ih =>
    obtain ⟨f, rfl⟩ := Nat.exists_eq_succ_of_ne_zero (Nat.ne_of_gt (Nat.zero_lt_of_lt hf))
    have he : pos = x := Option.some.inj (hpos.symm.trans hl.1)
    subst he
    have hne : pos ≠ c := fun he ↦ hc (by simp [he])
    have hmem : pos ∈ ys := hxs pos (by simp)
    rw [listForEachFrom, if_neg hne, foldRing]
    cases hbody : body m pos s with
    | error e => rfl
    | ok r =>
      cases r with
      | done r => rfl
      | yield r =>
        obtain ⟨m', s'⟩ := r
        have hm' := hb m pos s m' s' hmem hm hbody
        obtain ⟨d, hd, -⟩ := hl.2.next_mem (show pos ∈ pos :: xs by simp)
        obtain ⟨nd, hnd, hnx⟩ := Mem.node_of_next ((hm' pos hmem).trans hd)
        simp only [ok_bind, Mem.read_eq hnd, hnx]
        exact ih (fun b hb' ↦ hxs b (by simp [List.mem_cons.mp hb'])) (fun h ↦ hc (by simp [h]))
          hl.2 (by simpa using hf) hm' hd

/-- `list_for_each` over a ring is the fold over its nodes behind the head. -/
theorem listForEach_eq_fold {m : Mem} {c : Nat} {xs : List Nat} (s : σ)
    (h : IsRing m.next (c :: xs)) (hb : KeepsLinks body m (c :: xs)) :
    listForEach body m c s = foldRing body m xs s := by
  obtain ⟨d, -, hd⟩ := h.next_mem (show c ∈ c :: xs by simp)
  obtain ⟨nd, hnd, hnx⟩ := Mem.node_of_next hd
  have hlen := Mem.length_lt_brk h
  rw [List.length_cons] at hlen
  rw [listForEach, Mem.read_eq hnd, ok_bind, hnx]
  exact listForEachFrom_eq_fold hb (fun b hb' ↦ hb') (List.nodup_cons.mp h.1).1 h.2 (by omega)
    (fun b _ ↦ rfl) hd

end Loop

/-! ### Linking and unlinking -/

/-- `list_add` of a node `new` behind another node `p`. -/
theorem listAdd_spec {new : Nat} {nd' : HashNode} (hnew : m.node new = some nd')
    (hp : m.node p = some nd) (hne : new ≠ p) :
    ∃ m', listAdd m new p = .ok m' ∧ m'.brk = m.brk ∧
      m'.cell new = some (nd'.cell.link nd.list.addr) ∧
      m'.cell p = some (nd.cell.link new) ∧
      ∀ a, a ≠ new → a ≠ p → m'.cell a = m.cell a := by
  let m₁ := m.update new (fun n ↦ { n with list := nd.list })
  have hp₁ : m₁.node p = some nd := by
    simp [m₁, hne.symm, hp]
  let m₂ := m₁.update p (fun n ↦ { n with list := { n.list with addr := new } })
  refine ⟨m₂, ?_, rfl, ?_, ?_, ?_⟩
  · rw [listAdd, Mem.read_eq hp, ok_bind, rawListAdd, Mem.modify_eq _ hnew, ok_bind,
      Mem.modify_eq _ hp₁]
  · simp [Mem.cell, m₂, m₁, hne, hnew, HashNode.cell, Cell.link]
  · simp [Mem.cell, m₂, m₁, hne.symm, hp, HashNode.cell, Cell.link]
  · intro a ha hap
    simp [Mem.cell, m₂, m₁, ha, hap]

/-- `list_del` of `e` from behind `p`, and `free` of `e` right after it. -/
theorem listDel_free_spec {e : Nat} {nd' : HashNode} (hp : m.node p = some nd)
    (he : m.node e = some nd') (hne : p ≠ e) :
    ∃ m₁ m', listDel m p e = .ok m₁ ∧ hotringNodeFree m₁ e = .ok m' ∧ m'.brk = m.brk ∧
      m'.cell e = none ∧ m'.cell p = some (nd.cell.link nd'.list.addr) ∧
      ∀ a, a ≠ e → a ≠ p → m'.node a = m.node a := by
  let m₁ := m.update p (fun n ↦ { n with list := { n.list with addr := nd'.list.addr } })
  have he₁ : m₁.node e = some nd' := by
    simp [m₁, hne.symm, he]
  let m₂ := m₁.update e (fun n ↦ { n with list := .ofPtr listPoison1 })
  have he₂ : m₂.node e = some { nd' with list := .ofPtr listPoison1 } := by
    simp only [m₂, Mem.node_update, ↓reduceIte, he₁, Option.map_some]
  refine ⟨m₂, m₂.free e, ?_, ?_, rfl, ?_, ?_, ?_⟩
  · rw [listDel, Mem.read_eq he, ok_bind, rawListDelByAddr, Mem.modify_eq _ hp, ok_bind,
      Mem.modify_eq _ he₁]
  · rw [hotringNodeFree, Mem.read_eq he₂]
    rfl
  · simp [Mem.cell]
  · simp [Mem.cell, m₂, m₁, hne, hp, HashNode.cell, Cell.link]
  · intro a ha hap
    simp [m₂, m₁, ha, hap]

/-- A node taken out of a ring from behind its predecessor, and freed. -/
theorem unlink_spec {x y : Nat} {zs : List Nat} (hr : IsRing m.next (y :: x :: zs)) :
    ∃ m₁ m', listDel m y x = .ok m₁ ∧ hotringNodeFree m₁ x = .ok m' ∧ m'.brk = m.brk ∧
      IsRing m'.next (y :: zs) ∧ m'.cell x = none ∧ (∀ a, a ≠ x → m.SameData m' a) ∧
      ∀ a, a ∉ y :: x :: zs → m'.node a = m.node a := by
  obtain ⟨ndy, hy⟩ := Mem.node_of_ring hr List.mem_cons_self
  obtain ⟨ndx, hx⟩ := Mem.node_of_ring hr (List.mem_cons_of_mem y List.mem_cons_self)
  obtain ⟨hyr, hxr⟩ := List.nodup_cons.mp hr.nodup
  have hyx : y ≠ x := fun he ↦ hyr (he ▸ List.mem_cons_self)
  obtain ⟨m₁, m', hdel, hfree, hbrk, hcx, hcy, ho⟩ := listDel_free_spec hy hx hyx
  refine ⟨m₁, m', hdel, hfree, hbrk, ?_, hcx, ?_, ?_⟩
  · refine hr.erase ?_ ?_
    · rw [Mem.next_eq_cell, hcy, Mem.next, hx]
      rfl
    · intro b hb
      rw [Mem.next, ho b, Mem.next]
      · rintro rfl
        exact (List.nodup_cons.mp hxr).1 hb
      · rintro rfl
        exact hyr (List.mem_cons_of_mem x hb)
  · intro a hax
    by_cases hay : a = y
    · subst hay
      exact Mem.sameData_of_link (Mem.cell_of_node hy) hcy
    · apply Mem.sameData_of_cell
      rw [Mem.cell, ho a hax hay, Mem.cell]
  · intro a ha
    apply ho
    · rintro rfl
      exact ha (by simp)
    · rintro rfl
      exact ha (by simp)

end Jeopardy.Hotring
