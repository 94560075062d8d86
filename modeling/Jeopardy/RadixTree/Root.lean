import Jeopardy.RadixTree.Edit

/-!
# Changes at the root and at the leaves

A new root on top of the root, the root taken away, a tree of a single node, and stores into
the slots of a leaf.
-/

namespace Jeopardy.RadixTree

/-- The node `radix_tree_extend` puts on top of `e`. -/
def topNode (shift : Nat) (e : Entry) : Node :=
  ⟨1, shift, 0, 0, none, Function.update (fun _ ↦ .null) 0 e⟩

theorem topNode_slots (shift : Nat) (e : Entry) (o : Fin 64) :
    (topNode shift e).slots o = if o = 0 then e else .null := by
  show Function.update (fun _ : Fin 64 ↦ Entry.null) 0 e o = _
  rw [Function.update_apply]

theorem topNode_used (shift : Nat) {e : Entry} (he : e ≠ .null) : (topNode shift e).used = 1 := by
  have hempty : (fun _ : Fin 64 ↦ Entry.null) 0 = .null := rfl
  have h : (topNode shift e).used = Slots.occupied .null (fun _ : Fin 64 ↦ Entry.null) + 1 :=
    Slots.occupied_fill hempty he
  rw [Slots.occupied_const] at h
  exact h

theorem Node.OK.top_node {shift : Nat} (hle : shift ≤ 60) (hdvd : 6 ∣ shift) {e : Entry}
    (he : e ≠ .null) (hleaf : shift = 0 → ∀ q, e ≠ .node q) : (topNode shift e).OK where
  shift_le := hle
  shift_dvd := hdvd
  count_eq := by rw [topNode_used shift he]; rfl
  leaf hz o q := by
    rw [topNode_slots]
    split
    · exact hleaf hz q
    · simp
  top _ o ho := by
    have hne : o ≠ 0 := by
      rintro rfl
      exact absurd ho (by decide)
    rw [topNode_slots, if_neg hne]

namespace Tree

/-- A new root on top of the root `nr` at `r`. -/
def raise (t : Tree) (r : Nat) (nr : Node) : Tree :=
  { (t.push (topNode (nr.shift + 6) (.node r))).setNode r
      (some { nr with parent := some t.next }) with rnode := .node t.next }

/-- The root at `r` taken away, its child `nc` at `c` made the root. -/
def lower (t : Tree) (r c : Nat) (nc : Node) : Tree :=
  { (t.setNode c (some { nc with parent := none })).setNode r none with rnode := .node c }

/-- A tree without nodes after it has got one. -/
def sole (t : Tree) (nd : Node) : Tree := { t.push nd with rnode := .node t.next }

theorem raise_node (t : Tree) (r : Nat) (nr : Node) (x : Nat) :
    (t.raise r nr).node x = if x = r then some { nr with parent := some t.next }
      else if x = t.next then some (topNode (nr.shift + 6) (.node r)) else t.node x := by
  show ((t.push _).setNode r _).node x = _
  rw [setNode_node, push]
  congr 1
  exact Function.update_apply _ _ _ _

theorem lower_node (t : Tree) (r c : Nat) (nc : Node) (x : Nat) :
    (t.lower r c nc).node x = if x = r then none
      else if x = c then some { nc with parent := none } else t.node x := by
  show ((t.setNode c _).setNode r _).node x = _
  rw [setNode_node, setNode_node]

theorem sole_node (t : Tree) (nd : Node) (x : Nat) :
    (t.sole nd).node x = if x = t.next then some nd else t.node x :=
  Function.update_apply _ _ _ _

end Tree

/-! ### A new root -/

section Raise

variable {t : Tree} {r : Nat} {nr : Node}

theorem raise_eq_some {x : Nat} {nx : Node} (hx : (t.raise r nr).node x = some nx) :
    x = r ∧ nx = { nr with parent := some t.next } ∨
      x ≠ r ∧ (x = t.next ∧ nx = topNode (nr.shift + 6) (.node r) ∨
        x ≠ t.next ∧ t.node x = some nx) := by
  rw [Tree.raise_node] at hx
  split at hx
  · next hxr => exact .inl ⟨hxr, (Option.some.inj hx).symm⟩
  · next hxr =>
    split at hx
    · next hxn => exact .inr ⟨hxr, .inl ⟨hxn, (Option.some.inj hx).symm⟩⟩
    · next hxn => exact .inr ⟨hxr, .inr ⟨hxn, hx⟩⟩

theorem raise_top (h : WF t) (hnr : t.node r = some nr) :
    (t.raise r nr).node t.next = some (topNode (nr.shift + 6) (.node r)) := by
  rw [Tree.raise_node, if_neg (h.lt_next hnr).ne', if_pos rfl]

theorem raise_self (t : Tree) (r : Nat) (nr : Node) :
    (t.raise r nr).node r = some { nr with parent := some t.next } := by
  rw [Tree.raise_node, if_pos rfl]

theorem raise_stays (h : WF t) (nr : Node) {x : Nat} (hxr : x ≠ r) : Stays t (t.raise r nr) x := by
  intro nx hx
  exact ⟨nx, by rw [Tree.raise_node, if_neg hxr, if_neg (h.lt_next hx).ne, hx], rfl, rfl, rfl⟩

theorem Covers.raise (h : WF t) (hr : t.rnode = .node r) (hnr : t.node r = some nr) {x b : Nat}
    (hb : Covers t x b) : Covers (t.raise r nr) x b := by
  have hroot : Covers (t.raise r nr) r 0 := by
    obtain ⟨nr', hnr', -, hoff⟩ := h.root hr
    rw [hnr, Option.some.injEq] at hnr'
    subst hnr'
    have htop : Covers (t.raise r nr) t.next 0 := .root (raise_top h hnr) rfl
    have hchild := Covers.child (raise_self t r nr) rfl htop
    rw [show ({ nr with parent := some t.next } : Node).offset = 0 from hoff] at hchild
    exact hchild
  induction hb with
  | root hx hn =>
    have hxr := h.orphan hx hn
    rw [hr, Entry.node.injEq] at hxr
    exact hxr ▸ hroot
  | @child x y b nx hx hy hb ih =>
    by_cases hxr : x = r
    · have heq := (Covers.child hx hy hb).block_unique (hxr ▸ h.root_covers hr)
      rw [heq, hxr]
      exact hroot
    · obtain ⟨nx', hnx, -, hpar, hoff⟩ := raise_stays h nr hxr _ hx
      rw [← hoff]
      exact .child hnx (hpar.trans hy) ih

theorem WF.raise (h : WF t) (hr : t.rnode = .node r) (hnr : t.node r = some nr)
    (hs : nr.shift + 6 ≤ 60) : WF (t.raise r nr) := by
  obtain ⟨nr', hnr', hrpar, hroff⟩ := h.root hr
  rw [hnr, Option.some.injEq] at hnr'
  subst hnr'
  have hrn : r ≠ t.next := (h.lt_next hnr).ne
  have hdvd := h.shift_dvd hnr
  constructor
  case fresh =>
    intro x hx
    have hx' : t.next + 1 ≤ x := hx
    have hlt := h.lt_next hnr
    rw [Tree.raise_node, if_neg (by omega), if_neg (by omega)]
    exact h.fresh x (by omega)
  case ok =>
    intro x nx hx
    rcases raise_eq_some hx with ⟨-, rfl⟩ | ⟨-, ⟨-, rfl⟩ | ⟨-, hx⟩⟩
    · exact ⟨(h.ok hnr).shift_le, (h.ok hnr).shift_dvd, (h.ok hnr).count_eq, (h.ok hnr).leaf,
        (h.ok hnr).top⟩
    · exact .top_node hs (by omega) (by simp) (fun hz ↦ absurd hz (by omega))
    · exact h.ok hx
  case child =>
    intro x nx o hx hsx ho
    have hold : ∀ ny : Node, t.node x = some ny → ny.shift = nx.shift → ny.slots o = nx.slots o →
        ∃ y nc, nx.slots o = .node y ∧ (t.raise r nr).node y = some nc ∧
          nc.shift + 6 = nx.shift ∧ nc.parent = some x ∧ nc.offset = o := by
      intro ny hny hshift hsl
      rw [← hsl] at ho ⊢
      rw [← hshift] at hsx ⊢
      obtain ⟨y, nc, hy, hnc, hsc, hparc, hoff⟩ := h.child hny hsx ho
      have hyr : y ≠ r := by
        rintro rfl
        rw [hnr, Option.some.injEq] at hnc
        rw [← hnc, hrpar] at hparc
        exact absurd hparc (by simp)
      obtain ⟨nc', hnc', hsc', hparc', hoff'⟩ := raise_stays h nr hyr nc hnc
      exact ⟨y, nc', hy, hnc', by omega, hparc'.trans hparc, hoff'.trans hoff⟩
    rcases raise_eq_some hx with ⟨rfl, rfl⟩ | ⟨-, ⟨rfl, rfl⟩ | ⟨-, hx⟩⟩
    · exact hold nr hnr rfl rfl
    · have ho0 : o = 0 := by
        by_contra hne
        exact ho (by rw [topNode_slots, if_neg hne])
      subst ho0
      exact ⟨r, _, by rw [topNode_slots, if_pos rfl], raise_self t r nr, rfl, rfl, hroff⟩
    · exact hold nx hx rfl rfl
  case parent =>
    intro x nx y hx hy
    have hold : ∀ ny : Node, t.node y = some ny → nx.shift + 6 = ny.shift →
        ny.slots nx.offset = .node x → ∃ ny', (t.raise r nr).node y = some ny' ∧
          nx.shift + 6 = ny'.shift ∧ ny'.slots nx.offset = .node x := by
      intro ny hny hsy hslot
      by_cases hyr : y = r
      · subst hyr
        rw [hnr, Option.some.injEq] at hny
        subst hny
        exact ⟨_, raise_self t _ _, hsy, hslot⟩
      · exact ⟨ny, by rw [Tree.raise_node, if_neg hyr, if_neg (h.lt_next hny).ne, hny], hsy, hslot⟩
    rcases raise_eq_some hx with ⟨rfl, rfl⟩ | ⟨-, ⟨-, rfl⟩ | ⟨-, hx⟩⟩
    · cases hy
      refine ⟨_, raise_top h hnr, rfl, ?_⟩
      show (topNode (nr.shift + 6) (.node x)).slots nr.offset = .node x
      rw [topNode_slots, if_pos hroff]
    · exact absurd hy (by simp [topNode])
    · obtain ⟨ny, hny, hsy, hslot⟩ := h.parent hx hy
      exact hold ny hny hsy hslot
  case orphan =>
    intro x nx hx hn
    rcases raise_eq_some hx with ⟨-, rfl⟩ | ⟨hxr, ⟨rfl, -⟩ | ⟨-, hx⟩⟩
    · exact absurd hn (by simp)
    · rfl
    · have hroot := h.orphan hx hn
      rw [hr, Entry.node.injEq] at hroot
      exact absurd hroot.symm hxr
  case root =>
    intro x hx
    have hx' : Entry.node t.next = .node x := hx
    rw [Entry.node.injEq] at hx'
    subst hx'
    exact ⟨_, raise_top h hnr, rfl, rfl⟩
  case raw =>
    intro x hx
    exact absurd (show Entry.node t.next = .item x from hx) (by simp)

theorem raise_holds (h : WF t) (hr : t.rnode = .node r) (hnr : t.node r = some nr)
    (i : BitVec 64) (x : Item) : Holds (t.raise r nr) i x ↔ Holds t i x := by
  apply holds_congr h
  · intro x
    rw [hr]
    exact iff_of_false (fun hx ↦ absurd (show Entry.node t.next = .item x from hx) (by simp))
      (by simp)
  · exact fun _ hb ↦ hb.raise h hr hnr
  · intro y o x
    constructor
    · rintro ⟨ny, hny, hz, hslot⟩
      rcases raise_eq_some hny with ⟨rfl, rfl⟩ | ⟨-, ⟨-, rfl⟩ | ⟨-, hny⟩⟩
      · exact ⟨nr, hnr, hz, hslot⟩
      · exact absurd hz (by simp [topNode])
      · exact ⟨ny, hny, hz, hslot⟩
    · rintro ⟨ny, hny, hz, hslot⟩
      by_cases hyr : y = r
      · subst hyr
        rw [hnr, Option.some.injEq] at hny
        subst hny
        exact ⟨_, raise_self t _ _, hz, hslot⟩
      · exact ⟨ny, by rw [Tree.raise_node, if_neg hyr, if_neg (h.lt_next hny).ne, hny], hz, hslot⟩

end Raise

/-! ### The root taken away -/

section Lower

variable {t : Tree} {r c : Nat} {nr nc : Node}

theorem lower_eq_some {x : Nat} {nx : Node} (hx : (t.lower r c nc).node x = some nx) :
    x ≠ r ∧ (x = c ∧ nx = { nc with parent := none } ∨ x ≠ c ∧ t.node x = some nx) := by
  rw [Tree.lower_node] at hx
  split at hx
  · exact absurd hx (by simp)
  · next hxr =>
    split at hx
    · next hxc => exact ⟨hxr, .inl ⟨hxc, (Option.some.inj hx).symm⟩⟩
    · next hxc => exact ⟨hxr, .inr ⟨hxc, hx⟩⟩

theorem lower_stays (nc : Node) {x : Nat} (hxr : x ≠ r) (hxc : x ≠ c) :
    Stays t (t.lower r c nc) x :=
  fun nx hx ↦ ⟨nx, by rw [Tree.lower_node, if_neg hxr, if_neg hxc, hx], rfl, rfl, rfl⟩

theorem lower_child (t : Tree) (hcr : c ≠ r) :
    (t.lower r c nc).node c = some { nc with parent := none } := by
  rw [Tree.lower_node, if_neg hcr, if_pos rfl]

/-- The only child of the root hangs under slot 0. -/
theorem WF.eq_of_parent_root (h : WF t) (hnr : t.node r = some nr) (hu : nr.used = 1)
    (hc : nr.slots 0 = .node c) {x : Nat} {nx : Node} (hx : t.node x = some nx)
    (hpar : nx.parent = some r) : x = c := by
  obtain ⟨nr', hnr', -, hslot⟩ := h.parent hx hpar
  rw [hnr, Option.some.injEq] at hnr'
  subst hnr'
  by_cases hoff : nx.offset = 0
  · rw [hoff, hc, Entry.node.injEq] at hslot
    exact hslot.symm
  · rw [Slots.occupied_eq_one hu (by rw [hc]; simp) hoff] at hslot
    exact absurd hslot (by simp)

theorem Covers.lower (h : WF t) (hr : t.rnode = .node r) (hnr : t.node r = some nr)
    (hu : nr.used = 1) (hc : nr.slots 0 = .node c) (hcr : c ≠ r) {x b : Nat}
    (hcov : Covers t c 0) (hb : Covers t x b) (hxr : x ≠ r) : Covers (t.lower r c nc) x b := by
  induction hb with
  | root hx hn =>
    have hroot := h.orphan hx hn
    rw [hr, Entry.node.injEq] at hroot
    exact absurd hroot.symm hxr
  | @child x y b nx hx hy hb ih =>
    by_cases hxc : x = c
    · subst hxc
      rw [(Covers.child hx hy hb).block_unique hcov]
      exact .root (lower_child t hcr) rfl
    · have hyr : y ≠ r := by
        rintro rfl
        exact hxc (h.eq_of_parent_root hnr hu hc hx hy)
      obtain ⟨nx', hnx, -, hpar, hoff⟩ := lower_stays nc hxr hxc _ hx
      rw [← hoff]
      exact .child hnx (hpar.trans hy) (ih hyr)

/-- What the root says about its child in slot 0. -/
theorem WF.root_child (h : WF t) (hr : t.rnode = .node r) (hnr : t.node r = some nr)
    (hs : nr.shift ≠ 0) (hc : nr.slots 0 ≠ .null) :
    ∃ c nc, nr.slots 0 = .node c ∧ t.node c = some nc ∧ nc.shift + 6 = nr.shift ∧
      nc.parent = some r ∧ nc.offset = 0 ∧ c ≠ r ∧ Covers t c 0 := by
  obtain ⟨c, nc, hslot, hnc, hsc, hpar, hoff⟩ := h.child hnr hs hc
  refine ⟨c, nc, hslot, hnc, hsc, hpar, hoff, ?_, ?_⟩
  · rintro rfl
    rw [hnr, Option.some.injEq] at hnc
    rw [hnc] at hsc
    omega
  · have hcov := Covers.child hnc hpar (h.root_covers hr)
    rw [hoff] at hcov
    exact hcov

theorem WF.lower (h : WF t) (hr : t.rnode = .node r) (hnr : t.node r = some nr)
    (hu : nr.used = 1) (hc : nr.slots 0 = .node c) (hnc : t.node c = some nc)
    (hpar : nc.parent = some r) (hoff : nc.offset = 0) (hcr : c ≠ r) : WF (t.lower r c nc) := by
  have hcr' : (t.lower r c nc).node c = some { nc with parent := none } := lower_child t hcr
  constructor
  case fresh =>
    intro x hx
    have hx' : t.next ≤ x := hx
    rw [Tree.lower_node]
    split
    · rfl
    · rw [if_neg ((h.lt_next hnc).trans_le hx').ne']
      exact h.fresh x hx'
  case ok =>
    intro x nx hx
    obtain ⟨-, ⟨-, rfl⟩ | ⟨-, hx⟩⟩ := lower_eq_some hx
    · exact ⟨(h.ok hnc).shift_le, (h.ok hnc).shift_dvd, (h.ok hnc).count_eq, (h.ok hnc).leaf,
        (h.ok hnc).top⟩
    · exact h.ok hx
  case child =>
    intro x nx o hx hsx ho
    obtain ⟨hxr, hor⟩ := lower_eq_some hx
    have hold : ∃ ny, t.node x = some ny ∧ ny.shift = nx.shift ∧ ny.slots o = nx.slots o := by
      rcases hor with ⟨rfl, rfl⟩ | ⟨-, hx⟩
      · exact ⟨nc, hnc, rfl, rfl⟩
      · exact ⟨nx, hx, rfl, rfl⟩
    obtain ⟨ny, hny, hshift, hsl⟩ := hold
    rw [← hsl] at ho ⊢
    rw [← hshift] at hsx ⊢
    obtain ⟨y, nd, hy, hnd, hsd, hpard, hoffd⟩ := h.child hny hsx ho
    have hyr : y ≠ r := by
      rintro rfl
      obtain ⟨nr', hnr', hrpar, -⟩ := h.root hr
      rw [hnd, Option.some.injEq] at hnr'
      rw [← hnr', hpard] at hrpar
      exact absurd hrpar (by simp)
    have hyc : y ≠ c := by
      rintro rfl
      rw [hnc, Option.some.injEq] at hnd
      rw [← hnd, hpar, Option.some.injEq] at hpard
      exact hxr hpard.symm
    obtain ⟨nd', hnd', hsd', hpard', hoffd'⟩ := lower_stays nc hyr hyc nd hnd
    exact ⟨y, nd', hy, hnd', by omega, hpard'.trans hpard, hoffd'.trans hoffd⟩
  case parent =>
    intro x nx y hx hy
    obtain ⟨hxr, ⟨-, rfl⟩ | ⟨hxc, hx'⟩⟩ := lower_eq_some hx
    · exact absurd hy (by simp)
    · obtain ⟨ny, hny, hsy, hslot⟩ := h.parent hx' hy
      have hyr : y ≠ r := by
        rintro rfl
        exact hxc (h.eq_of_parent_root hnr hu hc hx' hy)
      by_cases hyc : y = c
      · subst hyc
        rw [hnc, Option.some.injEq] at hny
        subst hny
        exact ⟨_, hcr', hsy, hslot⟩
      · exact ⟨ny, by rw [Tree.lower_node, if_neg hyr, if_neg hyc, hny], hsy, hslot⟩
  case orphan =>
    intro x nx hx hn
    obtain ⟨hxr, ⟨rfl, -⟩ | ⟨-, hx⟩⟩ := lower_eq_some hx
    · rfl
    · have hroot := h.orphan hx hn
      rw [hr, Entry.node.injEq] at hroot
      exact absurd hroot.symm hxr
  case root =>
    intro x hx
    have hx' : Entry.node c = .node x := hx
    rw [Entry.node.injEq] at hx'
    subst hx'
    exact ⟨_, hcr', rfl, hoff⟩
  case raw =>
    intro x hx
    exact absurd (show Entry.node c = .item x from hx) (by simp)

theorem lower_holds (h : WF t) (hr : t.rnode = .node r) (hnr : t.node r = some nr)
    (hs : nr.shift ≠ 0) (hu : nr.used = 1) (hc : nr.slots 0 = .node c)
    (hnc : t.node c = some nc) (hcr : c ≠ r) (hcov : Covers t c 0) (i : BitVec 64) (x : Item) :
    Holds (t.lower r c nc) i x ↔ Holds t i x := by
  apply holds_congr h
  · intro x
    rw [hr]
    exact iff_of_false (fun hx ↦ absurd (show Entry.node c = .item x from hx) (by simp)) (by simp)
  · exact fun hx hb ↦ hcov.lower h hr hnr hu hc hcr hb (lower_eq_some hx).1
  · intro y o x
    constructor
    · rintro ⟨ny, hny, hz, hslot⟩
      obtain ⟨-, ⟨rfl, rfl⟩ | ⟨-, hny⟩⟩ := lower_eq_some hny
      · exact ⟨nc, hnc, hz, hslot⟩
      · exact ⟨ny, hny, hz, hslot⟩
    · rintro ⟨ny, hny, hz, hslot⟩
      have hyr : y ≠ r := by
        rintro rfl
        rw [hnr, Option.some.injEq] at hny
        rw [hny] at hs
        exact hs hz
      by_cases hyc : y = c
      · subst hyc
        rw [hnc, Option.some.injEq] at hny
        subst hny
        exact ⟨_, lower_child t hcr, hz, hslot⟩
      · exact ⟨ny, by rw [Tree.lower_node, if_neg hyr, if_neg hyc, hny], hz, hslot⟩

end Lower

/-! ### A single node -/

section Sole

variable {t : Tree}

theorem sole_eq_some (h : ∀ p, t.node p = none) {nd : Node} {x : Nat} {nx : Node}
    (hx : (t.sole nd).node x = some nx) : x = t.next ∧ nx = nd := by
  rw [Tree.sole_node] at hx
  split at hx
  · next hxn => exact ⟨hxn, (Option.some.inj hx).symm⟩
  · rw [h] at hx
    exact absurd hx (by simp)

theorem sole_new (t : Tree) (nd : Node) : (t.sole nd).node t.next = some nd := by
  rw [Tree.sole_node, if_pos rfl]

theorem WF.sole (h : ∀ p, t.node p = none) {nd : Node} (hok : nd.OK) (hpar : nd.parent = none)
    (hoff : nd.offset = 0) (hinner : nd.shift ≠ 0 → ∀ o, nd.slots o = .null) :
    WF (t.sole nd) := by
  constructor
  case fresh =>
    intro x hx
    have hx' : t.next + 1 ≤ x := hx
    rw [Tree.sole_node, if_neg (by omega)]
    exact h x
  case ok =>
    intro x nx hx
    obtain ⟨-, rfl⟩ := sole_eq_some h hx
    exact hok
  case child =>
    intro x nx o hx hs ho
    obtain ⟨-, rfl⟩ := sole_eq_some h hx
    exact absurd (hinner hs o) ho
  case parent =>
    intro x nx y hx hy
    obtain ⟨-, rfl⟩ := sole_eq_some h hx
    rw [hpar] at hy
    exact absurd hy (by simp)
  case orphan =>
    intro x nx hx _
    obtain ⟨rfl, -⟩ := sole_eq_some h hx
    rfl
  case root =>
    intro x hx
    have hx' : Entry.node t.next = .node x := hx
    rw [Entry.node.injEq] at hx'
    subst hx'
    exact ⟨nd, sole_new t nd, hpar, hoff⟩
  case raw =>
    intro x hx
    exact absurd (show Entry.node t.next = .item x from hx) (by simp)

theorem sole_holds (h : ∀ p, t.node p = none) {nd : Node} (hpar : nd.parent = none)
    (i : BitVec 64) (x : Item) : Holds (t.sole nd) i x ↔
      i.toNat / 64 = 0 ∧ nd.shift = 0 ∧ nd.slots (slotOffset i 0) = .item x := by
  constructor
  · rintro (⟨hx, -⟩ | ⟨p, nd', hp, hs, hx⟩)
    · exact absurd (show Entry.node t.next = .item x from hx) (by simp)
    · obtain ⟨rfl, rfl⟩ := sole_eq_some h hp.1
      have hzero := hp.2.block_unique (.root hp.1 hpar)
      rw [hs] at hzero
      exact ⟨hzero, hs, hx⟩
  · rintro ⟨hi, hs, hx⟩
    refine .inr ⟨t.next, nd, ⟨sole_new t nd, ?_⟩, hs, hx⟩
    rw [hs, show i.toNat / 2 ^ (0 + 6) = 0 from hi]
    exact .root (sole_new t nd) hpar

end Sole

/-- A tree whose root is no node: the invariant says only that it has no nodes. -/
theorem WF.of_no_node {t : Tree} (h : ∀ p, t.node p = none) (hr : ∀ r, t.rnode ≠ .node r)
    (hraw : ∀ x, t.rnode = .item x → x.tagged = false) : WF t := by
  constructor
  case fresh =>
    exact fun p _ ↦ h p
  case ok =>
    intro p nd hp
    rw [h] at hp
    exact absurd hp (by simp)
  case child =>
    intro p nd o hp
    rw [h] at hp
    exact absurd hp (by simp)
  case parent =>
    intro p nd q hp
    rw [h] at hp
    exact absurd hp (by simp)
  case orphan =>
    intro p nd hp
    rw [h] at hp
    exact absurd hp (by simp)
  case root =>
    exact fun hx ↦ absurd hx (hr _)
  case raw =>
    exact fun hx ↦ hraw _ hx

/-! ### Stores into a leaf -/

section Leaf

variable {t : Tree} {p : Nat} {nd nd' : Node}

theorem leaf_stays (hp : t.node p = some nd) (hs : nd'.shift = nd.shift)
    (hpar : nd'.parent = nd.parent) (hoff : nd'.offset = nd.offset) (x : Nat) :
    Stays t (t.setNode p (some nd')) x := by
  intro nx hx
  by_cases hxp : x = p
  · subst hxp
    rw [hp, Option.some.injEq] at hx
    subst hx
    exact ⟨nd', Tree.setNode_self _ _ _, hs, hpar, hoff⟩
  · exact ⟨nx, by rw [Tree.setNode_of_ne hxp, hx], rfl, rfl, rfl⟩

theorem WF.setLeaf (h : WF t) (hp : t.node p = some nd) (hz : nd.shift = 0) (hok : nd'.OK)
    (hs : nd'.shift = nd.shift) (hpar : nd'.parent = nd.parent) (hoff : nd'.offset = nd.offset) :
    WF (t.setNode p (some nd')) := by
  have hstay := leaf_stays hp hs hpar hoff
  have hback : ∀ {x nx}, (t.setNode p (some nd')).node x = some nx →
      x = p ∧ nx = nd' ∨ x ≠ p ∧ t.node x = some nx := by
    intro x nx hx
    rw [Tree.setNode_node] at hx
    split at hx
    · next hxp => exact .inl ⟨hxp, (Option.some.inj hx).symm⟩
    · next hxp => exact .inr ⟨hxp, hx⟩
  constructor
  case fresh =>
    intro x hx
    have hx' : t.next ≤ x := hx
    rw [Tree.setNode_of_ne ((h.lt_next hp).trans_le hx').ne']
    exact h.fresh x hx'
  case ok =>
    intro x nx hx
    rcases hback hx with ⟨-, rfl⟩ | ⟨-, hx⟩
    · exact hok
    · exact h.ok hx
  case child =>
    intro x nx o hx hsx ho
    rcases hback hx with ⟨-, rfl⟩ | ⟨-, hx⟩
    · exact absurd (hs.trans hz) hsx
    · obtain ⟨y, nc, hy, hnc, hsc, hparc, hoffc⟩ := h.child hx hsx ho
      obtain ⟨nc', hnc', hsc', hparc', hoffc'⟩ := hstay y nc hnc
      exact ⟨y, nc', hy, hnc', by omega, hparc'.trans hparc, hoffc'.trans hoffc⟩
  case parent =>
    intro x nx y hx hy
    have hold : ∃ nx', t.node x = some nx' ∧ nx'.shift = nx.shift ∧ nx'.parent = nx.parent ∧
        nx'.offset = nx.offset := by
      rcases hback hx with ⟨rfl, rfl⟩ | ⟨-, hx⟩
      · exact ⟨nd, hp, hs.symm, hpar.symm, hoff.symm⟩
      · exact ⟨nx, hx, rfl, rfl, rfl⟩
    obtain ⟨nx', hnx', hsx, hparx, hoffx⟩ := hold
    obtain ⟨ny, hny, hsy, hslot⟩ := h.parent hnx' (hparx.trans hy)
    rw [hsx] at hsy
    rw [hoffx] at hslot
    have hyp : y ≠ p := by
      rintro rfl
      rw [hp, Option.some.injEq] at hny
      rw [← hny, hz] at hsy
      omega
    exact ⟨ny, by rw [Tree.setNode_of_ne hyp, hny], hsy, hslot⟩
  case orphan =>
    intro x nx hx hn
    rcases hback hx with ⟨rfl, rfl⟩ | ⟨-, hx⟩
    · exact h.orphan hp (hpar ▸ hn)
    · exact h.orphan hx hn
  case root =>
    intro x hx
    obtain ⟨nx, hnx, hparx, hoffx⟩ := h.root hx
    obtain ⟨nx', hnx', -, hparx', hoffx'⟩ := hstay x nx hnx
    exact ⟨nx', hnx', hparx'.trans hparx, hoffx'.trans hoffx⟩
  case raw =>
    intro x hx
    exact h.raw hx

/-- The store shows at the index of the slot and nowhere else. -/
theorem setLeaf_holds (h : WF t) {i : BitVec 64} (hp : On t i p nd) (hz : nd.shift = 0)
    (hs : nd'.shift = nd.shift) (hpar : nd'.parent = nd.parent) (hoff : nd'.offset = nd.offset)
    (hok : nd'.OK) {e : Entry} (hslots : nd'.slots = Function.update nd.slots (slotOffset i 0) e)
    (j : BitVec 64) (x : Item) : Holds (t.setNode p (some nd')) j x ↔
      if j = i then e = .item x else Holds t j x := by
  have h' := h.setLeaf hp.1 hz hok hs hpar hoff
  have hstay := leaf_stays hp.1 hs hpar hoff
  have hz' : nd'.shift = 0 := hs.trans hz
  by_cases hblock : j.toNat / 2 ^ 6 = i.toNat / 2 ^ 6
  · have hj : On t j p nd := hp.congr (by rw [hz]; exact hblock.symm)
    have hj' : On (t.setNode p (some nd')) j p nd' :=
      ⟨Tree.setNode_self _ _ _, by rw [hs]; exact hj.2.stays hstay⟩
    rw [h'.holds_of_leaf hj' hz', h.holds_of_leaf hj hz, hslots, Function.update_apply]
    by_cases hji : j = i
    · rw [if_pos hji, hji, if_pos rfl]
    · rw [if_neg hji, if_neg (fun ho ↦ hji (eq_of_block_offset hblock ho))]
  · have hji : j ≠ i := fun hji ↦ hblock (by rw [hji])
    have hp' : On (t.setNode p (some nd')) i p nd' :=
      ⟨Tree.setNode_self _ _ _, by rw [hs]; exact hp.2.stays hstay⟩
    rw [if_neg hji]
    constructor
    · rintro (⟨hx, hj⟩ | ⟨q, nq, hq, hsq, hx⟩)
      · exact .inl ⟨hx, hj⟩
      · have hqp : q ≠ p := by
          rintro rfl
          have heq := hq.eq_of_node hp'
          subst heq
          have hb := hq.block_eq hp'
          rw [hsq] at hb
          exact hblock hb
        have hqt : t.node q = some nq := by rw [← Tree.setNode_of_ne hqp (some nd'), hq.1]
        obtain ⟨b, hb⟩ := h.exists_covers hqt
        exact .inr ⟨q, nq, ⟨hqt, by rw [hq.2.block_unique (hb.stays hstay)]; exact hb⟩, hsq, hx⟩
    · rintro (⟨hx, hj⟩ | ⟨q, nq, hq, hsq, hx⟩)
      · exact .inl ⟨hx, hj⟩
      · have hqp : q ≠ p := by
          rintro rfl
          have heq := hq.eq_of_node hp
          subst heq
          have hb := hq.block_eq hp
          rw [hsq] at hb
          exact hblock hb
        exact .inr ⟨q, nq, ⟨by rw [Tree.setNode_of_ne hqp, hq.1], hq.2.stays hstay⟩, hsq, hx⟩

end Leaf

end Jeopardy.RadixTree
