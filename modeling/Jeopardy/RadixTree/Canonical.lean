import Jeopardy.RadixTree.Growth
import Jeopardy.RadixTree.Invariant

/-!
# The shape of a tree follows from its contents

A tree that was only inserted into, with enough memory, has the nodes on the ways of its indices
and of index 0 up to the least level that holds them all, and no others. So two such trees with
the same contents are the same tree, but for the addresses of the nodes.
-/

namespace Jeopardy.RadixTree

/-! ### Equality up to addresses -/

/-- The entry with the address of its node, if it is one, replaced. -/
def Entry.rename (φ : Nat → Nat) : Entry → Entry
  | .null => .null
  | .item x => .item x
  | .node p => .node (φ p)

/-- The node with the addresses in it replaced; the other fields stay. -/
def Node.rename (nd : Node) (φ : Nat → Nat) : Node :=
  { nd with parent := nd.parent.map φ, slots := fun o ↦ (nd.slots o).rename φ }

/-- `t'` is `t` with the node at every `p` moved to `φ p`. -/
structure Renamed (φ : Nat → Nat) (t t' : Tree) : Prop where
  root : t'.rnode = t.rnode.rename φ
  node : ∀ p nd, t.node p = some nd → t'.node (φ p) = some (nd.rename φ)
  injective : ∀ p q nd nq, t.node p = some nd → t.node q = some nq → φ p = φ q → p = q
  surjective : ∀ q nq, t'.node q = some nq → ∃ p nd, t.node p = some nd ∧ φ p = q

/-- The trees agree node by node in shift, offset, count, number of values, parent and slots. -/
def SameTree (t t' : Tree) : Prop := ∃ φ, Renamed φ t t'

/-! ### What insertions keep -/

/-- The number of slots that hold a value entry. -/
def Node.values (nd : Node) : Nat := Slots.occupied false (fun o ↦ xaIsValue (nd.slots o))

/-- Every node counts its value entries. -/
def ValuesCounted (t : Tree) : Prop :=
  ∀ p nd, t.node p = some nd → nd.nr_values = BitVec.ofNat 32 nd.values

/-- The leaf on the way of index 0 is there. -/
def HasFirstLeaf (t : Tree) : Prop := ∃ p nd, On t 0 p nd ∧ nd.shift = 0

theorem values_of_not_value {nd : Node} (h : ∀ o, xaIsValue (nd.slots o) = false) :
    nd.values = 0 := Slots.occupied_eq_zero_iff.mpr h

theorem attach_values {nd : Node} {o : Fin 64} (ho : nd.slots o = .null) (c : Nat) :
    (nd.attach o c).values = nd.values := by
  have hsame : (fun o' ↦ xaIsValue ((nd.attach o c).slots o'))
      = fun o' ↦ xaIsValue (nd.slots o') := by
    funext o'
    rw [Node.attach_slots]
    split
    · next h => rw [h, ho]; rfl
    · rfl
  rw [Node.values, hsame, Node.values]

theorem fill_values {nd : Node} {o : Fin 64} (ho : nd.slots o = .null) (x : Item) :
    (nd.fill o x).values = nd.values + if xaIsValue (.item x) then 1 else 0 := by
  have hfill : (fun o' ↦ xaIsValue ((nd.fill o x).slots o')) =
      Function.update (fun o' ↦ xaIsValue (nd.slots o')) o (xaIsValue (.item x)) := by
    funext o'
    rw [show (nd.fill o x).slots o' = if o' = o then .item x else nd.slots o' from
      Function.update_apply _ _ _ _, Function.update_apply]
    split <;> rfl
  have hold : (fun o' ↦ xaIsValue (nd.slots o')) o = false := by
    change xaIsValue (nd.slots o) = false
    rw [ho]
    rfl
  rw [Node.values, hfill, Node.values]
  cases hx : xaIsValue (.item x) with
  | true => exact Slots.occupied_fill hold (by decide)
  | false =>
    have hsame : Function.update (fun o' ↦ xaIsValue (nd.slots o')) o false =
        fun o' ↦ xaIsValue (nd.slots o') := Function.update_eq_self_iff.mpr hold.symm
    rw [hsame, if_neg Bool.false_ne_true, Nat.add_zero]

section Grows

variable {t t' : Tree} {b : Bool}

theorem Grows.valuesCounted (h : Grows t t' b) (hv : ValuesCounted t) : ValuesCounted t' := by
  induction h with
  | refl => exact hv
  | fail _ _ ih => exact ih
  | @raise t₁ r nr _ hr hnr hs hoom ih =>
    intro p nd hp
    rcases raise_eq_some hp with ⟨rfl, rfl⟩ | ⟨-, ⟨-, rfl⟩ | ⟨-, hp⟩⟩
    · exact ih p nr hnr
    · rw [values_of_not_value]
      · rfl
      · intro o
        rw [topNode_slots]
        split <;> rfl
    · exact ih p nd hp
  | @hang t₁ q np o _ hq hs ho htop hoom ih =>
    intro p nd hp
    rw [Tree.hang_node] at hp
    split at hp
    · cases hp
      rw [attach_values ho]
      exact ih q np hq
    · split at hp
      · cases hp
        rw [values_of_not_value (fun _ ↦ rfl)]
        rfl
      · exact ih p nd hp

theorem Grows.hasFirstLeaf (h : Grows t t' b) (hw : WF t) (hf : HasFirstLeaf t) :
    HasFirstLeaf t' := by
  induction h with
  | refl => exact hf
  | fail _ _ ih =>
    obtain ⟨p, nd, hp, hz⟩ := ih
    exact ⟨p, nd, ⟨hp.1, hp.2.skip⟩, hz⟩
  | @raise t₁ r nr h₁ hr hnr hs hoom ih =>
    obtain ⟨p, nd, hp, hz⟩ := ih
    have hw₁ := h₁.wf hw
    have hcov := hp.2.raise hw₁ hr hnr
    by_cases hpr : p = r
    · subst hpr
      obtain rfl : nd = nr := Option.some.inj (hp.1.symm.trans hnr)
      exact ⟨p, _, ⟨raise_self t₁ p nd, hcov⟩, hz⟩
    · obtain ⟨nd', hp', hsh, -⟩ := raise_stays hw₁ nr hpr nd hp.1
      exact ⟨p, nd', ⟨hp', hsh ▸ hcov⟩, hsh.trans hz⟩
  | @hang t₁ q np o h₁ hq hs ho htop hoom ih =>
    obtain ⟨p, nd, hp, hz⟩ := ih
    have hstay := stays_hang (o := o) (h₁.wf hw) hq
    obtain ⟨nd', hp', hsh, -⟩ := hstay p nd hp.1
    exact ⟨p, nd', ⟨hp', hsh ▸ hp.2.stays hstay⟩, hsh.trans hz⟩

end Grows

/-- What makes the shape of a tree follow from its contents. -/
structure Neat (t : Tree) : Prop where
  slim : Slim t
  tall : Tall t
  values : ValuesCounted t
  first : HasFirstLeaf t

theorem neat_emptyTree (oom : Nat → Bool) : Neat (emptyTree oom) := by
  obtain ⟨-, hslim, htall⟩ := stands_emptyTree oom
  have hbase : ∀ p, (⟨fun _ ↦ none, 1, oom, .null, []⟩ : Tree).node p = none := fun _ ↦ rfl
  have hnew : (emptyTree oom).node 1 = some (emptyNode 0 0 none) := rfl
  refine ⟨hslim, htall, fun p nd hp ↦ ?_, 1, _, ⟨hnew, .root hnew rfl⟩, rfl⟩
  obtain ⟨-, rfl⟩ := sole_eq_some hbase hp
  rw [values_of_not_value (fun _ ↦ rfl)]
  rfl

/-- One insertion, with memory. -/
theorem Neat.insert {t t' : Tree} {f : BitVec 64 → Option Item} (hn : Neat t) (h : Filling t f)
    {i : BitVec 64} {x : Item} {e : Int} (hrun : radixTreeInsert t i x = .ok (t', e)) :
    Neat t' := by
  obtain ⟨r, hr⟩ := h.root
  obtain ⟨t₂, e₂, hrun₂, hins⟩ := radixTreeInsert_spec h.stands.wf i (x := x) (.inr ⟨r, hr⟩)
  rw [hrun, Except.ok.injEq, Prod.mk.injEq] at hrun₂
  obtain ⟨rfl, rfl⟩ := hrun₂
  cases hins with
  | enomem _ _ _ _ hoom =>
    have hfailed := hoom.2
    rw [h.oom] at hfailed
    cases hfailed
  | present _ => exact hn
  | stored hwf hoom hnext hs hroot hnone hholds hslim htall =>
    generalize he : (0 : Int) = e at hrun
    cases radixTreeInsert_grows h.stands.wf hr hrun with
    | enomem _ => exact absurd he (by decide)
    | present _ => exact absurd he (by decide)
    | @stored t₁ q nq o hg hq hz ho =>
      have hval := hg.valuesCounted hn.values
      obtain ⟨p, nd, hp, hz'⟩ := hg.hasFirstLeaf h.stands.wf hn.first
      have hstay := leaf_stays hq (rfl : (nq.fill o x).shift = nq.shift) rfl rfl
      obtain ⟨nd', hp', hsh, -⟩ := hstay p nd hp.1
      refine ⟨hslim hn.slim, htall hn.tall, fun y ny hy ↦ ?_,
        p, nd', ⟨hp', hsh ▸ hp.2.stays hstay⟩, hsh.trans hz'⟩
      rw [Tree.setNode_node] at hy
      split at hy
      · cases hy
        rw [fill_values ho, BitVec.ofNat_add, ← hval q nq hq, Node.fill]
        simp only []
        split <;> simp
      · exact hval y ny hy

theorem Neat.run {t t' : Tree} {f : BitVec 64 → Option Item} (hn : Neat t) (h : Filling t f)
    {inserts : List (BitVec 64 × Item)} {rs : List Reply}
    (hrun : run t (inserts.map (fun p ↦ .insert p.1 p.2)) = .ok (t', rs)) : Neat t' := by
  induction inserts generalizing t f rs with
  | nil =>
    obtain ⟨rfl, -⟩ := Prod.mk.inj (Except.ok.inj hrun)
    exact hn
  | cons p inserts ih =>
    rw [List.map_cons, RadixTree.run] at hrun
    obtain ⟨⟨t₁, r₁⟩, hstep, hrun⟩ := Fault.bind_eq_ok.mp hrun
    obtain ⟨⟨t₂, rs₂⟩, hrest, hrun⟩ := Fault.bind_eq_ok.mp hrun
    obtain ⟨⟨t₃, e⟩, hins, hstep⟩ := Fault.bind_eq_ok.mp hstep
    simp only [pure, Except.pure, Except.ok.injEq, Prod.mk.injEq] at hrun hstep
    obtain ⟨rfl, -⟩ := hrun
    obtain ⟨rfl, -⟩ := hstep
    have hn₁ := hn.insert h hins
    rcases h.insert p.1 p.2 with ⟨-, t₄, hins', hf⟩ | ⟨-, hins'⟩
    · rw [hins, Except.ok.injEq, Prod.mk.injEq] at hins'
      obtain ⟨rfl, -⟩ := hins'
      exact ih hn₁ hf hrest
    · rw [hins, Except.ok.injEq, Prod.mk.injEq] at hins'
      obtain ⟨rfl, -⟩ := hins'
      exact ih hn₁ h hrest

/-! ### Which nodes there are -/

section Levels

variable {t : Tree} {f : BitVec 64 → Option Item}

/-- The root is at the least level that holds every index. -/
theorem Neat.root_shift_le {t' : Tree} (h : Stands t f) (hn : Neat t) (h' : Stands t' f)
    {r r' : Nat} {nr nr' : Node} (hr : t.rnode = .node r) (hnr : t.node r = some nr)
    (hr' : t'.rnode = .node r') (hnr' : t'.node r' = some nr') : nr.shift ≤ nr'.shift := by
  by_contra hlt
  obtain ⟨a, ha⟩ := h.wf.shift_dvd hnr
  obtain ⟨b, hb⟩ := h'.wf.shift_dvd hnr'
  obtain ⟨o, ho, hslot⟩ := hn.tall r nr hr hnr (by omega)
  obtain ⟨q, nc, -, hq, hsc, hpar, hoff⟩ := h.wf.child hnr (by omega) hslot
  have ho' : o.val ≠ 0 := fun h0 ↦ ho (Fin.ext h0)
  have hcov := Covers.child hq hpar (h.wf.root_covers hr)
  rw [hoff] at hcov
  obtain ⟨i, x, hx, hblock⟩ := exists_holds h.wf hn.slim hq hcov (by omega)
  -- the other tree holds this index, so its root reaches as far
  have hx' := (h'.holds i x).mpr ((h.holds i x).mp hx)
  have hi : i.toNat < 2 ^ (nr'.shift + 6) := by
    rcases hx' with ⟨hroot, -⟩ | ⟨p, nd, hp, -, -⟩
    · rw [hr'] at hroot
      cases hroot
    · have hmax := h'.wf.not_maxindex_lt hp hr' hnr'
      rw [nodeMaxindex, shiftMaxindex_lt_iff] at hmax
      omega
  have hpow : 2 ^ (nr'.shift + 6) ≤ 2 ^ (nc.shift + 6) :=
    Nat.pow_le_pow_right (by decide) (by omega)
  rw [Nat.div_eq_of_lt (by omega)] at hblock
  omega

/-- A node covers the blocks on the ways of the indices held, and of index 0. -/
theorem Neat.node_iff (h : Stands t f) (hn : Neat t) {r : Nat} {nr : Node} (hr : t.rnode = .node r)
    (hnr : t.node r = some nr) (s b : Nat) :
    (∃ p nd, t.node p = some nd ∧ nd.shift = s ∧ Covers t p b) ↔
      6 ∣ s ∧ s ≤ nr.shift ∧ (b = 0 ∨ ∃ i, (f i).isSome ∧ i.toNat / 2 ^ (s + 6) = b) := by
  constructor
  · rintro ⟨p, nd, hp, rfl, hb⟩
    refine ⟨h.wf.shift_dvd hp, ?_, ?_⟩
    · obtain ⟨r', nr', hr', hnr', hor⟩ := h.wf.root_above hb hp
      rw [hr, Entry.node.injEq] at hr'
      subst hr'
      obtain rfl : nr = nr' := Option.some.inj (hnr.symm.trans hnr')
      rcases hor with rfl | hlt
      · rw [Option.some.inj (hp.symm.trans hnr)]
      · exact hlt.le
    · by_cases hb0 : b = 0
      · exact .inl hb0
      · obtain ⟨i, x, hx, hblock⟩ := exists_holds h.wf hn.slim hp hb hb0
        exact .inr ⟨i, by rw [(h.holds i x).mp hx]; rfl, hblock⟩
  · rintro ⟨hdvd, hs, hor⟩
    have hlevel {i : BitVec 64} {p : Nat} {nd : Node} (hp : On t i p nd) (hz : nd.shift = 0) :
        ∃ q nq, t.node q = some nq ∧ nq.shift = s ∧ Covers t q (i.toNat / 2 ^ (s + 6)) := by
      obtain ⟨q, nq, hq, rfl⟩ := h.wf.on_level hr hnr hp (by omega) hs hdvd
      exact ⟨q, nq, hq.1, rfl, hq.2⟩
    rcases hor with rfl | ⟨i, hi, rfl⟩
    · obtain ⟨p, nd, hp, hz⟩ := hn.first
      have := hlevel hp hz
      rwa [show (0 : BitVec 64).toNat = 0 from rfl, Nat.zero_div] at this
    · obtain ⟨x, hx⟩ := Option.isSome_iff_exists.mp hi
      rcases (h.holds i x).mpr hx with ⟨hroot, -⟩ | ⟨p, nd, hp, hz, -⟩
      · rw [hr] at hroot
        cases hroot
      · exact hlevel hp hz

theorem WF.offset_eq (h : WF t) {p b : Nat} {nd : Node} (hp : t.node p = some nd)
    (hb : Covers t p b) : nd.offset.val = b % 64 := by
  cases hb with
  | root hp' hpar =>
    obtain ⟨nr, hnr, -, hoff⟩ := h.root (h.orphan hp' hpar)
    obtain rfl : nd = nr := Option.some.inj (hp.symm.trans hnr)
    rw [hoff]
    rfl
  | child hp' hq hb =>
    have ho := nd.offset.isLt
    rw [hp, Option.some.injEq] at hp'
    subst hp'
    omega

end Levels

/-! ### Two trees with the same contents -/

/-- The nodes at `p` and `p'` are at the same place of their trees. -/
structure Twin (t t' : Tree) (p p' : Nat) (nd nd' : Node) (b : Nat) : Prop where
  left : t.node p = some nd
  right : t'.node p' = some nd'
  shift : nd'.shift = nd.shift
  covers : Covers t p b
  covers' : Covers t' p' b

theorem Twin.symm {t t' : Tree} {p p' b : Nat} {nd nd' : Node} (w : Twin t t' p p' nd nd' b) :
    Twin t' t p' p nd' nd b := ⟨w.right, w.left, w.shift.symm, w.covers', w.covers⟩

/-- Two trees whose shape follows from the same contents. -/
structure Alike (t t' : Tree) (f : BitVec 64 → Option Item) (r r' : Nat) (nr nr' : Node) :
    Prop where
  stands : Stands t f
  stands' : Stands t' f
  neat : Neat t
  neat' : Neat t'
  root : t.rnode = .node r
  root' : t'.rnode = .node r'
  node : t.node r = some nr
  node' : t'.node r' = some nr'

namespace Alike

variable {t t' : Tree} {f : BitVec 64 → Option Item} {r r' p p' b : Nat} {nr nr' nd nd' : Node}

theorem symm (a : Alike t t' f r r' nr nr') : Alike t' t f r' r nr' nr :=
  ⟨a.stands', a.stands, a.neat', a.neat, a.root', a.root, a.node', a.node⟩

theorem shift_eq (a : Alike t t' f r r' nr nr') : nr'.shift = nr.shift :=
  Nat.le_antisymm (a.neat'.root_shift_le a.stands' a.stands a.root' a.node' a.root a.node)
    (a.neat.root_shift_le a.stands a.stands' a.root a.node a.root' a.node')

/-- Every node has its twin. -/
theorem exists_twin (a : Alike t t' f r r' nr nr') (hp : t.node p = some nd) (hb : Covers t p b) :
    ∃ p' nd', Twin t t' p p' nd nd' b := by
  have hplace := (a.neat.node_iff a.stands a.root a.node nd.shift b).mp ⟨p, nd, hp, rfl, hb⟩
  rw [← a.shift_eq] at hplace
  obtain ⟨p', nd', hp', hs, hb'⟩ :=
    (a.neat'.node_iff a.stands' a.root' a.node' nd.shift b).mpr hplace
  exact ⟨p', nd', hp, hp', hs, hb, hb'⟩

theorem twin_unique (a : Alike t t' f r r' nr nr') {q' : Nat} {nq' : Node}
    (w : Twin t t' p p' nd nd' b) (hq : t'.node q' = some nq') (hs : nq'.shift = nd.shift)
    (hb : Covers t' q' b) : q' = p' :=
  a.stands'.wf.covers_inj hq w.right (hs.trans w.shift.symm) hb w.covers'

theorem offset_eq (a : Alike t t' f r r' nr nr') (w : Twin t t' p p' nd nd' b) :
    nd'.offset = nd.offset := by
  apply Fin.ext
  rw [a.stands.wf.offset_eq w.left w.covers, a.stands'.wf.offset_eq w.right w.covers']

/-- The parents of twins are twins. -/
theorem parent_twin (a : Alike t t' f r r' nr nr') (w : Twin t t' p p' nd nd' b) {q : Nat}
    (hq : nd.parent = some q) :
    ∃ q' nq nq' c, nd'.parent = some q' ∧ Twin t t' q q' nq nq' c := by
  obtain ⟨nq, hnq, hs, -⟩ := a.stands.wf.parent w.left hq
  have hb := w.covers
  cases hb with
  | root hp hn =>
    rw [w.left, Option.some.injEq] at hp
    rw [← hp, hq] at hn
    cases hn
  | @child _ q₀ c nd₀ hp hq₀ hc =>
    obtain rfl : nd = nd₀ := Option.some.inj (w.left.symm.trans hp)
    obtain rfl : q = q₀ := Option.some.inj (hq.symm.trans hq₀)
    obtain ⟨q', nq', wq⟩ := a.exists_twin hnq hc
    refine ⟨q', nq, nq', c, ?_, wq⟩
    cases hpar : nd'.parent with
    | none =>
      -- a root has no level above it
      have hroot := a.stands'.wf.orphan w.right hpar
      rw [a.root', Entry.node.injEq] at hroot
      subst hroot
      obtain rfl : nr' = nd' := Option.some.inj (a.node'.symm.trans w.right)
      obtain ⟨r₂, nr₂, hr₂, hnr₂, hor⟩ := a.stands'.wf.root_above wq.covers' wq.right
      rw [a.root', Entry.node.injEq] at hr₂
      subst hr₂
      obtain rfl : nr' = nr₂ := Option.some.inj (w.right.symm.trans hnr₂)
      have hsw := w.shift
      have hsq := wq.shift
      rcases hor with rfl | hlt
      · obtain rfl : nr' = nq' := Option.some.inj (w.right.symm.trans wq.right)
        omega
      · omega
    | some q₂ =>
      obtain ⟨nq₂, hnq₂, hs₂, -⟩ := a.stands'.wf.parent w.right hpar
      have hb' := w.covers'
      generalize hbb : 64 * c + nd.offset.val = b₂ at hb'
      cases hb' with
      | root hp' hn =>
        rw [w.right, Option.some.injEq] at hp'
        rw [← hp', hpar] at hn
        cases hn
      | @child _ q₃ c₂ nd₂ hp' hq₃ hc₂ =>
        obtain rfl : nd' = nd₂ := Option.some.inj (w.right.symm.trans hp')
        obtain rfl : q₂ = q₃ := Option.some.inj (hpar.symm.trans hq₃)
        have hoff := a.offset_eq w
        have hlt := nd.offset.isLt
        have hlt' := nd'.offset.isLt
        have hval := congrArg Fin.val hoff
        obtain rfl : c = c₂ := by omega
        have hsw := w.shift
        rw [a.twin_unique wq hnq₂ (by omega) hc₂]

theorem slot_item (a : Alike t t' f r r' nr nr') (w : Twin t t' p p' nd nd' b) {o : Fin 64}
    {x : Item} (ho : nd.slots o = .item x) : nd'.slots o = .item x := by
  have hz : nd.shift = 0 := by
    by_contra hs
    obtain ⟨q, -, hslot, -⟩ := a.stands.wf.child w.left hs (o := o) (by rw [ho]; simp)
    rw [ho] at hslot
    cases hslot
  have hz' : nd'.shift = 0 := w.shift.trans hz
  obtain ⟨i, hon, hoff, hblock⟩ := exists_index a.stands.wf w.left hz w.covers o
  have hholds := (a.stands.wf.holds_of_leaf hon hz x).mpr (by rw [hoff, ho])
  have hon' : On t' i p' nd' := ⟨w.right, by rw [hz', Nat.zero_add, hblock]; exact w.covers'⟩
  have hx := (a.stands'.holds i x).mpr ((a.stands.holds i x).mp hholds)
  rw [← hoff]
  exact (a.stands'.wf.holds_of_leaf hon' hz' x).mp hx

theorem slot_node (a : Alike t t' f r r' nr nr') (w : Twin t t' p p' nd nd' b) {o : Fin 64}
    {q : Nat} (ho : nd.slots o = .node q) :
    ∃ q' nq nq' c, nd'.slots o = .node q' ∧ Twin t t' q q' nq nq' c := by
  have hs : nd.shift ≠ 0 := fun hz ↦ a.stands.wf.leaf w.left hz ho
  obtain ⟨q₁, nq, hslot, hnq, -, hpar, hoff⟩ :=
    a.stands.wf.child w.left hs (o := o) (by rw [ho]; simp)
  rw [ho, Entry.node.injEq] at hslot
  subst hslot
  obtain ⟨q', nq', wq⟩ := a.exists_twin hnq (.child hnq hpar w.covers)
  obtain ⟨p₂, np, np₂, c, hpar', wp⟩ := a.parent_twin wq hpar
  obtain rfl : nd = np := Option.some.inj (w.left.symm.trans wp.left)
  obtain rfl := w.covers.block_unique wp.covers
  obtain rfl : p₂ = p' := a.twin_unique w wp.right wp.shift wp.covers'
  obtain ⟨nd₂, hnd₂, -, hslot⟩ := a.stands'.wf.parent wq.right hpar'
  obtain rfl : nd' = nd₂ := Option.some.inj (w.right.symm.trans hnd₂)
  rw [a.offset_eq wq, hoff] at hslot
  exact ⟨q', nq, nq', _, hslot, wq⟩

theorem slot_null_iff (a : Alike t t' f r r' nr nr') (w : Twin t t' p p' nd nd' b) (o : Fin 64) :
    nd.slots o = .null ↔ nd'.slots o = .null := by
  constructor
  · intro ho
    cases ho' : nd'.slots o with
    | null => rfl
    | item x =>
      rw [a.symm.slot_item w.symm ho'] at ho
      cases ho
    | node q =>
      obtain ⟨q', -, -, -, hslot, -⟩ := a.symm.slot_node w.symm ho'
      rw [hslot] at ho
      cases ho
  · intro ho'
    cases ho : nd.slots o with
    | null => rfl
    | item x =>
      rw [a.slot_item w ho] at ho'
      cases ho'
    | node q =>
      obtain ⟨q', -, -, -, hslot, -⟩ := a.slot_node w ho
      rw [hslot] at ho'
      cases ho'

theorem count_eq (a : Alike t t' f r r' nr nr') (w : Twin t t' p p' nd nd' b) :
    nd'.count = nd.count := by
  rw [(a.stands.wf.ok w.left).count_eq, (a.stands'.wf.ok w.right).count_eq, Node.used, Node.used,
    Slots.occupied_congr (a.slot_null_iff w)]

theorem nr_values_eq (a : Alike t t' f r r' nr nr') (w : Twin t t' p p' nd nd' b) :
    nd'.nr_values = nd.nr_values := by
  have hvalue (o : Fin 64) : xaIsValue (nd.slots o) = xaIsValue (nd'.slots o) := by
    cases ho : nd.slots o with
    | null => rw [(a.slot_null_iff w o).mp ho]
    | item x => rw [a.slot_item w ho]
    | node q =>
      obtain ⟨q', -, -, -, hslot, -⟩ := a.slot_node w ho
      rw [hslot]
      rfl
  rw [a.neat.values p nd w.left, a.neat'.values p' nd' w.right, Node.values, Node.values]
  simp only [hvalue]

/-- Twins are the same node but for the addresses. -/
theorem rename_eq (a : Alike t t' f r r' nr nr') {φ : Nat → Nat}
    (hφ : ∀ q q' nq nq' c, Twin t t' q q' nq nq' c → φ q = q') (w : Twin t t' p p' nd nd' b) :
    nd' = nd.rename φ := by
  have hpar : nd'.parent = nd.parent.map φ := by
    cases hq : nd.parent with
    | some q =>
      obtain ⟨q', nq, nq', c, hq', wq⟩ := a.parent_twin w hq
      rw [hq', Option.map_some, hφ q q' nq nq' c wq]
    | none =>
      cases hq' : nd'.parent with
      | none => rfl
      | some q' =>
        obtain ⟨q, -, -, -, hq₂, -⟩ := a.symm.parent_twin w.symm hq'
        rw [hq₂] at hq
        cases hq
  have hslots : nd'.slots = fun o ↦ (nd.slots o).rename φ := by
    funext o
    cases ho : nd.slots o with
    | null => exact (a.slot_null_iff w o).mp ho
    | item x => exact a.slot_item w ho
    | node q =>
      obtain ⟨q', nq, nq', c, hslot, wq⟩ := a.slot_node w ho
      rw [hslot, ← hφ q q' nq nq' c wq]
      rfl
  have hcount := a.count_eq w
  have hvalues := a.nr_values_eq w
  have hoff := a.offset_eq w
  have hshift := w.shift
  cases nd'
  simp only at hpar hslots hcount hvalues hoff hshift
  subst hpar hslots hcount hvalues hoff hshift
  rfl

/-- Trees with the same contents whose shape follows from them are the same. -/
theorem sameTree (a : Alike t t' f r r' nr nr') : SameTree t t' := by
  have htwin (p : Nat) : ∃ p', ∀ nd, t.node p = some nd → ∃ nd' b, Twin t t' p p' nd nd' b := by
    cases hp : t.node p with
    | none => exact ⟨0, nofun⟩
    | some nd =>
      obtain ⟨b, hb⟩ := a.stands.wf.exists_covers hp
      obtain ⟨p', nd', w⟩ := a.exists_twin hp hb
      refine ⟨p', fun nd₁ h ↦ ?_⟩
      obtain rfl := Option.some.inj h
      exact ⟨nd', b, w⟩
  choose φ hφ using htwin
  have hφ_eq (q q' : Nat) (nq nq' : Node) (c : Nat) (w : Twin t t' q q' nq nq' c) : φ q = q' := by
    obtain ⟨nq₂, c₂, w₂⟩ := hφ q nq w.left
    obtain rfl := w.covers.block_unique w₂.covers
    exact a.twin_unique w w₂.right w₂.shift w₂.covers'
  refine ⟨φ, ?_, fun p nd hp ↦ ?_, fun p q nd nq hp hq he ↦ ?_, fun q nq hq ↦ ?_⟩
  · have w : Twin t t' r r' nr nr' 0 :=
      ⟨a.node, a.node', a.shift_eq, a.stands.wf.root_covers a.root,
        a.stands'.wf.root_covers a.root'⟩
    rw [a.root, a.root', Entry.rename, hφ_eq r r' nr nr' 0 w]
  · obtain ⟨nd', b, w⟩ := hφ p nd hp
    rw [w.right, a.rename_eq hφ_eq w]
  · obtain ⟨nd', b, w⟩ := hφ p nd hp
    obtain ⟨nq', c, wq⟩ := hφ q nq hq
    have hright := w.right
    rw [he, wq.right, Option.some.injEq] at hright
    have hcov := w.covers'
    rw [he] at hcov
    obtain rfl := hcov.block_unique wq.covers'
    refine a.stands.wf.covers_inj hp hq ?_ w.covers wq.covers
    rw [← w.shift, ← wq.shift, hright]
  · obtain ⟨b, hb⟩ := a.stands'.wf.exists_covers hq
    obtain ⟨p, nd, w⟩ := a.symm.exists_twin hq hb
    exact ⟨p, nd, w.right, hφ_eq p q nd nq b w.symm⟩

end Alike

/-- Insertions of the same items at the same indices, however ordered, find the same first items. -/
theorem firstItem_perm {xs ys : List (BitVec 64 × Item)} (hp : xs.Perm ys)
    (hn : (xs.map Prod.fst).Nodup) (i : BitVec 64) : firstItem xs i = firstItem ys i := by
  have hn' : (ys.map Prod.fst).Nodup := (hp.map Prod.fst).nodup_iff.mp hn
  have hmem {zs : List (BitVec 64 × Item)} (hz : (zs.map Prod.fst).Nodup) (x : Item) :
      firstItem zs i = some x ↔ (i, x) ∈ zs := by
    rw [firstItem, Option.map_eq_some_iff]
    constructor
    · rintro ⟨⟨j, y⟩, hfind, rfl⟩
      have hj := List.find?_some hfind
      simp only [decide_eq_true_eq] at hj
      exact hj ▸ List.mem_of_find?_eq_some hfind
    · intro hx
      obtain ⟨⟨j, y⟩, hfind⟩ := Option.isSome_iff_exists.mp
        (List.find?_isSome.mpr ⟨(i, x), hx, decide_eq_true rfl⟩ :
          (zs.find? (fun p ↦ p.1 = i)).isSome)
      have hj := List.find?_some hfind
      simp only [decide_eq_true_eq] at hj
      have he := List.inj_on_of_nodup_map hz (List.mem_of_find?_eq_some hfind) hx hj
      exact ⟨(j, y), hfind, congrArg Prod.snd he⟩
  refine Option.ext (fun x ↦ ?_)
  rw [hmem hn, hmem hn', hp.mem_iff]

/-- Insertions with the same first items make the same tree. -/
theorem sameTree_of_firstItem {xs ys : List (BitVec 64 × Item)}
    (h : ∀ i, firstItem xs i = firstItem ys i) :
    ∃ t₀ t t' rs rs', radixTreeRootAlloc (fun _ ↦ false) = some t₀ ∧
      run t₀ (xs.map (fun p ↦ .insert p.1 p.2)) = .ok (t, rs) ∧
      run t₀ (ys.map (fun p ↦ .insert p.1 p.2)) = .ok (t', rs') ∧ SameTree t t' := by
  have h0 : Filling (emptyTree (fun _ ↦ false)) (fun _ ↦ none) :=
    ⟨(stands_emptyTree _).1, ⟨1, rfl⟩, fun _ ↦ rfl⟩
  obtain ⟨t, rs, hrun, hf⟩ := h0.run xs
  obtain ⟨t', rs', hrun', hf'⟩ := h0.run ys
  have hn := (neat_emptyTree _).run h0 hrun
  have hn' := (neat_emptyTree _).run h0 hrun'
  simp only [Option.none_or] at hf hf'
  rw [← funext h] at hf'
  obtain ⟨r, hr⟩ := hf.root
  obtain ⟨r', hr'⟩ := hf'.root
  obtain ⟨nr, hnr, -⟩ := hf.stands.wf.root hr
  obtain ⟨nr', hnr', -⟩ := hf'.stands.wf.root hr'
  have a : Alike t t' (firstItem xs) r r' nr nr' :=
    ⟨hf.stands, hf'.stands, hn, hn', hr, hr', hnr, hnr'⟩
  exact ⟨_, t, t', rs, rs', rfl, hrun, hrun', a.sameTree⟩

/-- **Order of insertion.** Items inserted at distinct indices make the same tree in any order,
with enough memory. -/
theorem sameTree_of_perm {xs ys : List (BitVec 64 × Item)} (hp : xs.Perm ys)
    (hn : (xs.map Prod.fst).Nodup) :
    ∃ t₀ t t' rs rs', radixTreeRootAlloc (fun _ ↦ false) = some t₀ ∧
      run t₀ (xs.map (fun p ↦ .insert p.1 p.2)) = .ok (t, rs) ∧
      run t₀ (ys.map (fun p ↦ .insert p.1 p.2)) = .ok (t', rs') ∧ SameTree t t' :=
  sameTree_of_firstItem (firstItem_perm hp hn)

/-- `sameTree_of_perm` of two indices that need different heights. -/
theorem sameTree_of_perm_two :
    ∃ t₀ t t' rs rs', radixTreeRootAlloc (fun _ ↦ false) = some t₀ ∧
      run t₀ ([(70, ⟨4, by decide⟩), (5000, ⟨8, by decide⟩)].map (fun p ↦ .insert p.1 p.2))
        = .ok (t, rs) ∧
      run t₀ ([(5000, ⟨8, by decide⟩), (70, ⟨4, by decide⟩)].map (fun p ↦ .insert p.1 p.2))
        = .ok (t', rs') ∧ SameTree t t' :=
  sameTree_of_perm (.swap _ _ _) (by decide)

end Jeopardy.RadixTree
