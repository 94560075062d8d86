import Jeopardy.RadixTree.Tree

/-!
# Shape of a tree

The invariant of the nodes of `radix_tree/radix-tree.c`, stated node by node, and the block
of indices that each node covers. The block is read off the `parent` and `offset` fields, so
it does not depend on what the slots hold; the nodes met on the way down for an index are the
ones that cover it.
-/

namespace Jeopardy.RadixTree

/-- The number of slots of a node that are not `NULL`. -/
def Node.used (nd : Node) : Nat := Slots.occupied .null nd.slots

/-- The part of the invariant that concerns one node. -/
structure Node.OK (nd : Node) : Prop where
  shift_le : nd.shift ≤ 60
  shift_dvd : 6 ∣ nd.shift
  count_eq : nd.count = BitVec.ofNat 32 nd.used
  leaf : nd.shift = 0 → ∀ o q, nd.slots o ≠ .node q
  /-- The top level has only the four bits of an index left. -/
  top : nd.shift = 60 → ∀ o : Fin 64, 16 ≤ o.val → nd.slots o = .null

/-- The invariant of a tree. Only the parts that hold after every call are listed, also after
one that ran out of memory halfway. -/
structure WF (t : Tree) : Prop where
  fresh : ∀ p, t.next ≤ p → t.node p = none
  ok : ∀ {p nd}, t.node p = some nd → nd.OK
  /-- A child is a node one level below whose fields name the slot. -/
  child : ∀ {p nd o}, t.node p = some nd → nd.shift ≠ 0 → nd.slots o ≠ .null →
    ∃ q nc, nd.slots o = .node q ∧ t.node q = some nc ∧ nc.shift + 6 = nd.shift ∧
      nc.parent = some p ∧ nc.offset = o
  parent : ∀ {p nd q}, t.node p = some nd → nd.parent = some q →
    ∃ nq, t.node q = some nq ∧ nd.shift + 6 = nq.shift ∧ nq.slots nd.offset = .node p
  orphan : ∀ {p nd}, t.node p = some nd → nd.parent = none → t.rnode = .node p
  root : ∀ {p}, t.rnode = .node p → ∃ nd, t.node p = some nd ∧ nd.parent = none ∧ nd.offset = 0
  raw : ∀ {x}, t.rnode = .item x → x.tagged = false

/-- Every node counts its occupied slots, and those of an inner node lead to its children. -/
structure Nested (t : Tree) : Prop where
  count : ∀ p nd, t.node p = some nd → nd.count.toNat = nd.used
  child : ∀ p nd o, t.node p = some nd → nd.shift ≠ 0 → nd.slots o ≠ .null →
    ∃ q nc, nd.slots o = .node q ∧ t.node q = some nc ∧ nc.shift + 6 = nd.shift ∧
      nc.parent = some p ∧ nc.offset = o

/-- The slots of the node at `p` cover the `b`-th block of indices of its size. -/
inductive Covers (t : Tree) : Nat → Nat → Prop where
  | root {p : Nat} {nd : Node} (hp : t.node p = some nd) (hn : nd.parent = none) : Covers t p 0
  | child {p q b : Nat} {nd : Node} (hp : t.node p = some nd) (hq : nd.parent = some q)
      (hb : Covers t q b) : Covers t p (64 * b + nd.offset)

/-- The node at `p` covers index `i`. -/
def On (t : Tree) (i : BitVec 64) (p : Nat) (nd : Node) : Prop :=
  t.node p = some nd ∧ Covers t p (i.toNat / 2 ^ (nd.shift + 6))

/-- The tree stores `x` at index `i`. -/
def Holds (t : Tree) (i : BitVec 64) (x : Item) : Prop :=
  (t.rnode = .item x ∧ i = 0) ∨
    ∃ p nd, On t i p nd ∧ nd.shift = 0 ∧ nd.slots (slotOffset i 0) = .item x

/-! ### Words -/

theorem slotOffset_val (i : BitVec 64) (s : Nat) :
    (slotOffset i s).val = Radix.digit 6 s i.toNat :=
  Radix.toNat_shiftRight_and_lowMask i s 6 (by decide)

theorem shiftMaxindex_eq (s : Nat) : shiftMaxindex s = Radix.lowMask 64 (s + 6) := by
  apply BitVec.eq_of_toNat_eq
  rw [shiftMaxindex, Radix.lowMask, BitVec.toNat_sub, BitVec.toNat_shiftLeft, BitVec.toNat_ofNat,
    BitVec.toNat_ofNat, Nat.shiftLeft_eq, Nat.pow_add, show (1 : BitVec 64).toNat = 1 from rfl]
  have hpos : 0 < 2 ^ s := by positivity
  omega

theorem shiftMaxindex_lt_iff (i : BitVec 64) (s : Nat) :
    shiftMaxindex s < i ↔ 2 ^ (s + 6) ≤ i.toNat := by
  rw [shiftMaxindex_eq, Radix.lowMask_lt_iff]

/-- An index of the next level's block is the block and its offset. -/
theorem div_eq_offset (i : BitVec 64) (s : Nat) :
    i.toNat / 2 ^ s = 64 * (i.toNat / 2 ^ (s + 6)) + (slotOffset i s).val := by
  rw [slotOffset_val]
  exact Radix.div_eq_append 6 s i.toNat

theorem div_eq_iff_offset (i j : BitVec 64) (s : Nat) :
    i.toNat / 2 ^ s = j.toNat / 2 ^ s ↔
      i.toNat / 2 ^ (s + 6) = j.toNat / 2 ^ (s + 6) ∧ slotOffset i s = slotOffset j s := by
  rw [Radix.div_eq_iff 6, Fin.ext_iff, slotOffset_val, slotOffset_val]

theorem eq_of_block_offset {i j : BitVec 64} (hb : i.toNat / 2 ^ 6 = j.toNat / 2 ^ 6)
    (ho : slotOffset i 0 = slotOffset j 0) : i = j := by
  have h := (div_eq_iff_offset i j 0).mpr ⟨hb, ho⟩
  rw [Nat.pow_zero, Nat.div_one, Nat.div_one] at h
  exact BitVec.eq_of_toNat_eq h

theorem slotOffset_top (i : BitVec 64) : (slotOffset i 60).val < 16 := by
  have hi := i.isLt
  rw [slotOffset_val, Radix.digit]
  omega

/-! ### Blocks -/

/-- A node covers one block only. -/
theorem Covers.block_unique {t : Tree} {p b b' : Nat} (h : Covers t p b) (h' : Covers t p b') :
    b = b' := by
  induction h generalizing b' with
  | root hp hn =>
    cases h' with
    | root _ _ => rfl
    | child hp' hq _ =>
      rw [hp, Option.some.injEq] at hp'
      rw [← hp', hn] at hq
      exact absurd hq (by simp)
  | child hp hq hb ih =>
    cases h' with
    | root hp' hn =>
      rw [hp, Option.some.injEq] at hp'
      rw [← hp', hq] at hn
      exact absurd hn (by simp)
    | child hp' hq' hb' =>
      rw [hp, Option.some.injEq] at hp'
      subst hp'
      rw [hq, Option.some.injEq] at hq'
      subst hq'
      rw [ih hb']

theorem On.eq_of_node {t : Tree} {i j : BitVec 64} {p : Nat} {nd nd' : Node} (h : On t i p nd)
    (h' : On t j p nd') : nd = nd' :=
  Option.some.inj (h.1.symm.trans h'.1)

/-- The blocks of two covered indices at one node agree. -/
theorem On.block_eq {t : Tree} {i j : BitVec 64} {p : Nat} {nd : Node} (h : On t i p nd)
    (h' : On t j p nd) : i.toNat / 2 ^ (nd.shift + 6) = j.toNat / 2 ^ (nd.shift + 6) :=
  h.2.block_unique h'.2

theorem On.congr {t : Tree} {i j : BitVec 64} {p : Nat} {nd : Node} (h : On t i p nd)
    (hij : i.toNat / 2 ^ (nd.shift + 6) = j.toNat / 2 ^ (nd.shift + 6)) : On t j p nd :=
  ⟨h.1, hij ▸ h.2⟩

namespace WF

variable {t : Tree}

theorem shift_le (h : WF t) {p : Nat} {nd : Node} (hp : t.node p = some nd) : nd.shift ≤ 60 :=
  (h.ok hp).shift_le

theorem shift_dvd (h : WF t) {p : Nat} {nd : Node} (hp : t.node p = some nd) : 6 ∣ nd.shift :=
  (h.ok hp).shift_dvd

theorem leaf (h : WF t) {p q : Nat} {nd : Node} {o : Fin 64} (hp : t.node p = some nd)
    (hs : nd.shift = 0) : nd.slots o ≠ .node q :=
  (h.ok hp).leaf hs o q

theorem lt_next (h : WF t) {p : Nat} {nd : Node} (hp : t.node p = some nd) : p < t.next := by
  by_contra hle
  rw [h.fresh p (Nat.le_of_not_lt hle)] at hp
  exact absurd hp (by simp)

theorem used_le (nd : Node) : nd.used ≤ 64 := Slots.occupied_le _ _

theorem count_toNat (h : WF t) {p : Nat} {nd : Node} (hp : t.node p = some nd) :
    nd.count.toNat = nd.used := by
  have hle := used_le nd
  rw [(h.ok hp).count_eq, BitVec.toNat_ofNat, Nat.mod_eq_of_lt (by omega)]

theorem count_eq_zero_iff (h : WF t) {p : Nat} {nd : Node} (hp : t.node p = some nd) :
    nd.count = 0 ↔ nd.used = 0 := by
  rw [← BitVec.toNat_inj, h.count_toNat hp]
  rfl

theorem count_eq_one_iff (h : WF t) {p : Nat} {nd : Node} (hp : t.node p = some nd) :
    nd.count = 1 ↔ nd.used = 1 := by
  rw [← BitVec.toNat_inj, h.count_toNat hp]
  rfl

theorem nested (h : WF t) : Nested t :=
  ⟨fun _ _ ↦ h.count_toNat, fun _ _ _ ↦ h.child⟩

/-- Every node covers a block: follow the parents to the root. -/
theorem exists_covers (h : WF t) {p : Nat} {nd : Node} (hp : t.node p = some nd) :
    ∃ b, Covers t p b := by
  induction hn : 60 - nd.shift using Nat.strong_induction_on generalizing p nd with
  | _ n ih =>
    cases hpar : nd.parent with
    | none => exact ⟨0, .root hp hpar⟩
    | some q =>
      obtain ⟨nq, hq, hs, -⟩ := h.parent hp hpar
      have hle := h.shift_le hq
      obtain ⟨b, hb⟩ := ih (60 - nq.shift) (by omega) hq rfl
      exact ⟨_, .child hp hpar hb⟩

/-- The root is the only node of its level, and no node is above it. -/
theorem root_above (h : WF t) {p b : Nat} {nd : Node} (hb : Covers t p b)
    (hp : t.node p = some nd) :
    ∃ r nr, t.rnode = .node r ∧ t.node r = some nr ∧ (p = r ∨ nd.shift < nr.shift) := by
  induction hb generalizing nd with
  | root hp' hn => exact ⟨_, _, h.orphan hp' hn, hp', .inl rfl⟩
  | child hp' hq hb ih =>
    rw [hp', Option.some.injEq] at hp
    subst hp
    obtain ⟨nq, hnq, hs, -⟩ := h.parent hp' hq
    obtain ⟨r, nr, hr, hnr, hor⟩ := ih hnq
    refine ⟨r, nr, hr, hnr, .inr ?_⟩
    rcases hor with rfl | hlt
    · rw [hnq, Option.some.injEq] at hnr
      subst hnr
      omega
    · omega

/-- Without a root node there is no node. -/
theorem node_eq_none (h : WF t) (hr : ∀ r, t.rnode ≠ .node r) (p : Nat) : t.node p = none := by
  cases hp : t.node p with
  | none => rfl
  | some nd =>
    obtain ⟨b, hb⟩ := h.exists_covers hp
    obtain ⟨r, _, hroot, -⟩ := h.root_above hb hp
    exact absurd hroot (hr r)

theorem root_covers (h : WF t) {r : Nat} (hr : t.rnode = .node r) : Covers t r 0 := by
  obtain ⟨nr, hnr, hpar, -⟩ := h.root hr
  exact .root hnr hpar

/-- Two nodes of one level that cover the same block are one node. -/
theorem covers_inj (h : WF t) {p q b : Nat} {np nq : Node} (hp : t.node p = some np)
    (hq : t.node q = some nq) (hs : np.shift = nq.shift) (hcp : Covers t p b)
    (hcq : Covers t q b) : p = q := by
  induction hcp generalizing q np nq with
  | root hp' hn =>
    obtain ⟨r, nr, hr, hnr, hor⟩ := h.root_above hcq hq
    rw [hp', Option.some.injEq] at hp
    subst hp
    have hroot := h.orphan hp' hn
    rw [hr, Entry.node.injEq] at hroot
    subst hroot
    rcases hor with rfl | hlt
    · rfl
    · rw [hp', Option.some.injEq] at hnr
      subst hnr
      omega
  | @child p p' b' nd hp' hpar hb ih =>
    rw [hp', Option.some.injEq] at hp
    subst hp
    obtain ⟨np', hnp', hsp, hslot⟩ := h.parent hp' hpar
    generalize hbq : 64 * b' + nd.offset.val = bq at hcq
    cases hcq with
    | root hq' hn =>
      rw [hq', Option.some.injEq] at hq
      subst hq
      obtain ⟨r, nr, hr, hnr, hor⟩ := h.root_above (.child hp' hpar hb) hp'
      have hroot := h.orphan hq' hn
      rw [hr, Entry.node.injEq] at hroot
      subst hroot
      rcases hor with rfl | hlt
      · rfl
      · rw [hq', Option.some.injEq] at hnr
        subst hnr
        omega
    | @child _ q' bq' nd' hq' hparq hbq' =>
      rw [hq', Option.some.injEq] at hq
      subst hq
      obtain ⟨nq', hnq', hsq, hslotq⟩ := h.parent hq' hparq
      have hoff := nd.offset.isLt
      have hoff' := nd'.offset.isLt
      have hbb : b' = bq' := by omega
      subst hbb
      have hoo : nd.offset = nd'.offset := Fin.ext (by omega)
      have hpq : p' = q' := ih hnp' hnq' (by omega) hbq'
      subst hpq
      rw [hnp', Option.some.injEq] at hnq'
      subst hnq'
      rw [hoo, hslotq, Entry.node.injEq] at hslot
      exact hslot.symm

/-! ### Nodes on the way of an index -/

theorem on_root (h : WF t) {r : Nat} {nr : Node} {i : BitVec 64} (hr : t.rnode = .node r)
    (hnr : t.node r = some nr) (hi : ¬ nodeMaxindex nr < i) : On t i r nr := by
  rw [nodeMaxindex, shiftMaxindex_lt_iff, Nat.not_le] at hi
  refine ⟨hnr, ?_⟩
  rw [Nat.div_eq_of_lt hi]
  exact h.root_covers hr

theorem on_child (h : WF t) {p : Nat} {nd : Node} {i : BitVec 64} (hp : On t i p nd)
    (hs : nd.shift ≠ 0) (hc : nd.slots (slotOffset i nd.shift) ≠ .null) :
    ∃ q nc, nd.slots (slotOffset i nd.shift) = .node q ∧ On t i q nc ∧
      nc.shift + 6 = nd.shift := by
  obtain ⟨q, nc, hslot, hq, hsc, hpar, hoff⟩ := h.child hp.1 hs hc
  refine ⟨q, nc, hslot, ⟨hq, ?_⟩, hsc⟩
  rw [hsc, div_eq_offset, ← hoff]
  exact .child hq hpar hp.2

theorem on_parent (h : WF t) {p q : Nat} {nd : Node} {i : BitVec 64} (hp : On t i p nd)
    (hq : nd.parent = some q) :
    ∃ nq, On t i q nq ∧ nd.shift + 6 = nq.shift ∧ nq.slots (slotOffset i nq.shift) = .node p := by
  obtain ⟨nq, hnq, hs, hslot⟩ := h.parent hp.1 hq
  have hcov := hp.2
  generalize hb : i.toNat / 2 ^ (nd.shift + 6) = b at hcov
  cases hcov with
  | root hp' hn =>
    rw [hp.1, Option.some.injEq] at hp'
    rw [← hp', hq] at hn
    exact absurd hn (by simp)
  | @child _ q' b' nd' hp' hq' hb' =>
    rw [hp.1, Option.some.injEq] at hp'
    subst hp'
    rw [hq, Option.some.injEq] at hq'
    subst hq'
    rw [hs, div_eq_offset] at hb
    have hlt := (slotOffset i nq.shift).isLt
    have hlt' := nd.offset.isLt
    have hbb : i.toNat / 2 ^ (nq.shift + 6) = b' := by omega
    have hoo : slotOffset i nq.shift = nd.offset := Fin.ext (by omega)
    exact ⟨nq, ⟨hnq, hbb ▸ hb'⟩, hs, hoo ▸ hslot⟩

theorem on_unique (h : WF t) {p q : Nat} {np nq : Node} {i : BitVec 64} (hp : On t i p np)
    (hq : On t i q nq) (hs : np.shift = nq.shift) : p = q :=
  h.covers_inj hp.1 hq.1 hs hp.2 (hs ▸ hq.2)

/-- Above every node on the way of an index the way goes on down. -/
theorem on_below (h : WF t) {p q : Nat} {np nq : Node} {i : BitVec 64} (hp : On t i p np)
    (hq : On t i q nq) (hs : nq.shift < np.shift) : np.slots (slotOffset i np.shift) ≠ .null := by
  induction hn : np.shift - nq.shift using Nat.strong_induction_on generalizing q nq with
  | _ n ih =>
    cases hpar : nq.parent with
    | none =>
      obtain ⟨r, nr, hr, hnr, hor⟩ := h.root_above hp.2 hp.1
      have hroot := h.orphan hq.1 hpar
      rw [hr, Entry.node.injEq] at hroot
      subst hroot
      rw [hq.1, Option.some.injEq] at hnr
      subst hnr
      rcases hor with rfl | hlt
      · rw [hp.eq_of_node hq] at hs
        omega
      · omega
    | some q' =>
      obtain ⟨nq', hq', hsq, hslot⟩ := h.on_parent hq hpar
      obtain ⟨a, ha⟩ := h.shift_dvd hp.1
      obtain ⟨b, hb⟩ := h.shift_dvd hq'.1
      by_cases heq : np.shift = nq'.shift
      · have hpq := h.on_unique hp hq' heq
        subst hpq
        rw [hp.eq_of_node hq', hslot]
        simp
      · exact ih (np.shift - nq'.shift) (by omega) hq' (by omega) rfl

/-- Above a node on the way of an index the way has a node at every level. -/
theorem on_level (h : WF t) {r : Nat} {nr : Node} (hr : t.rnode = .node r)
    (hnr : t.node r = some nr) {i : BitVec 64} {p s : Nat} {nd : Node} (hp : On t i p nd)
    (hle : nd.shift ≤ s) (hs : s ≤ nr.shift) (hdvd : 6 ∣ s) :
    ∃ q nq, On t i q nq ∧ nq.shift = s := by
  induction hn : s - nd.shift using Nat.strong_induction_on generalizing p nd with
  | _ n ih =>
    by_cases heq : nd.shift = s
    · exact ⟨p, nd, hp, heq⟩
    · obtain ⟨a, ha⟩ := hdvd
      obtain ⟨b, hb⟩ := h.shift_dvd hp.1
      cases hpar : nd.parent with
      | none =>
        have hroot := h.orphan hp.1 hpar
        rw [hr, Entry.node.injEq] at hroot
        subst hroot
        obtain rfl : nr = nd := Option.some.inj (hnr.symm.trans hp.1)
        omega
      | some q =>
        obtain ⟨nq, hq, hsq, -⟩ := h.on_parent hp hpar
        exact ih (s - nq.shift) (by omega) hq (by omega) rfl

/-- The largest index bounds the covered ones. -/
theorem not_maxindex_lt (h : WF t) {p r : Nat} {nd nr : Node} {i : BitVec 64} (hp : On t i p nd)
    (hr : t.rnode = .node r) (hnr : t.node r = some nr) : ¬ nodeMaxindex nr < i := by
  have hroot : On t i r nr := by
    induction hn : 60 - nd.shift using Nat.strong_induction_on generalizing p nd with
    | _ n ih =>
      cases hpar : nd.parent with
      | none =>
        have hrp := h.orphan hp.1 hpar
        rw [hr, Entry.node.injEq] at hrp
        subst hrp
        rw [hnr.symm.trans hp.1 |> Option.some.inj]
        exact hp
      | some q =>
        obtain ⟨nq, hq, hs, -⟩ := h.on_parent hp hpar
        have hle := h.shift_le hq.1
        exact ih (60 - nq.shift) (by omega) hq rfl
  rw [nodeMaxindex, shiftMaxindex_lt_iff, Nat.not_le]
  have hzero := hroot.2.block_unique (h.root_covers hr)
  exact (Nat.div_eq_zero_iff_lt (by positivity)).mp hzero

/-! ### Contents -/

theorem not_holds_of_null (h : WF t) {p : Nat} {nd : Node} {i : BitVec 64} (hp : On t i p nd)
    (hnull : nd.slots (slotOffset i nd.shift) = .null) (x : Item) : ¬ Holds t i x := by
  rintro (⟨hroot, -⟩ | ⟨q, nq, hq, hs, hx⟩)
  · have hnone := h.node_eq_none (fun r hr ↦ by rw [hroot] at hr; exact absurd hr (by simp)) p
    rw [hp.1] at hnone
    exact absurd hnone (by simp)
  · by_cases hzero : nd.shift = 0
    · have hpq := h.on_unique hp hq (by omega)
      subst hpq
      rw [hp.eq_of_node hq, hs, hx] at hnull
      exact absurd hnull (by simp)
    · exact h.on_below hp hq (by omega) hnull

theorem holds_of_leaf (h : WF t) {p : Nat} {nd : Node} {i : BitVec 64} (hp : On t i p nd)
    (hs : nd.shift = 0) (x : Item) : Holds t i x ↔ nd.slots (slotOffset i 0) = .item x := by
  constructor
  · rintro (⟨hroot, -⟩ | ⟨q, nq, hq, hsq, hx⟩)
    · have hnone := h.node_eq_none (fun r hr ↦ by rw [hroot] at hr; exact absurd hr (by simp)) p
      rw [hp.1] at hnone
      exact absurd hnone (by simp)
    · have hpq := h.on_unique hp hq (by omega)
      subst hpq
      rw [hp.eq_of_node hq]
      exact hx
  · intro hx
    exact .inr ⟨p, nd, hp, hs, hx⟩

/-- A tree without nodes stores at most the item its root points to. -/
theorem holds_of_raw (h : WF t) (hr : ∀ r, t.rnode ≠ .node r) (i : BitVec 64) (x : Item) :
    Holds t i x ↔ t.rnode = .item x ∧ i = 0 := by
  constructor
  · rintro (hx | ⟨p, nd, hp, -, -⟩)
    · exact hx
    · have hnone := h.node_eq_none hr p
      rw [hp.1] at hnone
      exact absurd hnone (by simp)
  · exact .inl

theorem holds_unique (h : WF t) {i : BitVec 64} {x y : Item} (hx : Holds t i x)
    (hy : Holds t i y) : x = y := by
  rcases hx with ⟨hroot, hi⟩ | ⟨p, nd, hp, hs, hslot⟩
  · have hraw :=
      (h.holds_of_raw (fun r hr ↦ by rw [hroot] at hr; exact absurd hr (by simp)) i y).mp hy
    rw [hroot, Entry.item.injEq] at hraw
    exact hraw.1
  · have hy' := (h.holds_of_leaf hp hs y).mp hy
    rw [hslot, Entry.item.injEq] at hy'
    exact hy'

/-- Every covered block begins with an index. -/
theorem block_lt (h : WF t) {p b : Nat} {nd : Node} (hp : t.node p = some nd)
    (hb : Covers t p b) : b * 2 ^ (nd.shift + 6) < 2 ^ 64 := by
  induction hb generalizing nd with
  | root _ _ => rw [Nat.zero_mul]; positivity
  | @child p q b nd' hp' hq hb ih =>
    rw [hp', Option.some.injEq] at hp
    subst hp
    obtain ⟨nq, hnq, hs, hslot⟩ := h.parent hp' hq
    have hlt := ih hnq
    have hoff := nd'.offset.isLt
    have hle := h.shift_le hnq
    by_cases htop : nq.shift = 60
    · have ho : nd'.offset.val < 16 := by
        by_contra hge
        rw [(h.ok hnq).top htop _ (Nat.le_of_not_lt hge)] at hslot
        exact absurd hslot (by simp)
      have h54 : nd'.shift = 54 := by omega
      rw [htop] at hlt
      have hb0 : b = 0 := by
        by_contra hb0
        have hge : 1 * 2 ^ (60 + 6) ≤ b * 2 ^ (60 + 6) :=
          Nat.mul_le_mul_right _ (Nat.one_le_iff_ne_zero.mpr hb0)
        exact absurd (hge.trans_lt hlt) (by decide)
      rw [h54, hb0, Nat.mul_zero, Nat.zero_add]
      exact (Nat.mul_lt_mul_of_pos_right ho (by decide)).trans_le (by decide)
    · obtain ⟨a, ha⟩ := h.shift_dvd hnq
      obtain ⟨c, hc⟩ := Nat.exists_eq_add_of_le (show nq.shift + 6 ≤ 64 by omega)
      have hlim : b < 2 ^ c := by
        rw [hc, Nat.pow_add 2 (nq.shift + 6) c, Nat.mul_comm] at hlt
        exact Nat.lt_of_mul_lt_mul_left hlt
      calc (64 * b + nd'.offset.val) * 2 ^ (nd'.shift + 6)
          < (64 * (b + 1)) * 2 ^ (nd'.shift + 6) :=
            Nat.mul_lt_mul_of_pos_right (by omega) (by positivity)
        _ = (b + 1) * 2 ^ (nq.shift + 6) := by rw [← hs, Nat.pow_add _ (nd'.shift + 6)]; ring
        _ ≤ 2 ^ c * 2 ^ (nq.shift + 6) := Nat.mul_le_mul_right _ hlim
        _ = 2 ^ 64 := by rw [← Nat.pow_add, hc, Nat.add_comm]

theorem exists_on (h : WF t) {p : Nat} {nd : Node} (hp : t.node p = some nd) :
    ∃ i, On t i p nd := by
  obtain ⟨b, hb⟩ := h.exists_covers hp
  refine ⟨BitVec.ofNat 64 (b * 2 ^ (nd.shift + 6)), hp, ?_⟩
  rw [BitVec.toNat_ofNat, Nat.mod_eq_of_lt (h.block_lt hp hb),
    Nat.mul_div_cancel _ (by positivity)]
  exact hb

/-- A root without children is the whole tree. -/
theorem eq_root_of_used (h : WF t) {r p : Nat} {nr nd : Node} (hr : t.rnode = .node r)
    (hnr : t.node r = some nr) (hu : nr.used = 0) (hp : t.node p = some nd) : p = r := by
  obtain ⟨i, hi⟩ := h.exists_on hp
  obtain ⟨r', nr', hr', hnr', hor⟩ := h.root_above hi.2 hp
  rw [hr, Entry.node.injEq] at hr'
  subst hr'
  rw [hnr, Option.some.injEq] at hnr'
  subst hnr'
  rcases hor with heq | hlt
  · exact heq
  · have hon := h.on_root hr hnr (h.not_maxindex_lt hi hr hnr)
    exact absurd (Slots.occupied_eq_zero_iff.mp hu _) (h.on_below hon hi hlt)

end WF

end Jeopardy.RadixTree
