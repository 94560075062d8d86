import Jeopardy.RadixTree.Insert

/-!
# Creating the slot of an index

`__radix_tree_create` on every kind of root: a node within or below the index, no root, and a
raw item, which an extension overwrites in one word.
-/

namespace Jeopardy.RadixTree

/-- The item whose object the call writes to: the raw item at the root, if the tree has to grow
over it and gets the memory. -/
def spill (t : Tree) (i : BitVec 64) : List Item :=
  match t.rnode with
  | .item x => if i = 0 ∨ t.oom t.next = true then [] else [x]
  | _ => []

/-- The outcomes of `__radix_tree_create` for index `i`. -/
inductive Created (t : Tree) (i : BitVec 64) : Tree → Option (Option Nat × Slot) → Prop where
  | enomem {t' : Tree} (hk : Kept t t')
      (hs : t'.itemStores = spill t i ++ t.itemStores)
      (hr : ∀ r, t.rnode = .node r → ∃ r', t'.rnode = .node r')
      (hnone : ∀ y, ¬ Holds t i y) (hoom : LastFailed t t') : Created t i t' none
  | root (hr : ∀ r, t.rnode ≠ .node r) (hi : i = 0) : Created t i t (some (none, .root))
  | leaf {t' : Tree} {q r : Nat} {nq : Node} (hk : Kept t t')
      (hs : t'.itemStores = spill t i ++ t.itemStores) (hr : t'.rnode = .node r)
      (hq : On t' i q nq) (hz : nq.shift = 0)
      (hsame : ∀ y, Holds t i y → t' = t)
      (hbare : Slim t → Bare t' q) (htall : Tall t → Tall t') :
      Created t i t' (some (some q, .node q (slotOffset i 0)))

theorem spill_of_node {t : Tree} {r : Nat} (hr : t.rnode = .node r) (i : BitVec 64) :
    spill t i = [] := by
  rw [spill, hr]

theorem spill_of_null {t : Tree} (hr : t.rnode = .null) (i : BitVec 64) : spill t i = [] := by
  rw [spill, hr]

/-- The descent on a tree that has been prepared for the index. -/
theorem Created.of_descended {t t₁ t' : Tree} {i : BitVec 64} {p : Nat}
    {out : Option (Option Nat × Slot)} (hk : Kept t t₁)
    (hs : t₁.itemStores = spill t i ++ t.itemStores) (hp : t₁.rnode = .node p)
    (hsame : ∀ y, Holds t i y → t₁ = t) (hbare : Slim t → Bare t₁ p)
    (htall : Tall t → Tall t₁ ∨ ∀ np, t₁.node p = some np → np.shift ≠ 0 →
      slotOffset i np.shift ≠ 0) (hd : Descended t₁ i p t' out) : Created t i t' out := by
  cases hd with
  | enomem hk' hs' hr hnone hoom =>
    refine .enomem (hk.trans hk') (hs'.trans hs) (fun _ _ ↦ ⟨p, hr.trans hp⟩) ?_ (hoom.of_kept hk)
    intro y hy
    obtain rfl := hsame y hy
    rcases hy with ⟨hroot, -⟩ | ⟨x, nx, hx, hzx, -⟩
    · rw [hp] at hroot
      cases hroot
    · exact hnone x nx hx hzx
  | slot hk' hs' hr hq hz hsame' hbare' htall' =>
    refine .leaf (hk.trans hk') (hs'.trans hs) (hr.trans hp) hq hz ?_ (fun hl ↦ hbare' (hbare hl))
      (fun ht ↦ htall' ((htall ht).imp_right (fun ho ↦ ⟨hp, ho⟩)))
    intro y hy
    obtain rfl := hsame y hy
    rcases hy with ⟨hroot, -⟩ | ⟨x, nx, hx, hzx, -⟩
    · rw [hp] at hroot
      cases hroot
    · exact hsame' x nx hx hzx

/-- The loop from the root pointer down, for an index that the root node covers. -/
theorem createLoop_root {t : Tree} (h : WF t) {i : BitVec 64} {r : Nat} {nr : Node}
    (hr : On t i r nr) : ∃ t' out,
      createLoop i (LEVELS + 1) t none .root (.node r) (nr.shift + 6) 0 = .ok (t', out) ∧
      Descended t i r t' out := by
  have hle := h.shift_le hr.1
  obtain ⟨t', out, hrun, hd⟩ := createLoop_spec h hr
    (show nr.shift < 6 * LEVELS by unfold LEVELS; omega)
  refine ⟨t', out, ?_, hd⟩
  rw [createLoop, if_neg (by omega)]
  simp only [if_neg (show Entry.node r ≠ .null by simp), entryToNode, Fault.ok_bind,
    Tree.read_eq hr.1, radixTreeDescend, pure, Except.pure, MAP_SHIFT]
  rw [show nr.shift + 6 - 6 = nr.shift by omega]
  exact hrun

/-- An index that needs level `m` has a digit there. -/
theorem slotOffset_ne_zero {i : BitVec 64} {m : Nat} (hle : 2 ^ m ≤ i.toNat)
    (hlt : i.toNat < 2 ^ (m + 6)) : slotOffset i m ≠ 0 := by
  intro h0
  have hv := congrArg Fin.val h0
  rw [slotOffset_val, Radix.digit] at hv
  have hpos : 1 ≤ i.toNat / 2 ^ m := (Nat.one_le_div_iff (by positivity)).mpr hle
  have hup : i.toNat / 2 ^ m < 64 := Nat.div_lt_of_lt_mul (by rwa [Nat.pow_add] at hlt)
  have hv' : i.toNat / 2 ^ m % 2 ^ 6 = 0 := hv
  omega

/-- A root node of the level that `growShift` found covers the index. -/
theorem on_of_lt {t : Tree} (h : WF t) {r : Nat} {nr : Node} {i : BitVec 64}
    (hr : t.rnode = .node r) (hnr : t.node r = some nr) (hi : i.toNat < 2 ^ (nr.shift + 6)) :
    On t i r nr := by
  refine h.on_root hr hnr ?_
  rw [nodeMaxindex, shiftMaxindex_lt_iff]
  omega

/-- The tree has a root node. -/
theorem rawRadixTreeCreate_node {t : Tree} (h : WF t) (i : BitVec 64) {r : Nat}
    (hr : t.rnode = .node r) :
    ∃ t' out, rawRadixTreeCreate t i = .ok (t', out) ∧ Created t i t' out := by
  obtain ⟨nr, hnr, -, -⟩ := h.root hr
  have hspill := spill_of_node hr i
  rw [rawRadixTreeCreate, radixTreeLoadRoot_node hr hnr, Fault.ok_bind]
  by_cases hi : nodeMaxindex nr < i
  · simp only [if_pos hi]
    have hi' := hi
    rw [nodeMaxindex, shiftMaxindex_lt_iff] at hi'
    have hle := h.shift_le hnr
    obtain ⟨a, ha⟩ := h.shift_dvd hnr
    have h54 : nr.shift ≤ 54 := by
      by_contra hgt
      have h60 : nr.shift = 60 := by omega
      rw [h60] at hi'
      exact absurd (hi'.trans_lt i.isLt) (by decide)
    obtain ⟨m, hgrow, hdvd, hsm, hm60, hlt, hor⟩ := growShift_spec i LEVELS
      (show nr.shift + 6 ≤ 60 by omega) (by omega) (by unfold LEVELS; omega)
    have hge : 2 ^ m ≤ i.toNat := by
      rcases hor with rfl | hge
      · exact hi'
      · exact hge
    obtain ⟨t₁, out₁, hext, he⟩ := extendLoop_spec h LEVELS hr hnr hm60 hdvd hsm
      (by unfold LEVELS; omega)
    have hnone : ∀ y, ¬ Holds t i y := by
      rintro y (⟨hroot, -⟩ | ⟨x, nx, hx, -, -⟩)
      · rw [hr] at hroot
        cases hroot
      · exact h.not_maxindex_lt hx hr hnr hi
    have hrun : radixTreeExtend t i (nr.shift + 6) = .ok (t₁, out₁) := by
      rw [radixTreeExtend, hgrow, Fault.ok_bind, hr, if_neg (by simp), hext]
    rw [hrun, Fault.ok_bind]
    cases he with
    | enomem hk hs hr' hoom =>
      exact ⟨t₁, none, rfl, .enomem hk (by rw [hs, hspill, List.nil_append]) (fun _ _ ↦ hr') hnone
        hoom⟩
    | @done r' nr' hk hs hr' hnr' hm' hl =>
      subst hm'
      obtain ⟨t', out, hloop, hd⟩ := createLoop_root hk.wf (on_of_lt hk.wf hr' hnr' hlt)
      refine ⟨t', out, ?_, .of_descended hk (by rw [hs, hspill, List.nil_append]) hr'
        (fun y hy ↦ absurd hy (hnone y)) (fun hslim ↦ (hl hslim).bare r') (fun _ ↦ .inr ?_) hd⟩
      · simp only [hr']
        exact hloop
      · intro np hnp _
        rw [hnr', Option.some.injEq] at hnp
        subst hnp
        exact slotOffset_ne_zero hge hlt
  · simp only [if_neg hi]
    obtain ⟨t', out, hloop, hd⟩ := createLoop_root h (h.on_root hr hnr hi)
    exact ⟨t', out, hloop, .of_descended (.refl h) (by rw [hspill, List.nil_append]) hr
      (fun _ _ ↦ rfl) (fun hslim ↦ hslim.bare r) .inl hd⟩

/-- A tree without nodes, asked for index 0: the slot is the root pointer. -/
theorem rawRadixTreeCreate_zero {t : Tree} (h : WF t) (hr : ∀ r, t.rnode ≠ .node r) :
    rawRadixTreeCreate t 0 = .ok (t, some (none, .root)) := by
  rw [rawRadixTreeCreate, radixTreeLoadRoot_raw h hr, Fault.ok_bind]
  simp only [if_neg (show ¬ (0 : BitVec 64) > 0 by decide)]
  rw [createLoop, if_pos rfl]
  rfl

theorem pos_of_ne_zero {i : BitVec 64} (hi : i ≠ 0) : i > 0 := by
  rw [gt_iff_lt, BitVec.lt_def]
  exact Nat.pos_of_ne_zero (fun hz ↦ hi (BitVec.eq_of_toNat_eq hz))

/-- The level for an index in a tree without nodes. -/
theorem growShift_raw {i : BitVec 64} : ∃ m, growShift i LEVELS 0 = .ok m ∧ 6 ∣ m ∧ m ≤ 60 ∧
    i.toNat < 2 ^ (m + 6) ∧ (m ≠ 0 → slotOffset i m ≠ 0) := by
  obtain ⟨m, hgrow, hdvd, -, hm60, hlt, hor⟩ := growShift_spec i LEVELS (Nat.zero_le 60)
    (Nat.dvd_zero 6) (by unfold LEVELS; omega)
  refine ⟨m, hgrow, hdvd, hm60, hlt, fun hm ↦ ?_⟩
  exact slotOffset_ne_zero (hor.resolve_left hm) hlt

/-- The first round on an empty tree makes an empty root. -/
theorem createLoop_null {t : Tree} (hoom : t.oom t.next = false) (i : BitVec 64) (m : Nat)
    (fuel : Nat) :
    createLoop i (fuel + 1) t none .root .null (m + 6) 0
      = createLoop i (fuel + 1) (t.sole (emptyNode m 0 none)) none .root (.node t.next) (m + 6)
          0 := by
  have hchild : createChild t none .root m 0 = .ok (t.sole (emptyNode m 0 none), some t.next) := by
    rw [createChild, radixTreeNodeAlloc_ok hoom]
    rfl
  rw [createLoop, createLoop, if_neg (by omega), if_neg (by omega)]
  simp only [if_neg (show Entry.node t.next ≠ .null by simp), if_true, MAP_SHIFT,
    show m + 6 - 6 = m by omega, hchild, entryToNode, Fault.ok_bind, pure, Except.pure]

/-- The tree is empty, and the index not 0. -/
theorem rawRadixTreeCreate_null {t : Tree} (h : WF t) {i : BitVec 64} (hr : t.rnode = .null)
    (hi : i ≠ 0) : ∃ t' out, rawRadixTreeCreate t i = .ok (t', out) ∧ Created t i t' out := by
  have hraw : ∀ r, t.rnode ≠ .node r := fun r ↦ by rw [hr]; simp
  have hnone := h.node_eq_none hraw
  have hspill := spill_of_null hr i
  have habsent (y : Item) : ¬ Holds t i y := by
    rw [h.holds_of_raw hraw, hr]
    exact fun hy ↦ nomatch hy.1
  obtain ⟨m, hgrow, hdvd, hm60, hlt, hdigit⟩ := growShift_raw (i := i)
  have hext : radixTreeExtend t i 0 = .ok (t, some (m + 6)) := by
    rw [radixTreeExtend, hgrow, Fault.ok_bind, if_pos hr]
    rfl
  rw [rawRadixTreeCreate, radixTreeLoadRoot_raw h hraw, Fault.ok_bind]
  simp only [if_pos (pos_of_ne_zero hi), hext, Fault.ok_bind, hr]
  by_cases hoom : t.oom t.next = true
  · refine ⟨t.skip, none, ?_, .enomem (.skip h) (by rw [hspill]; rfl)
      (fun r hr ↦ absurd hr (hraw r)) habsent (.skip hoom)⟩
    rw [createLoop, if_neg (by omega)]
    simp only [if_true, createChild_fail _ _ _ _ hoom]
    rfl
  · rw [Bool.not_eq_true] at hoom
    have hok : (emptyNode m 0 none).OK := .empty hm60 hdvd 0 none
    have hwf := WF.sole hnone hok rfl rfl (fun _ _ ↦ rfl)
    have hholds : ∀ j x, Holds (t.sole (emptyNode m 0 none)) j x ↔ Holds t j x := by
      intro j x
      rw [sole_holds hnone rfl, h.holds_of_raw hraw, hr]
      simp [emptyNode]
    have hnew := sole_new t (emptyNode m 0 none)
    obtain ⟨t', out, hloop, hd⟩ := createLoop_root hwf (i := i) (on_of_lt hwf rfl hnew hlt)
    refine ⟨t', out, ?_, .of_descended ⟨hwf, hholds, rfl, Nat.le_succ _⟩ (by rw [hspill]; rfl) rfl
      ?_ ?_ (fun _ ↦ .inr ?_) hd⟩
    · rw [createLoop_null hoom]
      exact hloop
    · exact fun y hy ↦ absurd hy (habsent y)
    · intro _ x nx hx _
      exact .inl (sole_eq_some hnone hx).1
    · intro np hnp hs
      obtain ⟨-, rfl⟩ := sole_eq_some hnone hnp
      exact hdigit hs

/-! ### Growing over a raw item -/

/-- The tree after the first new root over the raw item `x`. -/
def Tree.cover (t : Tree) (x : Item) : Tree :=
  ({ t with itemStores := x :: t.itemStores } : Tree).sole (topNode 0 (.item x))

theorem kept_cover {t : Tree} (h : WF t) {x : Item} (hr : t.rnode = .item x) :
    Kept t (t.cover x) := by
  have hraw : ∀ r, t.rnode ≠ .node r := fun r ↦ by rw [hr]; simp
  have hnone : ∀ p, ({ t with itemStores := x :: t.itemStores } : Tree).node p = none :=
    h.node_eq_none hraw
  have hok : (topNode 0 (.item x)).OK :=
    .top_node (Nat.zero_le 60) (Nat.dvd_zero 6) (by simp) (by simp)
  refine ⟨WF.sole hnone hok rfl rfl (fun hs ↦ absurd rfl hs), fun j y ↦ ?_, rfl, Nat.le_succ _⟩
  rw [Tree.cover, sole_holds hnone rfl, h.holds_of_raw hraw, hr, topNode_slots]
  constructor
  · rintro ⟨hj, -, hy⟩
    split at hy
    · next ho => exact ⟨hy, eq_of_block_offset hj ho⟩
    · cases hy
  · rintro ⟨hy, rfl⟩
    exact ⟨rfl, rfl, hy⟩

theorem slim_cover {t : Tree} (h : WF t) {x : Item} (hr : t.rnode = .item x) :
    Slim (t.cover x) := by
  have hnone : ∀ p, ({ t with itemStores := x :: t.itemStores } : Tree).node p = none :=
    h.node_eq_none (fun r ↦ by rw [hr]; simp)
  intro p np hp hu
  obtain ⟨-, rfl⟩ := sole_eq_some hnone hp
  rw [topNode_used _ (by simp)] at hu
  cases hu

/-- The root is a raw item, and the index not 0. -/
theorem rawRadixTreeCreate_item {t : Tree} (h : WF t) {i : BitVec 64} {x : Item}
    (hr : t.rnode = .item x) (hi : i ≠ 0) :
    ∃ t' out, rawRadixTreeCreate t i = .ok (t', out) ∧ Created t i t' out := by
  have hraw : ∀ r, t.rnode ≠ .node r := fun r ↦ by rw [hr]; simp
  obtain ⟨m, hgrow, hdvd, hm60, hlt, hdigit⟩ := growShift_raw (i := i)
  have habsent (y : Item) : ¬ Holds t i y := fun hy ↦ hi ((h.holds_of_raw hraw i y).mp hy).2
  have hext : radixTreeExtend t i 0 = extendLoop m LEVELS t (.item x) 0 := by
    rw [radixTreeExtend, hgrow, Fault.ok_bind, hr, if_neg (by simp)]
  rw [rawRadixTreeCreate, radixTreeLoadRoot_raw h hraw, Fault.ok_bind]
  simp only [if_pos (pos_of_ne_zero hi), hext]
  by_cases hoom : t.oom t.next = true
  · have hspill : spill t i = [] := by rw [spill, hr]; simp [hoom]
    refine ⟨t.skip, none, ?_, .enomem (.skip h) (by rw [hspill]; rfl)
      (fun r hr ↦ absurd hr (hraw r)) habsent (.skip hoom)⟩
    rw [LEVELS, extendLoop_fail hoom]
    rfl
  · rw [Bool.not_eq_true] at hoom
    have hspill : spill t i = [x] := by
      rw [spill, hr]
      exact if_neg (fun hor ↦ hor.elim hi (fun ho ↦ by rw [hoom] at ho; cases ho))
    have hk := kept_cover h hr
    have hnew : (t.cover x).node t.next = some (topNode 0 (.item x)) := sole_new _ _
    have hround := extendLoop_item x hoom m 10
    -- the loop over a tree that reaches level m
    have hdown : ∀ {t₁ : Tree} {r : Nat} {nr : Node}, Kept t t₁ →
        t₁.itemStores = spill t i ++ t.itemStores → t₁.rnode = .node r →
        t₁.node r = some nr → nr.shift = m → Slim t₁ → ∃ t' out,
          createLoop i (LEVELS + 1) t₁ none .root t₁.rnode (m + 6) 0 = .ok (t', out) ∧
            Created t i t' out := by
      intro t₁ r nr hk₁ hs₁ hr₁ hnr₁ hm₁ hl₁
      subst hm₁
      obtain ⟨t', out, hloop, hd⟩ := createLoop_root hk₁.wf (on_of_lt hk₁.wf hr₁ hnr₁ hlt)
      refine ⟨t', out, by rw [hr₁]; exact hloop, .of_descended hk₁ hs₁ hr₁
        (fun y hy ↦ absurd hy (habsent y)) (fun _ ↦ hl₁.bare r) (fun _ ↦ .inr ?_) hd⟩
      intro np hnp hs
      rw [hnr₁, Option.some.injEq] at hnp
      subst hnp
      exact hdigit hs
    by_cases hm : 6 ≤ m
    · rw [if_pos hm] at hround
      obtain ⟨t₁, out₁, hrun, he⟩ := extendLoop_spec hk.wf (m := m) 10 rfl hnew hm60 hdvd
        hm (show m < 0 + 6 + 6 * 10 by omega)
      have hfull : extendLoop m LEVELS t (.item x) 0 = .ok (t₁, out₁) := hround.trans hrun
      rw [hfull, Fault.ok_bind]
      cases he with
      | enomem hk' hs hr' hoom' =>
        exact ⟨t₁, none, rfl, .enomem (hk.trans hk') (by rw [hs, hspill]; rfl)
          (fun r hr ↦ absurd hr (hraw r)) habsent (hoom'.of_kept hk)⟩
      | @done r' nr' hk' hs hr' hnr' hm' hl =>
        exact hdown (hk.trans hk') (by rw [hs, hspill]; rfl) hr' hnr' hm' (hl (slim_cover h hr))
    · rw [if_neg hm] at hround
      have hfull : extendLoop m LEVELS t (.item x) 0 = .ok (t.cover x, some (m + 6)) := hround
      rw [hfull, Fault.ok_bind]
      exact hdown hk (by rw [hspill]; rfl) rfl hnew (show 0 = m by omega) (slim_cover h hr)

/-- Every call completes, with one of the outcomes. -/
theorem rawRadixTreeCreate_spec {t : Tree} (h : WF t) (i : BitVec 64) :
    ∃ t' out, rawRadixTreeCreate t i = .ok (t', out) ∧ Created t i t' out := by
  cases hr : t.rnode with
  | node r => exact rawRadixTreeCreate_node h i hr
  | null =>
    have hraw : ∀ r, t.rnode ≠ .node r := fun r ↦ by rw [hr]; simp
    by_cases hi : i = 0
    · subst hi
      exact ⟨t, _, rawRadixTreeCreate_zero h hraw, .root hraw rfl⟩
    · exact rawRadixTreeCreate_null h hr hi
  | item x =>
    have hraw : ∀ r, t.rnode ≠ .node r := fun r ↦ by rw [hr]; simp
    by_cases hi : i = 0
    · subst hi
      exact ⟨t, _, rawRadixTreeCreate_zero h hraw, .root hraw rfl⟩
    · exact rawRadixTreeCreate_item h hr hi

/-! ### Filling the slot -/

/-- The outcomes of `radix_tree_insert` of `x` at index `i`. -/
inductive Inserted (t : Tree) (i : BitVec 64) (x : Item) : Tree → Int → Prop where
  | enomem {t' : Tree} (hk : Kept t t')
      (hs : t'.itemStores = spill t i ++ t.itemStores)
      (hr : ∀ r, t.rnode = .node r → ∃ r', t'.rnode = .node r')
      (hnone : ∀ y, ¬ Holds t i y) (hoom : LastFailed t t') : Inserted t i x t' (-ENOMEM)
  | present {y : Item} (hy : Holds t i y) : Inserted t i x t (-EEXIST)
  | stored {t' : Tree} (hwf : WF t') (hoom : t'.oom = t.oom) (hnext : t.next ≤ t'.next)
      (hs : t'.itemStores = spill t i ++ t.itemStores)
      (hr : ∀ r, t.rnode = .node r → ∃ r', t'.rnode = .node r')
      (hnone : ∀ y, ¬ Holds t i y)
      (hholds : ∀ j y, Holds t' j y ↔ if j = i then y = x else Holds t j y)
      (hslim : Slim t → Slim t') (htall : Tall t → Tall t') : Inserted t i x t' 0

/-- A leaf with one more item. -/
def Node.fill (nd : Node) (o : Fin 64) (x : Item) : Node :=
  { nd with
    count := nd.count + 1
    nr_values := if xaIsValue (.item x) then nd.nr_values + 1 else nd.nr_values
    slots := Function.update nd.slots o (.item x) }

theorem Node.OK.fill {nd : Node} (h : nd.OK) (hz : nd.shift = 0) {o : Fin 64}
    (ho : nd.slots o = .null) (x : Item) : (nd.fill o x).OK where
  shift_le := h.shift_le
  shift_dvd := h.shift_dvd
  count_eq := by
    show nd.count + 1 = BitVec.ofNat 32 (nd.fill o x).used
    rw [show (nd.fill o x).used = nd.used + 1 from Slots.occupied_fill ho (by simp),
      BitVec.ofNat_add, ← h.count_eq]
    rfl
  leaf _ o' q := by
    rw [show (nd.fill o x).slots o' = if o' = o then .item x else nd.slots o' from
      Function.update_apply _ _ _ _]
    split
    · simp
    · exact h.leaf hz o' q
  top h60 := absurd (show nd.shift = 60 from h60) (by omega)

section Store

variable {t : Tree} {q : Nat} {nq : Node} {i : BitVec 64} {x : Item}

theorem insertEntries_leaf (hq : t.node q = some nq) {o : Fin 64} (ho : nq.slots o = .null) :
    insertEntries t (some q) (.node q o) (.item x)
      = .ok (t.setNode q (some (nq.fill o x)), 1) := by
  rw [insertEntries, Tree.load_eq hq, Fault.ok_bind, if_neg (by rw [ho]; simp),
    Tree.store_eq hq, Fault.ok_bind]
  simp only [Tree.modify_eq (Tree.setNode_self _ _ _), Fault.ok_bind, Tree.setNode_setNode]
  rfl

/-- With the leaf filled, no node but the leftmost leaf is empty. -/
theorem Bare.fill (hb : Bare t q) (hq : t.node q = some nq) {o : Fin 64}
    (ho : nq.slots o = .null) : Slim (t.setNode q (some (nq.fill o x))) := by
  intro y ny hy hu
  rw [Tree.setNode_node] at hy
  split at hy
  · cases hy
    rw [show (nq.fill o x).used = nq.used + 1 from Slots.occupied_fill ho (by simp)] at hu
    cases hu
  · next hyq =>
    obtain ⟨hz, hc⟩ := (hb y ny hy hu).resolve_left hyq
    exact ⟨hz, hc.stays (leaf_stays hq rfl rfl rfl)⟩

theorem Tall.setLeaf {nd' : Node} (ht : Tall t) (hz : nd'.shift = 0) :
    Tall (t.setNode q (some nd')) := by
  intro r nr hr hnr hs
  rw [Tree.setNode_node] at hnr
  split at hnr
  · cases hnr
    exact absurd hz hs
  · exact ht r nr hr hnr hs

/-- The item becomes the root. -/
theorem storeRoot_spec (h : WF t) (hr : ∀ r, t.rnode ≠ .node r) (hx : x.tagged = false) :
    WF { t with rnode := .item x } ∧ Slim { t with rnode := .item x } ∧
      Tall { t with rnode := .item x } ∧
      (t.rnode = .null → ∀ j y, Holds { t with rnode := .item x } j y ↔
        if j = 0 then y = x else Holds t j y) := by
  have hnone : ∀ p, ({ t with rnode := .item x } : Tree).node p = none := h.node_eq_none hr
  have hraw : ∀ r, ({ t with rnode := .item x } : Tree).rnode ≠ .node r := fun r ↦ by simp
  have hwf : WF { t with rnode := .item x } :=
    .of_no_node hnone hraw (fun y hy ↦ by cases hy; exact hx)
  refine ⟨hwf, fun p np hp ↦ ?_, fun r nr hr ↦ absurd hr (hraw r), fun hnull j y ↦ ?_⟩
  · rw [hnone] at hp
    cases hp
  · rw [hwf.holds_of_raw hraw, h.holds_of_raw hr, hnull]
    by_cases hj : j = 0
    · rw [if_pos hj, and_iff_left hj, Entry.item.injEq, eq_comm]
    · rw [if_neg hj]
      exact iff_of_false (fun hx ↦ hj hx.2) (fun hx ↦ nomatch hx.1)

end Store

/-- Every insertion completes, with one of the outcomes, or the item becomes the root of an empty
tree. -/
theorem radixTreeInsert_cases {t : Tree} (h : WF t) (i : BitVec 64) (x : Item) :
    ∃ t' e, radixTreeInsert t i x = .ok (t', e) ∧ (Inserted t i x t' e ∨
      t.rnode = .null ∧ i = 0 ∧ t' = { t with rnode := .item x } ∧ e = 0) := by
  obtain ⟨t₁, out, hrun, hc⟩ := rawRadixTreeCreate_spec h i
  rw [radixTreeInsert, hrun, Fault.ok_bind]
  cases hc with
  | enomem hk hs hr hnone hoom => exact ⟨t₁, _, rfl, .inl (.enomem hk hs hr hnone hoom)⟩
  | root hr hi =>
    subst hi
    simp only [insertEntries, Tree.load, Fault.ok_bind]
    cases hroot : t.rnode with
    | node r => exact absurd hroot (hr r)
    | item y =>
      refine ⟨t, _, ?_, .inl (.present ((h.holds_of_raw hr 0 y).mpr ⟨hroot, rfl⟩))⟩
      rw [if_pos (by simp)]
      rfl
    | null =>
      refine ⟨{ t with rnode := .item x }, 0, ?_, .inr ⟨rfl, trivial, rfl, rfl⟩⟩
      rw [if_neg (by simp)]
      rfl
  | @leaf _ q r nq hk hs hr hq hz hsame hbare htall =>
    have hslot := fun y ↦ hk.wf.holds_of_leaf hq hz y
    by_cases ho : nq.slots (slotOffset i 0) = .null
    · simp only [insertEntries_leaf hq.1 ho]
      have hok := (hk.wf.ok hq.1).fill hz ho x
      refine ⟨_, 0, rfl, .inl (.stored (hk.wf.setLeaf hq.1 hz hok rfl rfl rfl) hk.oom hk.next hs
        (fun _ _ ↦ ⟨r, hr⟩) (fun y hy ↦ ?_) (fun j y ↦ ?_)
        (fun hl ↦ (hbare hl).fill hq.1 ho) (fun ht ↦ (htall ht).setLeaf hz))⟩
      · rw [← hk.holds, hslot, ho] at hy
        cases hy
      · rw [setLeaf_holds hk.wf hq hz (show (nq.fill (slotOffset i 0) x).shift = nq.shift from rfl)
          rfl rfl hok rfl j y, hk.holds, Entry.item.injEq, @eq_comm _ x]
    · -- the leaf was there before the call, so the call has changed nothing
      cases hy : nq.slots (slotOffset i 0) with
      | null => exact absurd hy ho
      | node c => exact absurd hy (hk.wf.leaf hq.1 hz)
      | item y =>
        have hold : Holds t i y := (hk.holds i y).mp ((hslot y).mpr hy)
        obtain rfl : t₁ = t := hsame y hold
        refine ⟨t₁, _, ?_, .inl (.present hold)⟩
        simp only [insertEntries, Tree.load_eq hq.1, Fault.ok_bind, hy]
        rw [if_pos (by simp)]
        rfl

/-- Every insertion completes, with one of the outcomes. Only a tagged item in the root pointer
would be taken for a node later. -/
theorem radixTreeInsert_spec {t : Tree} (h : WF t) (i : BitVec 64) {x : Item}
    (hx : x.tagged = false ∨ ∃ r, t.rnode = .node r) :
    ∃ t' e, radixTreeInsert t i x = .ok (t', e) ∧ Inserted t i x t' e := by
  obtain ⟨t', e, hrun, hi | ⟨hnull, rfl, rfl, rfl⟩⟩ := radixTreeInsert_cases h i x
  · exact ⟨t', e, hrun, hi⟩
  · have hr : ∀ r, t.rnode ≠ .node r := fun r ↦ by rw [hnull]; simp
    obtain ⟨hwf, hslim, htall, hholds⟩ := storeRoot_spec h hr
      (hx.resolve_right (fun ⟨r, hr'⟩ ↦ hr r hr'))
    refine ⟨_, 0, hrun, .stored hwf rfl le_rfl ?_ (fun r hr' ↦ absurd hr' (hr r)) (fun y hy ↦ ?_)
      (hholds hnull) (fun _ ↦ hslim) (fun _ ↦ htall)⟩
    · rw [spill_of_null hnull]
      rfl
    · rw [h.holds_of_raw hr, hnull] at hy
      cases hy.1

end Jeopardy.RadixTree
