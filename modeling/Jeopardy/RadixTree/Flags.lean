import Jeopardy.RadixTree.EachSlot

/-!
# Iteration with flags

Model of `radix_tree_next_chunk` in `radix_tree/radix-tree.c` and of `radix_tree_next_slot` in
`radix_tree/radix-tree.h` for any flags, and of the two searches of the header that pass one.
Without a flag they are the functions of `Jeopardy.RadixTree.Iter`. With `RADIX_TREE_ITER_CONTIG`
both stop at the first hole, so a search finds its own index or nothing, and a loop visits one
unbroken run of indices.
-/

namespace Jeopardy.RadixTree

/-- The flags `RADIX_TREE_ITER_TAGGED` and `RADIX_TREE_ITER_CONTIG`,
`radix_tree/radix-tree.h:146–147`. The tag index in the lower bits has no effect. -/
structure Flags where
  tagged : Bool
  contig : Bool
deriving DecidableEq

/-- No flag. -/
def Flags.none : Flags := ⟨false, false⟩

/-- `RADIX_TREE_ITER_CONTIG`. -/
def Flags.contiguous : Flags := ⟨false, true⟩

@[simp] theorem none_contig : Flags.none.contig = false := rfl

@[simp] theorem contiguous_contig : Flags.contiguous.contig = true := rfl

/-- The descent, `radix_tree/radix-tree.c:704–733`. -/
def chunkLoopWith (flags : Flags) (t : Tree) :
    Nat → Entry → BitVec 64 → Except Fault ChunkStep
  | 0, _, _ => .error .diverges
  | fuel + 1, child, index => do
    let node ← entryToNode child
    let nd ← t.read node
    let (offset, child) := radixTreeDescend nd index
    match (if child = .null then
        if flags.contig then .inl .null else passHole nd offset index
      else .inr (offset, index)) with
    | .inl r => return r
    | .inr (offset, index) =>
      let child := nd.slots offset
      if nd.shift ≠ 0 ∧ child.isInternalNode then chunkLoopWith flags t fuel child index
      else return .found (chunkAt node nd offset index) (.node node offset)

/-- The part of `radix_tree_next_chunk` from the label `restart` on. -/
def restartLoopWith (flags : Flags) (t : Tree) :
    Nat → BitVec 64 → Except Fault (Option (Iter × Slot))
  | 0, _ => .error .diverges
  | fuel + 1, index => do
    let (child, maxindex, _) ← radixTreeLoadRoot t
    if index > maxindex then return none
    else if child = .null then return none
    else if child.isInternalNode then
      match ← chunkLoopWith flags t (LEVELS + 1) child index with
      | .null => return none
      | .restart index => restartLoopWith flags t fuel index
      | .found iter slot => return some (iter, slot)
    else return some (⟨index, maxindex + 1, none⟩, .root)

/-- `radix_tree_next_chunk`, `radix_tree/radix-tree.c:667–748`. -/
def radixTreeNextChunkWith (flags : Flags) (t : Tree) (fuel : Nat) (iter : Iter) :
    Except Fault (Iter × Option Slot) := do
  if flags.tagged then return (iter, none)
  else if iter.next_index = 0 ∧ iter.index ≠ 0 then return (iter, none)
  else
    match ← restartLoopWith flags t fuel iter.next_index with
    | none => return (iter, none)
    | some (iter, slot) => return (iter, some slot)

/-- The loop of `radix_tree_next_slot`, `radix_tree/radix-tree.h:318–329`, with the number of
rounds left. -/
def nextSlotLoopWith (flags : Flags) (t : Tree) :
    Nat → Slot → Iter → Except Fault (Iter × Option Slot)
  | 0, _, iter => .ok (iter, none)
  | count + 1, slot, iter => do
    let slot ← slot.succ
    let iter := { iter with index := iter.index + 1 }
    let entry ← t.load slot
    if entry ≠ .null then return (iter, some slot)
    -- forbid switching to the next chunk
    else if flags.contig then return ({ iter with next_index := 0 }, none)
    else nextSlotLoopWith flags t count slot iter

/-- `radix_tree_next_slot`, `radix_tree/radix-tree.h:292–335`. -/
def radixTreeNextSlotWith (flags : Flags) (t : Tree) (slot : Slot) (iter : Iter) :
    Except Fault (Iter × Option Slot) :=
  if flags.tagged then .ok (iter, some slot)
  else nextSlotLoopWith flags t (radixTreeChunkSize iter - 1).toNat slot iter

/-- `radix_tree_iter_find`, `radix_tree/radix-tree.h:217–223`. -/
def radixTreeIterFind (t : Tree) (fuel : Nat) (index : BitVec 64) :
    Except Fault (Iter × Option Slot) :=
  radixTreeNextChunkWith .none t fuel (radixTreeIterInit index)

/-- `radix_tree_iter_lookup`, `radix_tree/radix-tree.h:199–205`. -/
def radixTreeIterLookup (t : Tree) (fuel : Nat) (index : BitVec 64) :
    Except Fault (Iter × Option Slot) :=
  radixTreeNextChunkWith .contiguous t fuel (radixTreeIterInit index)

/-- The loop `for (slot = radix_tree_iter_init(iter, start); slot || (slot =
radix_tree_next_chunk(root, iter, flags)); slot = radix_tree_next_slot(slot, iter, flags))`:
`iter.index` and `*slot` at each visit. -/
def eachLoopWith (flags : Flags) (t : Tree) (restarts : Nat) :
    Nat → Option Slot → Iter → Except Fault (List (BitVec 64 × Entry))
  | 0, _, _ => .error .diverges
  | fuel + 1, slot, iter => do
    let (iter, slot) ← (match slot with
      | some slot => return (iter, some slot)
      | none => radixTreeNextChunkWith flags t restarts iter)
    match slot with
    | none => return []
    | some slot =>
      let entry ← t.load slot
      let (iter', slot') ← radixTreeNextSlotWith flags t slot iter
      let visits ← eachLoopWith flags t restarts fuel slot' iter'
      return (iter.index, entry) :: visits

/-- A whole loop from `start` on. -/
def eachSlotWith (flags : Flags) (t : Tree) (fuel : Nat) (start : BitVec 64) :
    Except Fault (List (BitVec 64 × Entry)) :=
  eachLoopWith flags t fuel fuel none (radixTreeIterInit start)

/-! ### No flag -/

section Plain

variable (t : Tree)

theorem chunkLoopWith_none (fuel : Nat) (child : Entry) (index : BitVec 64) :
    chunkLoopWith .none t fuel child index = chunkLoop t fuel child index := by
  induction fuel generalizing child index with
  | zero => rfl
  | succ fuel ih =>
    rw [chunkLoopWith]
    simp only [ih, none_contig, Bool.false_eq_true, if_false]
    rfl

theorem restartLoopWith_none (fuel : Nat) (index : BitVec 64) :
    restartLoopWith .none t fuel index = restartLoop t fuel index := by
  induction fuel generalizing index with
  | zero => rfl
  | succ fuel ih =>
    rw [restartLoopWith]
    simp only [chunkLoopWith_none, ih]
    rfl

theorem radixTreeNextChunkWith_none (fuel : Nat) (iter : Iter) :
    radixTreeNextChunkWith .none t fuel iter = radixTreeNextChunk t fuel iter := by
  rw [radixTreeNextChunkWith, radixTreeNextChunk, restartLoopWith_none]
  exact if_neg Bool.false_ne_true

theorem nextSlotLoopWith_none (count : Nat) (slot : Slot) (iter : Iter) :
    nextSlotLoopWith .none t count slot iter = nextSlotLoop t count slot iter := by
  induction count generalizing slot iter with
  | zero => rfl
  | succ count ih =>
    simp only [nextSlotLoopWith, nextSlotLoop, ih, none_contig, Bool.false_eq_true, if_false]

theorem radixTreeNextSlotWith_none (slot : Slot) (iter : Iter) :
    radixTreeNextSlotWith .none t slot iter = radixTreeNextSlot t slot iter :=
  nextSlotLoopWith_none t _ slot iter

/-- Without a flag the loop is `radix_tree_for_each_slot`. -/
theorem eachLoopWith_none (restarts fuel : Nat) (slot : Option Slot) (iter : Iter) :
    eachLoopWith .none t restarts fuel slot iter = forEachLoop t restarts fuel slot iter := by
  induction fuel generalizing slot iter with
  | zero => rfl
  | succ fuel ih =>
    simp only [eachLoopWith, radixTreeNextChunkWith_none, radixTreeNextSlotWith_none, ih]
    rfl

theorem eachSlotWith_none (fuel : Nat) (start : BitVec 64) :
    eachSlotWith .none t fuel start = forEachSlot t fuel start :=
  eachLoopWith_none t fuel fuel none _

end Plain

/-! ### Stopping at the first hole -/

/-- The search for index `a` stops there, or there is nothing at it. -/
inductive Sought (t : Tree) (i : BitVec 64) : Option (Iter × Slot) → Prop where
  | none (hn : ∀ x, ¬ Holds t i x) : Sought t i none
  | some {iter : Iter} {slot : Slot} (hat : At t iter slot) (hi : iter.index = i) :
      Sought t i (some (iter, slot))

section Descent

variable {t : Tree} {p : Nat} {nd : Node} {i : BitVec 64}

/-- Induction on the level of the present node. -/
theorem chunkLoopWith_contiguous (h : WF t) {fuel : Nat} (hp : On t i p nd)
    (hfuel : nd.shift < 6 * fuel) :
    (chunkLoopWith .contiguous t fuel (.node p) i = .ok .null ∧ ∀ x, ¬ Holds t i x) ∨
      ∃ iter slot, chunkLoopWith .contiguous t fuel (.node p) i = .ok (.found iter slot) ∧
        At t iter slot ∧ iter.index = i := by
  induction fuel generalizing p nd with
  | zero => omega
  | succ fuel ih =>
    rw [chunkLoopWith, entryToNode, Fault.ok_bind, Tree.read_eq hp.1, Fault.ok_bind]
    simp only [radixTreeDescend, contiguous_contig, if_true]
    by_cases hnull : nd.slots (slotOffset i nd.shift) = .null
    · rw [if_pos hnull]
      exact .inl ⟨rfl, h.not_holds_of_null hp hnull⟩
    · simp only [if_neg hnull]
      by_cases hz : nd.shift = 0
      · rw [if_neg (fun hc ↦ hc.1 hz)]
        rw [hz] at hnull ⊢
        cases hx : nd.slots (slotOffset i 0) with
        | null => exact absurd hx hnull
        | node q => exact absurd hx (h.leaf hp.1 hz)
        | item x => exact .inr ⟨_, _, rfl, by rw [chunkAt_leaf p hz]; exact .leaf hp hz hx rfl,
            by rw [chunkAt_leaf p hz]⟩
      · obtain ⟨q, nq, hslot, hq, hs⟩ := h.on_child hp hz hnull
        rw [hslot, if_pos ⟨hz, isInternalNode_node q⟩]
        exact ih hq (by omega)

/-- No search for a single index restarts. -/
theorem restartLoopWith_contiguous (h : WF t) (fuel : Nat) (i : BitVec 64) :
    ∃ r, restartLoopWith .contiguous t (fuel + 1) i = .ok r ∧ Sought t i r := by
  rw [restartLoopWith]
  by_cases hroot : ∃ r, t.rnode = .node r
  · obtain ⟨r, hr⟩ := hroot
    obtain ⟨nr, hnr, -⟩ := h.root hr
    rw [radixTreeLoadRoot_node hr hnr, Fault.ok_bind]
    by_cases hi : nodeMaxindex nr < i
    · refine ⟨none, if_pos hi, .none (fun x hx ↦ ?_)⟩
      rcases hx with ⟨hroot, -⟩ | ⟨p, nd, hp, -, -⟩
      · rw [hr] at hroot
        cases hroot
      · exact h.not_maxindex_lt hp hr hnr hi
    · simp only [if_neg hi, if_neg (show Entry.node r ≠ .null by simp), isInternalNode_node,
        if_true]
      have hlevels : nr.shift < 6 * (LEVELS + 1) := by
        have := h.shift_le hnr
        unfold LEVELS
        omega
      rcases chunkLoopWith_contiguous h (h.on_root hr hnr hi) hlevels with
        ⟨hrun, hn⟩ | ⟨iter, slot, hrun, hat, hidx⟩
      · rw [hrun, Fault.ok_bind]
        exact ⟨none, rfl, .none hn⟩
      · rw [hrun, Fault.ok_bind]
        exact ⟨_, rfl, .some hat hidx⟩
  · have hraw : ∀ r, t.rnode ≠ .node r := fun r hr ↦ hroot ⟨r, hr⟩
    have hholds := fun x ↦ h.holds_of_raw hraw i x
    rw [radixTreeLoadRoot_raw h hraw, Fault.ok_bind]
    by_cases hi : i = 0
    · subst hi
      simp only [if_neg (show ¬ (0 : BitVec 64) > 0 by decide), h.isInternalNode_eq hraw]
      cases hr : t.rnode with
      | node r => exact absurd hr (hraw r)
      | null =>
        refine ⟨none, rfl, .none (fun x hx ↦ ?_)⟩
        rw [hholds, hr] at hx
        cases hx.1
      | item x =>
        refine ⟨some (⟨0, 0 + 1, none⟩, .root), ?_, .some (.root hr) rfl⟩
        rw [if_neg (by simp), if_neg Bool.false_ne_true]
        rfl
    · exact ⟨none, if_pos (pos_of_ne_zero hi), .none (fun x hx ↦ hi ((hholds x).mp hx).2)⟩

/-- The next chunk of a loop that has index `b` pending. -/
theorem radixTreeNextChunkWith_contiguous (h : WF t) {restarts b : Nat} {iter : Iter}
    (hrestarts : 0 < restarts) (hp : Pending iter b) :
    ∃ iter' slot', radixTreeNextChunkWith .contiguous t restarts iter = .ok (iter', slot') ∧
      (slot' = none → ∀ i x, i.toNat = b → ¬ Holds t i x) ∧
      ∀ slot, slot' = some slot → At t iter' slot ∧ iter'.index.toNat = b := by
  obtain ⟨n, rfl⟩ := Nat.exists_eq_add_of_le' hrestarts
  rw [radixTreeNextChunkWith, if_neg (show Flags.contiguous.tagged ≠ true from Bool.false_ne_true)]
  rw [Pending] at hp
  by_cases hc : iter.next_index = 0 ∧ iter.index ≠ 0
  · rw [if_pos hc] at hp
    rw [if_pos hc]
    refine ⟨iter, none, rfl, fun _ i x hi ↦ ?_, (fun _ hslot ↦ by cases hslot)⟩
    have := i.isLt
    omega
  · rw [if_neg hc] at hp
    obtain ⟨r, hrun, hs⟩ := restartLoopWith_contiguous h n iter.next_index
    rw [if_neg hc, hrun]
    cases hs with
    | none hn =>
      refine ⟨iter, none, rfl, fun _ i x hi ↦ ?_, (fun _ hslot ↦ by cases hslot)⟩
      obtain rfl : i = iter.next_index := BitVec.eq_of_toNat_eq (hi.trans hp)
      exact hn x
    | some hat hi =>
      refine ⟨_, some _, rfl, (fun hnone ↦ by cases hnone), fun slot hslot ↦ ?_⟩
      obtain rfl := Option.some.inj hslot
      exact ⟨hat, by rw [hi, hp]⟩

end Descent

/-- The loop has next to visit index `a`, and stands so; or it has found nothing there. -/
inductive Adjoins (t : Tree) (a : Nat) : Iter → Option Slot → Prop where
  | here {iter : Iter} {slot : Slot} (hat : At t iter slot) (hi : iter.index.toNat = a) :
      Adjoins t a iter (some slot)
  | pending {iter : Iter} (hp : Pending iter a) : Adjoins t a iter none
  | closed {iter : Iter} (hp : Pending iter (2 ^ 64))
      (hn : ∀ i x, i.toNat = a → ¬ Holds t i x) : Adjoins t a iter none

section NextSlot

variable {t : Tree} {q : Nat} {nq : Node} {i : BitVec 64}

/-- The next slot of the leaf holds the next index or ends the loop. -/
theorem nextSlotLoopWith_contiguous (h : WF t) {count : Nat} {next : BitVec 64} (hq : On t i q nq)
    (hz : nq.shift = 0) (hcount : (slotOffset i 0).val + count = 63)
    (hn : next = (i ||| Radix.lowMask 64 6) + 1) :
    ∃ iter slot, nextSlotLoopWith .contiguous t count (.node q (slotOffset i 0)) ⟨i, next, some q⟩
        = .ok (iter, slot) ∧ Adjoins t (i.toNat + 1) iter slot := by
  cases count with
  | zero => exact ⟨_, none, rfl, .pending (pending_chunkEnd hn hcount _)⟩
  | succ count =>
    have ho : (slotOffset i 0).val + 1 < 64 := by omega
    obtain ⟨hval, hq', hoff⟩ := on_succ hq hz ho
    have hslot : (⟨(slotOffset i 0).val + 1, ho⟩ : Fin 64) = slotOffset (i + 1) 0 :=
      Fin.ext hoff.symm
    rw [nextSlotLoopWith, Slot.succ, dif_pos ho, Fault.ok_bind, hslot]
    simp only [Tree.load_eq hq'.1, Fault.ok_bind, contiguous_contig, if_true]
    by_cases hne : nq.slots (slotOffset (i + 1) 0) ≠ .null
    · refine ⟨⟨i + 1, next, some q⟩, some (.node q (slotOffset (i + 1) 0)), if_pos hne, ?_⟩
      cases hx : nq.slots (slotOffset (i + 1) 0) with
      | null => exact absurd hx hne
      | node c => exact absurd hx (h.leaf hq.1 hz)
      | item x =>
        exact .here (.leaf hq' hz hx (by rw [hn, chunkEnd_succ ho hval])) hval
    · refine ⟨⟨i + 1, 0, some q⟩, none, if_neg hne, .closed ?_ (fun j x hj ↦ ?_)⟩
      · rw [Pending, if_pos]
        refine ⟨rfl, fun h0 ↦ ?_⟩
        rw [show i + 1 = 0 from h0] at hval
        cases hval
      · obtain rfl : j = i + 1 := BitVec.eq_of_toNat_eq (hj.trans hval.symm)
        exact h.not_holds_of_null hq' (by rw [hz]; exact not_not.mp hne) x

/-- One step inside a chunk. -/
theorem radixTreeNextSlotWith_contiguous (h : WF t) {iter : Iter} {slot : Slot}
    (hat : At t iter slot) :
    ∃ iter' slot', radixTreeNextSlotWith .contiguous t slot iter = .ok (iter', slot') ∧
      Adjoins t (iter.index.toNat + 1) iter' slot' := by
  cases hat with
  | root hr => exact ⟨⟨0, 1, none⟩, none, rfl, .pending (by rw [Pending]; rfl)⟩
  | @leaf q nq i next x hq hz hx hn =>
    have ho := (slotOffset i 0).isLt
    rw [radixTreeNextSlotWith, if_neg (show Flags.contiguous.tagged ≠ true from Bool.false_ne_true),
      chunkSize_leaf hn]
    exact nextSlotLoopWith_contiguous h hq hz (by omega) hn

end NextSlot

/-! ### One run of indices -/

/-- The visits from index `a` on go up one by one and end before the first absent index. -/
inductive Unbroken (t : Tree) : Nat → List (BitVec 64 × Entry) → Prop where
  | nil {a : Nat} (hn : ∀ i x, i.toNat = a → ¬ Holds t i x) : Unbroken t a []
  | cons {i : BitVec 64} {x : Item} {visits : List (BitVec 64 × Entry)} (hx : Holds t i x)
      (rest : Unbroken t (i.toNat + 1) visits) : Unbroken t i.toNat ((i, .item x) :: visits)

/-- Induction on the fuel: every visit is at the next index. -/
theorem eachLoopWith_contiguous {t : Tree} (h : WF t) {restarts fuel a : Nat} {iter : Iter}
    {slot : Option Slot} (hrestarts : 0 < restarts) (hadj : Adjoins t a iter slot)
    (hfuel : 2 ^ 64 < a + fuel) (ha : a ≤ 2 ^ 64) :
    ∃ visits, eachLoopWith .contiguous t restarts fuel slot iter = .ok visits ∧
      Unbroken t a visits := by
  induction fuel generalizing a iter slot with
  | zero => omega
  | succ fuel ih =>
    -- the body of the loop at a slot, and the rest
    have hbody : ∀ {iter : Iter} {slot : Slot}, At t iter slot → iter.index.toNat = a →
        ∃ visits, (do
          let entry ← t.load slot
          let (iter', slot') ← radixTreeNextSlotWith .contiguous t slot iter
          let visits ← eachLoopWith .contiguous t restarts fuel slot' iter'
          return (iter.index, entry) :: visits) = Except.ok visits ∧ Unbroken t a visits := by
      intro iter slot hat hi
      obtain ⟨x, hload, hx⟩ := hat.load_eq
      obtain ⟨iter', slot', hnext, hadj'⟩ := radixTreeNextSlotWith_contiguous h hat
      have hlt := iter.index.isLt
      obtain ⟨visits, hrun, hvis⟩ := ih hadj' (by omega) (by omega)
      refine ⟨(iter.index, .item x) :: visits, ?_, hi ▸ .cons hx hvis⟩
      rw [hload, Fault.ok_bind, hnext, Fault.ok_bind]
      simp only [hrun, Fault.ok_bind]
      rfl
    -- between two chunks
    have hchunk : ∀ {iter : Iter} {b : Nat}, Pending iter b → (b = a ∨ b = 2 ^ 64 ∧
        ∀ i x, i.toNat = a → ¬ Holds t i x) → ∃ visits,
          eachLoopWith .contiguous t restarts (fuel + 1) none iter = .ok visits ∧
            Unbroken t a visits := by
      intro iter b hp hb
      obtain ⟨iter', slot', hrun, hnone, hsome⟩ :=
        radixTreeNextChunkWith_contiguous h hrestarts hp
      have hdef : eachLoopWith .contiguous t restarts (fuel + 1) none iter = (do
          let (iter, slot) ← radixTreeNextChunkWith .contiguous t restarts iter
          match slot with
          | none => return []
          | some slot =>
            let entry ← t.load slot
            let (iter', slot') ← radixTreeNextSlotWith .contiguous t slot iter
            let visits ← eachLoopWith .contiguous t restarts fuel slot' iter'
            return (iter.index, entry) :: visits) := rfl
      rw [hdef, hrun, Fault.ok_bind]
      cases slot' with
      | none =>
        refine ⟨[], rfl, .nil ?_⟩
        rcases hb with rfl | ⟨-, hn⟩
        · exact hnone rfl
        · exact hn
      | some slot' =>
        obtain ⟨hat, hi⟩ := hsome slot' rfl
        have hlt := iter'.index.isLt
        exact hbody hat (hi.trans (hb.resolve_right (by omega)))
    cases hadj with
    | here hat hi => exact hbody hat hi
    | pending hp => exact hchunk hp (.inl rfl)
    | closed hp hn => exact hchunk hp (.inr ⟨rfl, hn⟩)

/-- The index `k` steps behind `a`. -/
def stepsFrom (a k : Nat) : BitVec 64 := BitVec.ofNat 64 (a + k)

theorem toNat_stepsFrom {a k : Nat} (h : a + k < 2 ^ 64) : (stepsFrom a k).toNat = a + k := by
  rw [stepsFrom, BitVec.toNat_ofNat, Nat.mod_eq_of_lt h]

/-- An unbroken run in terms of the map: as many indices from `a` on as are present without a
gap. -/
theorem Unbroken.eq_range {t : Tree} {f : BitVec 64 → Option Item} (h : Stands t f) {a : Nat}
    {visits : List (BitVec 64 × Entry)} (hu : Unbroken t a visits) (ha : a ≤ 2 ^ 64) :
    ∃ n, visits = (List.range n).map (fun k ↦ (stepsFrom a k, answer (f (stepsFrom a k)))) ∧
      a + n ≤ 2 ^ 64 ∧ (∀ k < n, f (stepsFrom a k) ≠ none) ∧
      (a + n < 2 ^ 64 → f (stepsFrom a n) = none) := by
  induction hu with
  | @nil a hn =>
    refine ⟨0, rfl, ha, fun k hk ↦ absurd hk (Nat.not_lt_zero k), fun hlt ↦ ?_⟩
    rw [Option.eq_none_iff_forall_ne_some]
    exact fun x hx ↦ hn _ x (toNat_stepsFrom hlt) ((h.holds _ x).mpr hx)
  | @cons i x visits hx rest ih =>
    have hi := i.isLt
    obtain ⟨n, hvis, hle, hall, hend⟩ := ih (by omega)
    have hshift : ∀ k, stepsFrom i.toNat (k + 1) = stepsFrom (i.toNat + 1) k := fun k ↦ by
      rw [stepsFrom, stepsFrom, Nat.add_right_comm, Nat.add_assoc]
    have hself : stepsFrom i.toNat 0 = i := BitVec.eq_of_toNat_eq (toNat_stepsFrom hi)
    have hf : f i = some x := (h.holds i x).mp hx
    refine ⟨n + 1, ?_, by omega, fun k hk ↦ ?_, fun hlt ↦ ?_⟩
    · rw [List.range_succ_eq_map, List.map_cons, hself, hf, hvis, List.map_map]
      simp only [Function.comp_def, Nat.succ_eq_add_one, hshift, answer_some]
    · cases k with
      | zero =>
        rw [hself, hf]
        exact Option.some_ne_none x
      | succ k =>
        rw [hshift]
        exact hall k (by omega)
    · rw [hshift]
      exact hend (by omega)

/-! ### Searches and runs in a tree that stands for a map -/

/-- The iterator stands at the slot that `radix_tree_lookup_slot` answers for its index. -/
theorem At.lookupSlot_eq {t : Tree} (h : WF t) {iter : Iter} {slot : Slot} (hat : At t iter slot) :
    radixTreeLookupSlot t iter.index = .ok (some slot) := by
  obtain ⟨x, hload, hx⟩ := hat.load_eq
  obtain ⟨e, out, hrun, hf⟩ := rawRadixTreeLookup_spec h iter.index
  have he : e ≠ .null := by
    rw [(hf.entry_iff h x).mpr hx]
    simp
  rw [radixTreeLookupSlot, hrun, Fault.ok_bind]
  simp only [if_neg he]
  cases hf with
  | beyond hnone => exact absurd hx (hnone x)
  | root hr hi =>
    cases hat with
    | root _ => rfl
    | leaf hq _ _ _ =>
      have hq1 := hq.1
      rw [h.node_eq_none hr] at hq1
      cases hq1
  | @node p nd hp hend =>
    have hz := hend.resolve_right he
    cases hat with
    | root hr =>
      have hp1 := hp.1
      rw [h.node_eq_none (fun r hr' ↦ by rw [hr] at hr'; cases hr')] at hp1
      cases hp1
    | leaf hq hzq _ _ =>
      rw [h.on_unique hp hq (hz.trans hzq.symm), hz]
      rfl

namespace Stands

variable {t : Tree} {f : BitVec 64 → Option Item}

theorem vacant_iff (h : Stands t f) {a b : Nat} :
    Vacant t a b ↔ ∀ i : BitVec 64, a ≤ i.toNat → i.toNat < b → f i = none := by
  constructor
  · intro hv i ha hb
    rw [Option.eq_none_iff_forall_ne_some]
    exact fun x hx ↦ absurd (hv i x ((h.holds i x).mpr hx) ha) (not_le.mpr hb)
  · intro hn i x hx ha
    by_contra hb
    have hnone := hn i ha (not_le.mp hb)
    rw [(h.holds i x).mp hx] at hnone
    cases hnone

/-- `radix_tree_iter_find` answers the slot of the least present index from `start` on. -/
theorem iterFind (h : Stands t f) (start : BitVec 64) {fuel : Nat} (hfuel : 2 ^ 64 ≤ fuel) :
    ∃ iter slot, radixTreeIterFind t fuel start = .ok (iter, slot) ∧
      match slot with
      | none => ∀ i, start ≤ i → f i = none
      | some s => start ≤ iter.index ∧ f iter.index ≠ none ∧
          radixTreeLookupSlot t iter.index = .ok (some s) ∧
          ∀ i, start ≤ i → i < iter.index → f i = none := by
  obtain ⟨iter, slot, hrun, hre⟩ := radixTreeNextChunk_spec h.wf hfuel (pending_init start)
  refine ⟨iter, slot, (radixTreeNextChunkWith_none t fuel _).trans hrun, ?_⟩
  cases slot with
  | none =>
    cases hre with
    | none hv => exact fun i hi ↦ h.vacant_iff.mp hv i (BitVec.le_def.mp hi) i.isLt
  | some slot =>
    cases hre with
    | some hat hle hv =>
      obtain ⟨x, -, hx⟩ := hat.load_eq
      refine ⟨BitVec.le_def.mpr hle, ?_, hat.lookupSlot_eq h.wf, fun i hi hlt ↦
        h.vacant_iff.mp hv i (BitVec.le_def.mp hi) (BitVec.lt_def.mp hlt)⟩
      rw [(h.holds _ x).mp hx]
      exact Option.some_ne_none x

/-- `radix_tree_iter_lookup` answers what `radix_tree_lookup_slot` does. -/
theorem iterLookup (h : Stands t f) (i : BitVec 64) {fuel : Nat} (hfuel : 0 < fuel) :
    ∃ iter slot, radixTreeIterLookup t fuel i = .ok (iter, slot) ∧
      radixTreeLookupSlot t i = .ok slot ∧ (slot ≠ none → iter.index = i) := by
  obtain ⟨iter, slot, hrun, hnone, hsome⟩ :=
    radixTreeNextChunkWith_contiguous h.wf hfuel (pending_init i)
  refine ⟨iter, slot, hrun, ?_⟩
  cases slot with
  | none =>
    refine ⟨?_, fun hc ↦ absurd rfl hc⟩
    obtain ⟨e, out, hlook, hf⟩ := rawRadixTreeLookup_spec h.wf i
    rw [radixTreeLookupSlot, hlook, Fault.ok_bind]
    exact if_pos ((hf.entry_null_iff h.wf).mpr (fun x ↦ hnone rfl i x rfl))
  | some slot =>
    obtain ⟨hat, hi⟩ := hsome slot rfl
    obtain rfl : iter.index = i := BitVec.eq_of_toNat_eq hi
    exact ⟨hat.lookupSlot_eq h.wf, fun _ ↦ rfl⟩

/-- A contiguous loop. -/
theorem eachSlot_contiguous (h : Stands t f) (start : BitVec 64) {fuel : Nat}
    (hfuel : 2 ^ 64 < fuel) :
    ∃ n, eachSlotWith .contiguous t fuel start = .ok ((List.range n).map
        (fun k ↦ (stepsFrom start.toNat k, answer (f (stepsFrom start.toNat k))))) ∧
      start.toNat + n ≤ 2 ^ 64 ∧ (∀ k < n, f (stepsFrom start.toNat k) ≠ none) ∧
      (start.toNat + n < 2 ^ 64 → f (stepsFrom start.toNat n) = none) := by
  obtain ⟨visits, hrun, hu⟩ := eachLoopWith_contiguous h.wf (show 0 < fuel by omega)
    (.pending (pending_init start)) (show 2 ^ 64 < start.toNat + fuel by omega) start.isLt.le
  obtain ⟨n, rfl, hrest⟩ := hu.eq_range h start.isLt.le
  exact ⟨n, hrun, hrest⟩

end Stands

/-- A program whose deletions are careful. -/
theorem run_careful {oom : Nat → Bool} {t₀ : Tree} {calls : List Call}
    (h0 : radixTreeRootAlloc oom = some t₀) (h1 : oom 1 = false)
    (hcare : Along Call.careful t₀ calls = true) :
    ∃ t rs, run t₀ calls = .ok (t, rs) ∧ Stands t (history calls rs) := by
  obtain rfl := rootAlloc_eq h0 h1
  exact run_total (P := Call.careful) (I := Stands) (fun _ _ _ h hc ↦ h.step hc)
    (stands_emptyTree oom).1 hcare

/-- **Searches.** In every tree that insertions and careful deletions lead to,
`radix_tree_iter_find` answers the slot of the least present index from the given one on, and
`NULL` only if there is none; `radix_tree_iter_lookup` answers the slot that
`radix_tree_lookup_slot` does. -/
theorem iterSearches_run {oom : Nat → Bool} {t₀ : Tree} {calls : List Call}
    (h0 : radixTreeRootAlloc oom = some t₀) (h1 : oom 1 = false)
    (hcare : Along Call.careful t₀ calls = true) (start : BitVec 64) {fuel : Nat}
    (hfuel : 2 ^ 64 ≤ fuel) :
    ∃ t rs, run t₀ calls = .ok (t, rs) ∧
      (∃ iter slot, radixTreeIterFind t fuel start = .ok (iter, slot) ∧
        match slot with
        | none => ∀ i, start ≤ i → history calls rs i = none
        | some s => start ≤ iter.index ∧ history calls rs iter.index ≠ none ∧
            radixTreeLookupSlot t iter.index = .ok (some s) ∧
            ∀ i, start ≤ i → i < iter.index → history calls rs i = none) ∧
      ∃ iter slot, radixTreeIterLookup t fuel start = .ok (iter, slot) ∧
        radixTreeLookupSlot t start = .ok slot ∧ (slot ≠ none → iter.index = start) := by
  obtain ⟨t, rs, hrun, hst⟩ := run_careful h0 h1 hcare
  exact ⟨t, rs, hrun, hst.iterFind start hfuel, hst.iterLookup start (by omega)⟩

/-- `iterSearches_run` from an index between the items of two leaves. -/
theorem iterSearches_run_two_leaves :
    ∃ t rs, run (emptyTree (fun _ ↦ false))
        [.insert 5 ⟨4, by decide⟩, .insert 70 ⟨8, by decide⟩] = .ok (t, rs) ∧
      (∃ iter slot, radixTreeIterFind t (2 ^ 64) 6 = .ok (iter, slot) ∧
        match slot with
        | none => ∀ i, 6 ≤ i → history [.insert 5 ⟨4, by decide⟩, .insert 70 ⟨8, by decide⟩] rs i
            = none
        | some s => 6 ≤ iter.index ∧
            history [.insert 5 ⟨4, by decide⟩, .insert 70 ⟨8, by decide⟩] rs iter.index ≠ none ∧
            radixTreeLookupSlot t iter.index = .ok (some s) ∧
            ∀ i, 6 ≤ i → i < iter.index →
              history [.insert 5 ⟨4, by decide⟩, .insert 70 ⟨8, by decide⟩] rs i = none) ∧
      ∃ iter slot, radixTreeIterLookup t (2 ^ 64) 6 = .ok (iter, slot) ∧
        radixTreeLookupSlot t 6 = .ok slot ∧ (slot ≠ none → iter.index = 6) :=
  iterSearches_run (show radixTreeRootAlloc (fun _ ↦ false) = some (emptyTree _) from rfl) rfl
    (by decide +kernel) 6 le_rfl

/-- **Contiguous iteration.** In every tree that insertions and careful deletions lead to, the
loop with `RADIX_TREE_ITER_CONTIG` visits the indices from the given one on, each with its item,
up to the first that is absent and no further, across the bounds of leaves and subtrees. -/
theorem eachSlot_contiguous_run {oom : Nat → Bool} {t₀ : Tree} {calls : List Call}
    (h0 : radixTreeRootAlloc oom = some t₀) (h1 : oom 1 = false)
    (hcare : Along Call.careful t₀ calls = true) (start : BitVec 64) {fuel : Nat}
    (hfuel : 2 ^ 64 < fuel) :
    ∃ t rs n, run t₀ calls = .ok (t, rs) ∧
      eachSlotWith .contiguous t fuel start = .ok ((List.range n).map (fun k ↦
        (stepsFrom start.toNat k, answer (history calls rs (stepsFrom start.toNat k))))) ∧
      start.toNat + n ≤ 2 ^ 64 ∧
      (∀ k < n, history calls rs (stepsFrom start.toNat k) ≠ none) ∧
      (start.toNat + n < 2 ^ 64 → history calls rs (stepsFrom start.toNat n) = none) := by
  obtain ⟨t, rs, hrun, hst⟩ := run_careful h0 h1 hcare
  obtain ⟨n, hloop, hrest⟩ := hst.eachSlot_contiguous start hfuel
  exact ⟨t, rs, n, hrun, hloop, hrest⟩

/-- `eachSlot_contiguous_run` of three indices, two of them next to each other. -/
theorem eachSlot_contiguous_run_two_leaves :
    ∃ t rs n, run (emptyTree (fun _ ↦ false)) [.insert 63 ⟨4, by decide⟩,
        .insert 64 ⟨8, by decide⟩, .insert 70 ⟨12, by decide⟩] = .ok (t, rs) ∧
      eachSlotWith .contiguous t (2 ^ 65) 63 = .ok ((List.range n).map (fun k ↦
        (stepsFrom (63 : BitVec 64).toNat k, answer (history [.insert 63 ⟨4, by decide⟩,
          .insert 64 ⟨8, by decide⟩, .insert 70 ⟨12, by decide⟩] rs
            (stepsFrom (63 : BitVec 64).toNat k))))) ∧
      (63 : BitVec 64).toNat + n ≤ 2 ^ 64 ∧
      (∀ k < n, history [.insert 63 ⟨4, by decide⟩, .insert 64 ⟨8, by decide⟩,
        .insert 70 ⟨12, by decide⟩] rs (stepsFrom (63 : BitVec 64).toNat k) ≠ none) ∧
      ((63 : BitVec 64).toNat + n < 2 ^ 64 → history [.insert 63 ⟨4, by decide⟩,
        .insert 64 ⟨8, by decide⟩, .insert 70 ⟨12, by decide⟩] rs
          (stepsFrom (63 : BitVec 64).toNat n) = none) :=
  eachSlot_contiguous_run (show radixTreeRootAlloc (fun _ ↦ false) = some (emptyTree _) from rfl)
    rfl (by decide +kernel) 63 (Nat.pow_lt_pow_right (by decide) (by decide))

end Jeopardy.RadixTree
