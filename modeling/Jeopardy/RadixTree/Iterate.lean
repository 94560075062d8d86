import Jeopardy.RadixTree.Invariant
import Jeopardy.RadixTree.Iter

/-!
# Iteration is exact

Whatever the loop has still to visit is described by one number: the present indices from `a` on.
Finding the next chunk, moving on inside a chunk, and leaving a chunk each raise `a` over vacant
indices only, and a visit raises it by at least one. So `2^64` rounds suffice.
-/

namespace Jeopardy.RadixTree

/-- What `radix_tree_next_chunk` finds from index `a` on. -/
inductive Reached (t : Tree) (a : Nat) : Option (Iter × Slot) → Prop where
  | none (hv : Vacant t a (2 ^ 64)) : Reached t a none
  | some {iter : Iter} {slot : Slot} (hat : At t iter slot) (hle : a ≤ iter.index.toNat)
      (hv : Vacant t a iter.index.toNat) : Reached t a (some (iter, slot))

theorem Reached.of_vacant {t : Tree} {a b : Nat} {r : Option (Iter × Slot)} (hab : a ≤ b)
    (hv : Vacant t a b) (h : Reached t b r) : Reached t a r := by
  cases h with
  | none hv' => exact .none (hv.trans hv')
  | some hat hle hv' => exact .some hat (hab.trans hle) (hv.trans hv')

section Restart

variable {t : Tree}

theorem restartLoop_node (h : WF t) {r : Nat} {nr : Node} (hr : t.rnode = .node r)
    (hnr : t.node r = some nr) {fuel : Nat} {i : BitVec 64}
    (hagain : ∀ j : BitVec 64, i.toNat < j.toNat →
      ∃ r, restartLoop t fuel j = .ok r ∧ Reached t j.toNat r) :
    ∃ r, restartLoop t (fuel + 1) i = .ok r ∧ Reached t i.toNat r := by
  rw [restartLoop, radixTreeLoadRoot_node hr hnr, Fault.ok_bind]
  by_cases hi : nodeMaxindex nr < i
  · refine ⟨none, if_pos hi, .none (fun j x hx hij ↦ ?_)⟩
    have hij' : nodeMaxindex nr < j := BitVec.lt_def.mpr ((BitVec.lt_def.mp hi).trans_le hij)
    rcases hx with ⟨hroot, -⟩ | ⟨p, nd, hp, -, -⟩
    · rw [hr] at hroot
      cases hroot
    · exact absurd hij' (h.not_maxindex_lt hp hr hnr)
  · obtain ⟨c, hc, hch⟩ := chunkLoop_spec h (LEVELS + 1) (h.on_root hr hnr hi) (by
      have := h.shift_le hnr
      unfold LEVELS
      omega)
    simp only [if_neg hi, if_neg (show Entry.node r ≠ .null by simp), isInternalNode_node, if_true,
      hc, Fault.ok_bind]
    cases hch with
    | null hv => exact ⟨none, rfl, .none hv⟩
    | @restart j hlt hv =>
      obtain ⟨s, hs, hre⟩ := hagain j hlt
      exact ⟨s, hs, hre.of_vacant hlt.le hv⟩
    | found hat hle hv => exact ⟨_, rfl, .some hat hle hv⟩

theorem restartLoop_raw (h : WF t) (hr : ∀ r, t.rnode ≠ .node r) (fuel : Nat) (i : BitVec 64) :
    ∃ r, restartLoop t (fuel + 1) i = .ok r ∧ Reached t i.toNat r := by
  rw [restartLoop, radixTreeLoadRoot_raw h hr, Fault.ok_bind]
  by_cases hi : i = 0
  · subst hi
    simp only [if_neg (show ¬ (0 : BitVec 64) > 0 by decide), h.isInternalNode_eq hr]
    cases hroot : t.rnode with
    | node r => exact absurd hroot (hr r)
    | null =>
      refine ⟨none, rfl, .none (fun j x hx _ ↦ ?_)⟩
      rw [h.holds_of_raw hr, hroot] at hx
      cases hx.1
    | item x =>
      refine ⟨some (⟨0, 0 + 1, none⟩, .root), ?_, .some (.root hroot) le_rfl (.refl t _)⟩
      rw [if_neg (by simp), if_neg Bool.false_ne_true]
      rfl
  · have hpos : i > 0 := pos_of_ne_zero hi
    refine ⟨none, if_pos hpos, .none (fun j x hx hij ↦ ?_)⟩
    obtain ⟨-, rfl⟩ := (h.holds_of_raw hr j x).mp hx
    exact absurd hij (not_le.mpr (BitVec.lt_def.mp hpos))

/-- Every restart is at a larger index. -/
theorem restartLoop_spec (h : WF t) {fuel : Nat} {i : BitVec 64} (hfuel : 2 ^ 64 ≤ i.toNat + fuel) :
    ∃ r, restartLoop t fuel i = .ok r ∧ Reached t i.toNat r := by
  induction fuel generalizing i with
  | zero =>
    have := i.isLt
    omega
  | succ fuel ih =>
    by_cases hroot : ∃ r, t.rnode = .node r
    · obtain ⟨r, hr⟩ := hroot
      obtain ⟨nr, hnr, -⟩ := h.root hr
      exact restartLoop_node h hr hnr (fun j hj ↦ ih (by omega))
    · exact restartLoop_raw h (fun r hr ↦ hroot ⟨r, hr⟩) fuel i

end Restart

/-! ### Inside a chunk -/

/-- The loop will go on with `radix_tree_next_chunk` at index `b`; `2^64` stands for the end. -/
def Pending (iter : Iter) (b : Nat) : Prop :=
  if iter.next_index = 0 ∧ iter.index ≠ 0 then b = 2 ^ 64 else b = iter.next_index.toNat

/-- The loop has still to visit the present indices from `a` on, and stands so. -/
inductive Left (t : Tree) (a : Nat) : Iter → Option Slot → Prop where
  | here {iter : Iter} {slot : Slot} (hat : At t iter slot) (hle : a ≤ iter.index.toNat)
      (hv : Vacant t a iter.index.toNat) : Left t a iter (some slot)
  | pending {iter : Iter} {b : Nat} (hp : Pending iter b) (hle : a ≤ b) (hv : Vacant t a b) :
      Left t a iter none

section NextSlot

variable {t : Tree} {q : Nat} {nq : Node} {i : BitVec 64}

theorem slotOffset_zero (i : BitVec 64) : (slotOffset i 0).val = i.toNat % 64 := by
  rw [slotOffset_val, Radix.digit, Nat.pow_zero, Nat.div_one]
  rfl

/-- The next index of a leaf. -/
theorem on_succ (hq : On t i q nq) (hz : nq.shift = 0) (ho : (slotOffset i 0).val + 1 < 64) :
    (i + 1).toNat = i.toNat + 1 ∧ On t (i + 1) q nq ∧
      (slotOffset (i + 1) 0).val = (slotOffset i 0).val + 1 := by
  rw [slotOffset_zero] at ho
  have hi := i.isLt
  have hval : (i + 1).toNat = i.toNat + 1 := by
    rw [BitVec.toNat_add, show (1 : BitVec 64).toNat = 1 from rfl, Nat.mod_eq_of_lt (by omega)]
  refine ⟨hval, hq.congr ?_, ?_⟩
  · rw [hz, hval]
    omega
  · rw [slotOffset_zero, slotOffset_zero, hval]
    omega

theorem vacant_succ (h : WF t) (hq : On t i q nq) (hz : nq.shift = 0)
    (hnull : nq.slots (slotOffset i 0) = .null) : Vacant t i.toNat (i.toNat + 1) := by
  intro j x hx hij
  by_contra hlt
  obtain rfl : j = i := BitVec.eq_of_toNat_eq (by omega)
  exact h.not_holds_of_null hq (by rw [hz]; exact hnull) x hx

/-- The end of the chunk of an index. -/
theorem toNat_chunkEnd (i : BitVec 64) :
    ((i ||| Radix.lowMask 64 6) + 1).toNat = (i.toNat / 64 * 64 + 64) % 2 ^ 64 := by
  rw [BitVec.toNat_add, Radix.toNat_or_lowMask i (by decide)]
  rfl

/-- Behind the last slot of a leaf the loop goes on at the next chunk. -/
theorem pending_chunkEnd {i next : BitVec 64} (hn : next = (i ||| Radix.lowMask 64 6) + 1)
    (hlast : (slotOffset i 0).val = 63) (node : Option Nat) :
    Pending ⟨i, next, node⟩ (i.toNat + 1) := by
  have hi := i.isLt
  have hval := toNat_chunkEnd i
  rw [← hn] at hval
  rw [slotOffset_zero] at hlast
  rw [Pending]
  split
  · next hc =>
    have h0 := congrArg BitVec.toNat hc.1
    simp only at h0
    rw [hval] at h0
    have h0' : (i.toNat / 64 * 64 + 64) % 2 ^ 64 = 0 := h0
    omega
  · next hc =>
    by_cases htop : i.toNat + 1 = 2 ^ 64
    · refine absurd ⟨BitVec.eq_of_toNat_eq ?_, fun h0 ↦ ?_⟩ hc
      · rw [hval]
        show _ = 0
        omega
      · rw [show i = 0 from h0] at hlast
        cases hlast
    · rw [hval]
      omega

theorem chunkEnd_succ (ho : (slotOffset i 0).val + 1 < 64) (hval : (i + 1).toNat = i.toNat + 1) :
    (i + 1 ||| Radix.lowMask 64 6) + 1 = (i ||| Radix.lowMask 64 6) + 1 := by
  rw [slotOffset_zero] at ho
  apply BitVec.eq_of_toNat_eq
  rw [toNat_chunkEnd, toNat_chunkEnd, hval]
  omega

/-- Induction on the slots left in the leaf. -/
theorem nextSlotLoop_spec (h : WF t) {count : Nat} {next : BitVec 64} (hq : On t i q nq)
    (hz : nq.shift = 0) (hcount : (slotOffset i 0).val + count = 63)
    (hn : next = (i ||| Radix.lowMask 64 6) + 1) :
    ∃ iter slot, nextSlotLoop t count (.node q (slotOffset i 0)) ⟨i, next, some q⟩
        = .ok (iter, slot) ∧ Left t (i.toNat + 1) iter slot := by
  induction count generalizing i with
  | zero =>
    exact ⟨_, none, rfl, .pending (pending_chunkEnd hn hcount _) le_rfl (.refl t _)⟩
  | succ count ih =>
    have ho : (slotOffset i 0).val + 1 < 64 := by omega
    obtain ⟨hval, hq', hoff⟩ := on_succ hq hz ho
    have hslot : (⟨(slotOffset i 0).val + 1, ho⟩ : Fin 64) = slotOffset (i + 1) 0 :=
      Fin.ext hoff.symm
    have hn' : next = (i + 1 ||| Radix.lowMask 64 6) + 1 := by rw [hn, chunkEnd_succ ho hval]
    rw [nextSlotLoop, Slot.succ, dif_pos ho, Fault.ok_bind, hslot]
    simp only [Tree.load_eq hq'.1, Fault.ok_bind]
    by_cases hne : nq.slots (slotOffset (i + 1) 0) ≠ .null
    · refine ⟨⟨i + 1, next, some q⟩, some (.node q (slotOffset (i + 1) 0)), if_pos hne, ?_⟩
      cases hx : nq.slots (slotOffset (i + 1) 0) with
      | null => exact absurd hx hne
      | node c => exact absurd hx (h.leaf hq.1 hz)
      | item x => exact .here (.leaf hq' hz hx hn') hval.ge (by rw [hval]; exact .refl t _)
    · obtain ⟨iter, slot, hrun, hleft⟩ := ih hq' (by omega) hn'
      refine ⟨iter, slot, (if_neg hne).trans hrun, ?_⟩
      have hvac := vacant_succ h hq' hz (not_not.mp hne)
      rw [hval] at hvac hleft
      cases hleft with
      | here hat hle hv => exact .here hat (by omega) (hvac.trans hv)
      | pending hp hle hv => exact .pending hp (by omega) (hvac.trans hv)

/-- The slots behind that of an index in its chunk. -/
theorem chunkSize_leaf {next : BitVec 64} (hn : next = (i ||| Radix.lowMask 64 6) + 1)
    (node : Option Nat) :
    (radixTreeChunkSize ⟨i, next, node⟩ - 1).toNat = 63 - (slotOffset i 0).val := by
  have hsub : (next - i).toNat = 64 - (slotOffset i 0).val := by
    have hi := i.isLt
    have hval := toNat_chunkEnd i
    rw [← hn] at hval
    rw [slotOffset_zero, BitVec.toNat_sub, hval]
    omega
  rw [radixTreeChunkSize, BitVec.toInt_eq_toNat_of_lt (by rw [hsub]; omega), hsub]
  omega

/-- Behind an index of a leaf, whose slot may have been cleared. -/
theorem radixTreeNextSlot_leaf (h : WF t) {next : BitVec 64} (hq : On t i q nq) (hz : nq.shift = 0)
    (hn : next = (i ||| Radix.lowMask 64 6) + 1) :
    ∃ iter' slot', radixTreeNextSlot t (.node q (slotOffset i 0)) ⟨i, next, some q⟩
        = .ok (iter', slot') ∧ Left t (i.toNat + 1) iter' slot' := by
  have ho := (slotOffset i 0).isLt
  rw [radixTreeNextSlot, chunkSize_leaf hn]
  exact nextSlotLoop_spec h hq hz (by omega) hn

/-- One step inside a chunk. -/
theorem radixTreeNextSlot_spec (h : WF t) {iter : Iter} {slot : Slot} (hat : At t iter slot) :
    ∃ iter' slot', radixTreeNextSlot t slot iter = .ok (iter', slot') ∧
      Left t (iter.index.toNat + 1) iter' slot' := by
  cases hat with
  | root hr => exact ⟨⟨0, 1, none⟩, none, rfl, .pending (b := 1) rfl le_rfl (.refl t _)⟩
  | leaf hq hz hx hn => exact radixTreeNextSlot_leaf h hq hz hn

end NextSlot

/-! ### The loop -/

/-- The visits are exactly the present indices from `a` on, in ascending order, with their
items. -/
structure Visits (t : Tree) (a : Nat) (visits : List (BitVec 64 × Entry)) : Prop where
  ascending : (visits.map Prod.fst).Pairwise (· < ·)
  exact : ∀ i e, (i, e) ∈ visits ↔ a ≤ i.toNat ∧ ∃ x, e = .item x ∧ Holds t i x

theorem Visits.nil {t : Tree} {a : Nat} (hv : Vacant t a (2 ^ 64)) : Visits t a [] := by
  refine ⟨.nil, fun i e ↦ iff_of_false List.not_mem_nil ?_⟩
  rintro ⟨ha, x, -, hx⟩
  exact absurd (hv i x hx ha) (not_le.mpr i.isLt)

theorem Visits.cons {t : Tree} (h : WF t) {a : Nat} {i : BitVec 64} {x : Item}
    {visits : List (BitVec 64 × Entry)} (ha : a ≤ i.toNat) (hv : Vacant t a i.toNat)
    (hx : Holds t i x) (hrest : Visits t (i.toNat + 1) visits) :
    Visits t a ((i, .item x) :: visits) := by
  refine ⟨?_, fun j e ↦ ?_⟩
  · rw [List.map_cons, List.pairwise_cons]
    refine ⟨fun j hj ↦ ?_, hrest.ascending⟩
    obtain ⟨⟨j', e⟩, hmem, rfl⟩ := List.mem_map.mp hj
    exact BitVec.lt_def.mpr ((hrest.exact j' e).mp hmem).1
  · rw [List.mem_cons, hrest.exact, Prod.mk.injEq]
    constructor
    · rintro (⟨rfl, rfl⟩ | ⟨hj, y, rfl, hy⟩)
      · exact ⟨ha, x, rfl, hx⟩
      · exact ⟨by omega, y, rfl, hy⟩
    · rintro ⟨hj, y, rfl, hy⟩
      rcases Nat.eq_or_lt_of_le (hv j y hy hj) with he | hlt
      · obtain rfl := BitVec.eq_of_toNat_eq he
        exact .inl ⟨rfl, by rw [h.holds_unique hy hx]⟩
      · exact .inr ⟨hlt, y, rfl, hy⟩

/-- The next chunk of a loop that has the indices from `b` on pending. -/
theorem radixTreeNextChunk_spec {t : Tree} (h : WF t) {restarts b : Nat} {iter : Iter}
    (hrestarts : 2 ^ 64 ≤ restarts) (hp : Pending iter b) :
    ∃ iter' slot', radixTreeNextChunk t restarts iter = .ok (iter', slot') ∧
      Reached t b (slot'.map (fun slot ↦ (iter', slot))) := by
  rw [Pending] at hp
  rw [radixTreeNextChunk]
  by_cases hc : iter.next_index = 0 ∧ iter.index ≠ 0
  · rw [if_pos hc] at hp
    exact ⟨iter, none, if_pos hc, .none (by rw [hp]; exact .refl t _)⟩
  · rw [if_neg hc] at hp
    obtain ⟨r, hrun, hre⟩ := restartLoop_spec h (show 2 ^ 64 ≤ iter.next_index.toNat + restarts
      by omega)
    rw [← hp] at hre
    rw [if_neg hc, hrun]
    cases r with
    | none => exact ⟨iter, none, rfl, hre⟩
    | some r => exact ⟨r.1, some r.2, rfl, hre⟩

/-- The slot at which the iterator stands holds the item of its index. -/
theorem At.load_eq {t : Tree} {iter : Iter} {slot : Slot} (hat : At t iter slot) :
    ∃ x, t.load slot = .ok (.item x) ∧ Holds t iter.index x := by
  cases hat with
  | @root x hr => exact ⟨x, by rw [Tree.load, hr], .inl ⟨hr, rfl⟩⟩
  | @leaf q nq i next x hq hz hx hn =>
    exact ⟨x, by rw [Tree.load_eq hq.1, hx], .inr ⟨q, nq, hq, hz, hx⟩⟩

theorem forEachLoop_none (t : Tree) (restarts fuel : Nat) (iter : Iter) :
    forEachLoop t restarts (fuel + 1) none iter = (do
      let (iter, slot) ← radixTreeNextChunk t restarts iter
      match slot with
      | none => return []
      | some slot =>
        let entry ← t.load slot
        let (iter', slot') ← radixTreeNextSlot t slot iter
        let visits ← forEachLoop t restarts fuel slot' iter'
        return (iter.index, entry) :: visits) := rfl

/-- Induction on the fuel: every visit is at a larger index. -/
theorem forEachLoop_spec {t : Tree} (h : WF t) {restarts fuel a : Nat} {iter : Iter}
    {slot : Option Slot} (hrestarts : 2 ^ 64 ≤ restarts) (hleft : Left t a iter slot)
    (hfuel : 2 ^ 64 < a + fuel) (ha : a ≤ 2 ^ 64) :
    ∃ visits, forEachLoop t restarts fuel slot iter = .ok visits ∧ Visits t a visits := by
  induction fuel generalizing a iter slot with
  | zero => omega
  | succ fuel ih =>
    -- the body of the loop at a slot, and the rest
    have hbody : ∀ {iter : Iter} {slot : Slot}, At t iter slot → a ≤ iter.index.toNat →
        Vacant t a iter.index.toNat → ∃ visits, (do
          let entry ← t.load slot
          let (iter', slot') ← radixTreeNextSlot t slot iter
          let visits ← forEachLoop t restarts fuel slot' iter'
          return (iter.index, entry) :: visits) = Except.ok visits ∧ Visits t a visits := by
      intro iter slot hat hle hv
      obtain ⟨x, hload, hx⟩ := hat.load_eq
      obtain ⟨iter', slot', hnext, hleft'⟩ := radixTreeNextSlot_spec h hat
      have hi := iter.index.isLt
      obtain ⟨visits, hrun, hvis⟩ := ih hleft' (by omega) (by omega)
      refine ⟨(iter.index, .item x) :: visits, ?_, hvis.cons h hle hv hx⟩
      rw [hload, Fault.ok_bind, hnext, Fault.ok_bind]
      simp only [hrun, Fault.ok_bind]
      rfl
    cases hleft with
    | here hat hle hv => exact hbody hat hle hv
    | @pending b hp hle hv =>
      obtain ⟨iter', slot', hrun, hre⟩ := radixTreeNextChunk_spec h hrestarts hp
      rw [forEachLoop_none, hrun, Fault.ok_bind]
      cases slot' with
      | none =>
        cases hre with
        | none hv' => exact ⟨[], rfl, .nil (hv.trans hv')⟩
      | some slot' =>
        cases hre with
        | some hat hle' hv' => exact hbody hat (hle.trans hle') (hv.trans hv')

/-- A loop begins with all indices from `start` on pending. -/
theorem pending_init (start : BitVec 64) : Pending (radixTreeIterInit start) start.toNat := by
  rw [Pending, if_neg (fun hc ↦ hc.2 rfl)]
  rfl

/-- A whole loop over a well-formed tree. -/
theorem forEachSlot_spec {t : Tree} (h : WF t) (start : BitVec 64) {fuel : Nat}
    (hfuel : 2 ^ 64 < fuel) :
    ∃ visits, forEachSlot t fuel start = .ok visits ∧ Visits t start.toNat visits := by
  exact forEachLoop_spec h hfuel.le (.pending (pending_init start) le_rfl (.refl t _)) (by omega)
    start.isLt.le

/-- The visits in terms of lookups. -/
theorem Visits.mem_iff {t : Tree} {f : BitVec 64 → Option Item} (h : Stands t f) {a : Nat}
    {visits : List (BitVec 64 × Entry)} (hvis : Visits t a visits) (i : BitVec 64) (e : Entry) :
    (i, e) ∈ visits ↔ a ≤ i.toNat ∧ e ≠ .null ∧ radixTreeLookup t i = .ok e := by
  rw [hvis.exact, h.lookup_eq, Except.ok.injEq]
  refine and_congr_right (fun _ ↦ ?_)
  constructor
  · rintro ⟨x, rfl, hx⟩
    exact ⟨by simp, answer_eq_item.mpr ((h.holds i x).mp hx)⟩
  · rintro ⟨hne, rfl⟩
    obtain ⟨x, hx⟩ := Option.ne_none_iff_exists'.mp (mt answer_eq_null.mpr hne)
    exact ⟨x, by rw [hx]; rfl, (h.holds i x).mpr hx⟩

/-- **Iteration.** After every program of insertions and of deletions of present indices, the
loop from any index on ends, and visits exactly the present indices from there on, each once and
in ascending order, with what a lookup of the index answers. -/
theorem forEachSlot_run {oom : Nat → Bool} {t₀ : Tree} {calls : List Call}
    (h0 : radixTreeRootAlloc oom = some t₀) (h1 : oom 1 = false)
    (htidy : Along Call.tidy t₀ calls = true) (start : BitVec 64) :
    ∃ t rs, run t₀ calls = .ok (t, rs) ∧
      (∀ i, radixTreeLookup t i = .ok (answer (history calls rs i))) ∧
      ∀ fuel, 2 ^ 64 < fuel → ∃ visits, forEachSlot t fuel start = .ok visits ∧
        (visits.map Prod.fst).Pairwise (· < ·) ∧
        ∀ i e, (i, e) ∈ visits ↔ start ≤ i ∧ e ≠ .null ∧ radixTreeLookup t i = .ok e := by
  obtain rfl := rootAlloc_eq h0 h1
  obtain ⟨t, rs, hrun, hst⟩ := (stands_emptyTree oom).1.run_tidy htidy
  refine ⟨t, rs, hrun, hst.lookup_eq, fun fuel hfuel ↦ ?_⟩
  obtain ⟨visits, hloop, hvis⟩ := forEachSlot_spec hst.wf start hfuel
  refine ⟨visits, hloop, hvis.ascending, fun i e ↦ ?_⟩
  rw [hvis.mem_iff hst, BitVec.le_def]

/-- `forEachSlot_run` over two leaves, from an absent index on. -/
theorem forEachSlot_run_two_leaves :
    ∃ t rs, run (emptyTree (fun _ ↦ false))
        [.insert 5 ⟨4, by decide⟩, .insert 70 ⟨8, by decide⟩] = .ok (t, rs) ∧
      (∀ i, radixTreeLookup t i = .ok (answer (history
        [.insert 5 ⟨4, by decide⟩, .insert 70 ⟨8, by decide⟩] rs i))) ∧
      ∀ fuel, 2 ^ 64 < fuel → ∃ visits, forEachSlot t fuel 6 = .ok visits ∧
        (visits.map Prod.fst).Pairwise (· < ·) ∧
        ∀ i e, (i, e) ∈ visits ↔ 6 ≤ i ∧ e ≠ .null ∧ radixTreeLookup t i = .ok e :=
  forEachSlot_run (show radixTreeRootAlloc (fun _ ↦ false) = some (emptyTree _) from rfl) rfl
    (by decide +kernel) 6

end Jeopardy.RadixTree
