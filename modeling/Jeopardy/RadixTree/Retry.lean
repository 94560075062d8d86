import Jeopardy.RadixTree.Flags

/-!
# Iterations that retry

Model of a `radix_tree_for_each_slot` loop whose body calls `radix_tree_iter_retry` at some of its
visits, as readers do that meet an entry in flux. The retries follow a schedule with one entry
for each visit. A retry brings the loop back to the index it stands at, so it only repeats a visit.
-/

namespace Jeopardy.RadixTree

/-- `radix_tree_iter_retry`, `radix_tree/radix-tree.h:234–240`. It answers `NULL` for the slot. -/
def radixTreeIterRetry (iter : Iter) : Iter × Option Slot :=
  ({ iter with next_index := iter.index }, none)

/-- The loop around a body that retries where the schedule says so, and not behind its end:
`iter.index` and `*slot` at each visit. -/
def retryLoop (t : Tree) (restarts : Nat) :
    Nat → List Bool → Option Slot → Iter → Except Fault (List (BitVec 64 × Entry))
  | 0, _, _, _ => .error .diverges
  | fuel + 1, schedule, slot, iter => do
    let (iter, slot) ← (match slot with
      | some slot => return (iter, some slot)
      | none => radixTreeNextChunk t restarts iter)
    match slot with
    | none => return []
    | some slot =>
      let entry ← t.load slot
      let (iter', slot') := if schedule.headD false then radixTreeIterRetry iter
        else (iter, some slot)
      let (iter', slot') ← radixTreeNextSlotOf t slot' iter'
      let visits ← retryLoop t restarts fuel schedule.tail slot' iter'
      return (iter.index, entry) :: visits

section Visits

variable {t : Tree} {a : Nat} {i : BitVec 64} {x : Item} {visits : List (BitVec 64 × Entry)}

/-- The visits are determined by the tree. -/
theorem Visits.unique {visits' : List (BitVec 64 × Entry)} (h : Visits t a visits)
    (h' : Visits t a visits') : visits = visits' := by
  have hnodup : ∀ {l : List (BitVec 64 × Entry)}, Visits t a l → l.Nodup := fun hl ↦
    List.Nodup.of_map Prod.fst (hl.ascending.imp (fun hlt ↦ BitVec.ne_of_lt hlt))
  refine List.Perm.eq_of_pairwise
    (fun v w _ _ hlt hgt ↦ absurd (BitVec.lt_trans hlt hgt) (BitVec.lt_irrefl _))
    (List.pairwise_map.mp h.ascending) (List.pairwise_map.mp h'.ascending)
    ((List.perm_ext_iff_of_nodup (hnodup h) (hnodup h')).mpr (fun v ↦ ?_))
  rw [h.exact v.1 v.2, h'.exact v.1 v.2]

/-- A present index is its own first visit. -/
theorem Visits.head_eq (hvis : Visits t i.toNat visits) (hx : Holds t i x) :
    visits.head? = some (i, .item x) := by
  have hmem := (hvis.exact i (.item x)).mpr ⟨le_rfl, x, rfl, hx⟩
  cases visits with
  | nil => cases hmem
  | cons v visits =>
    rcases List.mem_cons.mp hmem with rfl | hmem
    · rfl
    · have hlt := List.rel_of_pairwise_cons hvis.ascending (List.mem_map_of_mem hmem)
      have hle := ((hvis.exact v.1 v.2).mp List.mem_cons_self).1
      exact absurd (BitVec.lt_def.mp hlt) (not_lt.mpr hle)

theorem head?_destutter (visits : List (BitVec 64 × Entry)) :
    (visits.destutter (· ≠ ·)).head? = visits.head? := by
  cases visits with
  | nil => rfl
  | cons v visits =>
    induction visits generalizing v with
    | nil => rfl
    | cons w visits ih =>
      rw [List.destutter_cons_cons]
      split
      · rfl
      · next he => rw [← List.destutter_cons', ih]; rfl

/-- A visit in front of visits of larger indices. -/
theorem Visits.destutter_cons (h : WF t) (ha : a ≤ i.toNat) (hv : Vacant t a i.toNat)
    (hx : Holds t i x) (hrest : Visits t (i.toNat + 1) (visits.destutter (· ≠ ·))) :
    Visits t a (((i, .item x) :: visits).destutter (· ≠ ·)) := by
  have hsplit : ((i, Entry.item x) :: visits).destutter (· ≠ ·)
      = (i, .item x) :: visits.destutter (· ≠ ·) := by
    cases visits with
    | nil => rfl
    | cons v visits =>
      rw [List.destutter_cons_cons, if_pos, List.destutter_cons']
      rintro rfl
      have hmem : (i, Entry.item x) ∈ ((i, Entry.item x) :: visits).destutter (· ≠ ·) :=
        List.mem_of_mem_head? (head?_destutter _)
      have := ((hrest.exact _ _).mp hmem).1
      omega
  rw [hsplit]
  exact hrest.cons h ha hv hx

/-- A visit in front of the same visit. -/
theorem Visits.destutter_again (ha : a ≤ i.toNat) (hv : Vacant t a i.toNat)
    (hx : Holds t i x) (hrest : Visits t i.toNat (visits.destutter (· ≠ ·))) :
    Visits t a (((i, .item x) :: visits).destutter (· ≠ ·)) := by
  have hhead := hrest.head_eq hx
  rw [head?_destutter] at hhead
  cases visits with
  | nil => cases hhead
  | cons v visits =>
    obtain rfl := Option.some.inj hhead
    rw [List.destutter_cons_cons, if_neg (not_not.mpr rfl), ← List.destutter_cons']
    refine ⟨hrest.ascending, fun j e ↦ (hrest.exact j e).trans ?_⟩
    refine and_congr_left (fun ⟨y, _, hy⟩ ↦ ⟨ha.trans, fun hj ↦ hv j y hy hj⟩)

end Visits

/-- The loop after a retry has its own index pending again. -/
theorem pending_retry (iter : Iter) : Pending (radixTreeIterRetry iter).1 iter.index.toNat := by
  rw [Pending, radixTreeIterRetry, if_neg]
  rintro ⟨h0, hne⟩
  exact hne h0

theorem radixTreeNextSlotOf_retry (t : Tree) (iter : Iter) :
    radixTreeNextSlotOf t (radixTreeIterRetry iter).2 (radixTreeIterRetry iter).1
      = .ok ((radixTreeIterRetry iter).1, none) := by
  rw [radixTreeIterRetry, radixTreeNextSlotOf, radixTreeChunkSize, if_neg]
  rw [BitVec.sub_self]
  decide

/-- Induction on the fuel: a visit at a larger index, or one that uses up the schedule. -/
theorem retryLoop_spec {t : Tree} (h : WF t) {restarts fuel a : Nat} {schedule : List Bool}
    {iter : Iter} {slot : Option Slot} (hrestarts : 2 ^ 64 ≤ restarts) (hleft : Left t a iter slot)
    (hfuel : 2 ^ 64 + schedule.length < a + fuel) (ha : a ≤ 2 ^ 64) :
    ∃ visits, retryLoop t restarts fuel schedule slot iter = .ok visits ∧
      Visits t a (visits.destutter (· ≠ ·)) := by
  induction fuel generalizing a schedule iter slot with
  | zero => omega
  | succ fuel ih =>
    -- the body of the loop at a slot, and the rest
    have hbody : ∀ {iter : Iter} {slot : Slot}, At t iter slot → a ≤ iter.index.toNat →
        Vacant t a iter.index.toNat → ∃ visits,
          retryLoop t restarts (fuel + 1) schedule (some slot) iter = .ok visits ∧
            Visits t a (visits.destutter (· ≠ ·)) := by
      intro iter slot hat hle hv
      obtain ⟨x, hload, hx⟩ := hat.load_eq
      have hi := iter.index.isLt
      rw [retryLoop]
      simp only [pure, Except.pure, Fault.ok_bind, hload]
      cases hagain : schedule.headD false with
      | false =>
        obtain ⟨iter', slot', hnext, hleft'⟩ := radixTreeNextSlot_spec h hat
        obtain ⟨visits, hrun, hvis⟩ := ih hleft'
          (show 2 ^ 64 + schedule.tail.length < iter.index.toNat + 1 + fuel by
            rw [List.length_tail]
            omega) (by omega)
        refine ⟨(iter.index, .item x) :: visits, ?_, hvis.destutter_cons h hle hv hx⟩
        simp only [Bool.false_eq_true, if_false, radixTreeNextSlotOf, hnext, Fault.ok_bind, hrun]
      | true =>
        have hlen : schedule.length = schedule.tail.length + 1 := by
          cases schedule with
          | nil => cases hagain
          | cons _ _ => rfl
        obtain ⟨visits, hrun, hvis⟩ := ih
          (.pending (pending_retry iter) le_rfl (.refl t _))
          (show 2 ^ 64 + schedule.tail.length < iter.index.toNat + fuel by omega) hi.le
        refine ⟨(iter.index, .item x) :: visits, ?_, hvis.destutter_again hle hv hx⟩
        simp only [if_true, radixTreeNextSlotOf_retry, Fault.ok_bind, hrun]
    cases hleft with
    | here hat hle hv => exact hbody hat hle hv
    | @pending b hp hle hv =>
      obtain ⟨iter', slot', hchunk, hre⟩ := radixTreeNextChunk_spec h hrestarts hp
      have hdef : retryLoop t restarts (fuel + 1) schedule none iter = (do
          let (iter, slot) ← radixTreeNextChunk t restarts iter
          match slot with
          | none => return []
          | some slot => retryLoop t restarts (fuel + 1) schedule (some slot) iter) := rfl
      rw [hdef, hchunk, Fault.ok_bind]
      cases slot' with
      | none =>
        cases hre with
        | none hv' => exact ⟨[], rfl, .nil (hv.trans hv')⟩
      | some slot' =>
        cases hre with
        | some hat hle' hv' => exact hbody hat (hle.trans hle') (hv.trans hv')

/-- **Retries.** In every tree that insertions and careful deletions lead to, a loop that retries
where a schedule says so ends, and but for immediate repetitions its visits are those of the loop
that never retries. -/
theorem retryLoop_run {oom : Nat → Bool} {t₀ : Tree} {calls : List Call}
    (h0 : radixTreeRootAlloc oom = some t₀) (h1 : oom 1 = false)
    (hcare : Along Call.careful t₀ calls = true) (start : BitVec 64) (schedule : List Bool)
    {fuel : Nat} (hfuel : 2 ^ 64 + schedule.length < fuel) :
    ∃ t rs visits, run t₀ calls = .ok (t, rs) ∧
      retryLoop t fuel fuel schedule none (radixTreeIterInit start) = .ok visits ∧
      forEachSlot t fuel start = .ok (visits.destutter (· ≠ ·)) := by
  obtain ⟨t, rs, hrun, hst⟩ := run_careful h0 h1 hcare
  obtain ⟨visits, hretry, hvis⟩ := retryLoop_spec hst.wf (show 2 ^ 64 ≤ fuel by omega)
    (.pending (pending_init start) le_rfl (.refl t _))
    (show 2 ^ 64 + schedule.length < start.toNat + fuel by omega) start.isLt.le
  obtain ⟨plain, hplain, hvis'⟩ := forEachSlot_spec hst.wf start (show 2 ^ 64 < fuel by omega)
  exact ⟨t, rs, visits, hrun, hretry, by rw [hplain, hvis'.unique hvis]⟩

/-- `retryLoop_run` of a loop that retries at its first and third visits. -/
theorem retryLoop_run_two_leaves :
    ∃ t rs visits, run (emptyTree (fun _ ↦ false))
        [.insert 5 ⟨4, by decide⟩, .insert 70 ⟨8, by decide⟩] = .ok (t, rs) ∧
      retryLoop t (2 ^ 65) (2 ^ 65) [true, false, true] none (radixTreeIterInit 0) = .ok visits ∧
      forEachSlot t (2 ^ 65) 0 = .ok (visits.destutter (· ≠ ·)) :=
  retryLoop_run (show radixTreeRootAlloc (fun _ ↦ false) = some (emptyTree _) from rfl) rfl
    (by decide +kernel) 0 [true, false, true] (by decide)

end Jeopardy.RadixTree
