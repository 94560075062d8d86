import Jeopardy.RadixTree.EachSlot

/-!
# Deleting and resuming inside a loop

Model of `radix_tree_iter_delete` and `radix_tree_iter_resume` in `radix_tree/radix-tree.c`, and of
a loop that makes a choice at each slot. Both set `iter.index` to where the loop is to go on.
Behind the last index this is 0, which `radix_tree_next_chunk` takes for a loop that has just
started.
-/

namespace Jeopardy.RadixTree

/-- What the body of a loop does at a slot. -/
inductive Choice where
  | keep
  | delete
  | resume
deriving DecidableEq

/-- `radix_tree_iter_delete`, `radix_tree/radix-tree.c:781–786`. -/
def radixTreeIterDelete (t : Tree) (iter : Iter) (slot : Slot) : Except Fault (Tree × Iter) := do
  let (t, deleted) ← rawRadixTreeDelete t iter.node slot
  if deleted then return (t, { iter with index := iter.next_index }) else return (t, iter)

/-- `radix_tree_iter_resume`, `radix_tree/radix-tree.c:649–657`: the slot pointer and the
iterator. -/
def radixTreeIterResume (iter : Iter) : Option Slot × Iter :=
  let index := iter.index + 1
  (none, { iter with index := index, next_index := index })

/-- The body of a loop that does at each index what `choice` says. -/
def edit (choice : BitVec 64 → Choice) (t : Tree) (slot : Slot) (iter : Iter) :
    Except Fault (Tree × Option Slot × Iter) :=
  match choice iter.index with
  | .keep => .ok (t, some slot, iter)
  | .delete => do
    let (t, iter) ← radixTreeIterDelete t iter slot
    return (t, some slot, iter)
  | .resume =>
    let (slot, iter) := radixTreeIterResume iter
    .ok (t, slot, iter)

/-- The loop from `start` on. -/
def editTree (t : Tree) (fuel : Nat) (start : BitVec 64) (choice : BitVec 64 → Choice) :
    Except Fault (Tree × List (BitVec 64 × Entry)) :=
  eachSlotLoop (edit choice) fuel fuel t none (radixTreeIterInit start)

/-- The loop ends, visits exactly the indices from `start` on that were present, each once and in
ascending order, and removes exactly those it was told to delete. -/
def EditLaw (t : Tree) (fuel : Nat) (start : BitVec 64) (choice : BitVec 64 → Choice) : Prop :=
  ∃ t' visits, editTree t fuel start choice = .ok (t', visits) ∧
    (visits.map Prod.fst).Pairwise (· < ·) ∧
    (∀ i e, (i, e) ∈ visits ↔ start ≤ i ∧ e ≠ .null ∧ radixTreeLookup t i = .ok e) ∧
    ∀ i, radixTreeLookup t' i =
      if start ≤ i ∧ choice i = .delete then .ok .null else radixTreeLookup t i

/-- The last index. -/
def lastIndex : BitVec 64 := BitVec.allOnes 64

/-- A loop from `a` on over the present indices `P` begins again at index 0: it resumes behind the
last index, or it deletes all that is in the last leaf and leaves something elsewhere. -/
def Rewinds (P : BitVec 64 → Prop) (a : Nat) (choice : BitVec 64 → Choice) : Prop :=
  (a < 2 ^ 64 ∧ P lastIndex ∧ choice lastIndex = .resume) ∨
    ((∃ i, P i ∧ 2 ^ 64 - 64 ≤ i.toNat) ∧
      (∀ i, P i → 2 ^ 64 - 64 ≤ i.toNat → a ≤ i.toNat ∧ choice i = .delete) ∧
      ∃ i, P i ∧ ¬ (a ≤ i.toNat ∧ choice i = .delete))

/-! ### The step that begins again -/

/-- The step at `i` sets the iterator back to index 0. -/
def RewindsAt (P : BitVec 64 → Prop) (choice : BitVec 64 → Choice) (i : BitVec 64) : Prop :=
  (i = lastIndex ∧ choice i = .resume) ∨
    (choice i = .delete ∧ 2 ^ 64 - 64 ≤ i.toNat ∧ ∀ j, P j → 2 ^ 64 - 64 ≤ j.toNat → j = i)

theorem lastIndex_toNat : lastIndex.toNat = 2 ^ 64 - 1 := BitVec.toNat_allOnes

section Rewind

variable {P P' : BitVec 64 → Prop} {choice : BitVec 64 → Choice} {a : Nat} {i : BitVec 64}

/-- Nothing left to visit. -/
theorem not_rewinds (hv : ∀ j, P j → a ≤ j.toNat → 2 ^ 64 ≤ j.toNat) : ¬ Rewinds P a choice := by
  rintro (⟨ha, hlast, -⟩ | ⟨⟨j, hj, hle⟩, hall, -⟩)
  · have := hv lastIndex hlast (by rw [lastIndex_toNat]; omega)
    rw [lastIndex_toNat] at this
    omega
  · have := hv j hj (hall j hj hle).1
    omega

/-- An ordinary step: what is ahead stays ahead. -/
theorem rewinds_step (hP : ∀ j, P' j ↔ P j ∧ ¬ (j = i ∧ choice i = .delete)) (ha : a ≤ i.toNat)
    (hv : ∀ j, P j → a ≤ j.toNat → i.toNat ≤ j.toNat) (hn : ¬ RewindsAt P choice i) :
    Rewinds P' (i.toNat + 1) choice ↔ Rewinds P a choice := by
  have hi := i.isLt
  constructor
  · rintro (⟨hlt, hlast, hres⟩ | ⟨⟨j, hj, hle⟩, hall, k, hk, hkeep⟩)
    · exact .inl ⟨by omega, ((hP _).mp hlast).1, hres⟩
    · refine .inr ⟨⟨j, ((hP j).mp hj).1, hle⟩, fun l hl hlle ↦ ?_, k, ((hP k).mp hk).1, ?_⟩
      · by_cases hli : l = i ∧ choice i = .delete
        · rw [hli.1]
          exact ⟨ha, hli.2⟩
        · obtain ⟨hlt, hdel⟩ := hall l ((hP l).mpr ⟨hl, hli⟩) hlle
          exact ⟨by omega, hdel⟩
      · rintro ⟨hak, hdel⟩
        obtain ⟨hk', hki⟩ := (hP k).mp hk
        have hge := hv k hk' hak
        refine hkeep ⟨?_, hdel⟩
        rcases Nat.eq_or_lt_of_le hge with he | hlt
        · obtain rfl := BitVec.eq_of_toNat_eq he
          exact absurd ⟨rfl, hdel⟩ hki
        · omega
  · rintro (⟨hlt, hlast, hres⟩ | ⟨⟨j, hj, hle⟩, hall, k, hk, hkeep⟩)
    · have hne : i ≠ lastIndex := by
        rintro rfl
        exact hn (.inl ⟨rfl, hres⟩)
      have hlt' : i.toNat ≠ lastIndex.toNat := fun he ↦ hne (BitVec.eq_of_toNat_eq he)
      rw [lastIndex_toNat] at hlt'
      exact .inl ⟨by omega, (hP _).mpr ⟨hlast, fun hc ↦ hne hc.1.symm⟩, hres⟩
    · refine .inr ⟨?_, fun l hl hlle ↦ ?_, k, (hP k).mpr ⟨hk, ?_⟩, ?_⟩
      · -- if this is the one to be deleted, the leaf has another
        by_cases hji : j = i ∧ choice i = .delete
        · obtain ⟨rfl, hdel⟩ := hji
          by_contra hnone
          refine hn (.inr ⟨hdel, hle, fun l hl hlle ↦ ?_⟩)
          by_contra hlj
          exact hnone ⟨l, (hP l).mpr ⟨hl, fun hc ↦ hlj hc.1⟩, hlle⟩
        · exact ⟨j, (hP j).mpr ⟨hj, hji⟩, hle⟩
      · obtain ⟨hl', hli⟩ := (hP l).mp hl
        obtain ⟨hal, hdel⟩ := hall l hl' hlle
        refine ⟨?_, hdel⟩
        rcases Nat.eq_or_lt_of_le (hv l hl' hal) with he | hlt
        · obtain rfl := BitVec.eq_of_toNat_eq he
          exact absurd ⟨rfl, hdel⟩ hli
        · omega
      · rintro ⟨rfl, hdel⟩
        exact hkeep ⟨ha, hdel⟩
      · rintro ⟨hlt, hdel⟩
        exact hkeep ⟨by omega, hdel⟩

/-- The step that begins again does harm exactly if it leaves something. -/
theorem rewinds_iff_left (hP : ∀ j, P' j ↔ P j ∧ ¬ (j = i ∧ choice i = .delete)) (hi : P i)
    (ha : a ≤ i.toNat) (hv : ∀ j, P j → a ≤ j.toNat → i.toNat ≤ j.toNat)
    (hr : RewindsAt P choice i) : Rewinds P a choice ↔ ∃ j, P' j := by
  have hlt := i.isLt
  rcases hr with ⟨rfl, hres⟩ | ⟨hdel, hle, hsole⟩
  · exact iff_of_true (.inl ⟨by omega, hi, hres⟩)
      ⟨lastIndex, (hP _).mpr ⟨hi, fun hc ↦ by rw [hres] at hc; cases hc.2⟩⟩
  · constructor
    · rintro (⟨-, hlast, hres⟩ | ⟨-, -, k, hk, hkeep⟩)
      · have := hsole lastIndex hlast (by rw [lastIndex_toNat]; omega)
        rw [this, hdel] at hres
        cases hres
      · refine ⟨k, (hP k).mpr ⟨hk, ?_⟩⟩
        rintro ⟨rfl, -⟩
        exact hkeep ⟨ha, hdel⟩
    · rintro ⟨k, hk⟩
      obtain ⟨hk', hki⟩ := (hP k).mp hk
      refine .inr ⟨⟨i, hi, hle⟩, fun l hl hlle ↦ ?_, k, hk', ?_⟩
      · rw [hsole l hl hlle]
        exact ⟨ha, hdel⟩
      · rintro ⟨hak, -⟩
        exact hki ⟨hsole k hk' (hle.trans (hv k hk' hak)), hdel⟩

end Rewind

/-! ### One step -/

/-- Something is stored at the index. -/
def Present (t : Tree) (i : BitVec 64) : Prop := ∃ x, Holds t i x

/-- Behind the visit of index `i`: what the body has made of the tree, and where the loop stands. -/
structure Edited (t : Tree) (choice : BitVec 64 → Choice) (i : BitVec 64) (t' : Tree) (iter : Iter)
    (slot : Option Slot) : Prop where
  wf : WF t'
  holds : ∀ j x, Holds t' j x ↔ Holds t j x ∧ ¬ (j = i ∧ choice i = .delete)
  ahead : ¬ RewindsAt (Present t) choice i → Left t' (i.toNat + 1) iter slot
  rewound : RewindsAt (Present t) choice i → slot = none ∧ Pending iter 0

section Step

variable {t : Tree} {choice : BitVec 64 → Choice} {iter : Iter} {slot : Slot}

theorem edit_keep (h : WF t) (hat : At t iter slot) (hc : choice iter.index = .keep) :
    ∃ iter' slot', edit choice t slot iter = .ok (t, some slot, iter) ∧
      radixTreeNextSlotOf t (some slot) iter = .ok (iter', slot') ∧
      Edited t choice iter.index t iter' slot' := by
  obtain ⟨iter', slot', hnext, hleft⟩ := radixTreeNextSlot_spec h hat
  refine ⟨iter', slot', ?_, hnext, h, fun j x ↦ ?_, fun _ ↦ hleft, fun hr ↦ ?_⟩
  · rw [edit, hc]
  · rw [hc]
    simp
  · rw [RewindsAt, hc] at hr
    rcases hr with ⟨-, hr⟩ | ⟨hr, -⟩
    · cases hr
    · cases hr

theorem edit_resume (h : WF t) (slot : Slot) (hc : choice iter.index = .resume) :
    ∃ iter₁, edit choice t slot iter = .ok (t, none, iter₁) ∧
      radixTreeNextSlotOf t none iter₁ = .ok (iter₁, none) ∧
      Edited t choice iter.index t iter₁ none := by
  refine ⟨{ iter with index := iter.index + 1, next_index := iter.index + 1 }, ?_, ?_, h,
    fun j x ↦ ?_, fun hn ↦ ?_, fun hr ↦ ⟨rfl, ?_⟩⟩
  · rw [edit, hc]
    rfl
  · rw [radixTreeNextSlotOf, radixTreeChunkSize, BitVec.sub_self, if_neg (by decide)]
  · rw [hc]
    simp
  · have hne : iter.index.toNat ≠ lastIndex.toNat := fun he ↦
      hn (.inl ⟨BitVec.eq_of_toNat_eq he, hc⟩)
    have hi := iter.index.isLt
    rw [lastIndex_toNat] at hne
    have hval : (iter.index + 1).toNat = iter.index.toNat + 1 := by
      rw [BitVec.toNat_add, show (1 : BitVec 64).toNat = 1 from rfl, Nat.mod_eq_of_lt (by omega)]
    refine .pending (b := iter.index.toNat + 1) ?_ le_rfl (.refl t _)
    rw [Pending, if_neg (fun h0 ↦ h0.2 h0.1), hval]
  · rw [RewindsAt, hc] at hr
    rcases hr with ⟨hlast, -⟩ | ⟨hr, -⟩
    · rw [Pending, hlast]
      rfl
    · cases hr

/-- Deletion of the item in the root pointer. -/
theorem edit_delete_root (h : WF t) {x : Item} (hr : t.rnode = .item x)
    (hc : choice 0 = .delete) :
    ∃ t', edit choice t .root ⟨0, 1, none⟩ = .ok (t', some .root, ⟨0, 1, none⟩) ∧
      radixTreeNextSlotOf t' (some .root) ⟨0, 1, none⟩ = .ok (⟨0, 1, none⟩, none) ∧
      Edited t choice 0 t' ⟨0, 1, none⟩ none := by
  obtain ⟨hdel, hd⟩ := rawRadixTreeDelete_root h (fun r hr' ↦ by rw [hr] at hr'; cases hr')
  refine ⟨_, ?_, rfl, hd.wf, fun j y ↦ ?_, fun _ ↦ .pending (b := 1) rfl le_rfl (.refl _ _),
    fun hrew ↦ ?_⟩
  · rw [edit, hc]
    simp only [radixTreeIterDelete, hdel, Fault.ok_bind]
    rfl
  · rw [hd.holds, hc, hr]
    simp [and_comm]
  · rcases hrew with ⟨-, hres⟩ | ⟨-, hle, -⟩
    · rw [hc] at hres
      cases hres
    · exact absurd hle (by decide)

section Leaf

variable {q : Nat} {nq : Node} {i next : BitVec 64} {x : Item}

/-- Two indices of one leaf. -/
theorem present_leaf (h : WF t) (hq : On t i q nq) (hz : nq.shift = 0) {j : BitVec 64}
    (hj : j.toNat / 64 = i.toNat / 64) : Present t j ↔ nq.slots (slotOffset j 0) ≠ .null := by
  have hon : On t j q nq := hq.congr (by rw [hz]; exact hj.symm)
  constructor
  · rintro ⟨y, hy⟩
    rw [(h.holds_of_leaf hon hz y).mp hy]
    simp
  · intro hne
    cases hy : nq.slots (slotOffset j 0) with
    | null => exact absurd hy hne
    | node c => exact absurd hy (h.leaf hq.1 hz)
    | item y => exact ⟨y, (h.holds_of_leaf hon hz y).mpr hy⟩

/-- The leaf has another item: it stays, and the loop goes on in it. -/
theorem edit_delete_kept (h : WF t) (hq : On t i q nq) (hz : nq.shift = 0)
    (hx : nq.slots (slotOffset i 0) = .item x) (hn : next = (i ||| Radix.lowMask 64 6) + 1)
    (hc : choice i = .delete) (hu : nq.used ≠ 1) :
    ∃ t' iter' slot', edit choice t (.node q (slotOffset i 0)) ⟨i, next, some q⟩
        = .ok (t', some (.node q (slotOffset i 0)), ⟨i, next, some q⟩) ∧
      radixTreeNextSlotOf t' (some (.node q (slotOffset i 0))) ⟨i, next, some q⟩
        = .ok (iter', slot') ∧ Edited t choice i t' iter' slot' := by
  obtain ⟨t₁, d, hdel₁, hd⟩ := rawRadixTreeDelete_leaf h hq hz hx
  obtain ⟨values, hdel⟩ := rawRadixTreeDelete_leaf_kept h hq.1 hz hx hu
  rw [hdel, Except.ok.injEq, Prod.mk.injEq] at hdel₁
  obtain ⟨rfl, rfl⟩ := hdel₁
  have hq' : On (t.setNode q (some (nq.clear (slotOffset i 0) values))) i q
      (nq.clear (slotOffset i 0) values) :=
    ⟨Tree.setNode_self _ _ _, hq.2.stays (leaf_stays hq.1 rfl rfl rfl)⟩
  obtain ⟨iter', slot', hnext, hleft⟩ := radixTreeNextSlot_leaf hd.wf hq' hz hn
  refine ⟨_, iter', slot', ?_, hnext, hd.wf, fun j y ↦ ?_, fun _ ↦ hleft, fun hrew ↦ ?_⟩
  · simp only [edit, hc, radixTreeIterDelete, hdel, Fault.ok_bind]
    rfl
  · rw [hd.holds, hc]
    simp [and_comm]
  · -- the other item is in the last leaf too
    rcases hrew with ⟨-, hres⟩ | ⟨-, hle, hsole⟩
    · rw [hc] at hres
      cases hres
    · have ho : nq.slots (slotOffset i 0) ≠ .null := by rw [hx]; simp
      have hpos : nq.used ≠ 0 := fun h0 ↦ ho (Slots.occupied_eq_zero_iff.mp h0 _)
      obtain ⟨o, hne, hslot⟩ := Slots.exists_occupied_ne (slotOffset i 0)
        (show 2 ≤ nq.used by omega)
      obtain ⟨j, hj, rfl, hblock⟩ := exists_index h hq.1 hz hq.2 o
      rw [hz] at hblock
      have hblock' : j.toNat / 64 = i.toNat / 64 := hblock
      refine absurd (hsole j ((present_leaf h hq hz hblock').mpr hslot) (by omega)) ?_
      rintro rfl
      exact hne rfl

/-- The leaf goes, and the loop goes on behind it. -/
theorem edit_delete_freed (h : WF t) (hq : On t i q nq) (hz : nq.shift = 0)
    (hx : nq.slots (slotOffset i 0) = .item x) (hn : next = (i ||| Radix.lowMask 64 6) + 1)
    (hc : choice i = .delete) (hu : nq.used = 1) :
    ∃ t', edit choice t (.node q (slotOffset i 0)) ⟨i, next, some q⟩
        = .ok (t', some (.node q (slotOffset i 0)), ⟨next, next, some q⟩) ∧
      radixTreeNextSlotOf t' (some (.node q (slotOffset i 0))) ⟨next, next, some q⟩
        = .ok (⟨next, next, some q⟩, none) ∧
      Edited t choice i t' ⟨next, next, some q⟩ none := by
  obtain ⟨t', d, hdel, hd⟩ := rawRadixTreeDelete_leaf h hq hz hx
  obtain rfl := rawRadixTreeDelete_leaf_freed h hq.1 hz hx hu hdel
  have ho : nq.slots (slotOffset i 0) ≠ .null := by rw [hx]; simp
  -- no other index of the leaf is present
  have hsole : ∀ j, Present t j → j.toNat / 64 = i.toNat / 64 → j = i := by
    intro j hj hblock
    by_contra hne
    refine (present_leaf h hq hz hblock).mp hj (Slots.occupied_eq_one hu ho (fun hoff ↦ ?_))
    exact hne (eq_of_block_offset hblock hoff)
  have hi := i.isLt
  have hval := toNat_chunkEnd i
  rw [← hn] at hval
  refine ⟨t', ?_, ?_, hd.wf, fun j y ↦ ?_, fun hnot ↦ ?_, fun hrew ↦ ⟨rfl, ?_⟩⟩
  · simp only [edit, hc, radixTreeIterDelete, hdel, Fault.ok_bind]
    rfl
  · rw [radixTreeNextSlotOf, radixTreeNextSlot, radixTreeChunkSize, BitVec.sub_self]
    rfl
  · rw [hd.holds, hc]
    simp [and_comm]
  · have hlow : i.toNat < 2 ^ 64 - 64 := by
      by_contra hge
      exact hnot (.inr ⟨hc, by omega, fun j hj hle ↦ hsole j hj (by have := j.isLt; omega)⟩)
    refine .pending (b := next.toNat) ?_ (by omega) (fun j y hy hle ↦ ?_)
    · rw [Pending, if_neg (fun h0 ↦ h0.2 h0.1)]
    · by_contra hlt
      have hj : j = i := hsole j ⟨y, ((hd.holds j y).mp hy).2⟩ (by omega)
      rw [hj] at hle
      omega
  · rcases hrew with ⟨-, hres⟩ | ⟨-, hle, -⟩
    · rw [hc] at hres
      cases hres
    · have h0 : next = 0 := by
        apply BitVec.eq_of_toNat_eq
        rw [hval]
        show _ = 0
        omega
      rw [h0]
      rfl

end Leaf

/-- Every step, whatever the choice. -/
theorem edit_spec (h : WF t) (hat : At t iter slot) (choice : BitVec 64 → Choice) :
    ∃ t' slot₁ iter₁ iter' slot', edit choice t slot iter = .ok (t', slot₁, iter₁) ∧
      radixTreeNextSlotOf t' slot₁ iter₁ = .ok (iter', slot') ∧
      Edited t choice iter.index t' iter' slot' := by
  cases hc : choice iter.index with
  | keep =>
    obtain ⟨iter', slot', hrun, hnext, he⟩ := edit_keep h hat hc
    exact ⟨_, _, _, _, _, hrun, hnext, he⟩
  | resume =>
    obtain ⟨iter₁, hrun, hnext, he⟩ := edit_resume h slot hc
    exact ⟨_, _, _, _, _, hrun, hnext, he⟩
  | delete =>
    cases hat with
    | root hr =>
      obtain ⟨t', hrun, hnext, he⟩ := edit_delete_root h hr hc
      exact ⟨_, _, _, _, _, hrun, hnext, he⟩
    | @leaf q nq i next x hq hz hx hn =>
      by_cases hu : nq.used = 1
      · obtain ⟨t', hrun, hnext, he⟩ := edit_delete_freed h hq hz hx hn hc hu
        exact ⟨_, _, _, _, _, hrun, hnext, he⟩
      · obtain ⟨t', iter', slot', hrun, hnext, he⟩ := edit_delete_kept h hq hz hx hn hc hu
        exact ⟨_, _, _, _, _, hrun, hnext, he⟩

end Step

/-! ### The loop -/

/-- Visits depend on the contents from `a` on only. -/
theorem Visits.congr {t t' : Tree} {a : Nat} {visits : List (BitVec 64 × Entry)}
    (hvis : Visits t a visits) (h : ∀ j x, a ≤ j.toNat → (Holds t' j x ↔ Holds t j x)) :
    Visits t' a visits := by
  refine ⟨hvis.ascending, fun i e ↦ ?_⟩
  rw [hvis.exact]
  refine and_congr_right (fun ha ↦ exists_congr (fun x ↦ ?_))
  rw [h i x ha]

section Loop

variable {t t' : Tree} {choice : BitVec 64 → Choice} {i : BitVec 64} {iter : Iter}
  {slot : Option Slot} {restarts fuel a : Nat}

namespace Edited

theorem present_iff (he : Edited t choice i t' iter slot) (j : BitVec 64) :
    Present t' j ↔ Present t j ∧ ¬ (j = i ∧ choice i = .delete) := by
  simp only [Present, he.holds, exists_and_right]

/-- Behind `i` the contents are what they were. -/
theorem holds_ahead (he : Edited t choice i t' iter slot) {j : BitVec 64} (x : Item)
    (hj : i.toNat + 1 ≤ j.toNat) : Holds t' j x ↔ Holds t j x := by
  rw [he.holds]
  refine and_iff_left (fun hc ↦ ?_)
  rw [hc.1] at hj
  omega

/-- What the rest of the loop removes, and what the step has removed. -/
theorem holds_after (he : Edited t choice i t' iter slot) {t₂ : Tree} (ha : a ≤ i.toNat)
    (hv : Vacant t a i.toNat)
    (h₂ : ∀ j x, Holds t₂ j x ↔ Holds t' j x ∧ ¬ (i.toNat + 1 ≤ j.toNat ∧ choice j = .delete))
    (j : BitVec 64) (x : Item) :
    Holds t₂ j x ↔ Holds t j x ∧ ¬ (a ≤ j.toNat ∧ choice j = .delete) := by
  rw [h₂, he.holds, and_assoc]
  refine and_congr_right (fun hx ↦ ?_)
  by_cases hdel : choice j = .delete
  · by_cases hj : j = i
    · subst hj
      exact iff_of_false (fun hc ↦ hc.1 ⟨rfl, hdel⟩) (fun hc ↦ hc ⟨ha, hdel⟩)
    · have hne : j.toNat ≠ i.toNat := fun he ↦ hj (BitVec.eq_of_toNat_eq he)
      constructor
      · rintro ⟨-, hn⟩ ⟨haj, -⟩
        have := hv j x hx haj
        exact hn ⟨by omega, hdel⟩
      · intro hn
        exact ⟨fun hc ↦ hj hc.1, fun hc ↦ hn ⟨by omega, hdel⟩⟩
  · refine iff_of_true ⟨fun hc ↦ ?_, fun hc ↦ hdel hc.2⟩ (fun hc ↦ hdel hc.2)
    rw [hc.1] at hdel
    exact hdel hc.2

end Edited

/-- At a slot: the visit, the step, and the rest. -/
theorem eachSlotLoop_edit {s : Slot} {t₁ : Tree} {slot₁ : Option Slot} {iter₁ iter' : Iter}
    {e : Entry} (hload : t.load s = .ok e)
    (hrun : edit choice t s iter = .ok (t₁, slot₁, iter₁))
    (hnext : radixTreeNextSlotOf t₁ slot₁ iter₁ = .ok (iter', slot)) :
    eachSlotLoop (edit choice) restarts (fuel + 1) t (some s) iter = (do
      let (t', visits) ← eachSlotLoop (edit choice) restarts fuel t₁ slot iter'
      return (t', (iter.index, e) :: visits)) := by
  rw [eachSlotLoop_some, hload, Fault.ok_bind, hrun, Fault.ok_bind]
  simp only [hnext, Fault.ok_bind]

/-- Induction on the fuel. A step that sets the iterator back leaves nothing, or the loop would
begin again. -/
theorem editLoop_spec (h : WF t) (hrestarts : 2 ^ 64 ≤ restarts) (hleft : Left t a iter slot)
    (hn : ¬ Rewinds (Present t) a choice) (hfuel : 2 ^ 64 < a + fuel) (ha : a ≤ 2 ^ 64) :
    ∃ t' visits, eachSlotLoop (edit choice) restarts fuel t slot iter = .ok (t', visits) ∧
      Visits t a visits ∧ WF t' ∧
      ∀ j x, Holds t' j x ↔ Holds t j x ∧ ¬ (a ≤ j.toNat ∧ choice j = .delete) := by
  induction fuel generalizing t a iter slot with
  | zero => omega
  | succ fuel ih =>
    have hbody : ∀ {iter : Iter} {s : Slot}, At t iter s → a ≤ iter.index.toNat →
        Vacant t a iter.index.toNat → ∃ t' visits,
          eachSlotLoop (edit choice) restarts (fuel + 1) t (some s) iter = .ok (t', visits) ∧
          Visits t a visits ∧ WF t' ∧
          ∀ j x, Holds t' j x ↔ Holds t j x ∧ ¬ (a ≤ j.toNat ∧ choice j = .delete) := by
      intro iter s hat hle hv
      have hi := iter.index.isLt
      obtain ⟨x, hload, hx⟩ := hat.load_eq
      obtain ⟨t₁, slot₁, iter₁, iter', slot', hrun, hnext, he⟩ := edit_spec h hat choice
      rw [eachSlotLoop_edit hload hrun hnext]
      by_cases hrew : RewindsAt (Present t) choice iter.index
      · obtain ⟨rfl, hp⟩ := he.rewound hrew
        have hempty : ∀ j y, ¬ Holds t₁ j y := fun j y hy ↦ hn
          ((rewinds_iff_left he.present_iff ⟨x, hx⟩ hle (fun j ⟨y, hy⟩ ↦ hv j y hy) hrew).mpr
            ⟨j, y, hy⟩)
        obtain ⟨m, rfl⟩ := Nat.exists_eq_add_of_le' (show 1 ≤ fuel by omega)
        rw [eachSlotLoop_empty he.wf hempty hrestarts m hp]
        refine ⟨t₁, _, rfl, .cons h hle hv hx (.nil (fun j y hy hj ↦ ?_)), he.wf,
          he.holds_after hle hv (fun j y ↦ ?_)⟩
        · exact absurd ((he.holds_ahead y hj).mpr hy) (hempty j y)
        · exact iff_of_false (hempty j y) (fun hc ↦ hempty j y hc.1)
      · have hn' : ¬ Rewinds (Present t₁) (iter.index.toNat + 1) choice := by
          rwa [rewinds_step he.present_iff hle (fun j ⟨y, hy⟩ ↦ hv j y hy) hrew]
        obtain ⟨t', visits, hloop, hvis, hwf, hholds⟩ :=
          ih he.wf (he.ahead hrew) hn' (by omega) (by omega)
        rw [hloop]
        exact ⟨t', _, rfl, (hvis.congr (fun j y hj ↦ (he.holds_ahead y hj).symm)).cons h hle hv hx,
          hwf, he.holds_after hle hv hholds⟩
    cases hleft with
    | here hat hle hv => exact hbody hat hle hv
    | @pending b hp hle hv =>
      obtain ⟨iter', slot', hchunk, hre⟩ := radixTreeNextChunk_spec h hrestarts hp
      cases slot' with
      | none =>
        cases hre with
        | none hv' =>
          refine ⟨t, [], eachSlotLoop_end fuel hchunk, .nil (hv.trans hv'), h, fun j x ↦ ?_⟩
          refine (and_iff_left_of_imp (fun hx hc ↦ ?_)).symm
          have := hv.trans hv' j x hx hc.1
          omega
      | some slot' =>
        cases hre with
        | some hat hle' hv' =>
          rw [eachSlotLoop_chunk fuel hchunk]
          exact hbody hat (hle.trans hle') (hv.trans hv')

/-- A loop that stands before index 0 of a tree that holds something visits something. -/
theorem eachSlotLoop_begins {body : Tree → Slot → Iter → Except Fault (Tree × Option Slot × Iter)}
    (h : WF t) (hrestarts : 2 ^ 64 ≤ restarts) (hp : Pending iter 0) (hne : ∃ j, Present t j)
    {visits : List (BitVec 64 × Entry)}
    (hrun : eachSlotLoop body restarts fuel t none iter = .ok (t', visits)) :
    ∃ j e rest, visits = (j, e) :: rest ∧ Present t j := by
  cases fuel with
  | zero => cases hrun
  | succ fuel =>
    obtain ⟨iter', slot', hchunk, hre⟩ := radixTreeNextChunk_spec h hrestarts hp
    cases slot' with
    | none =>
      cases hre with
      | none hv =>
        obtain ⟨j, x, hx⟩ := hne
        exact absurd (hv j x hx (Nat.zero_le _)) (not_le.mpr j.isLt)
    | some slot' =>
      cases hre with
      | some hat hle hv =>
        obtain ⟨x, -, hx⟩ := hat.load_eq
        rw [eachSlotLoop_chunk fuel hchunk, eachSlotLoop_some] at hrun
        obtain ⟨e, -, hrun⟩ := Fault.bind_eq_ok.mp hrun
        obtain ⟨r₁, -, hrun⟩ := Fault.bind_eq_ok.mp hrun
        obtain ⟨r₂, -, hrun⟩ := Fault.bind_eq_ok.mp hrun
        obtain ⟨r₃, -, hrun⟩ := Fault.bind_eq_ok.mp hrun
        cases hrun
        exact ⟨iter'.index, e, r₃.2, rfl, x, hx⟩

/-- Only indices before `i` are left by a step at `i` that sets the iterator back. -/
theorem lt_of_rewindsAt (he : Edited t choice i t' iter slot)
    (hr : RewindsAt (Present t) choice i) {j : BitVec 64} (hj : Present t' j) : ¬ i < j := by
  intro hlt
  rw [BitVec.lt_def] at hlt
  rcases hr with ⟨rfl, -⟩ | ⟨-, hle, hsole⟩
  · have := j.isLt
    rw [lastIndex_toNat] at hlt
    omega
  · rw [hsole j ((he.present_iff j).mp hj).1 (by omega)] at hlt
    omega

/-- Induction on the fuel: a loop that begins again and ends has gone down once. -/
theorem editLoop_rewinds (h : WF t) (hrestarts : 2 ^ 64 ≤ restarts) (hleft : Left t a iter slot)
    (hr : Rewinds (Present t) a choice) {visits : List (BitVec 64 × Entry)}
    (hrun : eachSlotLoop (edit choice) restarts fuel t slot iter = .ok (t', visits)) :
    ¬ (visits.map Prod.fst).Pairwise (· < ·) := by
  induction fuel generalizing t t' a iter slot visits with
  | zero => cases hrun
  | succ fuel ih =>
    have hbody : ∀ {iter : Iter} {s : Slot}, At t iter s → a ≤ iter.index.toNat →
        Vacant t a iter.index.toNat →
        eachSlotLoop (edit choice) restarts (fuel + 1) t (some s) iter = .ok (t', visits) →
        ¬ (visits.map Prod.fst).Pairwise (· < ·) := by
      intro iter s hat hle hv hrun
      obtain ⟨x, hload, hx⟩ := hat.load_eq
      obtain ⟨t₁, slot₁, iter₁, iter', slot', hedit, hnext, he⟩ := edit_spec h hat choice
      rw [eachSlotLoop_edit hload hedit hnext] at hrun
      obtain ⟨⟨t₂, rest⟩, hrest, hret⟩ := Fault.bind_eq_ok.mp hrun
      cases hret
      rw [List.map_cons, List.pairwise_cons]
      rintro ⟨hfirst, hasc⟩
      by_cases hrew : RewindsAt (Present t) choice iter.index
      · obtain ⟨rfl, hp⟩ := he.rewound hrew
        have hleft := (rewinds_iff_left he.present_iff ⟨x, hx⟩ hle
          (fun j ⟨y, hy⟩ ↦ hv j y hy) hrew).mp hr
        obtain ⟨j, e, rest', rfl, hj⟩ := eachSlotLoop_begins he.wf hrestarts hp hleft hrest
        exact lt_of_rewindsAt he hrew hj (hfirst j (by simp))
      · exact ih he.wf (he.ahead hrew)
          ((rewinds_step he.present_iff hle (fun j ⟨y, hy⟩ ↦ hv j y hy) hrew).mpr hr) hrest hasc
    cases hleft with
    | here hat hle hv => exact hbody hat hle hv hrun
    | @pending b hp hle hv =>
      obtain ⟨iter', slot', hchunk, hre⟩ := radixTreeNextChunk_spec h hrestarts hp
      cases slot' with
      | none =>
        cases hre with
        | none hv' => exact absurd hr (not_rewinds (fun j ⟨y, hy⟩ ↦ hv.trans hv' j y hy))
      | some slot' =>
        cases hre with
        | some hat hle' hv' =>
          rw [eachSlotLoop_chunk fuel hchunk] at hrun
          exact hbody hat (hle.trans hle') (hv.trans hv') hrun

end Loop

/-! ### When the iteration survives -/

theorem Stands.isPresent_iff {t : Tree} {f : BitVec 64 → Option Item} (h : Stands t f)
    (i : BitVec 64) : isPresent t i = true ↔ Present t i := by
  rw [h.isPresent_eq, Option.isSome_iff_exists]
  exact exists_congr (fun x ↦ (h.holds i x).symm)

/-- On a tree in good order. -/
theorem editLaw_iff {t : Tree} {f : BitVec 64 → Option Item} (h : Stands t f) {fuel : Nat}
    (hfuel : 2 ^ 64 < fuel) (start : BitVec 64) (choice : BitVec 64 → Choice) :
    EditLaw t fuel start choice ↔ ¬ Rewinds (fun i ↦ isPresent t i = true) start.toNat choice := by
  rw [show (fun i ↦ isPresent t i = true) = Present t from funext (fun i ↦
    propext (h.isPresent_iff i))]
  have hleft : Left t start.toNat (radixTreeIterInit start) none :=
    .pending (pending_init start) le_rfl (.refl t _)
  constructor
  · rintro ⟨t', visits, hrun, hasc, -⟩ hr
    exact editLoop_rewinds h.wf hfuel.le hleft hr hrun hasc
  · intro hn
    obtain ⟨t', visits, hrun, hvis, hwf, hholds⟩ :=
      editLoop_spec h.wf hfuel.le hleft hn (show 2 ^ 64 < start.toNat + fuel by omega)
        start.isLt.le
    refine ⟨t', visits, hrun, hvis.ascending, fun i e ↦ ?_, fun i ↦ ?_⟩
    · rw [hvis.mem_iff h, BitVec.le_def]
    · rw [h.lookup_eq]
      by_cases hdel : start ≤ i ∧ choice i = .delete
      · rw [if_pos hdel, radixTreeLookup_eq hwf (show ∀ x, Holds t' i x ↔
          (none : Option Item) = some x from fun x ↦ ?_)]
        · rfl
        · exact iff_of_false (fun hx ↦ ((hholds i x).mp hx).2 hdel) (by simp)
      · rw [if_neg hdel, radixTreeLookup_eq hwf (show ∀ x, Holds t' i x ↔ f i = some x from
          fun x ↦ ?_)]
        rw [hholds, h.holds]
        exact and_iff_left hdel

/-- **Deleting and resuming.** On every tree that insertions of untagged items and deletions of
present indices lead to, a loop from any index on that deletes and resumes as it is told does so
exactly if the root has got its first node and no step begins again at index 0 with something
left. -/
theorem editTree_run {oom : Nat → Bool} {t₀ t : Tree} {calls : List Call} {rs : List Reply}
    (h0 : radixTreeRootAlloc oom = some t₀) (htidy : Along Call.tidy t₀ calls = true)
    (hrun : run t₀ calls = .ok (t, rs)) (start : BitVec 64) (choice : BitVec 64 → Choice)
    {fuel : Nat} (hfuel : 2 ^ 64 < fuel) :
    EditLaw t fuel start choice ↔
      oom 1 = false ∧ ¬ Rewinds (fun i ↦ isPresent t i = true) start.toNat choice := by
  by_cases h1 : oom 1 = true
  · obtain ⟨x, hr, hx⟩ := rootAlloc_stuck h0 h1
    obtain rfl := run_stuck hr hx hrun
    obtain ⟨n, rfl⟩ := Nat.exists_eq_add_of_le' (show 1 ≤ fuel by omega)
    refine iff_of_false ?_ (fun hc ↦ by rw [h1] at hc; cases hc.1)
    rintro ⟨t', visits, hloop, -⟩
    rw [editTree, eachSlotLoop_stuck hr hx (by omega)] at hloop
    cases hloop
  · have h1' := eq_false_of_ne_true h1
    obtain rfl := rootAlloc_eq h0 h1'
    obtain ⟨t', rs', hrun', hst⟩ := (stands_emptyTree oom).1.run_tidy htidy
    rw [hrun, Except.ok.injEq, Prod.mk.injEq] at hrun'
    obtain ⟨rfl, rfl⟩ := hrun'
    rw [editLaw_iff hst hfuel, and_iff_right h1']

/-- `editTree_run` of a loop that deletes a whole leaf and resumes behind the next index. -/
theorem editTree_run_two_leaves :
    ∃ t rs, run (emptyTree (fun _ ↦ false))
        [.insert 5 ⟨4, by decide⟩, .insert 70 ⟨8, by decide⟩] = .ok (t, rs) ∧
      (EditLaw t (2 ^ 64 + 1) 0 (fun i ↦ if i = 5 then .delete else .resume) ↔
        (fun _ ↦ false : Nat → Bool) 1 = false ∧ ¬ Rewinds (fun i ↦ isPresent t i = true)
          (0 : BitVec 64).toNat (fun i ↦ if i = 5 then .delete else .resume)) := by
  have htidy : Along Call.tidy (emptyTree (fun _ ↦ false)) [.insert 5 ⟨4, by decide⟩,
      .insert 70 ⟨8, by decide⟩] = true := by decide +kernel
  exact ⟨_, _, rfl, editTree_run (show radixTreeRootAlloc (fun _ ↦ false) = some (emptyTree _)
    from rfl) htidy rfl 0 _ (Nat.lt_succ_self _)⟩

/-- An item at the last index: the loop never gets past it by resuming, and comes back to index 5
after deleting it. -/
theorem editTree_last_index :
    ∃ t rs, run (emptyTree (fun _ ↦ false))
        [.insert 5 ⟨4, by decide⟩, .insert lastIndex ⟨8, by decide⟩] = .ok (t, rs) ∧
      Along Call.tidy (emptyTree (fun _ ↦ false))
        [.insert 5 ⟨4, by decide⟩, .insert lastIndex ⟨8, by decide⟩] = true ∧
      ∀ fuel, 2 ^ 64 < fuel → ¬ EditLaw t fuel 0 (fun _ ↦ .resume) ∧
        ¬ EditLaw t fuel 0 (fun i ↦ if i = lastIndex then .delete else .keep) := by
  have htidy : Along Call.tidy (emptyTree (fun _ ↦ false)) [.insert 5 ⟨4, by decide⟩,
      .insert lastIndex ⟨8, by decide⟩] = true := by decide +kernel
  obtain ⟨t, rs, hrun, hst⟩ := (stands_emptyTree (fun _ ↦ false)).1.run_tidy htidy
  have hrs : rs = [.code 0, .code 0] := by
    have hrep : (run (emptyTree (fun _ ↦ false)) [.insert 5 ⟨4, by decide⟩,
      .insert lastIndex ⟨8, by decide⟩]).map Prod.snd = .ok [.code 0, .code 0] := by rfl
    rw [hrun] at hrep
    exact Except.ok.inj hrep
  subst hrs
  have hmap : replay (fun _ ↦ none) [.insert 5 ⟨4, by decide⟩, .insert lastIndex ⟨8, by decide⟩]
      [.code 0, .code 0] = Function.update (Function.update (fun _ ↦ none) 5 (some ⟨4, by decide⟩))
        lastIndex (some ⟨8, by decide⟩) := rfl
  have hpresent : ∀ i, isPresent t i = true ↔ i = lastIndex ∨ i = 5 := by
    intro i
    rw [hst.isPresent_eq, hmap, Function.update_apply, Function.update_apply]
    by_cases hlast : i = lastIndex
    · rw [if_pos hlast]
      exact iff_of_true rfl (.inl hlast)
    · rw [if_neg hlast, or_iff_right hlast]
      by_cases h5 : i = 5
      · rw [if_pos h5]
        exact iff_of_true rfl h5
      · rw [if_neg h5]
        exact iff_of_false Bool.false_ne_true h5
  refine ⟨t, _, hrun, htidy, fun fuel hfuel ↦ ⟨?_, ?_⟩⟩
  · rw [editLaw_iff hst hfuel, not_not]
    exact .inl ⟨by decide, (hpresent _).mpr (.inl rfl), rfl⟩
  · rw [editLaw_iff hst hfuel, not_not]
    refine .inr ⟨⟨lastIndex, (hpresent _).mpr (.inl rfl), by decide⟩, fun i hi hle ↦ ?_,
      5, (hpresent _).mpr (.inr rfl), fun hc ↦ nomatch hc.2⟩
    rcases (hpresent i).mp hi with rfl | rfl
    · exact ⟨Nat.zero_le _, if_pos rfl⟩
    · exact absurd hle (by decide)

end Jeopardy.RadixTree
