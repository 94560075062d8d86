import Jeopardy.Hotring.Shift

/-!
# The counters of a ring

The collecting loop of `do_hotspot_shift` comes to an end only on a ring, whose counters it
then holds in order. So a shift is a function of the ring and its counters: the selection
picks an index, and the head moves to the node of that index.
-/

namespace Jeopardy.Hotring

open Rings Fault

/-- The access counter in the link word of the node at `a`. -/
def Mem.counter (m : Mem) (a : Nat) : Nat :=
  ((m.node a).map (fun nd ↦ nd.list.counter.toNat)).getD 0

variable {D : Type} [DoubleArith D] {m m' : Mem} {c : Nat} {xs : List Nat}

theorem Mem.counter_of_node {a : Nat} {nd : HashNode} (h : m.node a = some nd) :
    m.counter a = nd.list.counter.toNat := by
  rw [Mem.counter, h]
  rfl

/-! ### The collecting loop -/

theorem resetCounter_eq {a : Nat} {nd : HashNode} (h : m.node a = some nd) :
    ∃ m', resetCounter m a = .ok m' ∧ m.SameCells m' ∧ ∀ b, b ≠ a → m'.node b = m.node b := by
  refine ⟨_, Mem.modify_eq _ h, Mem.sameCells_update _ _ (fun _ ↦ rfl), ?_⟩
  intro b hb
  rw [Mem.node_update, if_neg hb]

theorem foldRing_collect_ok (cs : List Nat) (hl : ∀ a ∈ xs, ∃ nd, m.node a = some nd)
    (hd : xs.Nodup) (hlen : cs.length + xs.length ≤ countersSize) :
    ∃ m', foldRing collectBody m xs cs = .ok (m', cs ++ xs.map m.counter) ∧ m.SameCells m' := by
  induction xs generalizing m cs with
  | nil => exact ⟨m, by rw [foldRing, List.map_nil, List.append_nil], .refl m⟩
  | cons x xs ih =>
    obtain ⟨hx, hd⟩ := List.nodup_cons.mp hd
    obtain ⟨nd, hnd⟩ := hl x List.mem_cons_self
    obtain ⟨m₁, hm₁, hs₁, hsame⟩ := resetCounter_eq hnd
    rw [List.length_cons] at hlen
    have hold (a : Nat) (ha : a ∈ xs) : m₁.node a = m.node a :=
      hsame a (fun he ↦ hx (he ▸ ha))
    obtain ⟨m₂, hm₂, hs₂⟩ := ih (m := m₁) (cs ++ [nd.list.counter.toNat])
      (fun a ha ↦ hold a ha ▸ hl a (List.mem_cons_of_mem x ha)) hd
      (by rw [List.length_append, List.length_singleton]; omega)
    have hmap : xs.map m₁.counter = xs.map m.counter := by
      apply List.map_congr_left
      intro a ha
      rw [Mem.counter, Mem.counter, hold a ha]
    refine ⟨m₂, ?_, hs₁.trans hs₂⟩
    rw [foldRing, collectBody, Mem.read_eq hnd, ok_bind, if_pos (by omega), hm₁, ok_bind]
    show foldRing collectBody m₁ xs (cs ++ [nd.list.counter.toNat]) = _
    rw [hm₂, hmap, List.map_cons, Mem.counter_of_node hnd, List.append_assoc, List.singleton_append]

/-- More nodes than the array has entries are too many. -/
theorem foldRing_collect_overflow {cs : List Nat} (hl : ∀ a ∈ xs, ∃ nd, m.node a = some nd)
    (hd : xs.Nodup) (hcs : cs.length ≤ countersSize)
    (hlen : countersSize < cs.length + xs.length) :
    foldRing collectBody m xs cs = .error .outOfBounds := by
  induction xs generalizing m cs with
  | nil =>
    rw [List.length_nil] at hlen
    omega
  | cons x xs ih =>
    obtain ⟨hx, hd⟩ := List.nodup_cons.mp hd
    obtain ⟨nd, hnd⟩ := hl x List.mem_cons_self
    rw [List.length_cons] at hlen
    rw [foldRing, collectBody, Mem.read_eq hnd, ok_bind]
    by_cases hroom : cs.length < countersSize
    · obtain ⟨m₁, hm₁, -, hsame⟩ := resetCounter_eq hnd
      rw [if_pos hroom, hm₁, ok_bind]
      refine ih (fun a ha ↦ ?_) hd ?_ ?_
      · rw [hsame a (fun he ↦ hx (he ▸ ha))]
        exact hl a (List.mem_cons_of_mem x ha)
      · rw [List.length_append, List.length_singleton]
        omega
      · rw [List.length_append, List.length_singleton]
        omega
    · rw [if_neg hroom]
      rfl

private theorem links_of_collect {fuel a pos : Nat} {cs : List Nat} {r : Mem × List Nat}
    (ha : m.next a = some pos) (hr : listForEachFrom collectBody c fuel m pos cs = .ok r) :
    ∃ xs, Links m.next a xs c ∧ c ∉ xs := by
  induction fuel generalizing m a pos cs with
  | zero => cases hr
  | succ fuel ih =>
    rw [listForEachFrom] at hr
    split at hr
    · next hpos =>
      subst hpos
      exact ⟨[], ha, List.not_mem_nil⟩
    · next hpos =>
      obtain ⟨out, hb, hr⟩ := bind_eq_ok.mp hr
      cases out with
      | done r => exact absurd hb collectBody_not_done
      | yield r =>
        obtain ⟨m₁, cs₁⟩ := r
        have hs := (collectBody_yield hb).1
        obtain ⟨nd, hnd, hr⟩ := bind_eq_ok.mp hr
        have hnext : m₁.next pos = some nd.list.addr := by
          rw [Mem.next, Mem.read_eq_ok.mp hnd]
          rfl
        obtain ⟨xs, hl, hc⟩ := ih hnext hr
        rw [hs.next] at hl
        refine ⟨pos :: xs, ⟨ha, hl⟩, ?_⟩
        intro hm
        rcases List.mem_cons.mp hm with rfl | hm
        · exact hpos rfl
        · exact hc hm

/-- The collecting loop ends only where the links lead back to the head. -/
theorem isRing_of_collect {cs : List Nat} {r : Mem × List Nat}
    (hr : listForEach collectBody m c cs = .ok r) : ∃ xs, IsRing m.next (c :: xs) := by
  obtain ⟨nd, hnd, hr⟩ := bind_eq_ok.mp hr
  have hnext : m.next c = some nd.list.addr := by
    rw [Mem.next, Mem.read_eq_ok.mp hnd]
    rfl
  obtain ⟨xs, hl, hc⟩ := links_of_collect hnext hr
  exact ⟨xs, isRing_of_links hl hc⟩

/-! ### The shift -/

theorem foldRing_pick_eq (m : Mem) (xs : List Nat) (nr j z : Nat) :
    ∃ i, foldRing (pickBody nr) m xs (j, z) =
      .ok (m, (i, if j ≤ nr then xs.getD (nr - j) z else z)) := by
  induction xs generalizing j with
  | nil => exact ⟨j, by simp [foldRing]⟩
  | cons x xs ih =>
    rw [foldRing, pickBody]
    by_cases hj : j = nr
    · subst hj
      refine ⟨j, ?_⟩
      rw [if_pos rfl, ok_bind, if_pos le_rfl, Nat.sub_self, List.getD_cons_zero]
    · obtain ⟨i, hi⟩ := ih (j + 1)
      refine ⟨i, ?_⟩
      rw [if_neg hj, ok_bind]
      simp only
      rw [hi]
      by_cases hle : j ≤ nr
      · rw [if_pos hle, if_pos (by omega), show nr - j = (nr - (j + 1)) + 1 by omega,
          List.getD_cons_succ]
      · rw [if_neg hle, if_neg (by omega)]

/-- The node that the second loop of `do_hotspot_shift` finds on a ring read from its head:
the counting starts behind the head, so index 0 is not found. -/
def hottestNode (ring : List Nat) (nr_hottest : Nat) : Nat :=
  if nr_hottest = 0 then 0 else ring.getD nr_hottest 0

/-- What `do_hotspot_shift` leaves of the head of a ring for the answer of the selection,
`hotring/hotring.c:607–632`. -/
def settleHead (ring : List Nat) (head : Head) (sel : D × Nat × D) : Head × HotspotShift :=
  if DoubleArith.eq sel.1 sel.2.2 then ({ head with counter := 0, active := false }, .success)
  else if DoubleArith.lt (DoubleArith.ofNat INCOME_THRESHOLD) sel.1 then
    (.ofPtr (hottestNode ring sel.2.1), .rehash)
  else (.ofPtr (hottestNode ring sel.2.1), .success)

theorem settleHead_stay {ring : List Nat} {head : Head} {sel : D × Nat × D}
    (h : DoubleArith.eq sel.1 sel.2.2 = true) : (settleHead ring head sel).1.addr = head.addr := by
  unfold settleHead
  rw [if_pos h]

theorem settleHead_move {ring : List Nat} {head : Head} {sel : D × Nat × D}
    (h : DoubleArith.eq sel.1 sel.2.2 = false) :
    (settleHead ring head sel).1 = .ofPtr (hottestNode ring sel.2.1) := by
  unfold settleHead
  rw [if_neg (by simp [h])]
  split <;> rfl

/-- The answer of the selection for the ring behind a head. -/
def selection (D : Type) [DoubleArith D] (m : Mem) (head : Head) (xs : List Nat) : D × Nat × D :=
  findHottest (DoubleArith.ofNat head.counter.toNat) ((head.addr :: xs).map m.counter)

private theorem collect_start {head : Head} (h : IsRing m.next (head.addr :: xs)) :
    ∃ nd m₁, m.node head.addr = some nd ∧ resetCounter m head.addr = .ok m₁ ∧ m.SameCells m₁ ∧
      IsRing m₁.next (head.addr :: xs) ∧ (∀ a ∈ xs, m₁.node a = m.node a) ∧
      (∀ a ∈ xs, ∃ nd, m₁.node a = some nd) ∧ xs.Nodup := by
  obtain ⟨nd, hnd⟩ := Mem.node_of_ring h List.mem_cons_self
  obtain ⟨m₁, hm₁, hs, hsame⟩ := resetCounter_eq hnd
  obtain ⟨hne, hd⟩ := List.nodup_cons.mp h.1
  have hold (a : Nat) (ha : a ∈ xs) : m₁.node a = m.node a := hsame a (fun he ↦ hne (he ▸ ha))
  refine ⟨nd, m₁, hnd, hm₁, hs, hs.next ▸ h, hold, ?_, hd⟩
  intro a ha
  rw [hold a ha]
  exact Mem.node_of_ring h (List.mem_cons_of_mem _ ha)

/-- On a ring that fits the array, a shift completes as the selection says. -/
theorem doHotspotShift_ring {head : Head} (h : IsRing m.next (head.addr :: xs))
    (hlen : xs.length < countersSize) :
    ∃ m', m.SameCells m' ∧ doHotspotShift D m head =
      .ok (m', settleHead (head.addr :: xs) head (selection D m head xs)) := by
  obtain ⟨nd, m₁, hnd, hm₁, hs₁, hring₁, hold, hlive, hd⟩ := collect_start h
  obtain ⟨m₂, hm₂, hs₂⟩ := foldRing_collect_ok [nd.list.counter.toNat] hlive hd
    (by rw [List.length_singleton]; omega)
  have hcounters : [nd.list.counter.toNat] ++ xs.map m₁.counter
      = (head.addr :: xs).map m.counter := by
    rw [List.map_cons, Mem.counter_of_node hnd, List.singleton_append, List.cons.injEq]
    refine ⟨rfl, List.map_congr_left (fun a ha ↦ ?_)⟩
    rw [Mem.counter, Mem.counter, hold a ha]
  have hs := hs₁.trans hs₂
  have hring₂ : IsRing m₂.next (head.addr :: xs) := hs.next ▸ h
  refine ⟨m₂, hs, ?_⟩
  rw [doHotspotShift, Mem.read_eq hnd, ok_bind, hm₁, ok_bind,
    listForEach_eq_fold _ hring₁ (keepsLinks_collectBody m₁ _), hm₂, ok_bind, hcounters]
  rcases hsel : findHottest (DoubleArith.ofNat head.counter.toNat : D)
    ((head.addr :: xs).map m.counter) with ⟨least, nr, own⟩
  simp only [settleHead, selection, hsel]
  split
  · rfl
  · rw [listForEach_eq_fold _ hring₂ (keepsLinks_pickBody nr m₂ _)]
    obtain ⟨i, hi⟩ := foldRing_pick_eq m₂ xs nr 1 0
    have hnode : (if 1 ≤ nr then xs.getD (nr - 1) 0 else 0) = hottestNode (head.addr :: xs) nr := by
      cases nr with
      | zero => rfl
      | succ nr => rw [if_pos (by omega), hottestNode, if_neg (by omega), List.getD_cons_succ]; rfl
    rw [hi, hnode, ok_bind]
    simp only
    split
    · rfl
    · rfl

/-- A ring that does not fit the array overruns it. -/
theorem doHotspotShift_overflow {head : Head} (h : IsRing m.next (head.addr :: xs))
    (hlen : countersSize ≤ xs.length) : doHotspotShift D m head = .error .outOfBounds := by
  obtain ⟨nd, m₁, hnd, hm₁, -, hring₁, -, hlive, hd⟩ := collect_start h
  have hover : foldRing collectBody m₁ xs [nd.list.counter.toNat] = .error .outOfBounds := by
    apply foldRing_collect_overflow hlive hd
    · rw [List.length_singleton, countersSize]
      omega
    · rw [List.length_singleton]
      omega
  rw [doHotspotShift, Mem.read_eq hnd, ok_bind, hm₁, ok_bind,
    listForEach_eq_fold _ hring₁ (keepsLinks_collectBody m₁ _), hover]
  rfl

/-- A shift that completes had a ring that fits the array. -/
theorem ring_of_doHotspotShift {head : Head} {r : Mem × Head × HotspotShift}
    (hr : doHotspotShift D m head = .ok r) :
    ∃ xs, IsRing m.next (head.addr :: xs) ∧ xs.length < countersSize := by
  have hr₀ := hr
  obtain ⟨nd, hnd, hr⟩ := bind_eq_ok.mp hr
  obtain ⟨m₁, hm₁, hr⟩ := bind_eq_ok.mp hr
  obtain ⟨⟨m₂, counters⟩, hc, -⟩ := bind_eq_ok.mp hr
  obtain ⟨xs, hring⟩ := isRing_of_collect hc
  obtain ⟨m₁', hm₁', hs, -⟩ := resetCounter_eq (Mem.read_eq_ok.mp hnd)
  have hring' : IsRing m.next (head.addr :: xs) := by
    rwa [Except.ok.inj (hm₁.symm.trans hm₁'), hs.next] at hring
  refine ⟨xs, hring', ?_⟩
  by_contra hlen
  rw [doHotspotShift_overflow hring' (not_lt.mp hlen)] at hr₀
  cases hr₀

end Jeopardy.Hotring
