import Jeopardy.Hotring.Cut

/-!
# The last loops of a rehash

`hotring_delete_head` takes the milestone out of the ring of a slot and makes the node behind
it the head. The test for a single node compares the whole link word with the address; after
the second loop that word carries no counter. `display` then walks every ring once around.
-/

namespace Jeopardy.Hotring

open Rings Fault

variable {m m' : Mem} {h h' : Hash} {i c : Nat} {xs : List Nat}

private theorem foldRing_prev (m : Mem) (xs : List Nat) (prev : Option Nat) :
    foldRing (fun m p _ ↦ .ok (.yield (m, some p))) m xs prev = .ok (m, xs.getLast?.or prev) := by
  induction xs generalizing prev with
  | nil => rfl
  | cons x xs ih =>
    rw [foldRing, ok_bind]
    simp only
    rw [ih, List.getLast?_cons]
    cases xs.getLast? <;> rfl

private theorem listForEach_prev {x : Nat} (hr : IsRing m.next (c :: x :: xs)) :
    listForEach (fun m p _ ↦ .ok (.yield (m, some p))) m c Option.none
      = .ok (m, some (xs.getLastD x)) := by
  rw [listForEach_eq_fold _ hr, foldRing_prev, List.getLast?_cons, Option.some_or,
    List.getLastD_eq_getLast?]
  intro m₁ a s m₂ s' _ hm hb
  simp only [Except.ok.injEq, ForInStep.yield.injEq, Prod.mk.injEq] at hb
  exact hb.1 ▸ hm

/-- What taking the first node out of the ring of a slot does. -/
structure HeadOff (m m' : Mem) (h h' : Hash) (i c : Nat) (xs : List Nat) : Prop where
  shape : SameShape h h'
  brk : m'.brk = m.brk
  bucket : BucketAt m' h' i xs
  freed : m'.cell c = Option.none
  data : ∀ a, a ≠ c → m.SameData m' a
  frame : ∀ a, a ∉ c :: xs → m'.node a = m.node a
  slots : ∀ j, j ≠ i → h'.slots j = h.slots j

/-- `hotring_delete_head` completes on a ring that is plain. -/
theorem hotringDeleteHead_spec (hb : BucketAt m h i (c :: xs)) (hp : PlainRing m (c :: xs)) :
    ∃ m' h', hotringDeleteHead m h i = .ok (m', h', true) ∧ HeadOff m m' h h' i c xs := by
  obtain ⟨head, hslot, rfl⟩ := Option.map_eq_some_iff.mp
    (show (h.slots i).map Head.addr = some c from hb.head)
  obtain ⟨nd, hnd⟩ := Mem.node_of_ring hb.linked List.mem_cons_self
  have hother (v : Option Head) (j : Nat) (hj : j ≠ i) : (h.setSlot i v).slots j = h.slots j :=
    if_neg hj
  cases xs with
  | nil =>
    have hlist : nd.list = .ofPtr head.addr := by
      have := hp.2 head.addr rfl
      rw [hnd] at this
      exact Option.some.inj this
    refine ⟨m.free head.addr, h.setSlot i Option.none, ?_, .setSlot h i _, rfl,
      ⟨hb.index_lt, by simp [Hash.setSlot], isRing_nil⟩, by simp [Mem.cell], ?_, ?_, hother _⟩
    · simp only [hotringDeleteHead, hb.slot_eq, hslot, ok_bind, Mem.read_eq hnd, if_pos hlist,
        hotringNodeFree, hotringHeadFreeByIndex, pure, Except.pure]
    · intro a ha
      apply Mem.sameData_of_cell
      simp [Mem.cell, ha]
    · intro a ha
      rw [Mem.node_free, if_neg (by simpa using ha)]
  | cons x xs =>
    have hx : nd.list.addr = x := by
      have := hb.linked.2.1
      rw [Mem.next, hnd] at this
      exact Option.some.inj this
    have hlist : nd.list ≠ .ofPtr head.addr := by
      intro he
      rw [he] at hx
      exact (List.nodup_cons.mp hb.linked.1).1 (hx ▸ List.mem_cons_self)
    obtain ⟨us, hus⟩ := exists_last x xs
    have hrot : IsRing m.next (xs.getLastD x :: head.addr :: us) := by
      have hring := hb.linked
      rw [hus, ← List.cons_append] at hring
      exact hring.rotate
    obtain ⟨m₁, m', hdel, hfree, hbrk, hring, hcell, hdata, hframe⟩ := unlink_spec hrot
    refine ⟨m', h.setSlot i (some (.ofPtr x)), ?_, .setSlot h i _, hbrk,
      ⟨hb.index_lt, by simp [Hash.setSlot, Head.ofPtr], ?_⟩, hcell, hdata, ?_, hother _⟩
    · simp only [hotringDeleteHead, hb.slot_eq, hslot, ok_bind, Mem.read_eq hnd, if_neg hlist,
        Hash.store, if_pos hb.index_lt, listForEach_prev hb.linked, hdel, hfree, hx, pure,
        Except.pure]
    · rw [hus]
      exact IsRing.rotate (show IsRing m'.next ([xs.getLastD x] ++ us) from hring)
    · intro a ha
      apply hframe
      rw [hus] at ha
      simp only [List.mem_cons, List.mem_append, List.not_mem_nil, or_false, not_or] at ha ⊢
      tauto

/-- A deletion of the head of slot `i` completes and does what `HeadOff` says. -/
def DeletesHead (m : Mem) (h : Hash) (i c : Nat) (xs : List Nat) : Prop :=
  ∃ m' h', hotringDeleteHead m h i = .ok (m', h', true) ∧ HeadOff m m' h h' i c xs

/-- On a ring of one node whose link word carries a counter or a flag the test for a single node
fails, the loop has no round, and the predecessor is used unset. -/
theorem hotringDeleteHead_uninitialized {nd : HashNode} (hb : BucketAt m h i [c])
    (hnd : m.node c = some nd) (hlist : nd.list ≠ .ofPtr c) :
    hotringDeleteHead m h i = .error .uninitialized := by
  obtain ⟨head, hslot, rfl⟩ := Option.map_eq_some_iff.mp
    (show (h.slots i).map Head.addr = some c from hb.head)
  have hloop : listForEach (fun m p _ ↦ .ok (.yield (m, some p))) m head.addr Option.none
      = .ok (m, Option.none) := by
    rw [listForEach_eq_fold _ hb.linked, foldRing]
    intro m₁ a s m₂ s' _ hm hb
    simp only [Except.ok.injEq, ForInStep.yield.injEq, Prod.mk.injEq] at hb
    exact hb.1 ▸ hm
  simp only [hotringDeleteHead, hb.slot_eq, hslot, ok_bind, Mem.read_eq hnd, if_neg hlist,
    Hash.store, if_pos hb.index_lt, hloop]

/-- **Deleting the head.** On a bucket that is not empty `hotring_delete_head` takes exactly the
head out, whatever the counters and flags, except on a ring of one node whose link word is not
the plain pointer. -/
theorem hotringDeleteHead_law (hb : BucketAt m h i (c :: xs)) :
    DeletesHead m h i c xs ↔
      xs = [] → (m.node c).map HashNode.list = some (.ofPtr c) := by
  constructor
  · rintro ⟨m', h', hr, -⟩ rfl
    obtain ⟨nd, hnd⟩ := Mem.node_of_ring hb.linked List.mem_cons_self
    rw [hnd, Option.map_some, Option.some.injEq]
    by_contra hlist
    rw [hotringDeleteHead_uninitialized hb hnd hlist] at hr
    cases hr
  · intro hplain
    refine hotringDeleteHead_spec hb ⟨hb.linked, fun a ha ↦ ?_⟩
    obtain ⟨rfl, rfl⟩ := List.cons.inj ha
    exact hplain rfl

/-- `hotringDeleteHead_law` of the head of a ring of three nodes, whose link word carries a
counter. -/
theorem hotringDeleteHead_law_three :
    DeletesHead threeMem threeTable 1 2 [3, 1] ↔
      [3, 1] = [] → (threeMem.node 2).map HashNode.list = some (.ofPtr 2) :=
  hotringDeleteHead_law bucketAt_three

/-- The head of a bucket with one entry: `hash_insert` leaves the counter 1 in its link word, and
the deletion reads the predecessor unset. -/
theorem hotringDeleteHead_counted :
    ∃ m h, hashInsert .init ⟨4, 2, 4, fun _ ↦ Option.none⟩ 5 50 = .ok (m, h, 0) ∧
      BucketAt m h 1 [1] ∧ ¬ DeletesHead m h 1 1 [] ∧
      hotringDeleteHead m h 1 = .error .uninitialized := by
  refine ⟨_, _, rfl, ⟨by decide, rfl, isRing_singleton.mpr rfl⟩, ?_, rfl⟩
  rintro ⟨m', h', hr, -⟩
  cases (show Except.error Fault.uninitialized = Except.ok (m', h', true) from hr)

/-- The state of the last loop after `N` slots: the rings of the slots seen have lost their
first node. -/
structure HeadsOff (m : Mem) (h : Hash) (ws : Nat → List Nat) (s : Mem × Hash) (N : Nat) :
    Prop where
  shape : SameShape h s.2
  brk : s.1.brk = m.brk
  bucket : ∀ i < N, BucketAt s.1 s.2 i (ws i).tail
  rest : ∀ i, N ≤ i → i < h.size → BucketAt s.1 s.2 i (ws i) ∧ PlainRing s.1 (ws i)
  data : ∀ a, (∀ i < N, (ws i).head? ≠ some a) → m.SameData s.1 a
  freed : ∀ i < N, ∀ a, (ws i).head? = some a → s.1.cell a = Option.none

section Loop

variable {ws : Nat → List Nat} {s : Mem × Hash} {N : Nat}

theorem BucketAt.of_frame {h' : Hash} (hb : BucketAt m h i xs) (hi : i < h'.size)
    (hslot : h'.slots i = h.slots i) (hm : ∀ a ∈ xs, m'.node a = m.node a) :
    BucketAt m' h' i xs := by
  refine ⟨hi, hslot ▸ hb.head, hb.linked.congr ?_⟩
  intro a ha
  rw [Mem.next, hm a ha, Mem.next]

/-- One round of the last loop completes. -/
theorem HeadsOff.step (hd : ∀ i j a, i < h.size → j < h.size → i ≠ j → a ∈ ws i → a ∉ ws j)
    (H : HeadsOff m h ws s N) (hN : N < h.size) :
    ∃ s', rehashDeleteStep s N = .ok s' ∧ HeadsOff m h ws s' (N + 1) := by
  obtain ⟨m₀, h₀⟩ := s
  obtain ⟨hb, hp⟩ := H.rest N le_rfl hN
  have hcase {i : Nat} (hlt : i < N + 1) : i < N ∨ i = N := by omega
  cases hw : ws N with
  | nil =>
    rw [hw] at hb
    have hslot : h₀.slots N = Option.none := by simpa using hb.head
    refine ⟨(m₀, h₀), ?_, H.shape, H.brk, ?_, fun i hi ↦ H.rest i (by omega), ?_, ?_⟩
    · simp only [rehashDeleteStep, hb.slot_eq, hslot, ok_bind]
      rfl
    · intro i hlt
      rcases hcase hlt with hlt | rfl
      · exact H.bucket i hlt
      · rwa [hw]
    · exact fun a ha ↦ H.data a (fun i hlt ↦ ha i (by omega))
    · intro i hlt a ha
      rcases hcase hlt with hlt | rfl
      · exact H.freed i hlt a ha
      · rw [hw] at ha
        cases ha
  | cons c xs =>
    rw [hw] at hb hp
    obtain ⟨m₁, h₁, hr, O⟩ := hotringDeleteHead_spec hb hp
    have hmem : c ∈ ws N := hw ▸ List.mem_cons_self
    have hsame (i : Nat) (hi : i < h.size) (hne : i ≠ N) (a : Nat) (ha : a ∈ ws i) :
        m₁.node a = m₀.node a := by
      apply O.frame
      rw [← hw]
      exact hd i N a hi hN hne ha
    have hsize : h₁.size = h.size := O.shape.size.trans H.shape.size
    refine ⟨(m₁, h₁), ?_, H.shape.trans O.shape, O.brk.trans H.brk, ?_, ?_, ?_, ?_⟩
    · obtain ⟨head, hslot, -⟩ := Option.map_eq_some_iff.mp
        (show (h₀.slots N).map Head.addr = some c from hb.head)
      simp only [rehashDeleteStep, hb.slot_eq, hslot, ok_bind, hr]
      rfl
    · intro i hlt
      rcases hcase hlt with hlt | rfl
      · refine (H.bucket i hlt).of_frame (hsize.symm ▸ hlt.trans hN) (O.slots i hlt.ne) ?_
        exact fun a ha ↦ hsame i (hlt.trans hN) hlt.ne a (List.mem_of_mem_tail ha)
      · rw [hw]
        exact O.bucket
    · intro i hle hlt
      obtain ⟨hbi, hpi⟩ := H.rest i (by omega) hlt
      have hframe := hsame i hlt (by omega)
      exact ⟨hbi.of_frame (hsize.symm ▸ hlt) (O.slots i (by omega)) hframe, hpi.congr hframe⟩
    · intro a ha
      refine (H.data a (fun i hlt ↦ ha i (by omega))).trans (O.data a ?_)
      rintro rfl
      exact ha N (by omega) (by rw [hw]; rfl)
    · intro i hlt a ha
      rcases hcase hlt with hlt | rfl
      · have hmem' := List.mem_of_head? ha
        rw [Mem.cell, hsame i (hlt.trans hN) hlt.ne a hmem', ← Mem.cell]
        exact H.freed i hlt a ha
      · rw [hw, List.head?_cons, Option.some.injEq] at ha
        exact ha ▸ O.freed

/-- The last loop completes and takes the first node out of every ring. -/
theorem deleteHeads_spec (hb : ∀ i < h.size, BucketAt m h i (ws i) ∧ PlainRing m (ws i))
    (hd : ∀ i j a, i < h.size → j < h.size → i ≠ j → a ∈ ws i → a ∉ ws j) :
    ∃ s, (List.range h.size).foldlM rehashDeleteStep (m, h) = .ok s ∧
      HeadsOff m h ws s h.size := by
  refine foldlM_range_total (P := fun N s ↦ HeadsOff m h ws s N)
    (fun N s hN hH ↦ hH.step hd hN) ?_
  exact ⟨.refl h, rfl, by simp, fun i _ hi ↦ hb i hi, fun _ _ ↦ rfl, by simp⟩

end Loop

/-! ### `display` -/

private theorem foldRing_walk (m : Mem) (xs : List Nat) :
    foldRing (fun m _ (_ : Unit) ↦ .ok (.yield (m, ()))) m xs () = .ok (m, ()) := by
  induction xs with
  | nil => rfl
  | cons x xs ih =>
    rw [foldRing, ok_bind]
    exact ih

/-- `display` walks rings and changes nothing. -/
theorem display_spec {ring : Nat → List Nat} (hb : ∀ i < h.size, BucketAt m h i (ring i)) :
    display m h = .ok m := by
  have hstep (i : Nat) (m' : Mem) (hi : i < h.size) (hm : m' = m) :
      ∃ m'', displayStep h m' i = .ok m'' ∧ m'' = m := by
    subst hm
    refine ⟨m', ?_, rfl⟩
    have hbi := hb i hi
    cases hslot : h.slots i with
    | none => simp only [displayStep, hbi.slot_eq, hslot, ok_bind, pure, Except.pure]
    | some head =>
      have hhead := hbi.head
      rw [hslot] at hhead
      obtain ⟨xs, hx⟩ := List.head?_eq_some_iff.mp hhead.symm
      have hring := hbi.linked
      rw [hx] at hring
      have hwalk : listForEach (fun m _ (_ : Unit) ↦ .ok (.yield (m, ()))) m' head.addr ()
          = .ok (m', ()) := by
        rw [listForEach_eq_fold _ hring, foldRing_walk]
        intro m₁ a s m₂ s' _ hm hb
        simp only [Except.ok.injEq, ForInStep.yield.injEq, Prod.mk.injEq] at hb
        exact hb.1 ▸ hm
      simp only [displayStep, hbi.slot_eq, hslot, ok_bind, hwalk, pure, Except.pure]
  obtain ⟨m', hr, rfl⟩ := foldlM_range_total (P := fun _ m' ↦ m' = m) hstep rfl
  exact hr

end Jeopardy.Hotring
