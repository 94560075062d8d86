import Mathlib

/-!
# The synchronized queue

Model of `SynchronizedQueue` in `producer_consumer/syncQueue.cpp`. A critical section is one
step. A `pop` that finds the queue empty releases the mutex and blocks in one step; once it is
woken it takes another step to resume. `push` notifies only if the queue was empty before it.
-/

namespace Jeopardy.ProducerConsumer.SyncQueue

variable {τ α : Type} [DecidableEq τ]

/-- The queue, the threads blocked in `condvar_.wait`, and those woken but not yet resumed. -/
structure State (τ α : Type) where
  queue : List α
  waiting : Finset τ
  woken : Finset τ
deriving DecidableEq

/-- The steps of threads. A `push` carries the thread its `notify_one` would wake. -/
inductive Act (τ α : Type) where
  | push (t : τ) (val : α) (wakes : Option τ)
  | pop (t : τ)
  | resume (t : τ)
  | spurious (t : τ)
deriving DecidableEq

/-- A fresh queue that no thread uses. -/
def State.init : State τ α := ⟨[], ∅, ∅⟩

/-- A blocked thread is woken. -/
def State.wake (s : State τ α) (t : τ) : State τ α :=
  { s with waiting := s.waiting.erase t, woken := insert t s.woken }

/-- `condvar_.notify_one()` with the choice of the thread it wakes: one of the blocked ones,
or nobody if there are none. -/
def State.notifyOne (s : State τ α) : Option τ → Option (State τ α)
  | none => if s.waiting = ∅ then some s else none
  | some t => if t ∈ s.waiting then some (s.wake t) else none

/-- `push`, `producer_consumer/syncQueue.cpp:11–17`. -/
def State.push (s : State τ α) (val : α) (wakes : Option τ) : Option (State τ α) :=
  let wake := s.queue.isEmpty
  let s := { s with queue := s.queue ++ [val] }
  if wake then s.notifyOne wakes else some s

/-- The loop of `pop`, `producer_consumer/syncQueue.cpp:22–27`, entered with the mutex held. -/
def State.take (s : State τ α) (t : τ) : State τ α :=
  match s.queue with
  | [] => { s with waiting := insert t s.waiting }
  | _ :: rest => { s with queue := rest }

/-- A thread calls only while it is in no other call. -/
def State.free (s : State τ α) (t : τ) : Prop := t ∉ s.waiting ∧ t ∉ s.woken

instance (s : State τ α) (t : τ) : Decidable (s.free t) := inferInstanceAs (Decidable (_ ∧ _))

/-- One step, if it is possible. -/
def step (s : State τ α) : Act τ α → Option (State τ α)
  | .push t val wakes => if s.free t then s.push val wakes else none
  | .pop t => if s.free t then some (s.take t) else none
  | .resume t => if t ∈ s.woken then some (({ s with woken := s.woken.erase t }).take t) else none
  | .spurious t => if t ∈ s.waiting then some (s.wake t) else none

/-- An interleaving of steps. -/
def run (s : State τ α) (acts : List (Act τ α)) : Option (State τ α) := acts.foldlM step s

/-- A wake-up has been lost: values are there, a `pop` is blocked, and none is on its way. -/
def Stranded (s : State τ α) : Prop := s.queue ≠ [] ∧ s.waiting.Nonempty ∧ s.woken = ∅

/-- A `push` onto a non-empty queue that somebody waits for finds more `pop`s on their way
than values in the queue. -/
def Careful (s : State τ α) : Act τ α → Prop
  | .push _ _ _ => s.queue ≠ [] → s.waiting.Nonempty → s.queue.length < s.woken.card
  | _ => True

/-- Every step of an interleaving is careful when it comes. -/
def AllCareful (s : State τ α) : List (Act τ α) → Prop
  | [] => True
  | act :: acts => Careful s act ∧ ∀ s' ∈ step s act, AllCareful s' acts

instance (s : State τ α) [DecidableEq α] (act : Act τ α) : Decidable (Careful s act) :=
  match act with
  | .push _ _ _ => inferInstanceAs (Decidable (_ ≠ _ → _ → _ < _))
  | .pop _ => .isTrue trivial
  | .resume _ => .isTrue trivial
  | .spurious _ => .isTrue trivial

instance decidableAllCareful [DecidableEq α] :
    (s : State τ α) → (acts : List (Act τ α)) → Decidable (AllCareful s acts)
  | _, [] => .isTrue trivial
  | s, act :: acts =>
    have (s' : State τ α) := decidableAllCareful s' acts
    inferInstanceAs (Decidable (_ ∧ ∀ s' ∈ step s act, AllCareful s' acts))

/-- While a thread is blocked, no value lacks a `pop` on its way. -/
structure Inv (s : State τ α) : Prop where
  disjoint : Disjoint s.waiting s.woken
  covered : s.waiting.Nonempty → s.queue.length ≤ s.woken.card

omit [DecidableEq τ] in
theorem Inv.init : Inv (State.init : State τ α) :=
  ⟨Finset.disjoint_empty_right _, fun h ↦ absurd h (by simp [State.init])⟩

omit [DecidableEq τ] in
theorem Inv.not_stranded {s : State τ α} (h : Inv s) : ¬ Stranded s := by
  rintro ⟨hq, hw, hr⟩
  have hle := h.covered hw
  rw [hr, Finset.card_empty] at hle
  exact hq (List.length_eq_zero_iff.mp (Nat.le_zero.mp hle))

theorem take_nil {s : State τ α} (hq : s.queue = []) (t : τ) :
    s.take t = { s with waiting := insert t s.waiting } := by
  rw [State.take]
  split
  · rfl
  · next hq' => exact absurd (hq.symm.trans hq') (by simp)

theorem take_cons {s : State τ α} {v : α} {rest : List α} (hq : s.queue = v :: rest) (t : τ) :
    s.take t = { s with queue := rest } := by
  rw [State.take]
  split
  · next hq' => exact absurd (hq.symm.trans hq') (by simp)
  · next v' rest' hq' =>
    rw [hq, List.cons.injEq] at hq'
    rw [hq'.2]

theorem disjoint_wake {s : State τ α} (h : Disjoint s.waiting s.woken) (t : τ) :
    Disjoint (s.wake t).waiting (s.wake t).woken := by
  show Disjoint (s.waiting.erase t) (insert t s.woken)
  rw [Finset.disjoint_insert_right]
  exact ⟨Finset.notMem_erase t _, Finset.disjoint_of_subset_left (Finset.erase_subset _ _) h⟩

theorem card_wake {s : State τ α} (h : Disjoint s.waiting s.woken) {t : τ} (ht : t ∈ s.waiting) :
    (s.wake t).woken.card = s.woken.card + 1 :=
  Finset.card_insert_of_notMem (Finset.disjoint_left.mp h ht)

/-- A `push` onto an empty queue notifies. -/
theorem push_empty {s s' : State τ α} (h : Inv s) (hq : s.queue = []) {val : α} {wakes : Option τ}
    (hs : s.push val wakes = some s') : Inv s' := by
  rw [State.push, hq, List.isEmpty_nil, if_pos rfl] at hs
  cases wakes with
  | none =>
    simp only [State.notifyOne] at hs
    split at hs
    · next hempty =>
      cases hs
      exact ⟨h.disjoint, fun hw ↦ absurd hempty hw.ne_empty⟩
    · exact absurd hs (by simp)
  | some t =>
    simp only [State.notifyOne] at hs
    split at hs
    · next ht =>
      cases hs
      refine ⟨disjoint_wake h.disjoint t, fun _ ↦ ?_⟩
      show ([] ++ [val]).length ≤ (s.wake t).woken.card
      rw [card_wake h.disjoint ht]
      exact Nat.succ_le_succ (Nat.zero_le _)
    · exact absurd hs (by simp)

theorem push_nonempty {s : State τ α} (hq : s.queue ≠ []) (val : α) (wakes : Option τ) :
    s.push val wakes = some { s with queue := s.queue ++ [val] } := by
  rw [State.push, List.isEmpty_eq_false_iff.mpr hq, if_neg Bool.false_ne_true]

/-- A `pop` that takes its value was one of those on their way, or a new one. -/
theorem take_inv {s : State τ α} {t : τ} (hd : Disjoint s.waiting s.woken) (ht : t ∉ s.woken)
    (hc : s.waiting.Nonempty → s.queue.length ≤ s.woken.card + 1) : Inv (s.take t) := by
  cases hq : s.queue with
  | nil =>
    rw [take_nil hq]
    refine ⟨Finset.disjoint_insert_left.mpr ⟨ht, hd⟩, fun _ ↦ ?_⟩
    rw [hq]
    exact Nat.zero_le _
  | cons v rest =>
    rw [take_cons hq]
    refine ⟨hd, fun hw ↦ ?_⟩
    have hle := hc hw
    rw [hq, List.length_cons] at hle
    exact Nat.le_of_succ_le_succ hle

/-- A careful step keeps the invariant. -/
theorem step_inv {s s' : State τ α} (h : Inv s) {act : Act τ α} (hc : Careful s act)
    (hs : step s act = some s') : Inv s' := by
  cases act with
  | push t val wakes =>
    rw [step] at hs
    split at hs
    · by_cases hq : s.queue = []
      · exact push_empty h hq hs
      · rw [push_nonempty hq] at hs
        cases hs
        refine ⟨h.disjoint, fun hw ↦ ?_⟩
        rw [List.length_append]
        exact hc hq hw
    · exact absurd hs (by simp)
  | pop t =>
    rw [step] at hs
    split at hs
    · next hfree =>
      cases hs
      exact take_inv h.disjoint hfree.2 (fun hw ↦ (h.covered hw).trans (Nat.le_succ _))
    · exact absurd hs (by simp)
  | resume t =>
    rw [step] at hs
    split at hs
    · next ht =>
      cases hs
      refine take_inv (Finset.disjoint_of_subset_right (Finset.erase_subset _ _) h.disjoint)
        (Finset.notMem_erase t _) (fun hw ↦ ?_)
      show s.queue.length ≤ (s.woken.erase t).card + 1
      rw [Finset.card_erase_add_one ht]
      exact h.covered hw
    · exact absurd hs (by simp)
  | spurious t =>
    rw [step] at hs
    split at hs
    · next ht =>
      cases hs
      refine ⟨disjoint_wake h.disjoint t, fun _ ↦ ?_⟩
      rw [card_wake h.disjoint ht]
      exact (h.covered ⟨t, ht⟩).trans (Nat.le_succ _)
    · exact absurd hs (by simp)

theorem run_inv {s s' : State τ α} (h : Inv s) {acts : List (Act τ α)} (hc : AllCareful s acts)
    (hs : run s acts = some s') : Inv s' := by
  induction acts generalizing s with
  | nil =>
    rw [run, List.foldlM_nil] at hs
    cases hs
    exact h
  | cons act acts ih =>
    rw [run, List.foldlM_cons] at hs
    cases hstep : step s act with
    | none =>
      rw [hstep] at hs
      exact absurd hs (by simp)
    | some s₁ =>
      rw [hstep] at hs
      exact ih (step_inv h hc.1 hstep) (hc.2 s₁ hstep) hs

/-- With more values than `pop`s on their way, the latter run out first: let all of them
resume, one after the other. -/
theorem exists_stranded (n : Nat) {s : State τ α} (hn : s.woken.card = n)
    (hw : s.waiting.Nonempty) (hlt : n < s.queue.length) :
    ∃ (ts : List τ) (s' : State τ α), run s (ts.map Act.resume) = some s' ∧ Stranded s' := by
  induction n generalizing s with
  | zero =>
    refine ⟨[], s, rfl, ?_, hw, Finset.card_eq_zero.mp hn⟩
    rintro hq
    rw [hq] at hlt
    exact absurd hlt (Nat.lt_irrefl 0)
  | succ n ih =>
    obtain ⟨t, ht⟩ : s.woken.Nonempty := Finset.card_pos.mp (by omega)
    cases hq : s.queue with
    | nil =>
      rw [hq] at hlt
      exact absurd hlt (Nat.not_lt_zero _)
    | cons v rest =>
      have hstep : step s (.resume t) = some ⟨rest, s.waiting, s.woken.erase t⟩ := by
        simp only [step, if_pos ht, State.take, hq]
      rw [hq, List.length_cons] at hlt
      obtain ⟨ts, s', hrun, hstr⟩ := ih (s := ⟨rest, s.waiting, s.woken.erase t⟩)
        (by
          show (s.woken.erase t).card = n
          rw [Finset.card_erase_of_mem ht, hn, Nat.add_sub_cancel]) hw
        (show n < rest.length by omega)
      refine ⟨t :: ts, s', ?_, hstr⟩
      rw [run, List.map_cons, List.foldlM_cons, hstep]
      exact hrun

/-- After an interleaving of careful steps no wake-up is lost; and a `push` that is not careful
loses one as soon as the `pop`s on their way have resumed. -/
theorem no_lost_wakeup {acts : List (Act τ α)} {s : State τ α}
    (hc : AllCareful State.init acts) (hs : run State.init acts = some s) :
    ¬ Stranded s ∧ ∀ act s', step s act = some s' → ¬ Careful s act →
      ∃ (ts : List τ) (s'' : State τ α), run s' (ts.map Act.resume) = some s'' ∧ Stranded s'' := by
  have h := run_inv Inv.init hc hs
  refine ⟨h.not_stranded, ?_⟩
  intro act s' hstep hcareless
  cases act with
  | push t val wakes =>
    rw [Careful, Classical.not_imp, Classical.not_imp, Nat.not_lt] at hcareless
    obtain ⟨hq, hw, hle⟩ := hcareless
    rw [step] at hstep
    split at hstep
    · rw [push_nonempty hq] at hstep
      cases hstep
      refine exists_stranded s.woken.card rfl hw ?_
      rw [List.length_append]
      exact Nat.lt_succ_of_le hle
    · exact absurd hstep (by simp)
  | pop t => exact absurd trivial hcareless
  | resume t => exact absurd trivial hcareless
  | spurious t => exact absurd trivial hcareless

/-- Two `pop`s block, and two `push`es follow each other with a resumption between them. -/
theorem no_lost_wakeup_in_turn :
    run State.init [.pop 0, .pop 1, .push 2 7 (some 0), .resume 0, .push 2 8 (some 1)]
        = some (⟨[8], ∅, {1}⟩ : State Nat Nat) ∧ ¬ Stranded (⟨[8], ∅, {1}⟩ : State Nat Nat) := by
  have hrun : run State.init [.pop 0, .pop 1, .push 2 7 (some 0), .resume 0, .push 2 8 (some 1)]
      = some (⟨[8], ∅, {1}⟩ : State Nat Nat) := by decide
  exact ⟨hrun, (no_lost_wakeup (by decide) hrun).1⟩

/-- Two `pop`s block, two `push`es follow before the woken `pop` resumes: the second `pop`
stays blocked beside a value. -/
theorem lost_wakeup : ∃ s : State Nat Nat,
    run State.init [.pop 0, .pop 1, .push 2 7 (some 0), .push 2 8 none, .resume 0] = some s ∧
      Stranded s :=
  ⟨⟨[8], {1}, ∅⟩, by decide, by decide, by decide, by decide⟩

end Jeopardy.ProducerConsumer.SyncQueue
