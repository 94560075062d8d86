import Jeopardy.ProducerConsumer.SyncQueue

/-!
# The order of the synchronized queue

What the `pop`s of an interleaving return, against what the `push`es put in; and a queue that only
one thread pops from, where no wake-up is lost.
-/

namespace Jeopardy.ProducerConsumer.SyncQueue

variable {τ α : Type} [DecidableEq τ] {s s' : State τ α} {c : τ}

/-- The value a step puts into the queue. -/
def Act.pushes : Act τ α → List α
  | .push _ val _ => [val]
  | .pop _ | .resume _ | .spurious _ => []

/-- The value a step takes out of the queue for its caller. -/
def State.taken (s : State τ α) : Act τ α → List α
  | .pop _ | .resume _ => s.queue.head?.toList
  | .push _ _ _ | .spurious _ => []

/-- The values pushed during an interleaving, in order. -/
def pushed (acts : List (Act τ α)) : List α := acts.flatMap Act.pushes

/-- The values that the `pop`s of an interleaving return, in order. -/
def popped : State τ α → List (Act τ α) → List α
  | _, [] => []
  | s, act :: acts => s.taken act ++ ((step s act).map (popped · acts)).getD []

theorem notifyOne_queue {wakes : Option τ} (h : s.notifyOne wakes = some s') :
    s'.queue = s.queue := by
  cases wakes with
  | none =>
    simp only [State.notifyOne] at h
    split at h
    · cases h
      rfl
    · cases h
  | some t =>
    simp only [State.notifyOne] at h
    split at h
    · cases h
      rfl
    · cases h

theorem push_queue {val : α} {wakes : Option τ} (h : s.push val wakes = some s') :
    s'.queue = s.queue ++ [val] := by
  simp only [State.push] at h
  split at h
  · exact notifyOne_queue h
  · cases h
    rfl

theorem take_queue (s : State τ α) (t : τ) :
    s.queue = s.queue.head?.toList ++ (s.take t).queue := by
  cases hq : s.queue with
  | nil => rw [take_nil hq, hq, List.head?_nil, Option.toList_none, List.nil_append]
  | cons v rest => rw [take_cons hq, List.head?_cons, Option.toList_some, List.singleton_append]

/-- A step pushes at the back and takes from the front. -/
theorem step_queue {act : Act τ α} (h : step s act = some s') :
    s.queue ++ act.pushes = s.taken act ++ s'.queue := by
  cases act with
  | push t val wakes =>
    rw [step] at h
    split at h
    · exact (push_queue h).symm
    · cases h
  | pop t =>
    rw [step] at h
    split at h
    · cases h
      rw [Act.pushes, List.append_nil]
      exact take_queue s t
    · cases h
  | resume t =>
    rw [step] at h
    split at h
    · cases h
      rw [Act.pushes, List.append_nil]
      exact take_queue { s with woken := s.woken.erase t } t
    · cases h
  | spurious t =>
    rw [step] at h
    split at h
    · cases h
      rw [Act.pushes, List.append_nil]
      rfl
    · cases h

theorem run_queue {acts : List (Act τ α)} (h : run s acts = some s') :
    s.queue ++ pushed acts = popped s acts ++ s'.queue := by
  induction acts generalizing s with
  | nil =>
    rw [run, List.foldlM_nil] at h
    cases h
    rw [pushed, List.flatMap_nil, List.append_nil, popped, List.nil_append]
  | cons act acts ih =>
    rw [run, List.foldlM_cons] at h
    cases hstep : step s act with
    | none =>
      rw [hstep] at h
      cases h
    | some s₁ =>
      rw [hstep] at h
      have hrest := ih h
      have hfirst := step_queue hstep
      rw [pushed, List.flatMap_cons, ← pushed, ← List.append_assoc, hfirst, List.append_assoc,
        hrest, popped, hstep, Option.map_some, Option.getD_some, List.append_assoc]

/-- Only `c` pops: nobody else waits, and it waits only for an empty queue. -/
structure Alone (c : τ) (s : State τ α) : Prop where
  waiting : ∀ t ∈ s.waiting, t = c
  woken : ∀ t ∈ s.woken, t = c
  empty : s.waiting.Nonempty → s.queue = []

omit [DecidableEq τ] in
theorem Alone.init (c : τ) : Alone c (State.init : State τ α) where
  waiting _ ht := absurd ht (Finset.notMem_empty _)
  woken _ ht := absurd ht (Finset.notMem_empty _)
  empty _ := rfl

/-- Once `c` is woken, nobody waits. -/
theorem Alone.wake (h : Alone c s) {t : τ} (ht : t ∈ s.waiting) :
    (s.wake t).waiting = ∅ ∧ ∀ u ∈ (s.wake t).woken, u = c := by
  constructor
  · rw [Finset.eq_empty_iff_forall_notMem]
    intro u hu
    obtain ⟨hne, hu⟩ := Finset.mem_erase.mp hu
    exact hne ((h.waiting u hu).trans (h.waiting t ht).symm)
  · intro u hu
    rcases Finset.mem_insert.mp hu with rfl | hu
    · exact h.waiting u ht
    · exact h.woken u hu

theorem Alone.push (h : Alone c s) {val : α} {wakes : Option τ} (hs : s.push val wakes = some s') :
    Alone c s' := by
  by_cases hq : s.queue = []
  · rw [State.push, hq, List.isEmpty_nil, if_pos rfl] at hs
    cases wakes with
    | none =>
      simp only [State.notifyOne] at hs
      split at hs
      · next hnone =>
        cases hs
        exact ⟨h.waiting, h.woken, fun hw ↦ absurd hnone hw.ne_empty⟩
      · cases hs
    | some t =>
      simp only [State.notifyOne] at hs
      split at hs
      · next ht =>
        cases hs
        obtain ⟨hnone, hwoken⟩ := h.wake ht
        refine ⟨fun u hu ↦ ?_, hwoken, fun hw ↦ absurd hnone hw.ne_empty⟩
        exact h.waiting u (Finset.mem_of_mem_erase hu)
      · cases hs
  · rw [push_nonempty hq] at hs
    cases hs
    exact ⟨h.waiting, h.woken, fun hw ↦ absurd (h.empty hw) hq⟩

theorem Alone.take (h : Alone c s) {t : τ} (ht : t = c) : Alone c (s.take t) := by
  cases hq : s.queue with
  | nil =>
    rw [take_nil hq]
    refine ⟨fun u hu ↦ ?_, h.woken, fun _ ↦ hq⟩
    rcases Finset.mem_insert.mp hu with rfl | hu
    · exact ht
    · exact h.waiting u hu
  | cons v rest =>
    rw [take_cons hq]
    refine ⟨h.waiting, h.woken, fun hw ↦ ?_⟩
    have hnil := h.empty hw
    rw [hq] at hnil
    cases hnil

theorem Alone.step (h : Alone c s) {act : Act τ α} (hact : ∀ t, act = .pop t → t = c)
    (hs : step s act = some s') : Alone c s' := by
  cases act with
  | push t val wakes =>
    rw [SyncQueue.step] at hs
    split at hs
    · exact h.push hs
    · cases hs
  | pop t =>
    rw [SyncQueue.step] at hs
    split at hs
    · cases hs
      exact h.take (hact t rfl)
    · cases hs
  | resume t =>
    rw [SyncQueue.step] at hs
    split at hs
    · next ht =>
      cases hs
      have herase : Alone c { s with woken := s.woken.erase t } :=
        ⟨h.waiting, fun u hu ↦ h.woken u (Finset.mem_of_mem_erase hu), h.empty⟩
      exact herase.take (h.woken t ht)
    · cases hs
  | spurious t =>
    rw [SyncQueue.step] at hs
    split at hs
    · next ht =>
      cases hs
      obtain ⟨hnone, hwoken⟩ := h.wake ht
      refine ⟨fun u hu ↦ ?_, hwoken, fun hw ↦ absurd hnone hw.ne_empty⟩
      exact h.waiting u (Finset.mem_of_mem_erase hu)
    · cases hs

theorem Alone.run (h : Alone c s) {acts : List (Act τ α)} (hact : ∀ t, .pop t ∈ acts → t = c)
    (hs : run s acts = some s') : Alone c s' := by
  induction acts generalizing s with
  | nil =>
    rw [SyncQueue.run, List.foldlM_nil] at hs
    cases hs
    exact h
  | cons act acts ih =>
    rw [SyncQueue.run, List.foldlM_cons] at hs
    cases hstep : SyncQueue.step s act with
    | none =>
      rw [hstep] at hs
      cases hs
    | some s₁ =>
      rw [hstep] at hs
      have hfirst : ∀ t, act = .pop t → t = c := by
        rintro t rfl
        exact hact t List.mem_cons_self
      exact ih (h.step hfirst hstep) (fun t ht ↦ hact t (List.mem_cons_of_mem _ ht)) hs

/-- In every interleaving the values come out in the order they went in, none lost and none twice.
If only one thread pops, then while it is blocked every value has been returned to it. -/
theorem fifo_run {acts : List (Act τ α)} (h : run State.init acts = some s) :
    pushed acts = popped State.init acts ++ s.queue ∧
      ∀ c, (∀ t, .pop t ∈ acts → t = c) → c ∈ s.waiting →
        popped State.init acts = pushed acts := by
  have hqueue : pushed acts = popped State.init acts ++ s.queue := by
    have hrun := run_queue h
    rwa [State.init, List.nil_append] at hrun
  refine ⟨hqueue, fun c hact hc ↦ ?_⟩
  rw [hqueue, ((Alone.init c).run hact h).empty ⟨c, hc⟩, List.append_nil]

/-- A `pop` that blocks is woken, takes the first of two values, and comes back for the second and
for a third that never comes. -/
theorem fifo_run_blocked : ∃ (acts : List (Act Nat Nat)) (s : State Nat Nat),
    run State.init acts = some s ∧ 0 ∈ s.waiting ∧ popped State.init acts = [7, 8] := by
  have hrun : run State.init [.pop 0, .push 1 7 (some 0), .push 1 8 none, .resume 0, .pop 0, .pop 0]
      = some (⟨[], {0}, ∅⟩ : State Nat Nat) := by decide
  refine ⟨_, _, hrun, by decide, ?_⟩
  rw [(fifo_run hrun).2 0 (by simp) (by decide)]
  rfl

end Jeopardy.ProducerConsumer.SyncQueue
