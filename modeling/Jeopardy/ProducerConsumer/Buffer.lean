import Mathlib

/-!
# The bounded buffer

Model of `Buffer` in `parallel_tcpip/socket_server.cpp` and, with numbers for messages, in
`producer_consumer/example.cpp`. A locked section is one step; the `notify_all` that follows
it is another, and other threads may come between the two.
-/

namespace Jeopardy.ProducerConsumer.Buffer

/-- `size_`, `parallel_tcpip/socket_server.cpp:66`. -/
def size_ : Nat := 10

/-- What a thread is doing: nothing, blocked in the `wait` of `add` or of `remove`, woken from
it but without the lock, or past its change of the buffer and before its `notify_all`. A
`remove` past its change carries the message it is about to return. -/
inductive Status (α : Type) where
  | idle
  | addBlocked (msg : α)
  | addWoken (msg : α)
  | removeBlocked
  | removeWoken
  | changed (back : Option α)
deriving DecidableEq

/-- The buffer and the threads, with the messages that `add` has put in and `remove` has taken
out for its caller so far. -/
structure State (τ α : Type) where
  buffer_ : List α
  status : τ → Status α
  added : Multiset α
  removed : Multiset α

variable {τ α : Type} [DecidableEq τ]

/-- An empty buffer that no thread uses. -/
def State.init : State τ α := ⟨[], fun _ ↦ .idle, 0, 0⟩

/-- `add` with the lock held, `parallel_tcpip/socket_server.cpp:38–41`. -/
def State.tryAdd (s : State τ α) (t : τ) (msg : α) : State τ α :=
  if s.buffer_.length < size_ then
    { s with
      buffer_ := s.buffer_ ++ [msg]
      status := Function.update s.status t (.changed none)
      added := msg ::ₘ s.added }
  else { s with status := Function.update s.status t (.addBlocked msg) }

/-- `remove` with the lock held, `parallel_tcpip/socket_server.cpp:49–53`. -/
def State.tryRemove (s : State τ α) (t : τ) : State τ α :=
  match s.buffer_.getLast? with
  | some back =>
    { s with
      buffer_ := s.buffer_.dropLast
      status := Function.update s.status t (.changed (some back))
      removed := back ::ₘ s.removed }
  | none => { s with status := Function.update s.status t .removeBlocked }

/-- A blocked thread is woken. -/
def Status.wake : Status α → Status α
  | .addBlocked msg => .addWoken msg
  | .removeBlocked => .removeWoken
  | st => st

/-- The steps of threads. -/
inductive Act (τ α : Type) where
  | add (t : τ) (msg : α)
  | remove (t : τ)
  | resume (t : τ)
  | spurious (t : τ)
  | notifyAll (t : τ)
deriving DecidableEq

/-- One step, if it is possible. -/
def step (s : State τ α) : Act τ α → Option (State τ α)
  | .add t msg =>
    match s.status t with
    | .idle => some (s.tryAdd t msg)
    | _ => none
  | .remove t =>
    match s.status t with
    | .idle => some (s.tryRemove t)
    | _ => none
  | .resume t =>
    match s.status t with
    | .addWoken msg => some (s.tryAdd t msg)
    | .removeWoken => some (s.tryRemove t)
    | _ => none
  | .spurious t => some { s with status := Function.update s.status t (s.status t).wake }
  | .notifyAll t =>
    match s.status t with
    | .changed _ =>
      some { s with status := fun u ↦ if u = t then .idle else (s.status u).wake }
    | _ => none

/-- An interleaving of steps. -/
def run (s : State τ α) (acts : List (Act τ α)) : Option (State τ α) := acts.foldlM step s

/-- Some thread has changed the buffer and not yet executed its `notify_all`. -/
def State.pending (s : State τ α) : Prop := ∃ t back, s.status t = .changed back

/-- The buffer holds at most `size_` messages, none is lost or duplicated, and unless a
`notify_all` is pending, whoever is blocked has a reason to be. -/
structure Safe (s : State τ α) : Prop where
  bounded : s.buffer_.length ≤ size_
  conserved : s.added = s.removed + (s.buffer_ : Multiset α)
  remove_blocked : ∀ t, s.status t = .removeBlocked → s.buffer_ ≠ [] → s.pending
  add_blocked : ∀ t msg, s.status t = .addBlocked msg → s.buffer_.length < size_ → s.pending

omit [DecidableEq τ] in
theorem Safe.init : Safe (State.init : State τ α) where
  bounded := Nat.zero_le _
  conserved := rfl
  remove_blocked _ h := absurd h (by simp [State.init])
  add_blocked _ _ h := absurd h (by simp [State.init])

/-- A thread whose locked section leaves it in status `st` leaves others pending as they were. -/
theorem pending_update {s : State τ α} {t : τ} (ht : ∀ back, s.status t ≠ .changed back)
    (st : Status α) (h : s.pending) :
    ∃ u back, Function.update s.status t st u = .changed back := by
  obtain ⟨u, back, hu⟩ := h
  have hut : u ≠ t := by
    rintro rfl
    exact ht back hu
  exact ⟨u, back, by rw [Function.update_of_ne hut, hu]⟩

theorem Safe.tryAdd {s : State τ α} (h : Safe s) {t : τ} (ht : ∀ back, s.status t ≠ .changed back)
    (msg : α) : Safe (s.tryAdd t msg) := by
  unfold State.tryAdd
  split
  · next hlt =>
    have hpend : ∃ u back, Function.update s.status t (Status.changed none) u
        = (Status.changed back : Status α) := ⟨t, none, Function.update_self _ _ _⟩
    refine ⟨?_, ?_, fun _ _ _ ↦ hpend, fun _ _ _ _ ↦ hpend⟩
    · rw [List.length_append]
      exact hlt
    · show msg ::ₘ s.added = s.removed + ((s.buffer_ ++ [msg] : List α) : Multiset α)
      rw [h.conserved, ← Multiset.coe_add, Multiset.coe_singleton, ← Multiset.singleton_add]
      abel
  · next hge =>
    refine ⟨h.bounded, h.conserved, fun u hu hne ↦ ?_, fun _ _ _ hlt ↦ absurd hlt hge⟩
    change Function.update s.status t _ u = _ at hu
    have hut : u ≠ t := by
      rintro rfl
      rw [Function.update_self] at hu
      exact absurd hu (by simp)
    rw [Function.update_of_ne hut] at hu
    exact pending_update ht _ (h.remove_blocked u hu hne)

theorem Safe.tryRemove {s : State τ α} (h : Safe s) {t : τ}
    (ht : ∀ back, s.status t ≠ .changed back) : Safe (s.tryRemove t) := by
  unfold State.tryRemove
  split
  · next back hback =>
    have hpend : ∃ u b, Function.update s.status t (Status.changed (some back)) u
        = (Status.changed b : Status α) := ⟨t, some back, Function.update_self _ _ _⟩
    have hsplit := List.dropLast_append_getLast? back hback
    refine ⟨?_, ?_, fun _ _ _ ↦ hpend, fun _ _ _ _ ↦ hpend⟩
    · rw [List.length_dropLast]
      exact (Nat.sub_le _ _).trans h.bounded
    · show s.added = back ::ₘ s.removed + (s.buffer_.dropLast : Multiset α)
      have hcoe : (s.buffer_ : Multiset α) = (s.buffer_.dropLast : Multiset α) + {back} := by
        rw [← Multiset.coe_singleton, Multiset.coe_add, hsplit]
      rw [h.conserved, hcoe, ← Multiset.singleton_add]
      abel
  · next hnone =>
    have hnil : s.buffer_ = [] := List.getLast?_eq_none_iff.mp hnone
    refine ⟨h.bounded, h.conserved, fun _ _ hne ↦ absurd hnil hne, fun u msg hu hlt ↦ ?_⟩
    change Function.update s.status t _ u = _ at hu
    have hut : u ≠ t := by
      rintro rfl
      rw [Function.update_self] at hu
      exact absurd hu (by simp)
    rw [Function.update_of_ne hut] at hu
    exact pending_update ht _ (h.add_blocked u msg hu hlt)

omit [DecidableEq τ] in
theorem wake_ne_removeBlocked (st : Status α) : st.wake ≠ .removeBlocked := by
  cases st <;> simp [Status.wake]

omit [DecidableEq τ] in
theorem wake_ne_addBlocked (st : Status α) (msg : α) : st.wake ≠ .addBlocked msg := by
  cases st <;> simp [Status.wake]

/-- A spurious wake-up changes nobody's claim on the buffer but the woken thread's. -/
theorem Safe.spurious {s : State τ α} (h : Safe s) (t : τ) :
    Safe { s with status := Function.update s.status t (s.status t).wake } := by
  have hpend : s.pending →
      ∃ u back, Function.update s.status t (s.status t).wake u = .changed back := by
    rintro ⟨u, back, hu⟩
    by_cases hut : u = t
    · subst hut
      exact ⟨u, back, by rw [Function.update_self, hu]; rfl⟩
    · exact ⟨u, back, by rw [Function.update_of_ne hut, hu]⟩
  refine ⟨h.bounded, h.conserved, fun u hu hne ↦ ?_, fun u msg hu hlt ↦ ?_⟩
  · change Function.update s.status t _ u = _ at hu
    by_cases hut : u = t
    · subst hut
      rw [Function.update_self] at hu
      exact absurd hu (wake_ne_removeBlocked _)
    · rw [Function.update_of_ne hut] at hu
      exact hpend (h.remove_blocked u hu hne)
  · change Function.update s.status t _ u = _ at hu
    by_cases hut : u = t
    · subst hut
      rw [Function.update_self] at hu
      exact absurd hu (wake_ne_addBlocked _ _)
    · rw [Function.update_of_ne hut] at hu
      exact hpend (h.add_blocked u msg hu hlt)

/-- After a `notify_all` nobody is blocked. -/
theorem Safe.notifyAll {s : State τ α} (h : Safe s) (t : τ) :
    Safe { s with status := fun u ↦ if u = t then .idle else (s.status u).wake } := by
  refine ⟨h.bounded, h.conserved, fun u hu ↦ ?_, fun u msg hu ↦ ?_⟩
  · simp only at hu
    split at hu
    · exact absurd hu (by simp)
    · exact absurd hu (wake_ne_removeBlocked _)
  · simp only at hu
    split at hu
    · exact absurd hu (by simp)
    · exact absurd hu (wake_ne_addBlocked _ _)

theorem Safe.step {s s' : State τ α} (h : Safe s) {act : Act τ α} (hs : step s act = some s') :
    Safe s' := by
  cases act with
  | add t msg =>
    simp only [Buffer.step] at hs
    split at hs
    · next hst =>
      cases hs
      exact h.tryAdd (by simp [hst]) msg
    · exact absurd hs (by simp)
  | remove t =>
    simp only [Buffer.step] at hs
    split at hs
    · next hst =>
      cases hs
      exact h.tryRemove (by simp [hst])
    · exact absurd hs (by simp)
  | resume t =>
    simp only [Buffer.step] at hs
    split at hs
    · next hst =>
      cases hs
      exact h.tryAdd (by simp [hst]) _
    · next hst =>
      cases hs
      exact h.tryRemove (by simp [hst])
    · exact absurd hs (by simp)
  | spurious t =>
    cases hs
    exact h.spurious t
  | notifyAll t =>
    simp only [Buffer.step] at hs
    split at hs
    · cases hs
      exact h.notifyAll t
    · exact absurd hs (by simp)

theorem Safe.run {s s' : State τ α} (h : Safe s) {acts : List (Act τ α)}
    (hs : run s acts = some s') : Safe s' := by
  induction acts generalizing s with
  | nil =>
    rw [Buffer.run, List.foldlM_nil] at hs
    cases hs
    exact h
  | cons act acts ih =>
    rw [Buffer.run, List.foldlM_cons] at hs
    cases hstep : Buffer.step s act with
    | none =>
      rw [hstep] at hs
      exact absurd hs (by simp)
    | some s₁ =>
      rw [hstep] at hs
      exact ih (h.step hstep) hs

/-- The thread of a step. -/
def Act.thread : Act τ α → τ
  | .add t _ | .remove t | .resume t | .spurious t | .notifyAll t => t

/-- The message a call of `add` is made with. -/
@[simp]
def Act.offers : Act τ α → Multiset α
  | .add _ msg => {msg}
  | .remove _ | .resume _ | .spurious _ | .notifyAll _ => 0

/-- The message that a thread has taken out and not returned yet. -/
@[simp]
def Status.carries : Status α → Multiset α
  | .changed (some back) => {back}
  | .idle | .addBlocked _ | .addWoken _ | .removeBlocked | .removeWoken | .changed none => 0

/-- The message a call of `remove` returns to its caller, after its `notify_all`. -/
@[simp]
def State.returns (s : State τ α) : Act τ α → Multiset α
  | .notifyAll t => (s.status t).carries
  | .add _ _ | .remove _ | .resume _ | .spurious _ => 0

/-- The messages that `add` was called with during an interleaving. -/
def offered (acts : List (Act τ α)) : Multiset α := (acts.map Act.offers).sum

/-- The messages that `remove` has returned during an interleaving. -/
def returned : State τ α → List (Act τ α) → Multiset α
  | _, [] => 0
  | s, act :: acts => s.returns act + ((step s act).map (returned · acts)).getD 0

/-- The message that a thread still has to put in. -/
@[simp]
def Status.offers : Status α → Multiset α
  | .addBlocked msg | .addWoken msg => {msg}
  | .idle | .removeBlocked | .removeWoken | .changed _ => 0

/-- One thread's status is changed. -/
theorem sum_update {β : Type} [AddCommMonoid β] (w : Status α → β) {T : Finset τ} {t : τ}
    (ht : t ∈ T) (status : τ → Status α) (st : Status α) :
    ∑ u ∈ T, w (Function.update status t st u) + w (status t) = ∑ u ∈ T, w (status u) + w st := by
  rw [← Finset.add_sum_erase T _ ht, ← Finset.add_sum_erase T (fun u ↦ w (status u)) ht,
    Function.update_self]
  have hrest : ∑ u ∈ T.erase t, w (Function.update status t st u)
      = ∑ u ∈ T.erase t, w (status u) := by
    refine Finset.sum_congr rfl (fun u hu ↦ ?_)
    rw [Function.update_of_ne (Finset.ne_of_mem_erase hu)]
  rw [hrest]
  abel

omit [DecidableEq τ] in
theorem wake_offers (st : Status α) : st.wake.offers = st.offers := by
  cases st <;> rfl

omit [DecidableEq τ] in
theorem wake_carries (st : Status α) : st.wake.carries = st.carries := by
  cases st <;> rfl

/-- `add` with the lock held: the message is put in, or is still to be. -/
theorem tryAdd_offers {s : State τ α} {T : Finset τ} {t : τ} (ht : t ∈ T) (msg : α) :
    (s.tryAdd t msg).added + ∑ u ∈ T, ((s.tryAdd t msg).status u).offers + (s.status t).offers
      = s.added + ∑ u ∈ T, (s.status u).offers + {msg} := by
  unfold State.tryAdd
  split
  · have hsum := sum_update Status.offers ht s.status (.changed none)
    rw [Status.offers, add_zero] at hsum
    show msg ::ₘ s.added + _ + _ = _
    rw [add_assoc, hsum, ← Multiset.singleton_add]
    abel
  · have hsum := sum_update Status.offers ht s.status (.addBlocked msg)
    rw [add_assoc, hsum, add_assoc]
    rfl

theorem tryAdd_carries {s : State τ α} {T : Finset τ} {t : τ} (ht : t ∈ T)
    (hst : (s.status t).carries = 0) (msg : α) : (s.tryAdd t msg).removed = s.removed ∧
      ∑ u ∈ T, ((s.tryAdd t msg).status u).carries = ∑ u ∈ T, (s.status u).carries := by
  unfold State.tryAdd
  split
  · have hsum := sum_update Status.carries ht s.status (.changed none)
    rw [hst] at hsum
    exact ⟨rfl, add_right_cancel hsum⟩
  · have hsum := sum_update Status.carries ht s.status (.addBlocked msg)
    rw [hst] at hsum
    exact ⟨rfl, add_right_cancel hsum⟩

/-- `remove` with the lock held: a message is taken out, and still to be returned. -/
theorem tryRemove_carries {s : State τ α} {T : Finset τ} {t : τ} (ht : t ∈ T)
    (hst : (s.status t).carries = 0) :
    (s.tryRemove t).removed + ∑ u ∈ T, (s.status u).carries
      = s.removed + ∑ u ∈ T, ((s.tryRemove t).status u).carries := by
  unfold State.tryRemove
  split
  · next back hback =>
    have hsum := sum_update Status.carries ht s.status (.changed (some back))
    rw [hst, add_zero] at hsum
    show back ::ₘ s.removed + _ = _
    rw [hsum, ← Multiset.singleton_add]
    show _ = s.removed + (_ + {back})
    abel
  · have hsum := sum_update Status.carries ht s.status .removeBlocked
    rw [hst, Status.carries, add_zero, add_zero] at hsum
    exact congrArg (s.removed + ·) hsum.symm

theorem tryRemove_offers {s : State τ α} {T : Finset τ} {t : τ} (ht : t ∈ T)
    (hst : (s.status t).offers = 0) : (s.tryRemove t).added = s.added ∧
      ∑ u ∈ T, ((s.tryRemove t).status u).offers = ∑ u ∈ T, (s.status u).offers := by
  unfold State.tryRemove
  split
  · next back _ =>
    have hsum := sum_update Status.offers ht s.status (.changed (some back))
    rw [hst] at hsum
    exact ⟨rfl, add_right_cancel hsum⟩
  · have hsum := sum_update Status.offers ht s.status .removeBlocked
    rw [hst] at hsum
    exact ⟨rfl, add_right_cancel hsum⟩

/-- A step puts in or keeps what `add` is called with, and returns or keeps what is taken out. -/
theorem step_messages {s s' : State τ α} {act : Act τ α} {T : Finset τ} (ht : act.thread ∈ T)
    (h : step s act = some s') :
    s'.added + ∑ u ∈ T, (s'.status u).offers
        = s.added + ∑ u ∈ T, (s.status u).offers + act.offers ∧
      s'.removed + ∑ u ∈ T, (s.status u).carries
        = s.removed + s.returns act + ∑ u ∈ T, (s'.status u).carries := by
  cases act with
  | add t msg =>
    change t ∈ T at ht
    simp only [step] at h
    split at h
    · next hst =>
      cases h
      have hadd := tryAdd_offers (s := s) ht msg
      obtain ⟨hr, hc⟩ := tryAdd_carries (s := s) ht (by rw [hst]; rfl) msg
      refine ⟨by simpa [hst] using hadd, ?_⟩
      rw [hr, hc, State.returns, add_zero]
    · cases h
  | remove t =>
    change t ∈ T at ht
    simp only [step] at h
    split at h
    · next hst =>
      cases h
      have hrem := tryRemove_carries (s := s) ht (by rw [hst]; rfl)
      obtain ⟨ha, ho⟩ := tryRemove_offers (s := s) ht (by rw [hst]; rfl)
      rw [ha, ho]
      exact ⟨(add_zero _).symm, by simpa using hrem⟩
    · cases h
  | resume t =>
    change t ∈ T at ht
    simp only [step] at h
    split at h
    · next msg hst =>
      cases h
      have hadd := tryAdd_offers (s := s) ht msg
      obtain ⟨hr, hc⟩ := tryAdd_carries (s := s) ht (by rw [hst]; rfl) msg
      rw [hst] at hadd
      refine ⟨by simpa using add_right_cancel hadd, ?_⟩
      rw [hr, hc, State.returns, add_zero]
    · next hst =>
      cases h
      have hrem := tryRemove_carries (s := s) ht (by rw [hst]; rfl)
      obtain ⟨ha, ho⟩ := tryRemove_offers (s := s) ht (by rw [hst]; rfl)
      rw [ha, ho]
      exact ⟨(add_zero _).symm, by simpa using hrem⟩
    · cases h
  | spurious t =>
    change t ∈ T at ht
    cases h
    have hoffers := sum_update Status.offers ht s.status (s.status t).wake
    have hcarries := sum_update Status.carries ht s.status (s.status t).wake
    rw [wake_offers] at hoffers
    rw [wake_carries] at hcarries
    refine ⟨?_, ?_⟩
    · rw [add_right_cancel hoffers, Act.offers, add_zero]
    · rw [add_right_cancel hcarries, State.returns, add_zero]
  | notifyAll t =>
    change t ∈ T at ht
    simp only [step] at h
    split at h
    · next back hst =>
      cases h
      have hstatus (w : Status α → Multiset α) (hw : ∀ st : Status α, w st.wake = w st) (u : τ) :
          w (if u = t then .idle else (s.status u).wake)
            = w (Function.update s.status t .idle u) := by
        rw [Function.update_apply]
        split
        · rfl
        · exact hw _
      have hoffers := sum_update Status.offers ht s.status .idle
      have hcarries := sum_update Status.carries ht s.status .idle
      rw [hst] at hoffers hcarries
      simp only [hstatus Status.offers wake_offers, hstatus Status.carries wake_carries]
      refine ⟨?_, ?_⟩
      · rw [add_right_cancel hoffers, Act.offers, add_zero]
      · rw [Status.carries, add_zero] at hcarries
        rw [← hcarries, State.returns, hst]
        abel
    · cases h

/-- **Messages.** Every message that `add` was called with is put in once, or its thread still waits
to; every message taken out is returned once, or its thread is still to return it. `T` holds the
threads of the interleaving. -/
theorem messages_run {acts : List (Act τ α)} {s s' : State τ α} {T : Finset τ}
    (hT : ∀ act ∈ acts, act.thread ∈ T) (h : run s acts = some s') :
    s'.added + ∑ u ∈ T, (s'.status u).offers
        = s.added + ∑ u ∈ T, (s.status u).offers + offered acts ∧
      s'.removed + ∑ u ∈ T, (s.status u).carries
        = s.removed + returned s acts + ∑ u ∈ T, (s'.status u).carries := by
  induction acts generalizing s with
  | nil =>
    rw [run, List.foldlM_nil] at h
    cases h
    exact ⟨by rw [offered, List.map_nil, List.sum_nil, add_zero], by rw [returned, add_zero]⟩
  | cons act acts ih =>
    rw [run, List.foldlM_cons] at h
    cases hstep : step s act with
    | none =>
      rw [hstep] at h
      cases h
    | some s₁ =>
      rw [hstep] at h
      obtain ⟨hadd, hrem⟩ := step_messages (hT act List.mem_cons_self) hstep
      obtain ⟨hadd', hrem'⟩ := ih (fun act' hm ↦ hT act' (List.mem_cons_of_mem _ hm)) h
      refine ⟨?_, ?_⟩
      · rw [hadd', hadd, offered, offered, List.map_cons, List.sum_cons]
        abel
      · rw [returned, hstep, Option.map_some, Option.getD_some]
        refine add_right_cancel (b := ∑ u ∈ T, (s₁.status u).carries) ?_
        calc s'.removed + ∑ u ∈ T, (s.status u).carries + ∑ u ∈ T, (s₁.status u).carries
            = s₁.removed + ∑ u ∈ T, (s.status u).carries + returned s₁ acts
                + ∑ u ∈ T, (s'.status u).carries := by
              rw [add_right_comm, hrem']
              abel
          _ = _ := by
              rw [hrem]
              abel

/-- The same from the start: the calls of `add` account for every message. -/
theorem offered_run {acts : List (Act τ α)} {s : State τ α} {T : Finset τ}
    (hT : ∀ act ∈ acts, act.thread ∈ T) (h : run State.init acts = some s) :
    offered acts = returned State.init acts + ∑ u ∈ T, (s.status u).carries
      + (s.buffer_ : Multiset α) + ∑ u ∈ T, (s.status u).offers := by
  have hzero (w : Status α → Multiset α) (hw : w .idle = 0) :
      ∑ u ∈ T, w ((State.init : State τ α).status u) = 0 :=
    Finset.sum_eq_zero (fun _ _ ↦ hw)
  obtain ⟨hadd, hrem⟩ := messages_run hT h
  rw [hzero Status.offers rfl, show (State.init : State τ α).added = 0 from rfl, add_zero,
    zero_add] at hadd
  rw [hzero Status.carries rfl, show (State.init : State τ α).removed = 0 from rfl, add_zero,
    zero_add] at hrem
  rw [← hadd, (Safe.init.run h).conserved, hrem]

end Jeopardy.ProducerConsumer.Buffer
