import Jeopardy.ProducerConsumer.Buffer

/-!
# Progress of producers and consumers

The threads of `producer_consumer/example.cpp`: some call `add` again and again, the others
`remove`. How long they can be busy without moving a message, and that they never all block.
-/

namespace Jeopardy.ProducerConsumer.Buffer

variable {τ α : Type} [DecidableEq τ] {s s' : State τ α}

/-- The steps a thread may take before a message has to move, one `notify_all` included. -/
def Status.weight (n : Nat) : Status α → Nat
  | .addBlocked _ | .removeBlocked => 0
  | .addWoken _ | .removeWoken => 1
  | .idle => 2
  | .changed _ => n + 2

section Weight

variable (n : Nat)

@[simp] theorem weight_idle : (Status.idle : Status α).weight n = 2 := rfl

@[simp] theorem weight_changed (back : Option α) : (Status.changed back).weight n = n + 2 := rfl

@[simp] theorem weight_addBlocked (msg : α) : (Status.addBlocked msg).weight n = 0 := rfl

@[simp] theorem weight_removeBlocked : (Status.removeBlocked : Status α).weight n = 0 := rfl

end Weight

omit [DecidableEq τ] in
theorem weight_wake (n : Nat) (st : Status α) : st.wake.weight n ≤ st.weight n + 1 := by
  cases st <;> simp [Status.wake, Status.weight]

/-- How often a message has moved. -/
def State.moves (s : State τ α) : Nat := s.added.card + s.removed.card

/-- A wake-up without a notification. -/
def Act.isSpurious : Act τ α → Bool
  | .spurious _ => true
  | .add _ _ | .remove _ | .resume _ | .notifyAll _ => false

/-- A producer does not call `remove`, a consumer not `add`. -/
def Act.plays (producer : τ → Prop) : Act τ α → Prop
  | .add t _ => producer t
  | .remove t => ¬ producer t
  | .resume _ | .spurious _ | .notifyAll _ => True

/-- The statuses of producers and of consumers. -/
def Status.plays (producer : Prop) : Status α → Prop
  | .addBlocked _ | .addWoken _ => producer
  | .removeBlocked | .removeWoken => ¬ producer
  | .idle | .changed _ => True

/-! ### How long until a message moves -/

section Potential

variable [Fintype τ]

/-- The weight of all threads. -/
def State.potential (s : State τ α) : Nat := ∑ t, (s.status t).weight (Fintype.card τ)

/-- A thread changes its status. -/
theorem weight_update (f : τ → Status α) (t : τ) (st : Status α) (n : Nat) :
    (∑ u, (Function.update f t st u).weight n) + (f t).weight n
      = (∑ u, (f u).weight n) + st.weight n :=
  sum_update (fun st ↦ st.weight n) (Finset.mem_univ t) f st

theorem tryAdd_potential (s : State τ α) (t : τ) (msg : α)
    (ht : 1 ≤ (s.status t).weight (Fintype.card τ)) :
    (s.tryAdd t msg).potential + 1 + (Fintype.card τ + 2) * s.moves
      ≤ s.potential + (Fintype.card τ + 2) * (s.tryAdd t msg).moves := by
  unfold State.tryAdd State.potential State.moves
  split
  · have hsum := weight_update s.status t (.changed none) (Fintype.card τ)
    simp only [Multiset.card_cons, weight_changed] at hsum ⊢
    rw [Nat.add_right_comm s.added.card, Nat.mul_succ]
    omega
  · have hsum := weight_update s.status t (.addBlocked msg) (Fintype.card τ)
    rw [weight_addBlocked] at hsum
    simp only at hsum ⊢
    omega

theorem tryRemove_potential (s : State τ α) (t : τ)
    (ht : 1 ≤ (s.status t).weight (Fintype.card τ)) :
    (s.tryRemove t).potential + 1 + (Fintype.card τ + 2) * s.moves
      ≤ s.potential + (Fintype.card τ + 2) * (s.tryRemove t).moves := by
  unfold State.tryRemove State.potential State.moves
  split
  · next back _ =>
    have hsum := weight_update s.status t (.changed (some back)) (Fintype.card τ)
    simp only [Multiset.card_cons, weight_changed] at hsum ⊢
    rw [← Nat.add_assoc s.added.card, Nat.mul_succ]
    omega
  · have hsum := weight_update s.status t .removeBlocked (Fintype.card τ)
    rw [weight_removeBlocked] at hsum
    simp only at hsum ⊢
    omega

/-- A `notify_all` costs a change what it gives those it wakes. -/
theorem notifyAll_potential (f : τ → Status α) (t : τ) {back : Option α}
    (ht : f t = .changed back) :
    (∑ u, (if u = t then Status.idle else (f u).wake).weight (Fintype.card τ)) + 1
      ≤ ∑ u, (f u).weight (Fintype.card τ) := by
  have hwake : ∑ u ∈ Finset.univ.erase t,
        (if u = t then Status.idle else (f u).wake).weight (Fintype.card τ)
      ≤ ∑ u ∈ Finset.univ.erase t, ((f u).weight (Fintype.card τ) + 1) := by
    apply Finset.sum_le_sum
    intro u hu
    rw [if_neg (Finset.ne_of_mem_erase hu)]
    exact weight_wake _ _
  have hcard : (Finset.univ.erase t).card = Fintype.card τ - 1 := by
    rw [Finset.card_erase_of_mem (Finset.mem_univ t), Finset.card_univ]
  have hpos : 0 < Fintype.card τ := Fintype.card_pos_iff.mpr ⟨t⟩
  rw [Finset.sum_add_distrib, Finset.sum_const, hcard, Nat.smul_one_eq_cast, Nat.cast_id] at hwake
  rw [← Finset.add_sum_erase _ _ (Finset.mem_univ t), ← Finset.add_sum_erase _ (fun u ↦
    (f u).weight (Fintype.card τ)) (Finset.mem_univ t), if_pos rfl, ht, weight_idle,
    weight_changed]
  omega

/-- A step lowers the potential, unless it moves a message or is spurious. -/
theorem step_potential {act : Act τ α} (h : step s act = some s') :
    s'.potential + 1 + (Fintype.card τ + 2) * s.moves
      ≤ s.potential + (Fintype.card τ + 2) * s'.moves + if act.isSpurious then 2 else 0 := by
  cases act with
  | add t msg =>
    simp only [step] at h
    split at h
    · next hst =>
      cases h
      apply tryAdd_potential
      rw [hst]
      exact Nat.le_succ 1
    · cases h
  | remove t =>
    simp only [step] at h
    split at h
    · next hst =>
      cases h
      apply tryRemove_potential
      rw [hst]
      exact Nat.le_succ 1
    · cases h
  | resume t =>
    simp only [step] at h
    split at h
    · next hst =>
      cases h
      apply tryAdd_potential
      rw [hst]
      exact Nat.le_refl 1
    · next hst =>
      cases h
      apply tryRemove_potential
      rw [hst]
      exact Nat.le_refl 1
    · cases h
  | spurious t =>
    cases h
    have hsum := weight_update s.status t (s.status t).wake (Fintype.card τ)
    have hle := weight_wake (Fintype.card τ) (s.status t)
    simp only [State.potential, State.moves, Act.isSpurious, if_true]
    omega
  | notifyAll t =>
    simp only [step] at h
    split at h
    · next back hst =>
      cases h
      have hle := notifyAll_potential s.status t hst
      simp only [State.potential, State.moves]
      omega
    · cases h

theorem run_potential {acts : List (Act τ α)} (h : run s acts = some s') :
    s'.potential + acts.length + (Fintype.card τ + 2) * s.moves
      ≤ s.potential + (Fintype.card τ + 2) * s'.moves + 2 * acts.countP Act.isSpurious := by
  induction acts generalizing s with
  | nil =>
    rw [run, List.foldlM_nil] at h
    cases h
    exact Nat.le_refl _
  | cons act acts ih =>
    rw [run, List.foldlM_cons] at h
    cases hstep : step s act with
    | none =>
      rw [hstep] at h
      cases h
    | some s₁ =>
      rw [hstep] at h
      have hrest := ih h
      have hfirst := step_potential hstep
      rw [List.length_cons, List.countP_cons]
      split at hfirst
      · next hsp =>
        rw [if_pos hsp]
        omega
      · next hsp =>
        rw [if_neg hsp]
        omega

end Potential

/-! ### A next step -/

/-- Each thread keeps to its role. -/
def State.plays (producer : τ → Prop) (s : State τ α) : Prop :=
  ∀ t, (s.status t).plays (producer t)

theorem Status.plays.wake {producer : Prop} {st : Status α} (h : st.plays producer) :
    st.wake.plays producer := by
  cases st <;> exact h

variable {producer : τ → Prop}

theorem State.plays.update (h : s.plays producer) {t : τ} {st : Status α}
    (hst : st.plays (producer t)) (u : τ) :
    (Function.update s.status t st u).plays (producer u) := by
  by_cases hut : u = t
  · subst hut
    rwa [Function.update_self]
  · rw [Function.update_of_ne hut]
    exact h u

theorem State.plays.tryAdd (h : s.plays producer) {t : τ} (ht : producer t) (msg : α) :
    (s.tryAdd t msg).plays producer := by
  unfold State.tryAdd
  split
  · exact h.update (show (Status.changed none : Status α).plays (producer t) from trivial)
  · exact h.update (show (Status.addBlocked msg : Status α).plays (producer t) from ht)

theorem State.plays.tryRemove (h : s.plays producer) {t : τ} (ht : ¬ producer t) :
    (s.tryRemove t).plays producer := by
  unfold State.tryRemove
  split
  · next back _ =>
    exact h.update (show (Status.changed (some back)).plays (producer t) from trivial)
  · exact h.update (show (Status.removeBlocked : Status α).plays (producer t) from ht)

theorem State.plays.step (h : s.plays producer) {act : Act τ α} (hact : act.plays producer)
    (hs : step s act = some s') : s'.plays producer := by
  cases act with
  | add t msg =>
    simp only [Buffer.step] at hs
    split at hs
    · cases hs
      exact h.tryAdd hact msg
    · cases hs
  | remove t =>
    simp only [Buffer.step] at hs
    split at hs
    · cases hs
      exact h.tryRemove hact
    · cases hs
  | resume t =>
    simp only [Buffer.step] at hs
    split at hs
    · next hst =>
      cases hs
      have ht := h t
      rw [hst] at ht
      exact h.tryAdd ht _
    · next hst =>
      cases hs
      have ht := h t
      rw [hst] at ht
      exact h.tryRemove ht
    · cases hs
  | spurious t =>
    cases hs
    exact h.update (h t).wake
  | notifyAll t =>
    simp only [Buffer.step] at hs
    split at hs
    · cases hs
      intro u
      show (if u = t then Status.idle else (s.status u).wake).plays (producer u)
      split
      · exact trivial
      · exact (h u).wake
    · cases hs

theorem State.plays.run (h : s.plays producer) {acts : List (Act τ α)}
    (hacts : ∀ act ∈ acts, act.plays producer) (hs : run s acts = some s') :
    s'.plays producer := by
  induction acts generalizing s with
  | nil =>
    rw [Buffer.run, List.foldlM_nil] at hs
    cases hs
    exact h
  | cons act acts ih =>
    rw [Buffer.run, List.foldlM_cons] at hs
    cases hstep : Buffer.step s act with
    | none =>
      rw [hstep] at hs
      cases hs
    | some s₁ =>
      rw [hstep] at hs
      exact ih (h.step (hacts act List.mem_cons_self) hstep)
        (fun act' h' ↦ hacts act' (List.mem_cons_of_mem _ h')) hs

/-- A thread that is not blocked has a step of its own. -/
theorem exists_step (s : State τ α) (msg : α) (t : τ) (hadd : ∀ m, s.status t ≠ .addBlocked m)
    (hremove : s.status t ≠ .removeBlocked) :
    ∃ act, act.plays producer ∧ act.isSpurious = false ∧ (step s act).isSome := by
  cases hst : s.status t with
  | idle =>
    by_cases ht : producer t
    · exact ⟨.add t msg, ht, rfl, by simp only [step, hst, Option.isSome_some]⟩
    · exact ⟨.remove t, ht, rfl, by simp only [step, hst, Option.isSome_some]⟩
  | addBlocked m => exact absurd hst (hadd m)
  | addWoken m => exact ⟨.resume t, trivial, rfl, by simp only [step, hst, Option.isSome_some]⟩
  | removeBlocked => exact absurd hst hremove
  | removeWoken => exact ⟨.resume t, trivial, rfl, by simp only [step, hst, Option.isSome_some]⟩
  | changed back => exact ⟨.notifyAll t, trivial, rfl, by simp only [step, hst, Option.isSome_some]⟩

/-- Producers and consumers are not all blocked: the former would wait for a full buffer to
empty, the latter for an empty one to fill. -/
theorem Safe.exists_step (h : Safe s) (hplays : s.plays producer) {p c : τ} (hp : producer p)
    (hc : ¬ producer c) (msg : α) :
    ∃ act, act.plays producer ∧ act.isSpurious = false ∧ (Buffer.step s act).isSome := by
  by_contra hnone
  have hblocked : ∀ t, (∃ m, s.status t = .addBlocked m) ∨ s.status t = .removeBlocked := by
    intro t
    by_contra ht
    rw [not_or, not_exists] at ht
    exact hnone (Buffer.exists_step s msg t ht.1 ht.2)
  have hpending : ¬ s.pending := by
    rintro ⟨t, back, ht⟩
    rcases hblocked t with ⟨m, hm⟩ | hm
    · cases ht.symm.trans hm
    · cases ht.symm.trans hm
  have hp' := hplays p
  have hc' := hplays c
  rcases hblocked p with ⟨m, hm⟩ | hm
  · rcases hblocked c with ⟨m', hm'⟩ | hm'
    · rw [hm'] at hc'
      exact hc hc'
    · have hempty : s.buffer_ = [] := by
        by_contra hne
        exact hpending (h.remove_blocked c hm' hne)
      apply hpending
      apply h.add_blocked p m hm
      rw [hempty]
      exact Nat.zero_lt_succ 9
  · rw [hm] at hp'
    exact hp' hp

/-- With a producer and a consumer among `n` threads the system never comes to rest, and it is
never busy for nothing: two steps a thread and `n + 2` steps a message are all it takes, and two
more for a spurious wake-up. -/
theorem progress_run [Fintype τ] {acts : List (Act τ α)} (h : run State.init acts = some s) :
    acts.length ≤ 2 * Fintype.card τ + (Fintype.card τ + 2) * (s.added.card + s.removed.card)
        + 2 * acts.countP Act.isSpurious ∧
      ∀ producer : τ → Prop, (∀ act ∈ acts, act.plays producer) → (∃ p, producer p) →
        (∃ c, ¬ producer c) → ∀ _msg : α,
          ∃ act, act.plays producer ∧ act.isSpurious = false ∧ (step s act).isSome := by
  constructor
  · have hrun := run_potential h
    have hinit : (State.init : State τ α).potential = 2 * Fintype.card τ := by
      simp only [State.potential, State.init, weight_idle, Finset.sum_const, Finset.card_univ,
        smul_eq_mul]
      exact Nat.mul_comm _ _
    have hzero : (State.init : State τ α).moves = 0 := rfl
    rw [hinit, hzero, State.moves] at hrun
    omega
  · rintro producer hacts ⟨p, hp⟩ ⟨c, hc⟩ msg
    have hplays : (State.init : State τ α).plays producer := fun _ ↦ trivial
    exact (Safe.init.run h).exists_step (hplays.run hacts h) hp hc msg

/-- One producer and one consumer, which blocks before it is notified. -/
theorem progress_run_two : ∃ s : State Bool Nat,
    run State.init [.remove false, .add true 7, .notifyAll true, .resume false] = some s ∧
      s.removed.card = 1 ∧
      ∃ act, act.plays (· = true) ∧ act.isSpurious = false ∧ (step s act).isSome := by
  obtain ⟨s, hs⟩ := Option.isSome_iff_exists.mp
    (show (run (State.init : State Bool Nat)
      [.remove false, .add true 7, .notifyAll true, .resume false]).isSome from rfl)
  have hstep := (progress_run hs).2 (· = true) (by simp [Act.plays]) ⟨true, rfl⟩
    ⟨false, Bool.false_ne_true⟩ 0
  cases hs
  exact ⟨_, rfl, rfl, hstep⟩

end Jeopardy.ProducerConsumer.Buffer
