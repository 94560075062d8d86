import Mathlib

/-!
# The averaging agents

Model of `producer_agent` and `consumer_agent` in
`producer_consumer/producer-consumer-average.cpp`. The agents share an unbounded buffer, which
delivers messages in the order they were sent. A `send` or a `receive`, with what the agent does
until its next one, is one step; the agents' steps come in any order.
-/

namespace Jeopardy.ProducerConsumer.Average

/-- What C++ leaves undefined: an `int` result that does not fit, a division by zero. -/
inductive Undefined where
  | overflow
  | divideByZero
deriving DecidableEq, Repr

/-- A number that an `int` can hold. -/
def Fits (x : Int) : Prop := -2 ^ 31 ≤ x ∧ x < 2 ^ 31

instance (x : Int) : Decidable (Fits x) := inferInstanceAs (Decidable (_ ∧ _))

/-- An arithmetic result as an `int`. -/
def int (x : Int) : Except Undefined Int := if Fits x then .ok x else .error .overflow

/-- `a / b` on `int`s. -/
def intDiv (a b : Int) : Except Undefined Int :=
  if b = 0 then .error .divideByZero else int (a.tdiv b)

/-- `producer_agent`: the values it has yet to send, and whether it has called `done`. -/
structure ProducerAgent where
  _count : BitVec 32
  done : Bool
deriving DecidableEq

/-- `consumer_agent` with the variables of `run`; `_average` is assigned at most once. -/
structure ConsumerAgent where
  sum : Int
  count : Int
  _average : Option Int
  done : Bool
deriving DecidableEq

/-- The agents and their buffer. -/
structure State where
  producer : ProducerAgent
  consumer : ConsumerAgent
  buffer : List Int
deriving DecidableEq

/-- The agents as `wmain` creates them, `producer_consumer/producer-consumer-average.cpp:98–102`. -/
def start (count : BitVec 32) : State := ⟨⟨count, false⟩, ⟨0, 0, none, false⟩, []⟩

/-- The next message of `producer_agent::run`,
`producer_consumer/producer-consumer-average.cpp:20–33`. -/
def ProducerAgent.step (sentinel : Int) (p : ProducerAgent) : Option (Int × ProducerAgent) :=
  if p.done then none
  else if 0 < p._count then some (p._count.toInt, { p with _count := p._count - 1 })
  else some (sentinel, { p with done := true })

/-- What `consumer_agent::run` does with a message,
`producer_consumer/producer-consumer-average.cpp:59–80`. -/
def ConsumerAgent.step (sentinel : Int) (c : ConsumerAgent) (n : Int) :
    Except Undefined ConsumerAgent :=
  if n = sentinel then do
    let average ← intDiv c.sum c.count
    return { c with _average := some average, done := true }
  else do
    let sum ← int (c.sum + n)
    let count ← int (c.count + 1)
    return { c with sum := sum, count := count }

/-- Whose turn it is. -/
inductive Agent where
  | producer
  | consumer
deriving DecidableEq

/-- One step of an agent, if it has one: `receive` blocks on an empty buffer. -/
def step (sentinel : Int) (s : State) : Agent → Option (Except Undefined State)
  | .producer =>
    (s.producer.step sentinel).map fun (n, p) ↦
      .ok { s with producer := p, buffer := s.buffer ++ [n] }
  | .consumer =>
    match s.consumer.done, s.buffer with
    | false, n :: rest =>
      some ((s.consumer.step sentinel n).map fun c ↦ { s with consumer := c, buffer := rest })
    | _, _ => none

/-- The agents take turns as `sched` has it, until the behaviour is undefined. -/
def run (sentinel : Int) : State → List Agent → Option (Except Undefined State)
  | s, [] => some (.ok s)
  | s, a :: sched =>
    match step sentinel s a with
    | none => none
    | some (.error u) => some (.error u)
    | some (.ok s') => run sentinel s' sched

/-! ### What the agents compute -/

/-- The values `producer_agent` sends when `_count` is `n`. -/
def countdown : Nat → List Int
  | 0 => []
  | n + 1 => (BitVec.ofNat 32 (n + 1)).toInt :: countdown n

/-- The messages of the producer. -/
def messages (sentinel : Int) (count : BitVec 32) : List Int := countdown count.toNat ++ [sentinel]

/-- The values before the first sentinel. -/
def values (sentinel : Int) (count : BitVec 32) : List Int :=
  (messages sentinel count).takeWhile (· ≠ sentinel)

/-- The messages after the first sentinel, which nobody reads. -/
def leftover (sentinel : Int) (count : BitVec 32) : List Int :=
  ((messages sentinel count).dropWhile (· ≠ sentinel)).tail

/-- Each sum of the first of the values fits into an `int`, and so does their number. -/
def InRange (sum count : Int) (vs : List Int) : Prop :=
  ∀ k ≤ vs.length, Fits (sum + (vs.take k).sum) ∧ Fits (count + k)

instance (sum count : Int) (vs : List Int) : Decidable (InRange sum count vs) :=
  inferInstanceAs (Decidable (∀ k ≤ _, _))

/-- The average of the values, rounded toward zero, if `int`s are enough to compute it and there
are any values. -/
def average (vs : List Int) : Except Undefined Int :=
  if InRange 0 0 vs then
    if vs = [] then .error .divideByZero else .ok (vs.sum.tdiv vs.length)
  else .error .overflow

/-- What the producer will still send. -/
def ProducerAgent.toSend (sentinel : Int) (p : ProducerAgent) : List Int :=
  if p.done then [] else countdown p._count.toNat ++ [sentinel]

/-- The consumer on a stream of messages, with what it leaves of the stream. -/
def ConsumerAgent.consume (sentinel : Int) (c : ConsumerAgent) :
    List Int → Except Undefined (ConsumerAgent × List Int)
  | [] => .ok (c, [])
  | n :: ns =>
    if c.done then .ok (c, n :: ns)
    else do
      let c ← c.step sentinel n
      c.consume sentinel ns

/-- What the consumer comes to if it gets all that is in the buffer or still sent. -/
def State.outcome (sentinel : Int) (s : State) : Except Undefined (ConsumerAgent × List Int) :=
  s.consumer.consume sentinel (s.buffer ++ s.producer.toSend sentinel)

/-! ### The consumer on a whole stream -/

variable {sentinel : Int} {count : BitVec 32} {c : ConsumerAgent} {s s' : State}

theorem consume_done (hc : c.done = true) (ns : List Int) :
    c.consume sentinel ns = .ok (c, ns) := by
  cases ns with
  | nil => rfl
  | cons n ns => rw [ConsumerAgent.consume, if_pos hc]

theorem consume_cons (hc : c.done = false) (n : Int) (ns : List Int) :
    c.consume sentinel (n :: ns)
      = c.step sentinel n >>= fun c' ↦ c'.consume sentinel ns := by
  rw [ConsumerAgent.consume, if_neg (by rw [hc]; exact Bool.false_ne_true)]

theorem int_eq_ok {x : Int} (h : Fits x) : int x = .ok x := if_pos h

theorem int_eq_error {x : Int} (h : ¬ Fits x) : int x = .error .overflow := if_neg h

theorem inRange_nil {sum count : Int} : InRange sum count [] ↔ Fits sum ∧ Fits count := by
  constructor
  · intro h
    simpa using h 0 (Nat.zero_le _)
  · intro h k hk
    rw [Nat.le_zero.mp hk]
    simpa using h

theorem inRange_cons {sum count n : Int} {vs : List Int} :
    InRange sum count (n :: vs)
      ↔ (Fits sum ∧ Fits count) ∧ InRange (sum + n) (count + 1) vs := by
  constructor
  · intro h
    constructor
    · simpa using h 0 (Nat.zero_le _)
    · intro k hk
      have hk' := h (k + 1) (Nat.succ_le_succ hk)
      rw [List.take_succ_cons, List.sum_cons, Nat.cast_succ] at hk'
      rwa [Int.add_assoc, Int.add_assoc, Int.add_comm 1]
  · rintro ⟨h0, h⟩ k hk
    cases k with
    | zero => simpa using h0
    | succ k =>
      have hk' := h k (Nat.le_of_succ_le_succ hk)
      rw [List.take_succ_cons, List.sum_cons, Nat.cast_succ]
      rwa [Int.add_assoc, Int.add_assoc, Int.add_comm 1] at hk'

/-- The first sum is in range. -/
theorem InRange.head {sum count : Int} {vs : List Int} (h : InRange sum count vs) :
    Fits sum ∧ Fits count := by
  simpa using h 0 (Nat.zero_le _)

/-- The consumer takes the values up to the sentinel, and leaves what follows it. -/
theorem consume_eq {vs : List Int} (hvs : sentinel ∉ vs) (rest : List Int) (hc : c.done = false)
    (hr : InRange c.sum c.count vs) :
    c.consume sentinel (vs ++ sentinel :: rest)
      = (intDiv (c.sum + vs.sum) (c.count + vs.length)).map fun v ↦
          (⟨c.sum + vs.sum, c.count + vs.length, some v, true⟩, rest) := by
  induction vs generalizing c with
  | nil =>
    rw [List.nil_append, consume_cons hc, ConsumerAgent.step, if_pos rfl, List.sum_nil,
      List.length_nil, Nat.cast_zero, Int.add_zero, Int.add_zero]
    cases intDiv c.sum c.count with
    | error u => rfl
    | ok v => exact consume_done rfl rest
  | cons n vs ih =>
    rw [List.mem_cons, not_or] at hvs
    have hr' := (inRange_cons.mp hr).2
    rw [List.cons_append, consume_cons hc, ConsumerAgent.step, if_neg (Ne.symm hvs.1),
      int_eq_ok hr'.head.1, int_eq_ok hr'.head.2]
    show ConsumerAgent.consume sentinel { c with sum := c.sum + n, count := c.count + 1 } _ = _
    rw [ih (c := { c with sum := c.sum + n, count := c.count + 1 }) hvs.2 hc hr', List.sum_cons,
      List.length_cons, Nat.cast_succ, Int.add_assoc,
      Int.add_assoc, Int.add_comm 1]

/-- The consumer overflows on values that are not in range. -/
theorem consume_overflow {vs : List Int} (hvs : sentinel ∉ vs) (rest : List Int)
    (hc : c.done = false) (h0 : Fits c.sum ∧ Fits c.count) (hr : ¬ InRange c.sum c.count vs) :
    c.consume sentinel (vs ++ sentinel :: rest) = .error .overflow := by
  induction vs generalizing c with
  | nil => exact absurd (inRange_nil.mpr h0) hr
  | cons n vs ih =>
    rw [List.mem_cons, not_or] at hvs
    have hr' : ¬ InRange (c.sum + n) (c.count + 1) vs :=
      fun h ↦ hr (inRange_cons.mpr ⟨h0, h⟩)
    rw [List.cons_append, consume_cons hc, ConsumerAgent.step, if_neg (Ne.symm hvs.1)]
    by_cases hsum : Fits (c.sum + n)
    · rw [int_eq_ok hsum]
      by_cases hcount : Fits (c.count + 1)
      · rw [int_eq_ok hcount]
        exact ih (c := { c with sum := c.sum + n, count := c.count + 1 }) hvs.2 hc
          ⟨hsum, hcount⟩ hr'
      · rw [int_eq_error hcount]
        rfl
    · rw [int_eq_error hsum]
      rfl

/-- A division by a length fits. -/
theorem fits_tdiv {a : Int} (h : Fits a) (n : Nat) : Fits (a.tdiv n) := by
  unfold Fits at *
  rcases Int.le_total 0 a with ha | ha
  · have hle : a.tdiv n ≤ a := by
      rw [Int.tdiv_eq_ediv_of_nonneg ha]
      exact Int.ediv_le_self _ ha
    have hnn : 0 ≤ a.tdiv n := Int.tdiv_nonneg ha (Int.natCast_nonneg n)
    omega
  · have hle : (-a).tdiv n ≤ -a := by
      rw [Int.tdiv_eq_ediv_of_nonneg (by omega)]
      exact Int.ediv_le_self _ (by omega)
    have hnn : 0 ≤ (-a).tdiv n := Int.tdiv_nonneg (by omega) (Int.natCast_nonneg n)
    rw [Int.neg_tdiv] at hle hnn
    omega

theorem sentinel_notMem_values (sentinel : Int) (count : BitVec 32) :
    sentinel ∉ values sentinel count := by
  intro h
  simpa using List.mem_takeWhile_imp h

/-- The messages are the values, a sentinel, and the leftover. -/
theorem messages_eq (sentinel : Int) (count : BitVec 32) :
    messages sentinel count = values sentinel count ++ sentinel :: leftover sentinel count := by
  have hsplit := List.takeWhile_append_dropWhile (p := (· ≠ sentinel))
    (l := messages sentinel count)
  cases hd : (messages sentinel count).dropWhile (· ≠ sentinel) with
  | nil =>
    rw [hd, List.append_nil] at hsplit
    refine absurd ?_ (sentinel_notMem_values sentinel count)
    rw [values, hsplit]
    exact List.mem_append_right _ (List.mem_singleton_self _)
  | cons x rest =>
    have hx : x = sentinel := by
      have hhead := List.head?_dropWhile_not (· ≠ sentinel) (messages sentinel count)
      rw [hd] at hhead
      simpa using hhead
    rw [leftover, hd, ← hx, List.tail_cons, ← hd]
    subst hx
    exact hsplit.symm

/-- The division of values that are in range. -/
theorem intDiv_eq {vs : List Int} (h : InRange 0 0 vs) :
    intDiv vs.sum vs.length = average vs := by
  rw [intDiv, average, if_pos h]
  cases vs with
  | nil => rfl
  | cons v vs =>
    have hfits := (h _ le_rfl).1
    rw [List.take_length, Int.zero_add] at hfits
    rw [if_neg (by simp; omega), if_neg (List.cons_ne_nil v vs), int_eq_ok (fits_tdiv hfits _)]

/-- What the agents come to from the start. -/
theorem outcome_start (sentinel : Int) (count : BitVec 32) :
    (start count).outcome sentinel
      = (average (values sentinel count)).map fun v ↦
          (⟨(values sentinel count).sum, (values sentinel count).length, some v, true⟩,
            leftover sentinel count) := by
  have hvs := sentinel_notMem_values sentinel count
  have hstart : (start count).outcome sentinel = (start count).consumer.consume sentinel
      (values sentinel count ++ sentinel :: leftover sentinel count) := by
    rw [← messages_eq]
    rfl
  have hzero : Fits 0 ∧ Fits 0 := by decide
  rw [hstart]
  by_cases hr : InRange 0 0 (values sentinel count)
  · rw [← intDiv_eq hr, consume_eq hvs _ rfl hr]
    simp only [start, Int.zero_add]
  · rw [consume_overflow hvs _ rfl hzero hr, average, if_neg hr]
    rfl

/-! ### Steps and schedules -/

/-- The agent sends what it had yet to send. -/
theorem toSend_step {p p' : ProducerAgent} {n : Int} (h : p.step sentinel = some (n, p')) :
    p.toSend sentinel = n :: p'.toSend sentinel := by
  unfold ProducerAgent.step at h
  split at h
  · cases h
  · next hdone =>
    split at h
    · next hpos =>
      cases h
      have hval : BitVec.ofNat 32 ((p._count - 1).toNat + 1) = p._count := by bv_omega
      have hsucc : p._count.toNat = (p._count - 1).toNat + 1 := by bv_omega
      unfold ProducerAgent.toSend
      rw [if_neg hdone, if_neg hdone, hsucc, countdown, hval, List.cons_append]
    · next hzero =>
      cases h
      have hcount : p._count.toNat = 0 := by bv_omega
      unfold ProducerAgent.toSend
      rw [if_neg hdone, if_pos rfl, hcount, countdown, List.nil_append]

theorem toSend_done {p : ProducerAgent} (h : p.step sentinel = none) :
    p.done = true ∧ p.toSend sentinel = [] := by
  have hdone : p.done = true := by
    unfold ProducerAgent.step at h
    split at h
    · next hdone => exact hdone
    · split at h <;> cases h
  exact ⟨hdone, if_pos hdone⟩

/-- Inversion of a step. -/
theorem step_cases {a : Agent} {r : Except Undefined State} (h : step sentinel s a = some r) :
    (∃ n p, s.producer.step sentinel = some (n, p) ∧
        r = .ok { s with producer := p, buffer := s.buffer ++ [n] }) ∨
      ∃ n rest, s.consumer.done = false ∧ s.buffer = n :: rest ∧
        r = (s.consumer.step sentinel n).map fun c ↦ { s with consumer := c, buffer := rest } := by
  cases a with
  | producer =>
    left
    obtain ⟨⟨n, p⟩, hp, hr⟩ := Option.map_eq_some_iff.mp h
    exact ⟨n, p, hp, hr.symm⟩
  | consumer =>
    right
    simp only [step] at h
    split at h
    · next n rest hdone hbuf =>
      cases h
      exact ⟨n, rest, hdone, hbuf, rfl⟩
    · cases h

/-- A step changes nothing about what the agents come to. -/
theorem outcome_step {a : Agent} {r : Except Undefined State} (h : step sentinel s a = some r) :
    s.outcome sentinel = r >>= (·.outcome sentinel) := by
  unfold State.outcome
  rcases step_cases h with ⟨n, p, hp, rfl⟩ | ⟨n, rest, hdone, hbuf, rfl⟩
  · rw [toSend_step hp, List.append_cons]
    rfl
  · rw [hbuf, List.cons_append, consume_cons hdone]
    cases s.consumer.step sentinel n with
    | error u => rfl
    | ok c => rfl

/-- The steps that are left: a message is sent and received once. -/
def State.work (sentinel : Int) (s : State) : Nat :=
  (s.producer.toSend sentinel).length +
    if s.consumer.done then 0 else (s.buffer ++ s.producer.toSend sentinel).length

theorem work_step {a : Agent} (h : step sentinel s a = some (.ok s')) :
    s'.work sentinel < s.work sentinel := by
  unfold State.work
  rcases step_cases h with ⟨n, p, hp, hr⟩ | ⟨n, rest, hdone, hbuf, hr⟩
  · cases hr
    rw [toSend_step hp]
    simp only [List.length_append, List.length_cons, List.length_nil]
    split
    · omega
    · omega
  · cases hc : s.consumer.step sentinel n with
    | error u =>
      rw [hc] at hr
      cases hr
    | ok c =>
      rw [hc] at hr
      cases hr
      rw [hdone, hbuf, if_neg Bool.false_ne_true]
      simp only [List.length_append, List.length_cons]
      split
      · omega
      · omega

/-- No schedule changes what the agents come to, and each step is a step of their work. -/
theorem run_outcome {sched : List Agent} {r : Except Undefined State}
    (h : run sentinel s sched = some r) :
    s.outcome sentinel = r >>= (·.outcome sentinel) ∧
      ∀ s', r = .ok s' → sched.length + s'.work sentinel ≤ s.work sentinel := by
  induction sched generalizing s with
  | nil =>
    cases h
    constructor
    · rfl
    · intro s' hs'
      cases hs'
      rw [List.length_nil, Nat.zero_add]
  | cons a sched ih =>
    unfold run at h
    cases hstep : step sentinel s a with
    | none =>
      rw [hstep] at h
      cases h
    | some r₁ =>
      rw [hstep] at h
      cases r₁ with
      | error u =>
        cases h
        exact ⟨outcome_step hstep, fun s' hs' ↦ nomatch hs'⟩
      | ok s₁ =>
        obtain ⟨hout, hwork⟩ := ih h
        constructor
        · rw [outcome_step hstep, ← hout]
          rfl
        · intro s' hs'
          have hle := hwork s' hs'
          have hlt := work_step hstep
          rw [List.length_cons]
          omega

/-- Agents that cannot step have come to their outcome. -/
theorem outcome_at_rest (h : ∀ a, step sentinel s a = none) :
    s.producer.done = true ∧ s.outcome sentinel = .ok (s.consumer, s.buffer) := by
  obtain ⟨hdone, hsend⟩ := toSend_done (Option.map_eq_none_iff.mp (h .producer))
  refine ⟨hdone, ?_⟩
  rw [State.outcome, hsend, List.append_nil]
  cases hc : s.consumer.done with
  | true => exact consume_done hc _
  | false =>
    cases hb : s.buffer with
    | nil => rfl
    | cons n rest =>
      have hnone := h .consumer
      simp only [step, hc, hb] at hnone
      cases hnone

theorem countdown_length (n : Nat) : (countdown n).length = n := by
  induction n with
  | zero => rfl
  | succ n ih => rw [countdown, List.length_cons, ih]

/-- A schedule that ends in undefined behaviour: the average is undefined in the same way. -/
theorem run_error {sched : List Agent} {u : Undefined}
    (h : run sentinel (start count) sched = some (.error u)) :
    average (values sentinel count) = .error u := by
  have hout := (run_outcome h).1
  rw [outcome_start] at hout
  cases hv : average (values sentinel count) with
  | error u' =>
    rw [hv] at hout
    cases hout
    rfl
  | ok v =>
    rw [hv] at hout
    cases hout

/-- A schedule after which no agent can step: both have finished. -/
theorem run_at_rest {sched : List Agent} (h : run sentinel (start count) sched = some (.ok s))
    (hrest : ∀ a, step sentinel s a = none) :
    s.producer.done ∧ s.consumer.done ∧
      (∃ v, s.consumer._average = some v ∧ average (values sentinel count) = .ok v) ∧
      s.buffer = leftover sentinel count := by
  have hout := (run_outcome h).1
  obtain ⟨hdone, hend⟩ := outcome_at_rest hrest
  change _ = s.outcome sentinel at hout
  rw [outcome_start, hend] at hout
  cases hv : average (values sentinel count) with
  | error u =>
    rw [hv] at hout
    cases hout
  | ok v =>
    rw [hv] at hout
    obtain ⟨hc, hb⟩ := Prod.mk.inj (Except.ok.inj hout)
    rw [← hc, ← hb]
    exact ⟨hdone, rfl, ⟨v, rfl, rfl⟩, rfl⟩

theorem work_start : (start count).work sentinel = 2 * (count.toNat + 1) := by
  simp only [State.work, start, ProducerAgent.toSend, Bool.false_eq_true, if_false,
    List.nil_append, List.length_append, countdown_length, List.length_singleton]
  omega

/-- Whatever the schedule, the agents take at most two steps for each message. They stop only
when both are finished, the average is that of the values before the first sentinel, and the buffer
holds the messages after it; or else the average is undefined, and in the same way. -/
theorem agents_run {sched : List Agent} {r : Except Undefined State}
    (h : run sentinel (start count) sched = some r) :
    (∀ u, r = .error u → average (values sentinel count) = .error u) ∧
      ∀ s, r = .ok s → sched.length ≤ 2 * (count.toNat + 1) ∧
        ((∀ a, step sentinel s a = none) → s.producer.done ∧ s.consumer.done ∧
          (∃ v, s.consumer._average = some v ∧ average (values sentinel count) = .ok v) ∧
          s.buffer = leftover sentinel count) := by
  constructor
  · rintro u rfl
    exact run_error h
  · rintro s rfl
    constructor
    · have hle := (run_outcome h).2 s rfl
      rw [work_start] at hle
      omega
    · exact run_at_rest h

/-- The sentinel is among the values: the consumer stops at it, and two messages stay. -/
theorem agents_run_early : ∃ s : State,
    run 1 (start 2) [.producer, .consumer, .producer, .producer, .consumer] = some (.ok s) ∧
      s.consumer._average = some 2 ∧ s.buffer = leftover 1 2 ∧ leftover 1 2 = [1] := by
  have hrun : run 1 (start 2) [.producer, .consumer, .producer, .producer, .consumer]
      = some (.ok ⟨⟨0, true⟩, ⟨2, 1, some 2, true⟩, [1]⟩) := by decide +kernel
  have hrest := ((agents_run hrun).2 _ rfl).2 (by rintro (_ | _) <;> rfl)
  exact ⟨_, hrun, rfl, hrest.2.2.2, by decide +kernel⟩

/-! ### The sentinel of the program -/

theorem toInt_ofNat {m : Nat} (h : m < 2 ^ 31) : (BitVec.ofNat 32 m).toInt = m := by
  rw [BitVec.toInt_eq_toNat_of_lt] <;> rw [BitVec.toNat_ofNat] <;> omega

/-- `m + … + 1`. -/
theorem countdown_sum {m : Nat} (h : m < 2 ^ 31) :
    2 * (countdown m).sum = (m : Int) * (m + 1) := by
  induction m with
  | zero => rfl
  | succ m ih =>
    rw [countdown, List.sum_cons, Int.mul_add, ih (by omega), toInt_ofNat h]
    push_cast
    ring

theorem countdown_nonneg {m : Nat} (h : m < 2 ^ 31) : ∀ v ∈ countdown m, 0 ≤ v := by
  induction m with
  | zero => simp [countdown]
  | succ m ih =>
    intro v hv
    rw [countdown, List.mem_cons] at hv
    rcases hv with rfl | hv
    · rw [toInt_ofNat h]
      omega
    · exact ih (by omega) v hv

theorem zero_notMem_countdown {n : Nat} (h : n < 2 ^ 32) : 0 ∉ countdown n := by
  induction n with
  | zero => exact List.not_mem_nil
  | succ n ih =>
    rw [countdown, List.mem_cons, not_or]
    constructor
    · intro h0
      have hz : BitVec.ofNat 32 (n + 1) = 0 := BitVec.eq_of_toInt_eq h0.symm
      bv_omega
    · exact ih (by omega)

theorem countdown_drop {m n : Nat} (h : m ≤ n) : (countdown n).drop (n - m) = countdown m := by
  induction n, h using Nat.le_induction with
  | base => rw [Nat.sub_self, List.drop_zero]
  | succ n h ih => rw [Nat.succ_sub h, countdown, List.drop_succ_cons, ih]

/-- Two prefixes of the countdown differ by what is counted down between them. -/
theorem take_sum_add {m n : Nat} (h : m ≤ n) :
    ((countdown n).take (n - m)).sum + (countdown m).sum = (countdown n).sum := by
  rw [← countdown_drop h, ← List.sum_append, List.take_append_drop]

/-- Up to 65535 values are in range. -/
theorem inRange_countdown {n : Nat} (h : n < 65536) : InRange 0 0 (countdown n) := by
  intro k hk
  rw [countdown_length] at hk
  have hnonneg := countdown_nonneg (m := n) (by omega)
  have htake : 0 ≤ ((countdown n).take k).sum :=
    List.sum_nonneg fun v hv ↦ hnonneg v (List.mem_of_mem_take hv)
  have hdrop : 0 ≤ ((countdown n).drop k).sum :=
    List.sum_nonneg fun v hv ↦ hnonneg v (List.mem_of_mem_drop hv)
  have hsplit : ((countdown n).take k).sum + ((countdown n).drop k).sum = (countdown n).sum := by
    rw [← List.sum_append, List.take_append_drop]
  have hsum := countdown_sum (m := n) (by omega)
  have hbound : (n : Int) * (n + 1) ≤ 65535 * 65536 := by
    apply Int.mul_le_mul <;> omega
  unfold Fits
  omega

/-- More values are not: all of them are too much, or else the last 92682 are more than the
difference of any two `int`s. -/
theorem not_inRange_countdown {n : Nat} (h : 65536 ≤ n) : ¬ InRange 0 0 (countdown n) := by
  intro hr
  have hall := (hr _ le_rfl).1
  rw [List.take_length] at hall
  unfold Fits at hall
  by_cases hsmall : n < 92682
  · have hsum := countdown_sum (m := n) (by omega)
    have hbound : 65536 * 65537 ≤ (n : Int) * (n + 1) := by
      apply Int.mul_le_mul <;> omega
    omega
  · have hpart := (hr (n - 92682) (by rw [countdown_length]; omega)).1
    have hadd := take_sum_add (show 92682 ≤ n by omega)
    have hsum := countdown_sum (show 92682 < 2 ^ 31 by decide)
    unfold Fits at hpart
    omega

theorem values_zero (count : BitVec 32) : values 0 count = countdown count.toNat := by
  have hne : ∀ v ∈ countdown count.toNat, decide (v ≠ 0) = true := by
    intro v hv
    rw [decide_eq_true_iff]
    rintro rfl
    exact zero_notMem_countdown count.isLt hv
  rw [values, messages, List.takeWhile_append_of_pos hne, List.takeWhile_cons_of_neg (by simp),
    List.append_nil]

/-- The average of a countdown. -/
theorem average_countdown {n : Nat} (hpos : 0 < n) (h : n < 65536) :
    average (countdown n) = .ok ((n + 1) / 2) := by
  have hne : countdown n ≠ [] := by
    rw [← List.length_pos_iff, countdown_length]
    exact hpos
  have hsum := countdown_sum (m := n) (by omega)
  have hnn : 0 ≤ (countdown n).sum := by
    have := Int.mul_nonneg (Int.natCast_nonneg n) (show 0 ≤ (n : Int) + 1 by omega)
    omega
  -- The quotient is that of `n + 1` by two, whichever of `n` and `n + 1` is even.
  obtain ⟨q, hq | hq⟩ := Int.even_or_odd' ((n : Int) + 1)
  · have hdiv : (countdown n).sum = n * q := by
      rw [hq] at hsum
      linarith
    rw [average, if_pos (inRange_countdown h), if_neg hne, countdown_length,
      Int.tdiv_eq_ediv_of_nonneg hnn, hdiv, Int.mul_ediv_cancel_left q (by omega), hq,
      Int.mul_ediv_cancel_left q (by decide)]
  · have hdiv : (countdown n).sum = q + n * q := by
      rw [hq] at hsum
      have hn : (n : Int) = 2 * q := by omega
      have : (n : Int) * (2 * q + 1) = n * (2 * q) + 2 * q := by rw [Int.mul_add, Int.mul_one, ← hn]
      linarith
    rw [average, if_pos (inRange_countdown h), if_neg hne, countdown_length,
      Int.tdiv_eq_ediv_of_nonneg hnn, hdiv, Int.add_mul_ediv_left _ _ (by omega),
      Int.ediv_eq_zero_of_lt (by omega) (by omega), Int.zero_add, hq]
    congr 1
    omega

theorem leftover_zero (count : BitVec 32) : leftover 0 count = [] := by
  have hsplit := messages_eq 0 count
  rw [values_zero, messages, List.append_cancel_left_eq, List.cons.injEq] at hsplit
  exact hsplit.2.symm

/-- With the sentinel of the program every value is averaged: the agents finish, in whatever order
they take turns, exactly on 1 to 65535 values. No value is a division by zero, and more overflow. -/
theorem average_run {sched : List Agent} {r : Except Undefined State}
    (h : run 0 (start count) sched = some r) :
    (∀ u, r = .error u → count.toNat = 0 ∧ u = .divideByZero ∨
        65536 ≤ count.toNat ∧ u = .overflow) ∧
      ∀ s, r = .ok s → (∀ a, step 0 s a = none) →
        0 < count.toNat ∧ count.toNat < 65536 ∧
          s.consumer._average = some (((count.toNat : Int) + 1) / 2) ∧ s.buffer = [] := by
  have hzero : average (countdown 0) = .error .divideByZero := by decide
  have hmany : 65536 ≤ count.toNat → average (countdown count.toNat) = .error .overflow :=
    fun hle ↦ if_neg (not_inRange_countdown hle)
  constructor
  · rintro u rfl
    have hav := run_error h
    rw [values_zero] at hav
    rcases Nat.eq_zero_or_pos count.toNat with h0 | hpos
    · rw [h0, hzero] at hav
      exact .inl ⟨h0, (Except.error.inj hav).symm⟩
    · rcases Nat.lt_or_ge count.toNat 65536 with hlt | hge
      · rw [average_countdown hpos hlt] at hav
        cases hav
      · rw [hmany hge] at hav
        exact .inr ⟨hge, (Except.error.inj hav).symm⟩
  · rintro s rfl hrest
    obtain ⟨-, -, ⟨v, hv, hav⟩, hbuf⟩ := run_at_rest h hrest
    rw [values_zero] at hav
    rw [leftover_zero] at hbuf
    have hpos : 0 < count.toNat := by
      apply Nat.pos_of_ne_zero
      intro h0
      rw [h0, hzero] at hav
      cases hav
    have hlt : count.toNat < 65536 := by
      apply Nat.lt_of_not_ge
      intro hge
      rw [hmany hge] at hav
      cases hav
    rw [average_countdown hpos hlt] at hav
    refine ⟨hpos, hlt, ?_, hbuf⟩
    rw [hv, ← Except.ok.inj hav]

/-- Three values, each received as soon as it is sent. -/
theorem average_run_three : ∃ s : State,
    run 0 (start 3) [.producer, .consumer, .producer, .consumer, .producer, .consumer, .producer,
        .consumer] = some (.ok s) ∧ s.consumer._average = some 2 := by
  have hrun : run 0 (start 3) [.producer, .consumer, .producer, .consumer, .producer, .consumer,
      .producer, .consumer] = some (.ok ⟨⟨0, true⟩, ⟨6, 3, some 2, true⟩, []⟩) := by decide +kernel
  have hrest := (average_run hrun).2 _ rfl (by rintro (_ | _) <;> rfl)
  exact ⟨_, hrun, hrest.2.2.1⟩

end Jeopardy.ProducerConsumer.Average
