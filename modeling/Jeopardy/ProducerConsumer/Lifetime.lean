import Jeopardy.ProducerConsumer.AcceptLoop

/-!
# The producers of the accept loop

Every round of the loop has a `Producer p` of its own, a variable of the loop's body, and gives the
thread of the round a pointer to it. The thread uses `*p` four times. Nothing but a `join` makes the
round wait, so here the steps of the loop and of the threads interleave.
-/

namespace Jeopardy.ProducerConsumer.Lifetime

open AcceptLoop

/-- Where `main` is: before `accept`, in the body with `p` constructed and some threads still to
join, or gone after `exit` or an exception. -/
inductive Phase where
  | idle
  | body (joins : List Nat)
  | stopped
deriving DecidableEq, Repr

/-- The variables of `main`, and how often each thread still uses its producer. -/
structure Sys where
  server : Server
  uses : List Nat
  phase : Phase
deriving DecidableEq, Repr

/-- A step of `main`, or the next use of `*this` by thread `t`,
`parallel_tcpip/socket_server.cpp:84,91,99,102`. -/
inductive Act where
  | accept (client_socket : Int)
  | join
  | close
  | use (t : Nat)
deriving DecidableEq, Repr

/-- One step. A `join` returns once its thread has ended; `close` is the end of the body, where
`p` is destroyed, `parallel_tcpip/socket_server.cpp:174–201`. -/
def Sys.step (s : Sys) : Act → Option Sys
  | .accept client_socket =>
    if s.phase = .idle then
      if client_socket = -1 then some { s with phase := .stopped }
      else some {
        server := { s.server with threads := s.server.threads ++ [⟨client_socket, true⟩] }
        uses := s.uses ++ [4]
        phase := .body (if 1 ≤ s.server.i then [0, 1] else []) }
    else none
  | .join =>
    match s.phase with
    | .body (j :: js) =>
      match AcceptLoop.join s.server.threads j with
      | .error _ => some { s with phase := .stopped }
      | .ok threads =>
        if s.uses[j]? = some 0 then
          some { s with server := { s.server with threads := threads }, phase := .body js }
        else none
    | _ => none
  | .close =>
    if s.phase = .body [] then
      some { s with
        server := { s.server with i := if 1 ≤ s.server.i then 2 + 1 else s.server.i + 1 }
        phase := .idle }
    else none
  | .use t =>
    if s.phase = .stopped then none
    else match s.uses[t]? with
      | some (n + 1) => some { s with uses := s.uses.set t n }
      | _ => none

/-- Before the first round. -/
def Sys.start : Sys := ⟨⟨[], 0⟩, [], .idle⟩

/-- An interleaving. -/
def run (acts : List Act) : Option Sys := acts.foldlM Sys.step .start

/-- The producer of thread `t` is in scope: that of the last thread, inside the body. -/
def Sys.Alive (s : Sys) (t : Nat) : Prop :=
  t + 1 = s.server.threads.length ∧ s.phase ≠ .idle

/-- The answers of `accept` along an interleaving. -/
def sockets (acts : List Act) : List Int :=
  acts.filterMap (fun a ↦ match a with
    | .accept client_socket => some client_socket
    | _ => none)

/-- The states an interleaving leads to, with what `accept` has answered and whether a round has
ended. -/
inductive Reached : List Int → Bool → Sys → Prop where
  | start : Reached [] false .start
  | first {a : Int} {x : Nat} (ha : a ≠ -1) :
    Reached [a] false ⟨⟨[⟨a, true⟩], 0⟩, [x], .body []⟩
  | between {a : Int} {x : Nat} (ha : a ≠ -1) :
    Reached [a] true ⟨⟨[⟨a, true⟩], 1⟩, [x], .idle⟩
  | second {a b : Int} {x y : Nat} (ha : a ≠ -1) (hb : b ≠ -1) :
    Reached [a, b] true ⟨⟨[⟨a, true⟩, ⟨b, true⟩], 1⟩, [x, y], .body [0, 1]⟩
  | joining {a b : Int} {y : Nat} (ha : a ≠ -1) (hb : b ≠ -1) :
    Reached [a, b] true ⟨⟨[⟨a, false⟩, ⟨b, true⟩], 1⟩, [0, y], .body [1]⟩
  | joined {a b : Int} (ha : a ≠ -1) (hb : b ≠ -1) :
    Reached [a, b] true ⟨⟨[⟨a, false⟩, ⟨b, false⟩], 1⟩, [0, 0], .body []⟩
  | resting {a b : Int} (ha : a ≠ -1) (hb : b ≠ -1) :
    Reached [a, b] true ⟨⟨[⟨a, false⟩, ⟨b, false⟩], 3⟩, [0, 0], .idle⟩
  | third {a b c : Int} {z : Nat} (ha : a ≠ -1) (hb : b ≠ -1) (hc : c ≠ -1) :
    Reached [a, b, c] true
      ⟨⟨[⟨a, false⟩, ⟨b, false⟩, ⟨c, true⟩], 3⟩, [0, 0, z], .body [0, 1]⟩
  | stopped {cs : List Int} {closed : Bool} {server : Server} {uses : List Nat} :
    Reached cs closed ⟨server, uses, .stopped⟩

variable {s s' : Sys} {acts : List Act} {cs : List Int} {closed : Bool} {t : Nat}

/-- A `join` that returns. -/
theorem Sys.step_join {threads : List Thread} {j : Nat} {js : List Nat}
    (hp : s.phase = .body (j :: js)) (hj : AcceptLoop.join s.server.threads j = .ok threads)
    (hs : s.step .join = some s') : s.uses[j]? = some 0 ∧
      s' = ⟨{ s.server with threads := threads }, s.uses, .body js⟩ := by
  rw [Sys.step, hp] at hs
  simp only [hj] at hs
  split at hs
  · next hu => exact ⟨hu, (Option.some.inj hs).symm⟩
  · cases hs

theorem Sys.step_use (hs : s.step (.use t) = some s') : s.phase ≠ .stopped ∧
    ∃ n, s.uses[t]? = some (n + 1) ∧ s' = ⟨s.server, s.uses.set t n, s.phase⟩ := by
  rw [Sys.step] at hs
  split at hs
  · cases hs
  · next hp =>
    split at hs
    · next n hn => exact ⟨hp, n, hn, (Option.some.inj hs).symm⟩
    · cases hs

/-- A use keeps the state in the list; out of scope it is one of the first thread, after its
round. -/
theorem Reached.step_use (h : Reached cs closed s) (hs : s.step (.use t) = some s') :
    Reached cs closed s' ∧ (¬ s.Alive t ↔ t = 0 ∧ closed = true) := by
  obtain ⟨hp, n, hn, rfl⟩ := Sys.step_use hs
  cases h with
  | start => cases hn
  | first ha =>
    match t with
    | 0 => exact ⟨.first ha, by simp [Sys.Alive]⟩
    | t + 1 => cases hn
  | between ha =>
    match t with
    | 0 => exact ⟨.between ha, by simp [Sys.Alive]⟩
    | t + 1 => cases hn
  | second ha hb =>
    match t with
    | 0 => exact ⟨.second ha hb, by simp [Sys.Alive]⟩
    | 1 => exact ⟨.second ha hb, by simp [Sys.Alive]⟩
    | t + 2 => cases hn
  | joining ha hb =>
    match t with
    | 0 => cases hn
    | 1 => exact ⟨.joining ha hb, by simp [Sys.Alive]⟩
    | t + 2 => cases hn
  | joined ha hb | resting ha hb =>
    match t with
    | 0 => cases hn
    | 1 => cases hn
    | t + 2 => cases hn
  | third ha hb hc =>
    match t with
    | 0 => cases hn
    | 1 => cases hn
    | 2 => exact ⟨.third ha hb hc, by simp [Sys.Alive]⟩
    | t + 3 => cases hn
  | stopped => exact absurd rfl hp

/-- A step of `main` or of a thread leads on to a state of the list. -/
theorem Reached.step {a : Act} (h : Reached cs closed s) (hs : s.step a = some s') :
    Reached (cs ++ sockets [a]) (closed || a = .close) s' := by
  cases a with
  | accept c =>
    rw [Sys.step] at hs
    split at hs
    · next hidle =>
      split at hs
      · cases hs
        exact .stopped
      · next hc =>
        cases hs
        cases h with
        | start => exact .first hc
        | between ha => exact .second ha hc
        | resting ha hb => exact .third ha hb hc
        | first | second | joining | joined | third | stopped => cases hidle
    · cases hs
  | join =>
    cases h with
    | second ha hb =>
      obtain ⟨hu, rfl⟩ := Sys.step_join rfl rfl hs
      cases hu
      exact .joining ha hb
    | joining ha hb =>
      obtain ⟨hu, rfl⟩ := Sys.step_join rfl rfl hs
      cases hu
      exact .joined ha hb
    | third ha hb hc =>
      cases hs
      exact .stopped
    | start | first | between | joined | resting | stopped => cases hs
  | close =>
    cases h with
    | first ha =>
      cases hs
      exact .between ha
    | joined ha hb =>
      cases hs
      exact .resting ha hb
    | start | between | second | joining | resting | third | stopped => cases hs
  | use t =>
    change Reached (cs ++ []) (closed || false) _
    rw [List.append_nil, Bool.or_false]
    exact (h.step_use hs).1

theorem Reached.acceptLoop_eq (h : Reached cs closed s) (hidle : s.phase = .idle) :
    acceptLoop cs = .ok s.server := by
  cases h with
  | start => rfl
  | between ha =>
    rw [acceptLoop, List.foldlM_cons, acceptStep_first ha]
    rfl
  | resting ha hb =>
    rw [acceptLoop, List.foldlM_cons, acceptStep_first ha]
    exact congrArg (· >>= pure) (acceptStep_second hb)
  | first | second | joining | joined | third | stopped => cases hidle

/-! ### Runs -/

theorem sockets_append (as bs : List Act) : sockets (as ++ bs) = sockets as ++ sockets bs :=
  List.filterMap_append

theorem reached_run (hrun : run acts = some s) :
    Reached (sockets acts) (decide (.close ∈ acts)) s := by
  induction acts using List.reverseRecOn generalizing s with
  | nil =>
    cases hrun
    exact .start
  | append_singleton acts a ih =>
    rw [run, List.foldlM_append, Option.bind_eq_bind, Option.bind_eq_some_iff] at hrun
    obtain ⟨s₁, h₁, hrun⟩ := hrun
    rw [List.foldlM_cons, Option.bind_eq_bind, Option.bind_eq_some_iff] at hrun
    obtain ⟨s₂, hs, hrun⟩ := hrun
    cases hrun
    have h := (ih h₁).step hs
    rw [← sockets_append] at h
    simpa [eq_comm] using h

/-- Between two rounds the interleaved loop is where the accept loop is. -/
theorem acceptLoop_of_run (hrun : run acts = some s) (hidle : s.phase = .idle) :
    acceptLoop (sockets acts) = .ok s.server :=
  (reached_run hrun).acceptLoop_eq hidle

/-- **Dangling producer.** In every interleaving, the producer that a thread is about to use is out
of scope exactly when the thread is the first one and a round has ended. -/
theorem not_alive_run (hrun : run acts = some s) (huse : s.step (.use t) ≠ none) :
    ¬ s.Alive t ↔ t = 0 ∧ .close ∈ acts := by
  obtain ⟨s', hs⟩ := Option.ne_none_iff_exists'.mp huse
  rw [((reached_run hrun).step_use hs).2, decide_eq_true_iff]

/-- The first round ends while its thread has not used its producer yet. -/
theorem not_alive_run_first :
    ∃ s, run [.accept 4, .close] = some s ∧ s.step (.use 0) ≠ none ∧ ¬ s.Alive 0 := by
  have hrun : run [.accept 4, .close] = some ⟨⟨[⟨4, true⟩], 1⟩, [4], .idle⟩ := rfl
  exact ⟨_, hrun, by decide, (not_alive_run hrun (by decide)).mpr ⟨rfl, by decide⟩⟩

end Jeopardy.ProducerConsumer.Lifetime
