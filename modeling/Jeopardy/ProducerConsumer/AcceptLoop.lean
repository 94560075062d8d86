import Mathlib

/-!
# The accept loop of the server

Model of the `while (1)` loop of `main` in `parallel_tcpip/socket_server.cpp`: every accepted
connection gets a thread, and from the second round on two threads are joined. The variable `i`
counts connections and runs through the threads to join. A joined thread has ended; how long
that takes is left open.
-/

namespace Jeopardy.ProducerConsumer.AcceptLoop

/-- A `std::thread` that runs a `Producer` on a connection. -/
structure Thread where
  client_socket : Int
  joinable : Bool
deriving DecidableEq, Repr

/-- Why the loop stops: `exit(1)` when `accept` fails, `threads[i]` past the end, or the
`std::system_error` of a `join` on a thread that is not joinable. -/
inductive Stop where
  | exit
  | outOfRange (i : Nat)
  | notJoinable (i : Nat)
deriving DecidableEq, Repr

/-- The variables of the loop. -/
structure Server where
  threads : List Thread
  i : Nat
deriving DecidableEq, Repr

/-- `threads[i].join()`, `parallel_tcpip/socket_server.cpp:196`. -/
def join (threads : List Thread) (i : Nat) : Except Stop (List Thread) :=
  match threads[i]? with
  | none => .error (.outOfRange i)
  | some t =>
    if t.joinable then .ok (threads.set i { t with joinable := false })
    else .error (.notJoinable i)

/-- One round of the loop, `parallel_tcpip/socket_server.cpp:174–200`, with what `accept`
answers. -/
def acceptStep (s : Server) (client_socket : Int) : Except Stop Server :=
  if client_socket = -1 then .error .exit
  else do
    let threads := s.threads ++ [⟨client_socket, true⟩]
    if 1 ≤ s.i then
      let threads ← [0, 1].foldlM join threads
      return { threads := threads, i := 2 + 1 }
    else return { threads := threads, i := s.i + 1 }

/-- The loop over the answers of `accept`, `parallel_tcpip/socket_server.cpp:171–201`. -/
def acceptLoop (sockets : List Int) : Except Stop Server :=
  sockets.foldlM acceptStep { threads := [], i := 0 }

/-- The connections that are accepted: the loop ends when `accept` fails. -/
def accepted (sockets : List Int) : List Int := sockets.takeWhile (· ≠ -1)

/-- Every `join` that the loop executes is on a thread that exists and has not been joined. -/
def JoinsSafe (sockets : List Int) : Prop :=
  ∀ i, acceptLoop sockets ≠ .error (.outOfRange i) ∧ acceptLoop sockets ≠ .error (.notJoinable i)

variable {s : Server} {a b c : Int}

theorem acceptStep_exit (s : Server) : acceptStep s (-1) = .error .exit := if_pos rfl

/-- The first round joins nothing. -/
theorem acceptStep_first (ha : a ≠ -1) :
    acceptStep ⟨[], 0⟩ a = .ok ⟨[⟨a, true⟩], 1⟩ := if_neg ha

/-- The second round joins both threads and leaves `i` behind the two. -/
theorem acceptStep_second (hb : b ≠ -1) :
    acceptStep ⟨[⟨a, true⟩], 1⟩ b = .ok ⟨[⟨a, false⟩, ⟨b, false⟩], 3⟩ := if_neg hb

/-- Once the first thread is joined, a round that joins finds it again. -/
theorem acceptStep_notJoinable {t : Thread} (ht : s.threads[0]? = some t)
    (hj : t.joinable = false) (hi : 1 ≤ s.i) (hc : c ≠ -1) :
    acceptStep s c = .error (.notJoinable 0) := by
  have ht' : (s.threads ++ [⟨c, true⟩])[0]? = some t := by
    rw [List.getElem?_append_left (List.getElem?_eq_some_iff.mp ht).1, ht]
  have hjoin : join (s.threads ++ [⟨c, true⟩]) 0 = .error (.notJoinable 0) := by
    rw [join, ht']
    simp [hj]
  rw [acceptStep, if_neg hc]
  simp only [if_pos hi, List.foldlM_cons, hjoin]
  rfl

/-- **Joining.** The joins of the accept loop are safe exactly as long as no more than two
connections are accepted. -/
theorem joinsSafe_iff (sockets : List Int) :
    JoinsSafe sockets ↔ (accepted sockets).length ≤ 2 := by
  have hexit (s : Server) (as : List Int) :
      (-1 :: as).foldlM acceptStep s = .error .exit := by
    rw [List.foldlM_cons, acceptStep_exit]
    rfl
  have hnext {s s' : Server} {a : Int} (as : List Int) (h : acceptStep s a = .ok s') :
      (a :: as).foldlM acceptStep s = as.foldlM acceptStep s' := by
    rw [List.foldlM_cons, h]
    rfl
  cases sockets with
  | nil => exact iff_of_true (fun _ ↦ ⟨nofun, nofun⟩) (by decide)
  | cons a as =>
    by_cases ha : a = -1
    · subst ha
      rw [JoinsSafe, acceptLoop, hexit]
      exact iff_of_true (fun _ ↦ ⟨nofun, nofun⟩) (by simp [accepted])
    rw [JoinsSafe, acceptLoop, hnext as (acceptStep_first ha)]
    cases as with
    | nil => exact iff_of_true (fun _ ↦ ⟨nofun, nofun⟩) (by simp [accepted, ha])
    | cons b bs =>
      by_cases hb : b = -1
      · subst hb
        rw [hexit]
        exact iff_of_true (fun _ ↦ ⟨nofun, nofun⟩) (by simp [accepted, ha])
      rw [hnext bs (acceptStep_second hb)]
      cases bs with
      | nil => exact iff_of_true (fun _ ↦ ⟨nofun, nofun⟩) (by simp [accepted, ha, hb])
      | cons c cs =>
        by_cases hc : c = -1
        · subst hc
          rw [hexit]
          exact iff_of_true (fun _ ↦ ⟨nofun, nofun⟩) (by simp [accepted, ha, hb])
        -- the third connection joins the first thread a second time
        have hthird : acceptStep ⟨[⟨a, false⟩, ⟨b, false⟩], 3⟩ c = .error (.notJoinable 0) :=
          acceptStep_notJoinable (t := ⟨a, false⟩) rfl rfl (show 1 ≤ 3 by decide) hc
        rw [List.foldlM_cons, hthird]
        refine iff_of_false (fun h ↦ (h 0).2 rfl) ?_
        simp [accepted, ha, hb, hc]

/-- Three connections: the third round joins `threads[0]` again. -/
theorem acceptLoop_three :
    acceptLoop [4, 5, 6] = .error (.notJoinable 0) ∧ ¬ JoinsSafe [4, 5, 6] := by
  have hrun : acceptLoop [4, 5, 6] = .error (.notJoinable 0) := by decide
  exact ⟨hrun, fun h ↦ (h 0).2 hrun⟩

end Jeopardy.ProducerConsumer.AcceptLoop
