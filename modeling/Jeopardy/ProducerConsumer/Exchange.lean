import Jeopardy.Base.Fault

/-!
# The exchange between client and server

Model of `Producer::run` in `parallel_tcpip/socket_server.cpp` and of `clientThread` in
`parallel_tcpip/socket_client.c`. Either side calls `read` once, into an array that is not
initialised, and takes what it finds there for a string. A `read` may deliver less than what was
sent. The faults of this model are reads of bytes that were not written and accesses outside the
arrays. Whether the `Producer` still exists when its thread runs is the subject of `Lifetime`.
-/

namespace Jeopardy.ProducerConsumer.Exchange

open Fault

/-- `BUFF_SIZE`, `parallel_tcpip/socket_server.cpp:17`, `parallel_tcpip/socket_client.c:12`. -/
def BUFF_SIZE : Nat := 1024

/-- A `char [BUFF_SIZE+5]` that begins with the given bytes; the rest is not initialised. -/
def array (bytes : List Char) : List (Option Char) :=
  bytes.map some ++ List.replicate (BUFF_SIZE + 5 - bytes.length) none

/-- What `read(fd, buff, BUFF_SIZE)` delivers of the bytes sent when it stops after `r` of them;
after none at the end of the stream or on an error. -/
def delivered (sent : List Char) (r : Nat) : List Char := sent.take (min r BUFF_SIZE)

/-- The string at the start of an array, as `strlen` and `%s` find it. -/
def cstring : List (Option Char) → Except Fault (List Char)
  | [] => .error .outOfBounds
  | none :: _ => .error .uninitialized
  | some c :: cells =>
    if c = '\x00' then .ok []
    else do
      let s ← cstring cells
      return c :: s

/-- `" : client says "`. -/
def clientSays : List Char :=
  [' ', ':', ' ', 'c', 'l', 'i', 'e', 'n', 't', ' ', 's', 'a', 'y', 's', ' ']

/-- What `"%d : client says %s"` prints. The argument for `%d` is a `size_t` where an `int` is due,
for which C defines no result; it is taken to print the number. -/
def replyTo (s : List Char) : List Char := Nat.toDigits 10 s.length ++ clientSays ++ s

/-- `sprintf` into an array. -/
def sprintf (s : List Char) : Except Fault (List (Option Char)) :=
  if s.length < BUFF_SIZE + 5 then .ok (array (s ++ ['\x00'])) else .error .outOfBounds

/-- `Producer::run`, `parallel_tcpip/socket_server.cpp:80–104`, when its `read` stops after `r`
bytes: the bytes it writes. -/
def producerRun (sent : List Char) (r : Nat) : Except Fault (List Char) := do
  let buff_rcv := array (delivered sent r)
  let rcv ← cstring buff_rcv
  let buff_snd ← sprintf (replyTo rcv)
  let snd ← cstring buff_snd
  return snd ++ ['\x00']

/-- `clientThread`, `parallel_tcpip/socket_client.c:34–37`, with `msg` for the bytes it writes:
the string it prints. -/
def clientThread (msg : List Char) (r r' : Nat) : Except Fault (List Char) := do
  let reply ← producerRun msg r
  cstring (array (delivered reply r'))

variable {s bytes msg shown out : List Char} {cells : List (Option Char)} {r r' : Nat}

/-- A string is what stands before the first NUL, if everything before it is initialised. -/
theorem cstring_eq_ok : cstring cells = .ok s ↔
    '\x00' ∉ s ∧ ∃ rest, cells = s.map some ++ some '\x00' :: rest := by
  induction cells generalizing s with
  | nil => simp [cstring]
  | cons cell cells ih =>
    cases cell with
    | none => cases s <;> simp [cstring]
    | some c =>
      rw [cstring]
      split
      · next hc =>
        cases s with
        | nil => simp [hc]
        | cons d s =>
          simp only [Except.ok.injEq, List.mem_cons, List.map_cons, List.cons_append,
            List.cons.injEq, Option.some.injEq, reduceCtorEq, false_iff, hc]
          rintro ⟨hd, -, hcd, -⟩
          exact hd (Or.inl hcd)
      · next hc =>
        rw [bind_eq_ok]
        simp only [ih, pure, Except.pure, Except.ok.injEq]
        cases s with
        | nil => simp [hc]
        | cons d s =>
          simp only [List.cons.injEq, List.mem_cons, not_or, List.map_cons, List.cons_append,
            Option.some.injEq, exists_and_left]
          constructor
          · rintro ⟨_, ⟨hs, hcells⟩, rfl, rfl⟩
            exact ⟨⟨fun h ↦ hc h.symm, hs⟩, rfl, hcells⟩
          · rintro ⟨⟨-, hs⟩, rfl, hcells⟩
            exact ⟨s, ⟨hs, hcells⟩, rfl, rfl⟩

/-- What is initialised of an array are its bytes. -/
theorem prefix_of_map_some {k : Nat}
    (h : s.map some <+: bytes.map some ++ List.replicate k none) : s <+: bytes := by
  induction s generalizing bytes with
  | nil => exact List.nil_prefix
  | cons c s ih =>
    cases bytes with
    | nil =>
      cases k with
      | zero => exact absurd h (by simp)
      | succ k => exact absurd h (by simp [List.replicate_succ])
    | cons b bytes =>
      rw [List.map_cons, List.map_cons, List.cons_append, List.cons_prefix_cons,
        Option.some.injEq] at h
      exact List.cons_prefix_cons.mpr ⟨h.1, ih h.2⟩

/-- The string in an array is the first string of the bytes in it. -/
theorem cstring_array : cstring (array bytes) = .ok s ↔ '\x00' ∉ s ∧ s ++ ['\x00'] <+: bytes := by
  rw [cstring_eq_ok]
  apply and_congr_right
  intro _
  constructor
  · rintro ⟨rest, hr⟩
    apply prefix_of_map_some (k := BUFF_SIZE + 5 - bytes.length)
    refine ⟨rest, ?_⟩
    rw [← array, hr, List.map_append, List.append_assoc]
    rfl
  · rintro ⟨rest, rfl⟩
    refine ⟨rest.map some ++
      List.replicate (BUFF_SIZE + 5 - (s ++ ['\x00'] ++ rest).length) none, ?_⟩
    rw [array, List.map_append, List.map_append, List.append_assoc, List.append_assoc]
    rfl

/-! ### The reply -/

theorem nul_notMem_replyTo (hs : '\x00' ∉ s) : '\x00' ∉ replyTo s := by
  rw [replyTo, List.mem_append, List.mem_append]
  rintro ((h | h) | h)
  · exact absurd (Nat.isDigit_of_mem_toDigits (by decide) (by decide) h) (by decide)
  · exact absurd h (by decide)
  · exact hs h

/-- What `%d` and the text between add to the string, for sizes around that of the arrays. -/
theorem length_replyTo_lt_iff {k : Nat} (hk : 1023 ≤ k) (hk' : k ≤ 9000) :
    (replyTo s).length < k + 1 ↔ s.length + 19 ≤ k := by
  have hlen : (replyTo s).length = (Nat.toDigits 10 s.length).length + 15 + s.length := by
    rw [replyTo, List.length_append, List.length_append]
    rfl
  have h3 : (Nat.toDigits 10 s.length).length ≤ 3 ↔ s.length < 10 ^ 3 :=
    Nat.length_toDigits_le_iff (by decide) (by decide)
  have h4 : (Nat.toDigits 10 s.length).length ≤ 4 ↔ s.length < 10 ^ 4 :=
    Nat.length_toDigits_le_iff (by decide) (by decide)
  omega

/-- A string with its NUL begins with no other string. -/
theorem eq_of_prefix_nul (hs : '\x00' ∉ s) (h : out ++ ['\x00'] <+: s ++ ['\x00']) : out = s := by
  obtain ⟨rest, hrest⟩ := h
  obtain rfl : rest = [] := by
    by_contra hne
    rw [← List.dropLast_append_getLast hne, ← List.append_assoc] at hrest
    apply hs
    rw [← (List.append_inj' hrest rfl).1]
    simp
  rw [List.append_nil] at hrest
  exact (List.append_inj' hrest rfl).1

theorem sprintf_eq_ok : sprintf s = .ok cells ↔
    s.length < BUFF_SIZE + 5 ∧ cells = array (s ++ ['\x00']) := by
  rw [sprintf]
  split
  · next h => simp [h, eq_comm]
  · next h => simp [h]

/-- The producer replies to a string of at most 1009 bytes that its `read` delivered whole. -/
theorem producerRun_eq_ok : producerRun msg r = .ok out ↔
    ∃ s, '\x00' ∉ s ∧ s ++ ['\x00'] <+: msg ∧ s.length < min r BUFF_SIZE ∧ s.length ≤ 1009 ∧
      out = replyTo s ++ ['\x00'] := by
  have hprint (s : List Char) : (replyTo s).length < BUFF_SIZE + 5 ↔ s.length ≤ 1009 := by
    rw [BUFF_SIZE, length_replyTo_lt_iff (by decide) (by decide)]
    omega
  simp only [producerRun, bind_eq_ok, cstring_array, sprintf_eq_ok, hprint, delivered,
    List.prefix_take_iff, List.length_append, List.length_singleton, pure, Except.pure,
    Except.ok.injEq]
  constructor
  · rintro ⟨s, ⟨hs, hmsg, hlen⟩, _, ⟨hfit, rfl⟩, t, ht, rfl⟩
    rw [cstring_array] at ht
    rw [eq_of_prefix_nul (nul_notMem_replyTo hs) ht.2]
    exact ⟨s, hs, hmsg, hlen, hfit, rfl⟩
  · rintro ⟨s, hs, hmsg, hlen, hfit, rfl⟩
    refine ⟨s, ⟨hs, hmsg, hlen⟩, _, ⟨hfit, rfl⟩, replyTo s, ?_, rfl⟩
    exact cstring_array.mpr ⟨nul_notMem_replyTo hs, List.prefix_refl _⟩

/-- **Exchange.** However little the two `read`s deliver, the exchange reads no uninitialised byte
and leaves no array exactly when the server receives a whole string of at most 1004 bytes and the
client its whole reply; the client then prints the length and the string. -/
theorem clientThread_eq_ok : clientThread msg r r' = .ok shown ↔
    ∃ s, '\x00' ∉ s ∧ s ++ ['\x00'] <+: msg ∧ s.length < r ∧ s.length ≤ 1004 ∧
      (replyTo s).length < r' ∧ shown = replyTo s := by
  have hprint (s : List Char) : (replyTo s).length < BUFF_SIZE ↔ s.length ≤ 1004 := by
    rw [BUFF_SIZE, length_replyTo_lt_iff (by decide) (by decide)]
    omega
  simp only [clientThread, bind_eq_ok, producerRun_eq_ok, cstring_array, delivered,
    List.prefix_take_iff, List.length_append, List.length_singleton]
  constructor
  · rintro ⟨_, ⟨s, hs, hmsg, hlen, -, rfl⟩, -, hshown, hlen'⟩
    obtain rfl := eq_of_prefix_nul (nul_notMem_replyTo hs) hshown
    have hfit := (hprint s).mp (by omega)
    exact ⟨s, hs, hmsg, by omega, hfit, by omega, rfl⟩
  · rintro ⟨s, hs, hmsg, hlen, hfit, hlen', rfl⟩
    have hle := (hprint s).mpr hfit
    refine ⟨_, ⟨s, hs, hmsg, ?_, by omega, rfl⟩, nul_notMem_replyTo hs, List.prefix_refl _, ?_⟩
    · rw [BUFF_SIZE]
      omega
    · omega

example : clientThread ['h', 'e', 'l', 'l', 'o', '\x00'] 6 30
    = .ok ['5', ' ', ':', ' ', 'c', 'l', 'i', 'e', 'n', 't', ' ', 's', 'a', 'y', 's', ' ',
      'h', 'e', 'l', 'l', 'o'] := by decide +kernel

end Jeopardy.ProducerConsumer.Exchange
