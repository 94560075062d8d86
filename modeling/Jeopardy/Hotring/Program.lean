import Jeopardy.Hotring.Hotspot

/-!
# Programs over one table

A program allocates a table and calls the operations of `hotring/hotring.c` on it one after
the other. The effect of a call on the finite map the table is meant to hold is stated here
as well; later modules compare the two.
-/

namespace Jeopardy.Hotring

/-- The steps of a program. `lookup` is `__hash_get`, `get` is `hash_get` with the hot-spot
shift and the rehash it may start, and `repoint` moves the head of a bucket along its ring,
the only thing a hot-spot shift does to the rings. -/
inductive Call where
  | insert (key value : Nat)
  | lookup (key : Nat)
  | get (key : Nat)
  | delete (key : Nat)
  | repoint (index steps : Nat)
deriving DecidableEq, Repr

/-- The node `steps` links behind `a`. -/
def walk (m : Mem) (a : Nat) : Nat → Except Fault Nat
  | 0 => .ok a
  | steps + 1 => do
    let nd ← m.read a
    walk m nd.list.addr steps

/-- The stores of `do_hotspot_shift` to the head, `hotring/hotring.c:623–632`, for the node
`steps` links behind the present one. -/
def repointHead (m : Mem) (h : Hash) (index steps : Nat) : Except Fault Hash := do
  match ← h.slot index with
  | none => return h
  | some head =>
    let hottest ← walk m head.addr steps
    return h.setSlot index (some (.ofPtr hottest))

/-- One call. -/
def Call.step (D : Type) [DoubleArith D] (s : State) : Call → Except Fault State
  | .insert key value => do
    let (m, h, _) ← hashInsert s.mem s.hash key value
    return { s with mem := m, hash := h }
  | .lookup key => do
    let (m, h, _) ← rawHashGet s.mem s.hash key
    return { s with mem := m, hash := h }
  | .get key => do
    let (s, _, _) ← hashGet D s key
    return s
  | .delete key => do
    let (m, h, _) ← hotringDelete s.mem s.hash key
    return { s with mem := m, hash := h }
  | .repoint index steps => do
    let h ← repointHead s.mem s.hash index steps
    return { s with hash := h }

/-- A sequence of calls. -/
def run (D : Type) [DoubleArith D] (s : State) (calls : List Call) : Except Fault State :=
  calls.foldlM (Call.step D) s

/-- The state after `hash_alloc(n, k)`, whatever nodes other tables hold and however many
requests the thread has made. -/
def start (m : Mem) (nr_request : Int) (n k : Nat) : Except Fault State := do
  let h ← hashAlloc n k
  return ⟨m, h, nr_request⟩

/-- The finite map after a call on a table that stands for `f`. -/
def Call.effect (f : Nat → Option Nat) : Call → Nat → Option Nat
  | .insert key value => Function.update f key (some value)
  | .delete key => Function.update f key Option.none
  | _ => f

/-- The finite map after a sequence of calls on an empty table. -/
def history (calls : List Call) : Nat → Option Nat :=
  calls.foldl Call.effect (fun _ ↦ Option.none)

/-- The key a call inserts. -/
def Call.insertedKey : Call → Option Nat
  | .insert key _ => some key
  | _ => Option.none

/-- The keys a program inserts, in order. -/
def insertedKeys (calls : List Call) : List Nat := calls.filterMap Call.insertedKey

theorem start_eq_ok {m : Mem} {r : Int} {n k : Nat} {s : State} :
    start m r n k = .ok s ↔ k ≤ 30 ∧ s = ⟨m, ⟨n, k, 2 ^ k, fun _ ↦ Option.none⟩, r⟩ := by
  rw [start, hashAlloc]
  constructor
  · intro hs
    obtain ⟨h, hh, hs⟩ := Fault.bind_eq_ok.mp hs
    obtain ⟨size, hsz, hh⟩ := Fault.bind_eq_ok.mp hh
    obtain ⟨hk, rfl⟩ := intShl_eq_ok.mp hsz
    simp only [pure, Except.pure, Except.ok.injEq] at hh hs
    exact ⟨hk, by rw [← hs, ← hh]⟩
  · rintro ⟨hk, rfl⟩
    rw [intShl_eq_ok.mpr ⟨hk, rfl⟩]
    rfl

section Run

variable {D : Type} [DoubleArith D] {s s' : State} {calls : List Call} {c : Call}

theorem run_nil : run D s [] = .ok s := rfl

theorem run_concat (s : State) (calls : List Call) (c : Call) :
    run D s (calls ++ [c]) = run D s calls >>= fun s ↦ c.step D s := by
  simp [run, List.foldlM_append]

theorem run_append (s : State) (calls calls' : List Call) :
    run D s (calls ++ calls') = run D s calls >>= fun s ↦ run D s calls' := by
  simp [run, List.foldlM_append]

theorem history_concat (calls : List Call) (c : Call) :
    history (calls ++ [c]) = c.effect (history calls) := by
  simp [history]

theorem insertedKeys_concat (calls : List Call) (c : Call) :
    insertedKeys (calls ++ [c]) = insertedKeys calls ++ c.insertedKey.toList := by
  cases hc : c.insertedKey <;> simp [insertedKeys, hc]

theorem insertedKeys_sublist {pre : List Call} (hpre : pre <+: calls) :
    (insertedKeys pre).Sublist (insertedKeys calls) := by
  obtain ⟨post, rfl⟩ := hpre
  rw [insertedKeys, insertedKeys, List.filterMap_append]
  exact List.sublist_append_left _ _

/-! What a call that completes has done. -/

theorem step_insert {key value : Nat} (hs : (Call.insert key value).step D s = .ok s') :
    ∃ e, hashInsert s.mem s.hash key value = .ok (s'.mem, s'.hash, e) := by
  obtain ⟨⟨m, h, e⟩, hi, hs⟩ := Fault.bind_eq_ok.mp hs
  simp only [pure, Except.pure, Except.ok.injEq] at hs
  exact hs ▸ ⟨e, hi⟩

theorem step_lookup {key : Nat} (hs : (Call.lookup key).step D s = .ok s') :
    ∃ g, rawHashGet s.mem s.hash key = .ok (s'.mem, s'.hash, g) := by
  obtain ⟨⟨m, h, g⟩, hg, hs⟩ := Fault.bind_eq_ok.mp hs
  simp only [pure, Except.pure, Except.ok.injEq] at hs
  exact hs ▸ ⟨g, hg⟩

theorem step_get {key : Nat} (hs : (Call.get key).step D s = .ok s') :
    ∃ e g, hashGet D s key = .ok (s', e, g) := by
  obtain ⟨⟨s₁, e, g⟩, hg, hs⟩ := Fault.bind_eq_ok.mp hs
  simp only [pure, Except.pure, Except.ok.injEq] at hs
  exact hs ▸ ⟨e, g, hg⟩

theorem step_delete {key : Nat} (hs : (Call.delete key).step D s = .ok s') :
    ∃ b, hotringDelete s.mem s.hash key = .ok (s'.mem, s'.hash, b) := by
  obtain ⟨⟨m, h, b⟩, hd, hs⟩ := Fault.bind_eq_ok.mp hs
  simp only [pure, Except.pure, Except.ok.injEq] at hs
  exact hs ▸ ⟨b, hd⟩

theorem step_repoint {index steps : Nat} (hs : (Call.repoint index steps).step D s = .ok s') :
    repointHead s.mem s.hash index steps = .ok s'.hash ∧ s'.mem = s.mem := by
  obtain ⟨h, hp, hs⟩ := Fault.bind_eq_ok.mp hs
  simp only [pure, Except.pure, Except.ok.injEq] at hs
  exact hs ▸ ⟨hp, rfl⟩

/-- A call of a program that inserts no key twice inserts a key new to it. -/
theorem notMem_insertedKeys {pre : List Call} {key : Nat}
    (hd : (insertedKeys calls).Nodup) (hpre : pre ++ [c] <+: calls) (hkey : key ∈ c.insertedKey) :
    key ∉ insertedKeys pre := by
  obtain ⟨post, rfl⟩ := hpre
  rw [insertedKeys, List.filterMap_append, List.nodup_append, ← insertedKeys,
    insertedKeys_concat, List.nodup_append] at hd
  intro hm
  exact hd.1.2.2 key hm key (Option.mem_toList.mpr hkey) rfl

/-- Only inserted keys are ever in the map. -/
theorem history_eq_none {q : Nat} (hq : q ∉ insertedKeys calls) :
    history calls q = Option.none := by
  induction calls using List.reverseRecOn with
  | nil => rfl
  | append_singleton calls c ih =>
    rw [insertedKeys_concat, List.mem_append, not_or] at hq
    rw [history_concat]
    cases c with
    | insert key value =>
      have hne : q ≠ key := by simpa [Call.insertedKey] using hq.2
      rw [Call.effect, Function.update_of_ne hne, ih hq.1]
    | delete key =>
      rw [Call.effect, Function.update_apply, ih hq.1, ite_self]
    | lookup key => exact ih hq.1
    | get key => exact ih hq.1
    | repoint index steps => exact ih hq.1

/-- Without repetitions and deletions an inserted value stays in the map. -/
theorem history_of_insert {q v : Nat} (hd : (insertedKeys calls).Nodup)
    (hdel : ∀ key, Call.delete key ∉ calls) (hm : Call.insert q v ∈ calls) :
    history calls q = some v := by
  induction calls using List.reverseRecOn with
  | nil => simp at hm
  | append_singleton calls c ih =>
    rw [insertedKeys_concat, List.nodup_append] at hd
    obtain ⟨hd, -, hne⟩ := hd
    rw [history_concat]
    rw [List.mem_append, List.mem_singleton] at hm
    have hdel' (key : Nat) : Call.delete key ∉ calls := fun h ↦ hdel key (by simp [h])
    rcases hm with hm | rfl
    · have hq : q ∈ insertedKeys calls := List.mem_filterMap.mpr ⟨_, hm, rfl⟩
      cases c with
      | insert key value =>
        rw [Call.effect, Function.update_of_ne (hne q hq key (by simp [Call.insertedKey])),
          ih hd hdel' hm]
      | delete key => exact absurd (by simp) (hdel key)
      | lookup key => exact ih hd hdel' hm
      | get key => exact ih hd hdel' hm
      | repoint index steps => exact ih hd hdel' hm
    · rw [Call.effect, Function.update_self]

/-- If every call completes from the invariant and keeps it, so does the run. -/
theorem run_total {P : State → List Call → Prop} (h0 : P s [])
    (hstep : ∀ (s₁ : State) (pre : List Call) (c : Call), P s₁ pre → pre ++ [c] <+: calls →
      ∃ s₂, c.step D s₁ = .ok s₂ ∧ P s₂ (pre ++ [c])) :
    ∃ s', run D s calls = .ok s' ∧ P s' calls := by
  induction calls using List.reverseRecOn with
  | nil => exact ⟨s, run_nil, h0⟩
  | append_singleton calls c ih =>
    obtain ⟨s₁, h1, hp⟩ := ih (fun s₁ pre c hp hl ↦ hstep s₁ pre c hp
      (hl.trans (List.prefix_append _ _)))
    obtain ⟨s₂, h2, hp'⟩ := hstep s₁ calls c hp (List.prefix_refl _)
    exact ⟨s₂, by rw [run_concat, h1, Fault.ok_bind, h2], hp'⟩

/-- An invariant that every admissible call keeps holds after every admissible run. -/
theorem run_invariant {P : State → List Call → Prop} (h0 : P s [])
    (hstep : ∀ (s₁ : State) (pre : List Call) (c : Call) (s₂ : State), pre ++ [c] <+: calls →
      run D s pre = .ok s₁ → P s₁ pre → c.step D s₁ = .ok s₂ → P s₂ (pre ++ [c]))
    (hrun : run D s calls = .ok s') : P s' calls := by
  induction calls using List.reverseRecOn generalizing s' with
  | nil =>
    rw [run_nil, Except.ok.injEq] at hrun
    exact hrun ▸ h0
  | append_singleton calls c ih =>
    rw [run_concat, Fault.bind_eq_ok] at hrun
    obtain ⟨s₁, h1, h2⟩ := hrun
    have hpre := ih (fun s₁ pre c s₂ hl ↦ hstep s₁ pre c s₂ (hl.trans (List.prefix_append _ _))) h1
    exact hstep s₁ calls c s' (List.prefix_refl _) h1 hpre h2

end Run

end Jeopardy.Hotring
