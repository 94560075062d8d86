import Jeopardy.Jifs.File

/-!
# Concurrent calls on the two counter files

`jifs_read_file` reads the counter and increments it in two atomic steps, so two reads from the
start of a file may show the same value. The file system has two files, each with a counter of
its own. Here the calls of any number of descriptors interleave, step by atomic step.
-/

namespace Jeopardy.Jifs

/-- The files of `jifs_create_files`, `JIFS/super.c:182–199`. -/
inductive CounterFile where
  | counter
  | subcounter
deriving DecidableEq, Repr

/-- `jifs_read_file` from `atomic_inc` on, `JIFS/file.c:53–69`, when `atomic_read` gave `v`. -/
def finishRead (v counter : BitVec 32) (offset count : Nat) (fault : Bool) : Reply :=
  let (v, counter) := if offset > 0 then (v - 1, counter) else (v, counter + 1)
  let tmp := (text v).take (TMPSIZE - 1)
  let len := (text v).length
  if offset > len then ⟨counter, offset, 0, []⟩
  else
    let count := if count > len - offset then len - offset else count
    if fault then ⟨counter, offset, -EFAULT, []⟩
    else ⟨counter, offset + count, count, (tmp.drop offset).take count⟩

/-- A read that nobody interrupts. -/
theorem finishRead_self (counter : BitVec 32) (offset count : Nat) (fault : Bool) :
    finishRead counter counter offset count fault = jifsReadFile counter offset count fault := rfl

theorem finishRead_counter (v counter : BitVec 32) (offset count : Nat) (fault : Bool) :
    (finishRead v counter offset count fault).counter
      = if offset = 0 then counter + 1 else counter := by
  rcases Nat.eq_zero_or_pos offset with rfl | hpos
  · simp only [finishRead, gt_iff_lt, Nat.lt_irrefl, if_false, Nat.not_lt_zero, if_true]
    split <;> rfl
  · simp only [finishRead, gt_iff_lt, hpos, if_true, if_neg hpos.ne']
    split
    · rfl
    · split <;> rfl

/-- A read after its `atomic_read`. -/
structure Loaded where
  v : BitVec 32
  count : Nat
  fault : Bool
deriving DecidableEq

/-- An open descriptor: its offset, the read it is in, and the replies so far. -/
structure Handle where
  offset : Nat
  loaded : Option Loaded
  replies : List Reply
deriving DecidableEq

/-- The counters and the descriptors. -/
structure Sys (ι : Type) where
  counters : CounterFile → BitVec 32
  handle : ι → Handle

/-- After the mount, `JIFS/super.c:191,195`, with all descriptors just opened. -/
def Sys.mounted (ι : Type) : Sys ι := ⟨fun _ ↦ 0, fun _ ↦ ⟨0, none, []⟩⟩

/-- One atomic step of a descriptor. -/
inductive Act (ι : Type) where
  /-- `atomic_read`, `JIFS/file.c:50`. -/
  | load (i : ι) (count : Nat) (fault : Bool)
  /-- The rest of the read. -/
  | finish (i : ι)
  /-- A call of `jifs_write_file`, with its `atomic_set`. -/
  | write (i : ι) (buf : List Char) (fault : Bool)

variable {ι : Type} [DecidableEq ι]

/-- The descriptor of a step. -/
def Act.handle : Act ι → ι
  | .load i _ _ => i
  | .finish i => i
  | .write i _ _ => i

/-- The descriptor `i` has read its counter. -/
def Sys.load (s : Sys ι) (i : ι) (l : Loaded) : Sys ι where
  counters := s.counters
  handle := Function.update s.handle i { s.handle i with loaded := some l }

/-- The descriptor `i`, whose counter is that of `f`, gets a reply. -/
def Sys.reply (s : Sys ι) (i : ι) (f : CounterFile) (r : Reply) : Sys ι where
  counters := Function.update s.counters f r.counter
  handle := Function.update s.handle i ⟨r.offset, none, (s.handle i).replies ++ [r]⟩

/-- One step; descriptor `i` has been opened on the file `file i`. -/
def Sys.step (file : ι → CounterFile) (s : Sys ι) : Act ι → Option (Sys ι)
  | .load i count fault =>
    match (s.handle i).loaded with
    | none => some (s.load i ⟨s.counters (file i), count, fault⟩)
    | some _ => none
  | .finish i =>
    match (s.handle i).loaded with
    | none => none
    | some l => some (s.reply i (file i)
        (finishRead l.v (s.counters (file i)) (s.handle i).offset l.count l.fault))
  | .write i buf fault =>
    match (s.handle i).loaded with
    | none => some (s.reply i (file i)
        (jifsWriteFile (s.counters (file i)) (s.handle i).offset buf fault))
    | some _ => none

/-- An interleaving. -/
def Sys.run (file : ι → CounterFile) (s : Sys ι) (acts : List (Act ι)) : Option (Sys ι) :=
  acts.foldlM (Sys.step file) s

variable {file : ι → CounterFile} {f : CounterFile} {s s' t t' : Sys ι} {acts : List (Act ι)}
  {i j : ι}

theorem Sys.run_cons {a : Act ι} : s.run file (a :: acts) = some t ↔
    ∃ s', s.step file a = some s' ∧ s'.run file acts = some t := by
  rw [Sys.run, List.foldlM_cons, Option.bind_eq_bind, Option.bind_eq_some_iff]
  rfl

theorem Sys.load_handle (s : Sys ι) (i j : ι) (l : Loaded) : (s.load i l).handle j =
    if j = i then { s.handle i with loaded := some l } else s.handle j := Function.update_apply ..

theorem Sys.reply_counters (s : Sys ι) (i : ι) (f g : CounterFile) (r : Reply) :
    (s.reply i f r).counters g = if g = f then r.counter else s.counters g :=
  Function.update_apply ..

theorem Sys.reply_handle (s : Sys ι) (i j : ι) (f : CounterFile) (r : Reply) :
    (s.reply i f r).handle j =
      if j = i then ⟨r.offset, none, (s.handle i).replies ++ [r]⟩ else s.handle j :=
  Function.update_apply ..

/-- The three kinds of steps. -/
theorem Sys.step_cases {a : Act ι} (hs : s.step file a = some s') :
    (∃ i count fault, a = .load i count fault ∧ (s.handle i).loaded = none ∧
      s' = s.load i ⟨s.counters (file i), count, fault⟩) ∨
    (∃ i l, a = .finish i ∧ (s.handle i).loaded = some l ∧ s' = s.reply i (file i)
      (finishRead l.v (s.counters (file i)) (s.handle i).offset l.count l.fault)) ∨
    ∃ i buf fault, a = .write i buf fault ∧ (s.handle i).loaded = none ∧ s' = s.reply i (file i)
      (jifsWriteFile (s.counters (file i)) (s.handle i).offset buf fault) := by
  cases a with
  | load i count fault =>
    rw [Sys.step] at hs
    cases hl : (s.handle i).loaded with
    | none =>
      rw [hl] at hs
      exact Or.inl ⟨i, count, fault, rfl, hl, (Option.some.inj hs).symm⟩
    | some l =>
      rw [hl] at hs
      cases hs
  | finish i =>
    rw [Sys.step] at hs
    cases hl : (s.handle i).loaded with
    | none =>
      rw [hl] at hs
      cases hs
    | some l =>
      rw [hl] at hs
      exact Or.inr (Or.inl ⟨i, l, rfl, hl, (Option.some.inj hs).symm⟩)
  | write i buf fault =>
    rw [Sys.step] at hs
    cases hl : (s.handle i).loaded with
    | none =>
      rw [hl] at hs
      exact Or.inr (Or.inr ⟨i, buf, fault, rfl, hl, (Option.some.inj hs).symm⟩)
    | some l =>
      rw [hl] at hs
      cases hs

/-! ### The files do not meet -/

/-- Two states show the same to the descriptors of `f`. -/
structure Agree (file : ι → CounterFile) (f : CounterFile) (s t : Sys ι) : Prop where
  counters : s.counters f = t.counters f
  handle : ∀ i, file i = f → s.handle i = t.handle i

theorem Agree.reply (h : Agree file f s t) (hi : file i = f) (r : Reply) :
    Agree file f (s.reply i (file i) r) (t.reply i (file i) r) := by
  constructor
  · rw [Sys.reply_counters, Sys.reply_counters, if_pos hi.symm, if_pos hi.symm]
  · intro j hj
    rw [Sys.reply_handle, Sys.reply_handle, h.handle i hi, h.handle j hj]

/-- A step on `f` sees what the descriptors of `f` see. -/
theorem Agree.step (h : Agree file f s t) {a : Act ι} (ha : file a.handle = f)
    (hs : s.step file a = some s') : ∃ t', t.step file a = some t' ∧ Agree file f s' t' := by
  obtain ⟨i, count, fault, rfl, hl, rfl⟩ | ⟨i, l, rfl, hl, rfl⟩ |
    ⟨i, buf, fault, rfl, hl, rfl⟩ := Sys.step_cases hs
  · obtain rfl : file i = f := ha
    rw [h.handle i rfl] at hl
    have ht : t.step file (.load i count fault)
        = some (t.load i ⟨t.counters (file i), count, fault⟩) := by simp only [Sys.step, hl]
    refine ⟨_, ht, h.counters, ?_⟩
    intro j hj
    rw [Sys.load_handle, Sys.load_handle, h.handle i rfl, h.handle j hj, h.counters]
  · obtain rfl : file i = f := ha
    rw [h.handle i rfl] at hl
    have ht : t.step file (.finish i) = some (t.reply i (file i)
        (finishRead l.v (t.counters (file i)) (t.handle i).offset l.count l.fault)) := by
      simp only [Sys.step, hl]
    refine ⟨_, ht, ?_⟩
    rw [h.counters, h.handle i rfl]
    exact h.reply rfl _
  · obtain rfl : file i = f := ha
    rw [h.handle i rfl] at hl
    have ht : t.step file (.write i buf fault) = some (t.reply i (file i)
        (jifsWriteFile (t.counters (file i)) (t.handle i).offset buf fault)) := by
      simp only [Sys.step, hl]
    refine ⟨_, ht, ?_⟩
    rw [h.counters, h.handle i rfl]
    exact h.reply rfl _

/-- A step on the other file is not seen. -/
theorem Agree.step_other (h : Agree file f s t) {a : Act ι} (ha : file a.handle ≠ f)
    (hs : s.step file a = some s') : Agree file f s' t := by
  have hne {i j : ι} (hi : file i ≠ f) (hj : file j = f) : j ≠ i := by
    rintro rfl
    exact hi hj
  have hreply {i : ι} (hi : file i ≠ f) (r : Reply) : Agree file f (s.reply i (file i) r) t := by
    constructor
    · rw [Sys.reply_counters, if_neg hi.symm, h.counters]
    · intro j hj
      rw [Sys.reply_handle, if_neg (hne hi hj), h.handle j hj]
  obtain ⟨i, count, fault, rfl, hl, rfl⟩ | ⟨i, l, rfl, hl, rfl⟩ |
    ⟨i, buf, fault, rfl, hl, rfl⟩ := Sys.step_cases hs
  · have hi : file i ≠ f := ha
    refine ⟨h.counters, ?_⟩
    intro j hj
    rw [Sys.load_handle, if_neg (hne hi hj), h.handle j hj]
  · exact hreply ha _
  · exact hreply ha _

theorem Agree.run (h : Agree file f s t) (hrun : s.run file acts = some s') :
    ∃ t', t.run file (acts.filter (fun a ↦ file a.handle = f)) = some t' ∧
      Agree file f s' t' := by
  induction acts generalizing s t with
  | nil =>
    cases hrun
    exact ⟨t, rfl, h⟩
  | cons a acts ih =>
    obtain ⟨s₁, hs, hrun⟩ := Sys.run_cons.mp hrun
    rw [List.filter_cons]
    by_cases ha : file a.handle = f
    · obtain ⟨t₁, ht, h₁⟩ := h.step ha hs
      obtain ⟨t', hrun', h'⟩ := ih h₁ hrun
      rw [if_pos (decide_eq_true ha)]
      exact ⟨t', Sys.run_cons.mpr ⟨t₁, ht, hrun'⟩, h'⟩
    · rw [if_neg (by rwa [decide_eq_true_eq])]
      exact ih (h.step_other ha hs) hrun

/-- In every interleaving the calls on one file see what they would see alone. -/
theorem sys_run_filter (hrun : s.run file acts = some s') (f : CounterFile) :
    ∃ t', s.run file (acts.filter (fun a ↦ file a.handle = f)) = some t' ∧
      t'.counters f = s'.counters f ∧ ∀ i, file i = f → t'.handle i = s'.handle i := by
  obtain ⟨t', hrun', h⟩ := Agree.run ⟨rfl, fun _ _ ↦ rfl⟩ hrun
  exact ⟨t', hrun', h.counters.symm, fun i hi ↦ (h.handle i hi).symm⟩

/-- A descriptor on each file; the write to one comes between the steps of a read of the other. -/
def bothFiles : List (Act Bool) := [.load false 5 false, .write true ['7'] false, .finish false]

/-- The file of each of two descriptors. -/
def oneEach : Bool → CounterFile
  | false => .counter
  | true => .subcounter

/-- `sys_run_filter` of interleaved reads of the two files. -/
theorem sys_run_filter_both_files :
    ∃ s' t', (Sys.mounted Bool).run oneEach bothFiles = some s' ∧
      (Sys.mounted Bool).run oneEach [.load false 5 false, .finish false] = some t' ∧
      t'.handle false = s'.handle false := by
  have hrun : (Sys.mounted Bool).run oneEach bothFiles = some _ := rfl
  obtain ⟨t', ht, -, hh⟩ := sys_run_filter hrun .counter
  exact ⟨_, t', hrun, ht, hh false rfl⟩

/-! ### Tickets -/

/-- Descriptor `j` is between the two atomic steps of a read from the start of `f`. -/
def Sys.Busy (file : ι → CounterFile) (f : CounterFile) (s : Sys ι) (j : ι) : Prop :=
  file j = f ∧ (s.handle j).loaded ≠ none ∧ (s.handle j).offset = 0

instance decidableSysBusy (s : Sys ι) (j : ι) : Decidable (s.Busy file f j) :=
  inferInstanceAs (Decidable (_ ∧ _ ∧ _))

/-- The value that a read from the start of `f` loads. -/
def Sys.ticket (file : ι → CounterFile) (f : CounterFile) (s : Sys ι) : Act ι → Option (BitVec 32)
  | .load i _ _ => if file i = f ∧ (s.handle i).offset = 0 then some (s.counters f) else none
  | .finish _ => none
  | .write _ _ _ => none

/-- The values that the reads from the start of `f` load, in order. -/
def tickets (file : ι → CounterFile) (f : CounterFile) : Sys ι → List (Act ι) → List (BitVec 32)
  | _, [] => []
  | s, a :: acts => (s.ticket file f a).toList ++
      match s.step file a with
      | none => []
      | some s' => tickets file f s' acts

/-- No read from the start of `f` begins while another one is between its steps. -/
def Apart (file : ι → CounterFile) (f : CounterFile) : Sys ι → List (Act ι) → Prop
  | _, [] => True
  | s, a :: acts => (s.ticket file f a ≠ none → ∀ j, ¬ s.Busy file f j) ∧
      ∀ s' ∈ s.step file a, Apart file f s' acts

/-- The reads of `f` between their steps are those of `P`; `n` have begun, at a counter `c`. -/
structure Pending (file : ι → CounterFile) (f : CounterFile) (s : Sys ι) (P : Finset ι)
    (c : BitVec 32) (n : Nat) : Prop where
  mem : ∀ j, j ∈ P ↔ s.Busy file f j
  counter : s.counters f + BitVec.ofNat 32 P.card = c + BitVec.ofNat 32 n
  card_le : P.card ≤ n

variable {P : Finset ι} {c : BitVec 32} {n : Nat}

omit [DecidableEq ι] in
theorem Sys.ticket_eq_some {a : Act ι} {v : BitVec 32} (h : s.ticket file f a = some v) :
    v = s.counters f ∧ ∃ i count fault, a = .load i count fault ∧ file i = f ∧
      (s.handle i).offset = 0 := by
  cases a with
  | load i count fault =>
    rw [Sys.ticket] at h
    split at h
    · next hi =>
      cases h
      exact ⟨rfl, i, count, fault, rfl, hi.1, hi.2⟩
    · cases h
  | finish i => cases h
  | write i buf fault => cases h

omit [DecidableEq ι] in
/-- The number of increments so far is what the counter shows. -/
theorem Pending.counter_eq (h : Pending file f s P c n) :
    s.counters f = c + BitVec.ofNat 32 (n - P.card) := by
  have hc := h.counter
  have hle := h.card_le
  have hn : BitVec.ofNat 32 n = BitVec.ofNat 32 (n - P.card) + BitVec.ofNat 32 P.card := by
    rw [← BitVec.ofNat_add, Nat.sub_add_cancel hle]
  rw [hn, ← BitVec.add_assoc] at hc
  exact (BitVec.add_left_inj _).mp hc

/-- A reply that leaves no descriptor of `f` between its steps that was not there before. -/
theorem Pending.reply_other (h : Pending file f s P c n) {r : Reply} (hi : ¬ s.Busy file f i)
    (hr : file i = f → r.counter = s.counters f) :
    Pending file f (s.reply i (file i) r) P c n := by
  refine ⟨?_, ?_, h.card_le⟩
  · intro j
    rw [h.mem, Sys.Busy, Sys.Busy, Sys.reply_handle]
    by_cases hj : j = i
    · subst hj
      rw [if_pos rfl]
      exact iff_of_false hi (fun hb ↦ hb.2.1 rfl)
    · rw [if_neg hj]
  · rw [Sys.reply_counters]
    split
    · next hf => rw [hr hf.symm, h.counter]
    · exact h.counter

/-- A read from the start of `f` begins. -/
theorem Pending.load_start (h : Pending file f s P c n) (hl : (s.handle i).loaded = none)
    (hi : file i = f) (h0 : (s.handle i).offset = 0) (l : Loaded) :
    Pending file f (s.load i l) (insert i P) c (n + 1) := by
  have hnot : i ∉ P := fun hm ↦ ((h.mem i).mp hm).2.1 hl
  have hcard := Finset.card_insert_of_notMem hnot
  refine ⟨?_, ?_, hcard ▸ Nat.succ_le_succ h.card_le⟩
  · intro j
    rw [Finset.mem_insert, h.mem, Sys.Busy, Sys.Busy, Sys.load_handle]
    by_cases hj : j = i
    · subst hj
      rw [if_pos rfl]
      exact iff_of_true (Or.inl rfl) ⟨hi, Option.some_ne_none _, h0⟩
    · rw [if_neg hj]
      exact or_iff_right hj
  · rw [hcard, BitVec.ofNat_add, ← BitVec.add_assoc]
    change s.counters f + _ + _ = c + BitVec.ofNat 32 (n + 1)
    rw [h.counter, BitVec.ofNat_add, BitVec.add_assoc]

/-- Another read begins: of the other file, or behind the start of the text. -/
theorem Pending.load_other (h : Pending file f s P c n) (hl : (s.handle i).loaded = none)
    (hi : ¬ (file i = f ∧ (s.handle i).offset = 0)) (l : Loaded) :
    Pending file f (s.load i l) P c n := by
  refine ⟨?_, h.counter, h.card_le⟩
  intro j
  rw [h.mem, Sys.Busy, Sys.Busy, Sys.load_handle]
  by_cases hj : j = i
  · subst hj
    rw [if_pos rfl]
    exact iff_of_false (fun hb ↦ hb.2.1 hl) (fun hb ↦ hi ⟨hb.1, hb.2.2⟩)
  · rw [if_neg hj]

/-- A read from the start of `f` ends, and only now shows in the counter. -/
theorem Pending.finish_start (h : Pending file f s P c n) (hi : s.Busy file f i) (l : Loaded) :
    Pending file f (s.reply i (file i)
      (finishRead l.v (s.counters (file i)) (s.handle i).offset l.count l.fault))
      (P.erase i) c n := by
  have hm := (h.mem i).mpr hi
  obtain ⟨hf, -, h0⟩ := hi
  refine ⟨?_, ?_, (Finset.card_le_card (Finset.erase_subset i P)).trans h.card_le⟩
  · intro j
    rw [Finset.mem_erase, h.mem, Sys.Busy, Sys.Busy, Sys.reply_handle]
    by_cases hj : j = i
    · subst hj
      rw [if_pos rfl]
      exact iff_of_false (fun hb ↦ hb.1 rfl) (fun hb ↦ hb.2.1 rfl)
    · rw [if_neg hj]
      exact and_iff_right hj
  · rw [Sys.reply_counters, if_pos hf.symm, finishRead_counter, if_pos h0, hf]
    rw [← h.counter, ← Finset.card_erase_add_one hm, BitVec.ofNat_add, BitVec.add_assoc,
      BitVec.add_comm 1]
    rfl

/-- A step that is no write to `f` either begins a read or ends one. -/
theorem Pending.step (h : Pending file f s P c n) {a : Act ι} (hs : s.step file a = some s')
    (hw : ∀ i buf fault, a = .write i buf fault → file i ≠ f) :
    ∃ P', Pending file f s' P' c (n + (s.ticket file f a).toList.length) := by
  obtain ⟨i, count, fault, rfl, hl, rfl⟩ | ⟨i, l, rfl, hl, rfl⟩ |
    ⟨i, buf, fault, rfl, hl, rfl⟩ := Sys.step_cases hs
  · by_cases hi : file i = f ∧ (s.handle i).offset = 0
    · rw [Sys.ticket, if_pos hi]
      exact ⟨insert i P, h.load_start hl hi.1 hi.2 _⟩
    · rw [Sys.ticket, if_neg hi]
      exact ⟨P, h.load_other hl hi _⟩
  · by_cases hi : s.Busy file f i
    · exact ⟨P.erase i, h.finish_start hi l⟩
    · refine ⟨P, h.reply_other hi ?_⟩
      intro hf
      rw [finishRead_counter, if_neg, hf]
      intro h0
      exact hi ⟨hf, by rw [hl]; exact Option.some_ne_none _, h0⟩
  · have hi := hw i buf fault rfl
    exact ⟨P, h.reply_other (fun hb ↦ hi hb.1) (fun hf ↦ absurd hf hi)⟩

theorem tickets_cons {a : Act ι} (hs : s.step file a = some s') :
    tickets file f s (a :: acts) = (s.ticket file f a).toList ++ tickets file f s' acts := by
  rw [tickets, hs]

theorem Pending.run (h : Pending file f s P c n)
    (hw : ∀ i buf fault, Act.write i buf fault ∈ acts → file i ≠ f)
    (hrun : s.run file acts = some s') :
    ∃ P', Pending file f s' P' c (n + (tickets file f s acts).length) := by
  induction acts generalizing s P n with
  | nil =>
    cases hrun
    exact ⟨P, h⟩
  | cons a acts ih =>
    obtain ⟨s₁, hs, hrun⟩ := Sys.run_cons.mp hrun
    obtain ⟨P₁, h₁⟩ := h.step hs (fun i buf fault ha ↦ hw i buf fault (ha ▸ List.mem_cons_self))
    obtain ⟨P', h'⟩ := ih h₁ (fun i buf fault ha ↦ hw i buf fault (List.mem_cons_of_mem a ha)) hrun
    rw [tickets_cons hs, List.length_append, ← Nat.add_assoc]
    exact ⟨P', h'⟩

/-- The first `n` tickets from `c` on. -/
def ticketsFrom (c : BitVec 32) (n : Nat) : List (BitVec 32) :=
  (List.range n).map (fun j ↦ c + BitVec.ofNat 32 j)

theorem ticketsFrom_nodup (hn : n ≤ 2 ^ 32) : (ticketsFrom c n).Nodup := by
  refine List.Nodup.map_on ?_ List.nodup_range
  intro x hx y hy hxy
  rw [List.mem_range] at hx hy
  have h := congrArg BitVec.toNat ((BitVec.add_right_inj c).mp hxy)
  rwa [BitVec.toNat_ofNat, BitVec.toNat_ofNat, Nat.mod_eq_of_lt (by omega),
    Nat.mod_eq_of_lt (by omega)] at h

/-- Induction on the interleaving: as long as the reads have been apart their tickets are
consecutive, and a read that is not gets a ticket that was there before. -/
theorem Pending.nodup_iff (h : Pending file f s P c n)
    (hw : ∀ i buf fault, Act.write i buf fault ∈ acts → file i ≠ f)
    (hrun : s.run file acts = some s') (hfew : n + (tickets file f s acts).length ≤ 2 ^ 32) :
    (ticketsFrom c n ++ tickets file f s acts).Nodup ↔ Apart file f s acts := by
  induction acts generalizing s P n with
  | nil =>
    rw [tickets, List.append_nil]
    exact iff_of_true (ticketsFrom_nodup (by simpa [tickets] using hfew)) trivial
  | cons a acts ih =>
    obtain ⟨s₁, hs, hrun⟩ := Sys.run_cons.mp hrun
    obtain ⟨P₁, h₁⟩ := h.step hs (fun i buf fault ha ↦ hw i buf fault (ha ▸ List.mem_cons_self))
    have ih' := ih h₁ (fun i buf fault ha ↦ hw i buf fault (List.mem_cons_of_mem a ha)) hrun
    rw [tickets_cons hs, List.length_append, ← Nat.add_assoc] at hfew
    rw [tickets_cons hs, Apart, hs]
    have hnext : (∀ s' ∈ some s₁, Apart file f s' acts) ↔ Apart file f s₁ acts := by
      simp only [Option.mem_some_iff, forall_eq']
    rw [hnext, ← ih' hfew]
    cases ha : s.ticket file f a with
    | none => simp
    | some v =>
      obtain ⟨rfl, -⟩ := Sys.ticket_eq_some ha
      rw [h.counter_eq]
      by_cases hP : P = ∅
      · subst hP
        have hidle (j : ι) : ¬ s.Busy file f j := fun hb ↦ by simpa using (h.mem j).mpr hb
        have hjoin : ticketsFrom c n ++ ([c + BitVec.ofNat 32 n] ++ tickets file f s₁ acts)
            = ticketsFrom c (n + 1) ++ tickets file f s₁ acts := by
          rw [ticketsFrom, ticketsFrom, List.range_succ, List.map_append, List.append_assoc]
          rfl
        rw [Finset.card_empty, Nat.sub_zero]
        exact (iff_of_eq (congrArg List.Nodup hjoin)).trans
          (and_iff_right (fun _ j ↦ hidle j)).symm
      · obtain ⟨j, hj⟩ := Finset.nonempty_iff_ne_empty.mpr hP
        have hpos : 0 < P.card := Finset.card_pos.mpr ⟨j, hj⟩
        have hle := h.card_le
        refine iff_of_false ?_ (fun hap ↦ hap.1 (Option.some_ne_none _) j ((h.mem j).mp hj))
        intro hd
        refine (List.nodup_append.mp hd).2.2 _ ?_ _ List.mem_cons_self rfl
        exact List.mem_map.mpr ⟨n - P.card, List.mem_range.mpr (by omega), rfl⟩

/-- In an interleaving without a write to a file that begins and ends with no read of it between
its two steps, the counter of the file advances by the number of reads from its start, whatever
else happens meanwhile; but these reads all show different values exactly when none of them begins
while another one is between its steps. -/
theorem tickets_run (hw : ∀ i buf fault, Act.write i buf fault ∈ acts → file i ≠ f)
    (hrun : s.run file acts = some s') (hs : ∀ j, ¬ s.Busy file f j)
    (hs' : ∀ j, ¬ s'.Busy file f j) :
    s'.counters f = s.counters f + BitVec.ofNat 32 (tickets file f s acts).length ∧
      ((tickets file f s acts).length ≤ 2 ^ 32 →
        ((tickets file f s acts).Nodup ↔ Apart file f s acts)) := by
  have h : Pending file f s ∅ (s.counters f) 0 := by
    refine ⟨?_, rfl, Nat.le_refl 0⟩
    intro j
    exact iff_of_false (Finset.notMem_empty j) (hs j)
  constructor
  · obtain ⟨P', h'⟩ := h.run hw hrun
    have hP' : P' = ∅ := by
      rw [Finset.eq_empty_iff_forall_notMem]
      exact fun j hj ↦ hs' j ((h'.mem j).mp hj)
    rw [h'.counter_eq, hP', Finset.card_empty, Nat.zero_add, Nat.sub_zero]
  · intro hfew
    exact h.nodup_iff hw hrun (by rwa [Nat.zero_add])

/-- Two reads at the same time. -/
def twoAtOnce : List (Act Bool) :=
  [.load false 5 false, .load true 5 false, .finish true, .finish false]

/-- Both show 0, and the counter is 2 afterwards. -/
theorem tickets_run_two_at_once :
    ∃ s', (Sys.mounted Bool).run (fun _ ↦ .counter) twoAtOnce = some s' ∧
      s'.counters .counter = 2 ∧
      ¬ Apart (fun _ ↦ .counter) .counter (Sys.mounted Bool) twoAtOnce := by
  have hrun : (Sys.mounted Bool).run (fun _ ↦ .counter) twoAtOnce = some _ := rfl
  have h := tickets_run (f := .counter) (by simp [twoAtOnce]) hrun (by decide) (by decide)
  refine ⟨_, hrun, h.1, ?_⟩
  rw [← h.2 (by decide)]
  decide

end Jeopardy.Jifs
