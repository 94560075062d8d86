import Jeopardy.Jifs.File

/-!
# Several descriptors on one counter file

The descriptors share the counter and have an offset each. A call of `jifs_read_file` is one
step. A descriptor that starts to read while another is half through moves the counter away
from what the other's later reads are based on.
-/

namespace Jeopardy.Jifs

/-- An open descriptor: its offset, the bytes collected up to its first 0 result, the counter
value at its first read, and whether it has had its 0. -/
structure Desc where
  offset : Nat
  data : List Char
  first : Option (BitVec 32)
  ended : Bool
deriving DecidableEq

/-- `jifs_open`, `JIFS/file.c:31–35`: the descriptor starts at offset 0. -/
def jifsOpen : Desc := ⟨0, [], none, false⟩

/-- The counter and the descriptors that share it. -/
structure Readers (ι : Type) where
  counter : BitVec 32
  desc : ι → Desc

variable {ι : Type} [DecidableEq ι]

/-- The descriptor after a reply. -/
def Desc.receive (d : Desc) (counter : BitVec 32) (r : Reply) : Desc where
  offset := r.offset
  data := if d.ended then d.data else d.data ++ r.data
  first := if d.offset = 0 then some counter else d.first
  ended := d.ended || r.ret == 0

/-- One read of `count` bytes through descriptor `i`. -/
def Readers.step (s : Readers ι) (call : ι × Nat) : Readers ι :=
  let r := jifsReadFile s.counter (s.desc call.1).offset call.2 false
  { counter := r.counter
    desc := Function.update s.desc call.1 ((s.desc call.1).receive s.counter r) }

/-- An interleaving of reads, from descriptors just opened. -/
def Readers.run (counter : BitVec 32) (calls : List (ι × Nat)) : Readers ι :=
  calls.foldl Readers.step ⟨counter, fun _ ↦ jifsOpen⟩

/-- Descriptor `d` is between its first read and its first 0 result. -/
def Desc.busy (d : Desc) : Prop := d.offset ≠ 0 ∧ d.ended = false

/-- A call keeps out of the others' way: it starts no reading while another one is busy. -/
def Quiet (s : Readers ι) (call : ι × Nat) : Prop :=
  (s.desc call.1).offset = 0 → ∀ j : ι, j ≠ call.1 → ¬ (s.desc j).busy

instance (d : Desc) : Decidable d.busy := inferInstanceAs (Decidable (_ ∧ _))

instance [Fintype ι] (s : Readers ι) (call : ι × Nat) : Decidable (Quiet s call) :=
  inferInstanceAs (Decidable (_ → ∀ _ : ι, _ → ¬ _))

/-- Every call of an interleaving is quiet when it comes. -/
def AllQuiet (s : Readers ι) : List (ι × Nat) → Prop
  | [] => True
  | call :: calls => Quiet s call ∧ AllQuiet (s.step call) calls

instance decidableAllQuiet [Fintype ι] :
    (s : Readers ι) → (calls : List (ι × Nat)) → Decidable (AllQuiet s calls)
  | _, [] => .isTrue trivial
  | s, call :: calls =>
    have := decidableAllQuiet (s.step call) calls
    inferInstanceAs (Decidable (_ ∧ _))

/-- The bytes a descriptor has collected fit the value of its first read, and as long as it
is busy the counter stands one above that value. -/
def Desc.Fits (counter : BitVec 32) (d : Desc) : Prop :=
  match d.first with
  | none => d.offset = 0 ∧ d.data = [] ∧ d.ended = false
  | some v => 0 < d.offset ∧
      if d.ended then d.data = text v
      else counter = v + 1 ∧ d.offset ≤ (text v).length ∧ d.data = (text v).take d.offset

/-- No descriptor has collected torn bytes: what it has up to its first 0 is the text of the
counter value at its first read. -/
def Untorn (s : Readers ι) : Prop :=
  ∀ i, ((s.desc i).ended = true → ∃ v, (s.desc i).first = some v ∧ (s.desc i).data = text v) ∧
    ∀ v, (s.desc i).first = some v → (s.desc i).data <+: text v

theorem Desc.Fits.open (counter : BitVec 32) : jifsOpen.Fits counter := ⟨rfl, rfl, rfl⟩

/-- A descriptor that is not busy does not depend on the counter. -/
theorem Desc.Fits.of_not_busy {counter counter' : BitVec 32} {d : Desc} (h : d.Fits counter)
    (hb : ¬ d.busy) : d.Fits counter' := by
  unfold Desc.Fits at h ⊢
  cases hf : d.first with
  | none =>
    rw [hf] at h
    exact h
  | some v =>
    rw [hf] at h
    obtain ⟨hpos, h⟩ := h
    refine ⟨hpos, ?_⟩
    by_cases he : d.ended
    · rw [if_pos he] at h ⊢
      exact h
    · exact absurd ⟨hpos.ne', by simpa using he⟩ hb

/-- The first read of a descriptor. -/
theorem Desc.Fits.first {counter : BitVec 32} {d : Desc} (h : d.Fits counter) (h0 : d.offset = 0)
    {count : Nat} (hcount : 0 < count) :
    (d.receive counter (jifsReadFile counter d.offset count false)).Fits (counter + 1) := by
  have hd : d.data = [] ∧ d.ended = false := by
    unfold Desc.Fits at h
    cases hf : d.first with
    | none => rw [hf] at h; exact h.2
    | some v => rw [hf] at h; exact absurd h0 h.1.ne'
  have hlen := (length_text counter).1
  have hne : ¬ ((min count (text counter).length : Nat) : Int) = 0 := by omega
  rw [h0, jifsReadFile_first, Desc.receive, Desc.Fits]
  simp only [h0, if_true, hd.1, hd.2, Bool.false_or, List.nil_append, beq_iff_eq, hne, if_false,
    Bool.false_eq_true]
  exact ⟨by omega, trivial, Nat.min_le_right _ _, trivial⟩

/-- A later read of a busy descriptor. -/
theorem Desc.Fits.later {counter : BitVec 32} {d : Desc} (h : d.Fits counter) (hb : d.busy)
    {count : Nat} (hcount : 0 < count) :
    (jifsReadFile counter d.offset count false).counter = counter ∧
      (d.receive counter (jifsReadFile counter d.offset count false)).Fits counter := by
  obtain ⟨hne, hend⟩ := hb
  unfold Desc.Fits at h
  cases hf : d.first with
  | none => rw [hf] at h; exact absurd h.1 hne
  | some v =>
    rw [hf] at h
    obtain ⟨hpos, h⟩ := h
    rw [hend, if_neg Bool.false_ne_true] at h
    obtain ⟨hc, hle, hdata⟩ := h
    subst hc
    rw [jifsReadFile_later v hpos hle]
    refine ⟨rfl, ?_⟩
    rw [Desc.receive, Desc.Fits]
    simp only [if_neg hne, hf, hend, Bool.false_or, Bool.false_eq_true, if_false]
    refine ⟨by omega, ?_⟩
    have hjoin : d.data ++ ((text v).drop d.offset).take
        (min count ((text v).length - d.offset))
          = (text v).take (d.offset + min count ((text v).length - d.offset)) := by
      rw [hdata, List.take_add]
    by_cases hz : min count ((text v).length - d.offset) = 0
    · rw [if_pos (by simp [hz]), hjoin, hz, Nat.add_zero]
      exact List.take_of_length_le (by omega)
    · have hz' : ¬ ((min count ((text v).length - d.offset) : Nat) : Int) = 0 := by omega
      rw [if_neg (by rw [beq_iff_eq]; exact hz')]
      exact ⟨trivial, by omega, hjoin⟩

/-- A read after the first 0 changes neither the bytes nor the counter. -/
theorem Desc.Fits.after {counter : BitVec 32} {d : Desc} (h : d.Fits counter)
    (he : d.ended = true) (count : Nat) :
    (jifsReadFile counter d.offset count false).counter = counter ∧
      (d.receive counter (jifsReadFile counter d.offset count false)).Fits counter := by
  unfold Desc.Fits at h
  cases hf : d.first with
  | none => rw [hf] at h; exact absurd h.2.2 (by simp [he])
  | some v =>
    rw [hf] at h
    obtain ⟨hpos, h⟩ := h
    rw [if_pos he] at h
    have hread : (jifsReadFile counter d.offset count false).counter = counter ∧
        0 < (jifsReadFile counter d.offset count false).offset := by
      simp only [jifsReadFile, gt_iff_lt, hpos, if_true]
      split
      · exact ⟨rfl, hpos⟩
      · exact ⟨rfl, by simp; omega⟩
    refine ⟨hread.1, ?_⟩
    rw [Desc.receive, Desc.Fits]
    simp only [if_neg hpos.ne', hf, he, Bool.true_or, if_true]
    exact ⟨hread.2, h⟩

/-- A quiet call keeps every descriptor fitting. -/
theorem step_fits {s : Readers ι} (h : ∀ i, (s.desc i).Fits s.counter) {call : ι × Nat}
    (hcount : 0 < call.2) (hq : Quiet s call) (i : ι) :
    ((s.step call).desc i).Fits (s.step call).counter := by
  obtain ⟨c, count⟩ := call
  by_cases h0 : (s.desc c).offset = 0
  · have hcounter : (s.step (c, count)).counter = s.counter + 1 := by
      show (jifsReadFile s.counter (s.desc c).offset count false).counter = _
      rw [h0, jifsReadFile_first]
    rw [hcounter]
    by_cases hic : i = c
    · subst hic
      show (Function.update s.desc i _ i).Fits _
      rw [Function.update_self]
      exact (h i).first h0 hcount
    · show (Function.update s.desc c _ i).Fits _
      rw [Function.update_of_ne hic]
      exact (h i).of_not_busy (hq h0 i hic)
  · have hstep : (jifsReadFile s.counter (s.desc c).offset count false).counter = s.counter ∧
        ((s.desc c).receive s.counter
          (jifsReadFile s.counter (s.desc c).offset count false)).Fits s.counter := by
      by_cases he : (s.desc c).ended = true
      · exact (h c).after he count
      · exact (h c).later ⟨h0, by simpa using he⟩ hcount
    show (Function.update s.desc c _ i).Fits
      (jifsReadFile s.counter (s.desc c).offset count false).counter
    rw [hstep.1]
    by_cases hic : i = c
    · subst hic
      rw [Function.update_self]
      exact hstep.2
    · rw [Function.update_of_ne hic]
      exact h i

theorem foldl_fits {s : Readers ι} (h : ∀ i, (s.desc i).Fits s.counter)
    {calls : List (ι × Nat)} (hcounts : ∀ call ∈ calls, 0 < call.2) (hq : AllQuiet s calls)
    (i : ι) : ((calls.foldl Readers.step s).desc i).Fits (calls.foldl Readers.step s).counter := by
  induction calls generalizing s with
  | nil => exact h i
  | cons call calls ih =>
    exact ih (step_fits h (hcounts call List.mem_cons_self) hq.1)
      (fun c hc ↦ hcounts c (List.mem_cons_of_mem _ hc)) hq.2

/-- In an interleaving in which no descriptor starts while another is busy, nothing is torn. -/
theorem untorn_run (counter : BitVec 32) {calls : List (ι × Nat)}
    (hcounts : ∀ call ∈ calls, 0 < call.2)
    (hq : AllQuiet ⟨counter, fun _ ↦ jifsOpen⟩ calls) : Untorn (Readers.run counter calls) := by
  intro i
  have h := foldl_fits (fun _ ↦ Desc.Fits.open counter) hcounts hq i
  show _ ∧ _
  unfold Desc.Fits at h
  cases hf : ((calls.foldl Readers.step ⟨counter, fun _ ↦ jifsOpen⟩).desc i).first with
  | none =>
    rw [hf] at h
    refine ⟨fun he ↦ ?_, fun v hv ↦ ?_⟩
    · exact absurd he (by rw [Readers.run, h.2.2]; simp)
    · rw [Readers.run, hf] at hv
      exact absurd hv (by simp)
  | some v =>
    rw [hf] at h
    obtain ⟨-, h⟩ := h
    refine ⟨fun he ↦ ?_, fun w hw ↦ ?_⟩
    · rw [Readers.run] at he ⊢
      rw [if_pos he] at h
      exact ⟨v, hf, h⟩
    · rw [Readers.run] at hw ⊢
      rw [hf, Option.some.injEq] at hw
      subst hw
      split at h
      · exact h ▸ List.prefix_refl _
      · rw [h.2.2]
        exact List.take_prefix _ _

/-- Two descriptors that read one after the other, the second in chunks of one byte. -/
theorem untorn_run_in_turn :
    AllQuiet (⟨9, fun _ ↦ jifsOpen⟩ : Readers Bool)
        [(false, 1), (false, 5), (false, 1), (true, 1), (true, 1), (true, 1), (true, 1)] ∧
      Untorn (Readers.run 9
        [(false, 1), (false, 5), (false, 1), (true, 1), (true, 1), (true, 1), (true, 1)]) := by
  have hq : AllQuiet (⟨9, fun _ ↦ jifsOpen⟩ : Readers Bool)
      [(false, 1), (false, 5), (false, 1), (true, 1), (true, 1), (true, 1), (true, 1)] := by
    decide
  exact ⟨hq, untorn_run 9 (by decide) hq⟩

/-- The second descriptor starts between the two halves of the first one's text. -/
theorem readers_torn : ((Readers.run 9
    [(false, 1), (true, 1), (false, 5), (false, 1)]).desc false).data = ['9', '0', '\n'] ∧
      ¬ Untorn (Readers.run 9 [(false, 1), (true, 1), (false, 5), (false, 1)]) := by
  have hdata : (Readers.run 9
      [(false, 1), (true, 1), (false, 5), (false, 1)]).desc false
        = ⟨3, ['9', '0', '\n'], some 9, true⟩ := by decide
  refine ⟨by rw [hdata], fun h ↦ ?_⟩
  obtain ⟨v, hv, htext⟩ := (h false).1 (by rw [hdata])
  rw [hdata] at hv htext
  cases hv
  exact absurd htext (by decide)

end Jeopardy.Jifs
