import Mathlib

/-!
# The counter file of JIFS

Model of `jifs_read_file` and `jifs_write_file` in `JIFS/file.c`. The counter is an `int`
that wraps around. Text is a list of characters, and the printing and parsing of decimals
follow `snprintf` and `simple_strtol`.
-/

namespace Jeopardy.Jifs

/-- `EFAULT` and `EINVAL` of the kernel. -/
def EFAULT : Int := 14

def EINVAL : Int := 22

/-- Size of the buffer `tmp`, `JIFS/file.c:48,79`. -/
def TMPSIZE : Nat := 20

/-- What `%d` prints. -/
def decimal : Int → List Char
  | .ofNat n => Nat.toDigits 10 n
  | .negSucc n => '-' :: Nat.toDigits 10 (n + 1)

/-- The value of the digits a text begins with. -/
def simpleStrtoull (cs : List Char) : Nat := Nat.ofDigitChars 10 (cs.takeWhile Char.isDigit) 0

/-- `simple_strtol(tmp, NULL, 10)`. -/
def simpleStrtol : List Char → Int
  | '-' :: cs => -(simpleStrtoull cs : Int)
  | cs => simpleStrtoull cs

/-- The text `"%d\n"` of a counter value. -/
def text (v : BitVec 32) : List Char := decimal v.toInt ++ ['\n']

/-- What a call answers: the counter and `*offset` after it, the return value, and the bytes
given to the user. -/
structure Reply where
  counter : BitVec 32
  offset : Nat
  ret : Int
  data : List Char
deriving DecidableEq

/-- `jifs_read_file`, `JIFS/file.c:42–70`; `fault` says whether `copy_to_user` fails. -/
def jifsReadFile (counter : BitVec 32) (offset count : Nat) (fault : Bool) : Reply :=
  let (v, counter) := if offset > 0 then (counter - 1, counter) else (counter, counter + 1)
  let tmp := (text v).take (TMPSIZE - 1)
  let len := (text v).length
  if offset > len then ⟨counter, offset, 0, []⟩
  else
    let count := if count > len - offset then len - offset else count
    if fault then ⟨counter, offset, -EFAULT, []⟩
    else ⟨counter, offset + count, count, (tmp.drop offset).take count⟩

/-- `jifs_write_file`, `JIFS/file.c:75–98`, of the bytes `buf`; `fault` says whether
`copy_from_user` fails. The bytes that `memset` clears end the number. -/
def jifsWriteFile (counter : BitVec 32) (offset : Nat) (buf : List Char) (fault : Bool) : Reply :=
  if offset ≠ 0 then ⟨counter, offset, -EINVAL, []⟩
  else if buf.length ≥ TMPSIZE then ⟨counter, offset, -EINVAL, []⟩
  else if fault then ⟨counter, offset, -EFAULT, []⟩
  else
    let tmp := buf ++ List.replicate (TMPSIZE - buf.length) '\x00'
    ⟨BitVec.ofInt 32 (simpleStrtol tmp), offset, buf.length, []⟩

/-- The replies to reads with the given counts, one after the other through one descriptor. -/
def reads (counter : BitVec 32) (offset : Nat) : List Nat → List Reply
  | [] => []
  | count :: counts =>
    let r := jifsReadFile counter offset count false
    r :: reads r.counter r.offset counts

/-- The bytes of the replies before the first that returns 0. -/
def collected (rs : List Reply) : List Char := (rs.takeWhile (fun r ↦ r.ret ≠ 0)).flatMap Reply.data

/-! ### Decimals -/

theorem simpleStrtoull_toDigits (n : Nat) (k : Nat) :
    simpleStrtoull (Nat.toDigits 10 n ++ List.replicate k '\x00') = n := by
  have hdigits : ∀ c ∈ Nat.toDigits 10 n, c.isDigit = true :=
    fun c hc ↦ Nat.isDigit_of_mem_toDigits (by decide) (by decide) hc
  have htail : (List.replicate k '\x00').takeWhile Char.isDigit = [] := by
    cases k with
    | zero => rfl
    | succ k => rfl
  rw [simpleStrtoull, List.takeWhile_append_of_pos hdigits, htail, List.append_nil,
    Nat.ofDigitChars_ten_toDigits]

theorem toDigits_head_ne (n : Nat) (cs : List Char) : Nat.toDigits 10 n ≠ '-' :: cs := by
  intro h
  have hmem : '-' ∈ Nat.toDigits 10 n := by rw [h]; exact List.mem_cons_self
  exact absurd (Nat.isDigit_of_mem_toDigits (by decide) (by decide) hmem) (by decide)

/-- Parsing a printed decimal gives the number back. -/
theorem simpleStrtol_decimal (i : Int) (k : Nat) :
    simpleStrtol (decimal i ++ List.replicate k '\x00') = i := by
  cases i with
  | ofNat n =>
    show simpleStrtol (Nat.toDigits 10 n ++ _) = _
    have hval := simpleStrtoull_toDigits n k
    generalize hcs : Nat.toDigits 10 n ++ List.replicate k '\x00' = cs at hval
    cases cs with
    | nil =>
      rw [simpleStrtol, hval]
      · rfl
      · simp
    | cons c cs =>
      have hc : c ≠ '-' := by
        rintro rfl
        cases hd : Nat.toDigits 10 n with
        | nil => exact Nat.toDigits_ne_nil hd
        | cons d ds =>
          rw [hd, List.cons_append, List.cons.injEq] at hcs
          exact toDigits_head_ne n ds (hd.trans (by rw [hcs.1]))
      rw [simpleStrtol, hval]
      · rfl
      · intro cs' h
        exact hc (List.cons.inj h).1
  | negSucc n =>
    show simpleStrtol ('-' :: (Nat.toDigits 10 (n + 1) ++ _)) = _
    rw [simpleStrtol, simpleStrtoull_toDigits]
    rfl

theorem length_decimal_le (v : BitVec 32) : (decimal v.toInt).length ≤ 11 := by
  have hlow := BitVec.le_toInt v
  have hhigh := BitVec.toInt_lt (x := v)
  cases h : v.toInt with
  | ofNat n =>
    have hn : n < 10 ^ 10 := by rw [h] at hhigh; simp at hhigh; omega
    have hlen :=
      (Nat.length_toDigits_le_iff (n := n) (by decide : 1 < 10) (by decide : 0 < 10)).mpr hn
    show (Nat.toDigits 10 n).length ≤ 11
    omega
  | negSucc n =>
    have hn : n + 1 < 10 ^ 10 := by rw [h] at hlow; simp at hlow; omega
    have hlen := (Nat.length_toDigits_le_iff (n := n + 1) (by decide : 1 < 10)
      (by decide : 0 < 10)).mpr hn
    show (Nat.toDigits 10 (n + 1)).length + 1 ≤ 11
    omega

theorem length_text (v : BitVec 32) : 2 ≤ (text v).length ∧ (text v).length ≤ 12 := by
  have hle := length_decimal_le v
  have hpos : 0 < (decimal v.toInt).length := by
    cases v.toInt with
    | ofNat n => exact Nat.length_toDigits_pos
    | negSucc n => exact Nat.succ_pos _
  rw [text, List.length_append]
  simp
  omega

/-- The text fits into the buffer. -/
theorem take_text (v : BitVec 32) : (text v).take (TMPSIZE - 1) = text v := by
  have hle := (length_text v).2
  exact List.take_of_length_le (by unfold TMPSIZE; omega)

/-! ### Reads -/

/-- A read at the start of the file. -/
theorem jifsReadFile_first (v : BitVec 32) (count : Nat) : jifsReadFile v 0 count false =
    ⟨v + 1, min count (text v).length, (min count (text v).length : Nat),
      (text v).take (min count (text v).length)⟩ := by
  have hcount : (if count > (text v).length - 0 then (text v).length - 0 else count)
      = min count (text v).length := by
    split <;> omega
  simp only [jifsReadFile, Nat.lt_irrefl, if_false, gt_iff_lt, Nat.not_lt_zero, take_text,
    List.drop_zero, Nat.zero_add]
  rw [← hcount]
  rfl

/-- A later read sees the value of the first as long as nobody else counts. -/
theorem jifsReadFile_later (v : BitVec 32) {offset : Nat} (hpos : 0 < offset)
    (hle : offset ≤ (text v).length) (count : Nat) : jifsReadFile (v + 1) offset count false =
    ⟨v + 1, offset + min count ((text v).length - offset),
      (min count ((text v).length - offset) : Nat),
      ((text v).drop offset).take (min count ((text v).length - offset))⟩ := by
  have hv : v + 1 - 1 = v := BitVec.add_sub_cancel v 1
  have hcount : (if count > (text v).length - offset then (text v).length - offset else count)
      = min count ((text v).length - offset) := by
    split <;> omega
  have hnot : ¬ offset > (text v).length := by omega
  simp only [jifsReadFile, gt_iff_lt, hpos, if_true, hv, take_text]
  rw [if_neg hnot, ← hcount]
  rfl

/-- The replies of a sequence of reads that begins at `offset`, with `v` the value of the
first read. -/
structure Delivers (v : BitVec 32) (offset : Nat) (counts : List Nat) (rs : List Reply) : Prop where
  /-- What is collected is what follows in the text, as far as it goes. -/
  isPrefix : collected rs <+: (text v).drop offset
  complete : (∃ r ∈ rs, r.ret = 0) → collected rs = (text v).drop offset
  ends : (text v).length - offset < counts.length → ∃ r ∈ rs, r.ret = 0
  counter : ∀ r ∈ rs, r.counter = v + 1

/-- One reply in front of the rest. -/
theorem Delivers.cons {v : BitVec 32} {offset n count : Nat} {counts : List Nat} {rs : List Reply}
    (hle : offset + n ≤ (text v).length) (hn : n = 0 → offset = (text v).length)
    (h : Delivers v (offset + n) counts rs) :
    Delivers v offset (count :: counts)
      (⟨v + 1, offset + n, (n : Nat), ((text v).drop offset).take n⟩ :: rs) := by
  by_cases hz : n = 0
  · subst hz
    have hnil : (text v).drop offset = [] := List.drop_of_length_le (by rw [hn rfl])
    refine ⟨?_, fun _ ↦ ?_, fun _ ↦ ⟨_, List.mem_cons_self, rfl⟩, ?_⟩
    · exact List.nil_prefix
    · rw [hnil]
      rfl
    · intro r hr
      rcases List.mem_cons.mp hr with rfl | hr
      · rfl
      · exact h.counter r hr
  · have hcol : collected (⟨v + 1, offset + n, (n : Nat), ((text v).drop offset).take n⟩ :: rs)
        = ((text v).drop offset).take n ++ collected rs := by
      rw [collected, List.takeWhile_cons_of_pos (by simpa using hz), List.flatMap_cons]
      rfl
    have hsplit : (text v).drop offset
        = ((text v).drop offset).take n ++ (text v).drop (offset + n) := by
      rw [← List.drop_drop, List.take_append_drop]
    refine ⟨?_, ?_, ?_, ?_⟩
    · rw [hcol, hsplit, List.take_left' (by rw [List.length_take, List.length_drop]; omega)]
      exact (List.prefix_append_right_inj _).mpr h.isPrefix
    · rintro ⟨r, hr, hr0⟩
      have hr' : r ∈ rs := by
        rcases List.mem_cons.mp hr with rfl | hr
        · exact absurd hr0 (by simpa using hz)
        · exact hr
      rw [hcol, h.complete ⟨r, hr', hr0⟩, ← hsplit]
    · intro hlen
      rw [List.length_cons] at hlen
      obtain ⟨r, hr, hr0⟩ := h.ends (by omega)
      exact ⟨r, List.mem_cons_of_mem _ hr, hr0⟩
    · intro r hr
      rcases List.mem_cons.mp hr with rfl | hr
      · rfl
      · exact h.counter r hr

/-- Induction on the reads: between two of them the counter stays one above the value. -/
theorem reads_later (v : BitVec 32) {offset : Nat} (hpos : 0 < offset)
    (hle : offset ≤ (text v).length) {counts : List Nat} (hcounts : ∀ c ∈ counts, 0 < c) :
    Delivers v offset counts (reads (v + 1) offset counts) := by
  induction counts generalizing offset with
  | nil =>
    refine ⟨List.nil_prefix, ?_, fun h ↦ absurd h (Nat.not_lt_zero _), ?_⟩
    · rintro ⟨r, hr, -⟩
      exact absurd hr (by simp [reads])
    · intro r hr
      exact absurd hr (by simp [reads])
  | cons count counts ih =>
    rw [reads, jifsReadFile_later v hpos hle]
    have hcount := hcounts count List.mem_cons_self
    exact .cons (by omega) (by omega)
      (ih (by omega) (by omega) (fun c hc ↦ hcounts c (List.mem_cons_of_mem _ hc)))

/-- Reads from the start of the file. -/
theorem reads_first (v : BitVec 32) {counts : List Nat} (hcounts : ∀ c ∈ counts, 0 < c) :
    Delivers v 0 counts (reads v 0 counts) := by
  cases counts with
  | nil =>
    refine ⟨List.nil_prefix, ?_, fun h ↦ absurd h (Nat.not_lt_zero _), ?_⟩
    · rintro ⟨r, hr, -⟩
      exact absurd hr (by simp [reads])
    · intro r hr
      exact absurd hr (by simp [reads])
  | cons count counts =>
    have hcount := hcounts count List.mem_cons_self
    have hlen := (length_text v).1
    rw [reads, jifsReadFile_first]
    have hrest := reads_later v (show 0 < min count (text v).length by omega)
      (Nat.min_le_right _ _) (fun c hc ↦ hcounts c (List.mem_cons_of_mem _ hc))
    rw [← Nat.zero_add (min count (text v).length)] at hrest
    have h : Delivers v 0 (count :: counts) _ := .cons (by omega) (by omega) hrest
    simpa using h

/-- Writing the numeral of `v` sets the counter to `v`. -/
theorem jifsWriteFile_decimal (counter v : BitVec 32) :
    jifsWriteFile counter 0 (decimal v.toInt) false
      = ⟨v, 0, (decimal v.toInt).length, []⟩ := by
  have hlen := length_decimal_le v
  rw [jifsWriteFile, if_neg (by simp), if_neg (by unfold TMPSIZE; omega), if_neg (by simp)]
  simp only [simpleStrtol_decimal, BitVec.ofInt_toInt]

/-- The replies to reads from the start of the file once `v`'s numeral has been written. -/
def readBack (counter v : BitVec 32) (counts : List Nat) : List Reply :=
  reads (jifsWriteFile counter 0 (decimal v.toInt) false).counter 0 counts

/-- After `v`'s numeral has been written, reads with any positive counts collect the numeral
and a newline up to their first 0, reach that 0 once there are enough of them, and leave the
counter at the next value. -/
theorem reads_after_write (counter v : BitVec 32) {counts : List Nat}
    (hcounts : ∀ c ∈ counts, 0 < c) :
    (jifsWriteFile counter 0 (decimal v.toInt) false).ret = (decimal v.toInt).length ∧
      collected (readBack counter v counts) <+: decimal v.toInt ++ ['\n'] ∧
      ((∃ r ∈ readBack counter v counts, r.ret = 0) →
        collected (readBack counter v counts) = decimal v.toInt ++ ['\n']) ∧
      ((text v).length < counts.length → ∃ r ∈ readBack counter v counts, r.ret = 0) ∧
      ∀ r ∈ readBack counter v counts, r.counter = v + 1 := by
  have h := reads_first v hcounts
  rw [readBack, jifsWriteFile_decimal]
  exact ⟨rfl, h.isPrefix, h.complete, h.ends, h.counter⟩

/-- The value -1 read in chunks of one and two bytes: the counter passes to 0 meanwhile. -/
theorem reads_after_write_minus_one :
    (∀ c ∈ [1, 2, 5], 0 < c) ∧ collected (readBack 0 (-1) [1, 2, 5]) = ['-', '1', '\n'] :=
  ⟨by decide, (reads_after_write 0 (-1) (by decide : ∀ c ∈ [1, 2, 5], 0 < c)).2.2.1
    ⟨⟨0, 3, 0, []⟩, by decide, rfl⟩⟩

end Jeopardy.Jifs
