import Jeopardy.ChainingHash.Display

/-!
# The benchmark of the chaining hash table

Model of the live functions of `chaining_hash/test.c` and of `chaining_hash/benchmark.c` without the
clock and the messages. Each round fills a new table of a size with the multiples of a step below
that size, and looks all of them up again. As the indices are below the size, no two of them share a
bucket.
-/

namespace Jeopardy.ChainingHash

/-- `struct item`, `chaining_hash/hash.h:52–55`. -/
structure Item where
  data : BitVec 32
  index : BitVec 32
deriving DecidableEq

/-- `item_create`, `chaining_hash/test.c:7–14`: the index is cut to `int`. -/
def itemCreate (index : Nat) (data : BitVec 32) : Item := ⟨data, BitVec.ofNat 32 index⟩

/-- The member `index` where an `unsigned long` is asked for. -/
def Item.key (item : Item) : Nat := (item.index.signExtend 64).toNat

/-- `item_insert`, `chaining_hash/test.c:16–23`. -/
def itemInsert (m : Mem Item) (h : Hash) (index : Nat) : Except Fault (Mem Item × Hash × Int) :=
  let item := itemCreate index 0
  hashInsert m h item.key (some item)

/-- `item_check_present`, `chaining_hash/test.c:43–49`: whether its assertion holds. -/
def itemCheckPresent (h : Hash) (index : Nat) : Except Fault Bool := do
  let item ← hashLookup h index
  return item.isSome

/-- The loop of `benchmark_insert`, `chaining_hash/benchmark.c:52–53`. -/
def benchmarkInsert (size step : Nat) :
    Nat → Nat → Mem Item → Hash → Except Fault (Mem Item × Hash)
  | 0, _, _, _ => .error .diverges
  | fuel + 1, index, m, h =>
    if index < size then do
      let (m, h, _) ← itemInsert m h index
      benchmarkInsert size step fuel ((index + step) % 2 ^ 64) m h
    else .ok (m, h)

/-- The loop of `benchmark_search`, `chaining_hash/benchmark.c:73–74`. An assertion that fails ends
the program. -/
def benchmarkSearch (h : Hash) (size step : Nat) : Nat → Nat → Except Fault Bool
  | 0, _ => .error .diverges
  | fuel + 1, index =>
    if index < size then do
      let present ← itemCheckPresent h index
      if present then benchmarkSearch h size step fuel ((index + step) % 2 ^ 64)
      else return false
    else .ok true

/-- `benchmark_size`, `chaining_hash/benchmark.c:108–120`: the table it leaves behind, and whether
every assertion holds. -/
def benchmarkSize (fuel size step : Nat) : Except Fault (Mem Item × Hash × Bool) := do
  let (m, h) ← benchmarkInsert size step fuel 0 ⟨fun _ ↦ none, 1⟩ (hashAlloc size)
  let ok ← benchmarkSearch h size step fuel 0
  return (m, h, ok)

/-- `my_benchmark`, `chaining_hash/benchmark.c:123–137`: what it prints. The items are numbers cast
to pointers. -/
def myBenchmark (fuel : Nat) : Except Fault (List (Option (List (Option Nat)))) := do
  let (m, h) ← run 20 [(2, 2), (6, 6), (22, 22), (37, 37), (65, 65)]
  display m h fuel

/-- The inner loop of `benchmark`, `chaining_hash/benchmark.c:148–149`. -/
def benchmarkSteps (fuel size : Nat) : List Nat → Except Fault Bool
  | [] => .error .outOfBounds
  | step :: steps =>
    if step = 0 then .ok true
    else do
      let (_, _, ok) ← benchmarkSize fuel size step
      if ok then benchmarkSteps fuel size steps else return false

/-- The outer loop, `chaining_hash/benchmark.c:147–149`. -/
def benchmarkSizes (fuel : Nat) (steps : List Nat) : List Nat → Except Fault Bool
  | [] => .error .outOfBounds
  | size :: sizes =>
    if size = 0 then .ok true
    else do
      let ok ← benchmarkSteps fuel size steps
      if ok then benchmarkSizes fuel steps sizes else return false

/-- `benchmark`, `chaining_hash/benchmark.c:140–153`: what it prints, unless an assertion fails. -/
def benchmark (fuel : Nat) : Except Fault (Option (List (Option (List (Option Nat))))) := do
  let ok ← benchmarkSizes fuel [1, 2, 7, 15, 63, 64, 65, 128, 256, 512, 12345, 0]
    [1 <<< 10, 1 <<< 20, 0]
  if ok then some <$> myBenchmark fuel else return none

/-! ### The calls of a loop -/

/-- What the first `k` rounds of `benchmark_insert` hand to `hash_insert`. -/
def stepCalls (step k : Nat) : List (Nat × Option Item) :=
  (List.range k).map fun j ↦ (j * step, some (itemCreate (j * step) 0))

section Calls

variable {size step k c : Nat} {call : Nat × Option Item}

theorem mem_stepCalls : call ∈ stepCalls step k ↔
    ∃ j < k, (j * step, some (itemCreate (j * step) 0)) = call := by
  rw [stepCalls, List.mem_map]
  exact exists_congr fun j ↦ and_congr_left' List.mem_range

theorem stepCalls_succ (step k : Nat) : stepCalls step (k + 1)
    = stepCalls step k ++ [(k * step, some (itemCreate (k * step) 0))] := by
  rw [stepCalls, List.range_succ, List.map_append]
  rfl

theorem length_stepCalls (step k : Nat) : (stepCalls step k).length = k := by
  rw [stepCalls, List.length_map, List.length_range]

/-- The counter does not wrap before it passes a size that is an `int`. -/
theorem step_mod (hsize : size < 2 ^ 31) (hstep : step < 2 ^ 64) (hk : k * step < size) :
    (k * step + step) % 2 ^ 64 = (k + 1) * step := by
  rw [← Nat.succ_mul]
  apply Nat.mod_eq_of_lt
  cases k with
  | zero => rwa [Nat.succ_mul, Nat.zero_mul, Nat.zero_add]
  | succ k =>
    have hle : step ≤ (k + 1) * step := Nat.le_mul_of_pos_left step (Nat.succ_pos k)
    rw [Nat.succ_mul]
    omega

/-- The calls whose indices stay below the size, each once. -/
structure Passed (size step c : Nat) : Prop where
  below : ∀ j < c, j * step < size
  reached : size ≤ c * step

theorem Passed.lt_of_mem (hc : Passed size step c) (hcall : call ∈ stepCalls step c) :
    call.1 < size := by
  obtain ⟨j, hj, rfl⟩ := mem_stepCalls.mp hcall
  exact hc.below j hj

theorem Passed.lt (hc : Passed size step c) (hk : k * step < size) : k < c :=
  Nat.lt_of_mul_lt_mul_right (hk.trans_le hc.reached)

theorem Passed.le (hc : Passed size step c) (hpos : 0 < step) : c ≤ size := by
  cases c with
  | zero => exact Nat.zero_le _
  | succ c => exact (Nat.le_mul_of_pos_right c hpos).trans_lt (hc.below c (Nat.lt_succ_self c))

/-- The row of an index in a table of multiples. -/
def multiplesRow (step i : Nat) : Option (List (Option Item)) :=
  if step ∣ i then some [some (itemCreate i 0)] else none

/-- No two of the calls share a row. -/
theorem Passed.expectedRow_eq (hc : Passed size step c) (hpos : 0 < step) {i : Nat}
    (hi : i < size) : expectedRow size (stepCalls step c) i = multiplesRow step i := by
  have hfilter : (stepCalls step c).filter (fun call ↦ call.1 % size = i)
      = ((List.range c).filter (fun j ↦ j * step = i)).map
          fun j ↦ (j * step, some (itemCreate (j * step) 0)) := by
    rw [stepCalls, List.filter_map]
    refine congrArg _ (List.filter_congr fun j hj ↦ decide_eq_decide.mpr ?_)
    rw [Nat.mod_eq_of_lt (hc.below j (List.mem_range.mp hj))]
  rw [expectedRow, hfilter, multiplesRow]
  by_cases hdvd : step ∣ i
  · obtain ⟨t, rfl⟩ := exists_eq_mul_left_of_dvd hdvd
    have heq : (List.range c).filter (fun j ↦ j * step = t * step) = [t] := by
      rw [List.filter_congr fun j _ ↦ decide_eq_decide.mpr (Nat.mul_left_inj hpos.ne'),
        List.filter_eq, List.count_eq_one_of_mem List.nodup_range (List.mem_range.mpr (hc.lt hi))]
      rfl
    rw [heq, if_pos hdvd]
    rfl
  · have hnil : (List.range c).filter (fun j ↦ j * step = i) = [] := by
      rw [List.filter_eq_nil_iff]
      rintro j - heq
      exact hdvd ⟨j, by rw [Nat.mul_comm, of_decide_eq_true heq]⟩
    rw [hnil, if_neg hdvd]
    rfl

end Calls

/-! ### The loops -/

section Loops

variable {size step k c : Nat} {m : Mem Item} {h : Hash} {ring : Nat → List Nat}

/-- An index that was inserted is found. -/
theorem Ordered.itemCheckPresent {calls : List (Nat × Option Item)}
    (ho : Ordered size calls m h ring) (hsize : size < 2 ^ 31) {i : Nat} (hi : i < size)
    {x : Option Item} (hcall : (i, x) ∈ calls) : itemCheckPresent h i = .ok true := by
  have hcode : hashCode h i = (i : Int) := by
    rw [hashCode_eq (hi.trans hsize), ho.size_eq, Nat.mod_eq_of_lt hi]
  have hne : ring i ≠ [] := by
    intro hnil
    have hitems := ho.items i hi
    rw [hnil, List.map_nil, eq_comm, List.map_eq_nil_iff, List.filter_eq_nil_iff] at hitems
    refine hitems _ hcall (decide_eq_true ?_)
    rw [hashCode_congr h ho.size_eq.symm, hcode]
  obtain ⟨p, ps, hring⟩ := List.exists_cons_of_ne_nil hne
  have hslot : h.slot (hashCode h i) = .ok (some p) := by
    rw [hcode, slot_eq (Int.natCast_nonneg i) (by rw [ho.size_eq]; exact_mod_cast hi),
      Int.toNat_natCast, ho.head i hi, hring]
    rfl
  rw [ChainingHash.itemCheckPresent, hashLookup, hslot]
  rfl

/-- Induction on the fuel; the rounds so far are in the table. -/
theorem benchmarkInsert_spec (hsize : size < 2 ^ 31) (hpos : 0 < step) (hstep : step < 2 ^ 64)
    (hbelow : ∀ j < k, j * step < size) (ho : Ordered size (stepCalls step k) m h ring) {fuel : Nat}
    (hfuel : size - k * step < fuel) :
    ∃ m' h' ring' c, benchmarkInsert size step fuel (k * step) m h = .ok (m', h') ∧
      Passed size step c ∧ Ordered size (stepCalls step c) m' h' ring' := by
  induction fuel generalizing k m h ring with
  | zero => omega
  | succ fuel ih =>
    rw [benchmarkInsert]
    split
    · next hlt =>
      have hkey : (itemCreate (k * step) 0).key = k * step :=
        toNat_signExtend_ofNat (hlt.trans hsize)
      obtain ⟨m₁, h₁, ring₁, hrun, ho₁⟩ := ho.insert (Nat.zero_lt_of_lt hlt) (hlt.trans hsize)
        (some (itemCreate (k * step) 0))
      rw [← stepCalls_succ] at ho₁
      have hbelow₁ : ∀ j < k + 1, j * step < size := by
        intro j hj
        rcases Nat.lt_succ_iff_lt_or_eq.mp hj with hj | rfl
        · exact hbelow j hj
        · exact hlt
      have hleft : size - (k + 1) * step < fuel := by
        rw [Nat.succ_mul]
        omega
      rw [itemInsert, hkey, hrun, Fault.ok_bind]
      simp only [step_mod hsize hstep hlt]
      exact ih hbelow₁ ho₁ hleft
    · next hge => exact ⟨m, h, ring, k, rfl, ⟨hbelow, not_lt.mp hge⟩, ho⟩

/-- Induction on the fuel. -/
theorem benchmarkSearch_spec (hsize : size < 2 ^ 31) (hpos : 0 < step) (hstep : step < 2 ^ 64)
    (hc : Passed size step c) (ho : Ordered size (stepCalls step c) m h ring) {fuel : Nat}
    (hfuel : size - k * step < fuel) : benchmarkSearch h size step fuel (k * step) = .ok true := by
  induction fuel generalizing k with
  | zero => omega
  | succ fuel ih =>
    rw [benchmarkSearch]
    split
    · next hlt =>
      have hleft : size - (k + 1) * step < fuel := by
        rw [Nat.succ_mul]
        omega
      rw [ho.itemCheckPresent hsize hlt (mem_stepCalls.mpr ⟨k, hc.lt hlt, rfl⟩), Fault.ok_bind,
        if_pos rfl, step_mod hsize hstep hlt]
      exact ih hleft
    · rfl

/-- A step of 0 stays at index 0. -/
theorem benchmarkInsert_zero_ne (hsize : 0 < size) (fuel : Nat) (m : Mem Item) (h : Hash)
    (r : Mem Item × Hash) : benchmarkInsert size 0 fuel 0 m h ≠ .ok r := by
  induction fuel generalizing m h with
  | zero => exact fun heq ↦ nomatch heq
  | succ fuel ih =>
    rw [benchmarkInsert, if_pos hsize]
    intro heq
    obtain ⟨⟨m', h', e⟩, -, hloop⟩ := Fault.bind_eq_ok.mp heq
    exact ih m' h' hloop

end Loops

/-! ### One size and step -/

section Size

variable {size step fuel : Nat}

/-- `benchmark_size` with a step that moves. -/
theorem benchmarkSize_rows (hsize : size < 2 ^ 31) (hpos : 0 < step) (hstep : step < 2 ^ 64)
    (hfuel : size < fuel) : ∃ m h, benchmarkSize fuel size step = .ok (m, h, true) ∧
      ∀ n, size < n → display m h n = .ok ((List.range size).map (multiplesRow step)) := by
  have hleft : size - 0 * step < fuel := (Nat.sub_le _ _).trans_lt hfuel
  obtain ⟨m, h, ring, c, hins, hc, ho⟩ := benchmarkInsert_spec hsize hpos hstep
    (fun j hj ↦ absurd hj (Nat.not_lt_zero j)) (Ordered.nil size) hleft
  have hsearch := benchmarkSearch_spec hsize hpos hstep hc ho hleft
  rw [Nat.zero_mul] at hins hsearch
  refine ⟨m, h, ?_, fun n hn ↦ ?_⟩
  · rw [benchmarkSize, hins, Fault.ok_bind]
    simp only [hsearch, Fault.ok_bind]
    rfl
  · have hlen : (stepCalls step c).length < n := by
      rw [length_stepCalls]
      exact (hc.le hpos).trans_lt hn
    rw [display, ho.size_eq]
    refine Fault.mapM_eq fun i hi ↦ ?_
    rw [List.mem_range] at hi
    rw [ho.displayRow_eq hsize (fun call hcall ↦ (hc.lt_of_mem hcall).trans hsize) hi hlen,
      hc.expectedRow_eq hpos hi]

/-- A table of size 0 gets no items. -/
theorem benchmarkSize_empty (step : Nat) (hfuel : 0 < fuel) :
    ∃ m h, benchmarkSize fuel 0 step = .ok (m, h, true) ∧ ∀ n, display m h n = .ok [] := by
  obtain ⟨n, rfl⟩ := Nat.exists_eq_add_of_le' hfuel
  exact ⟨_, _, rfl, fun _ ↦ rfl⟩

/-- **One benchmark.** For a size below `2^31` `benchmark_size` ends exactly if the step is not 0 or
the size is. Then every assertion of `item_check_present` holds, and the table holds the multiples
of the step below the size: for each of them its own item alone, and nothing for the other
indices. -/
theorem benchmarkSize_multiples (hsize : size < 2 ^ 31) (hstep : step < 2 ^ 64) :
    (size = 0 ∨ 0 < step → ∀ fuel, size < fuel →
      ∃ m h, benchmarkSize fuel size step = .ok (m, h, true) ∧
        ∀ n, size < n → display m h n = .ok ((List.range size).map (multiplesRow step))) ∧
    (¬ (size = 0 ∨ 0 < step) → ∀ fuel r, benchmarkSize fuel size step ≠ .ok r) := by
  refine ⟨fun hends fuel hfuel ↦ ?_, fun hends fuel r heq ↦ ?_⟩
  · rcases hends with rfl | hpos
    · obtain ⟨m, h, hrun, hrows⟩ := benchmarkSize_empty step hfuel
      exact ⟨m, h, hrun, fun n _ ↦ hrows n⟩
    · exact benchmarkSize_rows hsize hpos hstep hfuel
  · rw [not_or, not_lt, Nat.le_zero] at hends
    obtain ⟨hne, rfl⟩ := hends
    obtain ⟨⟨m, h⟩, hins, -⟩ := Fault.bind_eq_ok.mp heq
    exact benchmarkInsert_zero_ne (Nat.pos_of_ne_zero hne) fuel _ _ _ hins

/-- `benchmarkSize_multiples` of a step that divides no bound. -/
theorem benchmarkSize_multiples_five : ∃ m h, benchmarkSize 6 5 2 = .ok (m, h, true) ∧
    ∀ n, 5 < n → display m h n = .ok
      [some [some (itemCreate 0 0)], none, some [some (itemCreate 2 0)], none,
        some [some (itemCreate 4 0)]] :=
  (benchmarkSize_multiples (by decide) (by decide)).1 (.inr (by decide)) 6 (by decide)

end Size

/-! ### The whole benchmark -/

section Sizes

variable {size fuel : Nat} {steps sizes : List Nat}

theorem benchmarkSteps_eq (hsize : size < 2 ^ 31) (hfuel : size < fuel)
    (hsteps : ∀ step ∈ steps, 0 < step ∧ step < 2 ^ 64) :
    benchmarkSteps fuel size (steps ++ [0]) = .ok true := by
  induction steps with
  | nil => rfl
  | cons step steps ih =>
    obtain ⟨hpos, hstep⟩ := hsteps step List.mem_cons_self
    obtain ⟨m, h, hrun, -⟩ := benchmarkSize_rows hsize hpos hstep hfuel
    rw [List.cons_append, benchmarkSteps, if_neg hpos.ne', hrun, Fault.ok_bind]
    exact ih fun s hs ↦ hsteps s (List.mem_cons_of_mem _ hs)

/-- Any sizes that are positive `int`s, with any steps, pass every assertion. -/
theorem benchmarkSizes_eq (hsizes : ∀ size ∈ sizes, 0 < size ∧ size < 2 ^ 31 ∧ size < fuel)
    (hsteps : ∀ step ∈ steps, 0 < step ∧ step < 2 ^ 64) :
    benchmarkSizes fuel (steps ++ [0]) (sizes ++ [0]) = .ok true := by
  induction sizes with
  | nil => rfl
  | cons size sizes ih =>
    obtain ⟨hpos, hsize, hfuel⟩ := hsizes size List.mem_cons_self
    rw [List.cons_append, benchmarkSizes, if_neg hpos.ne', benchmarkSteps_eq hsize hfuel hsteps,
      Fault.ok_bind]
    exact ih fun s hs ↦ hsizes s (List.mem_cons_of_mem _ hs)

/-- The keys 2 and 22 share a row, in the order of their insertion. -/
theorem myBenchmark_eq (hfuel : 5 < fuel) : myBenchmark fuel = .ok
    [none, none, some [some 2, some 22], none, none, some [some 65], some [some 6], none, none,
      none, none, none, none, none, none, none, none, some [some 37], none, none] := by
  have hk : ∀ call ∈ [(2, some 2), (6, some 6), (22, some 22), (37, some 37), (65, some 65)],
      call.1 < 2 ^ 31 := by decide
  obtain ⟨m, h, ring, hrun, ho⟩ := runItems_ordered (show 1 ≤ 20 by decide) hk
  have hrows := Fault.mapM_eq fun i (hi : i ∈ List.range 20) ↦
    ho.displayRow_eq (by decide) hk (List.mem_range.mp hi) hfuel
  change run 20 [(2, 2), (6, 6), (22, 22), (37, 37), (65, 65)] = .ok (m, h) at hrun
  rw [myBenchmark, hrun, Fault.ok_bind]
  simp only [display, ho.size_eq]
  exact hrows

/-- The benchmark passes its assertions and ends with the rows of `my_benchmark`. -/
theorem benchmark_eq (hfuel : 2 ^ 20 < fuel) :
    ∃ rows, myBenchmark fuel = .ok rows ∧ benchmark fuel = .ok (some rows) := by
  have hsizes : ∀ size ∈ [1 <<< 10, 1 <<< 20], 0 < size ∧ size < 2 ^ 31 ∧ size < fuel := by
    simp only [List.forall_mem_cons, List.not_mem_nil, false_imp_iff, implies_true, and_true]
    omega
  have hsteps : ∀ step ∈ [1, 2, 7, 15, 63, 64, 65, 128, 256, 512, 12345],
      0 < step ∧ step < 2 ^ 64 := by decide
  have hrun : benchmarkSizes fuel [1, 2, 7, 15, 63, 64, 65, 128, 256, 512, 12345, 0]
      [1 <<< 10, 1 <<< 20, 0] = .ok true := benchmarkSizes_eq hsizes hsteps
  have hmy := myBenchmark_eq (hfuel.trans' (by decide))
  refine ⟨_, hmy, ?_⟩
  rw [benchmark, hrun, Fault.ok_bind, if_pos rfl, hmy]
  rfl

end Sizes

end Jeopardy.ChainingHash
