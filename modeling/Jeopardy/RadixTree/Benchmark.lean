import Jeopardy.Lib.Stride
import Jeopardy.RadixTree.Emptied
import Jeopardy.RadixTree.TestItems

/-!
# The benchmark

Model of `radix_tree/benchmark.c` without the clock and the messages. Each round makes a tree, puts
an item at every step up to the size, visits and deletes the items, and clears the tree.
-/

namespace Jeopardy.RadixTree

namespace Machine

/-- The loop of `benchmark_insert`, `radix_tree/benchmark.c:50–51`. -/
def benchmarkInsert (env : Env) (size step : BitVec 64) :
    Nat → BitVec 64 → Machine → Except Fault Machine
  | 0, _, _ => .error .diverges
  | fuel + 1, index, m =>
    if index < size then do
      let (m, _) ← m.itemInsert env index
      benchmarkInsert env size step fuel (index + step) m
    else .ok m

/-- The loop of `benchmark_delete`, `radix_tree/benchmark.c:72–73`. -/
def benchmarkDelete (size step : BitVec 64) :
    Nat → BitVec 64 → Machine → Except Fault Machine
  | 0, _, _ => .error .diverges
  | fuel + 1, index, m =>
    if index < size then do
      let (m, _) ← m.itemDelete index
      benchmarkDelete size step fuel (index + step) m
    else .ok m

/-- The visits of `benchmark_iter`, `radix_tree/benchmark.c:20–23`. -/
def benchmarkIter (m : Machine) (fuel : Nat) : Except Fault (List (BitVec 64 × Entry)) :=
  forEachSlot m.tree fuel 0

end Machine

/-- `benchmark_size`, `radix_tree/benchmark.c:85–105`: the machine it leaves, the visits, and what
the assertion of `item_kill_tree` finds. -/
def benchmarkSize (env : Env) (oom : Nat → Bool) (fuel : Nat) (items : Items) (mallocs : Nat)
    (size step : BitVec 64) : Except Fault (Machine × List (BitVec 64 × Entry) × Bool) :=
  match radixTreeRootAlloc oom with
  | none => .error .nullDeref
  | some tree => do
    let m ← Machine.benchmarkInsert env size step fuel 0 ⟨tree, items, mallocs⟩
    let visits ← m.benchmarkIter fuel
    let m ← m.benchmarkDelete size step fuel 0
    let (m, empty) ← m.itemKillTree fuel
    return (m, visits, empty)

/-- The inner loop of `benchmark`, `radix_tree/benchmark.c:167–168`. An assertion that fails ends
the program. -/
def benchmarkSteps (env : Env) (oom : Nat → Bool) (fuel : Nat) (size : BitVec 64) :
    List (BitVec 64) → Items → Nat → Except Fault (Items × Nat × Bool)
  | [], _, _ => .error .outOfBounds
  | step :: steps, items, mallocs =>
    if step = 0 then .ok (items, mallocs, true)
    else do
      let (m, _, empty) ← benchmarkSize env oom fuel items mallocs size step
      if empty then benchmarkSteps env oom fuel size steps m.items m.mallocs
      else return (m.items, m.mallocs, false)

/-- The outer loop, `radix_tree/benchmark.c:166–168`. -/
def benchmarkSizes (env : Env) (oom : Nat → Bool) (fuel : Nat) (steps : List (BitVec 64)) :
    List (BitVec 64) → Items → Nat → Except Fault (Items × Nat × Bool)
  | [], _, _ => .error .outOfBounds
  | size :: sizes, items, mallocs =>
    if size = 0 then .ok (items, mallocs, true)
    else do
      let (items, mallocs, ok) ← benchmarkSteps env oom fuel size steps items mallocs
      if ok then benchmarkSizes env oom fuel steps sizes items mallocs
      else return (items, mallocs, false)

/-- `benchmark`, `radix_tree/benchmark.c:154–172`. -/
def benchmark (env : Env) (oom : Nat → Bool) (fuel : Nat) : Except Fault (Items × Nat × Bool) :=
  benchmarkSizes env oom fuel [1, 2, 7, 15, 63, 64, 65, 128, 256, 512, 12345, 0]
    [1 <<< 10, 1 <<< 20, 0] (fun _ ↦ none) 0

/-- `malloc` answers an address while fewer than `n` items are alive. -/
def Env.Serves (env : Env) (n : Nat) : Prop :=
  ∀ (mallocs : Nat) (items : Items), {p | items p ≠ none}.ncard < n → env.malloc mallocs items ≠ 0

/-! ### The indices of a loop -/

/-- The loops' index after `k` steps. -/
def atStep (step : BitVec 64) (k : Nat) : BitVec 64 := BitVec.ofNat 64 (k * step.toNat)

section Steps

variable {size step : BitVec 64} {c k : Nat}

theorem atStep_toNat (step : BitVec 64) (k : Nat) :
    (atStep step k).toNat = Stride.stride (2 ^ 64) step.toNat k := BitVec.toNat_ofNat _ _

theorem atStep_zero (step : BitVec 64) : atStep step 0 = 0 := by
  rw [atStep, Nat.zero_mul]
  rfl

theorem atStep_succ (step : BitVec 64) (k : Nat) : atStep step k + step = atStep step (k + 1) := by
  apply BitVec.eq_of_toNat_eq
  rw [BitVec.toNat_add, atStep_toNat, atStep_toNat, Stride.stride_succ]

theorem atStep_injOn (hc : Stride.Reaches (2 ^ 64) step.toNat size.toNat c) :
    Set.InjOn (atStep step) (Set.Iio c) := by
  intro j hj k hk heq
  apply hc.injOn hj hk
  rw [← atStep_toNat, heq, atStep_toNat]

/-- The indices of the steps from `a` to `b`. -/
def indices (step : BitVec 64) (a b : Nat) : Set (BitVec 64) := atStep step '' Set.Ico a b

theorem indices_self (step : BitVec 64) (a : Nat) : indices step a a = ∅ := by
  rw [indices, Set.Ico_self, Set.image_empty]

theorem insert_indices (step : BitVec 64) (k : Nat) :
    insert (atStep step k) (indices step 0 k) = indices step 0 (k + 1) := by
  rw [indices, indices, ← Set.image_insert_eq, Set.insert_Ico_right_eq_Ico_add_one (Nat.zero_le k)]

theorem indices_ncard_le (step : BitVec 64) (k : Nat) : (indices step 0 k).ncard ≤ k := by
  refine (Set.ncard_image_le (Set.finite_Ico 0 k)).trans (le_of_eq ?_)
  rw [Set.ncard_eq_toFinset_card', Set.toFinset_Ico, Nat.card_Ico, Nat.sub_zero]

/-- The last index of a stretch that ends before the loop does is not one of those before. -/
theorem atStep_notMem (hc : Stride.Reaches (2 ^ 64) step.toNat size.toNat c) (hk : k < c) :
    atStep step k ∉ indices step 0 k := by
  rintro ⟨j, hj, heq⟩
  have := atStep_injOn hc (hj.2.trans hk) hk heq
  exact absurd hj.2 (this ▸ Nat.lt_irrefl _)

theorem indices_diff (hc : Stride.Reaches (2 ^ 64) step.toNat size.toNat c) (hk : k < c) :
    indices step k c \ {atStep step k} = indices step (k + 1) c := by
  ext1 i
  constructor
  · rintro ⟨⟨j, hj, rfl⟩, hne⟩
    have hjk : j ≠ k := fun hjk ↦ hne (by rw [hjk, Set.mem_singleton_iff])
    exact ⟨j, ⟨lt_of_le_of_ne hj.1 hjk.symm, hj.2⟩, rfl⟩
  · rintro ⟨j, hj, rfl⟩
    refine ⟨⟨j, ⟨(Nat.le_succ k).trans hj.1, hj.2⟩, rfl⟩, fun heq ↦ ?_⟩
    have := atStep_injOn hc hj.2 hk heq
    exact absurd hj.1 (by omega)

end Steps

/-! ### The tree under the items -/

/-- A machine in good order whose tree gets its memory. -/
structure Fit (m : Machine) (f : BitVec 64 → Option Item) : Prop where
  stocked : Stocked m f
  slim : Slim m.tree
  tall : Tall m.tree
  memory : ∀ n, m.tree.oom n = false

section Calls

variable {env : Env} {m m' : Machine} {f : BitVec 64 → Option Item} {i : BitVec 64}

/-- The insertion into the tree. -/
theorem itemInsert_tree (henv : env.Documented) {r : Int}
    (hrun : m.itemInsert env i = .ok (m', r)) :
    ∃ x, x.tagged = false ∧ radixTreeInsert m.tree i x = .ok (m'.tree, r) := by
  rw [Machine.itemInsert, Machine.itemCreate] at hrun
  split at hrun
  · cases hrun
  · next hne =>
    rw [Fault.ok_bind] at hrun
    simp only [loadItem_eq (x := ⟨_, hne⟩) (Function.update_self _ _ _), Fault.ok_bind] at hrun
    obtain ⟨⟨t, e⟩, hins, hrun⟩ := Fault.bind_eq_ok.mp hrun
    refine ⟨⟨_, hne⟩, (aligned_untagged (henv.aligned _ _)).1, ?_⟩
    split at hrun
    · obtain ⟨items, -, hret⟩ := Fault.bind_eq_ok.mp hrun
      cases hret
      exact hins
    · cases hrun
      exact hins

/-- The deletion from the tree. -/
theorem itemDelete_tree {r : Int} (hrun : m.itemDelete i = .ok (m', r)) :
    ∃ e, radixTreeDelete m.tree i = .ok (m'.tree, e) := by
  rw [Machine.itemDelete] at hrun
  obtain ⟨⟨t, e⟩, hdel, hrun⟩ := Fault.bind_eq_ok.mp hrun
  refine ⟨e, ?_⟩
  simp only at hrun
  split at hrun
  · cases hrun
    exact hdel
  · obtain ⟨items, -, hret⟩ := Fault.bind_eq_ok.mp hrun
    cases hret
    exact hdel

namespace Fit

/-- What a tidy call on the tree leaves of it. -/
theorem of_step (h : Fit m f) {c : Call} {t' : Tree} {r : Reply} (hc : c.tidy m.tree = true)
    (hrun : c.step m.tree = .ok (t', r)) :
    Slim t' ∧ Tall t' ∧ (∀ n, t'.oom n = false) ∧ (Idle t' ↔ Idle m.tree ∧ c.low = false) := by
  obtain ⟨t₁, r₁, hrun₁, -, hoom, hshape, -⟩ := h.stocked.stands.step_tidy hc
  have hidle := h.stocked.stands.step_idle h.slim h.memory hc hrun
  rw [hrun, Except.ok.injEq, Prod.mk.injEq] at hrun₁
  obtain ⟨rfl, rfl⟩ := hrun₁
  obtain ⟨hl, ht⟩ := hshape h.memory h.slim h.tall
  exact ⟨hl, ht, fun n ↦ by rw [hoom, h.memory], hidle⟩

/-- A new index. -/
theorem itemInsert (h : Fit m f) (henv : env.Documented) (hi : i ∉ present f)
    (hserved : env.malloc m.mallocs m.items ≠ 0) :
    ∃ m' f', m.itemInsert env i = .ok (m', 0) ∧ Fit m' f' ∧ present f' = insert i (present f) ∧
      (Idle m'.tree ↔ Idle m.tree ∧ 64 ≤ i.toNat) := by
  obtain ⟨m', r, f', hrun, hst, hans, -, -⟩ := h.stocked.itemInsert henv i hserved
  obtain ⟨x, hx, hins⟩ := itemInsert_tree henv hrun
  have hstep : (Call.insert i x).step m.tree = .ok (m'.tree, .code r) := by
    rw [Call.step, hins]
    rfl
  obtain ⟨hl, ht, hmem, hidle⟩ := h.of_step (by rw [Call.tidy, hx]; rfl) hstep
  rw [Call.low, decide_eq_false_iff_not, not_lt] at hidle
  generalize hs : present f' = s at hans
  generalize m'.tree.next = n' at hans
  cases hans with
  | inserted _ _ => exact ⟨m', f', hrun, ⟨hst, hl, ht, hmem⟩, hs, hidle⟩
  | «exists» hi' => exact absurd hi' hi
  | enomem _ _ hoom =>
    rw [h.memory] at hoom
    cases hoom

/-- A present index. -/
theorem itemDelete (h : Fit m f) (hi : i ∈ present f) :
    ∃ m' f', m.itemDelete i = .ok (m', 1) ∧ Fit m' f' ∧ present f' = present f \ {i} ∧
      (Idle m'.tree ↔ Idle m.tree) := by
  have hpres : isPresent m.tree i = true := by
    rw [h.stocked.stands.isPresent_eq, Option.isSome_iff_ne_none]
    exact hi
  obtain ⟨m', r, f', hrun, hst, hans, -, -⟩ :=
    h.stocked.itemDelete ((Bool.or_eq_true _ _).mpr (.inl hpres))
  obtain ⟨e, hdel⟩ := itemDelete_tree hrun
  have hstep : (Call.delete i).step m.tree = .ok (m'.tree, .entry e) := by
    rw [Call.step, hdel]
    rfl
  obtain ⟨hl, ht, hmem, hidle⟩ :=
    h.of_step (show (Call.delete i).tidy m.tree = true from hpres) hstep
  replace hidle := hidle.trans (and_iff_left rfl)
  generalize hs : present f' = s at hans
  generalize m'.tree.next = n' at hans
  cases hans with
  | deleted _ _ => exact ⟨m', f', hrun, ⟨hst, hl, ht, hmem⟩, hs, hidle⟩
  | absent hi' _ => exact absurd hi hi'

/-- There are no more items alive than present indices. -/
theorem ncard_le (h : Fit m f) : {p | m.items p ≠ none}.ncard ≤ (present f).ncard := by
  have hle := h.stocked.owned.ncard_le (Set.toFinite _)
  have hset : {i | addresses f i ≠ none} = present f := by
    ext1 i
    rw [Set.mem_ofPred_eq, addresses, Ne, Option.map_eq_none_iff]
    rfl
  rwa [hset] at hle

end Fit

end Calls

/-! ### The loops -/

section Loops

variable {env : Env} {size step : BitVec 64} {c : Nat}

theorem atStep_lt (hc : Stride.Reaches (2 ^ 64) step.toNat size.toNat c) {k : Nat} (hk : k < c) :
    atStep step k < size := by
  rw [BitVec.lt_def, atStep_toNat]
  exact hc.2 k hk

theorem not_atStep_lt (hc : Stride.Reaches (2 ^ 64) step.toNat size.toNat c) :
    ¬ atStep step c < size := by
  rw [BitVec.lt_def, atStep_toNat]
  exact not_lt.mpr hc.1

/-- Induction on the steps left. -/
theorem benchmarkInsert_loop (henv : env.Documented) (hserves : env.Serves size.toNat)
    (hc : Stride.Reaches (2 ^ 64) step.toNat size.toNat c) {k fuel : Nat} {m : Machine}
    {f : BitVec 64 → Option Item} (h : Fit m f) (hf : present f = indices step 0 k) (hk : k ≤ c)
    (hfuel : c < k + fuel) :
    ∃ m' f', Machine.benchmarkInsert env size step fuel (atStep step k) m = .ok m' ∧ Fit m' f' ∧
      present f' = indices step 0 c ∧
      (Idle m'.tree ↔ Idle m.tree ∧ ∀ j, k ≤ j → j < c → 64 ≤ (atStep step j).toNat) := by
  induction fuel generalizing k m f with
  | zero => omega
  | succ fuel ih =>
    rw [Machine.benchmarkInsert]
    rcases Nat.lt_or_eq_of_le hk with hlt | rfl
    · have hserved : env.malloc m.mallocs m.items ≠ 0 := by
        refine hserves _ _ (h.ncard_le.trans_lt ?_)
        rw [hf]
        exact ((indices_ncard_le step k).trans_lt hlt).trans_le hc.le
      obtain ⟨m₁, f₁, hrun, h₁, hf₁, hidle₁⟩ :=
        h.itemInsert henv (hf ▸ atStep_notMem hc hlt) hserved
      rw [hf, insert_indices] at hf₁
      obtain ⟨m', f', hloop, h', hf', hidle'⟩ := ih h₁ hf₁ hlt (by omega)
      refine ⟨m', f', ?_, h', hf', ?_⟩
      · rw [if_pos (atStep_lt hc hlt), hrun, Fault.ok_bind, atStep_succ]
        exact hloop
      · rw [hidle', hidle₁, and_assoc]
        refine and_congr_right fun _ ↦ ⟨fun ⟨hk', hall⟩ j hj hjc ↦ ?_, fun hall ↦
          ⟨hall k le_rfl hlt, fun j hj hjc ↦ hall j (by omega) hjc⟩⟩
        rcases Nat.lt_or_eq_of_le hj with hkj | rfl
        · exact hall j hkj hjc
        · exact hk'
    · refine ⟨m, f, if_neg (not_atStep_lt hc), h, hf, ?_⟩
      exact (and_iff_left fun j hj hjc ↦ absurd hj (by omega)).symm

/-- Induction on the steps left. -/
theorem benchmarkDelete_loop (hc : Stride.Reaches (2 ^ 64) step.toNat size.toNat c) {k fuel : Nat}
    {m : Machine} {f : BitVec 64 → Option Item} (h : Fit m f)
    (hf : present f = indices step k c) (hk : k ≤ c) (hfuel : c < k + fuel) :
    ∃ m' f', Machine.benchmarkDelete size step fuel (atStep step k) m = .ok m' ∧ Fit m' f' ∧
      present f' = ∅ ∧ (Idle m'.tree ↔ Idle m.tree) := by
  induction fuel generalizing k m f with
  | zero => omega
  | succ fuel ih =>
    rw [Machine.benchmarkDelete]
    rcases Nat.lt_or_eq_of_le hk with hlt | rfl
    · have hpres : atStep step k ∈ present f := by
        rw [hf]
        exact ⟨k, ⟨le_rfl, hlt⟩, rfl⟩
      obtain ⟨m₁, f₁, hrun, h₁, hf₁, hidle₁⟩ := h.itemDelete hpres
      rw [hf, indices_diff hc hlt] at hf₁
      obtain ⟨m', f', hloop, h', hf', hidle'⟩ := ih h₁ hf₁ hlt (by omega)
      refine ⟨m', f', ?_, h', hf', hidle'.trans hidle₁⟩
      rw [if_pos (atStep_lt hc hlt), hrun, Fault.ok_bind, atStep_succ]
      exact hloop
    · exact ⟨m, f, if_neg (not_atStep_lt hc), h, hf.trans (indices_self step k), Iff.rfl⟩

/-- A loop whose index never gets there does not end. -/
theorem benchmarkInsert_endless (hnever : ∀ k, atStep step k < size) (fuel k : Nat)
    (m m' : Machine) :
    Machine.benchmarkInsert env size step fuel (atStep step k) m ≠ .ok m' := by
  induction fuel generalizing k m with
  | zero => exact fun h ↦ by cases h
  | succ fuel ih =>
    rw [Machine.benchmarkInsert, if_pos (hnever k), atStep_succ]
    intro h
    obtain ⟨⟨m₁, r⟩, -, h⟩ := Fault.bind_eq_ok.mp h
    exact ih (k + 1) m₁ h

end Loops

/-- What the assertion of `item_kill_tree` depends on when no item is left. -/
theorem Fit.isInternalNode_iff {m : Machine} {f : BitVec 64 → Option Item} (h : Fit m f)
    (hf : present f = ∅) : m.tree.rnode.isInternalNode = true ↔ Idle m.tree := by
  have hempty : ∀ i, f i = none := by
    intro i
    by_contra hi
    exact Set.notMem_empty i (hf ▸ hi)
  rw [← h.stocked.stands.root_iff_idle h.slim hempty]
  cases hr : m.tree.rnode with
  | null => simp
  | node r => simp
  | item x =>
    have hx : f 0 = some x := (h.stocked.stands.holds 0 x).mp (.inl ⟨hr, rfl⟩)
    rw [hempty] at hx
    cases hx

/-- The indices that an iteration visits. -/
theorem Fit.visits_iff {m : Machine} {f : BitVec 64 → Option Item} (h : Fit m f)
    {visits : List (BitVec 64 × Entry)} (hvis : Visits m.tree 0 visits) (i : BitVec 64) :
    i ∈ visits.map Prod.fst ↔ i ∈ present f := by
  rw [List.mem_map]
  constructor
  · rintro ⟨⟨i, e⟩, hie, rfl⟩
    obtain ⟨-, hne, hlook⟩ := (hvis.mem_iff h.stocked.stands i e).mp hie
    rw [h.stocked.stands.lookup_eq, Except.ok.injEq] at hlook
    exact fun hi ↦ hne (hlook.symm.trans (answer_eq_null.mpr hi))
  · intro hi
    refine ⟨(i, answer (f i)), (hvis.mem_iff h.stocked.stands i _).mpr ⟨Nat.zero_le _, ?_, ?_⟩, rfl⟩
    · exact fun he ↦ hi (answer_eq_null.mp he)
    · exact h.stocked.stands.lookup_eq i

theorem mem_indices_iff {size step : BitVec 64} {c : Nat}
    (hc : Stride.Reaches (2 ^ 64) step.toNat size.toNat c) (i : BitVec 64) :
    i ∈ indices step 0 c ↔ ∃ k, i = atStep step k ∧ ∀ j ≤ k, atStep step j < size := by
  constructor
  · rintro ⟨k, hk, rfl⟩
    exact ⟨k, rfl, fun j hj ↦ atStep_lt hc (hj.trans_lt hk.2)⟩
  · rintro ⟨k, rfl, hall⟩
    refine ⟨k, ⟨Nat.zero_le k, ?_⟩, rfl⟩
    by_contra hck
    exact not_atStep_lt hc (hall c (not_lt.mp hck))

/-- No index below 64 is passed only if none is passed at all. -/
theorem low_iff {size step : BitVec 64} {c : Nat}
    (hc : Stride.Reaches (2 ^ 64) step.toNat size.toNat c) :
    (∀ j, 0 ≤ j → j < c → 64 ≤ (atStep step j).toNat) ↔ ¬ 0 < size := by
  have hzero : atStep step 0 = 0 := atStep_zero step
  constructor
  · intro hall hsize
    have hc0 : c ≠ 0 := by
      rintro rfl
      exact not_atStep_lt hc (hzero ▸ hsize)
    have := hall 0 le_rfl (Nat.pos_of_ne_zero hc0)
    rw [hzero] at this
    exact absurd this (by decide)
  · intro hsize j _ hj
    exact absurd (hzero ▸ atStep_lt hc (Nat.zero_lt_of_lt hj)) hsize

/-- Fewer than `n` items cannot use all of `n` addresses. -/
theorem firstFit_serves {n : Nat} (hn : n < 2 ^ 59) : (firstFit n).Serves n := by
  intro mallocs items hfew
  rw [firstFit]
  dsimp only
  have hinj : Set.InjOn blockAddress (Finset.range n : Set Nat) := by
    intro j hj k hk heq
    rw [Finset.coe_range, Set.mem_Iio] at hj hk
    have := congrArg BitVec.toNat heq
    rw [blockAddress, blockAddress, BitVec.toNat_ofNat, BitVec.toNat_ofNat] at this
    omega
  have hfree : ∃ k < n, items (blockAddress k) = none := by
    by_contra hall
    rw [not_exists] at hall
    have hsub : blockAddress '' (Finset.range n : Set Nat) ⊆ {p | items p ≠ none} := by
      rintro _ ⟨k, hk, rfl⟩ hnone
      exact hall k ⟨by simpa using hk, hnone⟩
    have hcard := Set.ncard_le_ncard hsub (Set.toFinite _)
    rw [hinj.ncard_image, Set.ncard_coe_finset, Finset.card_range] at hcard
    omega
  obtain ⟨k, hk, hnone⟩ := hfree
  cases hp : ((List.range n).map blockAddress).find? fun p ↦ (items p).isNone with
  | none =>
    have := List.find?_eq_none.mp hp (blockAddress k)
      (List.mem_map.mpr ⟨k, List.mem_range.mpr hk, rfl⟩)
    rw [hnone] at this
    exact absurd rfl this
  | some p =>
    obtain ⟨j, hj, rfl⟩ := List.mem_map.mp (List.mem_of_find?_eq_some hp)
    rw [List.mem_range] at hj
    intro hzero
    have := congrArg BitVec.toNat hzero
    rw [Option.getD_some, blockAddress, BitVec.toNat_ofNat,
      show (0 : BitVec 64).toNat = 0 from rfl] at this
    omega

theorem Env.Serves.mono {env : Env} {a b : Nat} (h : env.Serves b) (hab : a ≤ b) :
    env.Serves a := fun mallocs items hfew ↦ h mallocs items (hfew.trans_le hab)

/-- A round with a step that gets to the size. -/
theorem benchmarkSize_ends {env : Env} (henv : env.Documented) {size step : BitVec 64}
    (hserves : env.Serves size.toNat) (mallocs : Nat) {fuel : Nat} (hfuel : 2 ^ 64 < fuel)
    (hsize : size.toNat + step.toNat.gcd (2 ^ 64) ≤ 2 ^ 64) :
    ∃ m visits, benchmarkSize env (fun _ ↦ false) fuel (fun _ ↦ none) mallocs size step
        = .ok (m, visits, decide (0 < size)) ∧
      m.items = (fun _ ↦ none) ∧ (visits.map Prod.fst).Pairwise (· < ·) ∧
      ∀ i, i ∈ visits.map Prod.fst ↔
        ∃ k, i = atStep step k ∧ ∀ j ≤ k, atStep step j < size := by
  have halloc : radixTreeRootAlloc (fun _ ↦ false) = some (emptyTree fun _ ↦ false) := rfl
  obtain ⟨c, hlt, hc⟩ := Stride.exists_reaches (by decide) hsize
  have hslim := (stands_emptyTree fun _ ↦ false).2
  have hnew : Fit ⟨emptyTree fun _ ↦ false, fun _ ↦ none, mallocs⟩ (fun _ ↦ none) :=
    ⟨stocked_new mallocs, hslim.1, hslim.2, fun _ ↦ rfl⟩
  have hnone : present (fun _ ↦ none) = indices step 0 0 := by
    rw [indices_self]
    ext1 i
    exact iff_of_false (fun hi ↦ hi rfl) (Set.notMem_empty i)
  obtain ⟨m₁, f₁, hins, h₁, hf₁, hidle₁⟩ :=
    benchmarkInsert_loop henv hserves hc hnew hnone (Nat.zero_le c) (by omega : c < 0 + fuel)
  obtain ⟨visits, hiter, hvis⟩ := forEachSlot_spec h₁.stocked.stands.wf 0 hfuel
  obtain ⟨m₂, f₂, hdel, h₂, hf₂, hidle₂⟩ :=
    benchmarkDelete_loop hc h₁ hf₁ (Nat.zero_le c) (by omega : c < 0 + fuel)
  obtain ⟨t, hkill⟩ := h₂.stocked.itemKillTree hfuel
  have hstart : Idle (emptyTree fun _ ↦ false) := ⟨1, rfl⟩
  have hidle : m₂.tree.rnode.isInternalNode = true ↔ ¬ 0 < size := by
    rw [h₂.isInternalNode_iff hf₂, hidle₂, hidle₁, and_iff_right hstart]
    exact low_iff hc
  have hassert : (!m₂.tree.rnode.isInternalNode) = decide (0 < size) := by
    rw [Bool.eq_iff_iff, Bool.not_eq_true', decide_eq_true_iff, ← Bool.not_eq_true, hidle, not_not]
  rw [atStep_zero] at hins hdel
  refine ⟨⟨t, fun _ ↦ none, m₂.mallocs⟩, visits, ?_, rfl, hvis.ascending, fun i ↦ ?_⟩
  · rw [benchmarkSize, halloc]
    simp only [hins, Fault.ok_bind, Machine.benchmarkIter, hiter, hdel, hkill, hassert]
    rfl
  · rw [h₁.visits_iff hvis, hf₁, mem_indices_iff hc]

/-- A round with a step that does not. -/
theorem benchmarkSize_endless {env : Env} {oom : Nat → Bool} {items : Items} {mallocs : Nat}
    {size step : BitVec 64} (hsize : ¬ size.toNat + step.toNat.gcd (2 ^ 64) ≤ 2 ^ 64) (fuel : Nat)
    (r : Machine × List (BitVec 64 × Entry) × Bool) :
    benchmarkSize env oom fuel items mallocs size step ≠ .ok r := by
  have hnever : ∀ k, atStep step k < size := by
    intro k
    rw [BitVec.lt_def, atStep_toNat]
    by_contra hge
    exact hsize ((Stride.exists_stride_ge_iff (by decide)).mp ⟨k, not_lt.mp hge⟩)
  rw [benchmarkSize]
  intro h
  split at h
  · cases h
  · obtain ⟨m, hins, -⟩ := Fault.bind_eq_ok.mp h
    rw [← atStep_zero step] at hins
    exact benchmarkInsert_endless hnever fuel 0 _ m hins

/-- **One benchmark.** With enough memory `benchmark_size` ends exactly if the step, modulo
`2 ^ 64`, gets to the size. Then it has visited the multiples of the step that come before, each
once and in ascending order, it has freed every item, and the assertion of `item_kill_tree` holds
unless the size is 0. -/
theorem benchmarkSize_run {env : Env} (henv : env.Documented) {size step : BitVec 64}
    (hserves : env.Serves size.toNat) (mallocs : Nat) :
    (size.toNat + step.toNat.gcd (2 ^ 64) ≤ 2 ^ 64 → ∀ fuel, 2 ^ 64 < fuel →
      ∃ m visits, benchmarkSize env (fun _ ↦ false) fuel (fun _ ↦ none) mallocs size step
          = .ok (m, visits, decide (0 < size)) ∧
        m.items = (fun _ ↦ none) ∧ (visits.map Prod.fst).Pairwise (· < ·) ∧
        ∀ i, i ∈ visits.map Prod.fst ↔
          ∃ k, i = atStep step k ∧ ∀ j ≤ k, atStep step j < size) ∧
    (¬ size.toNat + step.toNat.gcd (2 ^ 64) ≤ 2 ^ 64 → ∀ fuel r,
      benchmarkSize env (fun _ ↦ false) fuel (fun _ ↦ none) mallocs size step ≠ .ok r) :=
  ⟨fun hsize _ hfuel ↦ benchmarkSize_ends henv hserves mallocs hfuel hsize,
    fun hsize fuel r ↦ benchmarkSize_endless hsize fuel r⟩

/-- `benchmarkSize_run` of a size that the step passes without meeting it. -/
theorem benchmarkSize_run_passed : ∃ m visits, benchmarkSize (firstFit 1000) (fun _ ↦ false)
      (2 ^ 64 + 1) (fun _ ↦ none) 0 1000 65 = .ok (m, visits, decide (0 < (1000 : BitVec 64))) ∧
    m.items = (fun _ ↦ none) ∧ (visits.map Prod.fst).Pairwise (· < ·) ∧
    ∀ i, i ∈ visits.map Prod.fst ↔ ∃ k, i = atStep 65 k ∧ ∀ j ≤ k, atStep 65 j < 1000 :=
  (benchmarkSize_run (firstFit_documented 1000)
    (show (firstFit 1000).Serves (1000 : BitVec 64).toNat from
      firstFit_serves (by norm_num : 1000 < 2 ^ 59)) 0).1 (by decide +kernel) _ (Nat.lt_succ_self _)

/-! ### The whole benchmark -/

section Sizes

variable {env : Env} {n fuel : Nat} {size : BitVec 64} {steps sizes : List (BitVec 64)}

theorem benchmarkSteps_eq (henv : env.Documented) (hserves : env.Serves n) (hfuel : 2 ^ 64 < fuel)
    (hpos : 0 < size) (hn : size.toNat ≤ n)
    (hsteps : ∀ step ∈ steps, step ≠ 0 ∧ size.toNat + step.toNat.gcd (2 ^ 64) ≤ 2 ^ 64)
    (mallocs : Nat) :
    ∃ mallocs', benchmarkSteps env (fun _ ↦ false) fuel size (steps ++ [0]) (fun _ ↦ none) mallocs
      = .ok (fun _ ↦ none, mallocs', true) := by
  induction steps generalizing mallocs with
  | nil => exact ⟨mallocs, rfl⟩
  | cons step steps ih =>
    obtain ⟨hne, hsize⟩ := hsteps step List.mem_cons_self
    obtain ⟨m, visits, hrun, hitems, -⟩ :=
      benchmarkSize_ends henv (hserves.mono hn) mallocs hfuel hsize
    obtain ⟨mallocs', hrest⟩ := ih (fun s hs ↦ hsteps s (List.mem_cons_of_mem _ hs)) m.mallocs
    refine ⟨mallocs', ?_⟩
    rw [List.cons_append, benchmarkSteps, if_neg hne, hrun, Fault.ok_bind]
    simp only [hpos, decide_true, if_true, hitems]
    exact hrest

/-- **The benchmark.** For every two arrays of sizes and steps with a 0 at the end, if each step
gets to each size, the loops of `benchmark` end with no item left, and no assertion fails. -/
theorem benchmarkSizes_run (henv : env.Documented) (hserves : env.Serves n) (hfuel : 2 ^ 64 < fuel)
    (hsizes : ∀ size ∈ sizes, size ≠ 0 ∧ size.toNat ≤ n)
    (hsteps : ∀ size ∈ sizes, ∀ step ∈ steps,
      step ≠ 0 ∧ size.toNat + step.toNat.gcd (2 ^ 64) ≤ 2 ^ 64) (mallocs : Nat) :
    ∃ mallocs', benchmarkSizes env (fun _ ↦ false) fuel (steps ++ [0]) (sizes ++ [0])
      (fun _ ↦ none) mallocs = .ok (fun _ ↦ none, mallocs', true) := by
  induction sizes generalizing mallocs with
  | nil => exact ⟨mallocs, rfl⟩
  | cons size sizes ih =>
    obtain ⟨hne, hn⟩ := hsizes size List.mem_cons_self
    have hpos : 0 < size := by
      rw [BitVec.lt_def]
      exact Nat.pos_of_ne_zero fun hzero ↦ hne (BitVec.eq_of_toNat_eq hzero)
    obtain ⟨mallocs₁, hrun⟩ := benchmarkSteps_eq henv hserves hfuel
      hpos hn (hsteps size List.mem_cons_self) mallocs
    obtain ⟨mallocs', hrest⟩ := ih (fun s hs ↦ hsizes s (List.mem_cons_of_mem _ hs))
      (fun s hs ↦ hsteps s (List.mem_cons_of_mem _ hs)) mallocs₁
    refine ⟨mallocs', ?_⟩
    rw [List.cons_append, benchmarkSizes, if_neg hne, hrun, Fault.ok_bind]
    exact hrest

/-- `benchmarkSizes_run` of the program. -/
theorem benchmarkSizes_run_program : ∃ mallocs',
    benchmark (firstFit (2 ^ 20)) (fun _ ↦ false) (2 ^ 64 + 1)
      = .ok (fun _ ↦ none, mallocs', true) := by
  have hserves : (firstFit (2 ^ 20)).Serves (2 ^ 20) := firstFit_serves (by norm_num)
  have hfuel : 2 ^ 64 < 2 ^ 64 + 1 := Nat.lt_succ_self _
  have hsizes : ∀ size ∈ [(1 <<< 10 : BitVec 64), 1 <<< 20],
      size ≠ 0 ∧ size.toNat ≤ 2 ^ 20 := by simp
  have hsteps : ∀ size ∈ [(1 <<< 10 : BitVec 64), 1 <<< 20],
      ∀ step ∈ [(1 : BitVec 64), 2, 7, 15, 63, 64, 65, 128, 256, 512, 12345],
        step ≠ 0 ∧ size.toNat + step.toNat.gcd (2 ^ 64) ≤ 2 ^ 64 := by simp
  unfold benchmark
  exact benchmarkSizes_run (firstFit_documented _) hserves hfuel hsizes hsteps 0

end Sizes

end Jeopardy.RadixTree
