import Jeopardy.Hotring.Delete
import Jeopardy.Lib.CyclicOrder

/-!
# What the table of rings reports

`display` prints every ring once around, from its head. `__hash_get_largest` follows a ring from
its head as long as the tags do not fall, so on a ring cyclically sorted by tag it stops at the
largest key of the bucket. Both only read.
-/

namespace Jeopardy.Hotring

open Rings Fault

variable {D : Type} [DoubleArith D] {m : Mem} {h : Hash} {ring : Nat → List Nat}
  {f : Nat → Option Nat} {i c : Nat} {xs : List Nat}

/-- What is printed of a node, `hotring/hotring.c:536,539`. -/
structure Shown where
  key : Nat
  tag : Nat
  value : Nat
deriving DecidableEq, Repr

/-- The arguments of `printv` for a node. -/
def HashNode.shown (nd : HashNode) : Shown := ⟨nd.key, nd.tag, nd.value⟩

/-- The body of the loop `hotring/hotring.c:537–540`. Its state is what it has printed. -/
def displayBody (m : Mem) (p : Nat) (printed : List Shown) :
    Except Fault (ForInStep (Mem × List Shown)) := do
  let tmp ← m.read p
  return .yield (m, printed ++ [tmp.shown])

/-- The round of `display` for index `i`, `hotring/hotring.c:534–545`: the nodes it prints, or
`none` for `~~`. -/
def displayRow (m : Mem) (h : Hash) (i : Nat) : Except Fault (Option (List Shown)) := do
  match ← h.slot i with
  | none => return none
  | some head =>
    let node ← m.read head.addr
    let (_, printed) ← listForEach displayBody m head.addr [node.shown]
    return some printed

/-- What `display` prints at verbosity 2, `hotring/hotring.c:528–548`. -/
def displayRows (m : Mem) (h : Hash) : Except Fault (List (Option (List Shown))) :=
  (List.range h.size).mapM (displayRow m h)

/-- The body of the loop `hotring/hotring.c:123–135`. Its state is `prev`. -/
def largestBody (m : Mem) (p : Nat) (prev : Nat) : Except Fault (ForInStep (Mem × Nat)) := do
  let next ← m.read p
  let nd ← m.read prev
  if next.tag < nd.tag then return .done (m, prev) else return .yield (m, p)

/-- `__hash_get_largest`, `hotring/hotring.c:110–141`: `*nodep` where it is assigned. -/
def hashGetLargest (m : Mem) (h : Hash) (hashIndex : Nat) : Except Fault (Option Nat) := do
  match ← h.slot hashIndex with
  | none => return none
  | some head =>
    let (_, prev) ← listForEach largestBody m head.addr head.addr
    return some prev

/-! ### Loops that only read -/

/-- A body that never stores keeps all links. -/
theorem keepsLinks_of_reads {σ : Type}
    {body : Mem → Nat → σ → Except Fault (ForInStep (Mem × σ))} (ys : List Nat)
    (hb : ∀ m a s m' s', body m a s = .ok (.yield (m', s')) → m' = m) : KeepsLinks body m ys := by
  intro m₁ a s m₂ s' _ hm hr
  rw [hb m₁ a s m₂ s' hr]
  exact hm

/-- What is printed of the node at `a`. -/
def Mem.shown (m : Mem) (a : Nat) : Shown := ⟨m.key a, m.tag a, m.value a⟩

theorem shown_of_node {a : Nat} {nd : HashNode} (hnd : m.node a = some nd) :
    nd.shown = m.shown a := by
  rw [Mem.shown, Mem.key_of_node hnd, Mem.tag_of_node hnd, Mem.value_of_node hnd]
  rfl

theorem foldRing_display (printed : List Shown) (hn : ∀ a ∈ xs, ∃ nd, m.node a = some nd) :
    foldRing displayBody m xs printed = .ok (m, printed ++ xs.map m.shown) := by
  induction xs generalizing printed with
  | nil =>
    rw [List.map_nil, List.append_nil]
    rfl
  | cons x xs ih =>
    obtain ⟨nd, hx⟩ := hn x List.mem_cons_self
    rw [foldRing, displayBody, Mem.read_eq hx, ok_bind]
    simp only [pure, Except.pure, ok_bind]
    rw [ih _ (fun a ha ↦ hn a (List.mem_cons_of_mem x ha)), List.map_cons, shown_of_node hx,
      List.append_assoc]
    rfl

theorem foldRing_largest (hn : ∀ a ∈ c :: xs, ∃ nd, m.node a = some nd) :
    foldRing largestBody m xs c = .ok (m, summit m.tag c xs) := by
  induction xs generalizing c with
  | nil => rfl
  | cons x xs ih =>
    obtain ⟨nd, hc⟩ := hn c List.mem_cons_self
    obtain ⟨nd', hx⟩ := hn x (by simp)
    rw [foldRing, largestBody, Mem.read_eq hx, ok_bind, Mem.read_eq hc, ok_bind, summit,
      Mem.tag_of_node hx, Mem.tag_of_node hc]
    split
    · rfl
    · exact ih (fun a ha ↦ hn a (List.mem_cons_of_mem c ha))

/-- Printing the nodes of a ring reads what walking along it reads. -/
theorem map_listForEachFrom_display (head fuel pos : Nat) (printed : List Shown) :
    (listForEachFrom displayBody head fuel m pos printed).map (fun _ ↦ (m, ()))
      = listForEachFrom (fun m _ (_ : Unit) ↦ .ok (.yield (m, ()))) head fuel m pos () := by
  induction fuel generalizing pos printed with
  | zero => rfl
  | succ fuel ih =>
    rw [listForEachFrom, listForEachFrom]
    split
    · rfl
    · cases hread : m.read pos with
      | error e => simp only [displayBody, hread, error_bind, ok_bind, Except.map]
      | ok nd =>
        simp only [displayBody, hread, ok_bind, pure, Except.pure]
        exact ih nd.list.addr _

theorem map_displayRow (m : Mem) (h : Hash) (i : Nat) :
    (displayRow m h i).map (fun _ ↦ m) = displayStep h m i := by
  rw [displayRow, displayStep]
  cases h.slot i with
  | error e => rfl
  | ok slot =>
    cases slot with
    | none => rfl
    | some head =>
      simp only [ok_bind, listForEach]
      cases hread : m.read head.addr with
      | error e => rfl
      | ok nd =>
        simp only [ok_bind]
        rw [← map_listForEachFrom_display head.addr _ _ [nd.shown]]
        cases listForEachFrom displayBody head.addr (m.brk + 1) m nd.list.addr [nd.shown] <;> rfl

/-- `display` faults where what it prints is undefined, and only there. -/
theorem map_displayRows (m : Mem) (h : Hash) :
    (displayRows m h).map (fun _ ↦ m) = display m h := by
  rw [displayRows, display]
  induction List.range h.size with
  | nil => rfl
  | cons i is ih =>
    rw [List.mapM_cons, List.foldlM_cons, ← map_displayRow]
    cases displayRow m h i with
    | error e => rfl
    | ok row =>
      rw [ok_bind, Except.map, ok_bind, ← ih]
      cases List.mapM (displayRow m h) is <;> rfl

/-! ### One bucket -/

/-- The row of a bucket lists its ring. -/
theorem BucketAt.displayRow_eq (hb : BucketAt m h i xs) :
    displayRow m h i = .ok (if xs = [] then none else some (xs.map m.shown)) := by
  rw [displayRow, hb.slot_eq, ok_bind]
  cases hslot : h.slots i with
  | none =>
    have hnil : xs = [] := by simpa [hslot, eq_comm] using hb.head
    rw [if_pos hnil]
    rfl
  | some head =>
    obtain ⟨ys, rfl⟩ : ∃ ys, xs = head.addr :: ys := by
      have hh := hb.head
      rw [hslot, Option.map_some, eq_comm, List.head?_eq_some_iff] at hh
      exact hh
    have hnodes (a : Nat) (ha : a ∈ head.addr :: ys) := Mem.node_of_ring hb.linked ha
    obtain ⟨nd, hnd⟩ := hnodes head.addr List.mem_cons_self
    have hloop : listForEach displayBody m head.addr [nd.shown]
        = .ok (m, (head.addr :: ys).map m.shown) := by
      rw [listForEach_eq_fold _ hb.linked,
        foldRing_display _ (fun a ha ↦ hnodes a (List.mem_cons_of_mem _ ha)), shown_of_node hnd]
      · rfl
      · apply keepsLinks_of_reads
        intro m₁ a s m₂ s' hr
        obtain ⟨tmp, -, hr⟩ := bind_eq_ok.mp hr
        cases hr
        rfl
    rw [if_neg (List.cons_ne_nil _ _)]
    simp only [Mem.read_eq hnd, ok_bind, hloop]
    rfl

/-- The walk of `__hash_get_largest` over a bucket. -/
theorem BucketAt.hashGetLargest_eq (hb : BucketAt m h i xs) :
    hashGetLargest m h i = .ok (xs.head?.map (fun c ↦ summit m.tag c xs.tail)) := by
  rw [hashGetLargest, hb.slot_eq, ok_bind]
  cases hslot : h.slots i with
  | none =>
    have hnil : xs = [] := by simpa [hslot, eq_comm] using hb.head
    rw [hnil]
    rfl
  | some head =>
    obtain ⟨ys, rfl⟩ : ∃ ys, xs = head.addr :: ys := by
      have hh := hb.head
      rw [hslot, Option.map_some, eq_comm, List.head?_eq_some_iff] at hh
      exact hh
    have hloop : listForEach largestBody m head.addr head.addr
        = .ok (m, summit m.tag head.addr ys) := by
      rw [listForEach_eq_fold _ hb.linked,
        foldRing_largest (fun a ha ↦ Mem.node_of_ring hb.linked ha)]
      apply keepsLinks_of_reads
      intro m₁ a s m₂ s' hr
      obtain ⟨nd, -, hr⟩ := bind_eq_ok.mp hr
      obtain ⟨nd', -, hr⟩ := bind_eq_ok.mp hr
      split at hr
      · cases hr
      · cases hr
        rfl
    simp only [hloop, ok_bind]
    rfl

/-! ### Programs -/

/-- The row of index `i` on a table of `2 ^ k` rings for keys of `n` bits that stands for `f`. -/
structure RowOf (n k : Nat) (f : Nat → Option Nat) (i : Nat) (row : Option (List Shown)) :
    Prop where
  /-- `~~` is printed for the buckets without a key. -/
  empty : row = none ↔ ∀ q, q / 2 ^ (n - k) = i → f q = none
  /-- What is printed is stored, with its tag, and what is stored is printed. -/
  stored : ∀ xs ∈ row, ∀ x, x ∈ xs ↔
    x.key / 2 ^ (n - k) = i ∧ x.tag = x.key % 2 ^ (n - k) ∧ f x.key = some x.value
  /-- No key is printed twice. -/
  once : ∀ xs ∈ row, (xs.map Shown.key).Nodup
  /-- The keys ascend around the ring. -/
  sorted : ∀ xs ∈ row, CyclicSorted Shown.key xs

/-- A ring is empty when the map holds nothing in its bucket. -/
theorem Refines.ring_eq_nil_iff (r : Refines m h ring f) (hi : i < h.size) :
    ring i = [] ↔ ∀ q, h.index q = i → f q = none := by
  have hlt (q : Nat) (hq : h.index q = i) : q < 2 ^ h.n :=
    r.table.geometry.lt_of_index_lt (hq ▸ hi)
  constructor
  · intro hnil q hq
    rw [← r.contents q (hlt q hq), Table.contents_eq_none, hq, hnil]
    exact fun a ha ↦ absurd ha List.not_mem_nil
  · intro hnone
    rw [List.eq_nil_iff_forall_not_mem]
    intro a ha
    have hidx := r.table.index i hi a ha
    have hc := r.contents (m.key a) (hlt _ hidx)
    rw [hnone _ hidx, Table.contents_eq_none, hidx] at hc
    exact hc a ha rfl

/-- The nodes of a ring are what the map holds in its bucket. -/
theorem Refines.mem_ring_iff (r : Refines m h ring f) (hi : i < h.size) {q v : Nat} :
    (∃ a ∈ ring i, m.key a = q ∧ m.value a = v) ↔ h.index q = i ∧ f q = some v := by
  constructor
  · rintro ⟨a, ha, rfl, rfl⟩
    have hidx := r.table.index i hi a ha
    have hlt := r.table.geometry.lt_of_index_lt (hidx ▸ hi)
    refine ⟨hidx, ?_⟩
    rw [← r.contents _ hlt, r.table.contents_eq_some hlt, hidx]
    exact ⟨a, ha, rfl, rfl⟩
  · rintro ⟨rfl, hf⟩
    have hlt := r.table.geometry.lt_of_index_lt hi
    rw [← r.contents _ hlt, r.table.contents_eq_some hlt] at hf
    exact hf

theorem Refines.rowOf (r : Refines m h ring f) (hf : FreshTags m h ring) (hi : i < h.size) :
    RowOf h.n h.k f i (if ring i = [] then none else some ((ring i).map m.shown)) := by
  have hmap : ((ring i).map m.shown).map Shown.key = (ring i).map m.key := by
    rw [List.map_map]
    rfl
  have hrow {xs : List Shown}
      (hx : xs ∈ (if ring i = [] then none else some ((ring i).map m.shown))) :
      xs = (ring i).map m.shown := by
    split at hx
    · cases hx
    · exact (Option.some.inj hx).symm
  constructor
  · rw [ite_eq_left_iff]
    simp only [reduceCtorEq, imp_false, not_not]
    exact r.ring_eq_nil_iff hi
  · intro xs hx x
    rw [hrow hx, List.mem_map]
    constructor
    · rintro ⟨a, ha, rfl⟩
      obtain ⟨hidx, hv⟩ := (r.mem_ring_iff hi).mp ⟨a, ha, rfl, rfl⟩
      exact ⟨hidx, hf i hi a ha, hv⟩
    · rintro ⟨hidx, htag, hv⟩
      obtain ⟨a, ha, hk, hval⟩ := (r.mem_ring_iff hi).mpr ⟨hidx, hv⟩
      refine ⟨a, ha, ?_⟩
      rw [Mem.shown, hf i hi a ha, hk, hval, Hash.tagOf, Hash.bits, ← htag]
  · intro xs hx
    rw [hrow hx, hmap]
    exact r.table.keys_nodup i hi
  · intro xs hx
    rw [hrow hx]
    exact CyclicSorted.map (r.sorted i hi)

/-- `display` of a table that stands for `f` prints `f`, bucket after bucket. -/
theorem Refines.displayRows_eq (r : Refines m h ring f) (hf : FreshTags m h ring) :
    ∃ rows, displayRows m h = .ok rows ∧ rows.length = 2 ^ h.k ∧
      ∀ i < 2 ^ h.k, ∃ row, rows[i]? = some row ∧ RowOf h.n h.k f i row := by
  let row (i : Nat) := if ring i = [] then none else some ((ring i).map m.shown)
  refine ⟨(List.range h.size).map row, ?_, ?_, ?_⟩
  · exact Fault.mapM_eq (fun i hi ↦ (r.table.bucket i (List.mem_range.mp hi)).displayRow_eq)
  · rw [List.length_map, List.length_range, r.table.geometry.size]
  · intro i hi
    rw [← r.table.geometry.size] at hi
    refine ⟨row i, ?_, r.rowOf hf hi⟩
    rw [List.getElem?_map, List.getElem?_range hi, Option.map_some]

/-- `__hash_get_largest` answers the node with the largest key of the bucket. -/
theorem Refines.hashGetLargest_spec (r : Refines m h ring f) (hf : FreshTags m h ring)
    (hi : i < h.size) : ∃ o, hashGetLargest m h i = .ok o ∧
      (o = none ↔ ∀ q, h.index q = i → f q = none) ∧
      ∀ a ∈ o, h.index (m.key a) = i ∧ f (m.key a) = some (m.value a) ∧
        ∀ q, h.index q = i → f q ≠ none → q ≤ m.key a := by
  have hb := r.table.bucket i hi
  refine ⟨_, hb.hashGetLargest_eq, ?_, ?_⟩
  · rw [Option.map_eq_none_iff, List.head?_eq_none_iff]
    exact r.ring_eq_nil_iff hi
  · intro a ha
    obtain ⟨c, hc, rfl⟩ := Option.map_eq_some_iff.mp ha
    obtain ⟨xs, hx⟩ := List.head?_eq_some_iff.mp hc
    rw [hx, List.tail_cons]
    have hmem : summit m.tag c xs ∈ ring i := hx ▸ summit_mem m.tag c xs
    obtain ⟨hidx, hv⟩ := (r.mem_ring_iff hi).mp ⟨_, hmem, rfl, rfl⟩
    refine ⟨hidx, hv, ?_⟩
    intro q hq hfq
    obtain ⟨v, hfv⟩ := Option.ne_none_iff_exists'.mp hfq
    obtain ⟨b, hb, rfl, -⟩ := (r.mem_ring_iff hi).mpr ⟨hq, hfv⟩
    -- the tags of one bucket are in the order of the keys
    have hsorted := (r.table.sorted_iff_tag hf hi).mp (r.sorted i hi)
    rw [hx] at hsorted
    have hle := hsorted.le_summit (hx ▸ hb : b ∈ c :: xs)
    rw [hf i hi b hb, hf i hi _ hmem] at hle
    exact (le_iff_tagOf_le (hq.trans hidx.symm)).mpr hle

section Run

variable {n k : Nat} {r : Int} {s s' : State} {calls : List Call}

/-- A program that has not rehashed works with the size of key it started with. -/
theorem run_n (hs : start m r n k = .ok s) (hrun : run D s calls = .ok s') (hk : s'.hash.k = k) :
    s'.hash.n = n := by
  obtain ⟨-, rfl⟩ := start_eq_ok.mp hs
  rcases run_shape hrun with hsh | hlt
  · exact hsh.n
  · rw [hk] at hlt
    exact absurd hlt (lt_irrefl k)

/-- After a program without rehash whose deletions spare shared heads, `display` prints what the
program stored. -/
theorem displayRows_run [LawfulDouble D] (hs : start m r n k = .ok s) (hk : k ≤ n)
    (hb : n - k ≤ 30) (hd : (insertedKeys calls).Nodup) (hgood : SparesHeads D s calls)
    (hrun : run D s calls = .ok s') (hk' : s'.hash.k = k) :
    ∃ rows, displayRows s'.mem s'.hash = .ok rows ∧ rows.length = 2 ^ k ∧
      ∀ i < 2 ^ k, ∃ row, rows[i]? = some row ∧ RowOf n k (history calls) i row := by
  obtain ⟨ring, hr, hf⟩ := run_unrehashed hs hk hb hd hgood hrun hk'
  have h := hr.displayRows_eq hf
  rwa [hk', run_n hs hrun hk'] at h

/-- Three keys of one bucket, and a shift of its head to the last of them. -/
def threeKeys : List Call := [.insert 5 50, .insert 7 70, .insert 6 60, .repoint 1 2]

theorem sparesHeads_threeKeys (s : State) : SparesHeads D s threeKeys := by
  intro pre key s₁ hpre
  have hm : Call.delete key ∈ threeKeys := hpre.subset (by simp)
  simp [threeKeys] at hm

/-- `displayRows_run` of three keys of one bucket whose head was moved. -/
theorem displayRows_run_three_keys :
    ∃ s' rows, run ℚ ⟨.init, ⟨4, 2, 4, fun _ ↦ none⟩, 0⟩ threeKeys = .ok s' ∧
      displayRows s'.mem s'.hash = .ok rows ∧
      ∃ row, rows[1]? = some row ∧ RowOf 4 2 (history threeKeys) 1 row := by
  obtain ⟨rows, hrows, -, h⟩ := displayRows_run (D := ℚ) (m := .init) (n := 4) (k := 2) (r := 0)
    rfl (by decide) (by decide) (by decide) (sparesHeads_threeKeys _) rfl rfl
  exact ⟨_, rows, rfl, hrows, h 1 (by decide)⟩

/-- After such a program `__hash_get_largest` answers the node with the largest key that the
program stored in the bucket, and nothing exactly for the empty buckets. -/
theorem hashGetLargest_run [LawfulDouble D] (hs : start m r n k = .ok s) (hk : k ≤ n)
    (hb : n - k ≤ 30) (hd : (insertedKeys calls).Nodup) (hgood : SparesHeads D s calls)
    (hrun : run D s calls = .ok s') (hk' : s'.hash.k = k) (hi : i < 2 ^ k) :
    ∃ o, hashGetLargest s'.mem s'.hash i = .ok o ∧
      (o = none ↔ ∀ q, q / 2 ^ (n - k) = i → history calls q = none) ∧
      ∀ a ∈ o, s'.mem.key a / 2 ^ (n - k) = i ∧
        history calls (s'.mem.key a) = some (s'.mem.value a) ∧
        ∀ q, q / 2 ^ (n - k) = i → history calls q ≠ none → q ≤ s'.mem.key a := by
  obtain ⟨ring, hr, hf⟩ := run_unrehashed hs hk hb hd hgood hrun hk'
  have h := hr.hashGetLargest_spec hf (i := i) (by rwa [hr.table.geometry.size, hk'])
  simp only [Hash.index, Hash.bits, hk', run_n hs hrun hk'] at h
  exact h

/-- Keys 5, 7 and 6 share a bucket, whose head was moved to key 7. -/
theorem hashGetLargest_run_repointed :
    ∃ s' o, run ℚ ⟨.init, ⟨4, 2, 4, fun _ ↦ none⟩, 0⟩ threeKeys = .ok s' ∧
      hashGetLargest s'.mem s'.hash 1 = .ok o ∧
      ∀ a ∈ o, ∀ q, q / 2 ^ (4 - 2) = 1 → history threeKeys q ≠ none → q ≤ s'.mem.key a := by
  obtain ⟨o, ho, -, hmax⟩ := hashGetLargest_run (D := ℚ) (m := .init) (n := 4) (k := 2)
    (r := 0) rfl (by decide) (by decide) (by decide) (sparesHeads_threeKeys _) rfl rfl
    (show 1 < 2 ^ 2 by decide)
  exact ⟨_, o, rfl, ho, fun a ha ↦ (hmax a ha).2.2⟩

end Run

end Jeopardy.Hotring
