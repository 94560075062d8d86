import Jeopardy.Lib.Ownership
import Jeopardy.RadixTree.KillTree
import Jeopardy.RadixTree.Space

/-!
# Items

Model of `radix_tree/test.c` and `radix_tree/test.h`: items that `malloc` allocates, a tree that
holds them, and their deletion. The tree's nodes and the items are memory of their own each.
-/

namespace Jeopardy.RadixTree

/-- `struct item`, `radix_tree/test.h:6–10`, without its list head, which nothing reads. -/
structure ItemObject where
  index : BitVec 64
  order : BitVec 32
deriving DecidableEq

/-- The live items by address. -/
abbrev Items := BitVec 64 → Option ItemObject

/-- What the code takes from outside: the answers of `malloc`, by the number of calls so far and
the items alive, `0` for `NULL`; and what the store of a parent pointer to an item, taken for a
node, makes of the item. -/
structure Env where
  malloc : Nat → Items → BitVec 64
  clobber : ItemObject → ItemObject

/-- What is documented of `malloc`: its answer is `NULL` or the aligned address of a new object. -/
structure Env.Documented (env : Env) : Prop where
  fresh : ∀ (n : Nat) (items : Items), env.malloc n items ≠ 0 → items (env.malloc n items) = none
  aligned : ∀ (n : Nat) (items : Items), env.malloc n items &&& 15 = 0

/-- A tree, the items alive and the number of calls of `malloc` so far. -/
structure Machine where
  tree : Tree
  items : Items
  mallocs : Nat

/-- Load of a whole item. -/
def loadItem (items : Items) : Entry → Except Fault ItemObject
  | .null => .error .nullDeref
  | .node _ => .error .badPointer
  | .item x => match items x.word with
    | none => .error .badPointer
    | some obj => .ok obj

/-- `free`, of an item. -/
def free (items : Items) : Entry → Except Fault Items
  | .null => .ok items
  | .node _ => .error .badPointer
  | .item x => match items x.word with
    | none => .error .badPointer
    | some _ => .ok (Function.update items x.word none)

/-- The items after stores to the objects of some of them. -/
def overwrite (clobber : ItemObject → ItemObject) (items : Items) (stores : List Item) : Items :=
  stores.foldr (fun x items ↦ Function.update items x.word ((items x.word).map clobber)) items

namespace Machine

/-- `item_create`, `radix_tree/test.c:26–33`. It does not check for `NULL`. -/
def itemCreate (env : Env) (m : Machine) (index : BitVec 64) (order : BitVec 32) :
    Except Fault (Machine × Item) :=
  let ret := env.malloc m.mallocs m.items
  if h : ret = 0 then .error .nullDeref
  else .ok ({ m with
    items := Function.update m.items ret (some ⟨index, order⟩)
    mallocs := m.mallocs + 1 }, ⟨ret, h⟩)

/-- `item_insert`, `radix_tree/test.c:35–42`. -/
def itemInsert (env : Env) (m : Machine) (index : BitVec 64) : Except Fault (Machine × Int) := do
  let (m, item) ← m.itemCreate env index 0
  let obj ← loadItem m.items (.item item)
  let (tree, err) ← radixTreeInsert m.tree obj.index item
  -- the tree's own stores to items
  let stores := tree.itemStores.take (tree.itemStores.length - m.tree.itemStores.length)
  let items := overwrite env.clobber m.items stores
  let items ← if err ≠ 0 then free items (.item item) else pure items
  return ({ m with tree := tree, items := items }, err)

/-- The assertions of `item_sanity`, `radix_tree/test.c:44–51`. -/
def itemSanity (m : Machine) (item : Entry) (index : BitVec 64) : Except Fault Bool :=
  if item.isInternalNode then .ok false
  else do
    let obj ← loadItem m.items item
    if 64 ≤ obj.order.toNat then return false
    let mask := ((1 : BitVec 64) <<< obj.order.toNat) - 1
    return (obj.index ||| mask) == (index ||| mask)

/-- `item_delete` with `item_free`, `radix_tree/test.c:53–68`. -/
def itemDelete (m : Machine) (index : BitVec 64) : Except Fault (Machine × Int) := do
  let (tree, item) ← radixTreeDelete m.tree index
  if item = .null then return ({ m with tree := tree }, 0)
  let items ← free m.items item
  return ({ m with tree := tree, items := items }, 1)

/-- The assertions of `item_check_present`, `radix_tree/test.c:91–98`. -/
def itemCheckPresent (m : Machine) (index : BitVec 64) : Except Fault Bool := do
  let item ← radixTreeLookup m.tree index
  if item = .null then return false
  m.itemSanity item index

/-- The loop of `item_kill_tree`, `radix_tree/test.c:264–269`, with the items it frees. -/
def killLoop (restarts : Nat) : Nat → Machine → Option Slot → Iter → Except Fault Machine
  | 0, _, _, _ => .error .diverges
  | fuel + 1, m, slot, iter => do
    let (iter, slot) ← (match slot with
      | some slot => return (iter, some slot)
      | none => radixTreeNextChunk m.tree restarts iter)
    match slot with
    | none => return m
    | some slot =>
      let items ← free m.items (← m.tree.load slot)
      let tree ← radixTreeReplaceSlot m.tree slot .null
      let (iter, slot) ← radixTreeNextSlotOf tree (some slot) iter
      killLoop restarts fuel { m with tree := tree, items := items } slot iter

/-- `item_kill_tree`, `radix_tree/test.c:258–272`, and what its closing assertion finds. -/
def itemKillTree (m : Machine) (fuel : Nat) : Except Fault (Machine × Bool) := do
  let m ← killLoop fuel fuel m none (radixTreeIterInit 0)
  return (m, decide (m.tree.rnode = .null))

end Machine

/-- The calls of a program over items. -/
inductive ItemCall where
  | insert (index : BitVec 64)
  | delete (index : BitVec 64)
deriving DecidableEq

/-- One call and what it answers. -/
def ItemCall.step (env : Env) (m : Machine) : ItemCall → Except Fault (Machine × Int)
  | .insert index => m.itemInsert env index
  | .delete index => m.itemDelete index

/-- A sequence of calls. -/
def runItems (env : Env) : Machine → List ItemCall → Except Fault (Machine × List Int)
  | m, [] => .ok (m, [])
  | m, c :: calls => do
    let (m, r) ← c.step env m
    let (m, rs) ← runItems env m calls
    return (m, r :: rs)

/-- Every call of the program meets `P` when it is made. -/
def AlongItems (env : Env) (P : Machine → ItemCall → Bool) : Machine → List ItemCall → Bool
  | _, [] => true
  | m, c :: calls => P m c && match c.step env m with
    | .ok (m, _) => AlongItems env P m calls
    | .error _ => true

/-- An insertion whose `malloc` answers an address, or a deletion of an index that is present or
beyond the nodes. -/
def ItemCall.careful (env : Env) (m : Machine) : ItemCall → Bool
  | .insert _ => env.malloc m.mallocs m.items != 0
  | .delete i => isPresent m.tree i || isBeyond m.tree i

/-- Not an insertion that grows the tree over an item in its root pointer. -/
def ItemCall.sparing (m : Machine) : ItemCall → Bool
  | .insert i => (spill m.tree i).isEmpty
  | .delete _ => true

/-! ### The set of the present indices -/

/-- What a call may answer with `s` present and `n` the number of the next allocation of a node,
and what these are then. An insertion answers `-ENOMEM` only for an absent index, and only if its
last allocation has failed. -/
inductive Answers (oom : Nat → Bool) (s : Set (BitVec 64)) (n : Nat) :
    ItemCall → Int → Set (BitVec 64) → Nat → Prop where
  | inserted {i : BitVec 64} {n' : Nat} (hi : i ∉ s) (hn : n ≤ n') :
      Answers oom s n (.insert i) 0 (insert i s) n'
  | exists {i : BitVec 64} (hi : i ∈ s) : Answers oom s n (.insert i) (-EEXIST) s n
  | enomem {i : BitVec 64} {n' : Nat} (hi : i ∉ s) (hn : n < n') (hoom : oom (n' - 1) = true) :
      Answers oom s n (.insert i) (-ENOMEM) s n'
  | deleted {i : BitVec 64} {n' : Nat} (hi : i ∈ s) (hn : n ≤ n') :
      Answers oom s n (.delete i) 1 (s \ {i}) n'
  | absent {i : BitVec 64} {n' : Nat} (hi : i ∉ s) (hn : n ≤ n') :
      Answers oom s n (.delete i) 0 s n'

/-- The same for a sequence of calls. -/
inductive AnswersAll (oom : Nat → Bool) :
    Set (BitVec 64) → Nat → List ItemCall → List Int → Set (BitVec 64) → Nat → Prop where
  | nil {s : Set (BitVec 64)} {n : Nat} : AnswersAll oom s n [] [] s n
  | cons {s s' s'' : Set (BitVec 64)} {n n' n'' : Nat} {c : ItemCall} {calls : List ItemCall}
      {r : Int} {rs : List Int} (hc : Answers oom s n c r s' n')
      (hcalls : AnswersAll oom s' n' calls rs s'' n'') :
      AnswersAll oom s n (c :: calls) (r :: rs) s'' n''

/-- The address of the item at each index. -/
def addresses (f : BitVec 64 → Option Item) (i : BitVec 64) : Option (BitVec 64) :=
  (f i).map Item.word

theorem addresses_update (f : BitVec 64 → Option Item) (i : BitVec 64) (x : Option Item) :
    addresses (Function.update f i x) = Function.update (addresses f) i (x.map Item.word) := by
  ext1 j
  by_cases hj : j = i
  · rw [hj, addresses, Function.update_self, Function.update_self]
  · rw [addresses, Function.update_of_ne hj, Function.update_of_ne hj, addresses]

theorem present_insert (f : BitVec 64 → Option Item) (i : BitVec 64) (x : Item) :
    present (Function.update f i (some x)) = insert i (present f) := by
  ext1 j
  rw [present, Set.mem_ofPred_eq, Set.mem_insert_iff, Function.update_apply]
  by_cases hj : j = i
  · simp [hj]
  · rw [if_neg hj, or_iff_right hj]
    rfl

theorem present_delete (f : BitVec 64 → Option Item) (i : BitVec 64) :
    present (Function.update f i none) = present f \ {i} := by
  ext1 j
  rw [present, Set.mem_ofPred_eq, Set.mem_sdiff, Set.mem_singleton_iff, Function.update_apply]
  by_cases hj : j = i
  · simp [hj]
  · rw [if_neg hj, and_iff_left hj]
    rfl

/-! ### Items and tree -/

/-- The tree stands for `f`, and the items alive are those it holds, each at one index. -/
structure Stocked (m : Machine) (f : BitVec 64 → Option Item) : Prop where
  stands : Stands m.tree f
  owned : Ownership.Owned m.items (addresses f)
  aligned : ∀ i x, f i = some x → x.word &&& 15 = 0

/-- Every item knows its index. -/
def Labelled (m : Machine) (f : BitVec 64 → Option Item) : Prop :=
  ∀ i x, f i = some x → m.items x.word = some ⟨i, 0⟩

/-- The address of an object is tagged neither as a node nor as a value. -/
theorem aligned_untagged {x : Item} (hx : x.word &&& 15 = 0) :
    x.tagged = false ∧ xaIsValue (.item x) = false := by
  have h3 : x.word &&& 3 = (x.word &&& 15) &&& 3 := by
    rw [BitVec.and_assoc]
    rfl
  have h1 : x.word &&& 1 = (x.word &&& 15) &&& 1 := by
    rw [BitVec.and_assoc]
    rfl
  rw [Item.tagged, xaIsValue, h3, h1, hx]
  decide

section Overwrite

variable {clobber : ItemObject → ItemObject} {items : Items}

theorem overwrite_eq_none (stores : List Item) (p : BitVec 64) :
    overwrite clobber items stores p = none ↔ items p = none := by
  induction stores with
  | nil => rfl
  | cons x stores ih =>
    rw [overwrite, List.foldr_cons, ← overwrite, Function.update_apply]
    by_cases hp : p = x.word
    · rw [if_pos hp, Option.map_eq_none_iff, ← hp, ih]
    · rw [if_neg hp, ih]

end Overwrite

section Calls

variable {env : Env} {m : Machine} {f : BitVec 64 → Option Item}

theorem loadItem_eq {items : Items} {x : Item} {obj : ItemObject} (h : items x.word = some obj) :
    loadItem items (.item x) = .ok obj := by
  rw [loadItem, h]

theorem free_eq {items : Items} {x : Item} (h : items x.word ≠ none) :
    free items (.item x) = .ok (Function.update items x.word none) := by
  obtain ⟨obj, hobj⟩ := Option.ne_none_iff_exists'.mp h
  rw [free, hobj]

/-- `item_insert` of a new item that the tree takes or does not take. -/
theorem itemInsert_eq {i : BitVec 64} (hserved : env.malloc m.mallocs m.items ≠ 0) {t' : Tree}
    {e : Int} (hrun : radixTreeInsert m.tree i ⟨_, hserved⟩ = .ok (t', e)) {stores : List Item}
    (hstores : t'.itemStores = stores ++ m.tree.itemStores) {items : Items}
    (hitems : items = overwrite env.clobber
      (Function.update m.items (env.malloc m.mallocs m.items) (some ⟨i, 0⟩)) stores) :
    m.itemInsert env i = .ok (⟨t', if e = 0 then items else
      Function.update items (env.malloc m.mallocs m.items) none, m.mallocs + 1⟩, e) := by
  have hself : Function.update m.items (env.malloc m.mallocs m.items) (some ⟨i, 0⟩)
      (env.malloc m.mallocs m.items) = some ⟨i, 0⟩ := Function.update_self _ _ _
  have htake : t'.itemStores.take (t'.itemStores.length - m.tree.itemStores.length) = stores := by
    rw [hstores, List.length_append, Nat.add_sub_cancel, List.take_left]
  have hlive : items (env.malloc m.mallocs m.items) ≠ none := by
    rw [hitems, Ne, overwrite_eq_none, hself]
    exact Option.some_ne_none _
  rw [Machine.itemInsert, Machine.itemCreate, dif_neg hserved, Fault.ok_bind]
  simp only [loadItem_eq (x := ⟨_, hserved⟩) hself, Fault.ok_bind, hrun, htake, ← hitems]
  by_cases he : e = 0
  · rw [if_neg (not_not.mpr he), if_pos he]
    rfl
  · rw [if_pos he, if_neg he, free_eq (x := ⟨_, hserved⟩) hlive]
    rfl

namespace Stocked

/-- The tree takes the new item. -/
theorem put (h : Stocked m f) {i a : BitVec 64} (hi : f i = none) (ha : m.items a = none)
    (hne : a ≠ 0) (hal : a &&& 15 = 0) {t' : Tree}
    (hst : Stands t' (Function.update f i (some ⟨a, hne⟩))) (stores : List Item) :
    Stocked ⟨t', overwrite env.clobber (Function.update m.items a (some ⟨i, 0⟩)) stores,
      m.mallocs + 1⟩ (Function.update f i (some ⟨a, hne⟩)) where
  stands := hst
  owned := by
    rw [addresses_update]
    refine (h.owned.put ha ?_).congr (overwrite_eq_none stores)
    rw [addresses, hi]
    rfl
  aligned j y hj := by
    by_cases hji : j = i
    · rw [hji, Function.update_self, Option.some.injEq] at hj
      rw [← hj]
      exact hal
    · rw [Function.update_of_ne hji] at hj
      exact h.aligned j y hj

/-- The new item is freed again. -/
theorem giveBack (h : Stocked m f) {i a : BitVec 64} (ha : m.items a = none) {t' : Tree}
    (hst : Stands t' f) (stores : List Item) :
    Stocked ⟨t', Function.update (overwrite env.clobber
      (Function.update m.items a (some ⟨i, 0⟩)) stores) a none, m.mallocs + 1⟩ f where
  stands := hst
  owned := h.owned.congr (fun p ↦ by
    show (Function.update (overwrite env.clobber (Function.update m.items a (some ⟨i, 0⟩)) stores)
      a none : Items) p = none ↔ m.items p = none
    rw [Function.update_apply]
    by_cases hp : p = a
    · rw [if_pos hp, hp, ha]
    · rw [if_neg hp, overwrite_eq_none, Function.update_of_ne hp])
  aligned := h.aligned

/-- `item_insert`, if `malloc` answers an address. -/
theorem itemInsert (h : Stocked m f) (henv : env.Documented) (i : BitVec 64)
    (hserved : env.malloc m.mallocs m.items ≠ 0) :
    ∃ m' r f', m.itemInsert env i = .ok (m', r) ∧ Stocked m' f' ∧
      Answers m.tree.oom (present f) m.tree.next (.insert i) r (present f') m'.tree.next ∧
      m'.tree.oom = m.tree.oom ∧
      (spill m.tree i = [] → Labelled m f → Labelled m' f') := by
  have hfresh := henv.fresh _ _ hserved
  have hal := henv.aligned m.mallocs m.items
  have hne : ∀ j y, f j = some y → y.word ≠ env.malloc m.mallocs m.items := by
    intro j y hj hy
    apply h.owned.ne_of_dead hfresh j
    rw [addresses, hj, ← hy]
    rfl
  obtain ⟨t', e, hrun, hins⟩ := radixTreeInsert_spec h.stands.wf i (x := ⟨_, hserved⟩)
    (.inl (aligned_untagged hal).1)
  have hst := h.stands.of_inserted hins
  have habsent (hnone : ∀ y, ¬ Holds m.tree i y) : f i = none := by
    by_contra hi
    obtain ⟨y, hy⟩ := Option.ne_none_iff_exists'.mp hi
    exact hnone y ((h.stands.holds i y).mpr hy)
  cases hins with
  | enomem hk hs hr hnone hoom =>
    rw [Call.effect, if_pos (.inl rfl)] at hst
    refine ⟨_, _, f, itemInsert_eq hserved hrun hs rfl, ?_,
      .enomem (not_not.mpr (habsent hnone)) hoom.1 hoom.2, hk.oom, ?_⟩
    · rw [if_neg (by decide)]
      exact h.giveBack hfresh hst _
    · intro hspill hl j y hj
      rw [if_neg (by decide), hspill, overwrite, List.foldr_nil, Function.update_idem]
      exact (Function.update_of_ne (hne j y hj) _ _).trans (hl j y hj)
  | @present y hy =>
    have hi := (h.stands.holds i y).mp hy
    refine ⟨_, _, f, itemInsert_eq hserved hrun (List.nil_append _).symm rfl, ?_,
      .exists (by rw [RadixTree.present, Set.mem_ofPred_eq, hi]; simp), rfl, ?_⟩
    · rw [if_neg (by decide)]
      exact h.giveBack hfresh h.stands _
    · intro _ hl j z hj
      rw [if_neg (by decide), overwrite, List.foldr_nil, Function.update_idem]
      exact (Function.update_of_ne (hne j z hj) _ _).trans (hl j z hj)
  | stored hwf hoom hnext hs hr hnone hholds hslim htall =>
    have hi := habsent hnone
    rw [Call.effect, if_neg (by rw [hi]; simp [ENOMEM])] at hst
    refine ⟨_, _, Function.update f i (some ⟨_, hserved⟩), itemInsert_eq hserved hrun hs rfl,
      ?_, ?_, hoom, ?_⟩
    · rw [if_pos rfl]
      exact h.put hi hfresh hserved hal hst _
    · rw [present_insert]
      exact .inserted (not_not.mpr hi) hnext
    · intro hspill hl j y hj
      rw [if_pos rfl, hspill, overwrite, List.foldr_nil]
      by_cases hji : j = i
      · rw [hji, Function.update_self, Option.some.injEq] at hj
        rw [← hj, hji]
        exact Function.update_self _ _ _
      · rw [Function.update_of_ne hji] at hj
        exact (Function.update_of_ne (hne j y hj) _ _).trans (hl j y hj)

/-- `item_delete` of an index that is present or beyond the nodes. -/
theorem itemDelete (h : Stocked m f) {i : BitVec 64}
    (hsafe : (isPresent m.tree i || isBeyond m.tree i) = true) :
    ∃ m' r f', m.itemDelete i = .ok (m', r) ∧ Stocked m' f' ∧
      Answers m.tree.oom (present f) m.tree.next (.delete i) r (present f') m'.tree.next ∧
      m'.tree.oom = m.tree.oom ∧
      (Labelled m f → Labelled m' f') := by
  obtain ⟨t', hrun, hd, hst⟩ := h.stands.deleteItem i none (.inr (h.stands.deleteSafe hsafe))
  rw [if_neg (by simp)] at hst
  rw [deleteAnswer, if_neg (by simp)] at hrun
  have hdel : radixTreeDelete m.tree i = .ok (t', answer (f i)) := hrun
  cases hi : f i with
  | none =>
    rw [hi, answer_none] at hdel
    rw [Stands.update_none_of_eq hi] at hst
    refine ⟨⟨t', m.items, m.mallocs⟩, 0, f, ?_, ⟨hst, h.owned, h.aligned⟩,
      .absent (not_not.mpr hi) hd.next, hd.oom, fun hl ↦ hl⟩
    rw [Machine.itemDelete, hdel]
    rfl
  | some x =>
    rw [hi, answer_some] at hdel
    have haddr : addresses f i = some x.word := by rw [addresses, hi]; rfl
    have hlive := h.owned.live_of i x.word haddr
    refine ⟨⟨t', Function.update m.items x.word none, m.mallocs⟩, 1, Function.update f i none,
      ?_, ⟨hst, ?_, ?_⟩, ?_, hd.oom, ?_⟩
    · rw [Machine.itemDelete, hdel, Fault.ok_bind]
      simp only [free_eq hlive, Fault.ok_bind]
      rfl
    · rw [addresses_update]
      exact h.owned.take haddr
    · intro j y hj
      by_cases hji : j = i
      · rw [hji, Function.update_self] at hj
        cases hj
      · rw [Function.update_of_ne hji] at hj
        exact h.aligned j y hj
    · rw [present_delete]
      exact .deleted (by rw [RadixTree.present, Set.mem_ofPred_eq, hi]; simp) hd.next
    · intro hl j y hj
      by_cases hji : j = i
      · rw [hji, Function.update_self] at hj
        cases hj
      · rw [Function.update_of_ne hji] at hj
        have hyx : y.word ≠ x.word := by
          intro hyx
          apply hji
          apply h.owned.key_unique j i x.word _ haddr
          rw [addresses, hj, ← hyx]
          rfl
        exact (Function.update_of_ne hyx _ _).trans (hl j y hj)

/-- One careful call. -/
theorem step (h : Stocked m f) (henv : env.Documented) {c : ItemCall}
    (hc : c.careful env m = true) :
    ∃ m' r f', c.step env m = .ok (m', r) ∧ Stocked m' f' ∧
      Answers m.tree.oom (RadixTree.present f) m.tree.next c r (RadixTree.present f')
        m'.tree.next ∧
      m'.tree.oom = m.tree.oom ∧ (c.sparing m = true → Labelled m f → Labelled m' f') := by
  cases c with
  | insert i =>
    obtain ⟨m', r, f', hrun, hst, hans, hoom, hl⟩ :=
      h.itemInsert henv i (by simpa [ItemCall.careful] using hc)
    exact ⟨m', r, f', hrun, hst, hans, hoom, fun hs ↦ hl (List.isEmpty_iff.mp hs)⟩
  | delete i =>
    obtain ⟨m', r, f', hrun, hst, hans, hoom, hl⟩ := h.itemDelete hc
    exact ⟨m', r, f', hrun, hst, hans, hoom, fun _ ↦ hl⟩

/-- Careful calls. -/
theorem runItems (h : Stocked m f) (henv : env.Documented) {calls : List ItemCall}
    (hcare : AlongItems env (ItemCall.careful env) m calls = true) :
    ∃ m' rs f', RadixTree.runItems env m calls = .ok (m', rs) ∧ Stocked m' f' ∧
      AnswersAll m.tree.oom (RadixTree.present f) m.tree.next calls rs (RadixTree.present f')
        m'.tree.next ∧
      (AlongItems env ItemCall.sparing m calls = true → Labelled m f → Labelled m' f') := by
  induction calls generalizing m f with
  | nil => exact ⟨m, [], f, rfl, h, .nil, fun _ hl ↦ hl⟩
  | cons c calls ih =>
    rw [AlongItems, Bool.and_eq_true] at hcare
    obtain ⟨m₁, r, f₁, hstep, h₁, hans, hoom, hl₁⟩ := h.step henv hcare.1
    rw [hstep] at hcare
    obtain ⟨m', rs, f', hrun, h', hall, hl'⟩ := ih h₁ hcare.2
    refine ⟨m', r :: rs, f', ?_, h', .cons hans (hoom ▸ hall), fun hs hl ↦ ?_⟩
    · rw [RadixTree.runItems, hstep, Fault.ok_bind]
      simp only [hrun, Fault.ok_bind]
      rfl
    · rw [AlongItems, hstep, Bool.and_eq_true] at hs
      exact hl' hs.2 (hl₁ hs.1 hl)

end Stocked

end Calls

/-! ### Clearing the tree -/

section Kill

variable {m : Machine} {f : BitVec 64 → Option Item} {restarts fuel : Nat}

theorem killLoop_none (iter : Iter) : m.killLoop restarts (fuel + 1) none iter = (do
    let (iter, slot) ← radixTreeNextChunk m.tree restarts iter
    match slot with
    | none => return m
    | some slot => m.killLoop restarts (fuel + 1) (some slot) iter) := rfl

theorem killLoop_some (slot : Slot) (iter : Iter) :
    m.killLoop restarts (fuel + 1) (some slot) iter = (do
      let items ← free m.items (← m.tree.load slot)
      let tree ← radixTreeReplaceSlot m.tree slot .null
      let (iter, slot) ← radixTreeNextSlotOf tree (some slot) iter
      Machine.killLoop restarts fuel { m with tree := tree, items := items } slot iter) := rfl

/-- Induction on the fuel. The loop with the items does to the tree what the loop without them
does, and frees what that one visits. -/
theorem killLoop_eq {slot : Option Slot} {iter : Iter} {t' : Tree}
    {visits : List (BitVec 64 × Entry)} {items : Items}
    (hrun : eachSlotLoop itemKill restarts fuel m.tree slot iter = .ok (t', visits))
    (hfree : (visits.map Prod.snd).foldlM free m.items = .ok items) :
    m.killLoop restarts fuel slot iter = .ok ⟨t', items, m.mallocs⟩ := by
  induction fuel generalizing m slot iter visits with
  | zero => cases hrun
  | succ fuel ih =>
    have hvisit : ∀ {slot : Slot} {iter : Iter},
        eachSlotLoop itemKill restarts (fuel + 1) m.tree (some slot) iter = .ok (t', visits) →
        m.killLoop restarts (fuel + 1) (some slot) iter = .ok ⟨t', items, m.mallocs⟩ := by
      intro slot iter hrun
      rw [eachSlotLoop_some] at hrun
      obtain ⟨entry, hload, hrun⟩ := Fault.bind_eq_ok.mp hrun
      obtain ⟨⟨t₁, slot₁, iter₁⟩, hbody, hrun⟩ := Fault.bind_eq_ok.mp hrun
      obtain ⟨⟨iter₂, slot₂⟩, hnext, hrun⟩ := Fault.bind_eq_ok.mp hrun
      obtain ⟨⟨t₂, visits₁⟩, hrest, hret⟩ := Fault.bind_eq_ok.mp hrun
      cases hret
      rw [itemKill, hload, Fault.ok_bind] at hbody
      obtain ⟨-, -, hbody⟩ := Fault.bind_eq_ok.mp hbody
      obtain ⟨t₃, hreplace, hret⟩ := Fault.bind_eq_ok.mp hbody
      cases hret
      rw [List.map_cons, List.foldlM_cons] at hfree
      obtain ⟨items₁, hfree₁, hfree⟩ := Fault.bind_eq_ok.mp hfree
      rw [killLoop_some, hload, Fault.ok_bind, hfree₁, Fault.ok_bind, hreplace, Fault.ok_bind,
        hnext, Fault.ok_bind]
      exact ih (m := ⟨t₁, items₁, m.mallocs⟩) hrest hfree
    cases slot with
    | some slot => exact hvisit hrun
    | none =>
      rw [eachSlotLoop_none] at hrun
      obtain ⟨⟨iter₁, slot₁⟩, hchunk, hrun⟩ := Fault.bind_eq_ok.mp hrun
      rw [killLoop_none, hchunk, Fault.ok_bind]
      cases slot₁ with
      | none =>
        cases hrun
        cases hfree
        rfl
      | some slot₁ => exact hvisit hrun

/-- Freeing what has been visited. -/
theorem foldlM_free {items items' : Items} {visits : List (BitVec 64 × Entry)}
    (hv : ∀ i e, (i, e) ∈ visits → ∃ x, f i = some x ∧ e = .item x)
    (hrelease : Ownership.releaseAll items ((visits.map Prod.fst).filterMap (addresses f))
      = some items') : (visits.map Prod.snd).foldlM free items = .ok items' := by
  induction visits generalizing items with
  | nil =>
    cases hrelease
    rfl
  | cons v visits ih =>
    obtain ⟨i, e⟩ := v
    obtain ⟨x, hi, rfl⟩ := hv i e List.mem_cons_self
    have haddr : addresses f i = some x.word := by rw [addresses, hi]; rfl
    rw [List.map_cons, List.filterMap_cons_some haddr, Ownership.releaseAll] at hrelease
    obtain ⟨obj, hobj, hrelease⟩ := Option.bind_eq_some_iff.mp hrelease
    rw [List.map_cons, List.foldlM_cons, free_eq (by rw [hobj]; simp), Fault.ok_bind]
    exact ih (fun j e hj ↦ hv j e (List.mem_cons_of_mem _ hj)) hrelease

/-- `item_kill_tree` frees every item once. -/
theorem Stocked.itemKillTree (h : Stocked m f) (hfuel : 2 ^ 64 < fuel) :
    ∃ t', m.itemKillTree fuel
      = .ok (⟨t', fun _ ↦ none, m.mallocs⟩, !m.tree.rnode.isInternalNode) := by
  have hvalue : ∀ i x, f i = some x → xaIsValue (.item x) = false :=
    fun i x hx ↦ (aligned_untagged (h.aligned i x hx)).2
  -- the tree alone
  obtain ⟨t', visits, hkill, hasc, hmem⟩ : ∃ t' visits,
      RadixTree.itemKillTree m.tree fuel = .ok (t', visits, !m.tree.rnode.isInternalNode) ∧
      (visits.map Prod.fst).Pairwise (· < ·) ∧
      ∀ i e, (i, e) ∈ visits ↔ e ≠ .null ∧ radixTreeLookup m.tree i = .ok e := by
    cases hr : m.tree.rnode with
    | null =>
      obtain ⟨t', visits, hkill, hasc, hmem, -⟩ := killLaw_null h.stands.wf hr hfuel
      exact ⟨t', visits, hkill, hasc, hmem⟩
    | node r =>
      obtain ⟨t', visits, hkill, -, hasc, hmem, -⟩ := itemKillTree_node h.stands hr hfuel hvalue
      exact ⟨t', visits, hkill, hasc, hmem⟩
    | item x =>
      have hx : f 0 = some x := (h.stands.holds 0 x).mp (.inl ⟨hr, rfl⟩)
      obtain ⟨t', visits, hkill, hasc, hmem, -⟩ :=
        killLaw_item h.stands hr (hvalue 0 x hx) hfuel
      refine ⟨t', visits, ?_, hasc, hmem⟩
      rw [hkill, isInternalNode_item, (aligned_untagged (h.aligned 0 x hx)).1]
      rfl
  have hvisits : ∀ i e, (i, e) ∈ visits → ∃ x, f i = some x ∧ e = .item x := by
    intro i e hie
    obtain ⟨hne, hlook⟩ := (hmem i e).mp hie
    rw [h.stands.lookup_eq, Except.ok.injEq] at hlook
    cases hi : f i with
    | none =>
      rw [hi, answer_none] at hlook
      exact absurd hlook.symm hne
    | some x =>
      rw [hi, answer_some] at hlook
      exact ⟨x, rfl, hlook.symm⟩
  have hkeys : ∀ i, addresses f i ≠ none → i ∈ visits.map Prod.fst := by
    intro i hi
    rw [addresses, Ne, Option.map_eq_none_iff, ← Ne, Option.ne_none_iff_exists'] at hi
    obtain ⟨x, hx⟩ := hi
    refine List.mem_map.mpr ⟨(i, .item x), (hmem i _).mpr ⟨by simp, ?_⟩, rfl⟩
    rw [h.stands.lookup_eq, hx, answer_some]
  have hnodup : (visits.map Prod.fst).Nodup := hasc.imp BitVec.ne_of_lt
  have hfree := foldlM_free hvisits (h.owned.releaseAll_eq hnodup hkeys)
  rw [RadixTree.itemKillTree] at hkill
  obtain ⟨⟨t₁, visits₁⟩, hloop, hret⟩ := Fault.bind_eq_ok.mp hkill
  simp only [pure, Except.pure, Except.ok.injEq, Prod.mk.injEq] at hret
  obtain ⟨rfl, rfl, hassert⟩ := hret
  refine ⟨t₁, ?_⟩
  rw [Machine.itemKillTree, killLoop_eq hloop hfree, Fault.ok_bind]
  simp only [hassert]
  rfl

end Kill

/-! ### Programs -/

/-- The machine with a new tree. -/
theorem stocked_new {oom : Nat → Bool} (n : Nat) :
    Stocked ⟨emptyTree oom, fun _ ↦ none, n⟩ (fun _ ↦ none) where
  stands := (stands_emptyTree oom).1
  owned := Ownership.Owned.empty
  aligned _ _ hx := by cases hx

/-- The `k`-th of the addresses that are handed out. -/
def blockAddress (k : Nat) : BitVec 64 := BitVec.ofNat 64 (16 * (k + 1))

/-- A `malloc` that answers the first of `n` addresses that is not in use. -/
def firstFit (n : Nat) : Env where
  malloc _ items := (((List.range n).map blockAddress).find? fun p ↦ (items p).isNone).getD 0
  clobber obj := { obj with index := 1 }

theorem blockAddress_aligned (k : Nat) : blockAddress k &&& 15 = 0 := by
  apply BitVec.eq_of_toNat_eq
  rw [BitVec.toNat_and, show (15 : BitVec 64).toNat = 2 ^ 4 - 1 from rfl,
    Nat.and_two_pow_sub_one_eq_mod, blockAddress, BitVec.toNat_ofNat,
    show (0 : BitVec 64).toNat = 0 from rfl]
  omega

theorem firstFit_documented (n : Nat) : (firstFit n).Documented where
  fresh mallocs items hne := by
    rw [firstFit] at hne ⊢
    dsimp only at hne ⊢
    cases hp : ((List.range n).map blockAddress).find? fun p ↦ (items p).isNone with
    | none =>
      rw [hp] at hne
      exact absurd rfl hne
    | some p =>
      have hnone := List.find?_some hp
      exact Option.isNone_iff_eq_none.mp hnone
  aligned mallocs items := by
    rw [firstFit]
    dsimp only
    cases hp : ((List.range n).map blockAddress).find? fun p ↦ (items p).isNone with
    | none => rfl
    | some p =>
      obtain ⟨k, -, rfl⟩ := List.mem_map.mp (List.mem_of_find?_eq_some hp)
      exact blockAddress_aligned k

end Jeopardy.RadixTree
