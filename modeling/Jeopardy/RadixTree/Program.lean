import Jeopardy.RadixTree.Delete

/-!
# Programs over one radix tree

A program allocates a tree and calls `radix_tree_insert`, `radix_tree_delete` and
`radix_tree_delete_item` on it. The finite map the tree is meant to hold follows the calls; an
insertion that reports `-ENOMEM` does not count.
-/

namespace Jeopardy.RadixTree

/-- The calls of a program. -/
inductive Call where
  | insert (i : BitVec 64) (x : Item)
  | delete (i : BitVec 64)
  | deleteItem (i : BitVec 64) (item : Option Item)
deriving DecidableEq

/-- What a call answers. -/
inductive Reply where
  | code (e : Int)
  | entry (e : Entry)
deriving DecidableEq

/-- One call. -/
def Call.step (t : Tree) : Call → Except Fault (Tree × Reply)
  | .insert i x => do
    let (t, e) ← radixTreeInsert t i x
    return (t, .code e)
  | .delete i => do
    let (t, e) ← radixTreeDelete t i
    return (t, .entry e)
  | .deleteItem i item => do
    let (t, e) ← radixTreeDeleteItem t i item
    return (t, .entry e)

/-- A sequence of calls. -/
def run : Tree → List Call → Except Fault (Tree × List Reply)
  | t, [] => .ok (t, [])
  | t, c :: calls => do
    let (t, r) ← c.step t
    let (t, rs) ← run t calls
    return (t, r :: rs)

/-- The finite map after a call on a tree that stands for `f`. -/
def Call.effect (f : BitVec 64 → Option Item) : Call → Reply → BitVec 64 → Option Item
  | .insert i x, r =>
    if r = .code (-ENOMEM) ∨ (f i).isSome then f else Function.update f i (some x)
  | .delete i, _ => Function.update f i none
  | .deleteItem i item, _ =>
    if item.isSome ∧ item ≠ f i then f else Function.update f i none

/-- The finite map after a sequence of calls with their answers. -/
def replay (f : BitVec 64 → Option Item) (calls : List Call) (rs : List Reply) :
    BitVec 64 → Option Item :=
  (calls.zip rs).foldl (fun f cr ↦ cr.1.effect f cr.2) f

/-- The finite map after a program. -/
def history (calls : List Call) (rs : List Reply) : BitVec 64 → Option Item :=
  replay (fun _ ↦ none) calls rs

/-- Every call of the program meets `P` when it is made. -/
def Along (P : Tree → Call → Bool) : Tree → List Call → Bool
  | _, [] => true
  | t, c :: calls => P t c && match c.step t with
    | .ok (t, _) => Along P t calls
    | .error _ => true

/-- `radix_tree_lookup` finds something. -/
def isPresent (t : Tree) (i : BitVec 64) : Bool :=
  match radixTreeLookup t i with
  | .ok e => e != .null
  | .error _ => false

/-- There is no root node, or the index exceeds the largest one. -/
def isBeyond (t : Tree) (i : BitVec 64) : Bool :=
  match t.rnode with
  | .node r => match t.node r with
    | some nr => decide (nodeMaxindex nr < i)
    | none => true
  | _ => true

/-- An insertion of an item that is not tagged as a node, or a deletion that expects an item, or
one of an index that is present or beyond the nodes. -/
def Call.careful (t : Tree) : Call → Bool
  | .insert _ x => !x.tagged
  | .delete i => isPresent t i || isBeyond t i
  | .deleteItem i item => item.isSome || isPresent t i || isBeyond t i

/-- The tree is well formed and holds exactly `f`. -/
structure Stands (t : Tree) (f : BitVec 64 → Option Item) : Prop where
  wf : WF t
  holds : ∀ i x, Holds t i x ↔ f i = some x

namespace Stands

variable {t t' : Tree} {f : BitVec 64 → Option Item}

theorem lookup_eq (h : Stands t f) (i : BitVec 64) : radixTreeLookup t i = .ok (answer (f i)) :=
  radixTreeLookup_eq h.wf (h.holds i)

theorem isPresent_eq (h : Stands t f) (i : BitVec 64) : isPresent t i = (f i).isSome := by
  rw [isPresent, h.lookup_eq]
  cases f i <;> rfl

theorem deleteSafe (h : Stands t f) {i : BitVec 64} (hs : (isPresent t i || isBeyond t i) = true) :
    DeleteSafe t i := by
  rw [Bool.or_eq_true] at hs
  rcases hs with hp | hb
  · rw [h.isPresent_eq, Option.isSome_iff_exists] at hp
    obtain ⟨x, hx⟩ := hp
    exact .inl ⟨x, (h.holds i x).mpr hx⟩
  · refine .inr (fun r nr hr hnr ↦ ?_)
    rw [isBeyond, hr] at hb
    simp only [hnr] at hb
    exact of_decide_eq_true hb

/-- A kept tree stands for the same map. -/
theorem of_kept (h : Stands t f) (hk : Kept t t') : Stands t' f :=
  ⟨hk.wf, fun i x ↦ (hk.holds i x).trans (h.holds i x)⟩

theorem of_deleted {i : BitVec 64} {e : Entry} (h : Stands t f) (hd : Deleted t i e t') :
    Stands t' (if e = .null then f else Function.update f i none) := by
  refine ⟨hd.wf, fun j x ↦ ?_⟩
  rw [hd.holds, h.holds]
  by_cases he : e = .null
  · simp [he]
  · rw [if_neg he, Function.update_apply]
    by_cases hj : j = i
    · simp [hj, he]
    · simp [hj]

/-- Clearing an absent index changes no map. -/
theorem update_none_of_eq {i : BitVec 64} (hf : f i = none) : Function.update f i none = f := by
  rw [← hf, Function.update_eq_self]

theorem of_inserted {i : BitVec 64} {x : Item} {e : Int} (h : Stands t f)
    (hi : Inserted t i x t' e) : Stands t' ((Call.insert i x).effect f (.code e)) := by
  cases hi with
  | enomem hk hs hr hnone hoom =>
    rw [Call.effect, if_pos (.inl rfl)]
    exact h.of_kept hk
  | @present y hy =>
    rw [Call.effect, if_pos (.inr (by rw [(h.holds i y).mp hy]; rfl))]
    exact h
  | stored hwf hoom hnext hs hr hnone hholds hslim htall =>
    have hf : f i = none := by
      cases hf : f i with
      | none => rfl
      | some y => exact absurd ((h.holds i y).mpr hf) (hnone y)
    rw [Call.effect, if_neg (by rw [hf]; simp [ENOMEM])]
    refine ⟨hwf, fun j y ↦ ?_⟩
    rw [hholds, h.holds, Function.update_apply]
    by_cases hj : j = i
    · rw [if_pos hj, if_pos hj, Option.some.injEq, eq_comm]
    · rw [if_neg hj, if_neg hj]

/-- A deletion, in terms of the map. -/
theorem deleteItem (h : Stands t f) (i : BitVec 64) (item : Option Item)
    (hsafe : item.isSome ∨ DeleteSafe t i) :
    ∃ t', radixTreeDeleteItem t i item = .ok (t', deleteAnswer (f i) item) ∧
      Deleted t i (deleteAnswer (f i) item) t' ∧
      Stands t' (if item.isSome ∧ item ≠ f i then f else Function.update f i none) := by
  obtain ⟨t', hrun, hd⟩ := radixTreeDeleteItem_spec h.wf (h.holds i) item hsafe
  refine ⟨t', hrun, hd, ?_⟩
  have hst := h.of_deleted hd
  by_cases hc : item.isSome ∧ item ≠ f i
  · rw [if_pos hc]
    rwa [deleteAnswer, if_pos hc, if_pos rfl] at hst
  · rw [if_neg hc]
    rw [deleteAnswer, if_neg hc] at hst
    by_cases hnull : f i = none
    · rw [if_pos (answer_eq_null.mpr hnull)] at hst
      rwa [update_none_of_eq hnull]
    · rwa [if_neg (mt answer_eq_null.mp hnull)] at hst

end Stands

/-- Every program whose calls meet `P` completes with `I`, if each such call keeps it. -/
theorem run_total {P : Tree → Call → Bool} {I : Tree → (BitVec 64 → Option Item) → Prop}
    (hstep : ∀ t f c, I t f → P t c = true →
      ∃ t' r, c.step t = .ok (t', r) ∧ I t' (c.effect f r))
    {t : Tree} {f : BitVec 64 → Option Item} {calls : List Call} (hI : I t f)
    (hP : Along P t calls = true) :
    ∃ t' rs, run t calls = .ok (t', rs) ∧ I t' (replay f calls rs) := by
  induction calls generalizing t f with
  | nil => exact ⟨t, [], rfl, hI⟩
  | cons c calls ih =>
    rw [Along, Bool.and_eq_true] at hP
    obtain ⟨t₁, r, hrun, hI₁⟩ := hstep t f c hI hP.1
    rw [hrun] at hP
    obtain ⟨t', rs, hrun', hI'⟩ := ih hI₁ hP.2
    refine ⟨t', r :: rs, ?_, hI'⟩
    rw [run, hrun, Fault.ok_bind]
    simp only [hrun', Fault.ok_bind]
    rfl

/-- A call with care keeps tree and map together. -/
theorem Stands.step {t : Tree} {f : BitVec 64 → Option Item} (h : Stands t f) {c : Call}
    (hc : c.careful t = true) : ∃ t' r, c.step t = .ok (t', r) ∧ Stands t' (c.effect f r) := by
  cases c with
  | insert i x =>
    have hx : x.tagged = false := by simpa [Call.careful] using hc
    obtain ⟨t', e, hrun, hi⟩ := radixTreeInsert_spec h.wf i (.inl hx)
    refine ⟨t', .code e, ?_, h.of_inserted hi⟩
    rw [Call.step, hrun]
    rfl
  | delete i =>
    obtain ⟨t', hrun, -, hst⟩ := h.deleteItem i none (.inr (h.deleteSafe hc))
    rw [if_neg (by simp)] at hst
    refine ⟨t', .entry (deleteAnswer (f i) none), ?_, hst⟩
    rw [Call.step, radixTreeDelete, hrun]
    rfl
  | deleteItem i item =>
    have hsafe : item.isSome ∨ DeleteSafe t i := by
      rw [Call.careful, Bool.or_assoc, Bool.or_eq_true] at hc
      exact hc.imp_right h.deleteSafe
    obtain ⟨t', hrun, -, hst⟩ := h.deleteItem i item hsafe
    refine ⟨t', .entry (deleteAnswer (f i) item), ?_, hst⟩
    rw [Call.step, hrun]
    rfl

/-! ### A new tree -/

/-- The tree `radix_tree_root_alloc` makes if it gets its node: one empty leaf. -/
def emptyTree (oom : Nat → Bool) : Tree :=
  ⟨Function.update (fun _ ↦ none) 1 (some (emptyNode 0 0 none)), 2, oom, .node 1, []⟩

theorem rootAlloc_eq {oom : Nat → Bool} {t : Tree} (ht : radixTreeRootAlloc oom = some t)
    (h1 : oom 1 = false) : t = emptyTree oom := by
  have halloc : radixTreeNodeAlloc ⟨fun _ ↦ none, 1, oom, .null, []⟩ none 0 0 0 0
      = (⟨Function.update (fun _ ↦ none) 1 (some (emptyNode 0 0 none)), 2, oom, .null, []⟩,
        some 1) := by
    rw [radixTreeNodeAlloc, if_neg (ne_true_of_eq_false h1)]
    rfl
  rw [radixTreeRootAlloc] at ht
  simp only [halloc] at ht
  split at ht
  · cases ht
  · exact (Option.some.inj ht).symm

/-- The new tree is well formed and empty. -/
theorem stands_emptyTree (oom : Nat → Bool) :
    Stands (emptyTree oom) (fun _ ↦ none) ∧ Slim (emptyTree oom) ∧ Tall (emptyTree oom) := by
  have hbase : ∀ p, (⟨fun _ ↦ none, 1, oom, .null, []⟩ : Tree).node p = none := fun _ ↦ rfl
  have hok : (emptyNode 0 0 none).OK := .empty (Nat.zero_le 60) (Nat.dvd_zero 6) 0 none
  have hwf : WF (emptyTree oom) := WF.sole hbase hok rfl rfl (fun hs ↦ absurd rfl hs)
  refine ⟨⟨hwf, fun i x ↦ ?_⟩, fun p np hp _ ↦ ?_, fun r nr _ hnr hs ↦ ?_⟩
  · refine (sole_holds hbase rfl i x).trans ?_
    simp [emptyNode]
  · obtain ⟨hp1, rfl⟩ := sole_eq_some hbase hp
    exact ⟨rfl, .root hp rfl⟩
  · obtain ⟨-, rfl⟩ := sole_eq_some hbase hnr
    exact absurd rfl hs

end Jeopardy.RadixTree
