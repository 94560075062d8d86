import Jeopardy.Hotring.RegionRehash
import Jeopardy.Hotring.Table

/-!
# Uniqueness of keys

`__hash_create` always makes a new node, so the test of `insert_entries` never succeeds and
`hash_insert` of a stored key adds a second node with that key. Every other operation adds
no node. So keys stay unique exactly as long as only new keys are inserted, whatever the
rehashes in between do to the rings.
-/

namespace Jeopardy.Hotring

open Fault

variable {D : Type} [DoubleArith D] {m m' : Mem} {h h' : Hash} {key value : Nat}

/-- The addresses that the heads and links of a table lead to. -/
inductive Reach (m : Mem) (h : Hash) : Nat → Prop where
  | head (i : Nat) (head : Head) : h.slots i = some head → Reach m h head.addr
  | next (a b : Nat) : Reach m h a → m.next a = some b → Reach m h b

/-- There is a node of the table at `a`. -/
def InTable (m : Mem) (h : Hash) (a : Nat) : Prop := Reach m h a ∧ (m.node a).isSome

/-- No two nodes of the table have the same key. -/
def UniqueKeys (m : Mem) (h : Hash) : Prop :=
  ∀ a b, InTable m h a → InTable m h b → m.key a = m.key b → a = b

/-- A node of the table has the key. -/
def Stored (m : Mem) (h : Hash) (key : Nat) : Prop := ∃ a, InTable m h a ∧ m.key a = key

/-- `hash_insert` leaves the keys unique, and of a stored key it answers `-EEXIST` and
leaves what `__hash_get` finds. -/
def InsertLaw (m : Mem) (h : Hash) (key value : Nat) : Prop :=
  (∀ m' h' e, hashInsert m h key value = .ok (m', h', e) → UniqueKeys m' h') ∧
    (Stored m h key → ∃ m' h', hashInsert m h key value = .ok (m', h', -EEXIST) ∧
      ∀ q, lookup m' h' q = lookup m h q)

/-- The least region with the heads of a table. -/
def reachRegion (m : Mem) (h : Hash) : Set Nat := {a | Reach m h a ∨ a = 0 ∨ m.brk ≤ a}

theorem region_reach (m : Mem) (h : Hash) : Region (reachRegion m h) m := by
  refine ⟨Or.inr (Or.inl rfl), fun a ha ↦ Or.inr (Or.inr ha), ?_⟩
  rintro a b (ha | rfl | ha) hb
  · exact Or.inl (.next a b ha hb)
  · rw [Mem.next, m.null_free] at hb
    simp at hb
  · rw [Mem.next, m.fresh a ha] at hb
    simp at hb

theorem headsIn_reach (m : Mem) (h : Hash) : HeadsIn (reachRegion m h) h :=
  fun i head hs ↦ Or.inl (.head i head hs)

/-- A table does not reach out of a region of its heads. -/
theorem Reach.mem_region {C : Set Nat} {a : Nat} (ha : Reach m h a) (r : Region C m)
    (hh : HeadsIn C h) : a ∈ C := by
  induction ha with
  | head i head hs => exact hh i head hs
  | next a b _ hb ih => exact r.next_mem a b ih hb

/-- An old node of the table afterwards was a node of the table before, with its key. -/
theorem inTable_of_kept {a : Nat} (r : Region (reachRegion m h) m')
    (hh : HeadsIn (reachRegion m h) h') (k : Kept m m') (ha : InTable m' h' a)
    (hlt : a < m.brk) : InTable m h a ∧ m'.key a = m.key a := by
  obtain ⟨hl, hs⟩ := k.live hlt ha.2
  refine ⟨⟨?_, hl⟩, hs.key⟩
  rcases ha.1.mem_region r hh with hr | rfl | hge
  · exact hr
  · simp [m.null_free] at hl
  · omega

/-- If no node is added, the nodes of the table afterwards are nodes of the table before. -/
theorem inTable_of_no_new {a : Nat} (r : Region (reachRegion m h) m')
    (hh : HeadsIn (reachRegion m h) h') (k : Kept m m')
    (hnew : ∀ a, m.brk ≤ a → m'.node a = Option.none) (ha : InTable m' h' a) :
    InTable m h a ∧ m'.key a = m.key a := by
  refine inTable_of_kept r hh k ha ?_
  by_contra hge
  have hl := ha.2
  rw [hnew a (not_lt.mp hge)] at hl
  simp at hl

/-- After an insertion the nodes of the table are those of before and the new one. -/
theorem inTable_of_hashInsert {a : Nat} {e : Int}
    (hr : Hotring.hashInsert m h key value = .ok (m', h', e)) (ha : InTable m' h' a) :
    (InTable m h a ∧ m'.key a = m.key a) ∨ (a = m.brk ∧ m'.key a = key) := by
  obtain ⟨-, hb, r, hh, k, hkey⟩ := hashInsert_region (region_reach m h) (headsIn_reach m h) hr
  rcases Nat.lt_or_ge a m.brk with hlt | hge
  · exact Or.inl (inTable_of_kept r hh k ha hlt)
  · obtain ⟨nd, hnd⟩ := Option.isSome_iff_exists.mp ha.2
    have hlt := Mem.lt_brk_of_node hnd
    have he : a = m.brk := by omega
    exact Or.inr ⟨he, he ▸ hkey⟩

/-- Keys stay unique if no node is added. -/
theorem UniqueKeys.of_kept (u : UniqueKeys m h) (r : Region (reachRegion m h) m')
    (hh : HeadsIn (reachRegion m h) h') (k : Kept m m')
    (hnew : ∀ a, m.brk ≤ a → m'.node a = Option.none) : UniqueKeys m' h' := by
  intro a b ha hb he
  obtain ⟨ha', hka⟩ := inTable_of_no_new r hh k hnew ha
  obtain ⟨hb', hkb⟩ := inTable_of_no_new r hh k hnew hb
  exact u a b ha' hb' (hka.symm.trans (he.trans hkb))

/-- An insertion of a key that is not stored keeps the keys unique. -/
theorem UniqueKeys.hashInsert {e : Int} (u : UniqueKeys m h) (hns : ¬ Stored m h key)
    (hr : Hotring.hashInsert m h key value = .ok (m', h', e)) : UniqueKeys m' h' := by
  intro a b ha hb he
  rcases inTable_of_hashInsert hr ha with ⟨ha', hka⟩ | ⟨rfl, hka⟩
  · rcases inTable_of_hashInsert hr hb with ⟨hb', hkb⟩ | ⟨rfl, hkb⟩
    · exact u a b ha' hb' (hka.symm.trans (he.trans hkb))
    · exact absurd ⟨a, ha', hka.symm.trans (he.trans hkb)⟩ hns
  · rcases inTable_of_hashInsert hr hb with ⟨hb', hkb⟩ | ⟨rfl, hkb⟩
    · exact absurd ⟨b, hb', hkb.symm.trans (he.symm.trans hka)⟩ hns
    · rfl

/-- `hash_insert` never answers an error. -/
theorem hashInsert_eq_zero {e : Int} (hr : hashInsert m h key value = .ok (m', h', e)) : e = 0 :=
  (hashInsert_region (region_reach m h) (headsIn_reach m h) hr).1

/-- An insertion is right exactly when its key is not stored. -/
theorem UniqueKeys.insertLaw_iff (u : UniqueKeys m h) (key value : Nat) :
    InsertLaw m h key value ↔ ¬ Stored m h key := by
  constructor
  · intro hlaw hst
    obtain ⟨m', h', hr, -⟩ := hlaw.2 hst
    have he := hashInsert_eq_zero hr
    simp [EEXIST] at he
  · intro hns
    exact ⟨fun m' h' e hr ↦ u.hashInsert hns hr, fun hst ↦ absurd hst hns⟩

/-! ### Programs -/

/-- Insertions and gets. -/
def Call.InsertOrGet : Call → Prop
  | .insert _ _ => True
  | .get _ => True
  | _ => False

/-- No insertion of the program is of a key the table stores at that time. -/
def InsertsNew (D : Type) [DoubleArith D] (s : State) (calls : List Call) : Prop :=
  ∀ pre key value s₁, pre ++ [.insert key value] <+: calls → run D s pre = .ok s₁ →
    ¬ Stored s₁.mem s₁.hash key

/-- Nothing is in a new table. -/
theorem not_reach_start {n k a : Nat} {r : Int} {s : State} (hs : start m r n k = .ok s) :
    ¬ Reach s.mem s.hash a := by
  obtain ⟨-, rfl⟩ := start_eq_ok.mp hs
  intro ha
  induction ha with
  | head i head hs => simp at hs
  | next a b _ _ ih => exact ih

theorem uniqueKeys_start {n k : Nat} {r : Int} {s : State} (hs : start m r n k = .ok s) :
    UniqueKeys s.mem s.hash :=
  fun _ _ ha ↦ absurd ha.1 (not_reach_start hs)

/-- In every program of insertions and gets whose insertions are of keys not stored at the
time, the keys of the table stay unique; and a further insertion is right exactly when its
key is not stored. -/
theorem uniqueKeys_run {n k : Nat} {r : Int} {s s' : State} {calls : List Call}
    (hs : start m r n k = .ok s) (hc : ∀ c ∈ calls, c.InsertOrGet)
    (hgood : InsertsNew D s calls) (hrun : run D s calls = .ok s') :
    UniqueKeys s'.mem s'.hash ∧
      ∀ key value, InsertLaw s'.mem s'.hash key value ↔ ¬ Stored s'.mem s'.hash key := by
  have hstep (s₁ : State) (pre : List Call) (c : Call) (s₂ : State) (hpre : pre ++ [c] <+: calls)
      (hrun₁ : run D s pre = .ok s₁) (hu : UniqueKeys s₁.mem s₁.hash)
      (hstep : c.step D s₁ = .ok s₂) : UniqueKeys s₂.mem s₂.hash := by
    have hcm := hc c (hpre.subset (by simp))
    cases c with
    | insert key value =>
      obtain ⟨e, hi⟩ := step_insert hstep
      exact hu.hashInsert (hgood pre key value s₁ hpre hrun₁) hi
    | get key =>
      obtain ⟨e, g, hg⟩ := step_get hstep
      obtain ⟨r₂, hh₂, k₂, hn₂⟩ :=
        hashGet_region (region_reach s₁.mem s₁.hash) (headsIn_reach _ _) hg
      exact hu.of_kept r₂ hh₂ k₂ hn₂
    | lookup key => exact hcm.elim
    | delete key => exact hcm.elim
    | repoint index steps => exact hcm.elim
  have hu : UniqueKeys s'.mem s'.hash :=
    run_invariant (P := fun s _ ↦ UniqueKeys s.mem s.hash) (uniqueKeys_start hs) hstep hrun
  exact ⟨hu, hu.insertLaw_iff⟩

/-- A stored key was stored before the call, or the call inserts it. -/
theorem stored_of_step {s s' : State} {c : Call} (hc : c.InsertOrGet) (hs : c.step D s = .ok s')
    (hst : Stored s'.mem s'.hash key) :
    Stored s.mem s.hash key ∨ c.insertedKey = some key := by
  obtain ⟨a, ha, rfl⟩ := hst
  cases c with
  | insert key value =>
    obtain ⟨e, hi⟩ := step_insert hs
    rcases inTable_of_hashInsert hi ha with ⟨ha', hka⟩ | ⟨-, hka⟩
    · exact .inl ⟨a, ha', hka.symm⟩
    · exact .inr (congrArg some hka.symm)
  | get key =>
    obtain ⟨e, g, hg⟩ := step_get hs
    obtain ⟨r, hh, k, hn⟩ := hashGet_region (region_reach s.mem s.hash) (headsIn_reach _ _) hg
    obtain ⟨ha', hka⟩ := inTable_of_no_new r hh k hn ha
    exact .inl ⟨a, ha', hka.symm⟩
  | lookup key => exact hc.elim
  | delete key => exact hc.elim
  | repoint index steps => exact hc.elim

/-- A stored key was inserted. -/
theorem mem_insertedKeys_of_stored {n k : Nat} {r : Int} {s s' : State} {calls : List Call}
    (hs : start m r n k = .ok s) (hc : ∀ c ∈ calls, c.InsertOrGet)
    (hrun : run D s calls = .ok s') (hst : Stored s'.mem s'.hash key) :
    key ∈ insertedKeys calls := by
  have hstep (s₁ : State) (pre : List Call) (c : Call) (s₂ : State) (hpre : pre ++ [c] <+: calls)
      (_ : run D s pre = .ok s₁) (ih : Stored s₁.mem s₁.hash key → key ∈ insertedKeys pre)
      (hstep : c.step D s₁ = .ok s₂) (hst : Stored s₂.mem s₂.hash key) :
      key ∈ insertedKeys (pre ++ [c]) := by
    rw [insertedKeys, List.filterMap_append, List.mem_append, List.mem_filterMap (l := [c])]
    rcases stored_of_step (hc c (hpre.subset (by simp))) hstep hst with hold | hnew
    · exact .inl (ih hold)
    · exact .inr ⟨c, List.mem_singleton_self c, hnew⟩
  have hstart : ¬ Stored s.mem s.hash key := by
    rintro ⟨a, ha, -⟩
    exact not_reach_start hs ha.1
  exact run_invariant (P := fun s pre ↦ Stored s.mem s.hash key → key ∈ insertedKeys pre)
    (fun h ↦ absurd h hstart) hstep hrun hst

/-- A program that inserts no key twice inserts new keys only. -/
theorem insertsNew_of_nodup {n k : Nat} {r : Int} {s : State} {calls : List Call}
    (hs : start m r n k = .ok s) (hc : ∀ c ∈ calls, c.InsertOrGet)
    (hd : (insertedKeys calls).Nodup) : InsertsNew D s calls := by
  intro pre key value s₁ hpre hrun hst
  have hmem : key ∈ insertedKeys pre := by
    refine mem_insertedKeys_of_stored hs (fun c hm ↦ hc c (hpre.subset ?_)) hrun hst
    exact List.mem_append_left _ hm
  obtain ⟨post, rfl⟩ := hpre
  rw [insertedKeys, List.filterMap_append, List.filterMap_append, List.nodup_append] at hd
  have hnd := (List.nodup_append.mp hd.1).2.2 key hmem key
  exact hnd (List.mem_singleton_self key) rfl

/-- Three insertions into one bucket and a get in between. -/
theorem uniqueKeys_run_three :
    ∃ s', run ℚ ⟨.init, ⟨4, 2, 4, fun _ ↦ Option.none⟩, 0⟩
        [.insert 5 50, .insert 7 70, .get 7, .insert 6 60] = .ok s' ∧
      UniqueKeys s'.mem s'.hash ∧
        ∀ key value, InsertLaw s'.mem s'.hash key value ↔ ¬ Stored s'.mem s'.hash key := by
  have hs : start .init 0 4 2 = .ok ⟨.init, ⟨4, 2, 4, fun _ ↦ Option.none⟩, 0⟩ := rfl
  have hc : ∀ c ∈ [Call.insert 5 50, .insert 7 70, .get 7, .insert 6 60], c.InsertOrGet := by
    simp [Call.InsertOrGet]
  obtain ⟨s', hrun⟩ : ∃ s', run ℚ ⟨.init, ⟨4, 2, 4, fun _ ↦ Option.none⟩, 0⟩
      [.insert 5 50, .insert 7 70, .get 7, .insert 6 60] = .ok s' := ⟨_, rfl⟩
  exact ⟨s', hrun, uniqueKeys_run hs hc (insertsNew_of_nodup hs hc (by decide)) hrun⟩

/-- Inserting key 5 twice gives two nodes with key 5. -/
theorem hashInsert_duplicates :
    ∃ s, run ℚ ⟨.init, ⟨4, 2, 4, fun _ ↦ Option.none⟩, 0⟩ [.insert 5 50, .insert 5 51] = .ok s ∧
      ¬ UniqueKeys s.mem s.hash := by
  refine ⟨_, rfl, ?_⟩
  intro hu
  have h12 := hu 1 2 ⟨.head 1 ⟨1, 0, false⟩ rfl, rfl⟩
    ⟨.next 1 2 (.head 1 ⟨1, 0, false⟩ rfl) rfl, rfl⟩ rfl
  simp at h12

end Jeopardy.Hotring
