import Jeopardy.ChainingHash.ListHead

/-!
# Walks that take entries away

Model of a loop with `list_for_each_safe`, `chaining_hash/list.h`, whose body leaves the entry it
stands at alone, deletes it, or moves it to the tail of another list. The next position is read
before the body runs, so the loop visits every entry of the list it started with.
-/

namespace Jeopardy.ChainingHash

open Rings

variable {α : Type} {m m' : Mem α} {rs : List (List Nat)} {head other c : Nat} {xs ys : List Nat}

/-- What the body does with an entry. -/
inductive Fate where
  | keep
  | del
  | moveTail
deriving DecidableEq

/-- The body of the loop. -/
def disposeOf (fate : Nat → Fate) (other : Nat) (m : Mem α) (pos : Nat) : Except Fault (Mem α) :=
  match fate pos with
  | .keep => .ok m
  | .del => listDel m pos
  | .moveTail => listMoveTail m pos other

/-- The loop of `list_for_each_safe`, `chaining_hash/list.h:269–271`: the memory it leaves and the
positions it visits. -/
def listForEachSafeLoop (fate : Nat → Fate) (other head : Nat) :
    Nat → Mem α → Nat → Nat → Except Fault (Mem α × List Nat)
  | 0, _, _, _ => .error .diverges
  | fuel + 1, m, pos, n =>
    if pos = head then return (m, [])
    else do
      let m ← disposeOf fate other m pos
      let pos' := n
      let nd ← m.read pos'
      let (m, visits) ← listForEachSafeLoop fate other head fuel m pos' nd.next
      return (m, pos :: visits)

def listForEachSafe (fate : Nat → Fate) (other : Nat) (m : Mem α) (fuel head : Nat) :
    Except Fault (Mem α × List Nat) := do
  let nd ← m.read head
  let nd' ← m.read nd.next
  listForEachSafeLoop fate other head fuel m nd.next nd'.next

/-! ### One round -/

/-- What the loop leaves of two lists and the others. -/
structure Parted (rs rs' : List (List Nat)) (r r' s s' : List Nat) : Prop where
  from_mem : r' ∈ rs'
  to_mem : s' ∈ rs'
  rest : ∀ t ∈ rs, t ≠ r → t ≠ s → t ∈ rs'

/-- Two parts of a loop, one after the other. -/
theorem Parted.trans {rs₁ rs₂ : List (List Nat)} {us us' ys' r' s' : List Nat} (h : Lists m rs)
    (hr : head :: us ∈ rs) (hs : other :: ys ∈ rs)
    (hp1 : Parted rs rs₁ (head :: us) (head :: us') (other :: ys) (other :: ys'))
    (hp2 : Parted rs₁ rs₂ (head :: us') r' (other :: ys') s') :
    Parted rs rs₂ (head :: us) r' (other :: ys) s' := by
  refine ⟨hp2.from_mem, hp2.to_mem, fun t ht htr hts ↦ hp2.rest t (hp1.rest t ht htr hts) ?_ ?_⟩
  · rintro rfl
    exact htr (h.rings.eq_of_mem ht hr List.mem_cons_self List.mem_cons_self)
  · rintro rfl
    exact hts (h.rings.eq_of_mem ht hs List.mem_cons_self List.mem_cons_self)

/-- The body at the entry `c`. -/
theorem Lists.dispose {done rest : List Nat} (h : Lists m rs) (fate : Nat → Fate)
    (hr : head :: (done ++ c :: rest) ∈ rs) (hs : other :: ys ∈ rs) (hne : head ≠ other) :
    ∃ m' rs', disposeOf fate other m c = .ok m' ∧ Relinked m m' ∧ Lists m' rs' ∧
      Parted rs rs' (head :: (done ++ c :: rest))
        (head :: (if fate c = .keep then done ++ c :: rest else done ++ rest)) (other :: ys)
        (other :: (if fate c = .moveTail then ys ++ [c] else ys)) := by
  have hnodup := (h.rings.ring _ hr).nodup
  have hcmem : c ∈ head :: (done ++ c :: rest) := by simp
  have hc : c ∈ rs.flatten := List.mem_flatten.mpr ⟨_, hr, hcmem⟩
  have ho : other ∈ rs.flatten := List.mem_flatten.mpr ⟨_, hs, List.mem_cons_self⟩
  have hdiff : head :: (done ++ c :: rest) ≠ other :: ys := fun heq ↦ hne (List.cons.inj heq).1
  have hco : ∀ t ∈ rs, t ≠ head :: (done ++ c :: rest) → c ∉ t := fun t ht htne hct ↦
    htne (h.rings.eq_of_mem ht hr hct hcmem)
  have hoo : ∀ t ∈ rs, t ≠ other :: ys → other ∉ t := fun t ht htne hot ↦
    htne (h.rings.eq_of_mem ht hs hot List.mem_cons_self)
  have hoc : other ≠ c := by
    rintro rfl
    exact hoo _ hr hdiff hcmem
  -- the entry taken out of its list
  have herase : (head :: (done ++ c :: rest)).erase c = head :: (done ++ rest) := by
    have hcd : c ∉ head :: done := by
      rw [← List.cons_append, List.nodup_append] at hnodup
      exact fun hm ↦ hnodup.2.2 c hm c List.mem_cons_self rfl
    rw [← List.cons_append, List.erase_append_right _ hcd, List.erase_cons_head, List.cons_append]
  have hkept : ∀ t ∈ rs, t ≠ head :: (done ++ c :: rest) → t ∈ rs.map (·.erase c) :=
    fun t ht htne ↦ List.mem_map.mpr ⟨t, ht, List.erase_of_not_mem (hco t ht htne)⟩
  have hmem : head :: (done ++ rest) ∈ rs.map (·.erase c) := List.mem_map.mpr ⟨_, hr, herase⟩
  rw [disposeOf]
  cases hf : fate c with
  | keep => exact ⟨m, rs, rfl, ⟨fun _ ↦ rfl, rfl⟩, h, hr, hs, fun t ht _ _ ↦ ht⟩
  | del =>
    obtain ⟨m', he, hrel, h'⟩ := h.del hc
    exact ⟨m', _, he, hrel, h', hmem, hkept _ hs hdiff.symm, fun t ht htr _ ↦ hkept t ht htr⟩
  | moveTail =>
    obtain ⟨m', he, hrel, h'⟩ := h.moveTail hc ho hoc
    have hstay : ∀ t, other ∉ t → t ∈ rs.map (·.erase c) →
        t ∈ (rs.map (·.erase c)).map (insertBefore other c) := fun t hot ht ↦
      List.mem_map.mpr ⟨t, ht, insertBefore_of_notMem hot⟩
    refine ⟨m', _, he, hrel, h', hstay _ ?_ hmem, ?_, fun t ht htr hts ↦
      hstay t (hoo t ht hts) (hkept t ht htr)⟩
    · intro hot
      refine hoo _ hr hdiff ?_
      simp only [reduceCtorEq, if_false, List.mem_cons, List.mem_append] at hot ⊢
      tauto
    · refine List.mem_map.mpr ⟨_, hkept _ hs hdiff.symm, ?_⟩
      rw [insertBefore, if_pos rfl]
      rfl

/-- The cell behind an entry of a list: the next entry, or the head. -/
theorem Lists.next_entry {done rest : List Nat} (h : Lists m rs)
    (hr : head :: (done ++ c :: rest) ∈ rs) :
    m.nextAt c = some (rest.headD head) := by
  have hring := h.rings.ring _ hr
  cases rest with
  | nil => exact hring.next_last
  | cons d rest =>
    exact IsRing.next_eq (show IsRing m.nextAt ((head :: done) ++ c :: d :: rest) from hring)

/-! ### The loop -/

/-- Induction on the entries that are left. -/
theorem Lists.forEachSafeLoop {fuel : Nat} {todo done : List Nat} (h : Lists m rs)
    (fate : Nat → Fate) (hr : head :: (done ++ todo) ∈ rs) (hs : other :: ys ∈ rs)
    (hne : head ≠ other) (hfuel : todo.length < fuel) {n : Nat}
    (hn : ∀ d rest, todo = d :: rest → n = rest.headD head) :
    ∃ m' rs', listForEachSafeLoop fate other head fuel m (todo.headD head) n = .ok (m', todo) ∧
      Relinked m m' ∧ Lists m' rs' ∧
      Parted rs rs' (head :: (done ++ todo)) (head :: (done ++ todo.filter (fate · = .keep)))
        (other :: ys) (other :: (ys ++ todo.filter (fate · = .moveTail))) := by
  induction todo generalizing m rs done ys fuel n with
  | nil =>
    obtain ⟨k, rfl⟩ := Nat.exists_eq_add_of_le' (show 1 ≤ fuel by simp at hfuel; omega)
    refine ⟨m, rs, ?_, ⟨fun _ ↦ rfl, rfl⟩, h, hr, ?_, fun t ht _ _ ↦ ht⟩
    · rw [listForEachSafeLoop, List.headD_nil, if_pos rfl]
      rfl
    · rw [List.filter_nil, List.append_nil]
      exact hs
  | cons c rest ih =>
    rw [List.length_cons] at hfuel
    obtain ⟨k, rfl⟩ := Nat.exists_eq_add_of_le' (show 1 ≤ fuel by omega)
    have hch : c ≠ head := by
      rintro rfl
      exact (List.nodup_cons.mp (h.rings.ring _ hr).nodup).1 (by simp)
    obtain rfl := hn c rest rfl
    obtain ⟨m₁, rs₁, e1, r1, h1, hp1⟩ := h.dispose fate hr hs hne
    have hdone : (if fate c = .keep then done ++ c :: rest else done ++ rest)
        = (if fate c = .keep then done ++ [c] else done) ++ rest := by
      split <;> simp
    have hkept : (if fate c = .keep then done ++ [c] else done) ++ rest.filter (fate · = .keep)
        = done ++ (c :: rest).filter (fate · = .keep) := by
      rw [List.filter_cons]
      cases fate c <;> simp
    have hmoved : (if fate c = .moveTail then ys ++ [c] else ys) ++
          rest.filter (fate · = .moveTail)
        = ys ++ (c :: rest).filter (fate · = .moveTail) := by
      rw [List.filter_cons]
      cases fate c <;> simp
    rw [hdone] at hp1
    have hr1 := hp1.from_mem
    -- the position read before the body ran is still a cell of the list
    have hmem : rest.headD head ∈ rs₁.flatten := by
      refine List.mem_flatten.mpr ⟨_, hr1, ?_⟩
      cases rest with
      | nil => exact List.mem_cons_self
      | cons d rest => simp
    obtain ⟨nd, hread, -, -, -, hnext, -, -⟩ := h1.neighbours hmem
    have hnext' : ∀ d rest', rest = d :: rest' → nd.next = rest'.headD head := by
      rintro d rest' rfl
      exact Option.some.inj (hnext.symm.trans (h1.next_entry hr1))
    obtain ⟨m₂, rs₂, e2, r2, h2, hp2⟩ := ih h1 hr1 hp1.to_mem (show rest.length < k by omega) hnext'
    rw [hkept, hmoved] at hp2
    refine ⟨m₂, rs₂, ?_, r1.trans r2, h2, hp1.trans h hr hs hp2⟩
    rw [listForEachSafeLoop, List.headD_cons, if_neg hch, e1, Fault.ok_bind]
    simp only [hread, Fault.ok_bind, e2]
    rfl

theorem Lists.forEachSafe {fuel : Nat} (h : Lists m rs) (fate : Nat → Fate) (hr : head :: xs ∈ rs)
    (hs : other :: ys ∈ rs) (hne : head ≠ other) (hfuel : xs.length < fuel) :
    ∃ m' rs', listForEachSafe fate other m fuel head = .ok (m', xs) ∧ Relinked m m' ∧
      Lists m' rs' ∧ Parted rs rs' (head :: xs) (head :: xs.filter (fate · = .keep)) (other :: ys)
        (other :: (ys ++ xs.filter (fate · = .moveTail))) := by
  have hring := h.rings.ring _ hr
  obtain ⟨nd, hread, -, hmem, -, hnext, -, -⟩ := h.neighbours (List.mem_flatten.mpr ⟨_, hr,
    List.mem_cons_self⟩)
  have hfirst : nd.next = xs.headD head := by
    cases xs with
    | nil => exact Option.some.inj (hnext.symm.trans (isRing_singleton.mp hring))
    | cons c xs => exact Option.some.inj (hnext.symm.trans hring.2.1)
  obtain ⟨nd', hread', -, -, -, hnext', -, -⟩ := h.neighbours hmem
  have hr' : head :: ([] ++ xs) ∈ rs := hr
  have hsecond : ∀ c rest, xs = c :: rest → nd'.next = rest.headD head := by
    rintro c rest rfl
    rw [hfirst] at hnext'
    exact Option.some.inj (hnext'.symm.trans (h.next_entry hr'))
  obtain ⟨m', rs', hloop, hrel, h', hp⟩ := h.forEachSafeLoop fate hr' hs hne hfuel hsecond
  refine ⟨m', rs', ?_, hrel, h', hp⟩
  rw [listForEachSafe, hread, Fault.ok_bind, hread', Fault.ok_bind, hfirst]
  exact hloop

/-- **Safe walks.** After every program of legal calls, a loop with `list_for_each_safe` that
keeps, deletes or moves the entries of one list visits each of them, in order; then the list holds
those that were kept and the other list has got those that were moved at its end, both in the old
order, and every further list is as before. -/
theorem forEachSafe_run {calls : List ListCall} (hlegal : LegalCalls m [] calls = true)
    (fate : Nat → Fate) (hr : head :: xs ∈ listEffects [] calls)
    (hs : other :: ys ∈ listEffects [] calls) (hne : head ≠ other) {fuel : Nat}
    (hfuel : xs.length + ys.length < fuel) :
    ∃ m₁ m₂, runLists m calls = .ok m₁ ∧ listForEachSafe fate other m₁ fuel head = .ok (m₂, xs) ∧
      (∀ q, m₂.itemAt q = m.itemAt q) ∧
      listForEach m₂ fuel head = .ok (xs.filter (fate · = .keep)) ∧
      listForEach m₂ fuel other = .ok (ys ++ xs.filter (fate · = .moveTail)) ∧
      ∀ l zs, l :: zs ∈ listEffects [] calls → l ≠ head → l ≠ other → zs.length < fuel →
        listForEach m₂ fuel l = .ok zs := by
  obtain ⟨m₁, hrun, r1, h1⟩ := (lists_nil m).run hlegal
  obtain ⟨m₂, rs₂, hloop, r2, h2, hp⟩ := h1.forEachSafe fate hr hs hne
    (show xs.length < fuel by omega)
  have hkeep := List.length_filter_le (fate · = .keep) xs
  have hmove := List.length_filter_le (fate · = .moveTail) xs
  refine ⟨m₁, m₂, hrun, hloop, (r1.trans r2).items, ?_, ?_, fun l zs hl hlh hlo hlen ↦ ?_⟩
  · exact (h2.forEach_eq hp.from_mem (by omega)).1
  · exact (h2.forEach_eq hp.to_mem (by rw [List.length_append]; omega)).1
  · refine (h2.forEach_eq (hp.rest _ hl ?_ ?_) hlen).1
    · exact fun heq ↦ hlh (List.cons.inj heq).1
    · exact fun heq ↦ hlo (List.cons.inj heq).1

/-- `forEachSafe_run` of a list of three entries, one of each fate. -/
theorem forEachSafe_run_three :
    ∃ m₁ m₂, runLists fiveNodes [.init 1, .init 2, .addTail 3 1, .addTail 4 1, .addTail 5 1]
        = .ok m₁ ∧
      listForEachSafe (fun p ↦ if p = 3 then .keep else if p = 4 then .del else .moveTail) 2 m₁ 4 1
        = .ok (m₂, [3, 4, 5]) ∧
      (∀ q, m₂.itemAt q = fiveNodes.itemAt q) ∧ listForEach m₂ 4 1 = .ok [3] ∧
      listForEach m₂ 4 2 = .ok [5] := by
  have hlegal : LegalCalls fiveNodes [] [.init 1, .init 2, .addTail 3 1, .addTail 4 1,
      .addTail 5 1] = true := by decide
  have hfuel : [3, 4, 5].length + ([] : List Nat).length < 4 := by decide
  obtain ⟨m₁, m₂, hrun, hloop, hitems, hkeep, hmove, -⟩ := forEachSafe_run hlegal
    (fun p ↦ if p = 3 then .keep else if p = 4 then .del else .moveTail)
    (show 1 :: [3, 4, 5] ∈ listEffects [] _ by decide) (show 2 :: [] ∈ listEffects [] _ by decide)
    (by decide) hfuel
  exact ⟨m₁, m₂, hrun, hloop, hitems, hkeep, hmove⟩

end Jeopardy.ChainingHash
