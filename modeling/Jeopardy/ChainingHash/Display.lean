import Jeopardy.ChainingHash.ListHead

/-!
# What the chaining hash table prints

Model of `display` in `chaining_hash/hash.c`. It asks `hash_get` for each index below the size and
walks the ring of the node it gets, which is not a sentinel: the node is printed first, the walk
prints the others.
-/

namespace Jeopardy.ChainingHash

open Rings

variable {α : Type} {m : Mem α} {h : Hash} {c : Nat} {xs : List Nat}

/-- The loop `chaining_hash/hash.c:154–157`: the items it prints. -/
def displayLoop (m : Mem α) (head : Nat) : Nat → Nat → Except Fault (List (Option α))
  | 0, _ => .error .diverges
  | fuel + 1, p =>
    if p = head then return []
    else do
      let tmp ← m.read p
      let items ← displayLoop m head fuel tmp.next
      return tmp.item :: items

/-- The round of `display` for index `i`: the items it prints, or `none` for `~~`. -/
def displayRow (m : Mem α) (h : Hash) (fuel i : Nat) : Except Fault (Option (List (Option α))) := do
  match ← hashGet h i with
  | some node =>
    let nd ← m.read node
    let items ← displayLoop m node fuel nd.next
    return some (nd.item :: items)
  | none => return none

/-- `display`, `chaining_hash/hash.c:144–165`, of a table whose size is an `int`: what it prints at
verbosity 3. -/
def display (m : Mem α) (h : Hash) (fuel : Nat) :
    Except Fault (List (Option (List (Option α)))) :=
  (List.range h.size).mapM (displayRow m h fuel)

/-- A walk along the links from `p` to the head prints the items on the way. -/
theorem displayLoop_eq {head p fuel : Nat} {items : List (Option α)}
    (hl : Links m.nextAt p xs head) (hne : head ∉ p :: xs)
    (hi : (p :: xs).map m.itemAt = items.map some) (hfuel : xs.length + 1 < fuel) :
    displayLoop m head fuel p = .ok items := by
  induction xs generalizing p fuel items with
  | nil =>
    obtain ⟨n, rfl⟩ := Nat.exists_eq_add_of_le' (show 2 ≤ fuel by simp at hfuel; omega)
    obtain ⟨nd, hnd, hread, hn⟩ := read_next hl
    obtain ⟨x, rest, rfl⟩ := List.exists_cons_of_ne_nil
      (show items ≠ [] by rintro rfl; cases hi)
    rw [List.map_cons, List.map_cons, List.cons.injEq, Mem.itemAt, hnd, Option.map_some,
      Option.some.injEq, List.map_nil, eq_comm (a := []), List.map_eq_nil_iff] at hi
    rw [displayLoop, if_neg (Ne.symm (List.ne_of_not_mem_cons hne)), hread, Fault.ok_bind, hn,
      displayLoop, if_pos rfl, hi.1, hi.2]
    rfl
  | cons y ys ih =>
    rw [List.length_cons] at hfuel
    obtain ⟨n, rfl⟩ := Nat.exists_eq_add_of_le' (show 1 ≤ fuel by omega)
    obtain ⟨nd, hnd, hread, hn⟩ := read_next hl.1
    obtain ⟨x, rest, rfl⟩ := List.exists_cons_of_ne_nil
      (show items ≠ [] by rintro rfl; cases hi)
    rw [List.map_cons, List.map_cons (l := rest), List.cons.injEq, Mem.itemAt, hnd,
      Option.map_some, Option.some.injEq] at hi
    rw [List.mem_cons, not_or] at hne
    rw [displayLoop, if_neg (Ne.symm hne.1), hread, Fault.ok_bind, hn,
      ih hl.2 hne.2 hi.2 (by omega), hi.1]
    rfl

/-- The row of a bucket in use. -/
theorem displayRow_bucket {i fuel : Nat} {items : List (Option α)}
    (hget : hashGet h i = .ok (some c)) (hb : IsDoubleRing m.nextAt m.prevAt c xs)
    (hi : (c :: xs).map m.itemAt = items.map some) (hfuel : xs.length < fuel) :
    displayRow m h fuel i = .ok (some items) := by
  obtain ⟨x, rest, rfl⟩ := List.exists_cons_of_ne_nil
      (show items ≠ [] by rintro rfl; cases hi)
  obtain ⟨q, hq, hnext⟩ := hb.next.next_mem (a := c) List.mem_cons_self
  obtain ⟨nd, hnd, hread, rfl⟩ := read_next hnext
  rw [List.map_cons, List.map_cons, List.cons.injEq, Mem.itemAt, hnd, Option.map_some,
    Option.some.injEq] at hi
  obtain ⟨n, rfl⟩ := Nat.exists_eq_add_of_le' (show 1 ≤ fuel by omega)
  have hloop : displayLoop m c (n + 1) nd.next = .ok rest := by
    cases xs with
    | nil =>
      have hself : nd.next = c := Option.some.inj (hnext.symm.trans (isRing_singleton.mp hb.next))
      rw [displayLoop, if_pos hself, List.map_eq_nil_iff.mp hi.2.symm]
      rfl
    | cons y ys =>
      obtain rfl : nd.next = y := Option.some.inj (hnext.symm.trans hb.next.2.1)
      exact displayLoop_eq hb.next.2.2 (List.nodup_cons.mp hb.next.nodup).1 hi.2 hfuel
  rw [displayRow, hget, Fault.ok_bind]
  simp only [hread, Fault.ok_bind, hloop, hi.1]
  rfl

/-- The row of slot `i` for a table that has seen the calls. -/
def expectedRow (size : Nat) (calls : List (Nat × Option α)) (i : Nat) :
    Option (List (Option α)) :=
  let items := (calls.filter (fun call ↦ call.1 % size = i)).map Prod.snd
  if items.isEmpty then none else some items

section Run

variable {size : Nat} {calls : List (Nat × Option α)} {ring : Nat → List Nat}

theorem Ordered.displayRow_eq (ho : Ordered size calls m h ring) (hsize : size < 2 ^ 31)
    (hk : ∀ call ∈ calls, call.1 < 2 ^ 31) {i fuel : Nat} (hi : i < size)
    (hfuel : calls.length < fuel) : displayRow m h fuel i = .ok (expectedRow size calls i) := by
  have hcode : hashCode h i = (i : Int) := by
    rw [hashCode_eq (hi.trans hsize), ho.size_eq, Nat.mod_eq_of_lt hi]
  have hget : hashGet h i = .ok (ring i).head? := by
    rw [hashGet, hcode, slot_eq (Int.natCast_nonneg i) (by rw [ho.size_eq]; exact_mod_cast hi),
      Int.toNat_natCast, ho.head i hi]
  have hfilter : calls.filter (HashesTo size i) = calls.filter (fun call ↦ call.1 % size = i) := by
    refine List.filter_congr (fun call hc ↦ ?_)
    rw [HashesTo, hashCode_eq (hk call hc)]
    exact decide_eq_decide.mpr Nat.cast_inj
  have hitems := ho.items i hi
  rw [hfilter, show (fun call : Nat × Option α ↦ some call.2) = some ∘ Prod.snd from rfl,
    ← List.map_map] at hitems
  have hlen : (ring i).length ≤ calls.length := by
    have hl := congrArg List.length hitems
    rw [List.length_map, List.length_map, List.length_map] at hl
    rw [hl]
    exact List.length_filter_le _ _
  rw [expectedRow]
  cases hring : ring i with
  | nil =>
    rw [hring, List.map_nil, eq_comm, List.map_eq_nil_iff] at hitems
    rw [hring] at hget
    rw [displayRow, hget, Fault.ok_bind]
    simp only [hitems, List.isEmpty_nil, if_true]
    rfl
  | cons c xs =>
    have hb := ho.bucket i hi
    rw [hring] at hitems hb hget hlen
    rw [List.length_cons] at hlen
    have hne : ((calls.filter (fun call ↦ call.1 % size = i)).map Prod.snd).isEmpty = false := by
      rw [List.isEmpty_eq_false_iff]
      intro hnil
      rw [hnil] at hitems
      cases hitems
    rw [displayRow_bucket hget hb hitems (by omega)]
    simp only [hne, Bool.false_eq_true, if_false]

/-- **Display.** After any insertions of keys below `2^31` into a table whose size is a positive
`int`, `display` prints for every index the items whose keys leave it as remainder, each once and
in the order of the insertions, and `~~` for an index without items. -/
theorem display_run (hs : 1 ≤ size) (hsize : size < 2 ^ 31) (hk : ∀ call ∈ calls, call.1 < 2 ^ 31)
    {fuel : Nat} (hfuel : calls.length < fuel) :
    ∃ m h, runItems size calls = .ok (m, h) ∧
      display m h fuel = .ok ((List.range size).map (expectedRow size calls)) := by
  obtain ⟨m, h, ring, hr, ho⟩ := runItems_ordered hs hk
  refine ⟨m, h, hr, ?_⟩
  rw [display, ho.size_eq]
  exact Fault.mapM_eq (fun i hi ↦ ho.displayRow_eq hsize hk (List.mem_range.mp hi) hfuel)

end Run

/-- `display_run` of four insertions into three slots, one of which stays empty. -/
theorem display_run_three_slots :
    ∃ (m : Mem Nat) (h : Hash),
      runItems 3 [(0, some 10), (5, none), (3, some 11), (2, some 12)] = .ok (m, h) ∧
      display m h 5 = .ok [some [some 10, some 11], none, some [none, some 12]] :=
  display_run (by decide) (by decide)
    (show ∀ call ∈ [(0, some 10), (5, none), (3, some 11), (2, some 12)], call.1 < 2 ^ 31 by decide)
    (by decide)

end Jeopardy.ChainingHash
