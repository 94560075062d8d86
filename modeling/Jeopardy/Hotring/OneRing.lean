import Jeopardy.Hotring.Table

/-!
# One insertion, one search

`__hash_create` and `__hash_get` on any one ring. The insertion asks of the ring only that its
tags descend at most once around the circle; the ring it leaves is like that again. The search
asks the same of the keys, and then its early exits are never noticed.
-/

namespace Jeopardy.Hotring

open Rings Fault

variable {m m' : Mem} {h : Hash} {i c q : Nat} {xs : List Nat}

/-! ### Insertion -/

/-- The node linked to `b`; its counter, its flags and its contents stay. -/
def HashNode.relink (nd : HashNode) (b : Nat) : HashNode :=
  { nd with list := { nd.list with addr := b } }

theorem exists_relink (m : Mem) (a : Nat) : ∃ b, m.node a = (m.node a).map (·.relink b) := by
  cases m.node a with
  | none => exact ⟨0, rfl⟩
  | some nd => exact ⟨nd.list.addr, rfl⟩

/-- `list_add` leaves every node but the new one its counter and its flags. -/
theorem listAdd_relink {new p a : Nat} (h : listAdd m new p = .ok m') (ha : a ≠ new) :
    ∃ b, m'.node a = (m.node a).map (·.relink b) := by
  obtain ⟨hd, -, h⟩ := bind_eq_ok.mp h
  obtain ⟨m₁, h₁, h₂⟩ := bind_eq_ok.mp h
  obtain ⟨-, rfl⟩ := Mem.modify_eq_ok.mp h₁
  obtain ⟨-, rfl⟩ := Mem.modify_eq_ok.mp h₂
  simp only [Mem.node_update, if_neg ha]
  split
  · exact ⟨new, rfl⟩
  · exact exists_relink m a

/-- `__hash_create` in a bucket in use keeps the table and relinks old nodes at most. -/
theorem rawHashCreate_relink {h' : Hash} {t node : Nat} (hb : BucketAt m h i (c :: xs))
    (hr : rawHashCreate m h i t = .ok (m', h', node)) :
    h' = h ∧ ∀ a, a ≠ m.brk → ∃ b, m'.node a = (m.node a).map (·.relink b) := by
  obtain ⟨head, hslot, rfl⟩ := Option.map_eq_some_iff.mp
    (show (h.slots i).map Head.addr = some c from hb.head)
  rw [rawHashCreate, hb.slot_eq, hslot] at hr
  simp only [ok_bind, hashNodeAlloc] at hr
  obtain ⟨m₁, hins, hr⟩ := bind_eq_ok.mp hr
  obtain ⟨m₂, hone, hr⟩ := bind_eq_ok.mp hr
  obtain ⟨-, rfl⟩ := Mem.modify_eq_ok.mp hone
  simp only [pure, Except.pure, Except.ok.injEq, Prod.mk.injEq] at hr
  obtain ⟨rfl, rfl, -⟩ := hr
  refine ⟨rfl, fun a ha ↦ ?_⟩
  have hring : IsRing (m.alloc zeroNode).next (head.addr :: xs) := by
    refine hb.linked.congr (fun b hm ↦ ?_)
    obtain ⟨nd, hnd⟩ := Mem.node_of_ring hb.linked hm
    rw [Mem.next, Mem.node_alloc, if_neg (Nat.ne_of_lt (Mem.lt_brk_of_node hnd)), Mem.next]
  change insertByTag (m.alloc zeroNode) m.brk head.addr t = .ok m₁ at hins
  rw [insertByTag_eq hring] at hins
  obtain ⟨b, hab⟩ := listAdd_relink hins ha
  refine ⟨b, ?_⟩
  rw [Mem.node_update, if_neg ha, hab, Mem.node_alloc, if_neg ha]

theorem insertEntries_frame {node key tag value a : Nat} {e : Int}
    (hr : insertEntries m node key tag value = .ok (m', e)) (ha : a ≠ node) :
    m'.node a = m.node a := by
  obtain ⟨nd, -, hr⟩ := bind_eq_ok.mp hr
  split at hr
  · simp only [pure, Except.pure, Except.ok.injEq, Prod.mk.injEq] at hr
    rw [← hr.1]
  · obtain ⟨m₁, hm, hr⟩ := bind_eq_ok.mp hr
    obtain ⟨-, rfl⟩ := Mem.modify_eq_ok.mp hm
    simp only [pure, Except.pure, Except.ok.injEq, Prod.mk.injEq] at hr
    rw [← hr.1, Mem.node_update, if_neg ha]

/-- What an insertion with tag `t` leaves of bucket `i` and its ring: one new node has joined
behind the head, the others follow each other as before and keep all but their links. -/
structure RingGrown (m m' : Mem) (h : Hash) (i : Nat) (ring : List Nat) (key t value : Nat) :
    Prop where
  grown : ∃ ps qs, ring = ps ++ qs ∧ ps ≠ [] ∧ BucketAt m' h i (ps ++ m.brk :: qs) ∧
    descents m'.tag (ps ++ m.brk :: qs) ≤ 1
  fresh : m.brk ∉ ring
  entry : m'.key m.brk = key ∧ m'.tag m.brk = t ∧ m'.value m.brk = value
  old : ∀ a, a ≠ m.brk → ∃ b, m'.node a = (m.node a).map (·.relink b)

/-- **Sorted insertion.** Into a ring whose tags descend at most once around the circle,
`__hash_create` and `insert_entries` put one node, wherever the head is and whatever the tag; the
tags of the ring they leave descend at most once. -/
theorem rawHashCreate_descents (hb : BucketAt m h i (c :: xs))
    (hs : descents m.tag (c :: xs) ≤ 1) (key t value : Nat) :
    ∃ m₁ m', rawHashCreate m h i t = .ok (m₁, h, m.brk) ∧
      insertEntries m₁ m.brk key t value = .ok (m', 1) ∧
      RingGrown m m' h i (c :: xs) key t value := by
  obtain ⟨m₁, h', m', hc, he, P⟩ := place_spec key t value hb
  obtain ⟨rfl, hold⟩ := rawHashCreate_relink hb hc
  have hfresh : m.brk ∉ c :: xs := by
    intro hm
    obtain ⟨nd, hnd⟩ := Mem.node_of_ring hb.linked hm
    exact (Mem.lt_brk_of_node hnd).ne rfl
  have htag (a : Nat) (ha : a ∈ c :: xs) : m'.tag a = m.tag a :=
    (P.data a (fun he ↦ hfresh (he ▸ ha))).tag
  refine ⟨m₁, m', hc, he, ?_, hfresh, ⟨P.key_new, P.tag_new, P.value_new⟩, ?_⟩
  · have hnew : c :: insertGap m.tag t m.brk c xs = c :: insertGap m'.tag t m.brk c xs := by
      rw [insertGap_congr htag]
    obtain ⟨p, q, h1, h2, -⟩ := insertGap_split m.tag t m.brk c xs
    have hring : newRing m.tag t m.brk (c :: xs) =
        (p ++ [gapAfter m.tag t c xs]) ++ m.brk :: q := by
      rw [newRing, h2, List.append_assoc, List.singleton_append]
    refine ⟨p ++ [gapAfter m.tag t c xs], q, ?_, by simp, hring ▸ P.bucket, ?_⟩
    · rw [h1, List.append_assoc, List.singleton_append]
    · rw [← hring, ← cyclicSorted_iff_descents, newRing, hnew]
      have hsort := (cyclicSorted_iff_descents.mpr hs).congr htag
      have := hsort.insertGap (a := m.brk)
      rwa [P.tag_new] at this
  · intro a ha
    rw [insertEntries_frame he ha]
    exact hold a ha

/-- `rawHashCreate_descents` of a ring of three nodes whose head is not the least: key 6 joins
behind the head. -/
theorem rawHashCreate_descents_three :
    descents threeMem.tag [2, 3, 1] ≤ 1 ∧
      ∃ m₁ m', rawHashCreate threeMem threeTable 1 2 = .ok (m₁, threeTable, 4) ∧
        insertEntries m₁ 4 6 2 60 = .ok (m', 1) ∧
        RingGrown threeMem m' threeTable 1 [2, 3, 1] 6 2 60 :=
  ⟨by decide, rawHashCreate_descents bucketAt_three (by decide) 6 2 60⟩

/-! ### Search -/

/-- The search loop without its three early exits. -/
def scanBody (key : Nat) (m : Mem) (p : Nat) (s : Nat × Option GetResult) :
    Except Fault (ForInStep (Mem × (Nat × Option GetResult))) := do
  let tmp ← m.read p
  if tmp.key = key then
    let m ← bumpCounter m p
    return .done (m, (s.1, some ⟨.accessCold, some p, s.1⟩))
  else return .yield (m, (p, none))

/-- `__hash_get` without the early exits: the ring is scanned once around from its head. -/
def rawHashScan (m : Mem) (h : Hash) (key : Nat) : Except Fault (Mem × Hash × GetResult) := do
  let (hashIndex, _) ← hashCode h key
  match ← h.slot hashIndex with
  | none => return (m, h, .absent)
  | some head =>
    let h := h.setSlot hashIndex (some { head with counter := head.counter + 1 })
    let headNode ← m.read head.addr
    if headNode.key = key then
      let m ← bumpCounter m head.addr
      return (m, h, ⟨.accessHot, some head.addr, 0⟩)
    else
      let (m, _, result) ← listForEach (scanBody key) m head.addr (head.addr, none)
      return (m, h, result.getD .absent)

/-- What a pass behind the head answers for the node it found and its predecessor. -/
def answered (m : Mem) : Option (Nat × Nat) → Except Fault (Mem × GetResult)
  | some (x, prev) => do
    let m ← bumpCounter m x
    return (m, ⟨.accessCold, some x, prev⟩)
  | none => .ok (m, .absent)

theorem keepsLinks_scanBody (q : Nat) (m : Mem) (ys : List Nat) : KeepsLinks (scanBody q) m ys := by
  intro m₁ a s m₂ s' _ hm hb
  obtain ⟨tmp, -, hb⟩ := bind_eq_ok.mp hb
  split at hb
  · obtain ⟨m₃, -, hb⟩ := bind_eq_ok.mp hb
    simp [pure, Except.pure] at hb
  · simp only [pure, Except.pure, Except.ok.injEq, ForInStep.yield.injEq, Prod.mk.injEq] at hb
    exact hb.1 ▸ hm

private theorem foldRing_search (hn : ∀ a ∈ c :: xs, ∃ nd, m.node a = some nd) :
    (do
      let (m, _, r) ← foldRing (getBody q) m xs (c, none)
      return (m, r.getD .absent)) = answered m (search m.key q c xs) := by
  induction xs generalizing c with
  | nil => rfl
  | cons x xs ih =>
    obtain ⟨nd', hc⟩ := hn c (by simp)
    obtain ⟨nd, hx⟩ := hn x (by simp)
    rw [foldRing, getBody_eq none hx hc, search]
    split
    · simp only [answered]
      cases bumpCounter m x with
      | error e => rfl
      | ok m₁ => rfl
    · split
      · rfl
      · exact ih (fun a ha ↦ hn a (List.mem_cons_of_mem c ha))

private theorem foldRing_scan (hn : ∀ a ∈ c :: xs, ∃ nd, m.node a = some nd) :
    (do
      let (m, _, r) ← foldRing (scanBody q) m xs (c, none)
      return (m, r.getD .absent)) = answered m (scan m.key q c xs) := by
  induction xs generalizing c with
  | nil => rfl
  | cons x xs ih =>
    obtain ⟨nd, hx⟩ := hn x (by simp)
    rw [foldRing, scanBody, Mem.read_eq hx, ok_bind, scan, Mem.key_of_node hx]
    split
    · simp only [answered]
      cases bumpCounter m x with
      | error e => rfl
      | ok m₁ => rfl
    · exact ih (fun a ha ↦ hn a (List.mem_cons_of_mem c ha))

/-- What a search of `ring` for `q` has to answer: the first match from the head, and where it
stands. -/
structure FirstMatch (key : Nat → Nat) (q : Nat) (ring : List Nat) (r : GetResult) : Prop where
  node : r.node = ring.find? (fun a ↦ key a = q)
  found : r.ret ≠ .notFound ↔ ∃ a ∈ ring, key a = q
  prev_null : r.prev = 0 ↔ r.node = none ∨ r.node = ring.head?
  prev : ∀ x, r.node = some x → r.prev ≠ 0 → ∃ ps qs, ring = ps ++ r.prev :: x :: qs

theorem firstMatch_ringGet {f : Nat → Nat} (hs : CyclicSorted f (c :: xs)) (hn : (c :: xs).Nodup)
    (h0 : 0 ∉ c :: xs) : FirstMatch f q (c :: xs) (ringGet f q (c :: xs)) := by
  have hc0 : c ≠ 0 := fun h ↦ h0 (h ▸ List.mem_cons_self)
  rw [ringGet]
  split
  · next hc =>
    refine ⟨by simp [hc], ?_, by simp, fun x _ h ↦ absurd rfl h⟩
    exact iff_of_true (by simp) ⟨c, List.mem_cons_self, hc⟩
  · next hc =>
    have hfind : (c :: xs).find? (fun a ↦ f a = q) = (scan f q c xs).map Prod.fst := by
      rw [List.find?_cons_of_neg (by simpa using hc), map_fst_scan]
    cases hscan : scan f q c xs with
    | none =>
      have hno : ∀ a ∈ c :: xs, f a ≠ q := by
        rw [hscan, Option.map_none, List.find?_eq_none] at hfind
        exact fun a ha ↦ by simpa using hfind a ha
      rw [search_eq_scan hs, hscan]
      refine ⟨by rw [hfind, hscan]; rfl, ⟨fun h ↦ absurd rfl h, ?_⟩, ?_, ?_⟩
      · rintro ⟨a, ha, hq⟩
        exact absurd hq (hno a ha)
      · exact iff_of_true rfl (Or.inl rfl)
      · intro x hx
        cases hx
    | some r =>
      obtain ⟨x, y⟩ := r
      obtain ⟨ps, qs, he, hx⟩ := search_eq_some ((search_eq_scan hs q).trans hscan)
      have hy0 : y ≠ 0 := by
        rintro rfl
        exact h0 (he ▸ by simp)
      have hxc : x ≠ c := by
        rintro rfl
        exact hc hx
      rw [search_eq_scan hs, hscan]
      refine ⟨by rw [hfind, hscan]; rfl, iff_of_true (by simp [GetResult.ofSearch])
        ⟨x, he ▸ by simp, hx⟩, ?_, ?_⟩
      · constructor
        · intro h
          exact absurd h hy0
        · rintro (h | h)
          · cases h
          · exact absurd (Option.some.inj h) hxc
      · intro z hz _
        exact ⟨ps, qs, by rw [← Option.some.inj hz]; exact he⟩

private theorem bind_answer (h : Hash) (x : Except Fault (Mem × Nat × Option GetResult)) :
    (do
      let (m, _, r) ← x
      return (m, h, r.getD .absent) : Except Fault (Mem × Hash × GetResult)) =
    (do
      let (m, r) ← (do
        let (m, _, r) ← x
        return (m, r.getD .absent))
      return (m, h, r)) := by
  cases x with
  | error e => rfl
  | ok r => rfl

/-- **The early exits.** On a ring whose keys descend at most once around the circle `__hash_get`
leaves the same memory and table and gives the same answer as a scan of the whole ring: the first
match from the head and its predecessor. -/
theorem rawHashGet_eq_scan {tag : Nat} (hcode : hashCode h q = .ok (i, tag))
    (hb : BucketAt m h i (c :: xs)) (hs : descents m.key (c :: xs) ≤ 1) :
    rawHashGet m h q = rawHashScan m h q ∧
      ∃ m' h' r, rawHashGet m h q = .ok (m', h', r) ∧ FirstMatch m.key q (c :: xs) r := by
  have hsort := cyclicSorted_iff_descents.mpr hs
  have hnode (a : Nat) (ha : a ∈ c :: xs) := Mem.node_of_ring hb.linked ha
  have h0 : 0 ∉ c :: xs := by
    intro h
    obtain ⟨nd, hnd⟩ := hnode 0 h
    exact Mem.ne_zero_of_node hnd rfl
  have hmatch := firstMatch_ringGet (q := q) hsort hb.linked.nodup h0
  obtain ⟨head, hslot, rfl⟩ := Option.map_eq_some_iff.mp
    (show (h.slots i).map Head.addr = some c from hb.head)
  obtain ⟨nd, hnd⟩ := hnode head.addr List.mem_cons_self
  have hget := foldRing_search (q := q) hnode
  rw [rawHashGet, rawHashScan, hcode, ok_bind, ok_bind]
  simp only [hb.slot_eq, hslot, ok_bind, Mem.read_eq hnd]
  rw [ringGet, Mem.key_of_node hnd] at hmatch
  split
  · next hk =>
    rw [if_pos hk] at hmatch
    obtain ⟨m', hbump, -⟩ := bumpCounter_spec hnd
    rw [hbump]
    exact ⟨rfl, m', _, _, rfl, hmatch⟩
  · next hk =>
    rw [if_neg hk] at hmatch
    rw [listForEach_eq_fold _ hb.linked (keepsLinks_getBody q m _),
      listForEach_eq_fold _ hb.linked (keepsLinks_scanBody q m _)]
    rw [bind_answer, bind_answer, hget, foldRing_scan hnode, search_eq_scan hsort]
    refine ⟨rfl, ?_⟩
    rw [search_eq_scan hsort] at hmatch
    cases hscan : scan m.key q head.addr xs with
    | none =>
      rw [hscan] at hmatch
      exact ⟨m, _, _, rfl, hmatch⟩
    | some r =>
      obtain ⟨x, y⟩ := r
      obtain ⟨ps, qs, he, -⟩ := search_eq_some ((search_eq_scan hsort q).trans hscan)
      obtain ⟨ndx, hx⟩ := hnode x (he ▸ by simp)
      obtain ⟨m', hbump, -⟩ := bumpCounter_spec hx
      rw [hscan] at hmatch
      rw [answered, hbump]
      exact ⟨m', _, _, rfl, hmatch⟩

/-- `rawHashGet_eq_scan` of a ring of three nodes whose head is not the least. Key 6 is between the
head's key and the next one's, so the search stops there. -/
theorem rawHashGet_eq_scan_three :
    descents threeMem.key [2, 3, 1] ≤ 1 ∧
      rawHashGet threeMem threeTable 6 = rawHashScan threeMem threeTable 6 ∧
      ∃ m' h' r, rawHashGet threeMem threeTable 6 = .ok (m', h', r) ∧
        FirstMatch threeMem.key 6 [2, 3, 1] r :=
  ⟨by decide, rawHashGet_eq_scan (show hashCode threeTable 6 = .ok (1, 2) by decide) bucketAt_three
    (by decide)⟩

end Jeopardy.Hotring
