import Jeopardy.Hotring.Cells

/-!
# One bucket: search and creation on a ring

What the loops of `__hash_get` and `__hash_create` do to a single ring, in terms of the
list of its nodes: the search is `Rings.search` by key and changes counters only, the
creation is `Rings.insertGap` by tag.
-/

namespace Jeopardy.Hotring

open Rings Fault

variable {m m' : Mem} {c q t node : Nat} {xs ys : List Nat}

/-! ### Search -/

/-- The result of the loop of `__hash_get` for what the search found. -/
def GetResult.ofSearch : Option (Nat × Nat) → GetResult
  | some (x, prev) => ⟨.accessCold, some x, prev⟩
  | none => .absent

/-- What `__hash_get` answers on a ring read from its head. -/
def ringGet (key : Nat → Nat) (q : Nat) : List Nat → GetResult
  | [] => .absent
  | c :: xs =>
    if key c = q then ⟨.accessHot, some c, 0⟩ else .ofSearch (search key q c xs)

/-- One round of the search in terms of the keys. -/
theorem getBody_eq {p prev : Nat} {nd nd' : HashNode} (r : Option GetResult)
    (hp : m.node p = some nd) (hprev : m.node prev = some nd') :
    getBody q m p (prev, r) =
      if m.key p = q then do
        let m ← bumpCounter m p
        return .done (m, (prev, some ⟨.accessCold, some p, prev⟩))
      else if Between (m.key prev) q (m.key p) then .ok (.done (m, (prev, some .absent)))
      else .ok (.yield (m, (p, none))) := by
  rw [Mem.key_of_node hp, Mem.key_of_node hprev, getBody, Mem.read_eq hp]
  simp only [ok_bind, Mem.read_eq hprev]
  split
  · rfl
  · split
    · next h => rw [if_pos (show Between nd'.key q nd.key from Or.inl h)]; rfl
    · next h1 =>
      split
      · next h2 => rw [if_pos (show Between nd'.key q nd.key from Or.inr (Or.inl h2))]; rfl
      · next h2 =>
        split
        · next h3 => rw [if_pos (show Between nd'.key q nd.key from Or.inr (Or.inr h3))]; rfl
        · next h3 =>
          have hb : ¬ Between nd'.key q nd.key := by
            rintro (h | h | h)
            · exact h1 h
            · exact h2 h
            · exact h3 h
          rw [if_neg hb]
          rfl

theorem getBody_yield {a : Nat} {s s' : Nat × Option GetResult}
    (h : getBody q m a s = .ok (.yield (m', s'))) : m' = m := by
  unfold getBody at h
  obtain ⟨tmp, -, h⟩ := bind_eq_ok.mp h
  split at h
  · obtain ⟨m₁, -, h⟩ := bind_eq_ok.mp h
    simp [pure, Except.pure] at h
  · obtain ⟨prev, -, h⟩ := bind_eq_ok.mp h
    split at h
    · simp [pure, Except.pure] at h
    · split at h
      · simp [pure, Except.pure] at h
      · split at h
        · simp [pure, Except.pure] at h
        · simp only [pure, Except.pure, Except.ok.injEq, ForInStep.yield.injEq,
            Prod.mk.injEq] at h
          exact h.1.symm

theorem keepsLinks_getBody (q : Nat) (m : Mem) (ys : List Nat) :
    KeepsLinks (getBody q) m ys := by
  intro m₁ a s m₂ s' _ hm h
  rw [getBody_yield h]
  exact hm

private theorem foldRing_get (hn : ∀ a ∈ c :: xs, ∃ nd, m.node a = some nd) :
    ∃ m' s r, foldRing (getBody q) m xs (c, none) = .ok (m', (s, r)) ∧ m.SameCells m' ∧
      (∀ a, a ∉ c :: xs → m'.node a = m.node a) ∧
      r.getD .absent = .ofSearch (search m.key q c xs) := by
  induction xs generalizing c with
  | nil => exact ⟨m, c, none, rfl, .refl m, fun _ _ ↦ rfl, rfl⟩
  | cons x xs ih =>
    obtain ⟨nd', hc⟩ := hn c (by simp)
    obtain ⟨nd, hx⟩ := hn x (by simp)
    rw [foldRing, getBody_eq none hx hc, search]
    split
    · obtain ⟨m', hb, hs, hf⟩ := bumpCounter_spec hx
      refine ⟨m', c, some ⟨.accessCold, some x, c⟩, by rw [hb]; rfl, hs, ?_, rfl⟩
      intro a ha
      apply hf
      rintro rfl
      simp at ha
    · split
      · exact ⟨m, c, some .absent, rfl, .refl m, fun _ _ ↦ rfl, rfl⟩
      · obtain ⟨m', s, r, hl, hs, hf, hr⟩ := ih (fun a ha ↦ hn a (List.mem_cons_of_mem c ha))
        exact ⟨m', s, r, hl, hs, fun a ha ↦ hf a (fun h ↦ ha (List.mem_cons_of_mem c h)), hr⟩

/-- The search loop over a ring answers by `search` and changes counters of the ring only. -/
theorem listForEach_get (h : IsRing m.next (c :: xs)) :
    ∃ m' s r, listForEach (getBody q) m c (c, none) = .ok (m', (s, r)) ∧ m.SameCells m' ∧
      (∀ a, a ∉ c :: xs → m'.node a = m.node a) ∧
      r.getD .absent = .ofSearch (search m.key q c xs) := by
  rw [listForEach_eq_fold _ h (keepsLinks_getBody q m _)]
  exact foldRing_get (fun a ha ↦ Mem.node_of_ring h ha)

/-! ### Creation -/

/-- One round of the insertion loop in terms of the tags. -/
theorem createBody_eq {p prev : Nat} {nd nd' : HashNode} (b : Bool)
    (hp : m.node p = some nd) (hprev : m.node prev = some nd') :
    createBody t node m p (prev, b) =
      if Fits (m.tag prev) t (m.tag p) then do
        let m ← listAdd m node prev
        return .done (m, (prev, true))
      else .ok (.yield (m, (p, b))) := by
  rw [Mem.tag_of_node hp, Mem.tag_of_node hprev, createBody, Mem.read_eq hp]
  simp only [ok_bind, Mem.read_eq hprev]
  split
  · next h => rw [if_pos (show Fits nd'.tag t nd.tag from Or.inl h)]
  · next h1 =>
    split
    · next h2 => rw [if_pos (show Fits nd'.tag t nd.tag from Or.inr h2)]
    · next h2 =>
      rw [if_neg (show ¬ Fits nd'.tag t nd.tag from not_or.mpr ⟨h1, h2⟩)]
      rfl

theorem createBody_yield {a : Nat} {s s' : Nat × Bool}
    (h : createBody t node m a s = .ok (.yield (m', s'))) : m' = m := by
  unfold createBody at h
  obtain ⟨next, -, h⟩ := bind_eq_ok.mp h
  obtain ⟨prev, -, h⟩ := bind_eq_ok.mp h
  split at h
  · obtain ⟨m₁, -, h⟩ := bind_eq_ok.mp h
    simp [pure, Except.pure] at h
  · split at h
    · obtain ⟨m₁, -, h⟩ := bind_eq_ok.mp h
      simp [pure, Except.pure] at h
    · simp only [pure, Except.pure, Except.ok.injEq, ForInStep.yield.injEq, Prod.mk.injEq] at h
      exact h.1.symm

theorem keepsLinks_createBody (t node : Nat) (m : Mem) (ys : List Nat) :
    KeepsLinks (createBody t node) m ys := by
  intro m₁ a s m₂ s' _ hm h
  rw [createBody_yield h]
  exact hm

/-- The insertion loop and the addition at the end, when no gap was found, link the node in
behind `gapAfter`. -/
private theorem foldRing_create (hn : ∀ a ∈ c :: xs, ∃ nd, m.node a = some nd) :
    (do
      let (m, prev, added) ← foldRing (createBody t node) m xs (c, false)
      if added then Except.ok m else listAdd m node prev) =
      listAdd m node (gapAfter m.tag t c xs) := by
  induction xs generalizing c with
  | nil => rfl
  | cons x xs ih =>
    obtain ⟨nd', hc⟩ := hn c (by simp)
    obtain ⟨nd, hx⟩ := hn x (by simp)
    rw [foldRing, createBody_eq false hx hc, gapAfter]
    split
    · cases listAdd m node c with
      | error e => rfl
      | ok m₁ => rfl
    · exact ih (fun a ha ↦ hn a (List.mem_cons_of_mem c ha))

/-- Over a ring the new node is linked in behind `gapAfter`. -/
theorem insertByTag_eq (h : IsRing m.next (c :: xs)) :
    insertByTag m node c t = listAdd m node (gapAfter m.tag t c xs) := by
  rw [insertByTag, listForEach_eq_fold _ h (keepsLinks_createBody t node m _)]
  exact foldRing_create (fun a ha ↦ Mem.node_of_ring h ha)

/-- The ring of a bucket after a node was created in it. -/
def newRing (tag : Nat → Nat) (t new : Nat) : List Nat → List Nat
  | [] => [new]
  | c :: xs => c :: insertGap tag t new c xs

theorem mem_newRing {tag : Nat → Nat} {a new : Nat} :
    a ∈ newRing tag t new xs ↔ a = new ∨ a ∈ xs := by
  cases xs with
  | nil => simp [newRing]
  | cons c xs =>
    rw [newRing, List.mem_cons, mem_insertGap, List.mem_cons]
    tauto

theorem head?_newRing {tag : Nat → Nat} {new : Nat} :
    (newRing tag t new xs).head? = some (xs.head?.getD new) := by
  cases xs <;> rfl

/-- Bucket `i` of the table holds the ring `xs`, read from its head. -/
structure BucketAt (m : Mem) (h : Hash) (i : Nat) (xs : List Nat) : Prop where
  index_lt : i < h.size
  head : (h.slots i).map Head.addr = xs.head?
  linked : IsRing m.next xs

theorem BucketAt.slot_eq {h : Hash} {i : Nat} (hb : BucketAt m h i xs) :
    h.slot i = .ok (h.slots i) := by
  rw [Hash.slot, if_pos hb.index_lt]

/-- A ring of the keys 4, 5 and 7, each with a counter. -/
def threeMem : Mem :=
  ((Mem.init.alloc ⟨⟨2, 1, false, false⟩, 0, 4, 40⟩).alloc ⟨⟨3, 3, false, false⟩, 1, 5, 50⟩).alloc
    ⟨⟨1, 2, false, false⟩, 3, 7, 70⟩

/-- A table of four slots whose bucket 1 is this ring, with the head at key 5. -/
def threeTable : Hash := Hash.setSlot ⟨4, 2, 4, fun _ ↦ Option.none⟩ 1 (some (.ofPtr 2))

theorem bucketAt_three : BucketAt threeMem threeTable 1 [2, 3, 1] :=
  ⟨by decide, rfl, by decide, rfl, rfl, rfl⟩

/-- What `__hash_create` and `insert_entries` do to a bucket: one node with the given key,
tag and value joins the ring, nothing else changes but links of the ring. -/
structure Placed (m m' : Mem) (h h' : Hash) (i : Nat) (xs : List Nat) (key tag value : Nat) :
    Prop where
  brk : m'.brk = m.brk + 1
  key_new : m'.key m.brk = key
  tag_new : m'.tag m.brk = tag
  value_new : m'.value m.brk = value
  data : ∀ a, a ≠ m.brk → m.SameData m' a
  frame : ∀ a, a ≠ m.brk → a ∉ xs → m'.cell a = m.cell a
  bucket : BucketAt m' h' i (newRing m.tag tag m.brk xs)
  sizes : h'.n = h.n ∧ h'.k = h.k ∧ h'.size = h.size
  slots : ∀ j, j ≠ i → h'.slots j = h.slots j

/-- The zeroed node that `hash_node_alloc` answers. -/
def zeroNode : HashNode := { list := .ofPtr 0, tag := 0, key := 0, value := 0 }

private theorem cell_alloc_zero (m : Mem) (a : Nat) :
    (m.alloc zeroNode).cell a = if a = m.brk then some ⟨0, 0, 0, 0⟩ else m.cell a := by
  simp only [Mem.cell, Mem.node_alloc]
  split <;> rfl

private theorem cell_brk (m : Mem) : m.cell m.brk = none := by
  simp [Mem.cell, Mem.node_brk]

private theorem tag_alloc_zero (m : Mem) : (m.alloc zeroNode).tag = m.tag := by
  funext a
  rw [Mem.tag, Mem.tag, cell_alloc_zero]
  split
  · next h => simp [h, cell_brk]
  · rfl

private theorem brk_notMem (h : IsRing m.next xs) : m.brk ∉ xs := by
  intro hm
  obtain ⟨nd, hnd⟩ := Mem.node_of_ring h hm
  rw [Mem.node_brk] at hnd
  simp at hnd

private theorem ring_alloc (h : IsRing m.next xs) : IsRing (m.alloc zeroNode).next xs := by
  apply h.congr
  intro a ha
  rw [Mem.next_eq_cell, Mem.next_eq_cell, cell_alloc_zero, if_neg]
  rintro rfl
  exact brk_notMem h ha

/-- Linking the zeroed node into a ring that is not empty. -/
private theorem insertByTag_spec (t : Nat) (h : IsRing m.next (c :: xs)) :
    ∃ m', insertByTag (m.alloc zeroNode) m.brk c t = .ok m' ∧ m'.brk = m.brk + 1 ∧
      IsRing m'.next (newRing m.tag t m.brk (c :: xs)) ∧
      (∃ nx, m'.cell m.brk = some ⟨nx, 0, 0, 0⟩) ∧
      (∀ a, a ≠ m.brk → m.SameData m' a) ∧
      ∀ a, a ≠ m.brk → a ∉ c :: xs → m'.cell a = m.cell a := by
  have hr := ring_alloc h
  have hg : gapAfter m.tag t c xs ∈ c :: xs := gapAfter_mem _ _ _ _
  have hne : m.brk ≠ gapAfter m.tag t c xs := by
    intro he
    exact brk_notMem h (he ▸ hg)
  obtain ⟨nd, hnd⟩ := Mem.node_of_ring hr hg
  have hnew : (m.alloc zeroNode).node m.brk = some zeroNode := by simp
  obtain ⟨m', hm', hb, hcn, hcg, hco⟩ := listAdd_spec hnew hnd hne
  have hold (a : Nat) (ha : a ≠ m.brk) : (m.alloc zeroNode).cell a = m.cell a := by
    rw [cell_alloc_zero, if_neg ha]
  have hcell (a : Nat) (ha : a ≠ m.brk) (hag : a ≠ gapAfter m.tag t c xs) :
      m'.cell a = m.cell a := (hco a ha hag).trans (hold a ha)
  refine ⟨m', ?_, hb, ?_, ⟨nd.list.addr, hcn⟩, ?_, ?_⟩
  · rw [insertByTag_eq hr, tag_alloc_zero]
    exact hm'
  · obtain ⟨p, q, h1, h2, -, -⟩ := insertGap_split m.tag t m.brk c xs
    rw [newRing, h2]
    rw [h1] at hr
    refine hr.insert_behind ?_ ?_ ?_ ?_
    · rw [← h1]
      exact brk_notMem h
    · rw [Mem.next_eq_cell, hcn, Mem.next, hnd]
      rfl
    · rw [Mem.next_eq_cell, hcg]
      rfl
    · intro b hbg hbne
      rw [Mem.next_eq_cell, Mem.next_eq_cell, hco b hbne hbg]
  · intro a ha
    by_cases hag : a = gapAfter m.tag t c xs
    · subst hag
      apply Mem.sameData_of_link (c := nd.cell) (b := m.brk)
      · rw [← hold _ ha]
        exact Mem.cell_of_node hnd
      · exact hcg
    · exact Mem.sameData_of_cell (hcell a ha hag)
  · intro a ha hax
    apply hcell a ha
    rintro rfl
    exact hax hg

/-- `__hash_create` links one zeroed node into the ring of the bucket. -/
theorem rawHashCreate_spec {h : Hash} {i : Nat} (t : Nat) (hb : BucketAt m h i xs) :
    ∃ m' h', rawHashCreate m h i t = .ok (m', h', m.brk) ∧ m'.brk = m.brk + 1 ∧
      BucketAt m' h' i (newRing m.tag t m.brk xs) ∧
      (∃ nx, m'.cell m.brk = some ⟨nx, 0, 0, 0⟩) ∧
      (∀ a, a ≠ m.brk → m.SameData m' a) ∧
      (∀ a, a ≠ m.brk → a ∉ xs → m'.cell a = m.cell a) ∧
      (h'.n = h.n ∧ h'.k = h.k ∧ h'.size = h.size) ∧ ∀ j, j ≠ i → h'.slots j = h.slots j := by
  have hnew : (m.alloc zeroNode).node m.brk = some zeroNode := by simp
  cases xs with
  | nil =>
    have hslot : h.slots i = none := by simpa using hb.head
    let m₁ := (m.alloc zeroNode).update m.brk (fun nd ↦ { nd with list := .ofPtr m.brk })
    have hnd : m₁.node m.brk = some { zeroNode with list := .ofPtr m.brk } := by
      simp [m₁]
    obtain ⟨m', hm', hs⟩ := setCounterOne_spec hnd
    have hcell (a : Nat) : m'.cell a = if a = m.brk then some ⟨m.brk, 0, 0, 0⟩ else m.cell a := by
      rw [hs.cell]
      by_cases ha : a = m.brk
      · simp [Mem.cell, m₁, ha, HashNode.cell, zeroNode, ListHead.ofPtr]
      · simp [Mem.cell, m₁, ha]
    refine ⟨m', h.setSlot i (some (.ofPtr m.brk)), ?_, hs.brk, ?_, ⟨m.brk, ?_⟩, ?_, ?_,
      ⟨rfl, rfl, rfl⟩, ?_⟩
    · rw [rawHashCreate, hb.slot_eq, hslot]
      simp only [ok_bind, hashNodeAlloc, initListHead]
      rw [show ({ list := .ofPtr 0, tag := 0, key := 0, value := 0 } : HashNode) = zeroNode
        from rfl, Mem.modify_eq _ hnew, ok_bind, hm']
      rfl
    · refine ⟨hb.index_lt, by simp [Hash.setSlot, Head.ofPtr, newRing], ?_⟩
      rw [newRing, isRing_singleton, Mem.next_eq_cell, hcell, if_pos rfl]
      rfl
    · rw [hcell, if_pos rfl]
    · intro a ha
      exact Mem.sameData_of_cell (by rw [hcell, if_neg ha])
    · intro a ha _
      rw [hcell, if_neg ha]
    · intro j hj
      simp [Hash.setSlot, hj]
  | cons c xs =>
    obtain ⟨head, hslot, rfl⟩ : ∃ head, h.slots i = some head ∧ head.addr = c := by
      simpa using hb.head
    obtain ⟨m₁, hm₁, hb₁, hr₁, ⟨nx, hnx⟩, hd₁, hf₁⟩ := insertByTag_spec t hb.linked
    obtain ⟨nd, hnd, -⟩ := Mem.node_of_cell hnx
    obtain ⟨m', hm', hs⟩ := setCounterOne_spec hnd
    refine ⟨m', h, ?_, hs.brk.trans hb₁, ⟨hb.index_lt, ?_, ?_⟩, ⟨nx, ?_⟩, ?_, ?_,
      ⟨rfl, rfl, rfl⟩, fun _ _ ↦ rfl⟩
    · rw [rawHashCreate, hb.slot_eq, hslot]
      simp only [ok_bind, hashNodeAlloc]
      rw [show ({ list := .ofPtr 0, tag := 0, key := 0, value := 0 } : HashNode) = zeroNode
        from rfl, hm₁, ok_bind, hm']
      rfl
    · simp [newRing, hslot]
    · rw [hs.next]
      exact hr₁
    · rw [hs.cell, hnx]
    · intro a ha
      exact (hd₁ a ha).trans (Mem.sameData_of_cell (hs.cell a))
    · intro a ha hax
      rw [hs.cell, hf₁ a ha hax]

/-- Creation of a node in a bucket followed by `insert_entries` on it never fails. -/
theorem place_spec {h : Hash} {i : Nat} (key tag value : Nat) (hb : BucketAt m h i xs) :
    ∃ m₁ h' m', rawHashCreate m h i tag = .ok (m₁, h', m.brk) ∧
      insertEntries m₁ m.brk key tag value = .ok (m', 1) ∧
      Placed m m' h h' i xs key tag value := by
  obtain ⟨m₁, h', hc, hbrk, hbk, ⟨nx, hnx⟩, hd, hf, hsz, hsl⟩ := rawHashCreate_spec tag hb
  obtain ⟨nd, hnd, hcell⟩ := Mem.node_of_cell hnx
  have hv : nd.value = 0 := congrArg Cell.value hcell
  have ha : nd.list.addr = nx := congrArg Cell.next hcell
  let m' := m₁.update m.brk (fun nd ↦ { nd with key := key, tag := tag, value := value })
  have hm (a : Nat) :
      m'.cell a = if a = m.brk then some ⟨nx, tag, key, value⟩ else m₁.cell a := by
    by_cases hab : a = m.brk
    · simp [Mem.cell, m', hab, hnd, HashNode.cell, ha]
    · simp [Mem.cell, m', hab]
  have hnext (a : Nat) : m'.next a = m₁.next a := by
    rw [Mem.next_eq_cell, Mem.next_eq_cell, hm]
    split
    · next hab => rw [hab, hnx]; rfl
    · rfl
  refine ⟨m₁, h', m', hc, ?_, ?_⟩
  · rw [insertEntries, Mem.read_eq hnd, ok_bind, if_neg (not_not.mpr hv), Mem.modify_eq _ hnd]
    rfl
  · have hn := hm m.brk
    rw [if_pos rfl] at hn
    refine ⟨hbrk, Mem.key_of_cell hn, Mem.tag_of_cell hn, Mem.value_of_cell hn, ?_, ?_,
      ⟨hbk.index_lt, hbk.head, hbk.linked.congr (fun a _ ↦ hnext a)⟩, hsz, hsl⟩
    · intro a hab
      exact (hd a hab).trans (Mem.sameData_of_cell (by rw [hm, if_neg hab]))
    · intro a hab hax
      rw [hm, if_neg hab, hf a hab hax]

end Jeopardy.Hotring
