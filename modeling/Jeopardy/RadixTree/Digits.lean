import Jeopardy.RadixTree.Grow

/-!
# The digits of an index

A C shift is defined only below the width of its operand. `Checked` models the loop of
`radix_tree_extend` and `radix_tree_descend` with this condition on every shift. At the top
level `64 << 60` wraps to zero, and the bound on the index is the largest word.
-/

namespace Jeopardy.RadixTree

/-- The shifts of the nodes on the way down from level `m`: `m`, `m - 6`, down to `0`. -/
def levels (m : Nat) : List Nat := (List.range (m / MAP_SHIFT + 1)).reverse.map (MAP_SHIFT * ·)

/-- `x & RADIX_TREE_MAP_MASK`. -/
def mapMask (x : BitVec 64) : Fin 64 :=
  ⟨(x &&& 63).toNat, by
    rw [BitVec.toNat_and]
    exact Nat.lt_succ_of_le Nat.and_le_right⟩

theorem slotOffset_eq (i : BitVec 64) (s : Nat) : slotOffset i s = mapMask (i >>> s) := rfl

/-! ### Checked shifts -/

namespace Checked

/-- `x << s` on `unsigned long`. -/
def shl (x : BitVec 64) (s : Nat) : Except Fault (BitVec 64) :=
  if s < 64 then .ok (x <<< s) else .error .badShift

/-- `x >> s` on `unsigned long`. -/
def shr (x : BitVec 64) (s : Nat) : Except Fault (BitVec 64) :=
  if s < 64 then .ok (x >>> s) else .error .badShift

/-- `shift_maxindex`, `radix_tree/radix-tree.c:93–96`. -/
def shiftMaxindex (shift : Nat) : Except Fault (BitVec 64) := do
  return (← shl 64 shift) - 1

/-- The loop at `radix_tree/radix-tree.c:216–218`. -/
def growShift (index : BitVec 64) : Nat → Nat → Except Fault Nat
  | 0, _ => .error .diverges
  | fuel + 1, maxshift => do
    if index > (← shiftMaxindex maxshift) then growShift index fuel (maxshift + MAP_SHIFT)
    else return maxshift

/-- `radix_tree_descend`, `radix_tree/radix-tree.c:34–42`: the offset and the child. -/
def radixTreeDescend (parent : Node) (index : BitVec 64) : Except Fault (Fin 64 × Entry) := do
  let offset := mapMask (← shr index parent.shift)
  return (offset, parent.slots offset)

end Checked

theorem growShift_le {i : BitVec 64} {fuel s m : Nat} (h : growShift i fuel s = .ok m) : s ≤ m := by
  induction fuel generalizing s with
  | zero => cases h
  | succ fuel ih =>
    rw [growShift] at h
    split at h
    · exact (Nat.le_add_right s MAP_SHIFT).trans (ih h)
    · exact (Except.ok.inj h).le

theorem Checked.shiftMaxindex_eq {s : Nat} (hs : s < 64) :
    Checked.shiftMaxindex s = .ok (RadixTree.shiftMaxindex s) := by
  rw [Checked.shiftMaxindex, shl, if_pos hs]
  rfl

/-- The shift amounts of the loop are those from the start to the answer. -/
theorem Checked.growShift_eq {i : BitVec 64} {fuel s m : Nat}
    (h : RadixTree.growShift i fuel s = .ok m) (hm : m < 64) :
    Checked.growShift i fuel s = .ok m := by
  induction fuel generalizing s with
  | zero => cases h
  | succ fuel ih =>
    have hs : s < 64 := (growShift_le h).trans_lt hm
    rw [RadixTree.growShift] at h
    rw [Checked.growShift, Checked.shiftMaxindex_eq hs, Fault.ok_bind]
    split at h
    · next hi =>
      rw [if_pos hi]
      exact ih h
    · next hi =>
      rw [if_neg hi]
      exact h

theorem Checked.radixTreeDescend_eq {nd : Node} (hs : nd.shift < 64) (i : BitVec 64) :
    Checked.radixTreeDescend nd i = .ok (RadixTree.radixTreeDescend nd i) := by
  rw [Checked.radixTreeDescend, shr, if_pos hs, Fault.ok_bind, ← slotOffset_eq]
  rfl

/-! ### Recombination -/

theorem mem_levels {m s : Nat} (h : s ∈ levels m) : 6 ∣ s ∧ s ≤ m := by
  simp only [levels, MAP_SHIFT, List.mem_map, List.mem_reverse, List.mem_range] at h
  omega

theorem le_shiftMaxindex_iff {i : BitVec 64} {m : Nat} :
    i ≤ shiftMaxindex m ↔ i.toNat < 2 ^ (m + 6) := by
  rw [← BitVec.not_lt, shiftMaxindex_lt_iff, Nat.not_le]

example : 64#64 <<< 60 = 0 ∧ shiftMaxindex 60 = BitVec.allOnes 64 := by decide

section Path

variable {m : Nat} {path : List Node} (hm : 6 ∣ m) (hpath : path.map Node.shift = levels m)
include hm hpath

/-- The offsets below level `m` are the digits of the index. -/
theorem sum_offsets {i : BitVec 64} (hi : i ≤ shiftMaxindex m) :
    (path.map (fun nd ↦ (radixTreeDescend nd i).1.val * 2 ^ nd.shift)).sum = i.toNat := by
  have hterm : path.map (fun nd ↦ (radixTreeDescend nd i).1.val * 2 ^ nd.shift)
      = (levels m).map (fun s ↦ Radix.digit 6 s i.toNat * 2 ^ s) := by
    rw [← hpath, List.map_map]
    apply List.map_congr_left
    intro nd _
    rw [radixTreeDescend, slotOffset_val]
    rfl
  have hlevels : (levels m).map (fun s ↦ Radix.digit 6 s i.toNat * 2 ^ s)
      = ((List.range (m / 6 + 1)).map
          (fun k ↦ Radix.digit 6 (6 * k) i.toNat * 2 ^ (6 * k))).reverse := by
    rw [levels, List.map_reverse, List.map_reverse, List.map_map]
    rfl
  rw [le_shiftMaxindex_iff] at hi
  rw [hterm, hlevels, List.sum_reverse, Radix.sum_digit, Nat.mul_succ, Nat.mul_div_cancel' hm,
    Nat.mod_eq_of_lt hi]

/-- Indices with the same offsets are the same index. -/
theorem exists_offset_ne {i j : BitVec 64} (hi : i ≤ shiftMaxindex m) (hj : j ≤ shiftMaxindex m)
    (hne : i ≠ j) : ∃ nd ∈ path, (radixTreeDescend nd i).1 ≠ (radixTreeDescend nd j).1 := by
  by_contra hno
  push Not at hno
  apply hne
  apply BitVec.eq_of_toNat_eq
  rw [← sum_offsets hm hpath hi, ← sum_offsets hm hpath hj]
  congr 1
  apply List.map_congr_left
  intro nd hnd
  rw [hno nd hnd]

end Path

/-- In a tree the nodes on the way down to a leaf of an index are one on each level, their shifts
are defined, and their offsets make up the index. -/
theorem WF.leaf_path {t : Tree} (h : WF t) {r q : Nat} {nr nq : Node} {i : BitVec 64}
    (hr : t.rnode = .node r) (hnr : t.node r = some nr) (hq : On t i q nq) (hz : nq.shift = 0) :
    ∃ path : List Node, path.map Node.shift = levels nr.shift ∧
      (∀ nd ∈ path, ∃ p, On t i p nd ∧
        Checked.radixTreeDescend nd i = .ok (radixTreeDescend nd i)) ∧
      (path.map (fun nd ↦ (radixTreeDescend nd i).1.val * 2 ^ nd.shift)).sum = i.toNat := by
  have hlevel : levels nr.shift ∈
      Set.range (List.map (fun nd : {nd // ∃ p, On t i p nd} ↦ nd.val.shift)) := by
    rw [Set.range_list_map]
    intro s hs
    obtain ⟨hdvd, hle⟩ := mem_levels hs
    obtain ⟨p, nd, hp, rfl⟩ := h.on_level hr hnr hq (by omega) hle hdvd
    exact ⟨⟨nd, p, hp⟩, rfl⟩
  obtain ⟨path, hpath⟩ := hlevel
  have hshift : (path.map Subtype.val).map Node.shift = levels nr.shift := by
    rw [List.map_map, ← hpath]
    rfl
  refine ⟨path.map Subtype.val, hshift, ?_, ?_⟩
  · intro nd hnd
    obtain ⟨⟨nd, p, hp⟩, -, rfl⟩ := List.mem_map.mp hnd
    exact ⟨p, hp, Checked.radixTreeDescend_eq ((h.shift_le hp.1).trans_lt (by decide)) i⟩
  · exact sum_offsets (h.shift_dvd hnr) hshift (BitVec.not_lt.mp (h.not_maxindex_lt hq hr hnr))

/-- From every starting level the loop finds one that holds the index, with every shift below
the width, and the offsets on the way down from there determine the index. -/
theorem offsets_cover (i : BitVec 64) {s : Nat} (hs : s ≤ 60) (hd : 6 ∣ s) :
    ∃ m, growShift i LEVELS s = .ok m ∧ Checked.growShift i LEVELS s = .ok m ∧ 6 ∣ m ∧ m ≤ 60 ∧
      i ≤ shiftMaxindex m ∧ ∀ path : List Node, path.map Node.shift = levels m →
        (∀ nd ∈ path, ∀ j, Checked.radixTreeDescend nd j = .ok (radixTreeDescend nd j)) ∧
        (path.map (fun nd ↦ (radixTreeDescend nd i).1.val * 2 ^ nd.shift)).sum = i.toNat ∧
        ∀ j k, j ≤ shiftMaxindex m → k ≤ shiftMaxindex m → j ≠ k →
          ∃ nd ∈ path, (radixTreeDescend nd j).1 ≠ (radixTreeDescend nd k).1 := by
  obtain ⟨m, hgrow, hdvd, -, hm60, hlt, -⟩ := growShift_spec i LEVELS hs hd (by
    rw [LEVELS]
    omega)
  have hi : i ≤ shiftMaxindex m := le_shiftMaxindex_iff.mpr hlt
  refine ⟨m, hgrow, Checked.growShift_eq hgrow (by omega), hdvd, hm60, hi, ?_⟩
  intro path hpath
  refine ⟨?_, sum_offsets hdvd hpath hi, fun j k hj hk ↦ exists_offset_ne hdvd hpath hj hk⟩
  intro nd hnd j
  have hmem : nd.shift ∈ levels m := hpath ▸ List.mem_map_of_mem hnd
  exact Checked.radixTreeDescend_eq ((mem_levels hmem).2.trans_lt (by omega)) j

/-- The largest index needs all eleven levels. -/
theorem offsets_cover_max : Checked.growShift (BitVec.allOnes 64) LEVELS 0 = .ok 60 ∧
    ((levels 60).map (fun s ↦ (slotOffset (BitVec.allOnes 64) s).val * 2 ^ s)).sum
      = 2 ^ 64 - 1 := by
  obtain ⟨m, hgrow, hchecked, -, -, -, hpath⟩ :=
    offsets_cover (BitVec.allOnes 64) (show 0 ≤ 60 by decide) (by decide)
  have hm : m = 60 := by
    have h60 : growShift (BitVec.allOnes 64) LEVELS 0 = .ok 60 := by decide
    exact Except.ok.inj (hgrow.symm.trans h60)
  subst hm
  obtain ⟨-, hsum, -⟩ := hpath ((levels 60).map (fun s ↦ ⟨0, s, 0, 0, none, fun _ ↦ .null⟩)) rfl
  exact ⟨hchecked, hsum⟩

end Jeopardy.RadixTree
