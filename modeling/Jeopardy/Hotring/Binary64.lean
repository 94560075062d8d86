import Jeopardy.Hotring.Collect

/-!
# Double precision

The core library has the format `binary64` as a plain definition. It is one reading of the
arithmetic of the hot-spot code, with its NaNs: a shift whose total counter is 0 multiplies a
quotient by 0 with 0, gets a NaN for every income, and leaves the head `NULL`.
-/

namespace Jeopardy.Hotring

open Rings Fault Float.Model

instance : DoubleArith Float.Model where
  ofNat := Float.Model.ofNat
  add := Float.Model.add
  mul := Float.Model.mul
  div := Float.Model.div
  lt := Float.Model.lt
  eq := Float.Model.beq

instance : LawfulDouble Float.Model where
  eq_of_lt a b h := by
    change Float.Model.lt a b = true at h
    change Float.Model.beq a a = true
    rw [Float.Model.lt] at h
    rw [Float.Model.beq]
    cases ha : a.unpack with
    | infinity s => cases s <;> rfl
    | zero s => cases s <;> rfl
    | finite s m e hm => cases s <;> simp [UnpackedFloat.beq, UnpackedFloat.compare]
    | notANumber =>
      rw [ha] at h
      cases hb : b.unpack <;> rw [hb] at h <;>
        simp [UnpackedFloat.lt, UnpackedFloat.compare] at h
  threshold_lt := by decide

/-! ### NaN -/

/-- The value is not a number. -/
def IsNaN (a : Float.Model) : Prop := a.unpack = .notANumber

theorem unpack_notANumber : (pack .notANumber).unpack = .notANumber := rfl

theorem unpack_infinity (s : UnpackedFloat.Sign) :
    (pack (.infinity s)).unpack = .infinity s := by
  cases s <;> rfl

theorem unpack_ofNat_zero : (Float.Model.ofNat 0).unpack = .zero .positive := rfl

theorem IsNaN.add_left {a : Float.Model} (h : IsNaN a) (b : Float.Model) : IsNaN (a.add b) := by
  rw [Float.Model.add, h]
  cases b.unpack <;> exact unpack_notANumber

theorem IsNaN.add_right {b : Float.Model} (a : Float.Model) (h : IsNaN b) : IsNaN (a.add b) := by
  rw [Float.Model.add, h]
  cases a.unpack <;> exact unpack_notANumber

theorem IsNaN.lt {a : Float.Model} (h : IsNaN a) (b : Float.Model) :
    DoubleArith.lt a b = false := by
  change Float.Model.lt a b = false
  rw [Float.Model.lt, h]
  cases b.unpack <;> rfl

theorem IsNaN.eq {b : Float.Model} (a : Float.Model) (h : IsNaN b) :
    DoubleArith.eq a b = false := by
  change Float.Model.beq a b = false
  rw [Float.Model.beq, h]
  cases a.unpack <;> rfl

/-- A quotient by 0 is infinite or a NaN, and its product with 0 is a NaN. -/
theorem isNaN_div_mul_zero (a : Float.Model) :
    IsNaN ((a.div (.ofNat 0)).mul (.ofNat 0)) := by
  rw [IsNaN, Float.Model.mul, Float.Model.div, unpack_ofNat_zero]
  cases a.unpack with
  | infinity s =>
    simp only [UnpackedFloat.div, unpack_infinity, UnpackedFloat.mul, unpack_notANumber]
  | finite s m e h =>
    simp only [UnpackedFloat.div, unpack_infinity, UnpackedFloat.mul, unpack_notANumber]
  | zero s => simp only [UnpackedFloat.div, UnpackedFloat.mul, unpack_notANumber]
  | notANumber => simp only [UnpackedFloat.div, UnpackedFloat.mul, unpack_notANumber]

/-! ### A shift with total counter 0 -/

private theorem isNaN_foldl {term : Nat → Float.Model} {is : List Nat} {acc : Float.Model}
    (h : IsNaN acc ∨ ∃ i ∈ is, IsNaN (term i)) :
    IsNaN (is.foldl (fun acc i ↦ acc.add (term i)) acc) := by
  induction is generalizing acc with
  | nil => simpa using h
  | cons i is ih =>
    apply ih
    rcases h with h | ⟨j, hj, hn⟩
    · exact Or.inl (h.add_left _)
    · rcases List.mem_cons.mp hj with rfl | hj
      · exact Or.inl (hn.add_right acc)
      · exact Or.inr ⟨j, hj, hn⟩

/-- The term of a node itself is a NaN, and makes its whole income one. -/
theorem isNaN_income_zero {counters : List Nat} {t : Nat} (ht : t < counters.length) :
    IsNaN (income (DoubleArith.ofNat 0 : Float.Model) counters t) := by
  refine isNaN_foldl (Or.inr ⟨t, List.mem_range.mpr ht, ?_⟩)
  have h0 : (Int.tmod ((t : Int) - (t : Int)) (counters.length : Int)).natAbs = 0 := by
    rw [sub_self, Int.zero_tmod, Int.natAbs_zero]
  rw [h0]
  exact isNaN_div_mul_zero _

private theorem findHottest_zero (counters : List Nat) (h : counters ≠ []) :
    ∃ own, IsNaN own ∧ findHottest (DoubleArith.ofNat 0 : Float.Model) counters
      = (DoubleArith.ofNat 1000000000, 0, own) := by
  have hfold (j : Nat) (hj : j < counters.length) :
      (List.range (j + 1)).foldl (fun (s : Float.Model × Nat × Float.Model) t ↦
        let cur := income (DoubleArith.ofNat 0) counters t
        let head_income := if t = 0 then cur else s.2.2
        if DoubleArith.lt cur s.1 then (cur, t, head_income) else (s.1, s.2.1, head_income))
        (DoubleArith.ofNat 1000000000, 0, DoubleArith.ofNat 0)
      = (DoubleArith.ofNat 1000000000, 0, income (DoubleArith.ofNat 0) counters 0) := by
    induction j with
    | zero =>
      have hlt := (isNaN_income_zero hj).lt (DoubleArith.ofNat 1000000000)
      simp only [List.range_succ, List.range_zero, List.nil_append, List.foldl_cons,
        List.foldl_nil, ↓reduceIte]
      rw [hlt, if_neg Bool.false_ne_true]
    | succ j ih =>
      have hlt := (isNaN_income_zero hj).lt (DoubleArith.ofNat 1000000000)
      rw [List.range_succ, List.foldl_append, ih (Nat.lt_of_succ_lt hj)]
      simp only [List.foldl_cons, List.foldl_nil, Nat.add_one_ne_zero, ↓reduceIte]
      rw [hlt, if_neg Bool.false_ne_true]
  have hpos := List.length_pos_iff.mpr h
  refine ⟨_, isNaN_income_zero hpos, ?_⟩
  rw [findHottest, ← Nat.sub_add_cancel (show 1 ≤ counters.length from hpos)]
  exact hfold _ (Nat.sub_lt hpos Nat.one_pos)

/-- With a total counter of 0 the shift assigns `NULL` to the head and asks for a rehash. -/
theorem doHotspotShift_zero {m : Mem} {head : Head} {xs : List Nat}
    (hring : IsRing m.next (head.addr :: xs)) (hlen : xs.length < countersSize)
    (h0 : head.counter = 0) :
    ∃ m', doHotspotShift Float.Model m head = .ok (m', .ofPtr 0, .rehash) := by
  obtain ⟨m', -, hr⟩ := doHotspotShift_ring (D := Float.Model) hring hlen
  refine ⟨m', hr.trans ?_⟩
  obtain ⟨own, hown, hsel⟩ := findHottest_zero ((head.addr :: xs).map m.counter) (by simp)
  have heq := hown.eq (DoubleArith.ofNat 1000000000)
  have hlt : DoubleArith.lt (DoubleArith.ofNat INCOME_THRESHOLD : Float.Model)
    (DoubleArith.ofNat 1000000000) = true := LawfulDouble.threshold_lt
  rw [selection, h0]
  change Except.ok (m', settleHead _ _ (findHottest (DoubleArith.ofNat 0 : Float.Model) _)) = _
  rw [hsel]
  simp only [settleHead, heq, hlt, hottestNode, ↓reduceIte, Bool.false_eq_true]

end Jeopardy.Hotring
