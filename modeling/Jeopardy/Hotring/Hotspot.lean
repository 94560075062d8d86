import Jeopardy.Hotring.Rehash

/-!
# Hot-spot shift and the public get

Model of `do_hotspot_shift`, `hotspot_shift` and `hash_get` in `hotring/hotring.c`. The
incomes are `double`s; the arithmetic is a parameter, so results hold for whatever rounding
the machine does.
-/

namespace Jeopardy.Hotring

/-- The operations on `double` that the hot-spot code uses. -/
class DoubleArith (D : Type) where
  ofNat : Nat → D
  add : D → D → D
  mul : D → D → D
  div : D → D → D
  lt : D → D → Bool
  eq : D → D → Bool

/-- What the hot-spot code relies on: a value that compares below another is no NaN, hence
equal to itself, and `5 < 1000000000`. -/
class LawfulDouble (D : Type) [DoubleArith D] : Prop where
  eq_of_lt : ∀ a b : D, DoubleArith.lt a b = true → DoubleArith.eq a a = true
  threshold_lt : DoubleArith.lt (DoubleArith.ofNat 5 : D) (DoubleArith.ofNat 1000000000) = true

/-- Exact arithmetic on rationals. -/
instance : DoubleArith ℚ where
  ofNat n := n
  add := (· + ·)
  mul := (· * ·)
  div := (· / ·)
  lt a b := decide (a < b)
  eq a b := decide (a = b)

instance : LawfulDouble ℚ where
  eq_of_lt a b _ := by simp [DoubleArith.eq]
  threshold_lt := by
    simp only [DoubleArith.lt, DoubleArith.ofNat]
    norm_num

/-- `INCOME_THRESHOLD`, `hotring/hotring.h:11`. -/
def INCOME_THRESHOLD : Nat := 5

/-- Length of the array `counters`, `hotring/hotring.c:566`. -/
def countersSize : Nat := 100000

/-- `hotspot_shift_t`, `hotring/hotring.c:552–555`. -/
inductive HotspotShift where
  | rehash
  | success
deriving DecidableEq, Repr

/-- `list.counter = 0` on the node at `p`. -/
def resetCounter (m : Mem) (p : Nat) : Except Fault Mem :=
  m.modify p (fun nd ↦ { nd with list := { nd.list with counter := 0 } })

/-- The body of the collecting loop, `hotring/hotring.c:578–586`. Its state is the array
filled so far. -/
def collectBody (m : Mem) (p : Nat) (counters : List Nat) :
    Except Fault (ForInStep (Mem × List Nat)) := do
  let tmp ← m.read p
  if counters.length < countersSize then
    let m ← resetCounter m p
    return .yield (m, counters ++ [tmp.list.counter.toNat])
  else .error .outOfBounds

section Income

variable {D : Type} [DoubleArith D]

/-- The income of making node `t` the head, `hotring/hotring.c:594–597`: the remainder of
the `int` difference is truncated, and its absolute value taken. -/
def income (total_counter : D) (counters : List Nat) (t : Nat) : D :=
  (List.range counters.length).foldl (fun acc i ↦
    DoubleArith.add acc
      (DoubleArith.mul
        (DoubleArith.div (DoubleArith.ofNat (counters.getD i 0)) total_counter)
        (DoubleArith.ofNat
          (Int.tmod ((i : Int) - (t : Int)) (counters.length : Int)).natAbs)))
    (DoubleArith.ofNat 0)

/-- The selection loop, `hotring/hotring.c:593–605`: the least income, the index of the
hottest node, and the income of the present head. -/
def findHottest (total_counter : D) (counters : List Nat) : D × Nat × D :=
  (List.range counters.length).foldl (fun (s : D × Nat × D) t ↦
    let cur := income total_counter counters t
    let head_income := if t = 0 then cur else s.2.2
    if DoubleArith.lt cur s.1 then (cur, t, head_income) else (s.1, s.2.1, head_income))
    (DoubleArith.ofNat 1000000000, 0, DoubleArith.ofNat 0)

/-- The body of the second loop, `hotring/hotring.c:612–618`. Its state is `i` and
`hottest`. -/
def pickBody (nr_hottest : Nat) (m : Mem) (p : Nat) (s : Nat × Nat) :
    Except Fault (ForInStep (Mem × (Nat × Nat))) :=
  if s.1 = nr_hottest then .ok (.done (m, (s.1, p))) else .ok (.yield (m, (s.1 + 1, s.2)))

variable (D)

/-- `do_hotspot_shift`, `hotring/hotring.c:561–633`. Answers the memory, the head and the
outcome. -/
def doHotspotShift (m : Mem) (head : Head) : Except Fault (Mem × Head × HotspotShift) := do
  let head := { head with active := true }
  let total_counter : D := DoubleArith.ofNat head.counter.toNat
  let head_node ← m.read head.addr
  let m ← resetCounter m head.addr
  let (m, counters) ← listForEach collectBody m head.addr [head_node.list.counter.toNat]
  let (min_income, nr_hottest, head_income) := findHottest total_counter counters
  if DoubleArith.eq min_income head_income then
    return (m, { head with counter := 0, active := false }, .success)
  else
    let (m, _, hottest) ← listForEach (pickBody nr_hottest) m head.addr (1, 0)
    let head := Head.ofPtr hottest
    if DoubleArith.lt (DoubleArith.ofNat INCOME_THRESHOLD) min_income then
      return (m, head, .rehash)
    else return (m, { head with counter := 0, active := false }, .success)

/-- The part of `hotspot_shift`, `hotring/hotring.c:635–650`, before its rehash. -/
def hotspotShiftHead (m : Mem) (h : Hash) (index : Nat) :
    Except Fault (Mem × Hash × HotspotShift) := do
  match ← h.slot index with
  | none => .error .nullDeref
  | some head =>
    let (m, head, ret) ← doHotspotShift D m head
    return (m, h.setSlot index (some head), ret)

/-- `hotspot_shift`, `hotring/hotring.c:635–650`. -/
def hotspotShift (m : Mem) (h : Hash) (index : Nat) : Except Fault (Mem × Hash) := do
  let (m, h, ret) ← hotspotShiftHead D m h index
  match ret with
  | .success => return (m, h)
  | .rehash => hotringRehash m h

end Income

/-- The state of a program using one table: the node memory, the table `*hashp` points to,
and the thread's `nr_request`. -/
structure State where
  mem : Mem
  hash : Hash
  nr_request : Int

/-- `nr_request++` on `int`. The overflow at `INT_MAX` is taken to wrap around. -/
def bumpRequest (nr_request : Int) : Int := Int.bmod (nr_request + 1) (2 ^ 32)

/-- `hash_get`, `hotring/hotring.c:206–229`. Answers the state, the return value, `*nodep`
and `*prevp`. -/
def hashGet (D : Type) [DoubleArith D] (s : State) (key : Nat) :
    Except Fault (State × Int × GetResult) := do
  let nr_request := bumpRequest s.nr_request
  let (m, h, r) ← rawHashGet s.mem s.hash key
  let (hashIndex, _) ← hashCode h key
  match r.ret with
  | .success => return (⟨m, h, nr_request⟩, 1, r)
  | .accessHot => return (⟨m, h, nr_request⟩, 1, r)
  | .accessCold =>
    if 5 ≤ nr_request then
      let (m, h) ← hotspotShift D m h hashIndex
      return (⟨m, h, 0⟩, 1, r)
    else return (⟨m, h, nr_request⟩, 1, r)
  | .notFound => return (⟨m, h, nr_request⟩, 0, r)

end Jeopardy.Hotring
