import DynLocks.Layout
import DynLocks.Lib.SegmentDp
import Mathlib.Algebra.Order.Group.Nat
import Mathlib.Algebra.Order.Ring.Rat

/-!
# DynLocks.Dynamic.Cost

The cost model of `DynamicLock`: prefix sums of the block statistics, the
partition cost, the dynamic program over (block, locks) and the gain test.

`size_t` is `UInt64`.  The loops that only add, subtract and multiply are
generic in the word type, so that the same definition read at `ℕ` is the cost
with exact arithmetic (`exactCost`); `partitionCost_eq_ofNat` connects the two
readings.  Arrays are functions of the block, and a partition is the list of
its cuts.
-/

namespace DynLocks
namespace DynamicLock

open CutVector SegmentDp

/-! ## prefix sums and partition cost -/

section Words

variable {α : Type} [Add α] [Sub α] [Mul α] [OfNat α 0] [OfNat α 10000000]

/-- Penalty of one observed query that crosses a cut. -/
def kBoundaryCrossingPenalty : α := 10000000

/-- `cut_penalty` of a segment that starts at `left`. -/
def cutPenalty (boundaryCrossings : ℕ → α) (left : ℕ) : α :=
  if left = 0 then 0 else kBoundaryCrossingPenalty * boundaryCrossings left

/-- `PartitionCost`. -/
def partitionCost (kLockCnt : ℕ) (partitions : List ℕ) (prefixSum boundaryCrossings : ℕ → α) :
    α :=
  (List.range kLockCnt).foldl (fun total lockIndex =>
    let left := partitions.getD lockIndex 0
    let right := partitions.getD (lockIndex + 1) 0
    let weight := prefixSum right - prefixSum left
    total + (weight * weight + cutPenalty boundaryCrossings left)) 0

end Words

/-! ## the dynamic program -/

/-- `std::numeric_limits<size_t>::max()`, the cost of an unreachable state. -/
def inf : UInt64 := 18446744073709551615

/-- The tables of `OptimizePartitions`, indexed by block and lock count. -/
structure Tables where
  dp : ℕ → ℕ → UInt64
  split : ℕ → ℕ → ℕ

namespace Tables

/-- Every cost is `inf` but that of the empty prefix without locks. -/
def init : Tables where
  dp block locks := if block = 0 ∧ locks = 0 then 0 else inf
  split _ _ := 0

/-- Write one cell of both tables. -/
def write (t : Tables) (right locks : ℕ) (cost : UInt64) (left : ℕ) : Tables where
  dp := Function.update t.dp right (Function.update (t.dp right) locks cost)
  split := Function.update t.split right (Function.update (t.split right) locks left)

end Tables

section Optimize

variable (kLockCnt kBlocks : ℕ) (prefixSum boundaryCrossings : ℕ → UInt64)

/-- The body of the innermost loop: try `left` as the start of the last segment. -/
def relax (right locks : ℕ) (t : Tables) (left : ℕ) : Tables :=
  if t.dp left (locks - 1) = inf then t
  else
    let weight := prefixSum right - prefixSum left
    let candidate :=
      t.dp left (locks - 1) + weight * weight + cutPenalty boundaryCrossings left
    if candidate < t.dp right locks then t.write right locks candidate left else t

/-- The loop over `left`. -/
def fillCell (right : ℕ) (t : Tables) (locks : ℕ) : Tables :=
  (List.range right).foldl (relax prefixSum boundaryCrossings right locks) t

/-- The loop over `locks`. -/
def fillRow (t : Tables) (right : ℕ) : Tables :=
  (List.range' 1 kLockCnt).foldl (fillCell prefixSum boundaryCrossings right) t

/-- The loop over `right`. -/
def fillTables : Tables :=
  (List.range' 1 kBlocks).foldl (fillRow kLockCnt prefixSum boundaryCrossings) Tables.init

/-- `OptimizePartitions`. -/
def optimizePartitions : List ℕ :=
  let t := fillTables kLockCnt kBlocks prefixSum boundaryCrossings
  backtrack t.split kLockCnt kBlocks ((List.replicate (kLockCnt + 1) 0).set kLockCnt kBlocks)

end Optimize

/-- `HasEnoughPartitionGain`; the `long double` comparison is read as exact. -/
def hasEnoughPartitionGain (kLockCnt : ℕ) (minRebuildGain : ℚ)
    (currentPartitions newPartitions : List ℕ) (prefixSum boundaryCrossings : ℕ → UInt64) :
    Bool :=
  if newPartitions = currentPartitions then false
  else
    let currentCost := partitionCost kLockCnt currentPartitions prefixSum boundaryCrossings
    let newCost := partitionCost kLockCnt newPartitions prefixSum boundaryCrossings
    if newCost = 0 then currentCost ≠ 0
    else (currentCost.toNat : ℚ) > (newCost.toNat : ℚ) * minRebuildGain

/-! ## the exact reading -/

/-- An array of machine words read as numbers. -/
def natOf (c : ℕ → UInt64) (b : ℕ) : ℕ := (c b).toNat

/-- Exact cost of the segment `[left, right)`. -/
def segmentCost (stats boundaryCrossings : ℕ → ℕ) (left right : ℕ) : ℕ :=
  (prefixSum stats right - prefixSum stats left) * (prefixSum stats right - prefixSum stats left) +
    cutPenalty boundaryCrossings left

/-- `PartitionCost` with exact arithmetic on a snapshot. -/
def exactCost (kLockCnt : ℕ) (stats boundaryCrossings : ℕ → UInt64) (partitions : List ℕ) : ℕ :=
  partitionCost kLockCnt partitions (prefixSum (natOf stats)) (natOf boundaryCrossings)

theorem foldl_add_range (f : ℕ → ℕ) (n : ℕ) :
    (List.range n).foldl (fun total i => total + f i) 0 = ∑ i ∈ Finset.range n, f i := by
  induction n with
  | zero => rfl
  | succ n ih => rw [List.range_succ, List.foldl_append, ih, Finset.sum_range_succ]; rfl

/-- The exact cost is the additive cost of the segments. -/
theorem partitionCost_nat (kLockCnt : ℕ) (partitions : List ℕ) (stats crossings : ℕ → ℕ) :
    partitionCost kLockCnt partitions (prefixSum stats) crossings =
      SegmentDp.cost (segmentCost stats crossings) kLockCnt partitions :=
  foldl_add_range _ kLockCnt

theorem exactCost_eq_cost (kLockCnt : ℕ) (stats crossings : ℕ → UInt64) (partitions : List ℕ) :
    exactCost kLockCnt stats crossings partitions =
      SegmentDp.cost (segmentCost (natOf stats) (natOf crossings)) kLockCnt partitions :=
  partitionCost_nat kLockCnt partitions (natOf stats) (natOf crossings)

theorem prefixSum_mono (stats : ℕ → ℕ) {i j : ℕ} (h : i ≤ j) :
    prefixSum stats i ≤ prefixSum stats j := by
  induction j, h using Nat.le_induction with
  | base => exact le_rfl
  | succ j _ ih => exact ih.trans (Nat.le_add_right _ _)

/-- Prefix sums are the sums they are named for. -/
theorem prefixSum_nat (stats : ℕ → ℕ) (i : ℕ) :
    prefixSum stats i = ∑ b ∈ Finset.range i, stats b := by
  induction i with
  | zero => rfl
  | succ i ih => rw [prefixSum, ih, Finset.sum_range_succ]

/-! ## wrapped and exact arithmetic -/

/-- An array of numbers kept in machine words. -/
def wrap (c : ℕ → ℕ) (b : ℕ) : UInt64 := UInt64.ofNat (c b)

theorem wrap_natOf (c : ℕ → UInt64) : wrap (natOf c) = c := by
  funext b
  rw [wrap, natOf, UInt64.ofNat_toNat]

/-- Wrapped prefix sums are the exact ones modulo `2 ^ 64`. -/
theorem prefixSum_wrap (stats : ℕ → ℕ) (i : ℕ) :
    prefixSum (wrap stats) i = UInt64.ofNat (prefixSum stats i) := by
  induction i with
  | zero => rfl
  | succ i ih => rw [prefixSum, prefixSum, ih, UInt64.ofNat_add, wrap]

theorem cutPenalty_wrap (crossings : ℕ → ℕ) (left : ℕ) :
    cutPenalty (wrap crossings) left = UInt64.ofNat (cutPenalty crossings left) := by
  by_cases h : left = 0
  · simp [cutPenalty, h]
  · rw [cutPenalty, cutPenalty, if_neg h, if_neg h, UInt64.ofNat_mul, wrap]
    rfl

/-- The candidate of the inner loop, modulo `2 ^ 64`. -/
theorem add_segment_wrap (stats crossings : ℕ → ℕ) {left right : ℕ} (h : left ≤ right) (c : ℕ) :
    UInt64.ofNat c + (prefixSum (wrap stats) right - prefixSum (wrap stats) left) *
        (prefixSum (wrap stats) right - prefixSum (wrap stats) left) +
          cutPenalty (wrap crossings) left =
      UInt64.ofNat (c + segmentCost stats crossings left right) := by
  have hsub : prefixSum (wrap stats) right - prefixSum (wrap stats) left =
      UInt64.ofNat (prefixSum stats right - prefixSum stats left) := by
    rw [prefixSum_wrap, prefixSum_wrap, UInt64.ofNat_sub (prefixSum_mono stats h)]
  rw [hsub, cutPenalty_wrap, segmentCost, ← UInt64.ofNat_mul, ← UInt64.ofNat_add,
    ← UInt64.ofNat_add, Nat.add_assoc]

/-- The wrapped partition cost is the exact one modulo `2 ^ 64`. -/
theorem partitionCost_wrap {kLockCnt : ℕ} {partitions : List ℕ}
    (h : Ascending kLockCnt partitions) (stats crossings : ℕ → ℕ) :
    partitionCost kLockCnt partitions (prefixSum (wrap stats)) (wrap crossings) =
      UInt64.ofNat (partitionCost kLockCnt partitions (prefixSum stats) crossings) := by
  -- the two loops agree on every prefix of the locks
  have hloop : ∀ n ≤ kLockCnt, partitionCost n partitions (prefixSum (wrap stats))
      (wrap crossings) = UInt64.ofNat (partitionCost n partitions (prefixSum stats) crossings) := by
    intro n hn
    induction n with
    | zero => rfl
    | succ n ih =>
        have hstep := h n hn
        have hprev := ih (by omega)
        simp only [partitionCost] at hprev
        simp only [partitionCost, List.range_succ, List.foldl_append, List.foldl_cons,
          List.foldl_nil]
        rw [hprev, ← UInt64.add_assoc, add_segment_wrap stats crossings hstep, segmentCost]
  exact hloop kLockCnt le_rfl

/-- The candidate of the inner loop on a snapshot, modulo `2 ^ 64`. -/
theorem add_segment_eq_ofNat (stats crossings : ℕ → UInt64) {left right : ℕ} (h : left ≤ right)
    (c : ℕ) :
    UInt64.ofNat c + (prefixSum stats right - prefixSum stats left) *
        (prefixSum stats right - prefixSum stats left) + cutPenalty crossings left =
      UInt64.ofNat (c + segmentCost (natOf stats) (natOf crossings) left right) := by
  have := add_segment_wrap (natOf stats) (natOf crossings) h c
  rwa [wrap_natOf, wrap_natOf] at this

/-- The partition cost on a snapshot, modulo `2 ^ 64`. -/
theorem partitionCost_eq_ofNat {kLockCnt : ℕ} {partitions : List ℕ}
    (h : Ascending kLockCnt partitions) (stats crossings : ℕ → UInt64) :
    partitionCost kLockCnt partitions (prefixSum stats) crossings =
      UInt64.ofNat (exactCost kLockCnt stats crossings partitions) := by
  have := partitionCost_wrap h (natOf stats) (natOf crossings)
  rwa [wrap_natOf, wrap_natOf] at this

/-- The wrapped cost is never more than the exact one. -/
theorem toNat_partitionCost_le {kLockCnt : ℕ} {partitions : List ℕ}
    (h : Ascending kLockCnt partitions) (stats crossings : ℕ → UInt64) :
    (partitionCost kLockCnt partitions (prefixSum stats) crossings).toNat ≤
      exactCost kLockCnt stats crossings partitions := by
  rw [partitionCost_eq_ofNat h, UInt64.toNat_ofNat']
  exact Nat.mod_le _ _

/-- Below `2 ^ 64` the wrapped cost is exact. -/
theorem toNat_partitionCost {kLockCnt : ℕ} {partitions : List ℕ}
    (h : Ascending kLockCnt partitions) {stats crossings : ℕ → UInt64}
    (hlt : exactCost kLockCnt stats crossings partitions < 2 ^ 64) :
    (partitionCost kLockCnt partitions (prefixSum stats) crossings).toNat =
      exactCost kLockCnt stats crossings partitions := by
  rw [partitionCost_eq_ofNat h, UInt64.toNat_ofNat_of_lt' hlt]

end DynamicLock
end DynLocks
