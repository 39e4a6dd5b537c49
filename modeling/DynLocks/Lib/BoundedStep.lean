import DynLocks.Lib.CutVector
import Mathlib.Algebra.Order.Floor.Div
import Mathlib.Data.Finset.Lattice.Fold
import Mathlib.Data.Nat.Dist
import Mathlib.Order.Lattice.Nat

/-!
# DynLocks.Lib.BoundedStep

Steps of bounded length toward a target: for one number (`stepToward`), and for
the entries of a cut vector, each on its own (`moveCuts`).

* `dist_stepToward` — the step has exactly the allowed length, or ends at the target;
* `stepToward_lt_stepToward` — steps of equal bound keep the order of two numbers
  whose targets are in the same order, so a cut vector stays one on the way to
  another (`isCuts_moveCuts`);
* `moveCuts_eq_iff` — a bound reaches the target exactly when no entry is further away.
-/

namespace BoundedStep

open CutVector

/-! ## one number -/

/-- From `a` toward `b` by at most `S`. -/
def stepToward (S a b : ℕ) : ℕ := if a < b then min (a + S) b else max (a - S) b

/-- A step does not leave the interval between its ends. -/
theorem stepToward_mem (S a b : ℕ) : min a b ≤ stepToward S a b ∧ stepToward S a b ≤ max a b := by
  unfold stepToward
  split <;> omega

/-- A step is as long as it may be, or as it has to be. -/
theorem dist_stepToward (S a b : ℕ) : Nat.dist a (stepToward S a b) = min S (Nat.dist a b) := by
  unfold stepToward Nat.dist
  split <;> omega

theorem stepToward_lt_stepToward {S a a' b b' : ℕ} (ha : a < a') (hb : b < b') :
    stepToward S a b < stepToward S a' b' := by
  unfold stepToward
  split <;> split <;> omega

/-- Two steps toward one target are one step. -/
theorem stepToward_stepToward (S D a b : ℕ) :
    stepToward S (stepToward D a b) b = stepToward (D + S) a b := by
  unfold stepToward
  split_ifs <;> omega

@[simp] theorem stepToward_self (S a : ℕ) : stepToward S a a = a := by simp [stepToward]

@[simp] theorem stepToward_zero (a b : ℕ) : stepToward 0 a b = a := by
  unfold stepToward
  split <;> omega

theorem stepToward_eq_iff (S a b : ℕ) : stepToward S a b = b ↔ Nat.dist a b ≤ S := by
  unfold stepToward Nat.dist
  split <;> omega

/-! ## cut vectors -/

/-- Every cut of `source` moved toward its partner in `target` by at most `S`. -/
def moveCuts (S k : ℕ) (source target : List ℕ) : List ℕ :=
  (List.range (k + 1)).map fun i => stepToward S (source.getD i 0) (target.getD i 0)

/-- The largest distance that a cut has to move. -/
def maxDist (k : ℕ) (source target : List ℕ) : ℕ :=
  (Finset.range (k + 1)).sup fun i => Nat.dist (source.getD i 0) (target.getD i 0)

variable {S k n : ℕ} {source target : List ℕ}

theorem getD_moveCuts {i : ℕ} (hi : i ≤ k) :
    (moveCuts S k source target).getD i 0 = stepToward S (source.getD i 0) (target.getD i 0) := by
  rw [List.getD_eq_getElem _ _ (by simp [moveCuts]; omega)]
  simp [moveCuts]

/-- On the way from one cut vector to another all cuts stay in order. -/
theorem isCuts_moveCuts (hsource : IsCuts k n source) (htarget : IsCuts k n target) :
    IsCuts k n (moveCuts S k source target) where
  length := by simp [moveCuts]
  first := by rw [getD_moveCuts (Nat.zero_le k), hsource.first, htarget.first, stepToward_self]
  last := by rw [getD_moveCuts le_rfl, hsource.last, htarget.last, stepToward_self]
  increasing := by
    rw [List.pairwise_iff_getElem]
    intro i j hi hj hij
    have hjk : j ≤ k := by
      simp [moveCuts] at hj
      omega
    have hik : i ≤ k := by omega
    rw [← List.getD_eq_getElem _ 0 hi, ← List.getD_eq_getElem _ 0 hj, getD_moveCuts hik,
      getD_moveCuts hjk]
    exact stepToward_lt_stepToward (hsource.getD_lt hij hjk) (htarget.getD_lt hij hjk)

theorem moveCuts_moveCuts (D : ℕ) :
    moveCuts S k (moveCuts D k source target) target = moveCuts (D + S) k source target := by
  apply List.map_congr_left
  intro i hi
  rw [List.mem_range] at hi
  rw [getD_moveCuts (by omega), stepToward_stepToward]

theorem moveCuts_zero (hsource : IsCuts k n source) : moveCuts 0 k source target = source := by
  have hlen := hsource.length
  apply List.ext_getElem (by simp [moveCuts, hlen])
  intro i hi hi'
  simp [moveCuts, List.getElem?_eq_getElem hi']

theorem maxDist_le_iff (D : ℕ) :
    maxDist k source target ≤ D ↔
      ∀ i ≤ k, Nat.dist (source.getD i 0) (target.getD i 0) ≤ D := by
  simp [maxDist, Finset.sup_le_iff]

/-- A move ends at the target exactly when no cut is further away than the bound. -/
theorem moveCuts_eq_iff (hsource : IsCuts k n source) (htarget : IsCuts k n target) :
    moveCuts S k source target = target ↔ maxDist k source target ≤ S := by
  rw [maxDist_le_iff]
  constructor
  · intro heq i hi
    rw [← stepToward_eq_iff, ← getD_moveCuts hi, heq]
  · intro hnear
    refine (isCuts_moveCuts hsource htarget).ext_getD htarget fun i hi => ?_
    rw [getD_moveCuts hi, (stepToward_eq_iff _ _ _).mpr (hnear i hi)]

end BoundedStep
