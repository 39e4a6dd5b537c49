import DynLocks.Dynamic.Optimal
import DynLocks.Genetic.Validity
import Mathlib.Tactic.Ring

/-!
# DynLocks.Agreement

The partition algorithms of `DynamicLock` and `GeneticPartitioner` compared.
Both dynamic programs are the one of `SegmentDp`: the first one in machine words
over hit counts, the second one in fractions of the total.  The squared weights
differ by the square of the total, so every comparison has the same outcome and
the cuts are the same, ties included (`loadBalanced_eq_optimizePartitions`).
-/

namespace DynLocks

open CutVector SegmentDp DynamicLock

/-! ## the profile of a hit array -/

/-- The hits of each block as a fraction of all hits. -/
def hitProfile (hits : ℕ → UInt64) (kBlocks : ℕ) : List ℚ :=
  (List.range kBlocks).map fun block =>
    ((hits block).toNat : ℚ) / (prefixSum (natOf hits) kBlocks : ℕ)

/-- A fraction of the hits is the weight of the blocks in the profile. -/
theorem prefixSum_hitProfile (hits : ℕ → UInt64) {kBlocks i : ℕ} (hi : i ≤ kBlocks) :
    prefixSum (fun block => (hitProfile hits kBlocks).getD block 0) i =
      ((prefixSum (natOf hits) i : ℕ) : ℚ) / (prefixSum (natOf hits) kBlocks : ℕ) := by
  induction i with
  | zero => simp [prefixSum]
  | succ i ih =>
      have hget : (hitProfile hits kBlocks).getD i 0 =
          ((hits i).toNat : ℚ) / (prefixSum (natOf hits) kBlocks : ℕ) := by
        simp [hitProfile, List.getD_eq_getElem?_getD, show i < kBlocks by omega]
      rw [prefixSum, ih (by omega), hget, prefixSum, Nat.cast_add, add_div]
      rfl

theorem foldl_add_eq_prefixSum (profile : List ℚ) :
    profile.foldl (· + ·) 0 = prefixSum (fun block => profile.getD block 0) profile.length := by
  induction profile using List.reverseRecOn with
  | nil => rfl
  | append_singleton profile x ih =>
      rw [List.foldl_append, ih, List.length_append, List.length_singleton, prefixSum]
      have hfront : ∀ n ≤ profile.length,
          prefixSum (fun block => (profile ++ [x]).getD block 0) n =
            prefixSum (fun block => profile.getD block 0) n := by
        intro n hn
        induction n with
        | zero => rfl
        | succ n ihn =>
            rw [prefixSum, prefixSum, ihn (by omega), List.getD_append _ _ _ _ (by omega)]
      rw [hfront _ le_rfl, List.getD_append_right _ _ _ _ le_rfl]
      simp

/-- The fractions of all blocks are the whole. -/
theorem mass_hitProfile {hits : ℕ → UInt64} {kBlocks : ℕ}
    (hpos : 0 < prefixSum (natOf hits) kBlocks) :
    (hitProfile hits kBlocks).foldl (· + ·) 0 = 1 := by
  have hlen : (hitProfile hits kBlocks).length = kBlocks := by simp [hitProfile]
  rw [foldl_add_eq_prefixSum, hlen, prefixSum_hitProfile hits le_rfl]
  exact div_self (Nat.cast_ne_zero.mpr hpos.ne')

/-! ## the two dynamic programs -/

/-- Without crossings a segment costs its squared weight, and in fractions of the total that is
divided by the square of the total. -/
theorem squaredWeight_hitProfile (hits : ℕ → UInt64) {kBlocks left right : ℕ} (hlt : left < right)
    (hle : right ≤ kBlocks) :
    GeneticPartitioner.squaredWeight
        (prefixSum fun block => (hitProfile hits kBlocks).getD block 0) left right =
      (segmentCost (natOf hits) (natOf fun _ => 0) left right : ℕ) /
        ((prefixSum (natOf hits) kBlocks : ℕ) : ℚ) ^ 2 := by
  have hmono := prefixSum_mono (natOf hits) hlt.le
  have hpenalty : cutPenalty (natOf fun _ => 0) left = 0 := by simp [cutPenalty, natOf]
  rw [GeneticPartitioner.squaredWeight, prefixSum_hitProfile hits hle,
    prefixSum_hitProfile hits (by omega), segmentCost, hpenalty, Nat.add_zero, Nat.cast_mul,
    Nat.cast_sub hmono]
  ring

/-- **The two dynamic programs agree**: for a hit array with a positive total whose exact costs
stay below `inf`, `MakeLoadBalancedChromosome` on the normalised profile has the cuts of
`OptimizePartitions` without boundary crossings, unless the allocation of its tables throws. -/
theorem loadBalanced_eq_optimizePartitions (cfg : GeneticPartitioner.Config)
    (hle : cfg.kLockCnt ≤ cfg.kBlocks) (hits : ℕ → UInt64)
    (hpos : 0 < prefixSum (natOf hits) cfg.kBlocks)
    (hfit : CostsFit cfg.kLockCnt cfg.kBlocks hits fun _ => 0) :
    cfg.makeLoadBalancedChromosome (hitProfile hits cfg.kBlocks) =
      if GeneticPartitioner.vectorLimit ≤ (cfg.kBlocks + 1) * (cfg.kLockCnt + 1) then none
      else some { cuts :=
        optimizePartitions cfg.kLockCnt cfg.kBlocks (prefixSum hits) fun _ => 0 } := by
  have htotal : (0 : ℚ) < ((prefixSum (natOf hits) cfg.kBlocks : ℕ) : ℚ) ^ 2 :=
    pow_pos (Nat.cast_pos.mpr hpos) 2
  have hsome : (best (segmentCost (natOf hits) (natOf fun _ => 0)) cfg.kLockCnt
      cfg.kBlocks).isSome := by
    rw [best_isSome_iff]
    have := cfg.kLockCnt_pos
    omega
  have hmass := mass_hitProfile hpos
  rw [GeneticPartitioner.Config.makeLoadBalanced_eq hle (by rw [hmass]; exact one_pos),
    optimizePartitions_eq_walk, walk_split hfit.candidatesFit (extends_full _ _) hsome]
  have hwalk := walk_map (g := fun c : ℕ => (c : ℚ) /
      ((prefixSum (natOf hits) cfg.kBlocks : ℕ) : ℚ) ^ 2)
    (fun a b hab => div_lt_div_of_pos_right (Nat.cast_lt.mpr hab) htotal) (by simp)
    (fun a b => by push_cast; ring)
    (fun l r hlr hr => squaredWeight_hitProfile hits hlr hr) hsome
  rw [hwalk]

/-- Three hits on the first of three blocks and one on the last, for two locks: cutting behind the
first block or behind the second costs the same, and both take the first cut. -/
theorem loadBalanced_eq_optimizePartitions_tie :
    let hits : ℕ → UInt64 := fun b => if b = 0 then 3 else if b = 2 then 1 else 0
    GeneticPartitioner.twoLocks.makeLoadBalancedChromosome (hitProfile hits 3) =
        some { cuts := [0, 1, 3] } ∧
      optimizePartitions 2 3 (prefixSum hits) (fun _ => 0) = [0, 1, 3] ∧
      segmentCost (natOf hits) (natOf fun _ => 0) 0 1 +
          segmentCost (natOf hits) (natOf fun _ => 0) 1 3 =
        segmentCost (natOf hits) (natOf fun _ => 0) 0 2 +
          segmentCost (natOf hits) (natOf fun _ => 0) 2 3 := by
  intro hits
  have hcuts : optimizePartitions 2 3 (prefixSum hits) (fun _ => 0) = [0, 1, 3] := by
    decide
  have hfit : CostsFit 2 3 hits fun _ => 0 := by
    intro cuts h
    have hbound := cost_le_total hits (fun _ => 0) h
    rw [show prefixSum (natOf hits) 3 = 4 by decide,
      show prefixSum (natOf fun _ => 0) 3 = 0 by decide] at hbound
    rw [exactCost_eq_cost]
    exact lt_of_le_of_lt hbound (by omega)
  refine ⟨?_, hcuts, by decide⟩
  rw [← hcuts]
  exact loadBalanced_eq_optimizePartitions GeneticPartitioner.twoLocks (by decide) hits (by decide)
    hfit

end DynLocks
