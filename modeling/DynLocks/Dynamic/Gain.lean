import DynLocks.Dynamic.Optimal
import DynLocks.Dynamic.Stats
import Mathlib.Algebra.Group.Action.Defs

/-!
# DynLocks.Dynamic.Gain

The decision of `RebuildPartitions` on one snapshot of the counters: the
partition `OptimizePartitions` proposes and the gain test against the installed
one.

* `gainTest_iff` — while no partition costs `inf`, the test compares the exact
  cost with the least one;
* `snapshotCost_newPartitions_le` — a proposal that passes the test is no worse
  than what it replaces, as long as the costs it was chosen by did not wrap
  (`NoWrap`).
-/

namespace DynLocks
namespace DynamicLock

open CutVector SegmentDp

namespace Config

variable (cfg : Config)

/-! ## the decision -/

/-- `new_partitions` of a rebuild that took the snapshot `s`. -/
def newPartitions (s : Counters UInt64) : List ℕ :=
  optimizePartitions cfg.kLockCnt cfg.kBlocks (prefixSum s.stats) s.boundaryCrossings

/-- The gain test of a rebuild that took the snapshot `s`. -/
def gainTest (partitions : List ℕ) (s : Counters UInt64) : Bool :=
  hasEnoughPartitionGain cfg.kLockCnt cfg.rebuildGain partitions (cfg.newPartitions s)
    (prefixSum s.stats) s.boundaryCrossings

/-- Exact cost of a partition on a snapshot. -/
def snapshotCost (s : Counters UInt64) (partitions : List ℕ) : ℕ :=
  exactCost cfg.kLockCnt s.stats s.boundaryCrossings partitions

/-- No partition costs `inf` or more on the snapshot. -/
def Fits (s : Counters UInt64) : Prop :=
  CostsFit cfg.kLockCnt cfg.kBlocks s.stats s.boundaryCrossings

/-- `opt` is the least exact cost of a partition on the snapshot. -/
def IsOptimum (s : Counters UInt64) (opt : ℕ) : Prop :=
  IsLeast {c | ∃ cuts, IsCuts cfg.kLockCnt cfg.kBlocks cuts ∧ cfg.snapshotCost s cuts = c} opt

/-- Few hits and few crossings fit. -/
theorem fits_of_total {s : Counters UInt64}
    (h : prefixSum (natOf s.stats) cfg.kBlocks * prefixSum (natOf s.stats) cfg.kBlocks +
      10000000 * prefixSum (natOf s.boundaryCrossings) cfg.kBlocks < 2 ^ 64 - 1) : cfg.Fits s := by
  intro cuts hcuts
  rw [exactCost_eq_cost]
  exact (cost_le_total s.stats s.boundaryCrossings hcuts).trans_lt h

theorem one_le_rebuildGain : 1 ≤ cfg.rebuildGain := le_max_right _ _

/-- The proposal is a partition of least cost. -/
theorem newPartitions_spec (hle : cfg.kLockCnt ≤ cfg.kBlocks) {s : Counters UInt64}
    (hfit : cfg.Fits s) :
    IsCuts cfg.kLockCnt cfg.kBlocks (cfg.newPartitions s) ∧
      cfg.IsOptimum s (cfg.snapshotCost s (cfg.newPartitions s)) := by
  obtain ⟨hcuts, -, -, hleast⟩ := optimizePartitions_spec cfg.kLockCnt_pos hle hfit.candidatesFit
  refine ⟨hcuts, ⟨_, hcuts, rfl⟩, ?_⟩
  rintro c ⟨cuts, hc, rfl⟩
  exact hleast cuts hc

/-- **The decision is exact**: below `inf` the test holds exactly when the installed partition
costs more than the gain factor times the least cost. -/
theorem gainTest_iff (hle : cfg.kLockCnt ≤ cfg.kBlocks) {s : Counters UInt64} (hfit : cfg.Fits s)
    {partitions : List ℕ} (h : IsCuts cfg.kLockCnt cfg.kBlocks partitions) {opt : ℕ}
    (hopt : cfg.IsOptimum s opt) :
    cfg.gainTest partitions s = true ↔
      (cfg.snapshotCost s partitions : ℚ) > cfg.rebuildGain * opt := by
  obtain ⟨hnew, hnewOpt⟩ := cfg.newPartitions_spec hle hfit
  obtain rfl : opt = cfg.snapshotCost s (cfg.newPartitions s) := hopt.unique hnewOpt
  have hgain := cfg.one_le_rebuildGain
  have hexact : ∀ cuts, IsCuts cfg.kLockCnt cfg.kBlocks cuts →
      (partitionCost cfg.kLockCnt cuts (prefixSum s.stats) s.boundaryCrossings).toNat =
        cfg.snapshotCost s cuts :=
    fun cuts hc => toNat_partitionCost hc.ascending ((hfit cuts hc).trans (by omega))
  have hcost := hexact partitions h
  have hnewCost := hexact _ hnew
  rw [gainTest, hasEnoughPartitionGain]
  by_cases heq : cfg.newPartitions s = partitions
  · -- the installed partition is the proposal itself, and no gain factor is below one
    rw [if_pos heq, heq]
    have : (cfg.snapshotCost s partitions : ℚ) ≤ cfg.rebuildGain * cfg.snapshotCost s partitions :=
      le_mul_of_one_le_left (Nat.cast_nonneg _) hgain
    simp [not_lt.mpr this]
  · rw [if_neg heq]
    dsimp only
    by_cases hzero : partitionCost cfg.kLockCnt (cfg.newPartitions s) (prefixSum s.stats)
        s.boundaryCrossings = 0
    · -- any cost is more than a multiple of nothing
      rw [hzero] at hnewCost
      rw [if_pos hzero, ← hnewCost, ← hcost, decide_eq_true_iff, ne_eq, ← UInt64.toNat_inj]
      simp [Nat.pos_iff_ne_zero]
    · rw [if_neg hzero, hcost, hnewCost, decide_eq_true_iff, mul_comm]

/-- The same snapshot does not ask for a second rebuild. -/
theorem gainTest_newPartitions (s : Counters UInt64) :
    cfg.gainTest (cfg.newPartitions s) s = false :=
  if_pos rfl

/-! ## costs beyond the machine word -/

/-- The costs a rebuild chooses by fit a machine word: no candidate on the way to the result
reaches `inf`, and where there are more locks than blocks, so that the table never reaches the
last cell and everything goes to one lock, the square of all hits fits. -/
structure NoWrap (s : Counters UInt64) : Prop where
  candidates : CandidatesFit cfg.kLockCnt cfg.kBlocks s.stats s.boundaryCrossings
  total : cfg.kBlocks < cfg.kLockCnt →
    prefixSum (natOf s.stats) cfg.kBlocks * prefixSum (natOf s.stats) cfg.kBlocks < 2 ^ 64

/-- With more locks than blocks the last cell stays `inf`, and the walk falls to the first block
at once. -/
theorem newPartitions_of_lt (hlt : cfg.kBlocks < cfg.kLockCnt) (s : Counters UInt64) :
    cfg.newPartitions s = List.replicate cfg.kLockCnt 0 ++ [cfg.kBlocks] := by
  obtain ⟨n, hn⟩ := Nat.exists_eq_succ_of_ne_zero cfg.kLockCnt_pos.ne'
  have hsane := sane_fillTables cfg.kLockCnt cfg.kBlocks (prefixSum s.stats) s.boundaryCrossings
  -- a cell that no split of its blocks reaches records nothing
  have hzero : ∀ locks right, locks ≤ cfg.kLockCnt → right ≤ cfg.kBlocks → right < locks →
      (fillTables cfg.kLockCnt cfg.kBlocks (prefixSum s.stats) s.boundaryCrossings).split
        right locks = 0 := by
    intro locks right hlocks hright hroom
    apply (hsane right locks).2
    have hcell : (fillTables cfg.kLockCnt cfg.kBlocks (prefixSum s.stats)
        s.boundaryCrossings).cell right locks =
          wrapped (seg s.stats s.boundaryCrossings) locks right := cell_fillTables hright hlocks
    rw [wrapped_eq_none _ hroom, Tables.cell] at hcell
    by_contra hne
    rw [if_neg hne] at hcell
    contradiction
  have hwalk : ∀ locks ≤ cfg.kLockCnt,
      walk (fun l n => (fillTables cfg.kLockCnt cfg.kBlocks (prefixSum s.stats)
        s.boundaryCrossings).split n l) locks 0 = List.replicate (locks + 1) 0 := by
    intro locks hlocks
    induction locks with
    | zero => rfl
    | succ locks ih =>
        rw [walk, hzero (locks + 1) 0 hlocks (Nat.zero_le _) (Nat.succ_pos _),
          ih (by omega), List.replicate_succ' (n := locks + 1)]
  rw [newPartitions, optimizePartitions_eq_walk, hn, walk, ← Nat.succ_eq_add_one, ← hn,
    hzero cfg.kLockCnt cfg.kBlocks le_rfl le_rfl hlt, hwalk n (by omega), hn]

/-- When one lock gets everything, the cost is the square of all hits. -/
theorem snapshotCost_replicate (s : Counters UInt64) :
    cfg.snapshotCost s (List.replicate cfg.kLockCnt 0 ++ [cfg.kBlocks]) =
      prefixSum (natOf s.stats) cfg.kBlocks * prefixSum (natOf s.stats) cfg.kBlocks := by
  obtain ⟨n, hn⟩ := Nat.exists_eq_succ_of_ne_zero cfg.kLockCnt_pos.ne'
  have hfront : ∀ i ≤ n, (List.replicate (n + 1) 0 ++ [cfg.kBlocks]).getD i 0 = 0 := by
    intro i hi
    rw [List.getD_append _ _ _ _ (by rw [List.length_replicate]; omega)]
    simp
  have hlast : (List.replicate (n + 1) 0 ++ [cfg.kBlocks]).getD (n + 1) 0 = cfg.kBlocks := by
    rw [List.getD_append_right _ _ _ _ (by rw [List.length_replicate]), List.length_replicate,
      Nat.sub_self]
    rfl
  rw [snapshotCost, exactCost_eq_cost, hn, cost, Finset.sum_range_succ, hfront n le_rfl, hlast,
    Finset.sum_eq_zero, Nat.zero_add]
  · simp [segmentCost, cutPenalty, prefixSum]
  · intro i hi
    rw [Finset.mem_range] at hi
    rw [hfront i hi.le, hfront (i + 1) hi]
    simp [segmentCost, cutPenalty]

/-- What the proposal costs fits a machine word. -/
theorem snapshotCost_newPartitions_lt {s : Counters UInt64} (hwrap : cfg.NoWrap s) :
    cfg.snapshotCost s (cfg.newPartitions s) < 2 ^ 64 := by
  rcases Nat.lt_or_ge cfg.kBlocks cfg.kLockCnt with hlt | hle
  · rw [cfg.newPartitions_of_lt hlt, snapshotCost_replicate]
    exact hwrap.total hlt
  · obtain ⟨-, -, hlt, -⟩ := optimizePartitions_spec cfg.kLockCnt_pos hle hwrap.candidates
    exact hlt.trans (by omega)

/-- **No regression below the wrap-around**: a proposal that passes the gain test costs no more,
in unbounded arithmetic, than the partition it is to replace. -/
theorem snapshotCost_newPartitions_le {s : Counters UInt64} (hwrap : cfg.NoWrap s)
    {partitions : List ℕ} (h : Ascending cfg.kLockCnt partitions)
    (htest : cfg.gainTest partitions s = true) :
    cfg.snapshotCost s (cfg.newPartitions s) ≤ cfg.snapshotCost s partitions := by
  have hnewCost : (partitionCost cfg.kLockCnt (cfg.newPartitions s) (prefixSum s.stats)
      s.boundaryCrossings).toNat = cfg.snapshotCost s (cfg.newPartitions s) :=
    toNat_partitionCost (optimizePartitions_ascending _ _ _ _)
      (cfg.snapshotCost_newPartitions_lt hwrap)
  have hcost := toNat_partitionCost_le h s.stats s.boundaryCrossings
  have hgain := cfg.one_le_rebuildGain
  rw [gainTest, hasEnoughPartitionGain] at htest
  split at htest
  · contradiction
  · dsimp only at htest
    split at htest
    · next hzero =>
        rw [← hnewCost, hzero]
        exact Nat.zero_le _
    · rw [decide_eq_true_iff, hnewCost] at htest
      have hnew : (cfg.snapshotCost s (cfg.newPartitions s) : ℚ) ≤
          cfg.snapshotCost s (cfg.newPartitions s) * cfg.rebuildGain :=
        le_mul_of_one_le_right (Nat.cast_nonneg _) hgain
      have hlt := hnew.trans_lt htest
      rw [Nat.cast_lt] at hlt
      exact (hlt.trans_le hcost).le

end Config

/-! ## a history whose costs wrap -/

section Wrap

/-- Two locks over one block for each cell. -/
def twoLocks : Config := { kLockCnt := 2, arraySize := 1024 }

/-- Half of the point queries left of the initial cut, half right of it. -/
def hotPair : List (ℕ × ℕ) :=
  List.replicate (2 ^ 31) (511, 511) ++ List.replicate (2 ^ 31) (512, 512)

/-- The counters that history leaves. -/
def hotCounters : Counters UInt64 where
  stats b := if b = 511 ∨ b = 512 then 2147483648 else 0
  boundaryCrossings _ := 0

theorem history_hotPair : twoLocks.history hotPair = hotCounters := by
  have h511 : twoLocks.positionToBlock 511 = 511 := by decide
  have h512 : twoLocks.positionToBlock 512 = 512 := by decide
  have hstats : wrap (twoLocks.history hotPair).stats = hotCounters.stats := by
    funext b
    rw [wrap, Config.history_stats, hotPair]
    simp only [List.map_append, List.map_replicate, List.sum_append, List.sum_replicate,
      smul_eq_mul, Config.Touches, h511, h512]
    by_cases hb : b = 511
    · subst hb; rfl
    · by_cases hb' : b = 512
      · subst hb'; rfl
      · rw [if_neg (by omega), if_neg (by omega), hotCounters]
        exact (if_neg (by omega)).symm
  have hcrossings : wrap (twoLocks.history hotPair).boundaryCrossings =
      hotCounters.boundaryCrossings := by
    funext b
    rw [wrap, Config.history_boundaryCrossings, hotPair]
    simp only [List.map_append, List.map_replicate, List.sum_append, List.sum_replicate,
      smul_eq_mul, Config.Crosses, h511, h512]
    rw [if_neg (by omega), if_neg (by omega)]
    rfl
  rw [Config.history_wrap, hstats, hcrossings]

theorem prefixSum_hotCounters (n : ℕ) : prefixSum (natOf hotCounters.stats) n =
    (if 511 < n then 2 ^ 31 else 0) + if 512 < n then 2 ^ 31 else 0 := by
  induction n with
  | zero => rfl
  | succ n ih =>
      rw [prefixSum, ih, natOf, hotCounters]
      dsimp only
      by_cases hn : n = 511
      · subst hn; rfl
      · by_cases hn' : n = 512
        · subst hn'; rfl
        · rw [if_neg (show ¬(n = 511 ∨ n = 512) by omega)]
          simp only [show 511 < n + 1 ↔ 511 < n by omega, show 512 < n + 1 ↔ 512 < n by omega]
          rfl

theorem seg_hotCounters (left right : ℕ) :
    seg hotCounters.stats hotCounters.boundaryCrossings left right =
      (prefixSum (natOf hotCounters.stats) right - prefixSum (natOf hotCounters.stats) left) ^ 2 := by
  rw [seg, segmentCost, sq]
  have hzero : natOf hotCounters.boundaryCrossings = fun _ => 0 := rfl
  simp [hzero, cutPenalty]

/-- The first block alone costs nothing. -/
theorem wrapped_hotCounters_one :
    wrapped (seg hotCounters.stats hotCounters.boundaryCrossings) 1 1 = some (0, 0) := by
  have hseg : seg hotCounters.stats hotCounters.boundaryCrossings 0 1 = 0 := by
    rw [seg_hotCounters, prefixSum_hotCounters, prefixSum_hotCounters]
    rfl
  simp [wrapped, scan, hseg, store, keepLess]

/-- The whole load in one segment costs `2 ^ 64`, which the table takes for nothing; the first
minimum is kept. -/
theorem wrapped_hotCounters_two :
    wrapped (seg hotCounters.stats hotCounters.boundaryCrossings) 2 1024 = some (0, 1) := by
  have hseg : seg hotCounters.stats hotCounters.boundaryCrossings 1 1024 = 2 ^ 64 := by
    rw [seg_hotCounters, prefixSum_hotCounters, prefixSum_hotCounters]
    rfl
  rw [wrapped]
  generalize hf : (fun left =>
    (wrapped (seg hotCounters.stats hotCounters.boundaryCrossings) 1 left).bind fun cell =>
      store (cell.1 + seg hotCounters.stats hotCounters.boundaryCrossings left 1024)) = f
  have hone : f 1 = some 0 := by
    rw [← hf]
    dsimp only
    rw [wrapped_hotCounters_one, Option.bind_some, hseg]
    rfl
  have hzero : f 0 = none := by
    rw [← hf]
    dsimp only
    rw [wrapped_eq_none _ Nat.zero_lt_one, Option.bind_none]
  cases hscan : scan f 1024 with
  | none => exact absurd (scan_eq_none_iff.mp hscan 1 (by omega)) (by simp [hone])
  | some cell =>
      obtain ⟨c, left⟩ := cell
      obtain ⟨-, hleft, hmin, hbefore⟩ := scan_spec hscan
      have hc : c = 0 := Nat.le_zero.mp (hmin 1 (by omega) 0 hone)
      rcases Nat.lt_trichotomy left 1 with hlt | heq | hgt
      · rw [show left = 0 by omega, hzero] at hleft
        exact absurd hleft.symm (Option.some_ne_none c)
      · rw [hc, heq]
      · exact absurd (hbefore 1 hgt 0 hone) (Nat.not_lt_zero c)

theorem newPartitions_hotCounters : twoLocks.newPartitions hotCounters = [0, 1, 1024] := by
  have hsplit : (fillTables 2 1024 (prefixSum hotCounters.stats)
      hotCounters.boundaryCrossings).split 1024 2 = 1 :=
    (split_fillTables le_rfl le_rfl wrapped_hotCounters_two).2
  have hsplit' : (fillTables 2 1024 (prefixSum hotCounters.stats)
      hotCounters.boundaryCrossings).split 1 1 = 0 :=
    (split_fillTables (by omega) (by omega) wrapped_hotCounters_one).2
  have hwalk : ∀ split : ℕ → ℕ → ℕ, split 2 1024 = 1 → split 1 1 = 0 →
      walk split 2 1024 = [0, 1, 1024] := by
    intro split h2 h1
    rw [walk, walk, walk, h2, h1]
    rfl
  exact (optimizePartitions_eq_walk 2 1024 _ _).trans (hwalk _ hsplit hsplit')

/-- Both halves together in one segment cost twice what they cost apart. -/
theorem snapshotCost_hotCounters :
    twoLocks.snapshotCost hotCounters [0, 1, 1024] = 2 ^ 64 ∧
      twoLocks.snapshotCost hotCounters twoLocks.initialPartitions = 2 ^ 63 := by
  have hinit : twoLocks.initialPartitions = [0, 512, 1024] := by decide
  have hcost : ∀ cut : ℕ, twoLocks.snapshotCost hotCounters [0, cut, 1024] =
      seg hotCounters.stats hotCounters.boundaryCrossings 0 cut +
        seg hotCounters.stats hotCounters.boundaryCrossings cut 1024 := by
    intro cut
    rw [Config.snapshotCost, exactCost_eq_cost]
    show cost _ 2 _ = _
    simp [cost, Finset.sum_range_succ]
  rw [hinit, hcost, hcost]
  simp only [seg_hotCounters, prefixSum_hotCounters]
  exact ⟨rfl, rfl⟩

/-- The rebuild on this history replaces the balanced partition by one that costs twice as much:
the balanced cost is `2 ^ 63`, the other `2 ^ 64`, kept as zero. -/
theorem gainTest_hotPair :
    (∀ q ∈ hotPair, q.1 ≤ q.2 ∧ q.2 < twoLocks.arraySize) ∧
      twoLocks.gainTest twoLocks.initialPartitions (twoLocks.history hotPair) = true ∧
      ¬ twoLocks.snapshotCost (twoLocks.history hotPair)
          (twoLocks.newPartitions (twoLocks.history hotPair)) ≤
        twoLocks.snapshotCost (twoLocks.history hotPair) twoLocks.initialPartitions := by
  obtain ⟨hnew, hinit⟩ := snapshotCost_hotCounters
  rw [history_hotPair, newPartitions_hotCounters, hnew, hinit]
  refine ⟨fun q hq => ?_, ?_, by omega⟩
  · rw [hotPair, List.mem_append, List.mem_replicate, List.mem_replicate] at hq
    rcases hq with ⟨-, rfl⟩ | ⟨-, rfl⟩
    · decide
    · decide
  · have hcuts : Ascending twoLocks.kLockCnt [0, 1, 1024] := by decide
    have hcuts' : Ascending twoLocks.kLockCnt twoLocks.initialPartitions := by decide
    rw [Config.gainTest, newPartitions_hotCounters, hasEnoughPartitionGain,
      if_neg (by decide)]
    dsimp only
    rw [partitionCost_eq_ofNat hcuts, partitionCost_eq_ofNat hcuts',
      ← Config.snapshotCost, ← Config.snapshotCost, hnew, hinit]
    rfl

end Wrap

end DynamicLock
end DynLocks
