import DynLocks.Layout
import DynLocks.Dynamic.Cost
import Mathlib.Algebra.BigOperators.Ring.Finset

/-!
# DynLocks.Dynamic.Stats

The statistics of `DynamicLock`: how a sampled query is recorded
(`updateStats`), how many mutexes a query needs (`countLocksForRange`), and
what the partition cost of a recorded history says about the two
(`partitionCost_history`): the squared load of every lock, plus the penalty for
every mutex beyond the first that some recorded query needs.
-/

namespace DynLocks
namespace DynamicLock

open CutVector

/-! ## construction -/

/-- Template parameter and constructor arguments of a `DynamicLock`; `kBlocks` is a constant of
the class.  The constructor divides by `kLockCnt`. -/
structure Config where
  kLockCnt : ℕ
  kBlocks : ℕ := 1024
  arraySize : ℕ
  statsSampleRate : ℕ := 1
  minRebuildGain : ℚ := 1
  minRebuildSkew : ℚ := 4
  kLockCnt_pos : 0 < kLockCnt := by decide
  kLockCnt_lt : kLockCnt < 2 ^ 64 := by decide
  kBlocks_pos : 0 < kBlocks := by decide

namespace Config

variable (cfg : Config)

/-- `PositionToBlock`. -/
def positionToBlock (pos : ℕ) : ℕ := positionToBlockOf cfg.arraySize cfg.kBlocks pos

/-- The member `stats_sample_rate_`. -/
def sampleRate : ℕ := max cfg.statsSampleRate 1

/-- The member `min_rebuild_gain_`. -/
def rebuildGain : ℚ := max cfg.minRebuildGain 1

/-- The member `min_rebuild_skew_`. -/
def rebuildSkew : ℚ := max cfg.minRebuildSkew 1

/-- The partition the constructor installs. -/
def initialPartitions : List ℕ :=
  ((List.range (cfg.kLockCnt + 1)).map fun i => i * cfg.kBlocks / cfg.kLockCnt).set cfg.kLockCnt
    cfg.kBlocks

/-- `RefreshBlockToLock`. -/
def refreshBlockToLock (partitions : List ℕ) (blockToLock : ℕ → ℕ) : ℕ → ℕ :=
  refreshTable cfg.kLockCnt cfg.kBlocks partitions blockToLock

/-- `FindLocksSegmentUnlocked`. -/
def findLocksSegmentUnlocked (blockToLock : ℕ → ℕ) (left right : ℕ) : ℕ × ℕ :=
  (blockToLock (cfg.positionToBlock left), blockToLock (cfg.positionToBlock right))

/-- `CountLocksForRange` on a table that nobody is writing. -/
def countLocksForRange (blockToLock : ℕ → ℕ) (left right : ℕ) : ℕ :=
  if cfg.arraySize = 0 then 0
  else
    let range := clampRange cfg.arraySize left right
    let segment := cfg.findLocksSegmentUnlocked blockToLock range.1 range.2
    lockSpan segment.1 segment.2

/-- The assignment after the loop of the constructor changes nothing. -/
theorem initialPartitions_eq : cfg.initialPartitions = uniformCuts cfg.kLockCnt cfg.kBlocks := by
  have hlen : cfg.kLockCnt < (uniformCuts cfg.kLockCnt cfg.kBlocks).length := by
    simp [uniformCuts]
  have hlast := getD_uniformCuts cfg.kBlocks (le_refl cfg.kLockCnt)
  rw [Nat.mul_div_cancel_left _ cfg.kLockCnt_pos, List.getD_eq_getElem _ _ hlen] at hlast
  exact (congrArg ((uniformCuts cfg.kLockCnt cfg.kBlocks).set cfg.kLockCnt) hlast.symm).trans
    (List.set_getElem_self hlen)

theorem ascending_initialPartitions : Ascending cfg.kLockCnt cfg.initialPartitions := by
  rw [initialPartitions_eq]
  exact ascending_uniformCuts _ _

theorem isCuts_initialPartitions (hle : cfg.kLockCnt ≤ cfg.kBlocks) :
    IsCuts cfg.kLockCnt cfg.kBlocks cfg.initialPartitions := by
  rw [initialPartitions_eq]
  exact isCuts_uniformCuts cfg.kLockCnt_pos hle

theorem positionToBlock_lt (pos : ℕ) : cfg.positionToBlock pos < cfg.kBlocks :=
  positionToBlockOf_lt cfg.arraySize cfg.kBlocks_pos pos

theorem positionToBlock_mono {pos pos' : ℕ} (h : pos ≤ pos') :
    cfg.positionToBlock pos ≤ cfg.positionToBlock pos' :=
  positionToBlockOf_mono cfg.arraySize cfg.kBlocks h

end Config

/-! ## recording a query -/

/-- The two counter arrays, `stats_` and `boundary_crossings_`. -/
structure Counters (α : Type) where
  stats : ℕ → α
  boundaryCrossings : ℕ → α

section Record

variable {α : Type} [Add α] [OfNat α 0] [OfNat α 1]

/-- Both arrays as the constructor leaves them. -/
def Counters.zero : Counters α := ⟨fun _ => 0, fun _ => 0⟩

/-- `fetch_add(1)` on one counter. -/
def fetchAdd (c : ℕ → α) (i : ℕ) : ℕ → α := Function.update c i (c i + 1)

/-- `UpdateStats`. -/
def Config.updateStats (cfg : Config) (left right : ℕ) (c : Counters α) : Counters α :=
  let leftBlock := cfg.positionToBlock left
  let rightBlock := cfg.positionToBlock right
  let stop := min (rightBlock + 1) cfg.kBlocks
  ⟨(List.range' leftBlock (stop - leftBlock)).foldl fetchAdd c.stats,
    (List.range' (leftBlock + 1) (stop - (leftBlock + 1))).foldl fetchAdd c.boundaryCrossings⟩

/-- The counters after a history of sampled queries. -/
def Config.history (cfg : Config) (queries : List (ℕ × ℕ)) : Counters α :=
  queries.foldl (fun c q => cfg.updateStats q.1 q.2 c) Counters.zero

end Record

/-! ## what the counters hold -/

/-- The loop adds one to each index it visits. -/
theorem foldl_fetchAdd (c : ℕ → ℕ) (start n b : ℕ) :
    (List.range' start n).foldl fetchAdd c b =
      c b + if start ≤ b ∧ b < start + n then 1 else 0 := by
  induction n generalizing start c with
  | zero => simp
  | succ n ih =>
      rw [List.range'_succ, List.foldl_cons, ih, fetchAdd]
      by_cases hb : b = start
      · rw [hb, Function.update_self, if_neg (by omega), if_pos (by omega)]
      · rw [Function.update_of_ne hb]
        congr 1
        exact if_congr (by omega) rfl rfl

namespace Config

variable (cfg : Config)

/-- Does the query `q` touch block `b`? -/
def Touches (q : ℕ × ℕ) (b : ℕ) : Prop :=
  cfg.positionToBlock q.1 ≤ b ∧ b ≤ cfg.positionToBlock q.2

/-- Does the query `q` cross the boundary before block `b`? -/
def Crosses (q : ℕ × ℕ) (b : ℕ) : Prop :=
  cfg.positionToBlock q.1 < b ∧ b ≤ cfg.positionToBlock q.2

instance (q : ℕ × ℕ) (b : ℕ) : Decidable (cfg.Touches q b) :=
  inferInstanceAs (Decidable (_ ∧ _))

instance (q : ℕ × ℕ) (b : ℕ) : Decidable (cfg.Crosses q b) :=
  inferInstanceAs (Decidable (_ ∧ _))

theorem updateStats_stats (q : ℕ × ℕ) (c : Counters ℕ) (b : ℕ) :
    (cfg.updateStats q.1 q.2 c).stats b = c.stats b + if cfg.Touches q b then 1 else 0 := by
  have hlt := cfg.positionToBlock_lt q.2
  rw [updateStats]
  dsimp only
  rw [foldl_fetchAdd]
  congr 1
  exact if_congr (by unfold Touches; omega) rfl rfl

theorem updateStats_boundaryCrossings (q : ℕ × ℕ) (c : Counters ℕ) (b : ℕ) :
    (cfg.updateStats q.1 q.2 c).boundaryCrossings b =
      c.boundaryCrossings b + if cfg.Crosses q b then 1 else 0 := by
  have hlt := cfg.positionToBlock_lt q.2
  rw [updateStats]
  dsimp only
  rw [foldl_fetchAdd]
  congr 1
  exact if_congr (by unfold Crosses; omega) rfl rfl

/-- `stats_[b]` counts the recorded queries that touch `b`. -/
theorem history_stats (queries : List (ℕ × ℕ)) (b : ℕ) :
    (cfg.history queries).stats b = (queries.map fun q => if cfg.Touches q b then 1 else 0).sum := by
  induction queries using List.reverseRecOn with
  | nil => rfl
  | append_singleton queries q ih =>
      rw [List.map_append, List.sum_append, ← ih, history, List.foldl_append]
      simp only [List.foldl_cons, List.foldl_nil, List.map_cons, List.map_nil, List.sum_singleton]
      exact cfg.updateStats_stats q _ b

/-- `boundary_crossings_[b]` counts the recorded queries that cross the boundary before `b`. -/
theorem history_boundaryCrossings (queries : List (ℕ × ℕ)) (b : ℕ) :
    (cfg.history queries).boundaryCrossings b =
      (queries.map fun q => if cfg.Crosses q b then 1 else 0).sum := by
  induction queries using List.reverseRecOn with
  | nil => rfl
  | append_singleton queries q ih =>
      rw [List.map_append, List.sum_append, ← ih, history, List.foldl_append]
      simp only [List.foldl_cons, List.foldl_nil, List.map_cons, List.map_nil, List.sum_singleton]
      exact cfg.updateStats_boundaryCrossings q _ b

/-- Counting in machine words is counting modulo `2 ^ 64`. -/
theorem foldl_fetchAdd_wrap (c : ℕ → ℕ) (blocks : List ℕ) :
    blocks.foldl fetchAdd (wrap c) = wrap (blocks.foldl fetchAdd c) := by
  induction blocks generalizing c with
  | nil => rfl
  | cons block blocks ih =>
      have hstep : fetchAdd (wrap c) block = wrap (fetchAdd c block) := by
        funext b
        by_cases hb : b = block
        · rw [hb, fetchAdd, Function.update_self, wrap, wrap, fetchAdd, Function.update_self,
            UInt64.ofNat_add]
          rfl
        · rw [fetchAdd, Function.update_of_ne hb, wrap, wrap, fetchAdd, Function.update_of_ne hb]
      rw [List.foldl_cons, List.foldl_cons, hstep, ih]

theorem history_wrap (queries : List (ℕ × ℕ)) :
    (cfg.history queries : Counters UInt64) =
      ⟨wrap (cfg.history queries).stats, wrap (cfg.history queries).boundaryCrossings⟩ := by
  induction queries using List.reverseRecOn with
  | nil => rfl
  | append_singleton queries q ih =>
      rw [history, history, List.foldl_append, List.foldl_append, ← history, ← history, ih]
      simp only [List.foldl_cons, List.foldl_nil, updateStats, foldl_fetchAdd_wrap]

/-! ## the cost of a history -/

/-- (query, block) incidences of a history in the blocks `[lo, hi)`. -/
def incidences (queries : List (ℕ × ℕ)) (lo hi : ℕ) : ℕ :=
  (queries.map fun q => ((Finset.Ico lo hi).filter (cfg.Touches q)).card).sum

/-- A sum over blocks of counts over a history, taken in the other order. -/
theorem sum_map_comm (s : Finset ℕ) (f : ℕ → ℕ × ℕ → ℕ) (queries : List (ℕ × ℕ)) :
    ∑ b ∈ s, (queries.map (f b)).sum = (queries.map fun q => ∑ b ∈ s, f b q).sum := by
  induction queries with
  | nil => simp
  | cons q queries ih => simp only [List.map_cons, List.sum_cons, Finset.sum_add_distrib, ih]

/-- The weight of a segment is the number of incidences in it. -/
theorem weight_history (queries : List (ℕ × ℕ)) {lo hi : ℕ} (h : lo ≤ hi) :
    prefixSum (cfg.history queries).stats hi - prefixSum (cfg.history queries).stats lo =
      cfg.incidences queries lo hi := by
  rw [prefixSum_nat, prefixSum_nat,
    ← Finset.sum_range_add_sum_Ico (cfg.history queries).stats h, Nat.add_sub_cancel_left,
    incidences]
  simp only [cfg.history_stats, sum_map_comm, Finset.card_filter]

/-- A query needs one mutex more than the inner cuts it crosses. -/
theorem countLocksForRange_eq {partitions : List ℕ}
    (h : IsCuts cfg.kLockCnt cfg.kBlocks partitions) (table : ℕ → ℕ) {q : ℕ × ℕ}
    (hle : q.1 ≤ q.2) (hlt : q.2 < cfg.arraySize) :
    cfg.countLocksForRange (cfg.refreshBlockToLock partitions table) q.1 q.2 =
      (∑ i ∈ Finset.Ico 1 cfg.kLockCnt, if cfg.Crosses q (partitions.getD i 0) then 1 else 0) +
        1 := by
  have hl := cfg.positionToBlock_lt q.1
  have hr := cfg.positionToBlock_lt q.2
  have hmono := cfg.positionToBlock_mono hle
  have hcross : (∑ i ∈ Finset.Ico 1 cfg.kLockCnt,
        if cfg.Crosses q (partitions.getD i 0) then 1 else 0) +
      segmentOf cfg.kLockCnt partitions (cfg.positionToBlock q.1) =
        segmentOf cfg.kLockCnt partitions (cfg.positionToBlock q.2) :=
    sum_crossed_add_segmentOf cfg.kLockCnt partitions hmono
  have hbound := segmentOf_lt cfg.kLockCnt_pos partitions (cfg.positionToBlock q.2)
  have hlocks := cfg.kLockCnt_lt
  rw [countLocksForRange, if_neg (by omega), clampRange_eq_self hle hlt]
  simp only [findLocksSegmentUnlocked, refreshBlockToLock, refreshTable_apply _ _ _ hl,
    refreshTable_apply _ _ _ hr, lockOfBlock_eq_segmentOf h cfg.kLockCnt_pos hl,
    lockOfBlock_eq_segmentOf h cfg.kLockCnt_pos hr]
  rw [lockSpan_eq (segmentOf_mono _ _ hmono) (by omega)]
  omega

/-- The penalties of a partition count the mutexes beyond the first. -/
theorem sum_cutPenalty_history {partitions : List ℕ}
    (h : IsCuts cfg.kLockCnt cfg.kBlocks partitions) (table : ℕ → ℕ) {queries : List (ℕ × ℕ)}
    (hq : ∀ q ∈ queries, q.1 ≤ q.2 ∧ q.2 < cfg.arraySize) :
    ∑ i ∈ Finset.range cfg.kLockCnt,
        cutPenalty (cfg.history queries).boundaryCrossings (partitions.getD i 0) =
      10000000 * (queries.map fun q =>
        cfg.countLocksForRange (cfg.refreshBlockToLock partitions table) q.1 q.2 - 1).sum := by
  have hpos := cfg.kLockCnt_pos
  -- the first cut is free, the others are inner cuts
  have hinner : ∑ i ∈ Finset.range cfg.kLockCnt,
        cutPenalty (cfg.history queries).boundaryCrossings (partitions.getD i 0) =
      ∑ i ∈ Finset.Ico 1 cfg.kLockCnt,
        10000000 * (cfg.history queries).boundaryCrossings (partitions.getD i 0) := by
    rw [Finset.range_eq_Ico, Finset.sum_eq_sum_Ico_succ_bot hpos, h.first]
    rw [show cutPenalty (cfg.history queries).boundaryCrossings 0 = 0 from rfl, Nat.zero_add]
    apply Finset.sum_congr rfl
    intro i hi
    rw [Finset.mem_Ico] at hi
    rw [cutPenalty, if_neg (h.getD_pos (by omega) hi.2.le).ne']
    rfl
  have hcross : ∀ q ∈ queries, cfg.countLocksForRange
        (cfg.refreshBlockToLock partitions table) q.1 q.2 - 1 =
      ∑ i ∈ Finset.Ico 1 cfg.kLockCnt, if cfg.Crosses q (partitions.getD i 0) then 1 else 0 := by
    intro q hmem
    rw [cfg.countLocksForRange_eq h table (hq q hmem).1 (hq q hmem).2, Nat.add_sub_cancel]
  rw [hinner, ← Finset.mul_sum, List.map_congr_left hcross]
  simp only [cfg.history_boundaryCrossings, sum_map_comm]

/-- **The cost model means what it says**: after any history of sampled queries the cost of a
partition is the sum of the squared loads of its locks plus the penalty for every mutex beyond
the first that a recorded query needs; the code's own value is that number modulo `2 ^ 64`. -/
theorem partitionCost_history (queries : List (ℕ × ℕ))
    (hq : ∀ q ∈ queries, q.1 ≤ q.2 ∧ q.2 < cfg.arraySize) (partitions : List ℕ)
    (h : IsCuts cfg.kLockCnt cfg.kBlocks partitions) (table : ℕ → ℕ) :
    let counted : Counters ℕ := cfg.history queries
    let stored : Counters UInt64 := cfg.history queries
    let needs q := cfg.countLocksForRange (cfg.refreshBlockToLock partitions table) q.1 q.2
    let meaning := ∑ i ∈ Finset.range cfg.kLockCnt,
          cfg.incidences queries (partitions.getD i 0) (partitions.getD (i + 1) 0) ^ 2 +
        10000000 * (queries.map fun q => needs q - 1).sum
    (∀ q ∈ queries, 1 ≤ needs q) ∧
      partitionCost cfg.kLockCnt partitions (prefixSum counted.stats)
        counted.boundaryCrossings = meaning ∧
      (partitionCost cfg.kLockCnt partitions (prefixSum stored.stats)
        stored.boundaryCrossings).toNat = meaning % 2 ^ 64 := by
  intro counted stored needs meaning
  have hcost : partitionCost cfg.kLockCnt partitions (prefixSum counted.stats)
      counted.boundaryCrossings = meaning := by
    rw [partitionCost_nat, SegmentDp.cost]
    simp only [segmentCost, Finset.sum_add_distrib]
    rw [cfg.sum_cutPenalty_history h table hq]
    congr 1
    apply Finset.sum_congr rfl
    intro i hi
    rw [Finset.mem_range] at hi
    rw [cfg.weight_history queries (h.getD_le (Nat.le_add_right i 1) hi), sq]
  refine ⟨fun q hmem => ?_, hcost, ?_⟩
  · simp only [needs, cfg.countLocksForRange_eq h table (hq q hmem).1 (hq q hmem).2]
    exact Nat.le_add_left 1 _
  · rw [show stored = _ from cfg.history_wrap queries, partitionCost_wrap h.ascending, hcost,
      UInt64.toNat_ofNat']

end Config

/-- Two recorded queries, one of them across the cut of the initial partition. -/
theorem partitionCost_history_two_queries :
    let cfg : Config := { kLockCnt := 2, arraySize := 2048 }
    let queries := [(0, 1500), (700, 701)]
    let counted : Counters ℕ := cfg.history queries
    let stored : Counters UInt64 := cfg.history queries
    let needs (q : ℕ × ℕ) :=
      cfg.countLocksForRange (cfg.refreshBlockToLock cfg.initialPartitions fun _ => 0) q.1 q.2
    let meaning := ∑ i ∈ Finset.range cfg.kLockCnt,
          cfg.incidences queries (cfg.initialPartitions.getD i 0)
            (cfg.initialPartitions.getD (i + 1) 0) ^ 2 +
        10000000 * (queries.map fun q => needs q - 1).sum
    (∀ q ∈ queries, 1 ≤ needs q) ∧
      partitionCost cfg.kLockCnt cfg.initialPartitions (prefixSum counted.stats)
        counted.boundaryCrossings = meaning ∧
      (partitionCost cfg.kLockCnt cfg.initialPartitions (prefixSum stored.stats)
        stored.boundaryCrossings).toNat = meaning % 2 ^ 64 :=
  Config.partitionCost_history { kLockCnt := 2, arraySize := 2048 } [(0, 1500), (700, 701)]
    (by decide) [0, 512, 1024] (by decide) fun _ => 0

end DynamicLock
end DynLocks
