import DynLocks.Layout
import Mathlib.Algebra.Order.Field.Rat

/-!
# DynLocks.Genetic.Chromosome

The cut vectors of `GeneticPartitioner`: the uniform and the quantile
partition, the three-pass repair of the internal cuts, the move of one
partition toward another, and the fitness of a partition on a list of queries.

`size_t` values are natural numbers with every operation that can leave the
word taken modulo `2 ^ 64`; `double` is read as an exact rational.  A function
returns `none` where the source has no result: where a `std::vector` of the
requested size throws, and where the arguments are outside of what the
standard library or the language defines.
-/

namespace DynLocks
namespace GeneticPartitioner

open CutVector

/-! ## construction -/

/-- `max_size` of a vector of eight-byte elements is one less; asking for more throws. -/
def vectorLimit : ℕ := 2 ^ 60

/-- Template parameters and constructor arguments.  The constructor divides by both template
parameters and allocates `kLockCnt + 1` cuts. -/
structure Config where
  kLockCnt : ℕ
  kBlocks : ℕ := 1024
  arraySize : ℕ
  historyLimit : ℕ := 12000
  populationSize : ℕ := 48
  eliteCount : ℕ := 4
  generationCount : ℕ := 36
  maxComponents : ℕ := 4
  componentDecay : ℚ := 9 / 10
  componentLearningRate : ℚ := 35 / 100
  newComponentThreshold : ℚ := 55 / 100
  maxCutShiftPerBatch : ℕ := kBlocks
  kLockCnt_pos : 0 < kLockCnt := by decide
  kLockCnt_lt : kLockCnt + 1 < vectorLimit := by decide
  kBlocks_pos : 0 < kBlocks := by decide
  kBlocks_lt : kBlocks < 2 ^ 64 := by decide

/-- `PartitionMetrics`. -/
structure PartitionMetrics where
  contentionScore : UInt64 := 0
  avgMutexesPerQuery : ℚ := 0
  fitness : ℚ := 0
deriving DecidableEq

/-- `Chromosome`. -/
structure Chromosome where
  cuts : List ℕ := []
  metrics : PartitionMetrics := {}
deriving DecidableEq

namespace Config

variable (cfg : Config)

/-- The member `population_size_`. -/
def population : ℕ := max cfg.populationSize 1

/-- The member `elite_count_`. -/
def elites : ℕ := max 1 (min cfg.eliteCount (max cfg.populationSize 1))

/-- The member `max_components_`. -/
def componentLimit : ℕ := max cfg.maxComponents 1

/-- The member `component_query_limit_`. -/
def queryLimit : ℕ := max cfg.historyLimit 1

/-- The member `component_decay_`. -/
def decay : ℚ := max 0 (min cfg.componentDecay 1)

/-- The member `component_learning_rate_`. -/
def learningRate : ℚ := max 0 (min cfg.componentLearningRate 1)

/-- The member `new_component_threshold_`. -/
def threshold : ℚ := max 0 cfg.newComponentThreshold

/-- The member `max_cut_shift_per_batch_`. -/
def cutShift : ℕ := max cfg.maxCutShiftPerBatch 1

/-- `PositionToBlock`. -/
def positionToBlock (position : ℕ) : ℕ := positionToBlockOf cfg.arraySize cfg.kBlocks position

/-- Every position has a block, also one behind the end of the array. -/
theorem positionToBlock_lt (position : ℕ) : cfg.positionToBlock position < cfg.kBlocks :=
  positionToBlockOf_lt _ cfg.kBlocks_pos _

/-- The blocks follow the positions. -/
theorem positionToBlock_mono {left right : ℕ} (h : left ≤ right) :
    cfg.positionToBlock left ≤ cfg.positionToBlock right :=
  positionToBlockOf_mono _ _ h

/-! ## making partitions -/

/-- `MakeUniformChromosome`. -/
def makeUniformChromosome : Chromosome where
  cuts := ((List.range (cfg.kLockCnt + 1)).map fun i =>
    i * cfg.kBlocks % 2 ^ 64 / cfg.kLockCnt).set cfg.kLockCnt cfg.kBlocks

/-- The inner loop of `MakeProfileGuidedChromosome`, entered with `room` cuts left up to
`max_cut`.  Reading `prefix` beyond its last entry has no result. -/
def nextQuantile (weightBefore : ℕ → ℚ) (target : ℚ) : ℕ → ℕ → Option ℕ
  | 0, cut => some cut
  | room + 1, cut =>
      if cut > cfg.kBlocks then none
      else if weightBefore cut < target then nextQuantile weightBefore target room (cut + 1)
      else some cut

/-- The outer loop, for the `n` locks from `lockIndex` on. -/
def quantileCuts (totalMass : ℚ) (weightBefore : ℕ → ℚ) : ℕ → ℕ → ℕ → Option (List ℕ)
  | 0, _, _ => some []
  | n + 1, lockIndex, previousCut => do
      let target := totalMass * lockIndex / cfg.kLockCnt
      let maxCut := subSize cfg.kBlocks (cfg.kLockCnt - lockIndex)
      let cut ← cfg.nextQuantile weightBefore target (maxCut - (previousCut + 1)) (previousCut + 1)
      let rest ← quantileCuts totalMass weightBefore n (lockIndex + 1) cut
      some (cut :: rest)

/-- `MakeProfileGuidedChromosome`. -/
def makeProfileGuidedChromosome (profile : List ℚ) : Option Chromosome :=
  let totalMass := profile.foldl (· + ·) 0
  if totalMass ≤ 0 then some cfg.makeUniformChromosome
  else if vectorLimit ≤ cfg.kBlocks + 1 then none
  else do
    let weightBefore := prefixSum fun block => profile.getD block 0
    let internal ← cfg.quantileCuts totalMass weightBefore (cfg.kLockCnt - 1) 1 0
    some { cuts := 0 :: (internal ++ [cfg.kBlocks]) }

/-- `MakeChromosomeFromInternalCuts`. -/
def makeChromosomeFromInternalCuts (internal : List ℕ) : Chromosome where
  cuts := 0 :: (internal ++ [cfg.kBlocks])

end Config

/-! ## repair -/

/-- The first and the third pass of `RepairInternalCuts`: every cut is raised above the one before
it. -/
def raiseCuts (previous : ℕ) : List ℕ → List ℕ
  | [] => []
  | cut :: rest =>
      let raised := max cut ((previous + 1) % 2 ^ 64)
      raised :: raiseCuts raised rest

/-- The second pass: every cut leaves a block to each lock after it.  The pass runs from the last
cut to the first, but no cut depends on another. -/
def capCuts (kBlocks : ℕ) : List ℕ → List ℕ
  | [] => []
  | cut :: rest => min cut (subSize kBlocks (rest.length + 1)) :: capCuts kBlocks rest

/-- `RepairInternalCuts`.  `std::clamp` is undefined for bounds that are out of order. -/
def repairInternalCuts (kBlocks : ℕ) : List ℕ → Option (List ℕ)
  | [] => some []
  | cut :: rest =>
      let upper := subSize kBlocks (rest.length + 1)
      if upper < 1 then none
      else
        let first := max 1 (min cut upper)
        match capCuts kBlocks (first :: raiseCuts first rest) with
        | [] => some []
        | capped :: rest => some (capped :: raiseCuts capped rest)

namespace Config

variable (cfg : Config)

/-- `MoveToward`. -/
def moveToward (source target : Chromosome) : Option Chromosome :=
  if source.cuts = target.cuts then some source
  else do
    let internal := (List.range' 1 (cfg.kLockCnt - 1)).map fun i =>
      let currentCut := source.cuts.getD i 0
      let targetCut := target.cuts.getD i 0
      if currentCut < targetCut then min ((currentCut + cfg.cutShift) % 2 ^ 64) targetCut
      else
        let lower := if currentCut > cfg.cutShift then currentCut - cfg.cutShift else 1
        max lower targetCut
    let internal ← repairInternalCuts cfg.kBlocks internal
    some (cfg.makeChromosomeFromInternalCuts internal)

/-! ## fitness -/

/-- `FindLockForBlock`. -/
def findLockForBlock (cuts : List ℕ) (block : ℕ) : ℕ :=
  ((List.range cfg.kLockCnt).find? fun i =>
    cuts.getD i 0 ≤ block && block < cuts.getD (i + 1) 0).getD (cfg.kLockCnt - 1)

/-- The blocks from `left_block` to `right_block`. -/
def blocksOf (query : Query) : List ℕ :=
  let leftBlock := cfg.positionToBlock query.left.toNat
  let rightBlock := cfg.positionToBlock query.right.toNat
  List.range' leftBlock (rightBlock + 1 - leftBlock)

section Hits

variable {α : Type} [Add α] [OfNat α 0] [OfNat α 1]

/-- The loop that counts the queries on every block. -/
def blockHits (queries : List Query) : ℕ → α :=
  queries.foldl (fun hits query =>
    (cfg.blocksOf query).foldl (fun hits block => Function.update hits block (hits block + 1)) hits)
    fun _ => 0

/-- `total_hits`, counted in the same loop. -/
def totalHits (queries : List Query) : α :=
  queries.foldl (fun total query => (cfg.blocksOf query).foldl (fun total _ => total + 1) total) 0

end Hits

/-- `total_locks`, summed in the first loop of `Evaluate`. -/
def totalLocks (cuts : List ℕ) (queries : List Query) : UInt64 :=
  queries.foldl (fun total query =>
    let firstLock := cfg.findLockForBlock cuts (cfg.positionToBlock query.left.toNat)
    let lastLock := cfg.findLockForBlock cuts (cfg.positionToBlock query.right.toNat)
    total + UInt64.ofNat (lockSpan firstLock lastLock)) 0

/-- `contention_score`, summed in the second loop of `Evaluate`. -/
def contentionScore (cuts : List ℕ) (blockHits : ℕ → UInt64) : UInt64 :=
  (List.range cfg.kLockCnt).foldl (fun score lockIndex =>
    let first := cuts.getD lockIndex 0
    let load := (List.range' first (cuts.getD (lockIndex + 1) 0 - first)).foldl
      (fun load block => load + blockHits block) 0
    score + load * load) 0

/-- The second loop of `Evaluate` reads no entry of `block_hits` beyond the last one. -/
def LoadsInRange (cuts : List ℕ) : Prop :=
  ∀ i < cfg.kLockCnt, cuts.getD i 0 < cuts.getD (i + 1) 0 → cuts.getD (i + 1) 0 ≤ cfg.kBlocks

instance (cuts : List ℕ) : Decidable (cfg.LoadsInRange cuts) :=
  inferInstanceAs (Decidable (∀ i < cfg.kLockCnt, _))

/-- `Evaluate`. -/
def evaluate (cuts : List ℕ) (queries : List Query) : Option PartitionMetrics :=
  if queries = [] then some {}
  else if vectorLimit ≤ cfg.kBlocks ∨ ¬ cfg.LoadsInRange cuts then none
  else
    let contentionScore := cfg.contentionScore cuts (cfg.blockHits queries)
    let avgMutexes : ℚ := (cfg.totalLocks cuts queries).toNat / queries.length
    some {
      contentionScore
      avgMutexesPerQuery := avgMutexes
      fitness := contentionScore.toNat + 5000 * avgMutexes }

/-- `BuildBlockProfile`. -/
def buildBlockProfile (queries : List Query) : Option (List ℚ) :=
  if vectorLimit ≤ cfg.kBlocks then none
  else
    let profile := (List.range cfg.kBlocks).map (cfg.blockHits queries)
    let totalHits : ℚ := cfg.totalHits queries
    some (if totalHits = 0 then profile else profile.map (· / totalHits))

/-- `CountLocksForRange`. -/
def countLocksForRange (current : Chromosome) (left right : ℕ) : ℕ :=
  if cfg.arraySize = 0 then 0
  else
    let range := clampRange cfg.arraySize left right
    lockSpan (cfg.findLockForBlock current.cuts (cfg.positionToBlock range.1))
      (cfg.findLockForBlock current.cuts (cfg.positionToBlock range.2))

end Config

/-- `ProfileDistance`. -/
def profileDistance (lhs rhs : List ℚ) : ℚ :=
  (List.range lhs.length).foldl (fun distance i => distance + |lhs.getD i 0 - rhs.getD i 0|) 0

end GeneticPartitioner
end DynLocks
