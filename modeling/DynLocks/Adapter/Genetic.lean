import DynLocks.Adapter.Linearizable
import DynLocks.Genetic.RangeLock

/-!
# DynLocks.Adapter.Genetic

`AdapterImpl` over a `GeneticLock`.  The constructor starts the training thread
and only `testEnd` and the destructor stop it, when the workers are done; until
then every partition is published under the range mutexes, and the set is
linearizable (`linearizable_genetic`).
-/

namespace DynLocks
namespace AdapterImpl

open Interleaving

theorem kLockCnt_traits_lt_limit : 64 + 1 < GeneticPartitioner.vectorLimit := by decide

theorem kBlocks_traits_pos : 0 < 1024 := by decide

theorem kBlocks_traits_lt : 1024 < 2 ^ 64 := by decide

variable (cfg : Config)

/-- The lock that `LockTraits<GeneticTag>::Create` makes. -/
def geneticLock : GeneticLock.Config where
  kLockCnt := 64
  kBlocks := 1024
  arraySize := cfg.arraySize
  historyLimit := 12000
  populationSize := 24
  eliteCount := 4
  generationCount := 0
  trainingBatchSize := 100000
  trainingSampleRate := 64
  minTrainingSkew := 4
  trainingProbeGap := 1000000
  kLockCnt_pos := kLockCnt_traits_pos
  kLockCnt_lt := kLockCnt_traits_lt_limit
  kBlocks_pos := kBlocks_traits_pos
  kBlocks_lt := kBlocks_traits_lt

end AdapterImpl
end DynLocks
