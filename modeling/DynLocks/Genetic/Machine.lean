import DynLocks.Sampling
import DynLocks.Genetic.Validity

/-!
# DynLocks.Genetic.Machine

`GeneticLock` as a program of threads over shared memory, with the same grain
as `DynLocks.Dynamic.Machine`: every atomic access, every mutex operation and
every cell of the block table is one step.

Clients call the public operations in any order; the background thread runs
`TrainingLoop`.  `condition_variable::wait` evaluates its predicate with
`pending_mutex_` held, gives the mutex back and falls asleep in one step, and
takes the mutex again when it wakes up.  `partitioner_` is only used under
`training_mutex_`, so a call of its `ObserveBatch` is one step.
-/

namespace DynLocks
namespace GeneticLock

open Interleaving

/-! ## construction -/

/-- Template parameters and constructor arguments.  The lock passes some of the arguments on to
its partitioner and leaves the others at their defaults. -/
structure Config extends GeneticPartitioner.Config where
  populationSize := 24
  generationCount := 18
  trainingBatchSize : ℕ := 2048
  trainingSampleRate : ℕ := 64
  minTrainingSkew : ℚ := 4
  trainingProbeGap : UInt64 := 5000000

namespace Config

variable (cfg : Config)

/-- The member `training_batch_size_`. -/
def batchSize : ℕ := max cfg.trainingBatchSize 1

/-- The member `training_sample_rate_`. -/
def sampleRate : ℕ := max cfg.trainingSampleRate 1

/-- The member `min_training_skew_`. -/
def trainingSkew : ℚ := max cfg.minTrainingSkew 1

/-- `kLocalTrainingFlushSize`. -/
def kLocalTrainingFlushSize : ℕ := 64

/-- `HasEnoughSkew`. -/
def hasEnoughSkew (batch : List Query) : Bool :=
  if batch = [] then false
  else
    let blockHits : ℕ → UInt64 := cfg.blockHits batch
    let totalHits : UInt64 := cfg.totalHits batch
    if totalHits = 0 then false
    else
      let maxBlock := (List.range cfg.kBlocks).foldl (fun acc b => max acc (blockHits b).toNat) 0
      let averageBlock : ℚ := (totalHits.toNat : ℚ) / cfg.kBlocks
      averageBlock > 0 ∧ (maxBlock : ℚ) / averageBlock ≥ cfg.trainingSkew

/-- `RefreshBlockToLock` as one function on the table. -/
def refreshBlockToLock (cuts : List ℕ) (table : ℕ → ℕ) : ℕ → ℕ :=
  refreshTable cfg.kLockCnt cfg.kBlocks cuts table

end Config

/-! ## shared memory -/

/-- `training_thread_`: not joinable, created but not yet running, running, or finished and not
yet joined. -/
inductive Thread
  | none
  | created
  | running
  | finished
  deriving DecidableEq

/-- The members of a `GeneticLock` and the `thread_local` variables of `ShouldSampleTraining` and
`EnqueueTrainingSample`.  `asleep` says that the background thread is a waiter of `training_cv_`.
The epoch and the number of trainings are counted without wrapping. -/
structure Mem (Client G : Type) where
  locks : ℕ → Option (Tid Client)
  partitioner : GeneticPartitioner.State
  generator : G
  currentCuts : List ℕ
  blockToLock : ℕ → ℕ
  pendingMutex : Option (Tid Client)
  pendingQueries : List Query
  asleep : Bool
  trainingMutex : Option (Tid Client)
  cutsMutex : Option (Tid Client)
  trainingEnabled : Bool
  stopTrainingThread : Bool
  pauseQueries : Bool
  partitionEpoch : ℕ
  trainingThread : Thread
  operationCount : UInt64
  trainingCount : ℕ
  nextTrainingProbeOperation : UInt64
  totalLockTime : ℕ
  totalTrainingTime : ℕ
  sampleCounter : Tid Client → UInt64
  localQueries : Tid Client → List Query

/-! ## program counters -/

/-- `WriteQuery` after the epoch re-check succeeded. -/
inductive InsidePc
  | durationLoad
  | durationCas (current : ℕ)
  | countOperation
  | func

/-- The loop of `WriteQuery`; `retry` and `release` unlock from the top, `count` locks being
still held. -/
inductive QueryPc
  | pauseLoad
  | epochLoad
  | leftLoad (epoch : ℕ)
  | rightLoad (epoch firstLock : ℕ)
  | acquire (epoch firstLock lastLock index : ℕ)
  | epochCheck (epoch firstLock lastLock : ℕ)
  | retry (firstLock count : ℕ)
  | inside (firstLock lastLock : ℕ) (pc : InsidePc)
  | release (firstLock count : ℕ)

/-- `ShouldSampleTraining` and `EnqueueTrainingSample`. -/
inductive SamplePc
  | enabledLoad
  | countLoad
  | probeLoad (operations : UInt64)
  | enqueue
  | lockPending
  | insert
  | unlockPending (shouldNotify : Bool)
  | notify
  | clear

/-- `publish_partition`. -/
inductive PublishPc
  | epochOpen
  | lockCuts
  | assign
  | refresh (block lockIndex : ℕ)
  | unlockCuts
  | epochClose

/-- `TrainOnBatch`; the cut vectors are its local variables. -/
inductive TrainPc
  | copyLock
  | copyRead
  | copyUnlock (previousCuts : List ℕ)
  | observe (previousCuts : List ℕ)
  | keepDurationLoad
  | keepDurationCas (current : ℕ)
  | probeLoad
  | probeStore (current : UInt64)
  | enabledLoad (nextCuts : List ℕ)
  | pauseStore (nextCuts : List ℕ)
  | lockAll (nextCuts : List ℕ) (next : ℕ)
  | publish (concurrent : Bool) (nextCuts : List ℕ) (pc : PublishPc)
  | unlockAll (count : ℕ)
  | clearPause
  | durationLoad
  | durationCas (current : ℕ)
  | countTraining
  | unlockTraining

/-- Who called `TrainOnBatch`. -/
inductive Caller
  | observeBatch
  | trainingLoop

/-- `FlushTraining` up to the call of `ObserveBatch`. -/
inductive FlushPc
  | lockPending
  | swap
  | unlockPending (batch : List Query)

/-- `TrainingLoop`. -/
inductive TrainerPc
  | lockPending
  | predStop
  | predSize
  | wait
  | sleep
  | stopLoad
  | swap
  | unlockPending (batch : List Query)
  | probeLoad
  | probeStore (current : UInt64)
  | lockTraining (batch : List Query)
  | unlockExit
  | exit

/-- `StartRebuilder`. -/
inductive StartPc
  | clearStop
  | storeProbe
  | enable
  | create

/-- `StopRebuilder`. -/
inductive StopPc
  | disable
  | setStop
  | notify
  | join
  | lockPending
  | clear
  | unlockPending

/-- `CountLocksForRange` on the clamped range. -/
inductive CountPc
  | epochLoad
  | leftLoad (epoch : ℕ)
  | rightLoad (epoch firstLock : ℕ)
  | epochCheck (epoch firstLock lastLock : ℕ)

/-- Where a thread stands and its local variables. -/
inductive Loc
  | idle
  | query (left right : ℕ) (pc : QueryPc)
  | sample (query : Query) (pc : SamplePc)
  | observe (batch : List Query)
  | train (caller : Caller) (batch : List Query) (pc : TrainPc)
  | flush (pc : FlushPc)
  | trainer (pc : TrainerPc)
  | start (pc : StartPc)
  | stop (pc : StopPc)
  | setEnabled (enabled : Bool)
  | count (left right : ℕ) (pc : CountPc)
  | counted (locks : ℕ)
  | cutsLock
  | cutsCopy
  | cutsUnlock (cuts : List ℕ)
  | cuts (cuts : List ℕ)

/-- Is the thread between two calls? -/
def Loc.isIdle : Loc → Bool
  | .idle => true
  | _ => false

/-- Only `idle` tests as idle. -/
theorem Loc.eq_idle {l : Loc} (h : l.isIdle) : l = .idle := by
  cases l with
  | idle => rfl
  | _ => contradiction

/-- The public operations. -/
inductive Call
  | writeQuery (left right : ℕ)
  | observeBatch (batch : List Query)
  | startRebuilder
  | stopRebuilder
  | setTrainingEnabled (enabled : Bool)
  | flushTraining
  | countLocksForRange (left right : ℕ)
  | partitionCuts

/-- What the environment decides for a step: the next call of an idle client, the outcome of the
clock and of a weak compare-and-exchange, and that a waiter wakes up without a notification. -/
inductive Act
  | step
  | call (c : Call)
  | elapsed (delta : ℕ) (spurious : Bool)
  | wake

/-! ## the operations -/

section Pieces

variable {Client G : Type} (cfg : Config)

/-- Lock the range mutex `i`. -/
def Mem.lock [DecidableEq Client] (m : Mem Client G) (i : ℕ) (t : Tid Client) : Mem Client G :=
  { m with locks := Function.update m.locks i (some t) }

/-- Unlock the range mutex `i`. -/
def Mem.unlock (m : Mem Client G) (i : ℕ) : Mem Client G :=
  { m with locks := Function.update m.locks i none }

/-- The locked part of `WriteQuery`; `none` when `func` returns. -/
def insideStep (a : Act) (m : Mem Client G) : InsidePc → Option (Mem Client G × Option InsidePc)
  | .durationLoad => some (m, some (.durationCas m.totalLockTime))
  | .durationCas current =>
      match a with
      | .elapsed delta spurious =>
          if m.totalLockTime = current ∧ spurious = false then
            some ({ m with totalLockTime := current + delta }, some .countOperation)
          else some (m, some (.durationCas m.totalLockTime))
      | _ => none
  | .countOperation => some ({ m with operationCount := m.operationCount + 1 }, some .func)
  | .func => some (m, none)

/-- Where a step of the locked part leads. -/
def afterInside (firstLock lastLock : ℕ) : Option InsidePc → QueryPc
  | some pc => .inside firstLock lastLock pc
  | none => .release firstLock (lastLock + 1 - firstLock)

/-- The loop of `WriteQuery` on the clamped range `[left, right]`. -/
def queryStep (t : Tid Client) [DecidableEq Client] (a : Act) (m : Mem Client G)
    (left right : ℕ) : QueryPc → Option (Mem Client G × Option QueryPc)
  | .pauseLoad => some (m, some (if m.pauseQueries then .pauseLoad else .epochLoad))
  | .epochLoad =>
      some (m, some (if m.partitionEpoch % 2 ≠ 0 then .pauseLoad else .leftLoad m.partitionEpoch))
  | .leftLoad epoch =>
      some (m, some (.rightLoad epoch (m.blockToLock (cfg.positionToBlock left))))
  | .rightLoad epoch firstLock =>
      let lastLock := m.blockToLock (cfg.positionToBlock right)
      some (m, some (if firstLock > lastLock then .pauseLoad
        else .acquire epoch firstLock lastLock firstLock))
  | .acquire epoch firstLock lastLock index =>
      if m.locks index = none then
        some (m.lock index t, some (if index = lastLock then .epochCheck epoch firstLock lastLock
          else .acquire epoch firstLock lastLock (index + 1)))
      else none
  | .epochCheck epoch firstLock lastLock =>
      some (m, some (if epoch ≠ m.partitionEpoch ∨ m.partitionEpoch % 2 ≠ 0 then
          .retry firstLock (lastLock + 1 - firstLock)
        else .inside firstLock lastLock .durationLoad))
  | .retry firstLock count =>
      some (m.unlock (firstLock + (count - 1)),
        some (if count ≤ 1 then .pauseLoad else .retry firstLock (count - 1)))
  | .inside firstLock lastLock pc =>
      (insideStep a m pc).map fun r => (r.1, some (afterInside firstLock lastLock r.2))
  | .release firstLock count =>
      some (m.unlock (firstLock + (count - 1)),
        if count ≤ 1 then none else some (.release firstLock (count - 1)))

/-- `ShouldSampleTraining` and `EnqueueTrainingSample`; `none` when `WriteQuery` returns. -/
def sampleStep (t : Tid Client) [DecidableEq Client] (m : Mem Client G) (query : Query) :
    SamplePc → Option (Mem Client G × Option SamplePc)
  | .enabledLoad => some (m, if m.trainingEnabled then some .countLoad else none)
  | .countLoad => some (m, some (.probeLoad m.operationCount))
  | .probeLoad operations =>
      if operations < m.nextTrainingProbeOperation then some (m, none)
      else
        let r := sampleCall cfg.sampleRate (m.sampleCounter t)
        some ({ m with sampleCounter := Function.update m.sampleCounter t r.2 },
          if r.1 then some .enqueue else none)
  | .enqueue =>
      let queries := m.localQueries t ++ [query]
      some ({ m with localQueries := Function.update m.localQueries t queries },
        if queries.length ≥ Config.kLocalTrainingFlushSize then some .lockPending else none)
  | .lockPending =>
      if m.pendingMutex = none then some ({ m with pendingMutex := some t }, some .insert)
      else none
  | .insert =>
      let pendingQueries := m.pendingQueries ++ m.localQueries t
      some ({ m with pendingQueries },
        some (.unlockPending (decide (pendingQueries.length ≥ cfg.batchSize))))
  | .unlockPending shouldNotify =>
      some ({ m with pendingMutex := none }, some (if shouldNotify then .notify else .clear))
  | .notify => some ({ m with asleep := false }, some .clear)
  | .clear => some ({ m with localQueries := Function.update m.localQueries t [] }, none)

/-- `publish_partition`; `none` when it is over. -/
def publishStep (t : Tid Client) (m : Mem Client G) (nextCuts : List ℕ) :
    PublishPc → Option (Mem Client G × Option PublishPc)
  | .epochOpen => some ({ m with partitionEpoch := m.partitionEpoch + 1 }, some .lockCuts)
  | .lockCuts =>
      if m.cutsMutex = none then some ({ m with cutsMutex := some t }, some .assign) else none
  | .assign => some ({ m with currentCuts := nextCuts }, some (.refresh 0 0))
  | .refresh block lockIndex =>
      let lockIndex := advanceLock cfg.kLockCnt m.currentCuts block lockIndex
      some ({ m with blockToLock := Function.update m.blockToLock block lockIndex },
        some (if block + 1 < cfg.kBlocks then .refresh (block + 1) lockIndex else .unlockCuts))
  | .unlockCuts => some ({ m with cutsMutex := none }, some .epochClose)
  | .epochClose => some ({ m with partitionEpoch := m.partitionEpoch + 1 }, none)

/-- Where a step of `publish_partition` leads; the range guard is destroyed after it. -/
def afterPublish (concurrent : Bool) (nextCuts : List ℕ) : Option PublishPc → TrainPc
  | some pc => .publish concurrent nextCuts pc
  | none => if concurrent then .unlockAll cfg.kLockCnt else .clearPause

/-- `ScheduleNextTrainingProbe` does nothing for a gap of zero. -/
def scheduleProbe {α : Type} (probe skip : α) : α :=
  if cfg.trainingProbeGap = 0 then skip else probe

/-- `TrainOnBatch` and the end of the scope of `training_mutex_`; `none` when it is over. -/
def trainStep (std : GeneticPartitioner.StdLib G) (t : Tid Client) [DecidableEq Client] (a : Act)
    (m : Mem Client G) (batch : List Query) : TrainPc → Option (Mem Client G × Option TrainPc)
  | .copyLock =>
      if m.cutsMutex = none then some ({ m with cutsMutex := some t }, some .copyRead) else none
  | .copyRead => some (m, some (.copyUnlock m.currentCuts))
  | .copyUnlock previousCuts => some ({ m with cutsMutex := none }, some (.observe previousCuts))
  | .observe previousCuts =>
      (cfg.observeBatch std m.partitioner batch m.generator).map fun r =>
        ({ m with partitioner := r.1, generator := r.2 },
          some (if r.1.current.cuts = previousCuts then .keepDurationLoad
            else .enabledLoad r.1.current.cuts))
  | .keepDurationLoad => some (m, some (.keepDurationCas m.totalTrainingTime))
  | .keepDurationCas current =>
      match a with
      | .elapsed delta spurious =>
          if m.totalTrainingTime = current ∧ spurious = false then
            some ({ m with totalTrainingTime := current + delta },
              some (scheduleProbe cfg .probeLoad .unlockTraining))
          else some (m, some (.keepDurationCas m.totalTrainingTime))
      | _ => none
  | .probeLoad => some (m, some (.probeStore m.operationCount))
  | .probeStore current =>
      some ({ m with nextTrainingProbeOperation := current + cfg.trainingProbeGap },
        some .unlockTraining)
  | .enabledLoad nextCuts =>
      some (m, some (if m.trainingEnabled then .pauseStore nextCuts
        else .publish false nextCuts .epochOpen))
  | .pauseStore nextCuts => some ({ m with pauseQueries := true }, some (.lockAll nextCuts 0))
  | .lockAll nextCuts next =>
      if m.locks next = none then
        some (m.lock next t, some (if next + 1 < cfg.kLockCnt then .lockAll nextCuts (next + 1)
          else .publish true nextCuts .epochOpen))
      else none
  | .publish concurrent nextCuts pc =>
      (publishStep cfg t m nextCuts pc).map fun r =>
        (r.1, some (afterPublish cfg concurrent nextCuts r.2))
  | .unlockAll count =>
      some (m.unlock (count - 1), some (if count ≤ 1 then .clearPause else .unlockAll (count - 1)))
  | .clearPause => some ({ m with pauseQueries := false }, some .durationLoad)
  | .durationLoad => some (m, some (.durationCas m.totalTrainingTime))
  | .durationCas current =>
      match a with
      | .elapsed delta spurious =>
          if m.totalTrainingTime = current ∧ spurious = false then
            some ({ m with totalTrainingTime := current + delta }, some .countTraining)
          else some (m, some (.durationCas m.totalTrainingTime))
      | _ => none
  | .countTraining =>
      some ({ m with trainingCount := m.trainingCount + 1 }, some .unlockTraining)
  | .unlockTraining => some ({ m with trainingMutex := none }, none)

/-- `FlushTraining`. -/
def flushStep (t : Tid Client) (m : Mem Client G) : FlushPc → Option (Mem Client G × Loc)
  | .lockPending =>
      if m.pendingMutex = none then some ({ m with pendingMutex := some t }, .flush .swap)
      else none
  | .swap => some ({ m with pendingQueries := [] }, .flush (.unlockPending m.pendingQueries))
  | .unlockPending batch =>
      some ({ m with pendingMutex := none }, if batch = [] then .idle else .observe batch)

/-- `TrainingLoop`. -/
def trainerStep (t : Tid Client) (a : Act) (m : Mem Client G) :
    TrainerPc → Option (Mem Client G × Loc)
  | .lockPending =>
      if m.pendingMutex = none then some ({ m with pendingMutex := some t }, .trainer .predStop)
      else none
  | .predStop => some (m, .trainer (if m.stopTrainingThread then .stopLoad else .predSize))
  | .predSize =>
      some (m, .trainer (if m.pendingQueries.length ≥ cfg.batchSize then .stopLoad else .wait))
  | .wait => some ({ m with pendingMutex := none, asleep := true }, .trainer .sleep)
  | .sleep =>
      match a with
      | .wake => some ({ m with asleep := false }, .trainer .lockPending)
      | _ => if m.asleep then none else some (m, .trainer .lockPending)
  | .stopLoad => some (m, .trainer (if m.stopTrainingThread then .unlockExit else .swap))
  | .swap => some ({ m with pendingQueries := [] }, .trainer (.unlockPending m.pendingQueries))
  | .unlockPending batch =>
      some ({ m with pendingMutex := none },
        .trainer (if cfg.hasEnoughSkew batch then .lockTraining batch
          else scheduleProbe cfg .probeLoad .lockPending))
  | .probeLoad => some (m, .trainer (.probeStore m.operationCount))
  | .probeStore current =>
      some ({ m with nextTrainingProbeOperation := current + cfg.trainingProbeGap },
        .trainer .lockPending)
  | .lockTraining batch =>
      if m.trainingMutex = none then
        some ({ m with trainingMutex := some t }, .train .trainingLoop batch .copyLock)
      else none
  | .unlockExit => some ({ m with pendingMutex := none }, .trainer .exit)
  | .exit => some ({ m with trainingThread := .finished }, .idle)

/-- `StartRebuilder`.  Assigning to a joinable `std::thread` ends the program. -/
def startStep (m : Mem Client G) : StartPc → Option (Mem Client G × Loc)
  | .clearStop => some ({ m with stopTrainingThread := false }, .start .storeProbe)
  | .storeProbe =>
      some ({ m with nextTrainingProbeOperation := cfg.trainingProbeGap }, .start .enable)
  | .enable => some ({ m with trainingEnabled := true }, .start .create)
  | .create =>
      if m.trainingThread = .none then some ({ m with trainingThread := .created }, .idle)
      else none

/-- `StopRebuilder`. -/
def stopStep (t : Tid Client) (m : Mem Client G) : StopPc → Option (Mem Client G × Loc)
  | .disable => some ({ m with trainingEnabled := false }, .stop .setStop)
  | .setStop => some ({ m with stopTrainingThread := true }, .stop .notify)
  | .notify => some ({ m with asleep := false }, .stop .join)
  | .join =>
      if m.trainingThread = .none then some (m, .stop .lockPending)
      else if m.trainingThread = .finished then
        some ({ m with trainingThread := .none }, .stop .lockPending)
      else none
  | .lockPending =>
      if m.pendingMutex = none then some ({ m with pendingMutex := some t }, .stop .clear)
      else none
  | .clear => some ({ m with pendingQueries := [] }, .stop .unlockPending)
  | .unlockPending => some ({ m with pendingMutex := none }, .idle)

/-- `CountLocksForRange`. -/
def countStep (m : Mem Client G) (left right : ℕ) : CountPc → Option (Mem Client G × Loc)
  | .epochLoad =>
      some (m, .count left right
        (if m.partitionEpoch % 2 ≠ 0 then .epochLoad else .leftLoad m.partitionEpoch))
  | .leftLoad epoch =>
      some (m, .count left right (.rightLoad epoch (m.blockToLock (cfg.positionToBlock left))))
  | .rightLoad epoch firstLock =>
      some (m, .count left right
        (.epochCheck epoch firstLock (m.blockToLock (cfg.positionToBlock right))))
  | .epochCheck epoch firstLock lastLock =>
      some (m, if epoch = m.partitionEpoch ∧ m.partitionEpoch % 2 = 0 ∧ firstLock ≤ lastLock then
          .counted (lockSpan firstLock lastLock)
        else .count left right .epochLoad)

/-- Where `TrainOnBatch` goes back to. -/
def Caller.resume : Caller → Loc
  | .observeBatch => .idle
  | .trainingLoop => .trainer .lockPending

/-- The sample that `WriteQuery` enqueues. -/
def sampleOf (left right : ℕ) : Query where
  left := UInt32.ofNat left
  right := UInt32.ofNat right
  target := UInt32.ofNat left
  delta := 0

/-- Where a step of the loop of `WriteQuery` leads. -/
def afterQuery (left right : ℕ) : Option QueryPc → Loc
  | some pc => .query left right pc
  | none => .sample (sampleOf left right) .enabledLoad

/-- Where a step of the sampling part leads. -/
def afterSample (query : Query) : Option SamplePc → Loc
  | some pc => .sample query pc
  | none => .idle

/-- Where a step of a training leads. -/
def afterTrain (caller : Caller) (batch : List Query) : Option TrainPc → Loc
  | some pc => .train caller batch pc
  | none => caller.resume

/-- Enter a public operation. -/
def enter (m : Mem Client G) : Call → Option (Mem Client G × Loc)
  | .writeQuery left right =>
      if cfg.arraySize = 0 then some (m, .idle)
      else
        let range := clampRange cfg.arraySize left right
        some (m, .query range.1 range.2 .pauseLoad)
  | .observeBatch batch => some (m, if batch = [] then .idle else .observe batch)
  | .startRebuilder =>
      some (m, if m.trainingThread = .none then .start .clearStop else .idle)
  | .stopRebuilder => some (m, .stop .disable)
  | .setTrainingEnabled enabled => some (m, .setEnabled enabled)
  | .flushTraining => some (m, .flush .lockPending)
  | .countLocksForRange left right =>
      if cfg.arraySize = 0 then some (m, .counted 0)
      else
        let range := clampRange cfg.arraySize left right
        some (m, .count range.1 range.2 .epochLoad)
  | .partitionCuts => some (m, .cutsLock)

/-- One step of thread `t`. -/
def advance (std : GeneticPartitioner.StdLib G) (t : Tid Client) [DecidableEq Client] (a : Act)
    (m : Mem Client G) : Loc → Option (Mem Client G × Loc)
  | .idle =>
      match t, a with
      | .client _, .call c => enter cfg m c
      | .background, .step =>
          if m.trainingThread = .created then
            some ({ m with trainingThread := .running }, .trainer .lockPending)
          else none
      | _, _ => none
  | .query left right pc =>
      (queryStep cfg t a m left right pc).map fun r => (r.1, afterQuery left right r.2)
  | .sample query pc => (sampleStep cfg t m query pc).map fun r => (r.1, afterSample query r.2)
  | .observe batch =>
      if m.trainingMutex = none then
        some ({ m with trainingMutex := some t }, .train .observeBatch batch
          (if cfg.hasEnoughSkew batch then .copyLock else .unlockTraining))
      else none
  | .train caller batch pc =>
      (trainStep cfg std t a m batch pc).map fun r => (r.1, afterTrain caller batch r.2)
  | .flush pc => flushStep t m pc
  | .trainer pc => trainerStep cfg t a m pc
  | .start pc => startStep cfg m pc
  | .stop pc => stopStep t m pc
  | .setEnabled enabled => some ({ m with trainingEnabled := enabled }, .idle)
  | .count left right pc => countStep cfg m left right pc
  | .counted _ => some (m, .idle)
  | .cutsLock =>
      if m.cutsMutex = none then some ({ m with cutsMutex := some t }, .cutsCopy) else none
  | .cutsCopy => some (m, .cutsUnlock m.currentCuts)
  | .cutsUnlock cuts => some ({ m with cutsMutex := none }, .cuts cuts)
  | .cuts _ => some (m, .idle)

/-- The members as the constructor leaves them. -/
def initMem (seed : G) : Mem Client G where
  locks _ := none
  partitioner := cfg.initState
  generator := seed
  currentCuts := cfg.initState.current.cuts
  blockToLock := cfg.refreshBlockToLock cfg.initState.current.cuts fun _ => 0
  pendingMutex := none
  pendingQueries := []
  asleep := false
  trainingMutex := none
  cutsMutex := none
  trainingEnabled := false
  stopTrainingThread := false
  pauseQueries := false
  partitionEpoch := 0
  trainingThread := .none
  operationCount := 0
  trainingCount := 0
  nextTrainingProbeOperation := 0
  totalLockTime := 0
  totalTrainingTime := 0
  sampleCounter _ := 0
  localQueries _ := []

/-- A `GeneticLock` and the threads that use it. -/
def machine (std : GeneticPartitioner.StdLib G) (seed : G) (Client : Type) [DecidableEq Client] :
    Program (Tid Client) Act (Mem Client G) Loc where
  init := initMem cfg seed
  start _ := .idle
  advance t a := advance cfg std t a

end Pieces

end GeneticLock
end DynLocks
