import DynLocks.Lib.Interleaving
import DynLocks.Dynamic.Gain

/-!
# DynLocks.Dynamic.Machine

`DynamicLock` as a program of threads over shared memory.  Every atomic load,
store and read-modify-write, every mutex operation and every cell of the block
table is one step; what happens in between is local to the thread and part of
the step before it.  Client threads call the public operations in any order;
the background thread is the one `StartRebuilder` creates.

A program counter is grouped by what the thread holds there: `QueryPc.inside`
is the part of `WriteQuery` between the successful re-check of the epoch and
the end of `func`, `RebuildPc.keep` the part of `RebuildPartitions` that turns
the new partition down, `RebuildPc.publish` the part that installs it.
-/

namespace DynLocks

/-- The threads of a program that uses a lock: clients and the lock's own background thread. -/
inductive Tid (Client : Type)
  | client (c : Client)
  | background
  deriving DecidableEq

/-- The threads are the background thread and the clients. -/
theorem Tid.forall_iff {Client : Type} {p : Tid Client → Prop} :
    (∀ t, p t) ↔ p .background ∧ ∀ c, p (.client c) := by
  constructor
  · exact fun h => ⟨h _, fun _ => h _⟩
  · rintro ⟨hbackground, hclient⟩ t
    cases t with
    | background => exact hbackground
    | client c => exact hclient c

instance {Client : Type} {p : Tid Client → Prop} [Decidable (p .background)]
    [Decidable (∀ c, p (.client c))] : Decidable (∀ t, p t) :=
  decidable_of_iff _ Tid.forall_iff.symm

namespace DynamicLock

open Interleaving

/-! ## shared memory -/

/-- `rebuild_thread_`: not joinable, created but not yet running, running, or finished and not
yet joined. -/
inductive Thread
  | none
  | created (interval : ℕ) (changeThreshold : ℚ)
  | running
  | finished
  deriving DecidableEq

/-- The members of a `DynamicLock` and the `thread_local` counter of `ShouldSampleStats`. -/
structure Mem (Client : Type) where
  locks : ℕ → Option (Tid Client)
  blockToLock : ℕ → ℕ
  counters : Counters UInt64
  lastStats : ℕ → UInt64
  statsMutex : Option (Tid Client)
  partitions : List ℕ
  partitionsMutex : Option (Tid Client)
  rebuildFlag : Bool
  collectStats : Bool
  pauseQueries : Bool
  rebuilderRunning : Bool
  partitionEpoch : ℕ
  rebuildThread : Thread
  stopRebuilder : Bool
  rebuildCount : UInt64
  operationCount : UInt64
  totalLockTime : ℕ
  sampleCounter : Tid Client → UInt64

/-! ## program counters -/

/-- `WriteQuery` after the epoch re-check succeeded. -/
inductive InsidePc
  | durationLoad
  | durationCas (current : ℕ)
  | countOperation
  | sampleLoad
  | addHit (block : ℕ)
  | addCrossing (boundary : ℕ)
  | func

/-- `WriteQuery`; `retry` and `release` unlock from the top, `count` locks being still held. -/
inductive QueryPc
  | pauseLoad
  | epochLoad
  | leftLoad (epoch : ℕ)
  | rightLoad (epoch lockStart : ℕ)
  | acquire (epoch lockStart lockEnd index : ℕ)
  | epochCheck (epoch lockStart lockEnd : ℕ)
  | retry (lockStart count : ℕ)
  | inside (lockStart lockEnd : ℕ) (pc : InsidePc)
  | release (lockStart count : ℕ)

/-- `ResetCollectedStatsUnlocked`. -/
inductive ResetPc
  | saveLast
  | zeroStats (i : ℕ)
  | zeroCrossings (i : ℕ)

/-- `RebuildPartitions` after a gain test that failed, `partitions_mutex_` held. -/
inductive KeepPc
  | lockStats
  | reset (pc : ResetPc)
  | clearFlag
  | unlockStats
  | unlockPartitions

/-- `RebuildPartitions` with every range lock held. -/
inductive PublishPc
  | lockPartitions
  | lockStats
  | assign
  | epochOpen
  | refresh (block lockIndex : ℕ)
  | epochClose
  | reset (pc : ResetPc)
  | unlockStats
  | unlockPartitions
  | clearFlag
  | clearPause

/-- `RebuildPartitions`. -/
inductive RebuildPc
  | exchange
  | snapStats (i : ℕ)
  | snapCrossings (i : ℕ)
  | gainLock
  | gainTest
  | keep (pc : KeepPc)
  | unlockGain
  | pauseStore
  | lockAll (next : ℕ)
  | publish (pc : PublishPc)
  | unlockAll (count : ℕ)
  | ret (result : Bool)

/-- Who called `RebuildPartitions`. -/
inductive Caller
  | rebuildNow
  | rebuilder (interval : ℕ) (changeThreshold : ℚ)

/-- `ShouldRebuild`. -/
inductive ShouldPc
  | lockStats
  | snapStats (i : ℕ)
  | decide
  | reset (pc : ResetPc)
  | unlockStats (result : Bool)

/-- The body of the background thread. -/
inductive RebuilderPc
  | outerLoad
  | innerLoad (slept : ℕ)
  | stopLoad
  | should (snapshot : Counters UInt64) (pc : ShouldPc)
  | exit

/-- `CountLocksForRange` on the clamped range. -/
inductive CountPc
  | lockPartitions
  | leftLoad
  | rightLoad (lockStart : ℕ)
  | unlockPartitions (lockStart lockEnd : ℕ)

/-- Where a thread stands and its local variables. -/
inductive Loc
  | idle
  | query (left right : ℕ) (pc : QueryPc)
  | rebuild (caller : Caller) (snapshot : Counters UInt64) (pc : RebuildPc)
  | countRebuild (caller : Caller)
  | rebuildNow (snapshot : Counters UInt64) (i : ℕ)
  | rebuilder (interval : ℕ) (changeThreshold : ℚ) (pc : RebuilderPc)
  | start (interval : ℕ) (changeThreshold : ℚ) (stage : Fin 4)
  | stop (stage : Fin 4)
  | forceLock
  | forceStats (i : ℕ)
  | forceCrossings (i : ℕ)
  | forceUnlock
  | count (left right : ℕ) (pc : CountPc)
  | counted (locks : ℕ)
  | cutsLock
  | cutsCopy
  | cutsUnlock (cuts : List ℕ)
  | cuts (cuts : List ℕ)

/-- Is the thread between two calls? -/
def Loc.isIdle : Loc → Bool
  | .idle => true
  | _ => false

/-- Only `idle` tests as idle. -/
theorem Loc.eq_idle {l : Loc} (h : l.isIdle) : l = .idle := by
  cases l with
  | idle => rfl
  | _ => contradiction

/-- The public operations. -/
inductive Call
  | writeQuery (left right : ℕ)
  | rebuildNow
  | startRebuilder (interval : ℕ) (changeThreshold : ℚ)
  | stopRebuilder
  | forceSaveStats
  | countLocksForRange (left right : ℕ)
  | partitionCuts

/-- What the environment decides for a step: the next call of an idle client, and the outcome
of the clock and of a weak compare-and-exchange. -/
inductive Act
  | step
  | call (c : Call)
  | elapsed (delta : ℕ) (spurious : Bool)

/-! ## pieces of the operations -/

section Pieces

variable {Client : Type} (cfg : Config)

/-- `store(0)` on one counter, or an assignment to one element. -/
def setCounter (c : ℕ → UInt64) (i : ℕ) (v : UInt64) : ℕ → UInt64 := Function.update c i v

/-- The decision of `ShouldSampleStats` once statistics are on and the counter is counted up. -/
def sampleNow (rate : ℕ) (counter : UInt64) : Bool :=
  if rate &&& (rate - 1) = 0 then counter.toNat &&& (rate - 1) = 0
  else counter.toNat % rate = 0

/-- `HasEnoughSkew`. -/
def Config.hasEnoughSkew (stats : ℕ → UInt64) (totalOps : UInt64) : Bool :=
  let maxBlock := (List.range cfg.kBlocks).foldl (fun acc b => max acc (stats b).toNat) 0
  let averageBlock : ℚ := (totalOps.toNat : ℚ) / cfg.kBlocks
  averageBlock > 0 ∧ (maxBlock : ℚ) / averageBlock ≥ cfg.rebuildSkew

/-- The comparison at the end of `ShouldRebuild`: the mean relative change of a block. -/
def Config.statsChanged (lastStats stats : ℕ → UInt64) (threshold : ℚ) : Bool :=
  let blocks := (List.range cfg.kBlocks).filter fun b => !(lastStats b == 0 && stats b == 0)
  let diff := blocks.foldl (fun diff b =>
    diff + |((stats b).toNat : ℚ) - (lastStats b).toNat| / max ((lastStats b).toNat : ℚ) 1) 0
  blocks.length ≠ 0 ∧ diff / blocks.length > threshold

/-- `ResetCollectedStatsUnlocked`, one store at a time; `none` when the loop is over. -/
def resetStep (stats : ℕ → UInt64) (m : Mem Client) : ResetPc → Mem Client × Option ResetPc
  | .saveLast => ({ m with lastStats := stats }, some (.zeroStats 0))
  | .zeroStats i =>
      ({ m with counters := { m.counters with stats := setCounter m.counters.stats i 0 } },
        some (.zeroCrossings i))
  | .zeroCrossings i =>
      ({ m with counters :=
          { m.counters with
            boundaryCrossings := setCounter m.counters.boundaryCrossings i 0 } },
        if i + 1 < cfg.kBlocks then some (.zeroStats (i + 1)) else none)

/-- Lock the range mutex `i`. -/
def Mem.lock [DecidableEq Client] (m : Mem Client) (i : ℕ) (t : Tid Client) : Mem Client :=
  { m with locks := Function.update m.locks i (some t) }

/-- Unlock the range mutex `i`. -/
def Mem.unlock (m : Mem Client) (i : ℕ) : Mem Client :=
  { m with locks := Function.update m.locks i none }

/-! ## the operations -/

/-- The first crossing that `UpdateStats` counts, or the end of it. -/
def firstCrossing (left right : ℕ) : InsidePc :=
  if cfg.positionToBlock left + 1 ≤ cfg.positionToBlock right ∧
      cfg.positionToBlock left + 1 < cfg.kBlocks then
    .addCrossing (cfg.positionToBlock left + 1)
  else .func

/-- The locked part of `WriteQuery`; `none` when `func` returns. -/
def insideStep (t : Tid Client) [DecidableEq Client] (a : Act) (m : Mem Client)
    (left right : ℕ) : InsidePc → Option (Mem Client × Option InsidePc)
  | .durationLoad => some (m, some (.durationCas m.totalLockTime))
  | .durationCas current =>
      match a with
      | .elapsed delta spurious =>
          if m.totalLockTime = current ∧ spurious = false then
            some ({ m with totalLockTime := current + delta }, some .countOperation)
          else some (m, some (.durationCas m.totalLockTime))
      | _ => none
  | .countOperation =>
      some ({ m with operationCount := m.operationCount + 1 }, some .sampleLoad)
  | .sampleLoad =>
      let firstHit : InsidePc :=
        if cfg.positionToBlock left ≤ cfg.positionToBlock right ∧
            cfg.positionToBlock left < cfg.kBlocks then .addHit (cfg.positionToBlock left)
        else firstCrossing cfg left right
      if m.collectStats = false then some (m, some .func)
      else if cfg.sampleRate ≤ 1 then some (m, some firstHit)
      else
        let counter := m.sampleCounter t + 1
        some ({ m with sampleCounter := Function.update m.sampleCounter t counter },
          some (if sampleNow cfg.sampleRate counter then firstHit else .func))
  | .addHit block =>
      some ({ m with counters := { m.counters with stats := fetchAdd m.counters.stats block } },
        some (if block + 1 ≤ cfg.positionToBlock right ∧ block + 1 < cfg.kBlocks then
            .addHit (block + 1)
          else firstCrossing cfg left right))
  | .addCrossing boundary =>
      some ({ m with counters :=
          { m.counters with
            boundaryCrossings := fetchAdd m.counters.boundaryCrossings boundary } },
        some (if boundary + 1 ≤ cfg.positionToBlock right ∧ boundary + 1 < cfg.kBlocks then
            .addCrossing (boundary + 1)
          else .func))
  | .func => some (m, none)

/-- Where a step of the locked part leads. -/
def afterInside (lockStart lockEnd : ℕ) : Option InsidePc → QueryPc
  | some pc => .inside lockStart lockEnd pc
  | none => .release lockStart (lockEnd + 1 - lockStart)

/-- `WriteQuery` on the clamped range `[left, right]`. -/
def queryStep (t : Tid Client) [DecidableEq Client] (a : Act) (m : Mem Client)
    (left right : ℕ) : QueryPc → Option (Mem Client × Option QueryPc)
  | .pauseLoad => some (m, some (if m.pauseQueries then .pauseLoad else .epochLoad))
  | .epochLoad =>
      some (m, some (if m.partitionEpoch % 2 ≠ 0 then .pauseLoad else .leftLoad m.partitionEpoch))
  | .leftLoad epoch =>
      some (m, some (.rightLoad epoch (m.blockToLock (cfg.positionToBlock left))))
  | .rightLoad epoch lockStart =>
      let lockEnd := m.blockToLock (cfg.positionToBlock right)
      some (m, some (if lockStart > lockEnd then .pauseLoad
        else .acquire epoch lockStart lockEnd lockStart))
  | .acquire epoch lockStart lockEnd index =>
      if m.locks index = none then
        some (m.lock index t, some (if index = lockEnd then .epochCheck epoch lockStart lockEnd
          else .acquire epoch lockStart lockEnd (index + 1)))
      else none
  | .epochCheck epoch lockStart lockEnd =>
      some (m, some (if epoch ≠ m.partitionEpoch ∨ m.partitionEpoch % 2 ≠ 0 then
          .retry lockStart (lockEnd + 1 - lockStart)
        else .inside lockStart lockEnd .durationLoad))
  | .retry lockStart count =>
      some (m.unlock (lockStart + (count - 1)),
        some (if count ≤ 1 then .pauseLoad else .retry lockStart (count - 1)))
  | .inside lockStart lockEnd pc =>
      (insideStep cfg t a m left right pc).map fun r =>
        (r.1, some (afterInside lockStart lockEnd r.2))
  | .release lockStart count =>
      some (m.unlock (lockStart + (count - 1)),
        if count ≤ 1 then none else some (.release lockStart (count - 1)))

/-- `RebuildPartitions` after a failed gain test. -/
def keepStep (t : Tid Client) (stats : ℕ → UInt64) (m : Mem Client) :
    KeepPc → Option (Mem Client × RebuildPc)
  | .lockStats =>
      if m.statsMutex = none then
        some ({ m with statsMutex := some t }, .keep (.reset .saveLast))
      else none
  | .reset pc =>
      let r := resetStep cfg stats m pc
      some (r.1, match r.2 with
        | some pc => .keep (.reset pc)
        | none => .keep .clearFlag)
  | .clearFlag => some ({ m with rebuildFlag := false }, .keep .unlockStats)
  | .unlockStats => some ({ m with statsMutex := none }, .keep .unlockPartitions)
  | .unlockPartitions => some ({ m with partitionsMutex := none }, .ret false)

/-- `RebuildPartitions` with every range lock held. -/
def publishStep (t : Tid Client) (snapshot : Counters UInt64) (m : Mem Client) :
    PublishPc → Option (Mem Client × RebuildPc)
  | .lockPartitions =>
      if m.partitionsMutex = none then
        some ({ m with partitionsMutex := some t }, .publish .lockStats)
      else none
  | .lockStats =>
      if m.statsMutex = none then some ({ m with statsMutex := some t }, .publish .assign)
      else none
  | .assign => some ({ m with partitions := cfg.newPartitions snapshot }, .publish .epochOpen)
  | .epochOpen =>
      some ({ m with partitionEpoch := m.partitionEpoch + 1 }, .publish (.refresh 0 0))
  | .refresh block lockIndex =>
      let lockIndex := advanceLock cfg.kLockCnt m.partitions block lockIndex
      some ({ m with blockToLock := Function.update m.blockToLock block lockIndex },
        .publish (if block + 1 < cfg.kBlocks then .refresh (block + 1) lockIndex
          else .epochClose))
  | .epochClose =>
      some ({ m with partitionEpoch := m.partitionEpoch + 1 }, .publish (.reset .saveLast))
  | .reset pc =>
      let r := resetStep cfg snapshot.stats m pc
      some (r.1, .publish (match r.2 with
        | some pc => .reset pc
        | none => .unlockStats))
  | .unlockStats => some ({ m with statsMutex := none }, .publish .unlockPartitions)
  | .unlockPartitions => some ({ m with partitionsMutex := none }, .publish .clearFlag)
  | .clearFlag => some ({ m with rebuildFlag := false }, .publish .clearPause)
  | .clearPause => some ({ m with pauseQueries := false }, .unlockAll cfg.kLockCnt)

/-- `RebuildPartitions`, up to the point where it returns. -/
def rebuildStep (t : Tid Client) [DecidableEq Client] (m : Mem Client)
    (snapshot : Counters UInt64) : RebuildPc → Option (Mem Client × Counters UInt64 × RebuildPc)
  | .exchange =>
      some ({ m with rebuildFlag := true }, .zero,
        if m.rebuildFlag then .ret false else .snapStats 0)
  | .snapStats i =>
      some (m, { snapshot with stats := setCounter snapshot.stats i (m.counters.stats i) },
        if i + 1 < cfg.kBlocks then .snapStats (i + 1) else .snapCrossings 0)
  | .snapCrossings i =>
      some (m, { snapshot with
          boundaryCrossings :=
            setCounter snapshot.boundaryCrossings i (m.counters.boundaryCrossings i) },
        if i + 1 < cfg.kBlocks then .snapCrossings (i + 1) else .gainLock)
  | .gainLock =>
      if m.partitionsMutex = none then
        some ({ m with partitionsMutex := some t }, snapshot, .gainTest)
      else none
  | .gainTest =>
      some (m, snapshot,
        if cfg.gainTest m.partitions snapshot then .unlockGain else .keep .lockStats)
  | .keep pc => (keepStep cfg t snapshot.stats m pc).map fun r => (r.1, snapshot, r.2)
  | .unlockGain => some ({ m with partitionsMutex := none }, snapshot, .pauseStore)
  | .pauseStore => some ({ m with pauseQueries := true }, snapshot, .lockAll 0)
  | .lockAll next =>
      if m.locks next = none then
        some (m.lock next t, snapshot,
          if next + 1 < cfg.kLockCnt then .lockAll (next + 1) else .publish .lockPartitions)
      else none
  | .publish pc => (publishStep cfg t snapshot m pc).map fun r => (r.1, snapshot, r.2)
  | .unlockAll count =>
      some (m.unlock (count - 1), snapshot,
        if count ≤ 1 then .ret true else .unlockAll (count - 1))
  | .ret _ => none

/-- `ShouldRebuild`; `none` when it returns. -/
def shouldStep (t : Tid Client) (changeThreshold : ℚ) (m : Mem Client)
    (snapshot : Counters UInt64) :
    ShouldPc → Option (Mem Client × Counters UInt64 × (ShouldPc ⊕ Bool))
  | .lockStats =>
      if m.statsMutex = none then
        some ({ m with statsMutex := some t }, .zero, .inl (.snapStats 0))
      else none
  | .snapStats i =>
      some (m, { snapshot with stats := setCounter snapshot.stats i (m.counters.stats i) },
        .inl (if i + 1 < cfg.kBlocks then .snapStats (i + 1) else .decide))
  | .decide =>
      let totalOps := prefixSum snapshot.stats cfg.kBlocks
      if totalOps < 1000 then some (m, snapshot, .inl (.unlockStats false))
      else if cfg.hasEnoughSkew snapshot.stats totalOps = false then
        some (m, snapshot, .inl (.reset .saveLast))
      else if prefixSum m.lastStats cfg.kBlocks = 0 then
        some ({ m with lastStats := snapshot.stats }, snapshot, .inl (.unlockStats true))
      else
        some (m, snapshot,
          .inl (.unlockStats (cfg.statsChanged m.lastStats snapshot.stats changeThreshold)))
  | .reset pc =>
      let r := resetStep cfg snapshot.stats m pc
      some (r.1, snapshot, .inl (match r.2 with
        | some pc => .reset pc
        | none => .unlockStats false))
  | .unlockStats result => some ({ m with statsMutex := none }, snapshot, .inr result)

/-- The body of the background thread. -/
def rebuilderStep (t : Tid Client) (m : Mem Client) (interval : ℕ) (changeThreshold : ℚ) :
    RebuilderPc → Option (Mem Client × Loc)
  | .outerLoad =>
      some (m, .rebuilder interval changeThreshold
        (if m.stopRebuilder then .exit else .innerLoad 0))
  | .innerLoad slept =>
      some (m, .rebuilder interval changeThreshold
        (if m.stopRebuilder = false ∧ slept < interval then
          .innerLoad (slept + min 50 (interval - slept))
        else .stopLoad))
  | .stopLoad =>
      some (m, .rebuilder interval changeThreshold
        (if m.stopRebuilder then .exit else .should .zero .lockStats))
  | .should snapshot pc =>
      (shouldStep cfg t changeThreshold m snapshot pc).map fun r =>
        (r.1, match r.2.2 with
          | .inl pc => .rebuilder interval changeThreshold (.should r.2.1 pc)
          | .inr true => .rebuild (.rebuilder interval changeThreshold) .zero .exchange
          | .inr false => .rebuilder interval changeThreshold .outerLoad)
  | .exit => some ({ m with rebuildThread := .finished }, .idle)

/-- `CountLocksForRange`. -/
def countStep (t : Tid Client) (m : Mem Client) (left right : ℕ) :
    CountPc → Option (Mem Client × Loc)
  | .lockPartitions =>
      if m.partitionsMutex = none then
        some ({ m with partitionsMutex := some t }, .count left right .leftLoad)
      else none
  | .leftLoad =>
      some (m, .count left right (.rightLoad (m.blockToLock (cfg.positionToBlock left))))
  | .rightLoad lockStart =>
      some (m, .count left right
        (.unlockPartitions lockStart (m.blockToLock (cfg.positionToBlock right))))
  | .unlockPartitions lockStart lockEnd =>
      some ({ m with partitionsMutex := none }, .counted (lockSpan lockStart lockEnd))

/-- Where `RebuildPartitions` goes back to. -/
def Caller.resume : Caller → Loc
  | .rebuildNow => .idle
  | .rebuilder interval changeThreshold => .rebuilder interval changeThreshold .outerLoad

/-- Where a step of `WriteQuery` leads. -/
def afterQuery (left right : ℕ) : Option QueryPc → Loc
  | some pc => .query left right pc
  | none => .idle

/-- Enter a public operation. -/
def enter (m : Mem Client) : Call → Option (Mem Client × Loc)
  | .writeQuery left right =>
      if cfg.arraySize = 0 then some (m, .idle)
      else
        let range := clampRange cfg.arraySize left right
        some (m, .query range.1 range.2 .pauseLoad)
  | .rebuildNow => some (m, .rebuildNow .zero 0)
  | .startRebuilder interval changeThreshold =>
      if m.rebuildThread = .none then some (m, .start interval changeThreshold 0)
      else some (m, .idle)
  | .stopRebuilder => some (m, .stop 0)
  | .forceSaveStats => some (m, .forceLock)
  | .countLocksForRange left right =>
      if cfg.arraySize = 0 then some (m, .counted 0)
      else
        let range := clampRange cfg.arraySize left right
        some (m, .count range.1 range.2 .lockPartitions)
  | .partitionCuts => some (m, .cutsLock)

/-- `StartRebuilder`: two stores, the third one, and the creation of the thread. -/
def startStep (m : Mem Client) (interval : ℕ) (changeThreshold : ℚ) :
    Fin 4 → Option (Mem Client × Loc)
  | 0 => some ({ m with stopRebuilder := false }, .start interval changeThreshold 1)
  | 1 => some ({ m with collectStats := true }, .start interval changeThreshold 2)
  | 2 => some ({ m with rebuilderRunning := true }, .start interval changeThreshold 3)
  | 3 =>
      if m.rebuildThread = .none then
        some ({ m with rebuildThread := .created interval changeThreshold }, .idle)
      else none

/-- `StopRebuilder`: ask, join, and two stores. -/
def stopStep (m : Mem Client) : Fin 4 → Option (Mem Client × Loc)
  | 0 => some ({ m with stopRebuilder := true }, .stop 1)
  | 1 =>
      if m.rebuildThread = .none then some (m, .stop 2)
      else if m.rebuildThread = .finished then
        some ({ m with rebuildThread := .none }, .stop 2)
      else none
  | 2 => some ({ m with rebuilderRunning := false }, .stop 3)
  | 3 => some ({ m with collectStats := false }, .idle)

/-- One step of thread `t`. -/
def advance (t : Tid Client) [DecidableEq Client] (a : Act) (m : Mem Client) :
    Loc → Option (Mem Client × Loc)
  | .idle =>
      match t, a with
      | .client _, .call c => enter cfg m c
      | .background, .step =>
          match m.rebuildThread with
          | .created interval changeThreshold =>
              some ({ m with rebuildThread := .running },
                .rebuilder interval changeThreshold .outerLoad)
          | _ => none
      | _, _ => none
  | .query left right pc =>
      (queryStep cfg t a m left right pc).map fun r => (r.1, afterQuery left right r.2)
  | .rebuild caller _ (.ret true) => some (m, .countRebuild caller)
  | .rebuild caller _ (.ret false) => some (m, caller.resume)
  | .rebuild caller snapshot pc =>
      (rebuildStep cfg t m snapshot pc).map fun r => (r.1, .rebuild caller r.2.1 r.2.2)
  | .countRebuild caller =>
      some ({ m with rebuildCount := m.rebuildCount + 1 }, caller.resume)
  | .rebuildNow snapshot i =>
      let snapshot :=
        { snapshot with stats := setCounter snapshot.stats i (m.counters.stats i) }
      some (m,
        if i + 1 < cfg.kBlocks then .rebuildNow snapshot (i + 1)
        else if prefixSum snapshot.stats cfg.kBlocks = 0 then .idle
        else .rebuild .rebuildNow .zero .exchange)
  | .rebuilder interval changeThreshold pc =>
      rebuilderStep cfg t m interval changeThreshold pc
  | .start interval changeThreshold stage => startStep m interval changeThreshold stage
  | .stop stage => stopStep m stage
  | .forceLock =>
      if m.statsMutex = none then some ({ m with statsMutex := some t }, .forceStats 0) else none
  | .forceStats i =>
      some ({ m with
          lastStats := setCounter m.lastStats i (m.counters.stats i)
          counters := { m.counters with stats := setCounter m.counters.stats i 0 } },
        .forceCrossings i)
  | .forceCrossings i =>
      some ({ m with counters :=
          { m.counters with
            boundaryCrossings := setCounter m.counters.boundaryCrossings i 0 } },
        if i + 1 < cfg.kBlocks then .forceStats (i + 1) else .forceUnlock)
  | .forceUnlock => some ({ m with statsMutex := none }, .idle)
  | .count left right pc => countStep cfg t m left right pc
  | .counted _ => some (m, .idle)
  | .cutsLock =>
      if m.partitionsMutex = none then some ({ m with partitionsMutex := some t }, .cutsCopy)
      else none
  | .cutsCopy => some (m, .cutsUnlock m.partitions)
  | .cutsUnlock cuts => some ({ m with partitionsMutex := none }, .cuts cuts)
  | .cuts _ => some (m, .idle)

/-- The members as the constructor leaves them. -/
def initMem : Mem Client where
  locks _ := none
  blockToLock := cfg.refreshBlockToLock cfg.initialPartitions fun _ => 0
  counters := .zero
  lastStats _ := 0
  statsMutex := none
  partitions := cfg.initialPartitions
  partitionsMutex := none
  rebuildFlag := false
  collectStats := false
  pauseQueries := false
  rebuilderRunning := false
  partitionEpoch := 0
  rebuildThread := .none
  stopRebuilder := false
  rebuildCount := 0
  operationCount := 0
  totalLockTime := 0
  sampleCounter _ := 0

/-- A `DynamicLock` and the threads that use it. -/
def machine (Client : Type) [DecidableEq Client] :
    Program (Tid Client) Act (Mem Client) Loc where
  init := initMem cfg
  start _ := .idle
  advance t a := advance cfg t a

/-- What a step of thread `t` is. -/
theorem advance_of_stepBy [DecidableEq Client] {cfg : Config} {t : Tid Client}
    {s s' : State (Tid Client) (Mem Client) Loc} (h : (machine cfg Client).StepBy t s s') :
    (∃ a, advance cfg t a s.mem (s.loc t) = some (s'.mem, s'.loc t)) ∧
      ∀ u, u ≠ t → s'.loc u = s.loc u :=
  h.elim

end Pieces

end DynamicLock
end DynLocks
