import DynLocks.Lib.Meter
import DynLocks.Dynamic.Workload
import DynLocks.Genetic.RangeLock
import DynLocks.Naive.RangeLock
import Mathlib.Algebra.Order.Field.Rat

/-!
# DynLocks.RuntimeStats

`GetOperationCount`, `GetTotalLockTimeMs` and `GetAvgLockTimeMs` of the three
locks.  A `WriteQuery` that has come to hold its mutexes adds its time with a
loop of weak exchanges and then one to the number of operations; an attempt that
an epoch has overtaken adds nothing.

* `NaiveLock.meter`, `DynamicLock.meter`, `GeneticLock.meter` — every step goes on
  from one of the two to the other;
* `measured_once` — since `ResetRuntimeStats` every call has been measured once.
-/

namespace DynLocks

open Interleaving

/-! ## the getters -/

/-- `GetTotalLockTimeMs` of a total in nanoseconds. -/
def totalLockTimeMs (totalLockTime : ℕ) : ℚ := totalLockTime / 1000000

/-- `GetAvgLockTimeMs`. -/
def avgLockTimeMs (operationCount : UInt64) (totalLockTime : ℕ) : ℚ :=
  if operationCount = 0 then 0 else totalLockTimeMs totalLockTime / operationCount.toNat

/-! ## `NaiveLock` -/

namespace NaiveLock

variable {Client : Type} {cfg : Config}

/-- `ResetRuntimeStats`. -/
def Mem.resetRuntimeStats (m : Mem Client) : Mem Client :=
  { m with operationCount := 0, totalLockTime := 0 }

/-- How much of a query has been measured. -/
def InsidePc.stage : InsidePc → Meter.Stage
  | .durationLoad => .waiting
  | .durationCas _ => .waiting
  | .countOperation => .timed
  | .func => .counted

/-- How much of a call has been measured. -/
def Loc.stage : Loc → Meter.Stage
  | .query _ _ (.acquire _) => .waiting
  | .query _ _ (.inside pc) => pc.stage
  | .query _ _ (.release _) => .counted
  | _ => .outside

/-- The time of a call. -/
def Act.delta : Act → ℕ
  | .elapsed delta _ => delta
  | _ => 0

variable [DecidableEq Client] {t : Client} {a : Act} {m m' : Mem Client} {l l' : Loc}

omit [DecidableEq Client] in
/-- Under its mutexes a query adds its time, then its number, and then runs its function. -/
theorem meterMove_insideStep {pc : InsidePc} {r : Option InsidePc}
    (h : insideStep a m pc = some (m', r)) :
    Meter.Move m.operationCount m.totalLockTime a.delta pc.stage m'.operationCount m'.totalLockTime
      (r.elim .counted InsidePc.stage) := by
  cases pc with
  | durationLoad => cases h; exact .keep
  | durationCas current =>
      cases a with
      | elapsed delta spurious => exact .of_exchange h rfl rfl rfl rfl
      | _ => contradiction
  | countOperation => cases h; exact .count
  | func => cases h; exact .keep

/-- **Step lemma**: every step of a query goes on from one to the other, and no other step touches
the counters. -/
theorem meterMove_advance (h : advance cfg t a m l = some (m', l')) :
    Meter.Move m.operationCount m.totalLockTime a.delta l.stage m'.operationCount m'.totalLockTime
      l'.stage := by
  cases l with
  | idle =>
      cases a with
      | call c =>
          cases c with
          | writeQuery left right =>
              simp only [advance, enter] at h
              split at h
              · cases h; exact .keep
              · split at h
                · contradiction
                · cases h; exact .call
          | countLocksForRange left right =>
              simp only [advance, enter] at h
              split at h
              · cases h; exact .keep
              · split at h
                · contradiction
                · cases h; exact .keep
      | _ => contradiction
  | counted locks => cases h; exact .keep
  | query left right pc =>
      simp only [advance, Option.map_eq_some_iff, Prod.mk.injEq] at h
      obtain ⟨⟨m'', r⟩, hstep, rfl, rfl⟩ := h
      cases pc with
      | acquire index =>
          simp only [queryStep] at hstep
          split at hstep
          · cases hstep
            dsimp only [afterQuery]
            split <;> exact .keep
          · contradiction
      | inside pc =>
          simp only [queryStep, Option.map_eq_some_iff, Prod.mk.injEq] at hstep
          obtain ⟨⟨m'', r'⟩, hinside, rfl, rfl⟩ := hstep
          have hmove := meterMove_insideStep hinside
          cases r' <;> exact hmove
      | release count =>
          cases hstep
          dsimp only [afterQuery]
          split
          · next heq =>
              split at heq
              · contradiction
              · cases heq; exact .keep
          · exact .returns

/-- The counters of a `NaiveLock`. -/
def meter (cfg : Config) (Client : Type) [DecidableEq Client] : Meter (machine cfg Client) where
  stage := Loc.stage
  operations := Mem.operationCount
  time := Mem.totalLockTime
  delta := Act.delta
  advance := meterMove_advance

end NaiveLock

/-! ## `DynamicLock` -/

namespace DynamicLock

variable {Client : Type} {cfg : Config}

/-- `ResetRuntimeStats`. -/
def Mem.resetRuntimeStats (m : Mem Client) : Mem Client :=
  { m with operationCount := 0, totalLockTime := 0 }

/-- How much of a query has been measured. -/
def InsidePc.stage : InsidePc → Meter.Stage
  | .durationLoad => .waiting
  | .durationCas _ => .waiting
  | .countOperation => .timed
  | _ => .counted

/-- How much of a call has been measured; an attempt that fails has not been. -/
def QueryPc.stage : QueryPc → Meter.Stage
  | .inside _ _ pc => pc.stage
  | .release _ _ => .counted
  | _ => .waiting

/-- How much of a call has been measured. -/
def Loc.stage : Loc → Meter.Stage
  | .query _ _ pc => pc.stage
  | _ => .outside

/-- The time of a call. -/
def Act.delta : Act → ℕ
  | .elapsed delta _ => delta
  | _ => 0

/-- The two counters. -/
def Mem.runtime (m : Mem Client) : UInt64 × ℕ := (m.operationCount, m.totalLockTime)

variable {t : Tid Client} {a : Act} {m m' : Mem Client} {l l' : Loc}

/-! ### other operations leave the counters alone -/

/-- `ResetCollectedStatsUnlocked` resets other counters. -/
theorem runtime_resetStep (stats : ℕ → UInt64) (m : Mem Client) (pc : ResetPc) :
    (resetStep cfg stats m pc).1.runtime = m.runtime := by
  cases pc <;> rfl

/-- A rebuild that keeps the partition does not touch these two. -/
theorem runtime_keepStep {stats : ℕ → UInt64} {pc : KeepPc} {pc' : RebuildPc}
    (h : keepStep cfg t stats m pc = some (m', pc')) : m'.runtime = m.runtime := by
  cases pc with
  | lockStats =>
      simp only [keepStep] at h
      split at h
      · cases h; rfl
      · contradiction
  | reset pc =>
      cases h
      exact runtime_resetStep stats m pc
  | _ => cases h; rfl

/-- Neither does one that publishes. -/
theorem runtime_publishStep {snapshot : Counters UInt64} {pc : PublishPc} {pc' : RebuildPc}
    (h : publishStep cfg t snapshot m pc = some (m', pc')) : m'.runtime = m.runtime := by
  cases pc with
  | lockPartitions =>
      simp only [publishStep] at h
      split at h
      · cases h; rfl
      · contradiction
  | lockStats =>
      simp only [publishStep] at h
      split at h
      · cases h; rfl
      · contradiction
  | reset pc =>
      cases h
      exact runtime_resetStep _ m pc
  | _ => cases h; rfl

/-- `ShouldRebuild` does not touch them. -/
theorem runtime_shouldStep {changeThreshold : ℚ} {snapshot snapshot' : Counters UInt64}
    {pc : ShouldPc} {r : ShouldPc ⊕ Bool}
    (h : shouldStep cfg t changeThreshold m snapshot pc = some (m', snapshot', r)) :
    m'.runtime = m.runtime := by
  cases pc with
  | lockStats =>
      simp only [shouldStep] at h
      split at h
      · cases h; rfl
      · contradiction
  | decide =>
      simp only [shouldStep] at h
      split at h
      · cases h; rfl
      · split at h
        · cases h; rfl
        · split at h <;> cases h <;> rfl
  | reset pc =>
      cases h
      exact runtime_resetStep _ m pc
  | _ => cases h; rfl

/-- `StartRebuilder` does not touch them. -/
theorem runtime_startStep {interval : ℕ} {changeThreshold : ℚ} {stage : Fin 4}
    (h : startStep m interval changeThreshold stage = some (m', l')) : m'.runtime = m.runtime := by
  match stage with
  | 0 => cases h; rfl
  | 1 => cases h; rfl
  | 2 => cases h; rfl
  | 3 =>
      simp only [startStep] at h
      split at h
      · cases h; rfl
      · contradiction

/-- `StopRebuilder` does not touch them. -/
theorem runtime_stopStep {stage : Fin 4} (h : stopStep m stage = some (m', l')) :
    m'.runtime = m.runtime := by
  match stage with
  | 0 => cases h; rfl
  | 2 => cases h; rfl
  | 3 => cases h; rfl
  | 1 =>
      simp only [stopStep] at h
      split at h
      · cases h; rfl
      · split at h
        · cases h; rfl
        · contradiction

variable [DecidableEq Client]

/-- So `RebuildPartitions` does not. -/
theorem runtime_rebuildStep {snapshot snapshot' : Counters UInt64} {pc pc' : RebuildPc}
    (h : rebuildStep cfg t m snapshot pc = some (m', snapshot', pc')) : m'.runtime = m.runtime := by
  cases pc with
  | gainLock =>
      simp only [rebuildStep] at h
      split at h
      · cases h; rfl
      · contradiction
  | lockAll next =>
      simp only [rebuildStep] at h
      split at h
      · cases h; rfl
      · contradiction
  | keep pc =>
      simp only [rebuildStep, Option.map_eq_some_iff, Prod.mk.injEq] at h
      obtain ⟨⟨m'', pc''⟩, hstep, rfl, -⟩ := h
      exact runtime_keepStep hstep
  | publish pc =>
      simp only [rebuildStep, Option.map_eq_some_iff, Prod.mk.injEq] at h
      obtain ⟨⟨m'', pc''⟩, hstep, rfl, -⟩ := h
      exact runtime_publishStep hstep
  | ret result => contradiction
  | _ => cases h; rfl

/-- Outside of `WriteQuery` nothing is measured. -/
theorem runtime_advance (hl : l.stage = .outside) (hidle : l.isIdle = false)
    (h : advance cfg t a m l = some (m', l')) : m'.runtime = m.runtime := by
  cases l with
  | idle => contradiction
  | query left right pc =>
      cases pc with
      | inside lockStart lockEnd pc => cases pc <;> contradiction
      | _ => contradiction
  | rebuild caller snapshot pc =>
      rcases advance_rebuild cfg h with ⟨result, rfl, rfl, -⟩ | ⟨snapshot', pc', hstep, -⟩
      · rfl
      · exact runtime_rebuildStep hstep
  | rebuilder interval changeThreshold pc =>
      cases pc with
      | should snapshot pc =>
          simp only [advance, rebuilderStep, Option.map_eq_some_iff, Prod.mk.injEq] at h
          obtain ⟨⟨m'', snapshot', r⟩, hstep, rfl, -⟩ := h
          exact runtime_shouldStep hstep
      | _ => cases h; rfl
  | start interval changeThreshold stage => exact runtime_startStep h
  | stop stage => exact runtime_stopStep h
  | forceLock =>
      simp only [advance] at h
      split at h
      · cases h; rfl
      · contradiction
  | count left right pc =>
      cases pc with
      | lockPartitions =>
          simp only [advance, countStep] at h
          split at h
          · cases h; rfl
          · contradiction
      | _ => cases h; rfl
  | cutsLock =>
      simp only [advance] at h
      split at h
      · cases h; rfl
      · contradiction
  | _ => cases h; rfl

/-- Outside of `WriteQuery` a thread stays there until it calls it. -/
theorem stage_advance (hl : l.stage = .outside) (hidle : l.isIdle = false)
    (h : advance cfg t a m l = some (m', l')) : l'.stage = .outside := by
  cases l' with
  | query left right pc' =>
      rcases query_of_advance h with ⟨c, left', right', rfl, rfl, rfl, -⟩ | ⟨pc, rfl, hstep⟩
      · contradiction
      · cases pc with
        | inside lockStart lockEnd pc => cases pc <;> contradiction
        | _ => contradiction
  | _ => rfl

/-! ### a query adds to both in turn -/

/-- Under its mutexes a query adds its time and its number before it samples. -/
theorem meterMove_insideStep {left right : ℕ} {pc : InsidePc} {r : Option InsidePc}
    (h : insideStep cfg t a m left right pc = some (m', r)) :
    Meter.Move m.operationCount m.totalLockTime a.delta pc.stage m'.operationCount m'.totalLockTime
      (r.elim .counted InsidePc.stage) := by
  have hcrossing : (firstCrossing cfg left right).stage = .counted := by
    unfold firstCrossing
    split <;> rfl
  cases pc with
  | durationLoad => cases h; exact .keep
  | durationCas current =>
      cases a with
      | elapsed delta spurious => exact .of_exchange h rfl rfl rfl rfl
      | _ => contradiction
  | countOperation => cases h; exact .count
  | sampleLoad =>
      have hfirst : (if cfg.positionToBlock left ≤ cfg.positionToBlock right ∧
          cfg.positionToBlock left < cfg.kBlocks then InsidePc.addHit (cfg.positionToBlock left)
        else firstCrossing cfg left right).stage = .counted := by
        split
        · rfl
        · exact hcrossing
      simp only [insideStep] at h
      split at h
      · cases h; exact .keep
      · split at h
        · cases h
          rw [Option.elim_some, hfirst]
          exact .keep
        · cases h
          dsimp only [Option.elim_some]
          split
          · rw [hfirst]; exact .keep
          · exact .keep
  | addHit block =>
      cases h
      dsimp only [Option.elim_some]
      split
      · exact .keep
      · rw [hcrossing]; exact .keep
  | addCrossing boundary =>
      cases h
      dsimp only [Option.elim_some]
      split <;> exact .keep
  | func => cases h; exact .keep

/-- An attempt that fails adds nothing. -/
theorem meterMove_queryStep {left right : ℕ} {pc : QueryPc} {r : Option QueryPc}
    (h : queryStep cfg t a m left right pc = some (m', r)) :
    Meter.Move m.operationCount m.totalLockTime a.delta pc.stage m'.operationCount m'.totalLockTime
      (r.elim .outside QueryPc.stage) := by
  cases pc with
  | leftLoad epoch => cases h; exact .keep
  | acquire epoch lockStart lockEnd index =>
      simp only [queryStep] at h
      split at h
      · cases h
        dsimp only [Option.elim_some]
        split <;> exact .keep
      · contradiction
  | inside lockStart lockEnd pc =>
      simp only [queryStep, Option.map_eq_some_iff, Prod.mk.injEq] at h
      obtain ⟨⟨m'', r'⟩, hinside, rfl, rfl⟩ := h
      have hmove := meterMove_insideStep hinside
      cases r' <;> exact hmove
  | release lockStart count =>
      cases h
      by_cases hlast : count ≤ 1
      · rw [if_pos hlast]; exact .returns
      · rw [if_neg hlast]; exact .keep
  | _ =>
      cases h
      dsimp only [Option.elim_some]
      split <;> exact .keep

/-- `WriteQuery` of an empty array returns at once and is not measured. -/
theorem meterMove_idle (h : advance cfg t a m .idle = some (m', l')) :
    Meter.Move m.operationCount m.totalLockTime a.delta .outside m'.operationCount m'.totalLockTime
      l'.stage := by
  cases t with
  | client c =>
      cases a with
      | call call =>
          cases call with
          | writeQuery left right =>
              simp only [advance, enter] at h
              split at h
              · cases h; exact .keep
              · cases h; exact .call
          | startRebuilder interval changeThreshold =>
              simp only [advance, enter] at h
              split at h <;> (cases h; exact .keep)
          | countLocksForRange left right =>
              simp only [advance, enter] at h
              split at h <;> (cases h; exact .keep)
          | _ => cases h; exact .keep
      | _ => contradiction
  | background =>
      cases a with
      | step =>
          simp only [advance] at h
          split at h
          · cases h; exact .keep
          · contradiction
      | _ => contradiction

/-- **Step lemma**: a thread adds its time, then counts its operation, and no other step touches
the counters. -/
theorem meterMove_advance (h : advance cfg t a m l = some (m', l')) :
    Meter.Move m.operationCount m.totalLockTime a.delta l.stage m'.operationCount m'.totalLockTime
      l'.stage := by
  cases l with
  | idle => exact meterMove_idle h
  | query left right pc =>
      simp only [advance, Option.map_eq_some_iff, Prod.mk.injEq] at h
      obtain ⟨⟨m'', r⟩, hstep, rfl, rfl⟩ := h
      have hmove := meterMove_queryStep hstep
      cases r <;> exact hmove
  | _ => exact .of_eq (runtime_advance rfl rfl h) (stage_advance rfl rfl h)

/-- The counters of a `DynamicLock`. -/
def meter (cfg : Config) (Client : Type) [DecidableEq Client] : Meter (machine cfg Client) where
  stage := Loc.stage
  operations := Mem.operationCount
  time := Mem.totalLockTime
  delta := Act.delta
  advance := meterMove_advance

end DynamicLock

/-! ## `GeneticLock` -/

namespace GeneticLock

variable {Client G : Type} {cfg : Config} {std : GeneticPartitioner.StdLib G}

/-- `ResetRuntimeStats`. -/
def Mem.resetRuntimeStats (m : Mem Client G) : Mem Client G :=
  { m with operationCount := 0, nextTrainingProbeOperation := 0, totalLockTime := 0 }

/-- How much of a query has been measured. -/
def InsidePc.stage : InsidePc → Meter.Stage
  | .durationLoad => .waiting
  | .durationCas _ => .waiting
  | .countOperation => .timed
  | .func => .counted

/-- How much of a call has been measured; an attempt that fails has not been. -/
def QueryPc.stage : QueryPc → Meter.Stage
  | .inside _ _ pc => pc.stage
  | .release _ _ => .counted
  | _ => .waiting

/-- How much of a call has been measured; what follows the loop is not. -/
def Loc.stage : Loc → Meter.Stage
  | .query _ _ pc => pc.stage
  | _ => .outside

/-- The time of a call. -/
def Act.delta : Act → ℕ
  | .elapsed delta _ => delta
  | _ => 0

/-- The two counters. -/
def Mem.runtime (m : Mem Client G) : UInt64 × ℕ := (m.operationCount, m.totalLockTime)

variable {t : Tid Client} {a : Act} {m m' : Mem Client G} {l l' : Loc}

/-- Under its mutexes a query adds its time, then its number, and then runs its function. -/
theorem meterMove_insideStep {pc : InsidePc} {r : Option InsidePc}
    (h : insideStep a m pc = some (m', r)) :
    Meter.Move m.operationCount m.totalLockTime a.delta pc.stage m'.operationCount m'.totalLockTime
      (r.elim .counted InsidePc.stage) := by
  cases pc with
  | durationLoad => cases h; exact .keep
  | durationCas current =>
      cases a with
      | elapsed delta spurious => exact .of_exchange h rfl rfl rfl rfl
      | _ => contradiction
  | countOperation => cases h; exact .count
  | func => cases h; exact .keep

/-- `publish_partition` does not touch the counters. -/
theorem runtime_publishStep {nextCuts : List ℕ} {pc : PublishPc} {r : Option PublishPc}
    (h : publishStep cfg t m nextCuts pc = some (m', r)) : m'.runtime = m.runtime := by
  cases pc with
  | lockCuts =>
      simp only [publishStep] at h
      split at h
      · cases h; rfl
      · contradiction
  | _ => cases h; rfl

variable [DecidableEq Client]

/-- A training has a total and a number of its own. -/
theorem runtime_trainStep {batch : List Query} {pc : TrainPc} {r : Option TrainPc}
    (h : trainStep cfg std t a m batch pc = some (m', r)) : m'.runtime = m.runtime := by
  cases pc with
  | copyLock =>
      simp only [trainStep] at h
      split at h
      · cases h; rfl
      · contradiction
  | observe previousCuts =>
      simp only [trainStep, Option.map_eq_some_iff, Prod.mk.injEq] at h
      obtain ⟨r', -, rfl, -⟩ := h
      rfl
  | keepDurationCas current =>
      cases a with
      | elapsed delta spurious =>
          simp only [trainStep] at h
          split at h <;> (cases h; rfl)
      | _ => contradiction
  | lockAll nextCuts next =>
      simp only [trainStep] at h
      split at h
      · cases h; rfl
      · contradiction
  | publish concurrent nextCuts pc =>
      simp only [trainStep, Option.map_eq_some_iff, Prod.mk.injEq] at h
      obtain ⟨⟨m'', r'⟩, hstep, rfl, -⟩ := h
      exact runtime_publishStep hstep
  | durationCas current =>
      cases a with
      | elapsed delta spurious =>
          simp only [trainStep] at h
          split at h <;> (cases h; rfl)
      | _ => contradiction
  | _ => cases h; rfl

/-- Outside of the loop of `WriteQuery` nothing is measured. -/
theorem runtime_advance (hl : l.stage = .outside) (hidle : l.isIdle = false)
    (h : advance cfg std t a m l = some (m', l')) : m'.runtime = m.runtime := by
  cases l with
  | idle => contradiction
  | query left right pc =>
      cases pc with
      | inside firstLock lastLock pc => cases pc <;> contradiction
      | _ => contradiction
  | sample query pc =>
      simp only [advance, Option.map_eq_some_iff, Prod.mk.injEq] at h
      obtain ⟨⟨m'', r⟩, hstep, rfl, -⟩ := h
      cases pc <;> grind [sampleStep, Mem.runtime]
  | train caller batch pc =>
      simp only [advance, Option.map_eq_some_iff, Prod.mk.injEq] at h
      obtain ⟨⟨m'', r⟩, hstep, rfl, -⟩ := h
      exact runtime_trainStep hstep
  | flush pc => cases pc <;> grind [advance, flushStep, Mem.runtime]
  | trainer pc =>
      cases pc with
      | sleep => cases a <;> grind [advance, trainerStep, Mem.runtime]
      | _ => grind [advance, trainerStep, Mem.runtime]
  | start pc => cases pc <;> grind [advance, startStep, Mem.runtime]
  | stop pc => cases pc <;> grind [advance, stopStep, Mem.runtime]
  | count left right pc => cases pc <;> grind [advance, countStep, Mem.runtime]
  | _ => grind [advance, Mem.runtime]

/-- Outside of the loop a thread stays there until it calls `WriteQuery`. -/
theorem stage_advance (hl : l.stage = .outside) (hidle : l.isIdle = false)
    (h : advance cfg std t a m l = some (m', l')) : l'.stage = .outside := by
  cases l' with
  | query left right pc' =>
      rcases query_of_advance h with rfl | ⟨pc, rfl, hstep⟩
      · contradiction
      · cases pc with
        | inside firstLock lastLock pc => cases pc <;> contradiction
        | _ => contradiction
  | _ => rfl

/-- An attempt that fails adds nothing. -/
theorem meterMove_queryStep {left right : ℕ} {pc : QueryPc} {r : Option QueryPc}
    (h : queryStep cfg t a m left right pc = some (m', r)) :
    Meter.Move m.operationCount m.totalLockTime a.delta pc.stage m'.operationCount m'.totalLockTime
      (r.elim .outside QueryPc.stage) := by
  cases pc with
  | leftLoad epoch => cases h; exact .keep
  | acquire epoch firstLock lastLock index =>
      simp only [queryStep] at h
      split at h
      · cases h
        dsimp only [Option.elim_some]
        split <;> exact .keep
      · contradiction
  | inside firstLock lastLock pc =>
      simp only [queryStep, Option.map_eq_some_iff, Prod.mk.injEq] at h
      obtain ⟨⟨m'', r'⟩, hinside, rfl, rfl⟩ := h
      have hmove := meterMove_insideStep hinside
      cases r' <;> exact hmove
  | release firstLock count =>
      cases h
      by_cases hlast : count ≤ 1
      · rw [if_pos hlast]; exact .returns
      · rw [if_neg hlast]; exact .keep
  | _ =>
      cases h
      dsimp only [Option.elim_some]
      split <;> exact .keep

/-- `WriteQuery` of an empty array returns at once and is not measured. -/
theorem meterMove_idle (h : advance cfg std t a m .idle = some (m', l')) :
    Meter.Move m.operationCount m.totalLockTime a.delta .outside m'.operationCount m'.totalLockTime
      l'.stage := by
  cases t with
  | client c =>
      cases a with
      | call call =>
          cases call with
          | writeQuery left right =>
              simp only [advance, enter] at h
              split at h
              · cases h; exact .keep
              · cases h; exact .call
          | countLocksForRange left right =>
              simp only [advance, enter] at h
              split at h <;> (cases h; exact .keep)
          | observeBatch batch => cases h; split <;> exact .keep
          | startRebuilder => cases h; split <;> exact .keep
          | _ => cases h; exact .keep
      | _ => contradiction
  | background =>
      cases a with
      | step =>
          simp only [advance] at h
          split at h
          · cases h; exact .keep
          · contradiction
      | _ => contradiction

/-- **Step lemma**: a thread adds its time, then counts its operation, and no other step touches
the counters. -/
theorem meterMove_advance (h : advance cfg std t a m l = some (m', l')) :
    Meter.Move m.operationCount m.totalLockTime a.delta l.stage m'.operationCount m'.totalLockTime
      l'.stage := by
  cases l with
  | idle => exact meterMove_idle h
  | query left right pc =>
      simp only [advance, Option.map_eq_some_iff, Prod.mk.injEq] at h
      obtain ⟨⟨m'', r⟩, hstep, rfl, rfl⟩ := h
      have hmove := meterMove_queryStep hstep
      cases r <;> exact hmove
  | _ => exact .of_eq (runtime_advance rfl rfl h) (stage_advance rfl rfl h)

/-- The counters of a `GeneticLock`. -/
def meter (cfg : Config) (std : GeneticPartitioner.StdLib G) (seed : G) (Client : Type)
    [DecidableEq Client] : Meter (machine cfg std seed Client) where
  stage := Loc.stage
  operations := Mem.operationCount
  time := Mem.totalLockTime
  delta := Act.delta
  advance := meterMove_advance

end GeneticLock

/-! ## what the getters report -/

/-- What a lock reports of some calls: each has been measured once, by a time of its own thread. -/
structure Measured {Tid : Type} (calls : List Tid) (times : List (Tid × ℕ))
    (operationCount : UInt64) (totalLockTime : ℕ) : Prop where
  once : (times.map Prod.fst).Perm calls
  operations : operationCount = UInt64.ofNat calls.length
  total : totalLockTimeMs totalLockTime = (times.map Prod.snd).sum / 1000000
  average : calls ≠ [] → calls.length < 2 ^ 64 → avgLockTimeMs operationCount totalLockTime =
    (times.map Prod.snd).sum / times.length / 1000000

section Measured

variable {Tid Act Mem Loc : Type} [DecidableEq Tid] {P : Program Tid Act Mem Loc} {M : Meter P}
  {schedule : List (Tid × Act)} {s s' : State Tid Mem Loc}

/-- Whatever goes on between two states in which nobody is in a call. -/
theorem measured_of_exec (h : P.exec schedule s = some s') (hoperations : M.operations s.mem = 0)
    (htime : M.time s.mem = 0) (hs : M.Rests s) (hs' : M.Rests s') :
    Measured (M.calls schedule s) (M.times schedule s) (M.operations s'.mem) (M.time s'.mem) := by
  obtain ⟨honce, hcounts⟩ := Meter.threads_perm h hs hs'
  have htotal : M.time s'.mem = ((M.times schedule s).map Prod.snd).sum := by
    rw [Meter.exec_time h, htime, Nat.zero_add]
  have hnumber : M.operations s'.mem = UInt64.ofNat (M.calls schedule s).length := by
    rw [Meter.exec_operations h, hoperations, hcounts.length_eq, UInt64.zero_add]
  have hlength : (M.times schedule s).length = (M.calls schedule s).length := by
    rw [← honce.length_eq, List.length_map]
  refine ⟨honce, hnumber, by rw [totalLockTimeMs, htotal], fun hne hlt => ?_⟩
  have hpos : 0 < (M.calls schedule s).length := List.length_pos_iff.mpr hne
  have hnat : (M.operations s'.mem).toNat = (M.calls schedule s).length := by
    rw [hnumber, UInt64.toNat_ofNat', Nat.mod_eq_of_lt hlt]
  have hne : M.operations s'.mem ≠ 0 := by
    intro hzero
    rw [hzero] at hnat
    exact Nat.ne_of_lt hpos hnat
  rw [avgLockTimeMs, if_neg hne, totalLockTimeMs, htotal, hnat, hlength, div_right_comm]

end Measured

/-- **Every call is measured once**: after `ResetRuntimeStats` while nobody is in a `WriteQuery`, and
whatever threads of the lock do from then on, as soon as nobody is in one again the lock has counted
the calls, its total is that of one time for each of them, and its average is their mean. -/
theorem measured_once :
    (∀ (cfg : NaiveLock.Config) (Client : Type) [DecidableEq Client] (m : NaiveLock.Mem Client)
        (loc : Client → NaiveLock.Loc) (schedule : List (Client × NaiveLock.Act))
        (s : State Client (NaiveLock.Mem Client) NaiveLock.Loc),
      let M := NaiveLock.meter cfg Client
      (NaiveLock.machine cfg Client).exec schedule ⟨m.resetRuntimeStats, loc⟩ = some s →
        M.Rests ⟨m.resetRuntimeStats, loc⟩ → M.Rests s →
        Measured (M.calls schedule ⟨m.resetRuntimeStats, loc⟩)
          (M.times schedule ⟨m.resetRuntimeStats, loc⟩) s.mem.operationCount
          s.mem.totalLockTime) ∧
    (∀ (cfg : DynamicLock.Config) (Client : Type) [DecidableEq Client]
        (m : DynamicLock.Mem Client) (loc : Tid Client → DynamicLock.Loc)
        (schedule : List (Tid Client × DynamicLock.Act))
        (s : State (Tid Client) (DynamicLock.Mem Client) DynamicLock.Loc),
      let M := DynamicLock.meter cfg Client
      (DynamicLock.machine cfg Client).exec schedule ⟨m.resetRuntimeStats, loc⟩ = some s →
        M.Rests ⟨m.resetRuntimeStats, loc⟩ → M.Rests s →
        Measured (M.calls schedule ⟨m.resetRuntimeStats, loc⟩)
          (M.times schedule ⟨m.resetRuntimeStats, loc⟩) s.mem.operationCount
          s.mem.totalLockTime) ∧
    (∀ (cfg : GeneticLock.Config) {G : Type} (std : GeneticPartitioner.StdLib G) (seed : G)
        (Client : Type) [DecidableEq Client] (m : GeneticLock.Mem Client G)
        (loc : Tid Client → GeneticLock.Loc) (schedule : List (Tid Client × GeneticLock.Act))
        (s : State (Tid Client) (GeneticLock.Mem Client G) GeneticLock.Loc),
      let M := GeneticLock.meter cfg std seed Client
      (GeneticLock.machine cfg std seed Client).exec schedule ⟨m.resetRuntimeStats, loc⟩ = some s →
        M.Rests ⟨m.resetRuntimeStats, loc⟩ → M.Rests s →
        Measured (M.calls schedule ⟨m.resetRuntimeStats, loc⟩)
          (M.times schedule ⟨m.resetRuntimeStats, loc⟩) s.mem.operationCount
          s.mem.totalLockTime) := by
  refine ⟨?_, ?_, ?_⟩
  · intro cfg Client _ m loc schedule s M h hstart hend
    exact measured_of_exec (M := M) h rfl rfl hstart hend
  · intro cfg Client _ m loc schedule s M h hstart hend
    exact measured_of_exec (M := M) h rfl rfl hstart hend
  · intro cfg G std seed Client _ m loc schedule s M h hstart hend
    exact measured_of_exec (M := M) h rfl rfl hstart hend

/-- Thread `t` is about to add its time, 5, to the total, when thread `u` makes a whole call with
time 3. So the first exchange of `t` fails. -/
def overtaken {Tid Act : Type} (call : ℕ → Act) (step : Act) (elapsed : ℕ → Act) (t u : Tid)
    (before after : ℕ) : List (Tid × Act) :=
  (t, call 0) :: List.replicate before (t, step) ++
    ((u, call 1) :: List.replicate before (u, step) ++
      (u, elapsed 3) :: List.replicate after (u, step)) ++
    (t, elapsed 5) :: (t, elapsed 5) :: List.replicate after (t, step)

abbrev twoNaive : Program Bool NaiveLock.Act (NaiveLock.Mem Bool) NaiveLock.Loc :=
  NaiveLock.machine { kLockCnt := 2, arraySize := 2, kLockCnt_pos := Nat.two_pos } Bool

abbrev twoDynamic : Program (Tid Bool) DynamicLock.Act (DynamicLock.Mem Bool) DynamicLock.Loc :=
  DynamicLock.machine DynamicLock.twoBlocks Bool

abbrev twoGenetic :
    Program (Tid Bool) GeneticLock.Act (GeneticLock.Mem Bool Unit) GeneticLock.Loc :=
  GeneticLock.machine GeneticLock.smallLock GeneticPartitioner.lowestDraws () Bool

def naiveOvertaken : List (Bool × NaiveLock.Act) :=
  overtaken (fun pos => .call (.writeQuery pos pos)) .step (.elapsed · false) false true 2 3

def dynamicOvertaken : List (Tid Bool × DynamicLock.Act) :=
  overtaken (fun pos => .call (.writeQuery pos pos)) .step (.elapsed · false) (.client false)
    (.client true) 7 4

def geneticOvertaken : List (Tid Bool × GeneticLock.Act) :=
  overtaken (fun pos => .call (.writeQuery pos pos)) .step (.elapsed · false) (.client false)
    (.client true) 7 4

theorem isSome_exec_overtaken :
    (twoNaive.exec naiveOvertaken twoNaive.initial).isSome ∧
      (twoDynamic.exec dynamicOvertaken twoDynamic.initial).isSome ∧
      (twoGenetic.exec geneticOvertaken twoGenetic.initial).isSome := by
  decide

/-- Each lock has measured its two calls. -/
theorem measured_once_overtaken :
    let naive := (twoNaive.exec naiveOvertaken twoNaive.initial).get isSome_exec_overtaken.1
    let dynamic := (twoDynamic.exec dynamicOvertaken twoDynamic.initial).get
      isSome_exec_overtaken.2.1
    let genetic := (twoGenetic.exec geneticOvertaken twoGenetic.initial).get
      isSome_exec_overtaken.2.2
    Measured [false, true] [(true, 3), (false, 5)] naive.mem.operationCount
        naive.mem.totalLockTime ∧
      Measured [Tid.client false, .client true] [(.client true, 3), (.client false, 5)]
        dynamic.mem.operationCount dynamic.mem.totalLockTime ∧
      Measured [Tid.client false, .client true] [(.client true, 3), (.client false, 5)]
        genetic.mem.operationCount genetic.mem.totalLockTime := by
  intro naive dynamic genetic
  obtain ⟨hnaive, hdynamic, hgenetic⟩ := measured_once
  have hclients : ∀ {p : Tid Bool → Prop}, p .background → p (.client false) → p (.client true) →
      ∀ t, p t := fun hbackground hfalse htrue =>
    Tid.forall_iff.mpr ⟨hbackground, Bool.forall_bool.mpr ⟨hfalse, htrue⟩⟩
  exact ⟨hnaive _ _ twoNaive.initial.mem twoNaive.initial.loc naiveOvertaken naive
      (Option.some_get isSome_exec_overtaken.1).symm (fun _ => rfl)
      (Bool.forall_bool.mpr ⟨rfl, rfl⟩),
    hdynamic _ _ twoDynamic.initial.mem twoDynamic.initial.loc dynamicOvertaken dynamic
      (Option.some_get isSome_exec_overtaken.2.1).symm (fun _ => rfl) (hclients rfl rfl rfl),
    hgenetic _ _ _ _ twoGenetic.initial.mem twoGenetic.initial.loc geneticOvertaken genetic
      (Option.some_get isSome_exec_overtaken.2.2).symm (fun _ => rfl) (hclients rfl rfl rfl)⟩

end DynLocks
