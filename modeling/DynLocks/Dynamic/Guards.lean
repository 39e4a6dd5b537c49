import DynLocks.Dynamic.LockOrder
import DynLocks.Lib.MutexImpl

/-!
# DynLocks.Dynamic.Guards

Where a `DynamicLock` locks and unlocks its mutexes, the range mutexes and the two
others (`guards`).
-/

namespace DynLocks
namespace DynamicLock

open Interleaving

/-- The mutex that the next step of a thread unlocks. -/
def Loc.gives : Loc → Option Mutex
  | .query _ _ (.retry lockStart held) => some (.range (lockStart + (held - 1)))
  | .query _ _ (.release lockStart held) => some (.range (lockStart + (held - 1)))
  | .rebuild _ _ (.keep .unlockStats) => some .stats
  | .rebuild _ _ (.keep .unlockPartitions) => some .partitions
  | .rebuild _ _ .unlockGain => some .partitions
  | .rebuild _ _ (.publish .unlockStats) => some .stats
  | .rebuild _ _ (.publish .unlockPartitions) => some .partitions
  | .rebuild _ _ (.unlockAll held) => some (.range (held - 1))
  | .rebuilder _ _ (.should _ (.unlockStats _)) => some .stats
  | .forceUnlock => some .stats
  | .count _ _ (.unlockPartitions _ _) => some .partitions
  | .cutsUnlock _ => some .partitions
  | _ => none

variable {Client : Type} {cfg : Config} {t : Tid Client} {a : Act} {m m' : Mem Client} {l l' : Loc}

/-- A mutex without its holder. -/
def Mem.free (m : Mem Client) : Mutex → Mem Client
  | .range i => m.unlock i
  | .partitions => { m with partitionsMutex := none }
  | .stats => { m with statsMutex := none }

/-! ## the holders after an assignment -/

/-- Locking a range mutex records its holder. -/
theorem Mem.owner_lock [DecidableEq Client] (m : Mem Client) (i : ℕ) (t : Tid Client) :
    (m.lock i t).owner = Function.update m.owner (.range i) (some t) := by
  funext x
  cases x with
  | range j => simp [Mem.owner, Mem.lock, Function.update_apply]
  | partitions => rfl
  | stats => rfl

/-- Unlocking it forgets the holder. -/
theorem Mem.owner_unlock (m : Mem Client) (i : ℕ) :
    (m.unlock i).owner = Function.update m.owner (.range i) none := by
  funext x
  cases x with
  | range j => simp [Mem.owner, Mem.unlock, Function.update_apply]
  | partitions => rfl
  | stats => rfl

/-- A write to `partitions_mutex_` changes its holder alone. -/
theorem Mem.owner_partitions (m : Mem Client) (own : Option (Tid Client)) :
    Mem.owner { m with partitionsMutex := own } = Function.update m.owner .partitions own := by
  funext x
  cases x <;> rfl

/-- A write to `stats_mutex_` changes its holder alone. -/
theorem Mem.owner_stats (m : Mem Client) (own : Option (Tid Client)) :
    Mem.owner { m with statsMutex := own } = Function.update m.owner .stats own := by
  funext x
  cases x <;> rfl

/-- The holders depend on nothing but the mutexes. -/
theorem Mem.owner_congr (hlocks : m'.locks = m.locks)
    (hmutexes : m'.partitionsMutex = m.partitionsMutex ∧ m'.statsMutex = m.statsMutex) :
    m'.owner = m.owner := by
  funext x
  cases x with
  | range i => exact congrFun hlocks i
  | partitions => exact hmutexes.1
  | stats => exact hmutexes.2

/-! ## one step -/

/-- `ResetCollectedStatsUnlocked` leaves the range mutexes alone. -/
theorem locks_resetStep (stats : ℕ → UInt64) (m : Mem Client) (pc : ResetPc) :
    (resetStep cfg stats m pc).1.locks = m.locks := by
  cases pc <;> rfl

/-- `ResetCollectedStatsUnlocked` locks and unlocks nothing. -/
theorem owner_resetStep (stats : ℕ → UInt64) (m : Mem Client) (pc : ResetPc) :
    (resetStep cfg stats m pc).1.owner = m.owner :=
  Mem.owner_congr (locks_resetStep stats m pc) (mutexes_resetStep cfg stats m pc)

/-- A rebuild that keeps the partition locks `stats_mutex_` and unlocks it. -/
theorem owner_keepStep {caller : Caller} {snapshot : Counters UInt64} {pc : KeepPc} {r : RebuildPc}
    (h : keepStep cfg t snapshot.stats m pc = some (m', r)) :
    m'.owner = nextOwner t (Loc.rebuild caller snapshot (.keep pc)).wants
      (Loc.rebuild caller snapshot (.keep pc)).gives m.owner := by
  cases pc with
  | lockStats =>
      simp only [keepStep] at h
      split at h
      · cases h; exact Mem.owner_stats m (some t)
      · contradiction
  | reset pc => cases h; exact owner_resetStep snapshot.stats m pc
  | clearFlag => cases h; rfl
  | unlockStats => cases h; exact Mem.owner_stats m none
  | unlockPartitions => cases h; exact Mem.owner_partitions m none

/-- A publication locks both mutexes and unlocks them. -/
theorem owner_publishStep {caller : Caller} {snapshot : Counters UInt64} {pc : PublishPc}
    {r : RebuildPc} (h : publishStep cfg t snapshot m pc = some (m', r)) :
    m'.owner = nextOwner t (Loc.rebuild caller snapshot (.publish pc)).wants
      (Loc.rebuild caller snapshot (.publish pc)).gives m.owner := by
  cases pc with
  | lockPartitions =>
      simp only [publishStep] at h
      split at h
      · cases h; exact Mem.owner_partitions m (some t)
      · contradiction
  | lockStats =>
      simp only [publishStep] at h
      split at h
      · cases h; exact Mem.owner_stats m (some t)
      · contradiction
  | reset pc => cases h; exact owner_resetStep snapshot.stats m pc
  | unlockStats => cases h; exact Mem.owner_stats m none
  | unlockPartitions => cases h; exact Mem.owner_partitions m none
  | _ => cases h; rfl

/-- Each step of `RebuildPartitions` locks or unlocks the mutex it names, or none. -/
theorem owner_rebuildStep [DecidableEq Client] {caller : Caller}
    {snapshot snapshot' : Counters UInt64} {pc pc' : RebuildPc}
    (h : rebuildStep cfg t m snapshot pc = some (m', snapshot', pc')) :
    m'.owner = nextOwner t (Loc.rebuild caller snapshot pc).wants
      (Loc.rebuild caller snapshot pc).gives m.owner := by
  cases pc with
  | gainLock =>
      simp only [rebuildStep] at h
      split at h
      · cases h; exact Mem.owner_partitions m (some t)
      · contradiction
  | keep pc =>
      simp only [rebuildStep, Option.map_eq_some_iff, Prod.mk.injEq] at h
      obtain ⟨⟨m'', r⟩, hstep, rfl, -, -⟩ := h
      exact owner_keepStep hstep
  | unlockGain => cases h; exact Mem.owner_partitions m none
  | lockAll next =>
      simp only [rebuildStep] at h
      split at h
      · cases h; exact Mem.owner_lock m next t
      · contradiction
  | publish pc =>
      simp only [rebuildStep, Option.map_eq_some_iff, Prod.mk.injEq] at h
      obtain ⟨⟨m'', r⟩, hstep, rfl, -, -⟩ := h
      exact owner_publishStep hstep
  | unlockAll count => cases h; exact Mem.owner_unlock m (count - 1)
  | ret result => contradiction
  | _ => cases h; rfl

/-- In a round of the background thread only `ShouldRebuild` locks. -/
theorem owner_rebuilderStep {interval : ℕ} {changeThreshold : ℚ} {pc : RebuilderPc}
    (h : rebuilderStep cfg t m interval changeThreshold pc = some (m', l')) :
    m'.owner = nextOwner t (Loc.rebuilder interval changeThreshold pc).wants
      (Loc.rebuilder interval changeThreshold pc).gives m.owner := by
  cases pc with
  | should snapshot pc =>
      simp only [rebuilderStep, Option.map_eq_some_iff, Prod.mk.injEq] at h
      obtain ⟨⟨m'', snapshot', r⟩, hstep, rfl, -⟩ := h
      cases pc with
      | lockStats =>
          simp only [shouldStep] at hstep
          split at hstep
          · cases hstep; exact Mem.owner_stats m (some t)
          · contradiction
      | snapStats i => cases hstep; rfl
      | decide =>
          simp only [shouldStep] at hstep
          split at hstep
          · cases hstep; rfl
          · split at hstep
            · cases hstep; rfl
            · split at hstep <;>
              · cases hstep
                rfl
      | reset pc => cases hstep; exact owner_resetStep snapshot.stats m pc
      | unlockStats result => cases hstep; exact Mem.owner_stats m none
  | _ => cases h; rfl

/-- `CountLocksForRange` locks `partitions_mutex_` and unlocks it. -/
theorem owner_countStep {left right : ℕ} {pc : CountPc}
    (h : countStep cfg t m left right pc = some (m', l')) :
    m'.owner = nextOwner t (Loc.count left right pc).wants (Loc.count left right pc).gives
      m.owner := by
  cases pc with
  | lockPartitions =>
      simp only [countStep] at h
      split at h
      · cases h; exact Mem.owner_partitions m (some t)
      · contradiction
  | unlockPartitions lockStart lockEnd => cases h; exact Mem.owner_partitions m none
  | _ => cases h; rfl

/-- No call locks in its first step. -/
theorem owner_enter {c : Call} (h : enter cfg m c = some (m', l')) : m'.owner = m.owner := by
  cases c with
  | writeQuery left right => simp only [enter] at h; split at h <;> (cases h; rfl)
  | countLocksForRange left right => simp only [enter] at h; split at h <;> (cases h; rfl)
  | startRebuilder interval changeThreshold => simp only [enter] at h; split at h <;> (cases h; rfl)
  | _ => cases h; rfl

/-- `StartRebuilder` locks nothing. -/
theorem owner_startStep {interval : ℕ} {changeThreshold : ℚ} {stage : Fin 4}
    (h : startStep m interval changeThreshold stage = some (m', l')) : m'.owner = m.owner := by
  match stage with
  | 0 => cases h; rfl
  | 1 => cases h; rfl
  | 2 => cases h; rfl
  | 3 =>
      simp only [startStep] at h
      split at h
      · cases h; rfl
      · contradiction

/-- `StopRebuilder` locks nothing. -/
theorem owner_stopStep {stage : Fin 4} (h : stopStep m stage = some (m', l')) :
    m'.owner = m.owner := by
  match stage with
  | 0 => cases h; rfl
  | 2 => cases h; rfl
  | 3 => cases h; rfl
  | 1 =>
      simp only [stopStep] at h
      split at h
      · cases h; rfl
      · split at h
        · cases h; rfl
        · contradiction

variable [DecidableEq Client]

/-- Under its mutexes a query locks no other. -/
theorem owner_insideStep {left right : ℕ} {pc : InsidePc} {r : Option InsidePc}
    (h : insideStep cfg t a m left right pc = some (m', r)) : m'.owner = m.owner := by
  cases pc with
  | durationCas current =>
      cases a with
      | elapsed delta spurious => simp only [insideStep] at h; split at h <;> (cases h; rfl)
      | _ => contradiction
  | sampleLoad =>
      simp only [insideStep] at h
      split at h
      · cases h; rfl
      · split at h <;> (cases h; rfl)
  | _ => cases h; rfl

/-- A query locks and unlocks one range mutex a step. -/
theorem owner_queryStep {left right : ℕ} {pc : QueryPc} {r : Option QueryPc}
    (h : queryStep cfg t a m left right pc = some (m', r)) :
    m'.owner = nextOwner t (Loc.query left right pc).wants (Loc.query left right pc).gives
      m.owner := by
  cases pc with
  | acquire epoch lockStart lockEnd index =>
      simp only [queryStep] at h
      split at h
      · cases h; exact Mem.owner_lock m index t
      · contradiction
  | retry lockStart count => cases h; exact Mem.owner_unlock m _
  | inside lockStart lockEnd pc =>
      simp only [queryStep, Option.map_eq_some_iff, Prod.mk.injEq] at h
      obtain ⟨⟨m'', pc'⟩, hstep, rfl, -⟩ := h
      exact owner_insideStep hstep
  | release lockStart count => cases h; exact Mem.owner_unlock m _
  | _ => cases h; rfl

/-- **Step lemma**: a step locks what the thread wants, unlocks what it gives, and leaves the other
mutexes alone. -/
theorem owner_advance (h : advance cfg t a m l = some (m', l')) :
    m'.owner = nextOwner t l.wants l.gives m.owner := by
  cases l with
  | idle =>
      cases t with
      | client c =>
          cases a with
          | call call => exact owner_enter h
          | _ => contradiction
      | background =>
          cases a with
          | step =>
              simp only [advance] at h
              split at h
              · cases h; rfl
              · contradiction
          | _ => contradiction
  | query left right pc =>
      simp only [advance, Option.map_eq_some_iff, Prod.mk.injEq] at h
      obtain ⟨⟨m'', r⟩, hstep, rfl, -⟩ := h
      exact owner_queryStep hstep
  | rebuild caller snapshot pc =>
      rcases advance_rebuild cfg h with ⟨result, rfl, rfl, -⟩ | ⟨snapshot', pc', hstep, -⟩
      · rfl
      · exact owner_rebuildStep hstep
  | rebuilder interval changeThreshold pc => exact owner_rebuilderStep h
  | start interval changeThreshold stage => exact owner_startStep h
  | stop stage => exact owner_stopStep h
  | forceLock =>
      simp only [advance] at h
      split at h
      · cases h; exact Mem.owner_stats m (some t)
      · contradiction
  | forceUnlock => cases h; exact Mem.owner_stats m none
  | count left right pc => exact owner_countStep h
  | cutsLock =>
      simp only [advance] at h
      split at h
      · cases h; exact Mem.owner_partitions m (some t)
      · contradiction
  | cutsUnlock cuts => cases h; exact Mem.owner_partitions m none
  | _ => cases h; rfl

/-- Behind the step that locks a mutex the thread is somewhere else. -/
theorem ne_of_wants {x : Mutex} (hl : l.wants = some x) (h : advance cfg t a m l = some (m', l')) :
    l' ≠ l := by
  cases l with
  | query left right pc =>
      cases pc with
      | acquire epoch lockStart lockEnd index =>
          simp only [advance, queryStep] at h
          split at h
          · cases h
            dsimp only [afterQuery]
            split <;> simp
          · contradiction
      | _ => contradiction
  | rebuild caller snapshot pc =>
      rcases advance_rebuild cfg h with ⟨result, rfl, -, -⟩ | ⟨snapshot', pc', hstep, rfl⟩
      · contradiction
      · suffices hne : pc' ≠ pc from fun heq => hne (Loc.rebuild.inj heq).2.2
        cases pc with
        | gainLock =>
            simp only [rebuildStep] at hstep
            split at hstep
            · cases hstep; exact RebuildPc.noConfusion
            · contradiction
        | keep pc =>
            cases pc with
            | lockStats =>
                simp only [rebuildStep, keepStep] at hstep
                split at hstep
                · cases hstep; exact fun heq => by cases heq
                · contradiction
            | _ => contradiction
        | lockAll next =>
            simp only [rebuildStep] at hstep
            split at hstep
            · cases hstep
              split <;> simp
            · contradiction
        | publish pc =>
            cases pc with
            | lockPartitions =>
                simp only [rebuildStep, publishStep] at hstep
                split at hstep
                · cases hstep; exact fun heq => by cases heq
                · contradiction
            | lockStats =>
                simp only [rebuildStep, publishStep] at hstep
                split at hstep
                · cases hstep; exact fun heq => by cases heq
                · contradiction
            | _ => contradiction
        | _ => contradiction
  | rebuilder interval changeThreshold pc =>
      cases pc with
      | should snapshot pc =>
          cases pc with
          | lockStats =>
              simp only [advance, rebuilderStep, shouldStep] at h
              split at h
              · cases h; exact fun heq => by cases heq
              · contradiction
          | _ => contradiction
      | _ => contradiction
  | forceLock =>
      simp only [advance] at h
      split at h
      · cases h; exact Loc.noConfusion
      · contradiction
  | count left right pc =>
      cases pc with
      | lockPartitions =>
          simp only [advance, countStep] at h
          split at h
          · cases h; exact fun heq => by cases heq
          · contradiction
      | _ => contradiction
  | cutsLock =>
      simp only [advance] at h
      split at h
      · cases h; exact Loc.noConfusion
      · contradiction
  | _ => contradiction

/-- The mutexes of a `DynamicLock`. -/
def guards (cfg : Config) (Client : Type) [DecidableEq Client] :
    Guards (machine cfg Client) Mutex where
  owner := Mem.owner
  free := Mem.free
  wants := Loc.wants
  gives := Loc.gives
  init x := by cases x <;> rfl
  free_eq {m x} h := by
    cases x with
    | range i =>
        have hfree : m.locks i = none := h
        rw [Mem.free, Mem.unlock, ← hfree, Function.update_eq_self]
    | partitions =>
        have hfree : m.partitionsMutex = none := h
        rw [Mem.free, ← hfree]
    | stats =>
        have hfree : m.statsMutex = none := h
        rw [Mem.free, ← hfree]
  lock {t a m l m' l' x} hl h := by
    refine ⟨?_, ne_of_wants hl h⟩
    by_contra hheld
    have hnone : advance cfg t a m l = none := advance_eq_none_of_held hl hheld
    exact Option.some_ne_none _ (h.symm.trans hnone)
  step := owner_advance

end DynamicLock
end DynLocks
