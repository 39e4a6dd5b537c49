import DynLocks.Dynamic.Exclusion

/-!
# DynLocks.Dynamic.Mutexes

Which mutexes a thread of a `DynamicLock` holds at each program counter.  The
range mutexes are those of the protocol (`Safe`); for `partitions_mutex_` and
`stats_mutex_` every step takes a mutex that is free, gives back one the thread
holds, or leaves it alone (`advance_guards`).
-/

namespace DynLocks
namespace DynamicLock

open Interleaving EpochTable

variable {Client : Type} (cfg : Config)

/-! ## what is held where -/

/-- The mutexes of a `DynamicLock`. -/
inductive Mutex
  | range (i : ℕ)
  | partitions
  | stats
  deriving DecidableEq

/-- The recorded holder of a mutex. -/
def Mem.owner (m : Mem Client) : Mutex → Option (Tid Client)
  | .range i => m.locks i
  | .partitions => m.partitionsMutex
  | .stats => m.statsMutex

/-- Inside the scope of `partitions_mutex_` in `RebuildPartitions`. -/
def RebuildPc.HoldsPartitions : RebuildPc → Prop
  | .gainTest => True
  | .keep _ => True
  | .unlockGain => True
  | .publish .lockPartitions => False
  | .publish .clearFlag => False
  | .publish .clearPause => False
  | .publish _ => True
  | _ => False

/-- Inside the scope of `stats_mutex_` in `RebuildPartitions`. -/
def RebuildPc.HoldsStats : RebuildPc → Prop
  | .keep (.reset _) => True
  | .keep .clearFlag => True
  | .keep .unlockStats => True
  | .publish .assign => True
  | .publish .epochOpen => True
  | .publish (.refresh _ _) => True
  | .publish .epochClose => True
  | .publish (.reset _) => True
  | .publish .unlockStats => True
  | _ => False

def ShouldPc.HoldsStats : ShouldPc → Prop
  | .lockStats => False
  | _ => True

def CountPc.HoldsPartitions : CountPc → Prop
  | .lockPartitions => False
  | _ => True

def Loc.HoldsPartitions : Loc → Prop
  | .rebuild _ _ pc => pc.HoldsPartitions
  | .count _ _ pc => pc.HoldsPartitions
  | .cutsCopy => True
  | .cutsUnlock _ => True
  | _ => False

def Loc.HoldsStats : Loc → Prop
  | .rebuild _ _ pc => pc.HoldsStats
  | .rebuilder _ _ (.should _ pc) => pc.HoldsStats
  | .forceStats _ => True
  | .forceCrossings _ => True
  | .forceUnlock => True
  | _ => False

/-- The thread holds the mutex. -/
def Loc.Holds (l : Loc) : Mutex → Prop
  | .range i => (l.phase cfg).Holds (layout cfg) i
  | .partitions => l.HoldsPartitions
  | .stats => l.HoldsStats

/-! ## every step takes a free mutex or gives back a held one -/

/-- What one step does to the two mutexes. -/
structure GuardMove (t : Tid Client) (m : Mem Client) (l : Loc) (m' : Mem Client) (l' : Loc) :
    Prop where
  partitions : LockMove t m.partitionsMutex l.HoldsPartitions m'.partitionsMutex l'.HoldsPartitions
  stats : LockMove t m.statsMutex l.HoldsStats m'.statsMutex l'.HoldsStats

/-- A step that touches neither. -/
theorem GuardMove.of_eq {t : Tid Client} {m m' : Mem Client} {l l' : Loc}
    (hpartitions : m'.partitionsMutex = m.partitionsMutex) (hstats : m'.statsMutex = m.statsMutex)
    (hlp : l'.HoldsPartitions ↔ l.HoldsPartitions) (hls : l'.HoldsStats ↔ l.HoldsStats) :
    GuardMove t m l m' l' where
  partitions := by rw [hpartitions]; exact .keep hlp
  stats := by rw [hstats]; exact .keep hls

section Steps

variable {t : Tid Client} {m m' : Mem Client}

/-- `ResetCollectedStatsUnlocked` runs inside the scopes of its callers. -/
theorem mutexes_resetStep (stats : ℕ → UInt64) (m : Mem Client) (pc : ResetPc) :
    (resetStep cfg stats m pc).1.partitionsMutex = m.partitionsMutex ∧
      (resetStep cfg stats m pc).1.statsMutex = m.statsMutex := by
  cases pc <;> exact ⟨rfl, rfl⟩

/-- A rebuild that keeps the partition takes `stats_mutex_` and gives it back. -/
theorem guardMove_keepStep {caller : Caller} {snapshot : Counters UInt64} {pc : KeepPc}
    {r : RebuildPc} (h : keepStep cfg t snapshot.stats m pc = some (m', r)) :
    GuardMove t m (.rebuild caller snapshot (.keep pc)) m' (.rebuild caller snapshot r) := by
  cases pc with
  | lockStats =>
      simp only [keepStep] at h
      split at h
      · next hfree => cases h; exact ⟨.keep Iff.rfl, .take_of_free hfree trivial⟩
      · contradiction
  | reset pc =>
      cases h
      obtain ⟨hpartitions, hstats⟩ := mutexes_resetStep cfg snapshot.stats m pc
      exact .of_eq hpartitions hstats (by split <;> exact Iff.rfl) (by split <;> exact Iff.rfl)
  | clearFlag => cases h; exact .of_eq rfl rfl Iff.rfl Iff.rfl
  | unlockStats => cases h; exact ⟨.keep Iff.rfl, .give trivial id⟩
  | unlockPartitions => cases h; exact ⟨.give trivial id, .keep Iff.rfl⟩

/-- A publication takes `partitions_mutex_` and `stats_mutex_` and gives them back. -/
theorem guardMove_publishStep {caller : Caller} {snapshot : Counters UInt64} {pc : PublishPc}
    {r : RebuildPc} (h : publishStep cfg t snapshot m pc = some (m', r)) :
    GuardMove t m (.rebuild caller snapshot (.publish pc)) m' (.rebuild caller snapshot r) := by
  cases pc with
  | lockPartitions =>
      simp only [publishStep] at h
      split at h
      · next hfree => cases h; exact ⟨.take_of_free hfree trivial, .keep Iff.rfl⟩
      · contradiction
  | lockStats =>
      simp only [publishStep] at h
      split at h
      · next hfree => cases h; exact ⟨.keep Iff.rfl, .take_of_free hfree trivial⟩
      · contradiction
  | refresh block lockIndex =>
      cases h
      exact .of_eq rfl rfl (by split <;> exact Iff.rfl) (by split <;> exact Iff.rfl)
  | reset pc =>
      cases h
      obtain ⟨hpartitions, hstats⟩ := mutexes_resetStep cfg snapshot.stats m pc
      exact .of_eq hpartitions hstats (by split <;> exact Iff.rfl) (by split <;> exact Iff.rfl)
  | unlockStats => cases h; exact ⟨.keep Iff.rfl, .give trivial id⟩
  | unlockPartitions => cases h; exact ⟨.give trivial id, .keep Iff.rfl⟩
  | _ => cases h; exact .of_eq rfl rfl Iff.rfl Iff.rfl

/-- So does `RebuildPartitions`, which reads the cuts under `partitions_mutex_`. -/
theorem guardMove_rebuildStep [DecidableEq Client] {caller : Caller}
    {snapshot snapshot' : Counters UInt64} {pc pc' : RebuildPc}
    (h : rebuildStep cfg t m snapshot pc = some (m', snapshot', pc')) :
    GuardMove t m (.rebuild caller snapshot pc) m' (.rebuild caller snapshot' pc') := by
  cases pc with
  | gainLock =>
      simp only [rebuildStep] at h
      split at h
      · next hfree => cases h; exact ⟨.take_of_free hfree trivial, .keep Iff.rfl⟩
      · contradiction
  | gainTest => cases h; exact .of_eq rfl rfl (by split <;> exact Iff.rfl) (by split <;> exact Iff.rfl)
  | keep pc =>
      simp only [rebuildStep, Option.map_eq_some_iff, Prod.mk.injEq] at h
      obtain ⟨⟨m'', r⟩, hstep, rfl, rfl, rfl⟩ := h
      exact guardMove_keepStep cfg hstep
  | unlockGain => cases h; exact ⟨.give trivial id, .keep Iff.rfl⟩
  | lockAll next =>
      simp only [rebuildStep] at h
      split at h
      · cases h; exact .of_eq rfl rfl (by split <;> exact Iff.rfl) (by split <;> exact Iff.rfl)
      · contradiction
  | publish pc =>
      simp only [rebuildStep, Option.map_eq_some_iff, Prod.mk.injEq] at h
      obtain ⟨⟨m'', r⟩, hstep, rfl, rfl, rfl⟩ := h
      exact guardMove_publishStep cfg hstep
  | pauseStore => cases h; exact .of_eq rfl rfl Iff.rfl Iff.rfl
  | ret result => contradiction
  | _ => cases h; exact .of_eq rfl rfl (by split <;> exact Iff.rfl) (by split <;> exact Iff.rfl)

/-- The background thread takes `stats_mutex_` in `ShouldRebuild`. -/
theorem guardMove_rebuilderStep {interval : ℕ} {changeThreshold : ℚ} {pc : RebuilderPc} {l' : Loc}
    (h : rebuilderStep cfg t m interval changeThreshold pc = some (m', l')) :
    GuardMove t m (.rebuilder interval changeThreshold pc) m' l' := by
  cases pc with
  | outerLoad => cases h; exact .of_eq rfl rfl Iff.rfl (by split <;> exact Iff.rfl)
  | innerLoad slept => cases h; exact .of_eq rfl rfl Iff.rfl (by split <;> exact Iff.rfl)
  | stopLoad => cases h; exact .of_eq rfl rfl Iff.rfl (by split <;> exact Iff.rfl)
  | exit => cases h; exact .of_eq rfl rfl Iff.rfl Iff.rfl
  | should snapshot pc =>
      simp only [rebuilderStep, Option.map_eq_some_iff, Prod.mk.injEq] at h
      obtain ⟨⟨m'', snapshot', r⟩, hstep, rfl, rfl⟩ := h
      cases pc with
      | lockStats =>
          simp only [shouldStep] at hstep
          split at hstep
          · next hfree => cases hstep; exact ⟨.keep Iff.rfl, .take_of_free hfree trivial⟩
          · contradiction
      | snapStats i =>
          cases hstep
          exact .of_eq rfl rfl Iff.rfl (by dsimp only; split <;> exact Iff.rfl)
      | decide =>
          simp only [shouldStep] at hstep
          split at hstep
          · cases hstep; exact .of_eq rfl rfl Iff.rfl Iff.rfl
          · split at hstep
            · cases hstep; exact .of_eq rfl rfl Iff.rfl Iff.rfl
            · split at hstep
              · cases hstep; exact .of_eq rfl rfl Iff.rfl Iff.rfl
              · cases hstep; exact .of_eq rfl rfl Iff.rfl Iff.rfl
      | reset pc =>
          cases hstep
          obtain ⟨hpartitions, hstats⟩ := mutexes_resetStep cfg snapshot.stats m pc
          refine .of_eq hpartitions hstats Iff.rfl ?_
          dsimp only [Loc.HoldsStats]
          split <;> exact Iff.rfl
      | unlockStats result =>
          cases hstep
          cases result <;> exact ⟨.keep Iff.rfl, .give trivial id⟩

/-- `CountLocksForRange` takes `partitions_mutex_` and gives it back. -/
theorem guardMove_countStep {left right : ℕ} {pc : CountPc} {l' : Loc}
    (h : countStep cfg t m left right pc = some (m', l')) :
    GuardMove t m (.count left right pc) m' l' := by
  cases pc with
  | lockPartitions =>
      simp only [countStep] at h
      split at h
      · next hfree => cases h; exact ⟨.take_of_free hfree trivial, .keep Iff.rfl⟩
      · contradiction
  | unlockPartitions lockStart lockEnd => cases h; exact ⟨.give trivial id, .keep Iff.rfl⟩
  | _ => cases h; exact .of_eq rfl rfl Iff.rfl Iff.rfl

/-- No call takes one of the two in its first step. -/
theorem guardMove_enter {c : Call} {l' : Loc} (h : enter cfg m c = some (m', l')) :
    GuardMove t m .idle m' l' := by
  cases c with
  | writeQuery left right =>
      simp only [enter] at h
      split at h <;>
      · cases h
        exact .of_eq rfl rfl Iff.rfl Iff.rfl
  | countLocksForRange left right =>
      simp only [enter] at h
      split at h <;>
      · cases h
        exact .of_eq rfl rfl Iff.rfl Iff.rfl
  | startRebuilder interval changeThreshold =>
      simp only [enter] at h
      split at h <;>
      · cases h
        exact .of_eq rfl rfl Iff.rfl Iff.rfl
  | _ => cases h; exact .of_eq rfl rfl Iff.rfl Iff.rfl

/-- `StartRebuilder` takes neither. -/
theorem guardMove_startStep {interval : ℕ} {changeThreshold : ℚ} {stage : Fin 4} {l' : Loc}
    (h : startStep m interval changeThreshold stage = some (m', l')) :
    GuardMove t m (.start interval changeThreshold stage) m' l' := by
  match stage with
  | 0 => cases h; exact .of_eq rfl rfl Iff.rfl Iff.rfl
  | 1 => cases h; exact .of_eq rfl rfl Iff.rfl Iff.rfl
  | 2 => cases h; exact .of_eq rfl rfl Iff.rfl Iff.rfl
  | 3 =>
      simp only [startStep] at h
      split at h
      · cases h; exact .of_eq rfl rfl Iff.rfl Iff.rfl
      · contradiction

/-- `StopRebuilder` takes neither. -/
theorem guardMove_stopStep {stage : Fin 4} {l' : Loc} (h : stopStep m stage = some (m', l')) :
    GuardMove t m (.stop stage) m' l' := by
  match stage with
  | 0 => cases h; exact .of_eq rfl rfl Iff.rfl Iff.rfl
  | 2 => cases h; exact .of_eq rfl rfl Iff.rfl Iff.rfl
  | 3 => cases h; exact .of_eq rfl rfl Iff.rfl Iff.rfl
  | 1 =>
      simp only [stopStep] at h
      split at h
      · cases h; exact .of_eq rfl rfl Iff.rfl Iff.rfl
      · split at h
        · cases h; exact .of_eq rfl rfl Iff.rfl Iff.rfl
        · contradiction

variable [DecidableEq Client] {a : Act}

/-- A query takes neither. -/
theorem mutexes_queryStep {left right : ℕ} {pc : QueryPc} {r : Option QueryPc}
    (h : queryStep cfg t a m left right pc = some (m', r)) :
    m'.partitionsMutex = m.partitionsMutex ∧ m'.statsMutex = m.statsMutex := by
  cases pc with
  | acquire epoch lockStart lockEnd index =>
      simp only [queryStep] at h
      split at h
      · cases h; exact ⟨rfl, rfl⟩
      · contradiction
  | inside lockStart lockEnd pc =>
      simp only [queryStep, Option.map_eq_some_iff, Prod.mk.injEq] at h
      obtain ⟨⟨m'', pc'⟩, hstep, rfl, -⟩ := h
      cases pc with
      | durationCas current =>
          cases a with
          | elapsed delta spurious =>
              simp only [insideStep] at hstep
              split at hstep <;>
              · cases hstep
                exact ⟨rfl, rfl⟩
          | _ => contradiction
      | sampleLoad =>
          simp only [insideStep] at hstep
          split at hstep
          · cases hstep; exact ⟨rfl, rfl⟩
          · split at hstep <;>
            · cases hstep
              exact ⟨rfl, rfl⟩
      | _ => cases hstep; exact ⟨rfl, rfl⟩
  | _ => cases h; exact ⟨rfl, rfl⟩

/-- Every step takes a mutex that is free, gives back one the thread holds, or leaves it alone. -/
theorem advance_guards {l l' : Loc} (h : advance cfg t a m l = some (m', l')) :
    GuardMove t m l m' l' := by
  cases l with
  | idle =>
      cases t with
      | client c =>
          cases a with
          | call call => exact guardMove_enter cfg h
          | _ => contradiction
      | background =>
          cases a with
          | step =>
              simp only [advance] at h
              split at h
              · cases h; exact .of_eq rfl rfl Iff.rfl Iff.rfl
              · contradiction
          | _ => contradiction
  | query left right pc =>
      simp only [advance, Option.map_eq_some_iff, Prod.mk.injEq] at h
      obtain ⟨⟨m'', r⟩, hstep, rfl, rfl⟩ := h
      obtain ⟨hpartitions, hstats⟩ := mutexes_queryStep cfg hstep
      exact .of_eq hpartitions hstats (by cases r <;> exact Iff.rfl) (by cases r <;> exact Iff.rfl)
  | rebuild caller snapshot pc =>
      rcases advance_rebuild cfg h with ⟨result, rfl, rfl, rfl⟩ | ⟨snapshot', pc', hstep, rfl⟩
      · cases result <;> cases caller <;> exact .of_eq rfl rfl Iff.rfl Iff.rfl
      · exact guardMove_rebuildStep cfg hstep
  | countRebuild caller => cases h; cases caller <;> exact .of_eq rfl rfl Iff.rfl Iff.rfl
  | rebuildNow snapshot i =>
      simp only [advance] at h
      split at h
      · cases h; exact .of_eq rfl rfl Iff.rfl Iff.rfl
      · split at h <;>
        · cases h
          exact .of_eq rfl rfl Iff.rfl Iff.rfl
  | rebuilder interval changeThreshold pc => exact guardMove_rebuilderStep cfg h
  | start interval changeThreshold stage => exact guardMove_startStep h
  | stop stage => exact guardMove_stopStep h
  | forceLock =>
      simp only [advance] at h
      split at h
      · next hfree => cases h; exact ⟨.keep Iff.rfl, .take_of_free hfree trivial⟩
      · contradiction
  | forceCrossings i =>
      cases h
      exact .of_eq rfl rfl (by split <;> exact Iff.rfl) (by split <;> exact Iff.rfl)
  | forceUnlock => cases h; exact ⟨.keep Iff.rfl, .give trivial id⟩
  | count left right pc => exact guardMove_countStep cfg h
  | cutsLock =>
      simp only [advance] at h
      split at h
      · next hfree => cases h; exact ⟨.take_of_free hfree trivial, .keep Iff.rfl⟩
      · contradiction
  | cutsUnlock cuts => cases h; exact ⟨.give trivial id, .keep Iff.rfl⟩
  | _ => cases h; exact .of_eq rfl rfl Iff.rfl Iff.rfl

/-! ## in every reachable state -/

variable {cfg} {s : State (Tid Client) (Mem Client) Loc}

/-- A mutex is recorded as held by the one thread that holds it. -/
theorem owned_of_reachable (hs : (machine cfg Client).Reachable s) (x : Mutex) :
    Owned (s.mem.owner x) fun t => (s.loc t).Holds cfg x := by
  cases x with
  | range i => exact (safe_of_reachable hs).inv.owned i
  | partitions =>
      exact hs.owned Mem.partitionsMutex Loc.HoldsPartitions rfl (fun _ => id)
        fun _ _ _ _ _ _ h => (advance_guards cfg h).partitions
  | stats =>
      exact hs.owned Mem.statsMutex Loc.HoldsStats rfl (fun _ => id)
        fun _ _ _ _ _ _ h => (advance_guards cfg h).stats

end Steps

end DynamicLock
end DynLocks
