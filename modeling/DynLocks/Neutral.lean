import DynLocks.Dynamic.Unwinding
import DynLocks.Failure
import DynLocks.Genetic.Unwinding
import DynLocks.Naive.Unwinding

/-!
# DynLocks.Neutral

`WriteQuery` of the three locks gives back what it takes, by whatever way a call
ends and however often it starts again (`writeQuery_neutral`).
-/

namespace DynLocks

open Interleaving Attempts

/-- **Exceptions and retries**: a call of `WriteQuery` of a `NaiveLock`, a `DynamicLock` or a
`GeneticLock`, in a run in which every `lock()` and every `func` may throw and callers may handle
the exceptions, is neutral on the range mutexes: whenever its thread has returned, has been thrown
out, or spins in front of the first or of a further attempt. -/
theorem writeQuery_neutral :
    (∀ (cfg : NaiveLock.Config) {Client : Type} [DecidableEq Client]
        (r : Program.Run (NaiveLock.throwing cfg Client)) (t : Client) (a n left right : ℕ),
      r.Calling t a n (.run .idle) (NaiveLock.enterQuery cfg left right)
          (fun l => l.inOperation NaiveLock.Loc.isIdle) →
        Neutral (r.log (NaiveLock.queryEvents cfg) t a n)
          (fun i => (r.states n).mem.locks i = some t)
          ((r.states n).loc t = .run .idle ∨ (r.states n).loc t = .thrown)
          ((r.states n).loc t = .run .idle ∧ 1 ≤ cfg.arraySize)) ∧
    (∀ (cfg : DynamicLock.Config) {Client : Type} [DecidableEq Client]
        (r : Program.Run (DynamicLock.throwing cfg Client)) (t : Tid Client) (a n left right : ℕ),
      r.Calling t a n (.run .idle) (DynamicLock.enterQuery cfg left right)
          (fun l => l.inOperation DynamicLock.Loc.isIdle) →
        Neutral (r.log DynamicLock.queryEvents t a n) (fun i => (r.states n).mem.locks i = some t)
          ((r.states n).loc t = .run .idle ∨ (r.states n).loc t = .thrown ∨
            ∃ l, (r.states n).loc t = .run l ∧ l.Spins)
          ((r.states n).loc t = .run .idle ∧ 1 ≤ cfg.arraySize)) ∧
    (∀ (cfg : GeneticLock.Config) {G : Type} (std : GeneticPartitioner.StdLib G) (seed : G)
        {Client : Type} [DecidableEq Client]
        (r : Program.Run (GeneticLock.throwing cfg std seed Client)) (t : Tid Client)
        (a n left right : ℕ),
      r.Calling t a n (.run .idle) (GeneticLock.enterQuery cfg left right)
          (fun l => l.inOperation GeneticLock.Loc.isIdle) →
        Neutral (r.log GeneticLock.queryEvents t a n) (fun i => (r.states n).mem.locks i = some t)
          ((r.states n).loc t = .run .idle ∨ (r.states n).loc t = .thrown ∨
            ∃ l, (r.states n).loc t = .run l ∧ l.Spins)
          ((r.states n).loc t = .run .idle ∧ 1 ≤ cfg.arraySize)) := by
  refine ⟨?_, ?_, ?_⟩
  · intro cfg Client _ r t a n left right h
    exact NaiveLock.neutral_of_calling h
  · intro cfg Client _ r t a n left right h
    exact DynamicLock.neutral_of_calling h
  · intro cfg G std seed Client _ r t a n left right h
    exact GeneticLock.neutral_of_calling h

/-! ## three calls -/

/-- Let the threads act as in the schedule, without an exception. -/
def unhandled {T Act D : Type} (schedule : List (T × Act)) : List (T × Option (ExcAct Act D)) :=
  schedule.map fun move => (move.1, some (.act move.2))

/-- Two mutexes, one for each position. -/
def NaiveLock.twoPositions : NaiveLock.Config where
  kLockCnt := 2
  arraySize := 2
  kLockCnt_pos := Nat.two_pos

/-- The second `lock()` of the call throws. -/
def lockThrows : List (Unit × Option (ExcAct NaiveLock.Act Unit)) :=
  unhandled [((), .call (.writeQuery 0 1)), ((), .step)] ++
    [((), some (.raise ())), ((), some .unlock)]

theorem isSome_exec_lockThrows :
    ((NaiveLock.throwing NaiveLock.twoPositions Unit).exec lockThrows
      (NaiveLock.throwing NaiveLock.twoPositions Unit).initial).isSome := by
  decide

def lockThrowsRun : Program.Run (NaiveLock.throwing NaiveLock.twoPositions Unit) :=
  .ofSchedule _ lockThrows () isSome_exec_lockThrows

/-- `func` throws under both mutexes. -/
def funcThrows : List (Tid Unit × Option (ExcAct DynamicLock.Act Unit)) :=
  unhandled ((.client (), .call (.writeQuery 0 2)) :: List.replicate 8 (.client (), .step) ++
    [(.client (), .elapsed 0 false), (.client (), .step), (.client (), .step)]) ++
    [(.client (), some (.raise ())), (.client (), some .unlock), (.client (), some .unlock)]

theorem isSome_exec_funcThrows :
    ((DynamicLock.throwing DynamicLock.threeBlocks Unit).exec funcThrows
      (DynamicLock.throwing DynamicLock.threeBlocks Unit).initial).isSome := by
  decide

def funcThrowsRun : Program.Run (DynamicLock.throwing DynamicLock.threeBlocks Unit) :=
  .ofSchedule _ funcThrows .background isSome_exec_funcThrows

/-- The small lock with the exceptions of its queries. -/
abbrev throwingQueries :=
  GeneticLock.throwing GeneticLock.smallLock GeneticPartitioner.lowestDraws () Bool

/-- After one client has read its segment the other one has the partition changed; so the first
locks its two mutexes in vain, and once more. -/
def retries :
    List (Tid Bool × Option (ExcAct GeneticLock.Act (GeneticPartitioner.State × Unit))) :=
  unhandled ((.client false, .call (.writeQuery 0 2)) :: List.replicate 4 (.client false, .step) ++
    GeneticLock.observing true GeneticLock.rightBatch ++ List.replicate 13 (.client false, .step) ++
    (.client false, .elapsed 0 false) :: List.replicate 5 (.client false, .step))

theorem isSome_exec_retries :
    (throwingQueries.exec retries throwingQueries.initial).isSome := by
  decide +kernel

def retriesRun : Program.Run throwingQueries :=
  .ofSchedule _ retries .background isSome_exec_retries

/-- Two of the calls are thrown out, the third returns. -/
theorem writeQuery_neutral_three_calls :
    Neutral (lockThrowsRun.log (NaiveLock.queryEvents NaiveLock.twoPositions) () 0 4)
        (fun i => (lockThrowsRun.states 4).mem.locks i = some ())
        ((lockThrowsRun.states 4).loc () = .run .idle ∨ (lockThrowsRun.states 4).loc () = .thrown)
        ((lockThrowsRun.states 4).loc () = .run .idle ∧ 1 ≤ 2) ∧
      ((lockThrowsRun.states 4).loc ()).isThrown ∧
      Neutral (funcThrowsRun.log DynamicLock.queryEvents (.client ()) 0 15)
        (fun i => (funcThrowsRun.states 15).mem.locks i = some (.client ()))
        ((funcThrowsRun.states 15).loc (.client ()) = .run .idle ∨
          (funcThrowsRun.states 15).loc (.client ()) = .thrown ∨
          ∃ l, (funcThrowsRun.states 15).loc (.client ()) = .run l ∧ l.Spins)
        ((funcThrowsRun.states 15).loc (.client ()) = .run .idle ∧ 1 ≤ 3) ∧
      ((funcThrowsRun.states 15).loc (.client ())).isThrown ∧
      Neutral (retriesRun.log GeneticLock.queryEvents (.client false) 0 44)
        (fun i => (retriesRun.states 44).mem.locks i = some (.client false))
        ((retriesRun.states 44).loc (.client false) = .run .idle ∨
          (retriesRun.states 44).loc (.client false) = .thrown ∨
          ∃ l, (retriesRun.states 44).loc (.client false) = .run l ∧ l.Spins)
        ((retriesRun.states 44).loc (.client false) = .run .idle ∧ 1 ≤ 3) ∧
      ((retriesRun.states 44).loc (.client false)).runs GeneticLock.Loc.isIdle := by
  have hlock : lockThrowsRun.Calling () 0 4 (.run .idle)
      (NaiveLock.enterQuery NaiveLock.twoPositions 0 1)
      (fun l => l.inOperation NaiveLock.Loc.isIdle) :=
    .of_tests (by decide) (by decide) rfl rfl rfl (by decide)
  have hfunc : funcThrowsRun.Calling (.client ()) 0 15 (.run .idle)
      (DynamicLock.enterQuery DynamicLock.threeBlocks 0 2)
      (fun l => l.inOperation DynamicLock.Loc.isIdle) :=
    .of_tests (by decide) (by decide) rfl rfl rfl (by decide)
  have hretries : retriesRun.Calling (.client false) 0 44 (.run .idle)
      (GeneticLock.enterQuery GeneticLock.smallLock 0 2)
      (fun l => l.inOperation GeneticLock.Loc.isIdle) :=
    .of_tests (by decide) (by decide) rfl rfl rfl (by decide +kernel)
  obtain ⟨hnaive, hdynamic, hgenetic⟩ := writeQuery_neutral
  exact ⟨hnaive _ _ _ _ _ _ _ hlock, by decide, hdynamic _ _ _ _ _ _ _ hfunc,
    by decide, hgenetic _ _ _ _ _ _ _ _ _ hretries, by decide +kernel⟩

/-- The first attempt of the last one is in vain. -/
example : retriesRun.log GeneticLock.queryEvents (.client false) 0 44 =
    [.segment 0 1, .lock 0, .lock 1, .unlock 1, .unlock 0,
      .segment 0 1, .lock 0, .lock 1, .call, .unlock 1, .unlock 0] := by
  decide +kernel

end DynLocks
