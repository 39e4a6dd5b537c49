import DynLocks.Genetic.Exclusion
import DynLocks.Genetic.LockOrder
import DynLocks.Lib.MutexImpl

/-!
# DynLocks.Genetic.Guards

Where a `GeneticLock` locks and unlocks its range mutexes (`guards`).  Only they are
of the type that the template takes; the other mutexes are `std::mutex` always.
-/

namespace DynLocks
namespace GeneticLock

open Interleaving

/-- The range mutex that the next step of a thread locks. -/
def Loc.wantsRange : Loc → Option ℕ
  | .query _ _ (.acquire _ _ _ index) => some index
  | .train _ _ (.lockAll _ next) => some next
  | _ => none

/-- The range mutex that the next step of a thread unlocks. -/
def Loc.givesRange : Loc → Option ℕ
  | .query _ _ (.retry firstLock held) => some (firstLock + (held - 1))
  | .query _ _ (.release firstLock held) => some (firstLock + (held - 1))
  | .train _ _ (.unlockAll held) => some (held - 1)
  | _ => none

variable {Client G : Type} {cfg : Config} {std : GeneticPartitioner.StdLib G} {t : Tid Client}
  {a : Act} {m m' : Mem Client G} {l l' : Loc}

omit cfg in
/-- A range mutex that is wanted is the mutex that is wanted. -/
theorem Loc.wants_of_wantsRange {i : ℕ} (h : l.wantsRange = some i) :
    l.wants = some (.range i) := by
  cases l with
  | query left right pc =>
      cases pc with
      | acquire => cases h; rfl
      | _ => contradiction
  | train caller batch pc =>
      cases pc with
      | lockAll => cases h; rfl
      | _ => contradiction
  | _ => contradiction

variable [DecidableEq Client]

/-- A query locks and unlocks one range mutex a step. -/
theorem locks_queryStep {left right : ℕ} {pc : QueryPc} {r : Option QueryPc}
    (h : queryStep cfg t a m left right pc = some (m', r)) :
    m'.locks = nextOwner t (Loc.query left right pc).wantsRange
      (Loc.query left right pc).givesRange m.locks := by
  cases pc with
  | acquire epoch firstLock lastLock index =>
      simp only [queryStep] at h
      split at h
      · cases h; rfl
      · contradiction
  | inside firstLock lastLock pc =>
      simp only [queryStep, Option.map_eq_some_iff, Prod.mk.injEq] at h
      obtain ⟨⟨m'', pc'⟩, hstep, rfl, -⟩ := h
      cases pc with
      | durationCas current =>
          cases a with
          | elapsed delta spurious =>
              simp only [insideStep] at hstep
              split at hstep <;> (cases hstep; rfl)
          | _ => contradiction
      | _ => cases hstep; rfl
  | _ => cases h; rfl

omit [DecidableEq Client] in
/-- `publish_partition` finds the range mutexes locked. -/
theorem locks_publishStep {nextCuts : List ℕ} {pc : PublishPc} {r : Option PublishPc}
    (h : publishStep cfg t m nextCuts pc = some (m', r)) : m'.locks = m.locks := by
  cases pc with
  | lockCuts =>
      simp only [publishStep] at h
      split at h
      · cases h; rfl
      · contradiction
  | _ => cases h; rfl

/-- Before it publishes, a training locks them one by one, and unlocks them after it. -/
theorem locks_trainStep {caller : Caller} {batch : List Query} {pc : TrainPc} {r : Option TrainPc}
    (h : trainStep cfg std t a m batch pc = some (m', r)) :
    m'.locks = nextOwner t (Loc.train caller batch pc).wantsRange
      (Loc.train caller batch pc).givesRange m.locks := by
  cases pc with
  | copyLock =>
      simp only [trainStep] at h
      split at h
      · cases h; rfl
      · contradiction
  | observe previousCuts =>
      simp only [trainStep, Option.map_eq_some_iff, Prod.mk.injEq] at h
      obtain ⟨r', -, rfl, -⟩ := h
      rfl
  | keepDurationCas current =>
      cases a with
      | elapsed delta spurious =>
          simp only [trainStep] at h
          split at h <;> (cases h; rfl)
      | _ => contradiction
  | lockAll nextCuts next =>
      simp only [trainStep] at h
      split at h
      · cases h; rfl
      · contradiction
  | publish concurrent nextCuts pc =>
      simp only [trainStep, Option.map_eq_some_iff, Prod.mk.injEq] at h
      obtain ⟨⟨m'', r'⟩, hstep, rfl, -⟩ := h
      exact locks_publishStep hstep
  | durationCas current =>
      cases a with
      | elapsed delta spurious =>
          simp only [trainStep] at h
          split at h <;> (cases h; rfl)
      | _ => contradiction
  | _ => cases h; rfl

/-- **Step lemma**: a step locks the range mutex that the thread wants, unlocks what it gives, and
leaves the other ones alone. -/
theorem locks_advance (h : advance cfg std t a m l = some (m', l')) :
    m'.locks = nextOwner t l.wantsRange l.givesRange m.locks := by
  cases l with
  | query left right pc =>
      simp only [advance, Option.map_eq_some_iff, Prod.mk.injEq] at h
      obtain ⟨⟨m'', r⟩, hstep, rfl, -⟩ := h
      exact locks_queryStep hstep
  | train caller batch pc =>
      simp only [advance, Option.map_eq_some_iff, Prod.mk.injEq] at h
      obtain ⟨⟨m'', r⟩, hstep, rfl, -⟩ := h
      exact locks_trainStep hstep
  | _ => exact locks_of_other cfg (by trivial) h

/-- Behind the step that locks a range mutex the thread is somewhere else. -/
theorem ne_of_wantsRange {i : ℕ} (hl : l.wantsRange = some i)
    (h : advance cfg std t a m l = some (m', l')) : l' ≠ l := by
  cases l with
  | query left right pc =>
      cases pc with
      | acquire epoch firstLock lastLock index =>
          simp only [advance, queryStep] at h
          split at h
          · cases h
            dsimp only [afterQuery]
            split <;> simp
          · contradiction
      | _ => contradiction
  | train caller batch pc =>
      cases pc with
      | lockAll nextCuts next =>
          simp only [advance, trainStep] at h
          split at h
          · cases h
            dsimp only [afterTrain]
            split <;> simp
          · contradiction
      | _ => contradiction
  | _ => contradiction

/-- The range mutexes of a `GeneticLock`. -/
def guards (cfg : Config) (std : GeneticPartitioner.StdLib G) (seed : G) (Client : Type)
    [DecidableEq Client] : Guards (machine cfg std seed Client) ℕ where
  owner m := m.locks
  free := Mem.unlock
  wants := Loc.wantsRange
  gives := Loc.givesRange
  init _ := rfl
  free_eq {m i} h := by
    rw [Mem.unlock, ← h, Function.update_eq_self]
  lock {t a m l m' l' i} hl h := by
    refine ⟨?_, ne_of_wantsRange hl h⟩
    by_contra hheld
    have hnone : advance cfg std t a m l = none :=
      advance_eq_none_of_held (Loc.wants_of_wantsRange hl) hheld
    exact Option.some_ne_none _ (h.symm.trans hnone)
  step := locks_advance

end GeneticLock
end DynLocks
