import DynLocks.Lib.MutexImpl
import DynLocks.Naive.Machine

/-!
# DynLocks.Naive.Guards

Where a `NaiveLock` locks and unlocks its mutexes (`guards`).
-/

namespace DynLocks
namespace NaiveLock

open Interleaving

/-- The mutex that the next step of a thread unlocks. -/
def Loc.gives (cfg : Config) : Loc → Option ℕ
  | .query left _ (.release count) => some (cfg.lockOf left + (count - 1))
  | _ => none

variable {Client : Type} {cfg : Config} [DecidableEq Client] {t : Client} {a : Act}
  {m m' : Mem Client} {l l' : Loc}

/-- A mutex without its holder. -/
def Mem.free (m : Mem Client) (i : ℕ) : Mem Client :=
  { m with locks := Function.update m.locks i none }

omit [DecidableEq Client] in
/-- No call locks in its first step. -/
theorem locks_enter {c : Call} (h : enter cfg m c = some (m', l')) : m'.locks = m.locks := by
  cases c with
  | writeQuery left right =>
      simp only [enter] at h
      split at h
      · cases h; rfl
      · split at h
        · contradiction
        · cases h; rfl
  | countLocksForRange left right =>
      simp only [enter] at h
      split at h
      · cases h; rfl
      · split at h
        · contradiction
        · cases h; rfl

/-- A query locks and unlocks one mutex a step. -/
theorem owner_advance (h : advance cfg t a m l = some (m', l')) :
    m'.locks = nextOwner t l.wants (l.gives cfg) m.locks := by
  cases l with
  | idle =>
      cases a with
      | call c => exact locks_enter h
      | _ => contradiction
  | counted => cases h; rfl
  | query left right pc =>
      obtain ⟨⟨m'', r⟩, hstep, heq⟩ := Option.map_eq_some_iff.mp h
      cases heq
      cases pc with
      | acquire index =>
          simp only [queryStep] at hstep
          split at hstep
          · cases hstep; rfl
          · contradiction
      | inside pc =>
          obtain ⟨⟨m'', r'⟩, hinside, heq⟩ := Option.map_eq_some_iff.mp hstep
          cases heq
          exact locks_insideStep hinside
      | release count => cases hstep; rfl

/-- A thread locks a mutex that is free, and goes on. -/
theorem lock_advance {i : ℕ} (hl : l.wants = some i) (h : advance cfg t a m l = some (m', l')) :
    m.locks i = none ∧ l' ≠ l := by
  refine ⟨?_, ?_⟩
  · by_contra hheld
    rw [advance_eq_none_of_held hl hheld] at h
    contradiction
  · cases l with
    | query left right pc =>
        cases pc with
        | acquire index =>
            obtain ⟨⟨m'', r⟩, hstep, heq⟩ := Option.map_eq_some_iff.mp h
            cases heq
            simp only [queryStep] at hstep
            split at hstep
            · cases hstep
              dsimp only
              split
              · exact fun heq => by cases heq
              · simp [afterQuery]
            · contradiction
        | _ => contradiction
    | _ => contradiction

/-- The mutexes of a `NaiveLock`. -/
def guards (cfg : Config) (Client : Type) [DecidableEq Client] :
    Guards (machine cfg Client) ℕ where
  owner m := m.locks
  free := Mem.free
  wants := Loc.wants
  gives := Loc.gives cfg
  init _ := rfl
  free_eq {m i} h := by
    rw [Mem.free, ← h, Function.update_eq_self]
  lock := lock_advance
  step := owner_advance

end NaiveLock
end DynLocks
