import DynLocks.Genetic.Training
import DynLocks.Lib.LockOrder

/-!
# DynLocks.Genetic.LockOrder

The order in which a `GeneticLock` takes its mutexes: `training_mutex_` first,
then the range mutexes by index, then `cuts_mutex_`; `pending_mutex_` is never
held together with another one.  `Loc.wants` says which mutex the next step of a
thread locks; it ranks above all that the thread holds (`ordered_of_reachable`).
-/

namespace DynLocks
namespace GeneticLock

open Interleaving LockOrder

variable {Client G : Type} (cfg : Config)

/-- The mutex that the next step of a thread locks.  A waiter of `training_cv_` that has been woken
up comes to `lockPending` first. -/
def Loc.wants : Loc → Option Mutex
  | .query _ _ (.acquire _ _ _ index) => some (.range index)
  | .sample _ .lockPending => some .pending
  | .observe _ => some .training
  | .train _ _ .copyLock => some .cuts
  | .train _ _ (.lockAll _ next) => some (.range next)
  | .train _ _ (.publish _ _ .lockCuts) => some .cuts
  | .flush .lockPending => some .pending
  | .trainer .lockPending => some .pending
  | .trainer (.lockTraining _) => some .training
  | .stop .lockPending => some .pending
  | .cutsLock => some .cuts
  | _ => none

/-- A call that waits on `pause_queries_` or for an even epoch. -/
def Loc.Spins : Loc → Prop
  | .query _ _ .pauseLoad => True
  | .query _ _ .epochLoad => True
  | .count _ _ .epochLoad => True
  | _ => False

/-- The position of a mutex in the locking order. -/
def Config.rank : Mutex → ℕ
  | .training => 0
  | .pending => 0
  | .range i => i + 1
  | .cuts => cfg.kLockCnt + 1

/-- The segment a query locks ends inside the lock array. -/
def Loc.InRange : Loc → Prop
  | .query _ _ (.acquire _ _ lastLock _) => lastLock < cfg.kLockCnt
  | _ => True

theorem Loc.Starting.inRange {l : Loc} (hl : l.Starting) : l.InRange cfg := by
  cases l with
  | query left right pc =>
      obtain rfl : pc = .pauseLoad := hl
      trivial
  | _ => trivial

section Steps

variable {cfg} [DecidableEq Client] {std : GeneticPartitioner.StdLib G} {seed : G}
  {t : Tid Client} {a : Act} {m m' : Mem Client G} {s : State (Tid Client) (Mem Client G) Loc}

/-! ## the lock of a cell -/

/-- Every cell names a lock at any time, also in the middle of a rewrite. -/
theorem blockToLock_lt (hs : (machine cfg std seed Client).Reachable s) (b : ℕ) :
    s.mem.blockToLock b < cfg.kLockCnt := by
  refine hs.invariant (I := fun s => ∀ b, s.mem.core.blockToLock b < cfg.kLockCnt) ?_ ?_ b
  · intro b
    show cfg.refreshBlockToLock cfg.initState.current.cuts (fun _ => 0) b < cfg.kLockCnt
    rw [Config.refreshBlockToLock, refreshTable, foldl_refreshTable]
    dsimp only
    split
    · exact lockOfBlock_lt cfg.kLockCnt_pos _ _
    · exact cfg.kLockCnt_pos
  · rintro s s' hreach hlt ⟨u, hu⟩
    obtain ⟨⟨a, ha⟩, -⟩ := hu.elim
    have hmove : CoreMove cfg std (s.loc u) s.mem.core s'.mem.core := core_move cfg ha
    have hat := (inStep_of_reachable hreach).training u
    generalize s.loc u = l at *
    generalize s.mem.core = c at *
    generalize s'.mem.core = c' at *
    intro b
    cases hmove with
    | @refresh _ _ _ _ block lockIndex =>
        obtain ⟨-, -, -, hindex, -⟩ := hat
        dsimp only
        by_cases hb : b = block
        · rw [hb, Function.update_self, hindex, ← lockOfBlock_eq_advance]
          exact lockOfBlock_lt cfg.kLockCnt_pos _ _
        · rw [Function.update_of_ne hb]
          exact hlt b
    | _ => exact hlt b

/-- A query locks a segment that it has read from the table. -/
theorem inRange_of_reachable (hs : (machine cfg std seed Client).Reachable s) (t : Tid Client) :
    (s.loc t).InRange cfg := by
  refine hs.localInvariant (Q := fun _ _ l => l.InRange cfg) (fun _ => trivial) ?_
    (fun _ _ _ _ _ _ _ _ hl _ => hl) t
  intro s t a m' l' hreach hl ha
  have hadvance : advance cfg std t a s.mem (s.loc t) = some (m', l') := ha
  generalize s.loc t = l at *
  cases l with
  | query left right pc =>
      simp only [advance, Option.map_eq_some_iff, Prod.mk.injEq] at hadvance
      obtain ⟨⟨m'', r⟩, hstep, rfl, rfl⟩ := hadvance
      cases pc with
      | rightLoad epoch firstLock =>
          cases hstep
          dsimp only [afterQuery]
          split
          · trivial
          · exact blockToLock_lt hreach _
      | acquire epoch firstLock lastLock index =>
          simp only [queryStep] at hstep
          split at hstep
          · cases hstep
            dsimp only [afterQuery]
            split
            · trivial
            · exact hl
          · contradiction
      | inside firstLock lastLock pc =>
          simp only [queryStep, Option.map_eq_some_iff, Prod.mk.injEq] at hstep
          obtain ⟨⟨m'', pc'⟩, -, rfl, rfl⟩ := hstep
          cases pc' <;> trivial
      | leftLoad epoch => cases hstep; trivial
      | release firstLock count =>
          cases hstep
          by_cases hlast : count ≤ 1 <;> simp [hlast, afterQuery, Loc.InRange]
      | _ => cases hstep; dsimp only [afterQuery]; split <;> trivial
  | train caller batch pc =>
      simp only [advance, Option.map_eq_some_iff, Prod.mk.injEq] at hadvance
      obtain ⟨⟨m'', r⟩, -, rfl, rfl⟩ := hadvance
      cases r with
      | some pc' => trivial
      | none => cases caller <;> trivial
  | _ => exact (starting_of_advance cfg (by trivial) hadvance).inRange cfg

/-! ## the order -/

/-- A thread that waits for a mutex that is held makes no step. -/
theorem advance_eq_none_of_held {l : Loc} {x : Mutex} (hl : l.wants = some x)
    (hheld : m.owner x ≠ none) : advance cfg std t a m l = none := by
  cases l with
  | query left right pc =>
      cases pc with
      | acquire =>
          cases hl
          simp only [Mem.owner] at hheld
          simp only [advance, queryStep, if_neg hheld, Option.map_none]
      | _ => contradiction
  | sample query pc =>
      cases pc with
      | lockPending =>
          cases hl
          simp only [Mem.owner] at hheld
          simp only [advance, sampleStep, if_neg hheld, Option.map_none]
      | _ => contradiction
  | observe batch =>
      cases hl
      simp only [Mem.owner] at hheld
      simp only [advance, if_neg hheld]
  | train caller batch pc =>
      cases pc with
      | copyLock =>
          cases hl
          simp only [Mem.owner] at hheld
          simp only [advance, trainStep, if_neg hheld, Option.map_none]
      | lockAll nextCuts next =>
          cases hl
          simp only [Mem.owner] at hheld
          simp only [advance, trainStep, if_neg hheld, Option.map_none]
      | publish concurrent nextCuts pc =>
          cases pc with
          | lockCuts =>
              cases hl
              simp only [Mem.owner] at hheld
              simp only [advance, trainStep, publishStep, if_neg hheld, Option.map_none]
          | _ => contradiction
      | _ => contradiction
  | flush pc =>
      cases pc with
      | lockPending =>
          cases hl
          simp only [Mem.owner] at hheld
          simp only [advance, flushStep, if_neg hheld]
      | _ => contradiction
  | trainer pc =>
      cases pc with
      | lockPending =>
          cases hl
          simp only [Mem.owner] at hheld
          simp only [advance, trainerStep, if_neg hheld]
      | lockTraining batch =>
          cases hl
          simp only [Mem.owner] at hheld
          simp only [advance, trainerStep, if_neg hheld]
      | _ => contradiction
  | stop pc =>
      cases pc with
      | lockPending =>
          cases hl
          simp only [Mem.owner] at hheld
          simp only [advance, stopStep, if_neg hheld]
      | _ => contradiction
  | cutsLock =>
      cases hl
      simp only [Mem.owner] at hheld
      simp only [advance, if_neg hheld]
  | _ => contradiction

/-- What a thread waits for ranks above what it holds. -/
theorem rank_lt_of_wants {l : Loc} {x y : Mutex} (hx : l.wants = some x) (hy : l.Holds cfg y) :
    cfg.rank y < cfg.rank x := by
  cases l with
  | query left right pc =>
      cases pc with
      | acquire epoch firstLock lastLock index =>
          cases hx
          cases y with
          | range i => exact Nat.succ_lt_succ hy.2
          | _ => exact hy.elim
      | _ => contradiction
  | sample query pc =>
      cases pc with
      | lockPending => cases y <;> exact hy.elim
      | _ => contradiction
  | observe batch => cases y <;> exact hy.elim
  | train caller batch pc =>
      cases pc with
      | copyLock =>
          cases hx
          cases y with
          | training => exact Nat.succ_pos _
          | _ => exact hy.elim
      | lockAll nextCuts next =>
          cases hx
          cases y with
          | training => exact Nat.succ_pos _
          | range i => exact Nat.succ_lt_succ hy
          | _ => exact hy.elim
      | publish concurrent nextCuts pc =>
          cases pc with
          | lockCuts =>
              cases hx
              cases y with
              | training => exact Nat.succ_pos _
              | range i => exact Nat.succ_lt_succ hy.2
              | _ => exact hy.elim
          | _ => contradiction
      | _ => contradiction
  | flush pc =>
      cases pc with
      | lockPending => cases y <;> exact hy.elim
      | _ => contradiction
  | trainer pc =>
      cases pc with
      | lockPending => cases y <;> exact hy.elim
      | lockTraining batch => cases y <;> exact hy.elim
      | _ => contradiction
  | stop pc =>
      cases pc with
      | lockPending => cases y <;> exact hy.elim
      | _ => contradiction
  | cutsLock => cases y <;> exact hy.elim
  | _ => contradiction

/-- Nobody waits for a range mutex outside the lock array. -/
theorem rank_lt_of_inRange {l : Loc} {x : Mutex} (hbounded : l.Bounded cfg) (hrange : l.InRange cfg)
    (hx : l.wants = some x) : cfg.rank x < cfg.kLockCnt + 2 := by
  cases x with
  | training => exact Nat.succ_pos _
  | pending => exact Nat.succ_pos _
  | cuts => exact Nat.lt_succ_self _
  | range i =>
      have hi : i < cfg.kLockCnt := by
        cases l with
        | query left right pc =>
            cases pc with
            | acquire epoch firstLock lastLock index =>
                cases hx
                exact Nat.lt_of_le_of_lt hbounded.2 hrange
            | _ => cases hx
        | train caller batch pc =>
            cases pc with
            | lockAll nextCuts next => cases hx; exact hbounded
            | publish concurrent nextCuts pc => cases pc <;> cases hx
            | _ => cases hx
        | sample query pc => cases pc <;> cases hx
        | flush pc => cases pc <;> cases hx
        | trainer pc => cases pc <;> cases hx
        | stop pc => cases pc <;> cases hx
        | _ => cases hx
      exact Nat.succ_lt_succ (Nat.lt_succ_of_lt hi)

theorem ordered_of_reachable (hs : (machine cfg std seed Client).Reachable s) :
    Ordered (fun t => (s.loc t).wants) s.mem.owner cfg.rank (cfg.kLockCnt + 2) where
  rises t _ y hx hy := rank_lt_of_wants hx ((owned_of_reachable hs y t).mp hy)
  bounded t _ hx := rank_lt_of_inRange (bounded_of_reachable hs t) (inRange_of_reachable hs t) hx

/-- A call that spins holds no mutex. -/
theorem owner_ne_of_spins (hs : (machine cfg std seed Client).Reachable s) (ht : (s.loc t).Spins)
    (x : Mutex) : s.mem.owner x ≠ some t := by
  intro howner
  have hholds : (s.loc t).Holds cfg x := (owned_of_reachable hs x t).mp howner
  cases hloc : s.loc t with
  | query left right pc =>
      rw [hloc] at hholds ht
      cases pc with
      | pauseLoad => cases x <;> exact hholds.elim
      | epochLoad => cases x <;> exact hholds.elim
      | _ => exact ht.elim
  | count left right pc =>
      rw [hloc] at hholds
      cases x <;> exact hholds.elim
  | _ => rw [hloc] at ht; exact ht.elim

end Steps

end GeneticLock
end DynLocks
