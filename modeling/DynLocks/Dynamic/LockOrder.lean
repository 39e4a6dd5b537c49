import DynLocks.Dynamic.Table
import DynLocks.Lib.LockOrder

/-!
# DynLocks.Dynamic.LockOrder

The order in which a `DynamicLock` takes its mutexes: the range mutexes by
index, then `partitions_mutex_`, then `stats_mutex_`.  `Loc.wants` says which
mutex the next step of a thread locks; it ranks above all that the thread holds
(`ordered_of_reachable`).
-/

namespace DynLocks
namespace DynamicLock

open Interleaving LockOrder

variable {Client : Type} (cfg : Config)

/-- The mutex that the next step of a thread locks. -/
def Loc.wants : Loc → Option Mutex
  | .query _ _ (.acquire _ _ _ index) => some (.range index)
  | .rebuild _ _ .gainLock => some .partitions
  | .rebuild _ _ (.keep .lockStats) => some .stats
  | .rebuild _ _ (.lockAll next) => some (.range next)
  | .rebuild _ _ (.publish .lockPartitions) => some .partitions
  | .rebuild _ _ (.publish .lockStats) => some .stats
  | .rebuilder _ _ (.should _ .lockStats) => some .stats
  | .forceLock => some .stats
  | .count _ _ .lockPartitions => some .partitions
  | .cutsLock => some .partitions
  | _ => none

/-- A query that waits on `pause_queries_` or for an even epoch. -/
def Loc.Spins : Loc → Prop
  | .query _ _ .pauseLoad => True
  | .query _ _ .epochLoad => True
  | _ => False

/-- The position of a mutex in the locking order. -/
def Config.rank : Mutex → ℕ
  | .range i => i
  | .partitions => cfg.kLockCnt
  | .stats => cfg.kLockCnt + 1

/-- The segment a query locks ends inside the lock array. -/
def Loc.InRange : Loc → Prop
  | .query _ _ (.acquire _ _ lockEnd _) => lockEnd < cfg.kLockCnt
  | _ => True

theorem Loc.inRange_of_out {l : Loc} (h : l.phase cfg = .out) : l.InRange cfg := by
  cases l with
  | query left right pc =>
      cases pc with
      | acquire => contradiction
      | _ => trivial
  | _ => trivial

section Steps

variable {cfg} [DecidableEq Client] {t : Tid Client} {a : Act} {m m' : Mem Client}
  {s : State (Tid Client) (Mem Client) Loc}

/-! ## the lock of a cell -/

/-- What a step may write to the table. -/
theorem blockToLock_advance (hsafe : Safe cfg s) {l' : Loc}
    (h : advance cfg t a s.mem (s.loc t) = some (m', l')) :
    m'.blockToLock = s.mem.blockToLock ∨ ∃ b,
      m'.blockToLock =
        Function.update s.mem.blockToLock b (lockOfBlock cfg.kLockCnt s.mem.partitions b) := by
  by_cases hl : (s.loc t).Rewrites
  · have hlocal := hsafe.locals t
    generalize s.loc t = l at *
    cases l with
    | rebuild caller snapshot pc =>
        cases pc with
        | publish pc =>
            cases pc with
            | epochOpen => cases h; exact Or.inl rfl
            | refresh block lockIndex =>
                obtain ⟨-, hindex, -⟩ := hlocal
                cases h
                refine Or.inr ⟨block, ?_⟩
                dsimp only
                rw [lockOfBlock_eq_advance, ← hindex]
            | _ => exact hl.elim
        | _ => exact hl.elim
    | _ => exact hl.elim
  · exact Or.inl (blockToLock_of_not_rewrites hsafe hl h)

/-- Every cell names a lock at any time, also in the middle of a rewrite. -/
theorem blockToLock_lt (hs : (machine cfg Client).Reachable s) (b : ℕ) :
    s.mem.blockToLock b < cfg.kLockCnt := by
  refine hs.invariant (I := fun s => ∀ b, s.mem.blockToLock b < cfg.kLockCnt) ?_ ?_ b
  · intro b
    show cfg.refreshBlockToLock cfg.initialPartitions (fun _ => 0) b < cfg.kLockCnt
    rw [Config.refreshBlockToLock, refreshTable, foldl_refreshTable]
    dsimp only
    split
    · exact lockOfBlock_lt cfg.kLockCnt_pos _ _
    · exact cfg.kLockCnt_pos
  · rintro s s' hreach hlt ⟨u, hu⟩ b
    obtain ⟨⟨a, ha⟩, -⟩ := advance_of_stepBy hu
    rcases blockToLock_advance (safe_of_reachable hreach) ha with hsame | ⟨block, hwrite⟩
    · rw [hsame]
      exact hlt b
    · rw [hwrite]
      by_cases hb : b = block
      · rw [hb, Function.update_self]
        exact lockOfBlock_lt cfg.kLockCnt_pos _ _
      · rw [Function.update_of_ne hb]
        exact hlt b

/-- A query locks a segment that it has read from the table. -/
theorem inRange_of_reachable (hs : (machine cfg Client).Reachable s) (t : Tid Client) :
    (s.loc t).InRange cfg := by
  refine hs.localInvariant (Q := fun _ _ l => l.InRange cfg) (fun _ => trivial) ?_
    (fun _ _ _ _ _ _ _ _ hl _ => hl) t
  intro s t a m' l' hreach hl ha
  have hadvance : advance cfg t a s.mem (s.loc t) = some (m', l') := ha
  generalize s.loc t = l at *
  cases l with
  | query left right pc =>
      simp only [advance, Option.map_eq_some_iff, Prod.mk.injEq] at hadvance
      obtain ⟨⟨m'', r⟩, hstep, rfl, rfl⟩ := hadvance
      cases pc with
      | rightLoad epoch lockStart =>
          cases hstep
          dsimp only [afterQuery]
          split
          · trivial
          · exact blockToLock_lt hreach _
      | acquire epoch lockStart lockEnd index =>
          simp only [queryStep] at hstep
          split at hstep
          · cases hstep
            dsimp only [afterQuery]
            split
            · trivial
            · exact hl
          · contradiction
      | inside lockStart lockEnd pc =>
          simp only [queryStep, Option.map_eq_some_iff, Prod.mk.injEq] at hstep
          obtain ⟨⟨m'', pc'⟩, -, rfl, rfl⟩ := hstep
          cases pc' <;> trivial
      | leftLoad epoch => cases hstep; trivial
      | release lockStart count =>
          cases hstep
          by_cases hlast : count ≤ 1 <;> simp [hlast, afterQuery, Loc.InRange]
      | _ => cases hstep; dsimp only [afterQuery]; split <;> trivial
  | rebuild caller snapshot pc =>
      rcases advance_rebuild cfg hadvance with ⟨result, rfl, rfl, rfl⟩ | ⟨snapshot', pc', -, rfl⟩
      · exact Loc.inRange_of_out cfg (caller.aside_returned cfg s.mem result).phase
      · trivial
  | _ => exact Loc.inRange_of_out cfg (advance_aside cfg (by trivial) hadvance).phase

/-! ## the order -/

/-- A thread that waits for a mutex that is held makes no step. -/
theorem advance_eq_none_of_held {l : Loc} {x : Mutex} (hl : l.wants = some x)
    (hheld : m.owner x ≠ none) : advance cfg t a m l = none := by
  cases l with
  | query left right pc =>
      cases pc with
      | acquire =>
          cases hl
          simp only [Mem.owner] at hheld
          simp only [advance, queryStep, if_neg hheld, Option.map_none]
      | _ => contradiction
  | rebuild caller snapshot pc =>
      cases pc with
      | gainLock =>
          cases hl
          simp only [Mem.owner] at hheld
          simp only [advance, rebuildStep, if_neg hheld, Option.map_none]
      | keep pc =>
          cases pc with
          | lockStats =>
              cases hl
              simp only [Mem.owner] at hheld
              simp only [advance, rebuildStep, keepStep, if_neg hheld, Option.map_none]
          | _ => contradiction
      | lockAll next =>
          cases hl
          simp only [Mem.owner] at hheld
          simp only [advance, rebuildStep, if_neg hheld, Option.map_none]
      | publish pc =>
          cases pc with
          | lockPartitions =>
              cases hl
              simp only [Mem.owner] at hheld
              simp only [advance, rebuildStep, publishStep, if_neg hheld, Option.map_none]
          | lockStats =>
              cases hl
              simp only [Mem.owner] at hheld
              simp only [advance, rebuildStep, publishStep, if_neg hheld, Option.map_none]
          | _ => contradiction
      | _ => contradiction
  | rebuilder interval changeThreshold pc =>
      cases pc with
      | should snapshot pc =>
          cases pc with
          | lockStats =>
              cases hl
              simp only [Mem.owner] at hheld
              simp only [advance, rebuilderStep, shouldStep, if_neg hheld, Option.map_none]
          | _ => contradiction
      | _ => contradiction
  | forceLock =>
      cases hl
      simp only [Mem.owner] at hheld
      simp only [advance, if_neg hheld]
  | count left right pc =>
      cases pc with
      | lockPartitions =>
          cases hl
          simp only [Mem.owner] at hheld
          simp only [advance, countStep, if_neg hheld]
      | _ => contradiction
  | cutsLock =>
      cases hl
      simp only [Mem.owner] at hheld
      simp only [advance, if_neg hheld]
  | _ => contradiction

/-- What a thread waits for ranks above what it holds. -/
theorem rank_lt_of_wants {l : Loc} {x y : Mutex} (hx : l.wants = some x) (hy : l.Holds cfg y) :
    cfg.rank y < cfg.rank x := by
  cases l with
  | query left right pc =>
      cases pc with
      | acquire epoch lockStart lockEnd index =>
          cases hx
          cases y with
          | range i => exact hy.2
          | _ => exact hy.elim
      | _ => contradiction
  | rebuild caller snapshot pc =>
      cases pc with
      | gainLock => cases y <;> exact hy.elim
      | keep pc =>
          cases pc with
          | lockStats =>
              cases hx
              cases y with
              | partitions => exact Nat.lt_succ_self _
              | _ => exact hy.elim
          | _ => contradiction
      | lockAll next =>
          cases hx
          cases y with
          | range i => exact hy
          | _ => exact hy.elim
      | publish pc =>
          cases pc with
          | lockPartitions =>
              cases hx
              cases y with
              | range i => exact hy
              | _ => exact hy.elim
          | lockStats =>
              cases hx
              cases y with
              | range i => exact Nat.lt_succ_of_lt hy
              | partitions => exact Nat.lt_succ_self _
              | stats => exact hy.elim
          | _ => contradiction
      | _ => contradiction
  | rebuilder interval changeThreshold pc =>
      cases pc with
      | should snapshot pc =>
          cases pc with
          | lockStats => cases y <;> exact hy.elim
          | _ => contradiction
      | _ => contradiction
  | forceLock => cases y <;> exact hy.elim
  | count left right pc =>
      cases pc with
      | lockPartitions => cases y <;> exact hy.elim
      | _ => contradiction
  | cutsLock => cases y <;> exact hy.elim
  | _ => contradiction

omit [DecidableEq Client] in
/-- Nobody waits for a range mutex outside the lock array. -/
theorem rank_lt_of_inRange {l : Loc} {x : Mutex} (hlocal : Local cfg m l) (hrange : l.InRange cfg)
    (hx : l.wants = some x) : cfg.rank x < cfg.kLockCnt + 2 := by
  cases x with
  | partitions => exact Nat.lt_add_of_pos_right Nat.two_pos
  | stats => exact Nat.lt_succ_self _
  | range i =>
      refine Nat.lt_add_right 2 ?_
      show i < cfg.kLockCnt
      cases l with
      | query left right pc =>
          cases pc with
          | acquire epoch lockStart lockEnd index =>
              cases hx
              exact Nat.lt_of_le_of_lt hlocal.2.2 hrange
          | _ => cases hx
      | rebuild caller snapshot pc =>
          cases pc with
          | lockAll next => cases hx; exact hlocal
          | keep pc => cases pc <;> cases hx
          | publish pc => cases pc <;> cases hx
          | _ => cases hx
      | rebuilder interval changeThreshold pc =>
          cases pc with
          | should snapshot pc => cases pc <;> cases hx
          | _ => cases hx
      | count left right pc => cases pc <;> cases hx
      | _ => cases hx

theorem ordered_of_reachable (hs : (machine cfg Client).Reachable s) :
    Ordered (fun t => (s.loc t).wants) s.mem.owner cfg.rank (cfg.kLockCnt + 2) where
  rises t _ y hx hy := rank_lt_of_wants hx ((owned_of_reachable hs y t).mp hy)
  bounded t _ hx := rank_lt_of_inRange ((safe_of_reachable hs).locals t) (inRange_of_reachable hs t) hx

/-- A query that spins holds no mutex. -/
theorem owner_ne_of_spins (hs : (machine cfg Client).Reachable s) (ht : (s.loc t).Spins)
    (x : Mutex) : s.mem.owner x ≠ some t := by
  intro howner
  have hholds : (s.loc t).Holds cfg x := (owned_of_reachable hs x t).mp howner
  cases hloc : s.loc t with
  | query left right pc =>
      rw [hloc] at hholds ht
      cases pc with
      | pauseLoad => cases x <;> exact hholds.elim
      | epochLoad => cases x <;> exact hholds.elim
      | _ => exact ht.elim
  | _ => rw [hloc] at ht; exact ht.elim

end Steps

end DynamicLock
end DynLocks
