import DynLocks.Dynamic.Guards
import DynLocks.Dynamic.RangeLock
import DynLocks.Genetic.Guards
import DynLocks.Genetic.RangeLock
import DynLocks.Naive.Guards
import DynLocks.Naive.RangeLock

/-!
# DynLocks.Spinlock

`spinlock`, the other type of mutex of the benchmark.  It implements a mutex
(`spinlock`), so the three locks over spinlocks are the locks over mutexes:
`locked_` is set while some thread, and no other one, is between its `lock` and
its `unlock`, and functions that run at once have disjoint ranges
(`spinlock_exclusive`).
-/

namespace DynLocks

open Interleaving

namespace Spinlock

/-- Where a thread is in `lock`: at the exchange, or in the inner loop. -/
inductive Pc
  | exchange
  | load

/-- One access of `lock` to `locked_`, a weak exchange or the load of the inner loop; `none` where it
returns. -/
def lock (spurious locked : Bool) : Pc → Bool × Option Pc
  | .exchange =>
      if locked = false ∧ spurious = false then (true, none) else (locked, some .load)
  | .load => (locked, some (if locked then .load else .exchange))

def unlock (_locked : Bool) : Bool := false

/-- The accesses that are left while `locked_` is clear. -/
def Pc.rank : Pc → ℕ
  | .exchange => 0
  | .load => 1

end Spinlock

open Spinlock in
/-- A `spinlock` as a mutex. -/
def spinlock : MutexImpl Bool Spinlock.Pc where
  init := false
  held := id
  lock := .exchange
  step := lock
  unlock := unlock
  rank := Pc.rank
  init_free := rfl
  unlock_free _ := rfl
  wait {spurious v pc v' pc'} h := by
    cases pc with
    | exchange =>
        simp only [lock] at h
        split at h
        · cases h
        · cases h; rfl
    | load => cases h; rfl
  enter {spurious v pc v'} h := by
    cases pc with
    | exchange =>
        simp only [lock] at h
        split at h
        · next hfree => cases h; exact ⟨hfree.1, rfl⟩
        · cases h
    | load => cases h
  progress {spurious v pc v' pc'} hfree hhonest h := by
    obtain rfl : v = false := hfree
    cases pc with
    | exchange =>
        cases spurious with
        | false => cases h
        | true => exact absurd rfl (hhonest rfl)
    | load => cases h; exact Nat.one_pos

/-! ## what it excludes -/

section Exclusive

variable {Tid Act Mem Loc X : Type}

/-- `locked_` is set while some thread holds the mutex, and one thread at most does. -/
structure LockedByOne (holds : Loc → X → Prop)
    (s : State Tid (CellMem Mem X Bool) (CellLoc Loc Spinlock.Pc)) : Prop where
  locked : ∀ x, s.mem.cells x = true ↔ ∃ t, holds (s.loc t).loc x
  unique : ∀ x t u, holds (s.loc t).loc x → holds (s.loc u).loc x → t = u

/-- Functions that run at once have disjoint ranges. -/
def DisjointFuncs (inFunc : Loc → Option (ℕ × ℕ))
    (s : State Tid (CellMem Mem X Bool) (CellLoc Loc Spinlock.Pc)) : Prop :=
  ∀ t u r r', t ≠ u → inFunc (s.loc t).loc = some r → inFunc (s.loc u).loc = some r' →
    r.2 < r'.1 ∨ r'.2 < r.1

variable [DecidableEq Tid] [DecidableEq X] {P : Program Tid Act Mem Loc} {U : Guards P X}
  {s : State Tid (CellMem Mem X Bool) (CellLoc Loc Spinlock.Pc)}

/-- What is known of the holders of the mutexes. -/
theorem lockedByOne_of_owned {holds : Loc → X → Prop} (hs : (U.upon spinlock).Reachable s)
    (howned : ∀ x, Owned (U.owner s.mem.mem x) fun t => holds (s.loc t).loc x) :
    LockedByOne holds s where
  locked x := by
    have hheld : s.mem.cells x = (U.owner s.mem.mem x).isSome := (Guards.abstracts hs).2 x
    rw [hheld, Option.isSome_iff_exists]
    exact exists_congr (howned x)
  unique x _ _ := (howned x).unique

end Exclusive

/-- **The three locks over spinlocks**: every `locked_` is set while one thread, and no other one, is
between its `lock` and its `unlock`, and functions that run at once have disjoint ranges; those of a
`GeneticLock` if its clients leave the training to the background thread. -/
theorem spinlock_exclusive :
    (∀ (cfg : NaiveLock.Config) {Client : Type} [DecidableEq Client]
        {s : State Client (CellMem (NaiveLock.Mem Client) ℕ Bool) (CellLoc NaiveLock.Loc Spinlock.Pc)},
      ((NaiveLock.guards cfg Client).upon spinlock).Reachable s →
        LockedByOne (NaiveLock.Loc.Holds cfg) s ∧ DisjointFuncs NaiveLock.Loc.inFunc s) ∧
    (∀ (cfg : DynamicLock.Config) {Client : Type} [DecidableEq Client]
        {s : State (Tid Client) (CellMem (DynamicLock.Mem Client) DynamicLock.Mutex Bool)
          (CellLoc DynamicLock.Loc Spinlock.Pc)},
      ((DynamicLock.guards cfg Client).upon spinlock).Reachable s →
        LockedByOne (DynamicLock.Loc.Holds cfg) s ∧ DisjointFuncs DynamicLock.Loc.inFunc s) ∧
    (∀ (cfg : GeneticLock.Config) {G : Type} (std : GeneticPartitioner.StdLib G) (seed : G)
        {Client : Type} [DecidableEq Client]
        {s : State (Tid Client) (CellMem (GeneticLock.Mem Client G) ℕ Bool)
          (CellLoc GeneticLock.Loc Spinlock.Pc)},
      (((GeneticLock.guards cfg std seed Client).upon spinlock).Reachable s →
          LockedByOne (fun l i => l.Holds cfg (.range i)) s) ∧
        ((((GeneticLock.guards cfg std seed Client).restrict GeneticLock.permits).upon
          spinlock).Reachable s → DisjointFuncs GeneticLock.Loc.inFunc s)) := by
  refine ⟨?_, ?_, ?_⟩
  · intro cfg Client _ s hs
    have hreach := (Guards.abstracts hs).1
    exact ⟨lockedByOne_of_owned hs (NaiveLock.owned_of_reachable hreach),
      fun t u r r' hne => NaiveLock.disjoint_of_inFunc hreach hne⟩
  · intro cfg Client _ s hs
    have hreach := (Guards.abstracts hs).1
    exact ⟨lockedByOne_of_owned hs (DynamicLock.owned_of_reachable hreach),
      fun t u r r' hne => DynamicLock.disjoint_of_inFunc hreach hne⟩
  · intro cfg G std seed Client _ s
    refine ⟨fun hs => ?_, fun hs => ?_⟩
    · have hreach := (Guards.abstracts hs).1
      exact lockedByOne_of_owned hs fun i => GeneticLock.owned_of_reachable hreach (.range i)
    · have hreach : (GeneticLock.served cfg std seed Client).Reachable (Guards.inner s) :=
        (Guards.abstracts hs).1
      exact fun t u r r' hne ht hu => GeneticLock.exclusive_of_inv hreach.of_restrict
        (GeneticLock.inv_of_served hreach) t u r r' hne ht hu

end DynLocks
