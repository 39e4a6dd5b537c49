import DynLocks.Naive.Machine
import DynLocks.Dynamic.LockOrder
import DynLocks.Genetic.LockOrder

/-!
# DynLocks.NoDeadlock

No mutex deadlock in any of the three locks: each takes its mutexes in one
order, so nobody waits in a circle (`no_deadlock`).
-/

namespace DynLocks

open Interleaving LockOrder

/-- **No mutex deadlock**: in no reachable state of a `NaiveLock`, a `DynamicLock` or a
`GeneticLock` is there a nonempty set of threads each of which waits for a mutex that a thread of
the set holds; and a call that spins on `pause_queries_` or on an odd epoch holds no mutex. -/
theorem no_deadlock :
    (∀ (cfg : NaiveLock.Config) {Client : Type} [DecidableEq Client]
        {s : State Client (NaiveLock.Mem Client) NaiveLock.Loc},
      (NaiveLock.machine cfg Client).Reachable s →
        ∀ ts, ¬Deadlock (fun t => (s.loc t).wants) s.mem.locks ts) ∧
    (∀ (cfg : DynamicLock.Config) {Client : Type} [DecidableEq Client]
        {s : State (Tid Client) (DynamicLock.Mem Client) DynamicLock.Loc},
      (DynamicLock.machine cfg Client).Reachable s →
        (∀ ts, ¬Deadlock (fun t => (s.loc t).wants) s.mem.owner ts) ∧
        ∀ t, (s.loc t).Spins → ∀ x, s.mem.owner x ≠ some t) ∧
    (∀ (cfg : GeneticLock.Config) {G : Type} (std : GeneticPartitioner.StdLib G) (seed : G)
        {Client : Type} [DecidableEq Client]
        {s : State (Tid Client) (GeneticLock.Mem Client G) GeneticLock.Loc},
      (GeneticLock.machine cfg std seed Client).Reachable s →
        (∀ ts, ¬Deadlock (fun t => (s.loc t).wants) s.mem.owner ts) ∧
        ∀ t, (s.loc t).Spins → ∀ x, s.mem.owner x ≠ some t) := by
  refine ⟨?_, ?_, ?_⟩
  · intro cfg Client _ s hs
    exact (NaiveLock.ordered_of_reachable hs).not_deadlock
  · intro cfg Client _ s hs
    exact ⟨(DynamicLock.ordered_of_reachable hs).not_deadlock,
      fun t ht => DynamicLock.owner_ne_of_spins hs ht⟩
  · intro cfg G std seed Client _ s hs
    exact ⟨(GeneticLock.ordered_of_reachable hs).not_deadlock,
      fun t ht => GeneticLock.owner_ne_of_spins hs ht⟩

/-- Client `c` inside `func` and client `d` waiting for its mutex. -/
def waiting (c d : Fin 2) : List (Tid (Fin 2) × DynamicLock.Act) :=
  DynamicLock.intoFunc c 0 ++
    (.client d, .call (.writeQuery 0 0)) :: List.replicate 4 (.client d, .step)

theorem isSome_exec_waiting :
    ((DynamicLock.machine DynamicLock.twoBlocks (Fin 2)).exec (waiting 0 1)
      (DynamicLock.machine DynamicLock.twoBlocks (Fin 2)).initial).isSome :=
  rfl

/-- The two do not wait for each other. -/
theorem no_deadlock_waiting :
    let s := ((DynamicLock.machine DynamicLock.twoBlocks (Fin 2)).exec (waiting 0 1)
      (DynamicLock.machine DynamicLock.twoBlocks (Fin 2)).initial).get isSome_exec_waiting
    (s.loc (.client 1)).wants = some (.range 0) ∧
      s.mem.owner (.range 0) = some (.client 0) ∧
      ¬Deadlock (fun t => (s.loc t).wants) s.mem.owner Set.univ := by
  intro s
  have hs : (DynamicLock.machine DynamicLock.twoBlocks (Fin 2)).Reachable s :=
    Program.reachable_exec .init (Option.some_get isSome_exec_waiting).symm
  exact ⟨rfl, rfl, (no_deadlock.2.1 _ hs).1 Set.univ⟩

end DynLocks
